import Mathlib.Algebra.BigOperators.Group.Finset.Basic

/-!
# Sums over parties when one party changes

A protocol state keeps one component for each party; a step changes the component of one
party. These rules say what that does to a sum over a finite set of parties.
-/

namespace Safrn.Base

variable {ι α M : Type*} [DecidableEq ι] [AddCommMonoid M]

/-- Changing a party of the set exchanges its term. -/
theorem sum_update (S : Finset ι) (f : ι → α) (g : ι → α → M) {p : ι} (hp : p ∈ S) (v : α) :
    ∑ k ∈ S, g k (Function.update f p v k) + g p (f p) = ∑ k ∈ S, g k (f k) + g p v := by
  rw [← Finset.sum_erase_add S (fun k ↦ g k (Function.update f p v k)) hp,
    ← Finset.sum_erase_add S (fun k ↦ g k (f k)) hp, Function.update_self]
  have hrest : ∑ k ∈ S.erase p, g k (Function.update f p v k) = ∑ k ∈ S.erase p, g k (f k) :=
    Finset.sum_congr rfl fun k hk ↦ by rw [Function.update_of_ne (Finset.ne_of_mem_erase hk)]
  rw [hrest, add_right_comm]

/-- A change that keeps the party's term keeps the sum. -/
theorem sum_update_eq (S : Finset ι) (f : ι → α) (g : ι → α → M) (p : ι) {v : α}
    (hv : g p v = g p (f p)) :
    ∑ k ∈ S, g k (Function.update f p v k) = ∑ k ∈ S, g k (f k) := by
  refine Finset.sum_congr rfl fun k _ ↦ ?_
  by_cases hk : k = p
  · subst hk
    rw [Function.update_self, hv]
  · rw [Function.update_of_ne hk]

end Safrn.Base
