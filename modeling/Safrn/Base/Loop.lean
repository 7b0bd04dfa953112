import Mathlib.Logic.Basic
import Mathlib.Logic.Function.Basic

/-!
# Counted loops and their invariants

`for (i = 0; i != n; ++i)` over a state, without and with failure, and the rule that carries an
invariant indexed by the counter from the loop's start to its end.
-/

namespace Safrn.Base

universe u

variable {σ : Type u}

/-- Run the body for `0, …, n - 1`. -/
def forRange (f : σ → Nat → σ) : Nat → σ → σ
  | 0, s => s
  | n + 1, s => f (forRange f n s) n

/-- Run the body for `0, …, n - 1`, stopping at the first failure. -/
def forRangeM (f : σ → Nat → Option σ) : Nat → σ → Option σ
  | 0, s => some s
  | n + 1, s => (forRangeM f n s).bind (fun t ↦ f t n)

/-- An invariant that each round carries from `i` to `i + 1` holds at the end. -/
theorem forRange_invariant {f : σ → Nat → σ} (I : Nat → σ → Prop) {n : Nat} {s : σ}
    (h0 : I 0 s) (hf : ∀ i < n, ∀ t, I i t → I (i + 1) (f t i)) : I n (forRange f n s) := by
  induction n with
  | zero => exact h0
  | succ n ih =>
    exact hf n (Nat.lt_succ_self n) _ (ih fun i hi t ht ↦ hf i (Nat.lt_succ_of_lt hi) t ht)

/-- When each round succeeds from the invariant and restores it, the loop succeeds. -/
theorem forRangeM_invariant {f : σ → Nat → Option σ} (I : Nat → σ → Prop) {n : Nat} {s : σ}
    (h0 : I 0 s) (hf : ∀ i < n, ∀ t, I i t → ∃ t', f t i = some t' ∧ I (i + 1) t') :
    ∃ t, forRangeM f n s = some t ∧ I n t := by
  induction n with
  | zero => exact ⟨s, rfl, h0⟩
  | succ n ih =>
    obtain ⟨t, ht, hI⟩ := ih fun i hi t ht ↦ hf i (Nat.lt_succ_of_lt hi) t ht
    obtain ⟨t', ht', hI'⟩ := hf n (Nat.lt_succ_self n) t hI
    exact ⟨t', by rw [forRangeM, ht, Option.bind_some, ht'], hI'⟩

/-- What each round that succeeds keeps, a loop that succeeds keeps. -/
theorem forRangeM_some {f : σ → Nat → Option σ} (I : Nat → σ → Prop) {n : Nat} {s t : σ}
    (h0 : I 0 s) (hf : ∀ i < n, ∀ t t', I i t → f t i = some t' → I (i + 1) t')
    (h : forRangeM f n s = some t) : I n t := by
  induction n generalizing t with
  | zero => exact Option.some.inj h ▸ h0
  | succ n ih =>
    obtain ⟨t₁, ht₁, ht⟩ := Option.bind_eq_some_iff.mp h
    have hI := ih (fun i hi t t' ↦ hf i (Nat.lt_succ_of_lt hi) t t') ht₁
    exact hf n (Nat.lt_succ_self n) _ _ hI ht

/-- A loop that replaces one entry after the other by what only depends on it. -/
theorem forRangeM_update {α : Type u} {f : (Nat → α) → Nat → Option (Nat → α)} {g : Nat → α → α}
    {n : Nat} {a : Nat → α}
    (hf : ∀ i < n, ∀ b : Nat → α, b i = a i → f b i = some (Function.update b i (g i (a i)))) :
    ∃ b, forRangeM f n a = some b ∧ ∀ i, b i = if i < n then g i (a i) else a i := by
  apply forRangeM_invariant fun n (b : Nat → α) ↦ ∀ i, b i = if i < n then g i (a i) else a i
  · intro i
    rw [if_neg (Nat.not_lt_zero i)]
  · intro n hn b hb
    refine ⟨_, hf n hn b (by rw [hb, if_neg (Nat.lt_irrefl n)]), fun i ↦ ?_⟩
    by_cases hin : i = n
    · rw [hin, Function.update_self, if_pos (Nat.lt_succ_self n)]
    · have hiff : i < n + 1 ↔ i < n := by omega
      simp only [Function.update_of_ne hin, hb i, hiff]

/-- Append the values for `0, …, n - 1`, stopping at the first that is missing. -/
def collect {α : Type} (n : Nat) (f : Nat → Option α) : Option (List α) :=
  forRangeM (fun done i ↦ (f i).map fun value ↦ done ++ [value]) n []

theorem collect_eq {α : Type} {n : Nat} {f : Nat → Option α} {g : Nat → α}
    (h : ∀ i < n, f i = some (g i)) : collect n f = some ((List.range n).map g) := by
  have hloop : ∃ done, collect n f = some done ∧ done = (List.range n).map g := by
    apply forRangeM_invariant fun k done ↦ done = (List.range k).map g
    · rfl
    · rintro i hi done rfl
      refine ⟨(List.range (i + 1)).map g, ?_, rfl⟩
      simp [h i hi, List.range_succ]
  obtain ⟨done, hrun, rfl⟩ := hloop
  exact hrun

end Safrn.Base
