import Mathlib.Data.List.Range
import Mathlib.Tactic.Ring
import Safrn.Base.CrossJoin

/-!
# Mixed radix

The digits of a number to a list of bases, of which the last one varies fastest; how an odometer
comes from one number to the next; and the digits of all numbers in order, which are the cross join
of the digits of each place.
-/

namespace Safrn.Base

namespace MixedRadix

/-- The digits of a number. -/
def digits : List ℕ → ℕ → List ℕ
  | [], _ => []
  | _ :: bases, n => n / bases.prod :: digits bases (n % bases.prod)

/-- The digits of the next number, and whether they have come back to zero. -/
def next : List ℕ → List ℕ → Bool × List ℕ
  | base :: bases, d :: ds =>
    match next bases ds with
    | (true, ds) => if d + 1 < base then (false, (d + 1) :: ds) else (true, 0 :: ds)
    | (false, ds) => (false, d :: ds)
  | _, _ => (true, [])

@[simp] theorem length_digits (bases : List ℕ) (n : ℕ) :
    (digits bases n).length = bases.length := by
  induction bases generalizing n with
  | nil => rfl
  | cons base bases ih => rw [digits, List.length_cons, List.length_cons, ih]

@[simp] theorem digits_zero (bases : List ℕ) :
    digits bases 0 = List.replicate bases.length 0 := by
  induction bases with
  | nil => rfl
  | cons base bases ih =>
    rw [digits, Nat.zero_div, Nat.zero_mod, ih]
    rfl

/-- The bases of a number that has digits are positive. -/
theorem pos_of_lt_mul {base prod n : ℕ} (h : n < base * prod) : 0 < prod :=
  Nat.pos_of_ne_zero fun h0 ↦ by
    rw [h0, Nat.mul_zero] at h
    exact Nat.not_lt_zero n h

/-- Each digit is below its base. -/
theorem digits_lt {bases : List ℕ} {n : ℕ} (h : n < bases.prod) :
    List.Forall₂ (· < ·) (digits bases n) bases := by
  induction bases generalizing n with
  | nil => exact .nil
  | cons base bases ih =>
    rw [List.prod_cons] at h
    have hpos := pos_of_lt_mul h
    exact .cons ((Nat.div_lt_iff_lt_mul hpos).mpr h) (ih (Nat.mod_lt n hpos))

/-- The odometer counts, and starts again behind the last number. -/
theorem next_digits {bases : List ℕ} {n : ℕ} (h : n < bases.prod) :
    next bases (digits bases n) =
      if n + 1 < bases.prod then (false, digits bases (n + 1)) else (true, digits bases 0) := by
  induction bases generalizing n with
  | nil =>
    rw [List.prod_nil] at h ⊢
    rw [if_neg (by omega)]
    rfl
  | cons base bases ih =>
    rw [List.prod_cons] at h ⊢
    have hpos := pos_of_lt_mul h
    have hmod := Nat.mod_lt n hpos
    have hdiv := (Nat.div_lt_iff_lt_mul hpos).mpr h
    have hn := Nat.div_add_mod n bases.prod
    rw [digits, next, ih hmod]
    generalize n / bases.prod = d at hdiv hn ⊢
    generalize n % bases.prod = r at hmod hn ⊢
    generalize hprod : bases.prod = prod at hpos hmod hn ⊢
    by_cases hr : r + 1 < prod
    · -- the lower digits go on
      have hsucc : n + 1 = (r + 1) + prod * d := by omega
      have hlt : n + 1 < base * prod :=
        calc n + 1 = prod * d + (r + 1) := by omega
          _ < prod * d + prod := by omega
          _ = (d + 1) * prod := by ring
          _ ≤ base * prod := Nat.mul_le_mul_right prod hdiv
      rw [if_pos hr, if_pos hlt, digits, hprod, hsucc, Nat.add_mul_div_left _ _ hpos,
        Nat.add_mul_mod_self_left, Nat.div_eq_of_lt hr, Nat.mod_eq_of_lt hr, Nat.zero_add]
    · -- the lower digits start again
      have hsucc : n + 1 = (d + 1) * prod := by
        rw [← hn, Nat.add_assoc, show r + 1 = prod by omega]
        ring
      rw [if_neg hr, hsucc]
      dsimp only
      by_cases hd : d + 1 < base
      · rw [if_pos hd, if_pos ((Nat.mul_lt_mul_right hpos).mpr hd), digits, hprod,
          Nat.mul_div_cancel _ hpos, Nat.mul_mod_left]
      · rw [if_neg hd, if_neg fun hlt ↦ hd ((Nat.mul_lt_mul_right hpos).mp hlt), digits, hprod,
          Nat.zero_div, Nat.zero_mod]

/-- The last place of the odometer moves first. -/
theorem next_concat {bases ds : List ℕ} (h : ds.length = bases.length) (base d : ℕ) :
    next (bases ++ [base]) (ds ++ [d]) =
      if d + 1 < base then (false, ds ++ [d + 1])
      else ((next bases ds).1, (next bases ds).2 ++ [0]) := by
  induction bases generalizing ds with
  | nil =>
    obtain rfl := List.length_eq_zero_iff.mp h
    rfl
  | cons base' bases ih =>
    obtain ⟨d', ds, rfl⟩ := List.exists_cons_of_length_eq_add_one h
    rw [List.cons_append, List.cons_append, next, ih (Nat.succ.inj h)]
    by_cases hd : d + 1 < base
    · rw [if_pos hd, if_pos hd]
      rfl
    · rw [if_neg hd, if_neg hd, next]
      obtain ⟨carry, ds'⟩ := next bases ds
      cases carry with
      | false => rfl
      | true =>
        dsimp only
        split <;> rfl

/-- All numbers in order, by their first digit. -/
theorem map_range_mul {α : Type} (f : ℕ → α) (a b : ℕ) :
    (List.range (a * b)).map f =
      (List.range a).flatMap fun d ↦ (List.range b).map fun r ↦ f (d * b + r) := by
  induction a with
  | zero =>
    rw [Nat.zero_mul]
    rfl
  | succ a ih =>
    rw [Nat.succ_mul, List.range_add, List.map_append, ih, List.range_succ, List.flatMap_append,
      List.flatMap_singleton, List.map_map]
    rfl

/-- The digits of all numbers are the ways to choose a digit for each place. -/
theorem map_digits_range (bases : List ℕ) :
    (List.range bases.prod).map (digits bases) = crossJoin (bases.map List.range) := by
  induction bases with
  | nil => rfl
  | cons base bases ih =>
    rw [List.prod_cons, map_range_mul, List.map_cons, crossJoin, ← ih]
    congr 1
    funext d
    rw [List.map_map]
    apply List.map_congr_left
    intro r hr
    have hlt := List.mem_range.mp hr
    have hpos : 0 < bases.prod := Nat.lt_of_le_of_lt (Nat.zero_le r) hlt
    rw [digits, Nat.mul_comm d, Nat.mul_add_div hpos, Nat.mul_add_mod, Nat.div_eq_of_lt hlt,
      Nat.mod_eq_of_lt hlt]
    rfl

end MixedRadix

end Safrn.Base
