import Mathlib.Data.List.Basic

/-!
# Blocks of one size in a list

A list is seen as blocks of one size, one after the other. Overwriting one of them leaves the others
as they are.
-/

namespace Safrn.Base

variable {α : Type}

/-- Put elements over those from position `p` on. -/
def overwrite (p : ℕ) (ys xs : List α) : List α := xs.take p ++ ys ++ xs.drop (p + ys.length)

/-- The block `i` of `size` elements. -/
def block (size i : ℕ) (xs : List α) : List α := (xs.drop (i * size)).take size

theorem length_overwrite {p : ℕ} {ys xs : List α} (h : p + ys.length ≤ xs.length) :
    (overwrite p ys xs).length = xs.length := by
  simp only [overwrite, List.length_append, List.length_take, List.length_drop]
  omega

/-- Overwriting goes on where it stopped. -/
theorem overwrite_overwrite {p : ℕ} {ys zs xs : List α} (h : p + ys.length ≤ xs.length) :
    overwrite (p + ys.length) zs (overwrite p ys xs) = overwrite p (ys ++ zs) xs := by
  have hlength : (xs.take p ++ ys).length = p + ys.length := by
    simp only [List.length_append, List.length_take]
    omega
  have htake : (overwrite p ys xs).take (p + ys.length) = xs.take p ++ ys :=
    List.take_left' hlength
  have hdrop : (overwrite p ys xs).drop (p + ys.length + zs.length) =
      xs.drop (p + ys.length + zs.length) := by
    rw [← List.drop_drop, overwrite, List.drop_left' hlength, List.drop_drop]
  rw [overwrite, htake, hdrop, overwrite, List.length_append, List.append_assoc _ ys zs,
    Nat.add_assoc]

theorem getElem?_overwrite {p : ℕ} {ys xs : List α} (h : p + ys.length ≤ xs.length) (k : ℕ) :
    (overwrite p ys xs)[k]? = if p ≤ k ∧ k < p + ys.length then ys[k - p]? else xs[k]? := by
  have htake : (xs.take p).length = p := by
    rw [List.length_take]
    omega
  simp only [overwrite, List.getElem?_append, List.length_append, htake, List.getElem?_take,
    List.getElem?_drop]
  split
  · split
    · rw [if_neg (by omega)]
    · rw [if_pos (by omega)]
  · rw [if_neg (by omega)]
    congr 1
    omega

/-- A block that is overwritten, and the others. -/
theorem block_overwrite {size i : ℕ} {ys xs : List α} (hys : ys.length = size)
    (h : i * size + size ≤ xs.length) (j : ℕ) :
    block size j (overwrite (i * size) ys xs) = if j = i then ys else block size j xs := by
  subst hys
  by_cases hji : j = i
  · subst hji
    have hlength : (xs.take (j * ys.length)).length = j * ys.length := by
      rw [List.length_take]
      omega
    rw [if_pos rfl, block, overwrite, List.append_assoc, List.drop_left' hlength, List.take_left]
  · rw [if_neg hji]
    apply List.ext_getElem?
    intro k
    simp only [block, List.getElem?_take, List.getElem?_drop, getElem?_overwrite h]
    by_cases hk : k < ys.length
    · -- no element of another block lies in block `i`
      have hapart : ¬ (i * ys.length ≤ j * ys.length + k ∧
          j * ys.length + k < i * ys.length + ys.length) := by
        rintro ⟨hlo, hhi⟩
        rcases Nat.lt_or_gt_of_ne hji with hlt | hlt
        · have := Nat.mul_le_mul_right ys.length (Nat.succ_le_of_lt hlt)
          rw [Nat.succ_mul] at this
          omega
        · have := Nat.mul_le_mul_right ys.length (Nat.succ_le_of_lt hlt)
          rw [Nat.succ_mul] at this
          omega
      rw [if_neg hapart]
    · rw [if_neg hk, if_neg hk]

/-- A block of a list of one element. -/
theorem block_replicate {size i n : ℕ} {x : α} (h : i * size + size ≤ n) :
    block size i (List.replicate n x) = List.replicate size x := by
  rw [block, List.drop_replicate, List.take_replicate]
  congr 1
  omega

end Safrn.Base
