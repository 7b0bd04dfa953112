import Mathlib.Data.Nat.Bitwise
import Mathlib.Tactic.Ring

/-!
# Two fields packed in one word

General facts on a word `hi <<< w ||| lo` whose low field fits in `w` bits: how each field
is extracted again by a shift or a mask, and when the word fits in a given number of bits.
-/

namespace Safrn.Base

/-- The mask of `w` one bits is one below the power. -/
theorem mask_eq (w : Nat) : (1 <<< w) - 1 = 2 ^ w - 1 := by
  rw [Nat.one_shiftLeft]

/-- Masking keeps the residue modulo the power. -/
theorem and_mask (x w : Nat) : x &&& ((1 <<< w) - 1) = x % 2 ^ w := by
  rw [mask_eq, Nat.and_two_pow_sub_one_eq_mod]

/-- A masked word fits in the mask's width. -/
theorem and_mask_lt (x w : Nat) : x &&& ((1 <<< w) - 1) < 2 ^ w := by
  rw [and_mask]
  exact Nat.mod_lt _ (Nat.two_pow_pos w)

/-- Packing is positional when the low field fits. -/
theorem pack_eq (hi : Nat) {lo w : Nat} (h : lo < 2 ^ w) :
    hi <<< w ||| lo = hi * 2 ^ w + lo := by
  rw [← Nat.shiftLeft_add_eq_or_of_lt h, Nat.shiftLeft_eq]

/-- The mask recovers the low field. -/
theorem pack_and_mask (hi : Nat) {lo w : Nat} (h : lo < 2 ^ w) :
    (hi <<< w ||| lo) &&& ((1 <<< w) - 1) = lo := by
  rw [and_mask, pack_eq hi h, Nat.mul_add_mod', Nat.mod_eq_of_lt h]

/-- The shift recovers the high field. -/
theorem pack_shiftRight (hi : Nat) {lo w : Nat} (h : lo < 2 ^ w) :
    (hi <<< w ||| lo) >>> w = hi := by
  rw [Nat.shiftRight_eq_div_pow, pack_eq hi h, Nat.mul_comm,
    Nat.mul_add_div (Nat.two_pow_pos w), Nat.div_eq_of_lt h, Nat.add_zero]

/-- A packed word fits in the sum of the two widths. -/
theorem pack_lt {hi lo v w : Nat} (hh : hi < 2 ^ v) (hl : lo < 2 ^ w) :
    hi <<< w ||| lo < 2 ^ (v + w) := by
  rw [pack_eq hi hl, Nat.pow_add]
  calc hi * 2 ^ w + lo < hi * 2 ^ w + 2 ^ w := by omega
    _ = (hi + 1) * 2 ^ w := by ring
    _ ≤ 2 ^ v * 2 ^ w := Nat.mul_le_mul_right _ hh

/-- Splitting a word at `w` and packing the two fields again gives the word. -/
theorem pack_split (x w : Nat) :
    (x >>> w) <<< w ||| (x &&& ((1 <<< w) - 1)) = x := by
  rw [pack_eq _ (and_mask_lt x w), Nat.shiftRight_eq_div_pow, and_mask, Nat.mul_comm]
  exact Nat.div_add_mod x (2 ^ w)

/-- The high field of a word of `v + w` bits fits in `v` bits. -/
theorem shiftRight_lt {x v w : Nat} (h : x < 2 ^ (v + w)) : x >>> w < 2 ^ v := by
  rw [Nat.shiftRight_eq_div_pow, Nat.div_lt_iff_lt_mul (Nat.two_pow_pos w), ← Nat.pow_add]
  exact h

/-- A word fits in `w` bits exactly when shifting it right by `w` leaves zero. -/
theorem shiftRight_eq_zero_iff (x w : Nat) : x >>> w = 0 ↔ x < 2 ^ w := by
  rw [Nat.shiftRight_eq_div_pow, Nat.div_eq_zero_iff]
  have := Nat.two_pow_pos w
  omega

/-- The lowest bit of a shifted word is a test of one bit. -/
theorem shiftRight_and_one (n k : Nat) : n >>> k &&& 1 = (n.testBit k).toNat := by
  rw [Nat.testBit, Nat.and_comm 1]
  rcases Nat.mod_two_eq_zero_or_one (n >>> k) with h | h <;> simp [Nat.and_one_is_mod, h]

end Safrn.Base
