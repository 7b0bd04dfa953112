import Mathlib.Data.List.Basic
import Safrn.Base.Loop

/-!
# Fixed-width integers in byte buffers

An integer of `n` bytes is written most significant byte first, and read back by shifting each
byte to its place. Reading what was written gives the integer and the bytes behind it.
-/

namespace Safrn.Base

/-- The `n` bytes of an integer, the most significant one first. -/
def bigEndian (n : Nat) (value : BitVec (8 * n)) : List (BitVec 8) :=
  (List.range n).map fun it ↦ (value >>> ((n - 1 - it) * 8)).setWidth 8

/-- The integer of `n` bytes, the most significant one first. -/
def ofBigEndian (n : Nat) (bytes : List (BitVec 8)) : BitVec (8 * n) :=
  forRange
    (fun result it ↦ result ||| (bytes.getD it 0#8).setWidth (8 * n) <<< ((n - 1 - it) * 8)) n
    0#(8 * n)

@[simp] theorem bigEndian_length (n : Nat) (value : BitVec (8 * n)) :
    (bigEndian n value).length = n := by
  rw [bigEndian, List.length_map, List.length_range]

theorem bigEndian_getD {n i : Nat} (hi : i < n) (value : BitVec (8 * n)) :
    (bigEndian n value).getD i 0#8 = (value >>> ((n - 1 - i) * 8)).setWidth 8 := by
  rw [bigEndian, List.getD_eq_getElem?_getD, List.getElem?_map, List.getElem?_range hi]
  rfl

/-- One byte adds its eight bits. -/
private theorem or_byte_getLsbD {n i : Nat} (hi : i < n) (value t : BitVec (8 * n))
    (ht : ∀ k, t.getLsbD k = (decide (8 * (n - i) ≤ k) && value.getLsbD k)) (k : Nat) :
    (t ||| ((value >>> ((n - 1 - i) * 8)).setWidth 8).setWidth (8 * n) <<<
        ((n - 1 - i) * 8)).getLsbD k =
      (decide (8 * (n - (i + 1)) ≤ k) && value.getLsbD k) := by
  rw [BitVec.getLsbD_or, ht, BitVec.getLsbD_shiftLeft, BitVec.getLsbD_setWidth,
    BitVec.getLsbD_setWidth, BitVec.getLsbD_ushiftRight]
  by_cases hlow : k < (n - 1 - i) * 8
  · -- below the byte: nothing yet
    have h₁ : ¬ 8 * (n - i) ≤ k := by omega
    have h₂ : ¬ 8 * (n - (i + 1)) ≤ k := by omega
    simp only [h₁, h₂, hlow, decide_false, decide_true, Bool.false_and, Bool.not_true,
      Bool.and_false, Bool.or_false]
  · have hk : (n - 1 - i) * 8 + (k - (n - 1 - i) * 8) = k := by omega
    have h₂ : 8 * (n - (i + 1)) ≤ k := by omega
    rw [hk]
    by_cases hin : k < 8 * (n - i)
    · -- inside the byte
      have h₁ : ¬ 8 * (n - i) ≤ k := by omega
      have h₃ : k < 8 * n := by omega
      have h₄ : k - (n - 1 - i) * 8 < 8 * n := by omega
      have h₅ : k - (n - 1 - i) * 8 < 8 := by omega
      simp only [h₁, h₂, h₃, h₄, h₅, hlow, decide_false, decide_true, Bool.false_and,
        Bool.not_false, Bool.true_and, Bool.false_or]
    · -- above the byte: read before
      have h₁ : 8 * (n - i) ≤ k := by omega
      have h₅ : ¬ k - (n - 1 - i) * 8 < 8 := by omega
      simp only [h₁, h₂, h₅, decide_false, decide_true, Bool.false_and, Bool.and_false,
        Bool.or_false, Bool.true_and]

/-- Reading what was written gives the integer. -/
theorem ofBigEndian_bigEndian (n : Nat) (value : BitVec (8 * n)) :
    ofBigEndian n (bigEndian n value) = value := by
  have hall : ∀ k, (ofBigEndian n (bigEndian n value)).getLsbD k =
      (decide (8 * (n - n) ≤ k) && value.getLsbD k) := by
    refine forRange_invariant
      (fun i (t : BitVec (8 * n)) ↦
        ∀ k, t.getLsbD k = (decide (8 * (n - i) ≤ k) && value.getLsbD k)) ?_ ?_
    · intro k
      rw [Nat.sub_zero, BitVec.getLsbD_zero]
      by_cases hk : 8 * n ≤ k
      · rw [BitVec.getLsbD_of_ge value k hk, Bool.and_false]
      · rw [decide_eq_false hk, Bool.false_and]
    · intro i hi t ht k
      rw [bigEndian_getD hi]
      exact or_byte_getLsbD hi value t ht k
  refine BitVec.eq_of_getLsbD_eq fun k _ ↦ ?_
  rw [hall, decide_eq_true (by omega), Bool.true_and]

/-- A bit of what was read comes from the byte in its place. -/
private theorem ofBigEndian_getLsbD (n : Nat) (bytes : List (BitVec 8)) (k : Nat) :
    (ofBigEndian n bytes).getLsbD k =
      (decide (k < 8 * n) && (bytes.getD (n - 1 - k / 8) 0#8).getLsbD (k % 8)) := by
  have hall : ∀ k, (ofBigEndian n bytes).getLsbD k =
      (decide (8 * (n - n) ≤ k) && (decide (k < 8 * n) &&
        (bytes.getD (n - 1 - k / 8) 0#8).getLsbD (k % 8))) := by
    apply forRange_invariant fun i (t : BitVec (8 * n)) ↦
      ∀ k, t.getLsbD k = (decide (8 * (n - i) ≤ k) && (decide (k < 8 * n) &&
        (bytes.getD (n - 1 - k / 8) 0#8).getLsbD (k % 8)))
    · intro k
      rw [Nat.sub_zero, BitVec.getLsbD_zero]
      by_cases hk : k < 8 * n
      · rw [decide_eq_false (Nat.not_le_of_lt hk), Bool.false_and]
      · rw [decide_eq_false hk, Bool.false_and, Bool.and_false]
    · intro i hi t ht k
      rw [BitVec.getLsbD_or, ht, BitVec.getLsbD_shiftLeft, BitVec.getLsbD_setWidth]
      by_cases hin : k / 8 = n - 1 - i
      · -- inside the byte
        have hmod : k - (n - 1 - i) * 8 = k % 8 := by omega
        have hindex : n - 1 - k / 8 = i := by omega
        have h₁ : ¬ 8 * (n - i) ≤ k := by omega
        have h₂ : 8 * (n - (i + 1)) ≤ k := by omega
        have h₃ : ¬ k < (n - 1 - i) * 8 := by omega
        have h₄ : k % 8 < 8 * n := by omega
        have h₅ : k < 8 * n := by omega
        simp only [hmod, hindex, h₁, h₂, h₃, h₄, h₅, decide_false, decide_true, Bool.false_and,
          Bool.false_or, Bool.not_false, Bool.true_and]
      · by_cases hlow : k < (n - 1 - i) * 8
        · -- below the byte: nothing yet
          have h₁ : ¬ 8 * (n - i) ≤ k := by omega
          have h₂ : ¬ 8 * (n - (i + 1)) ≤ k := by omega
          simp only [h₁, h₂, hlow, decide_false, decide_true, Bool.false_and, Bool.not_true,
            Bool.and_false, Bool.or_false]
        · -- above the byte: read before
          have h₁ : 8 * (n - i) ≤ k := by omega
          have h₂ : 8 * (n - (i + 1)) ≤ k := by omega
          have h₃ : 8 ≤ k - (n - 1 - i) * 8 := by omega
          rw [BitVec.getLsbD_of_ge _ _ h₃]
          simp only [h₁, h₂, decide_true, Bool.true_and, Bool.and_false, Bool.or_false]
  rw [hall, Nat.sub_self, Nat.mul_zero, decide_eq_true (Nat.zero_le k), Bool.true_and]

/-- Writing what was read gives the bytes. -/
theorem bigEndian_ofBigEndian {n : Nat} {bytes : List (BitVec 8)} (h : bytes.length = n) :
    bigEndian n (ofBigEndian n bytes) = bytes := by
  apply List.ext_getElem
  · rw [bigEndian_length, h]
  · intro i hi hi'
    rw [bigEndian_length] at hi
    simp only [bigEndian, List.getElem_map, List.getElem_range]
    apply BitVec.eq_of_getLsbD_eq
    intro k hk
    have hdiv : ((n - 1 - i) * 8 + k) / 8 = n - 1 - i := by omega
    have hmod : ((n - 1 - i) * 8 + k) % 8 = k := by omega
    have hlt : (n - 1 - i) * 8 + k < 8 * n := by omega
    have hindex : n - 1 - (n - 1 - i) = i := by omega
    rw [BitVec.getLsbD_setWidth, BitVec.getLsbD_ushiftRight, ofBigEndian_getLsbD, hdiv, hmod,
      hindex, decide_eq_true hk, decide_eq_true hlt, Bool.true_and, Bool.true_and,
      List.getD_eq_getElem?_getD, List.getElem?_eq_getElem hi', Option.getD_some]

example : bigEndian 4 0x00010203#32 = [0x00#8, 0x01#8, 0x02#8, 0x03#8] := by decide

end Safrn.Base
