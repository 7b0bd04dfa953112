import Mathlib.Data.Int.ModEq
import Mathlib.Tactic.Linarith
import Mathlib.Tactic.LinearCombination
import Mathlib.Tactic.Ring

/-!
# Integers as bytes in two's complement

An integer is written in a number of bytes, the most significant one first, and is read back when it
fits. The first byte of what is read carries the sign.
-/

namespace Safrn.Base

/-- The lowest `n` bytes of an integer, the most significant one first. -/
def signedBytes : ℕ → ℤ → List (BitVec 8)
  | 0, _ => []
  | n + 1, x => BitVec.ofInt 8 (x / 256 ^ n) :: signedBytes n x

/-- The number that bytes stand for without a sign. -/
def unsignedValue : List (BitVec 8) → ℤ
  | [] => 0
  | byte :: bytes => byte.toNat * 256 ^ bytes.length + unsignedValue bytes

/-- The number that bytes stand for in two's complement. -/
def signedValue : List (BitVec 8) → ℤ
  | [] => 0
  | byte :: bytes => byte.toInt * 256 ^ bytes.length + unsignedValue bytes

@[simp] theorem length_signedBytes (n : ℕ) (x : ℤ) : (signedBytes n x).length = n := by
  induction n with
  | zero => rfl
  | succ n ih => rw [signedBytes, List.length_cons, ih]

/-- The bytes of an integer are its remainder. -/
theorem unsignedValue_signedBytes (n : ℕ) (x : ℤ) :
    unsignedValue (signedBytes n x) = x % 256 ^ n := by
  induction n with
  | zero => simp [signedBytes, unsignedValue]
  | succ n ih =>
    have hbyte : ((BitVec.ofInt 8 (x / 256 ^ n)).toNat : ℤ) = x / 256 ^ n % 256 := by
      rw [BitVec.toNat_ofInt]
      omega
    rw [signedBytes, unsignedValue, ih, hbyte, length_signedBytes]
    have h₁ := Int.mul_ediv_add_emod x (256 ^ n)
    have h₂ := Int.mul_ediv_add_emod (x / 256 ^ n) 256
    have h₃ := Int.mul_ediv_add_emod x (256 ^ (n + 1))
    rw [Int.ediv_ediv_of_nonneg (by positivity)] at h₂
    rw [pow_succ] at h₃ ⊢
    linear_combination h₁ - h₃ + 256 ^ n * h₂

/-- Zeros in front do not count. -/
theorem unsignedValue_replicate_append (k : ℕ) (bytes : List (BitVec 8)) :
    unsignedValue (List.replicate k 0#8 ++ bytes) = unsignedValue bytes := by
  induction k with
  | zero => rw [List.replicate_zero, List.nil_append]
  | succ k ih =>
    rw [List.replicate_succ, List.cons_append, unsignedValue, ih, BitVec.toNat_zero, Nat.cast_zero,
      zero_mul, zero_add]

/-- An integer is read from as many bytes as it needs. -/
theorem signedValue_signedBytes {n : ℕ} {x : ℤ} (hlo : -(128 * 256 ^ n) ≤ x)
    (hhi : x < 128 * 256 ^ n) : signedValue (signedBytes (n + 1) x) = x := by
  have hpow : (0 : ℤ) < 256 ^ n := by positivity
  have hge : -128 ≤ x / 256 ^ n := by
    rw [Int.le_ediv_iff_mul_le hpow]
    omega
  have hlt : x / 256 ^ n < 128 := by
    rw [Int.ediv_lt_iff_lt_mul hpow]
    exact hhi
  have hbyte : (BitVec.ofInt 8 (x / 256 ^ n)).toInt = x / 256 ^ n := by
    rw [BitVec.toInt_ofInt]
    apply Int.bmod_eq_of_le <;> omega
  rw [signedBytes, signedValue, hbyte, unsignedValue_signedBytes, length_signedBytes,
    Int.mul_comm, Int.mul_ediv_add_emod]

/-- A number without a sign that needs fewer bytes gets zeros in front. -/
theorem signedBytes_of_lt {n : ℕ} {x : ℤ} (h0 : 0 ≤ x) (hx : x < 256 ^ n) (k : ℕ) :
    signedBytes (k + n) x = List.replicate k 0#8 ++ signedBytes n x := by
  induction k with
  | zero => rw [Nat.zero_add, List.replicate_zero, List.nil_append]
  | succ k ih =>
    have hlt : x < 256 ^ (k + n) :=
      lt_of_lt_of_le hx (pow_le_pow_right₀ (by decide) (Nat.le_add_left n k))
    have hzero : x / 256 ^ (k + n) = 0 := Int.ediv_eq_zero_of_lt h0 hlt
    rw [Nat.succ_add, signedBytes, ih, hzero, List.replicate_succ, List.cons_append]
    rfl

end Safrn.Base
