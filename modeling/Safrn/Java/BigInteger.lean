import Mathlib.Data.Int.Bitwise
import Mathlib.Data.Nat.Size
import Safrn.Base.TwosComplement
import Safrn.Java.Status

/-!
# Integers of the Java services

Models what the services use of `java.math.BigInteger`. An integer has at most `Integer.MAX_VALUE`
bits beside its sign; what is larger is refused.
-/

namespace Safrn.Java

open Safrn.Base

/-- `Integer.MAX_VALUE`. -/
def Integer.MAX_VALUE : ℕ := 2 ^ 31 - 1

/-- `Long.MAX_VALUE`. -/
def Long.MAX_VALUE : ℕ := 2 ^ 63 - 1

/-- A `BigInteger`. -/
structure BigInteger where
  value : ℤ
  inRange : value.natAbs.size ≤ Integer.MAX_VALUE
  deriving DecidableEq

namespace BigInteger

/-- `ZERO`. -/
def ZERO : BigInteger := ⟨0, by decide⟩

/-- `ONE`. -/
def ONE : BigInteger := ⟨1, by decide⟩

/-- The result of a constructor or an operation. -/
def ofInt (x : ℤ) : Except Status BigInteger :=
  if h : x.natAbs.size ≤ Integer.MAX_VALUE then .ok ⟨x, h⟩ else .error .arithmeticException

/-- `new BigInteger(val)` for a `byte[]`. -/
def ofBytes (val : List (BitVec 8)) : Except Status BigInteger :=
  if val = [] then .error .numberFormatException else ofInt (signedValue val)

/-- `valueOf`. -/
def valueOf (val : BitVec 64) : BigInteger where
  value := val.toInt
  inRange := by
    have hlo := BitVec.le_toInt val
    have hhi := BitVec.toInt_lt (x := val)
    have hsize : val.toInt.natAbs.size ≤ 64 := Nat.size_le.mpr (by omega)
    exact Nat.le_trans hsize (by decide)

/-- `subtract`. -/
def subtract (x val : BigInteger) : Except Status BigInteger := ofInt (x.value - val.value)

/-- `multiply`. -/
def multiply (x val : BigInteger) : Except Status BigInteger := ofInt (x.value * val.value)

/-- `divide`, which rounds towards zero. -/
def divide (x val : BigInteger) : Except Status BigInteger :=
  if val.value = 0 then .error .arithmeticException else ofInt (x.value.tdiv val.value)

/-- `and`, of numbers in two's complement. -/
def and (x val : BigInteger) : Except Status BigInteger := ofInt (Int.land x.value val.value)

/-- `signum`. -/
def signum (x : BigInteger) : ℤ := x.value.sign

/-- `bitLength`: the bits beside the sign in two's complement. -/
def bitLength (x : BigInteger) : ℕ := (if x.value < 0 then -x.value - 1 else x.value).toNat.size

/-- `toByteArray`. -/
def toByteArray (x : BigInteger) : List (BitVec 8) := signedBytes (x.bitLength / 8 + 1) x.value

/-- `intValue`. -/
def intValue (x : BigInteger) : BitVec 32 := BitVec.ofInt 32 x.value

/-- `longValue`. -/
def longValue (x : BigInteger) : BitVec 64 := BitVec.ofInt 64 x.value

@[ext] theorem ext {x y : BigInteger} (h : x.value = y.value) : x = y := by
  cases x
  cases y
  cases h
  rfl

@[simp] theorem length_toByteArray (x : BigInteger) :
    x.toByteArray.length = x.bitLength / 8 + 1 := length_signedBytes _ _

@[simp] theorem ofInt_value (x : BigInteger) : ofInt x.value = .ok x := dif_pos x.inRange

/-- A result is the number that it was made from. -/
theorem ofInt_eq_ok {v : ℤ} {x : BigInteger} : ofInt v = .ok x ↔ x.value = v := by
  constructor
  · intro h
    rw [ofInt] at h
    split at h
    · exact (congrArg value (Except.ok.inj h)).symm
    · contradiction
  · rintro rfl
    exact ofInt_value x

/-- Only what is further away from zero may be refused. -/
theorem exists_ofInt (x : BigInteger) {v : ℤ} (h : v.natAbs ≤ x.value.natAbs) :
    ∃ y, ofInt v = .ok y :=
  ⟨_, dif_pos (Nat.le_trans (Nat.size_le_size h) x.inRange)⟩

theorem neg_limit_le (x : BigInteger) : -2 ^ Integer.MAX_VALUE ≤ x.value := by
  have hlt : x.value.natAbs < 2 ^ Integer.MAX_VALUE := Nat.size_le.mp x.inRange
  have hcast : (x.value.natAbs : ℤ) < 2 ^ Integer.MAX_VALUE := by exact_mod_cast hlt
  generalize (2 : ℤ) ^ Integer.MAX_VALUE = limit at hcast ⊢
  omega

theorem toByteArray_ne_nil (x : BigInteger) : x.toByteArray ≠ [] := by
  apply List.ne_nil_of_length_pos
  rw [length_toByteArray]
  omega

/-- The number fits into its bytes. -/
theorem value_bounds (x : BigInteger) :
    -(128 * 256 ^ (x.bitLength / 8)) ≤ x.value ∧ x.value < 128 * 256 ^ (x.bitLength / 8) := by
  have hpow : (128 * 256 ^ (x.bitLength / 8) : ℤ) = 2 ^ (8 * (x.bitLength / 8) + 7) := by
    rw [pow_add, pow_mul]
    ring
  have hsize : (if x.value < 0 then -x.value - 1 else x.value).toNat < 2 ^ x.bitLength :=
    Nat.lt_size_self _
  have hle : 2 ^ x.bitLength ≤ 2 ^ (8 * (x.bitLength / 8) + 7) :=
    Nat.pow_le_pow_right (by decide) (by omega)
  have hlt := Nat.lt_of_lt_of_le hsize hle
  rw [hpow]
  zify at hlt
  split at hlt <;> omega

/-- `new BigInteger(x.toByteArray())`. -/
theorem ofBytes_toByteArray (x : BigInteger) : ofBytes x.toByteArray = .ok x := by
  obtain ⟨hlo, hhi⟩ := x.value_bounds
  rw [ofBytes, if_neg x.toByteArray_ne_nil, toByteArray, signedValue_signedBytes hlo hhi,
    ofInt_value]

/-- A number without a sign needs no more bits than a greater one. -/
theorem bitLength_le {x y : BigInteger} (h0 : 0 ≤ x.value) (h : x.value ≤ y.value) :
    x.bitLength ≤ y.bitLength := by
  apply Nat.size_le_size
  rw [if_neg (by omega), if_neg (by omega)]
  omega

/-- The bytes of a number without a sign, with zeros in front. -/
theorem replicate_append_toByteArray {x : BigInteger} {size : ℕ} (h0 : 0 ≤ x.value)
    (h : x.toByteArray.length ≤ size) :
    List.replicate (size - x.toByteArray.length) 0#8 ++ x.toByteArray =
      signedBytes size x.value := by
  have hlt : x.value < 256 ^ (x.bitLength / 8 + 1) := by
    have hhi := x.value_bounds.2
    rw [pow_succ]
    omega
  rw [length_toByteArray] at h ⊢
  rw [toByteArray, ← signedBytes_of_lt h0 hlt, Nat.sub_add_cancel h]

/-- The array is no longer than an array can be. -/
theorem length_toByteArray_le (x : BigInteger) : x.toByteArray.length ≤ Integer.MAX_VALUE := by
  have hsize : x.bitLength ≤ x.value.natAbs.size := by
    apply Nat.size_le_size
    split <;> omega
  have hrange := x.inRange
  rw [length_toByteArray]
  simp only [Integer.MAX_VALUE] at hrange ⊢
  omega

end BigInteger

end Safrn.Java
