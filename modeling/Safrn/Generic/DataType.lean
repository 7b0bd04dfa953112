import Mathlib.Data.Rat.Floor
import Safrn.Base.IntFormat

/-!
# Generic values

Models `DataType` and `GenericValue` of `Util/data_structures.h:43-1295`. An integer is kept in a
machine type that can be wider than its `DataType`: both `INT2` and `INT4` are kept in a `char`.
A `DOUBLE` is a rational number here. Values without a type or without a value are left out.
-/

namespace Safrn.Generic

open Safrn.Base

/-- The string types, by the largest number of bytes. -/
inductive StringType
  | string8
  | string16
  | string24
  | string32
  | string64
  | string128
  deriving DecidableEq

/-- The types of `IsIntegerDataType`. -/
inductive IntegerType
  | bool
  | int2
  | uint2
  | int4
  | uint4
  | int8
  | uint8
  | int16
  | uint16
  | int32
  | uint32
  | int64
  | uint64
  | slice
  deriving DecidableEq

namespace IntegerType

/-- `GetValueNumBits`. -/
def getValueNumBits : IntegerType → ℕ
  | bool => 1
  | int2 | uint2 => 2
  | int4 | uint4 => 4
  | int8 | uint8 => 8
  | int16 | uint16 => 16
  | int32 | uint32 => 32
  | int64 | uint64 | slice => 64

/-- `IsSignedDataType`. -/
def isSigned : IntegerType → Bool
  | int2 | int4 | int8 | int16 | int32 | int64 => true
  | _ => false

theorem forall_iff {p : IntegerType → Prop} :
    (∀ t, p t) ↔ p bool ∧ p int2 ∧ p uint2 ∧ p int4 ∧ p uint4 ∧ p int8 ∧ p uint8 ∧ p int16 ∧
      p uint16 ∧ p int32 ∧ p uint32 ∧ p int64 ∧ p uint64 ∧ p slice := by
  refine ⟨fun h ↦ by simp only [h, and_self], fun h t ↦ ?_⟩
  cases t <;> tauto

theorem getValueNumBits_pos (t : IntegerType) : 0 < t.getValueNumBits := by
  cases t <;> decide

/-- The numbers that a type is for. -/
def format (t : IntegerType) : IntFormat := ⟨t.getValueNumBits, t.isSigned, t.getValueNumBits_pos⟩

/-- The smallest number of a type and the first one above its numbers. -/
def bounds : IntegerType → ℤ × ℤ
  | bool => (0, 2)
  | int2 => (-2, 2)
  | uint2 => (0, 4)
  | int4 => (-8, 8)
  | uint4 => (0, 16)
  | int8 => (-128, 128)
  | uint8 => (0, 256)
  | int16 => (-32768, 32768)
  | uint16 => (0, 65536)
  | int32 => (-2147483648, 2147483648)
  | uint32 => (0, 4294967296)
  | int64 => (-9223372036854775808, 9223372036854775808)
  | uint64 | slice => (0, 18446744073709551616)

theorem holds_iff {t : IntegerType} {v : ℤ} :
    t.format.Holds v ↔ t.bounds.1 ≤ v ∧ v < t.bounds.2 := by
  cases t <;> exact Iff.rfl

/-- The machine type that values of a type are kept in. -/
def holder : IntegerType → IntFormat
  | bool => ⟨1, false, by decide⟩
  | int2 | int4 | int8 => ⟨8, true, by decide⟩
  | uint2 | uint4 | uint8 => ⟨8, false, by decide⟩
  | int16 => ⟨16, true, by decide⟩
  | uint16 => ⟨16, false, by decide⟩
  | int32 => ⟨32, true, by decide⟩
  | uint32 => ⟨32, false, by decide⟩
  | int64 => ⟨64, true, by decide⟩
  | uint64 | slice => ⟨64, false, by decide⟩

/-- The numbers of a type fit in its machine type. -/
theorem holder_holds {t : IntegerType} {v : ℤ} (h : t.format.Holds v) : t.holder.Holds v := by
  cases t <;>
    simp only [IntFormat.Holds, IntFormat.lower, IntFormat.upper, format, holder, isSigned,
      getValueNumBits, if_true, Bool.false_eq_true, if_false] at h ⊢ <;>
    omega

/-- The types that the code reads as `uint64_t`. -/
def isWide (t : IntegerType) : Bool := t = uint64 || t = slice

end IntegerType

/-- An integer with its type. -/
@[ext] structure GenericInteger where
  type : IntegerType
  value : ℤ
  held : type.holder.Holds value

namespace GenericInteger

/-- What the constructor of a holder makes of a number: a `bool` is any number but 0, and the other
machine types reduce it. -/
def ofInt (type : IntegerType) (v : ℤ) : GenericInteger where
  type := type
  value := type.holder.wrap (if type = .bool ∧ v ≠ 0 then 1 else v)
  held := type.holder.holds_wrap _

/-- The value is a number of the type. -/
def InRange (n : GenericInteger) : Prop := n.type.format.Holds n.value

instance : DecidablePred InRange := fun n ↦
  inferInstanceAs (Decidable (n.type.format.Holds n.value))

theorem bounds_of_inRange {n : GenericInteger} (hn : n.InRange) :
    n.type.bounds.1 ≤ n.value ∧ n.value < n.type.bounds.2 :=
  IntegerType.holds_iff.mp hn

@[simp] theorem ofInt_type (t : IntegerType) (v : ℤ) : (ofInt t v).type = t := rfl

theorem ofInt_value_of_ne {t : IntegerType} (ht : t ≠ .bool) (v : ℤ) :
    (ofInt t v).value = t.holder.wrap v := by
  simp only [ofInt, ht, false_and, if_false]

/-- What fits is kept. -/
theorem ofInt_value {t : IntegerType} {v : ℤ} (h : t.holder.Holds v) : (ofInt t v).value = v := by
  by_cases ht : t = .bool
  · subst ht
    have hlo : 0 ≤ v := h.1
    have hhi : v < 2 := h.2
    obtain rfl | rfl : v = 0 ∨ v = 1 := by omega
    · rfl
    · rfl
  · rw [ofInt_value_of_ne ht, IntFormat.wrap_of_holds h]

/-- `GetSignedIntegerValue`. -/
def getSignedIntegerValue (n : GenericInteger) : Option ℤ :=
  if n.type.isWide then none else some n.value

/-- `GetUnsignedIntegerValue`: the ladder of types has no branch for `SLICE`. -/
def getUnsignedIntegerValue (n : GenericInteger) : Option ℤ :=
  if n.type.isSigned then
    if n.value < 0 then none else some n.value
  else if n.type = .slice then none
  else some n.value

end GenericInteger

/-- An integer in the range of its type. -/
abbrev Operand := {n : GenericInteger // n.InRange}

/-- A value of one of the types. -/
inductive GenericValue
  | string (type : StringType) (value : List UInt8)
  | integer (n : GenericInteger)
  | double (value : ℚ)
  | vector (elements : List GenericValue)

namespace GenericValue

/-- `GenericValue(const bool)`. -/
def bool (b : Bool) : GenericValue := integer (GenericInteger.ofInt .bool (if b then 1 else 0))

@[simp] theorem bool_inj {a b : Bool} : bool a = bool b ↔ a = b := by
  refine ⟨fun h ↦ ?_, fun h ↦ h ▸ rfl⟩
  have hvalue := congrArg GenericInteger.value (integer.inj h)
  revert hvalue
  cases a <;> cases b <;> decide

end GenericValue

end Safrn.Generic
