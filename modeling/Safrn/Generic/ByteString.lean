import Mathlib.Data.Int.Range
import Safrn.Base.Binary
import Safrn.Generic.Order

/-!
# Byte strings of values

Models `GetTwosComplementByteString` (`Util/data_structures.cpp:1334-1662`),
`ParseGenericValueFromTwosComplementString` (`2385-2747`) and `GetBit` (`1021-1332`). Texts are
padded in front to the length of their type and read back with the padding; of the negative `INT2`
values, eight bits are read only if the sign is extended, which it is not when they are written.
-/

namespace Safrn.Generic

open Safrn.Base

/-- `DataType`. -/
inductive DataType
  | string (type : StringType)
  | integer (type : IntegerType)
  | double
  | vector
  deriving DecidableEq

/-- `GetValueNumBytes` of a string type. -/
def StringType.getValueNumBytes : StringType → ℕ
  | string8 => 8
  | string16 => 16
  | string24 => 24
  | string32 => 32
  | string64 => 64
  | string128 => 128

namespace IntegerType

/-- `GetValueNumBytes` of an integer type. -/
def getValueNumBytes : IntegerType → ℕ
  | bool | int2 | uint2 | int4 | uint4 | int8 | uint8 => 1
  | int16 | uint16 => 2
  | int32 | uint32 => 4
  | int64 | uint64 | slice => 8

/-- The types of less than a byte, which have an encoding of their own. -/
def isSubByte : IntegerType → Bool
  | bool | int2 | uint2 | int4 | uint4 => true
  | _ => false

end IntegerType

namespace GenericValue

/-- The type of a value. -/
def type : GenericValue → DataType
  | string t _ => .string t
  | integer n => .integer n.type
  | double _ => .double
  | vector _ => .vector

mutual

/-- `GetValueNumBits`. -/
def getValueNumBits : GenericValue → ℕ
  | string t _ => 8 * t.getValueNumBytes
  | integer n => n.type.getValueNumBits
  | double _ => 64
  | vector elements => getValueNumBitsEach elements

def getValueNumBitsEach : List GenericValue → ℕ
  | [] => 0
  | element :: elements => element.getValueNumBits + getValueNumBitsEach elements

end

end GenericValue

/-! ### Writing -/

/-- The sign bit of a machine word, set in its first byte. -/
def setSignBit : List UInt8 → List UInt8
  | [] => []
  | byte :: bytes => (byte ||| 128) :: bytes

/-- What is subtracted from a negative value to keep its other bits: for `INT32` it is `LONG_MIN`. -/
def signedMinimum : IntegerType → ℤ
  | .int8 => -2 ^ 7
  | .int16 => -2 ^ 15
  | _ => -2 ^ 63

/-- The bytes of an integer; `none` is the end of the program. -/
def integerByteString (t : IntegerType) (value : ℤ) : Option (List UInt8) :=
  match t with
  | .bool => some [if value = 0 then 0 else 1]
  | .int2 => if -2 ≤ value ∧ value ≤ 1 then some (integerBytes 1 (value % 4)) else none
  | .int4 => if -8 ≤ value ∧ value ≤ 7 then some (integerBytes 1 (value % 16)) else none
  | .int8 | .int16 | .int32 | .int64 =>
    if value < 0 then
      some (setSignBit (integerBytes t.getValueNumBytes (value - signedMinimum t)))
    else some (integerBytes t.getValueNumBytes value)
  | _ => some (integerBytes t.getValueNumBytes value)

namespace GenericValue

mutual

/-- `GetTwosComplementByteString`; `none` is the end of the program. -/
def getTwosComplementByteString : GenericValue → Option (List UInt8)
  | string t value =>
    if t.getValueNumBytes < value.length then none
    else some (List.replicate (t.getValueNumBytes - value.length) 0 ++ value)
  | integer n => integerByteString n.type n.value
  | double _ => none
  | vector elements => getTwosComplementByteStringEach elements

def getTwosComplementByteStringEach : List GenericValue → Option (List UInt8)
  | [] => some []
  | element :: elements => do
    let bytes ← element.getTwosComplementByteString
    let rest ← getTwosComplementByteStringEach elements
    some (bytes ++ rest)

end

end GenericValue

/-! ### Reading -/

/-- A binary string as it is written in the source. -/
def binary (s : String) : List Bool := s.toList.map fun c ↦ c == '1'

/-- `TwosComplementStringToValue`. -/
def twosComplementStringToValue (bits : List Bool) : Option ℤ :=
  match bits with
  | [] => none
  | [_] => none
  | sign :: bits =>
    if sign then some (-2 ^ bits.length + bitsValue bits) else some (bitsValue bits)

/-- The branches of the integer types. -/
def parseIntegerBits (t : IntegerType) (bits : List Bool) : Option ℤ :=
  match t with
  | .bool =>
    if bits = binary "0" ∨ bits = binary "00000000" then some 0
    else if bits = binary "1" ∨ bits = binary "00000001" then some 1
    else none
  | .int2 =>
    if bits = binary "00" ∨ bits = binary "00000000" then some 0
    else if bits = binary "01" ∨ bits = binary "00000001" then some 1
    else if bits = binary "10" ∨ bits = binary "11111110" then some (-2)
    else if bits = binary "11" ∨ bits = binary "11111111" then some (-1)
    else none
  | .uint2 =>
    if bits = binary "00" ∨ bits = binary "00000000" then some 0
    else if bits = binary "01" ∨ bits = binary "00000001" then some 1
    else if bits = binary "10" ∨ bits = binary "00000010" then some 2
    else if bits = binary "11" ∨ bits = binary "00000011" then some 3
    else none
  | .int4 =>
    if bits.length ≠ 4 ∧ bits.length ≠ 8 then none
    else
      let suffix := if bits.length = 8 then bits.drop 4 else bits
      let trailingBitsValue := bitsValue (suffix.drop 1)
      if suffix.head? = some true then some (trailingBitsValue - 8) else some trailingBitsValue
  | .uint4 =>
    if bits.length ≠ 4 ∧ bits.length ≠ 8 then none
    else some (bitsValue (if bits.length = 8 then bits.drop 4 else bits))
  | .int8 | .int16 | .int32 | .int64 =>
    if bits.length ≠ 8 * t.getValueNumBytes then none else twosComplementStringToValue bits
  | _ => if bits.length ≠ 8 * t.getValueNumBytes then none else some (bitsValue bits)

/-- `ParseGenericValueFromTwosComplementString` on a binary string. -/
def parseBinaryString (type : DataType) (bits : List Bool) : Option GenericValue :=
  if bits = [] then none
  else
    match type with
    | .string t => if bits.length % 8 ≠ 0 then none else some (.string t (bitsBytes bits))
    | .integer t => (parseIntegerBits t bits).map fun value ↦ .integer (.ofInt t value)
    | .double => none
    | .vector => none

/-- `ParseGenericValueFromTwosComplementString` on bytes. -/
def parseGenericValueFromTwosComplementString (type : DataType) (bytes : List UInt8) :
    Option GenericValue :=
  parseBinaryString type (bytesBits bytes)

/-! ### Bits -/

/-- `GetBit` of an integer; `none` is the end of the program. -/
def integerBit (t : IntegerType) (value : ℤ) (i : ℕ) : Option Bool :=
  if t.getValueNumBits ≤ i then none
  else
    match t with
    | .bool => some (value = 1)
    | .int2 => if i = 1 then some (value < 0) else some (value = -1 ∨ value = 1)
    | .int4 | .int8 | .int16 | .int32 | .int64 =>
      if i = t.getValueNumBits - 1 then some (value < 0)
      else if 0 ≤ value then some (value.toNat.testBit i)
      else some
        (((2 ^ (t.getValueNumBits - 1) + value) % 2 ^ t.holder.width).toNat.testBit i)
    | _ => some (value.toNat.testBit i)

namespace GenericValue

mutual

/-- `GetBit`; `none` is the end of the program. -/
def getBit : ℕ → GenericValue → Option Bool
  | i, string t value =>
    if 8 * t.getValueNumBytes ≤ i then none
    else if value.length * 8 ≤ i then some false
    else some ((value.getD (value.length - 1 - i / 8) 0).toNat.testBit (i % 8))
  | i, integer n => integerBit n.type n.value i
  | _, double _ => none
  | i, vector elements => getBitEach i elements

def getBitEach : ℕ → List GenericValue → Option Bool
  | _, [] => some false
  | i, element :: elements =>
    if element.getValueNumBits ≤ i then getBitEach (i - element.getValueNumBits) elements
    else element.getBit i

end

/-- A value is read back from its bytes, and its bits are those of the bytes. -/
def RoundTrips (value : GenericValue) : Prop :=
  ∃ bytes, value.getTwosComplementByteString = some bytes ∧
    parseGenericValueFromTwosComplementString value.type bytes = some value ∧
    ∀ i < value.getValueNumBits, value.getBit i = some (bitAt bytes i)

end GenericValue

/-- Texts of the full length of their type, and the numbers of the integer types apart from the
negative ones of `INT2`. -/
def GenericValue.FullyWritten : GenericValue → Prop
  | string t value => value.length = t.getValueNumBytes
  | integer n => n.InRange ∧ ¬(n.type = .int2 ∧ n.value < 0)
  | double _ => False
  | vector _ => False

/-! ### Integers -/

/-- An integer is read back from its bytes, and its bits are those of the bytes. -/
def IntegerRoundTrips (t : IntegerType) (value : ℤ) : Prop :=
  ∃ bytes ∈ integerByteString t value,
    (parseIntegerBits t (bytesBits bytes)).map (fun v ↦ (GenericInteger.ofInt t v).value) =
      some value ∧
    ∀ i < t.getValueNumBits, integerBit t value i = some (bitAt bytes i)

instance (t : IntegerType) (value : ℤ) : Decidable (IntegerRoundTrips t value) :=
  inferInstanceAs (Decidable (∃ bytes ∈ integerByteString t value, _))

/-- The types of less than a byte, value by value. -/
theorem integerRoundTrips_subByte_iff {t : IntegerType} (ht : t.isSubByte) {value : ℤ}
    (hv : t.holder.Holds value) :
    IntegerRoundTrips t value ↔ t.format.Holds value ∧ ¬(t = .int2 ∧ value < 0) := by
  have hall : ∀ t ∈ [IntegerType.bool, .int2, .uint2, .int4, .uint4], ∀ v : ℤ, -128 ≤ v →
      v < 256 → t.holder.Holds v →
        (IntegerRoundTrips t v ↔ t.format.Holds v ∧ ¬(t = .int2 ∧ v < 0)) := by
    decide +kernel
  have hmem : t ∈ [IntegerType.bool, .int2, .uint2, .int4, .uint4] := by
    cases t <;> first | decide | exact absurd ht (by decide)
  have hlo := hv.1
  have hhi := hv.2
  refine hall t hmem value ?_ ?_ hv
  · cases t <;> simp only [IntegerType.isSubByte, IntegerType.holder, IntFormat.lower] at ht hlo <;>
      grind
  · cases t <;> simp only [IntegerType.isSubByte, IntegerType.holder, IntFormat.upper] at ht hhi <;>
      grind

/-- The types of whole bytes have as many bits as these and as their machine types. -/
theorem getValueNumBits_of_not_subByte {t : IntegerType} (ht : ¬t.isSubByte) :
    t.getValueNumBits = 8 * t.getValueNumBytes ∧ t.holder.width = t.getValueNumBits := by
  cases t <;> first | exact ⟨rfl, rfl⟩ | exact absurd rfl ht

theorem holder_eq_of_not_subByte {t : IntegerType} (ht : ¬t.isSubByte) : t.holder = t.format := by
  cases t <;> first | rfl | exact absurd rfl ht

/-- A negative number is written like a positive one with its sign bit set behind. -/
theorem setSignBit_integerBytes {n : ℕ} {value minimum : ℤ} (hlo : -(128 * 256 ^ n) ≤ value)
    (hneg : value < 0) (hmin : (128 * 256 ^ n : ℤ) ∣ minimum) :
    setSignBit (integerBytes (n + 1) (value - minimum)) = integerBytes (n + 1) value := by
  obtain ⟨byte, bytes, h₁, h₂⟩ := integerBytes_or_signBit hlo hneg
    (x := value - minimum) (by rw [sub_sub_cancel_left]; exact hmin.neg_right)
  rw [h₁, h₂, setSignBit]

/-- Numbers of a signed type are written in two's complement. -/
theorem integerByteString_signed {t : IntegerType} (ht : ¬t.isSubByte) (hs : t.isSigned)
    {value : ℤ} (hv : t.format.Holds value) :
    integerByteString t value = some (integerBytes t.getValueNumBytes value) := by
  rw [IntegerType.holds_iff] at hv
  by_cases hneg : value < 0
  · have hlo := hv.1
    cases t <;> simp only [IntegerType.isSubByte, IntegerType.isSigned, IntegerType.bounds,
      Bool.false_eq_true, not_true_eq_false] at ht hs hlo
    all_goals
      simp only [integerByteString, if_pos hneg, signedMinimum, IntegerType.getValueNumBytes]
      rw [setSignBit_integerBytes (by norm_num; omega) hneg (by norm_num)]
  · cases t <;> simp only [IntegerType.isSubByte, IntegerType.isSigned, Bool.false_eq_true,
      not_true_eq_false] at ht hs
    all_goals simp only [integerByteString, if_neg hneg]

/-- Two's complement is read from the residue. -/
theorem twosComplementStringToValue_of_residue {bits : List Bool} {n : ℕ} {value : ℤ} (hn : 0 < n)
    (hlength : bits.length = n + 1) (hbits : (bitsValue bits : ℤ) = value % 2 ^ (n + 1))
    (hlo : -2 ^ n ≤ value) (hhi : value < 2 ^ n) :
    twosComplementStringToValue bits = some value := by
  rw [emod_two_pow_succ hlo hhi, pow_succ'] at hbits
  match bits with
  | [] => simp at hlength
  | [sign] =>
    rw [List.length_singleton] at hlength
    omega
  | sign :: bit :: bits =>
    have hlen : (bit :: bits).length = n := by simpa using hlength
    have hcast : (bitsValue (bit :: bits) : ℤ) < 2 ^ n := by
      rw [← hlen]
      exact_mod_cast bitsValue_lt (bit :: bits)
    rw [bitsValue, hlen] at hbits
    push_cast at hbits
    rw [twosComplementStringToValue, hlen]
    · cases sign
      · rw [if_neg Bool.false_ne_true, Option.some_inj]
        simp only [Bool.toNat_false, Nat.cast_zero, zero_mul, zero_add] at hbits
        split at hbits <;> omega
      · rw [if_pos rfl, Option.some_inj]
        simp only [Bool.toNat_true, Nat.cast_one, one_mul] at hbits
        split at hbits <;> omega
    · simp

/-- A bit of two's complement is read from the residue. -/
theorem integerBit_signed {t : IntegerType} (ht : ¬t.isSubByte) (hs : t.isSigned) {value : ℤ}
    (hv : t.format.Holds value) {i : ℕ} (hi : i < t.getValueNumBits) :
    integerBit t value i = some ((value % 2 ^ t.getValueNumBits).toNat.testBit i) := by
  have hwidth : t.getValueNumBits = t.getValueNumBits - 1 + 1 :=
    (Nat.sub_add_cancel t.getValueNumBits_pos).symm
  have hlo : -2 ^ (t.getValueNumBits - 1) ≤ value := by
    have hlower : t.format.lower = -2 ^ (t.getValueNumBits - 1) := if_pos hs
    exact hlower ▸ hv.1
  have hhi : value < 2 ^ (t.getValueNumBits - 1) := by
    have hupper : t.format.upper = 2 ^ (t.getValueNumBits - 1) := if_pos hs
    exact hupper ▸ hv.2
  have hbits := testBit_emod_two_pow_succ hlo hhi (i := i) (by omega)
  rw [← hwidth] at hbits
  have hread : integerBit t value i =
      if i = t.getValueNumBits - 1 then some (decide (value < 0))
      else if 0 ≤ value then some (value.toNat.testBit i)
      else some (((2 ^ (t.getValueNumBits - 1) + value) % 2 ^ t.holder.width).toNat.testBit i) := by
    cases t <;> first
      | exact absurd rfl ht
      | exact absurd hs (by decide)
      | exact if_neg (not_le.mpr hi)
  rw [hread, hbits, (getValueNumBits_of_not_subByte ht).2]
  split_ifs <;> rfl

theorem parseIntegerBits_signed {t : IntegerType} (ht : ¬t.isSubByte) (hs : t.isSigned)
    {bits : List Bool} (hlength : bits.length = 8 * t.getValueNumBytes) :
    parseIntegerBits t bits = twosComplementStringToValue bits := by
  cases t <;> first
    | exact absurd rfl ht
    | exact absurd hs (by decide)
    | exact if_neg (not_not.mpr hlength)

theorem parseIntegerBits_unsigned {t : IntegerType} (ht : ¬t.isSubByte) (hs : ¬t.isSigned)
    {bits : List Bool} (hlength : bits.length = 8 * t.getValueNumBytes) :
    parseIntegerBits t bits = some (bitsValue bits : ℤ) := by
  cases t <;> first
    | exact absurd rfl ht
    | exact absurd rfl hs
    | exact if_neg (not_not.mpr hlength)

/-- The bytes of a number of a type of whole bytes. -/
theorem integerByteString_eq {t : IntegerType} (ht : ¬t.isSubByte) {value : ℤ}
    (hv : t.format.Holds value) :
    integerByteString t value = some (integerBytes t.getValueNumBytes value) := by
  by_cases hs : t.isSigned
  · exact integerByteString_signed ht hs hv
  · cases t <;> first | rfl | exact absurd rfl ht | exact absurd rfl hs

/-- They are read back. -/
theorem parseIntegerBits_integerBytes {t : IntegerType} (ht : ¬t.isSubByte) {value : ℤ}
    (hv : t.format.Holds value) :
    parseIntegerBits t (bytesBits (integerBytes t.getValueNumBytes value)) = some value := by
  obtain ⟨hbits, -⟩ := getValueNumBits_of_not_subByte ht
  have hlength : (bytesBits (integerBytes t.getValueNumBytes value)).length =
      8 * t.getValueNumBytes := by
    rw [length_bytesBits, length_integerBytes]
  have hvalue := bytesValue_integerBytes t.getValueNumBytes value
  by_cases hs : t.isSigned
  · have hwidth : t.getValueNumBits = t.getValueNumBits - 1 + 1 :=
      (Nat.sub_add_cancel t.getValueNumBits_pos).symm
    have hlower : t.format.lower = -2 ^ (t.getValueNumBits - 1) := if_pos hs
    have hupper : t.format.upper = 2 ^ (t.getValueNumBits - 1) := if_pos hs
    rw [parseIntegerBits_signed ht hs hlength]
    refine twosComplementStringToValue_of_residue (n := t.getValueNumBits - 1) (by omega)
      (by omega) ?_ (hlower ▸ hv.1) (hupper ▸ hv.2)
    rw [bitsValue_bytesBits, hvalue, ← hwidth, hbits]
  · have hlower : t.format.lower = 0 := if_neg hs
    have hupper : t.format.upper = 2 ^ t.getValueNumBits := if_neg hs
    rw [parseIntegerBits_unsigned ht hs hlength, bitsValue_bytesBits, hvalue, ← hbits,
      Int.emod_eq_of_lt (hlower ▸ hv.1) (hupper ▸ hv.2)]

/-- Their bits are those that `GetBit` reads. -/
theorem integerBit_eq_bitAt {t : IntegerType} (ht : ¬t.isSubByte) {value : ℤ}
    (hv : t.format.Holds value) {i : ℕ} (hi : i < t.getValueNumBits) :
    integerBit t value i = some (bitAt (integerBytes t.getValueNumBytes value) i) := by
  obtain ⟨hbits, -⟩ := getValueNumBits_of_not_subByte ht
  have hbit : bitAt (integerBytes t.getValueNumBytes value) i =
      (value % 2 ^ t.getValueNumBits).toNat.testBit i := by
    rw [bitAt_eq_testBit (by rw [length_integerBytes]; omega), hbits,
      ← bytesValue_integerBytes, Int.toNat_natCast]
  rw [hbit]
  by_cases hs : t.isSigned
  · rw [integerBit_signed ht hs hv hi]
  · have hlower : t.format.lower = 0 := if_neg hs
    have hupper : t.format.upper = 2 ^ t.getValueNumBits := if_neg hs
    rw [Int.emod_eq_of_lt (hlower ▸ hv.1) (hupper ▸ hv.2)]
    cases t <;> first
      | exact absurd rfl ht
      | exact absurd rfl hs
      | exact if_neg (not_le.mpr hi)

/-- The integers that round-trip. -/
theorem integerRoundTrips_iff (n : GenericInteger) :
    IntegerRoundTrips n.type n.value ↔ n.InRange ∧ ¬(n.type = .int2 ∧ n.value < 0) := by
  by_cases ht : n.type.isSubByte
  · exact integerRoundTrips_subByte_iff ht n.held
  · have hv : n.type.format.Holds n.value := holder_eq_of_not_subByte ht ▸ n.held
    refine ⟨fun _ ↦ ⟨hv, fun h ↦ ht (by rw [h.1]; rfl)⟩, fun _ ↦ ?_⟩
    refine ⟨_, integerByteString_eq ht hv, ?_, fun i hi ↦ integerBit_eq_bitAt ht hv hi⟩
    rw [parseIntegerBits_integerBytes ht hv, Option.map_some, GenericInteger.ofInt_value n.held]

/-! ### Values -/

namespace GenericValue

theorem parseIntegerBits_nil (t : IntegerType) : parseIntegerBits t [] = none := by
  cases t <;> rfl

/-- An integer is read back if its number is. -/
theorem parse_integer_iff (n : GenericInteger) (bytes : List UInt8) :
    parseGenericValueFromTwosComplementString (.integer n.type) bytes = some (integer n) ↔
      (parseIntegerBits n.type (bytesBits bytes)).map
        (fun v ↦ (GenericInteger.ofInt n.type v).value) = some n.value := by
  rw [parseGenericValueFromTwosComplementString, parseBinaryString]
  by_cases hbits : bytesBits bytes = []
  · simp [hbits, parseIntegerBits_nil]
  · rw [if_neg hbits]
    cases parseIntegerBits n.type (bytesBits bytes) with
    | none => simp
    | some v =>
      simp only [Option.map_some, Option.some.injEq, integer.injEq]
      exact ⟨fun h ↦ by rw [h], fun h ↦ GenericInteger.ext rfl h⟩

theorem roundTrips_integer_iff (n : GenericInteger) :
    (integer n).RoundTrips ↔ IntegerRoundTrips n.type n.value := by
  simp only [RoundTrips, IntegerRoundTrips, type, parse_integer_iff, getTwosComplementByteString,
    getValueNumBits, getBit, Option.mem_def]

/-- A text is read back with its padding. -/
theorem roundTrips_string_iff (t : StringType) (text : List UInt8) :
    (string t text).RoundTrips ↔ text.length = t.getValueNumBytes := by
  have hpos : 0 < t.getValueNumBytes := by cases t <;> decide
  have hparse {bytes : List UInt8} (hbytes : bytes.length = t.getValueNumBytes) :
      parseGenericValueFromTwosComplementString (.string t) bytes = some (string t bytes) := by
    have hne : bytesBits bytes ≠ [] := by
      rw [ne_eq, ← List.length_eq_zero_iff, length_bytesBits]
      omega
    have hwhole : ¬(bytesBits bytes).length % 8 ≠ 0 := by
      rw [length_bytesBits]
      omega
    simp only [parseGenericValueFromTwosComplementString, parseBinaryString, if_neg hne,
      if_neg hwhole, bitsBytes_bytesBits]
  constructor
  · rintro ⟨bytes, hbytes, hread, -⟩
    rw [getTwosComplementByteString] at hbytes
    split at hbytes
    case isTrue => nomatch hbytes
    case isFalse hlength =>
      obtain rfl := Option.some.inj hbytes
      rw [type, hparse (by simp; omega), Option.some.injEq, string.injEq] at hread
      have hpadding := congrArg List.length hread.2
      rw [List.length_append, List.length_replicate] at hpadding
      omega
  · intro hlength
    refine ⟨text, ?_, hparse hlength, fun i hi ↦ ?_⟩
    · simp [getTwosComplementByteString, hlength]
    · rw [getValueNumBits] at hi
      rw [getBit, if_neg (not_le.mpr hi), if_neg (by omega), bitAt]

/-- The values that are read back are those that are fully written. -/
theorem roundTrips_iff_fullyWritten (value : GenericValue) :
    value.RoundTrips ↔ value.FullyWritten := by
  cases value with
  | integer n => rw [roundTrips_integer_iff, integerRoundTrips_iff, FullyWritten]
  | string t text => rw [roundTrips_string_iff, FullyWritten]
  | double x =>
    refine ⟨fun ⟨_, h, _⟩ ↦ ?_, False.elim⟩
    rw [getTwosComplementByteString] at h
    nomatch h
  | vector elements =>
    refine ⟨fun ⟨bytes, _, h, _⟩ ↦ ?_, False.elim⟩
    rw [type, parseGenericValueFromTwosComplementString, parseBinaryString, ite_self] at h
    nomatch h

/-- The value `-1` of `INT2` is written as `00000011`, which is not read. -/
theorem not_roundTrips_minusOneInt2 : ¬(integer (.ofInt .int2 (-1))).RoundTrips := by
  rw [roundTrips_integer_iff]
  decide +kernel

end GenericValue

end Safrn.Generic
