import Safrn.Generic.ByteString

/-!
# Bitwise operations

Models `MergeValuesViaOperator` of a `BooleanOperation` (`Util/data_structures.cpp:2968-3151`) and
`ApplyOperator` (`4507-4593`) on integers, and the operations on `bool` (`4438-4490`). The operands
are written as bytes, where a negative `INT2` or `INT4` has no sign above its width, and the byte
that is read back as a type of less than a byte still has the bits that a negating gate sets.
-/

namespace Safrn.Generic

open Safrn.Base

/-- `BooleanOperation`. -/
inductive BooleanOperation
  | identity
  | not
  | and
  | nand
  | or
  | nor
  | xor
  | eq
  | gt
  | gte
  | lt
  | lte
  deriving DecidableEq

namespace BooleanOperation

/-- `IsDoubleInputOperation`. -/
def isDoubleInputOperation : BooleanOperation → Bool
  | identity | not => false
  | _ => true

/-- `MergeValuesViaOperator` on two `bool`. -/
def mergeBools : BooleanOperation → Bool → Bool → Option Bool
  | and, one, two => some (one && two)
  | nand, one, two => some !(one && two)
  | or, one, two => some (one || two)
  | nor, one, two => some !(one || two)
  | xor, one, two => some (one != two)
  | eq, one, two => some (one == two)
  | gt, one, two => some (one && !two)
  | gte, one, two => some (one || !two)
  | lt, one, two => some (!one && two)
  | lte, one, two => some (!one || two)
  | _, _, _ => none

/-- The operation on one byte of each operand. -/
def mergeBytes : BooleanOperation → UInt8 → UInt8 → UInt8
  | and, one, two => one &&& two
  | nand, one, two => ~~~(one &&& two)
  | or, one, two => one ||| two
  | nor, one, two => ~~~(one ||| two)
  | xor, one, two => one ^^^ two
  | eq, one, two => ~~~(one ^^^ two)
  | gt, one, two => one &&& ~~~two
  | gte, one, two => one ||| ~~~two
  | lt, one, two => ~~~one &&& two
  | lte, one, two => ~~~one ||| two
  | _, one, _ => one

theorem testBit_eq_getLsbD (byte : UInt8) (j : ℕ) :
    byte.toNat.testBit j = byte.toBitVec.getLsbD j := rfl

theorem testBit_complement (byte : UInt8) {j : ℕ} (hj : j < 8) :
    (~~~byte).toNat.testBit j = !byte.toNat.testBit j := by
  simp only [testBit_eq_getLsbD, UInt8.toBitVec_not, BitVec.getLsbD_not, hj, decide_true,
    Bool.true_and]

/-- Bytes are merged bit by bit. -/
theorem mergeBools_testBit {op : BooleanOperation} (hop : op.isDoubleInputOperation)
    (one two : UInt8) {j : ℕ} (hj : j < 8) :
    op.mergeBools (one.toNat.testBit j) (two.toNat.testBit j) =
      some ((op.mergeBytes one two).toNat.testBit j) := by
  cases op <;> simp only [mergeBools, mergeBytes, testBit_complement _ hj, UInt8.toNat_and,
    UInt8.toNat_or, UInt8.toNat_xor, Nat.testBit_and, Nat.testBit_or, Nat.testBit_xor,
    isDoubleInputOperation, Bool.false_eq_true] at hop ⊢
  all_goals cases one.toNat.testBit j <;> cases two.toNat.testBit j <;> rfl

end BooleanOperation

/-! ### Merging and applying -/

/-- The bytes of the shorter operand, with the bytes of its sign in front. -/
def extended (type : IntegerType) (bytes : List UInt8) (size : ℕ) : List UInt8 :=
  let padding := if type.isSigned ∧ bytes.headD 0 &&& 128 ≠ 0 then 255 else 0
  List.replicate (size - bytes.length) padding ++ bytes

/-- The type of a result of `size` bytes. -/
def mergedType (one two : IntegerType) (size : ℕ) : Option IntegerType :=
  let maxLength := max one.getValueNumBits two.getValueNumBits
  if one.isSigned || two.isSigned then
    match size with
    | 8 => some .int64
    | 4 => some .int32
    | 2 => some .int16
    | 1 =>
      match maxLength with
      | 8 => some .int8
      | 4 => some .int4
      | 2 => some .int2
      | _ => none
    | _ => none
  else
    match size with
    | 8 => some .uint64
    | 4 => some .uint32
    | 2 => some .uint16
    | 1 =>
      match maxLength with
      | 8 => some .uint8
      | 4 => some .uint4
      | 2 => some .uint2
      | 1 => some .bool
      | _ => none
    | _ => none

/-- What is made of the bytes of a result. -/
def readMerged (type : IntegerType) (bytes : List UInt8) : GenericInteger :=
  if type = .bool then .ofInt .bool (if bytes.headD 0 = 1 then 1 else 0)
  else .ofInt type (bytesValue bytes)

namespace BooleanOperation

/-- `MergeValuesViaOperator` on two integers. -/
def mergeValuesViaOperator (op : BooleanOperation) (one two : GenericInteger) :
    Option GenericInteger :=
  if op.isDoubleInputOperation then do
    let oneBytes ← integerByteString one.type one.value
    let twoBytes ← integerByteString two.type two.value
    let maxSize := max oneBytes.length twoBytes.length
    let result := List.zipWith op.mergeBytes (extended one.type oneBytes maxSize)
      (extended two.type twoBytes maxSize)
    let type ← mergedType one.type two.type maxSize
    some (readMerged type result)
  else none

/-- `ApplyOperator` on an integer: the types of less than a byte are masked. -/
def applyOperator (op : BooleanOperation) (one : GenericInteger) : Option GenericInteger :=
  match op with
  | identity => some one
  | not => do
    let bytes ← integerByteString one.type one.value
    let result := bytesValue (bytes.map fun byte ↦ ~~~byte)
    some (.ofInt one.type
      (if one.type.isSubByte then result % 2 ^ one.type.getValueNumBits else result))
  | _ => none

/-- What the convention says of the result for two operands: two's complement has the bit of the
sign in all places above the width. -/
structure Merged (op : BooleanOperation) (one two result : GenericInteger) : Prop where
  width : result.type.getValueNumBits =
    max one.type.getValueNumBits two.type.getValueNumBits
  sign : result.type.isSigned = (one.type.isSigned || two.type.isSigned)
  inRange : result.InRange
  bits : ∀ i < result.type.getValueNumBits,
    op.mergeBools (one.value.testBit i) (two.value.testBit i) = some (result.value.testBit i)
  fastPath : one.type = .bool → two.type = .bool →
    op.mergeBools (one.value = 1) (two.value = 1) = some (decide (result.value = 1))

/-- What it says of the result for one operand. -/
structure Applied (op : BooleanOperation) (one result : GenericInteger) : Prop where
  type : result.type = one.type
  inRange : result.InRange
  bits : ∀ i < one.type.getValueNumBits,
    result.value.testBit i = (one.value.testBit i ^^ decide (op = not))

end BooleanOperation

/-! ### The bytes of the operands -/

namespace GenericInteger

/-- The negative values that are written without their sign. -/
def SignDropped (n : GenericInteger) : Prop := (n.type = .int2 ∨ n.type = .int4) ∧ n.value < 0

instance : DecidablePred SignDropped := fun n ↦
  inferInstanceAs (Decidable ((n.type = .int2 ∨ n.type = .int4) ∧ n.value < 0))

/-- The number whose bytes are written. -/
def written (n : GenericInteger) : ℤ :=
  match n.type with
  | .int2 => n.value % 4
  | .int4 => n.value % 16
  | _ => n.value

theorem integerByteString_of_inRange {n : GenericInteger} (hn : n.InRange) :
    integerByteString n.type n.value = some (integerBytes n.type.getValueNumBytes n.written) := by
  by_cases ht : n.type.isSubByte
  · obtain ⟨hlo, hhi⟩ := bounds_of_inRange hn
    rw [written]
    cases h : n.type <;> rw [h] at ht hlo hhi <;> simp only [IntegerType.bounds] at hlo hhi
    case bool =>
      obtain hv | hv : n.value = 0 ∨ n.value = 1 := by omega
      all_goals
        rw [hv]
        rfl
    case int2 => exact if_pos (by omega)
    case int4 => exact if_pos (by omega)
    case uint2 => rfl
    case uint4 => rfl
    all_goals exact absurd ht (by decide)
  · have hwritten : n.written = n.value := by
      rw [written]
      split
      case h_1 h => exact absurd (by rw [h]; rfl) ht
      case h_2 h => exact absurd (by rw [h]; rfl) ht
      case h_3 => rfl
    rw [hwritten, integerByteString_eq ht hn]

/-- Unsigned types are written as numbers of their bytes. -/
theorem written_unsigned {n : GenericInteger} (hn : n.InRange) (hs : ¬n.type.isSigned) :
    0 ≤ n.written ∧ n.written < 256 ^ n.type.getValueNumBytes := by
  obtain ⟨hlo, hhi⟩ := bounds_of_inRange hn
  rw [written]
  cases h : n.type <;> rw [h] at hs hlo hhi <;> first
    | exact absurd rfl hs
    | simp only [IntegerType.bounds, IntegerType.getValueNumBytes] at hlo hhi ⊢
      omega

/-- Signed types are written as signed numbers of their bytes. -/
theorem written_signed {n : GenericInteger} (hn : n.InRange) (hs : n.type.isSigned) :
    -(128 * 256 ^ (n.type.getValueNumBytes - 1)) ≤ n.written ∧
      n.written < 128 * 256 ^ (n.type.getValueNumBytes - 1) := by
  obtain ⟨hlo, hhi⟩ := bounds_of_inRange hn
  rw [written]
  cases h : n.type <;> rw [h] at hs hlo hhi <;> first
    | exact absurd hs Bool.false_ne_true
    | simp only [IntegerType.bounds, IntegerType.getValueNumBytes] at hlo hhi ⊢
      omega

/-- The written number has no bits above the width where the sign is dropped. -/
theorem testBit_written (n : GenericInteger) (i : ℕ) :
    n.written.testBit i =
      if (n.type = .int2 ∨ n.type = .int4) ∧ n.type.getValueNumBits ≤ i then false
      else n.value.testBit i := by
  have hresidue {k : ℕ} {i : ℕ} :
      (n.value % 2 ^ k).testBit i = if k ≤ i then false else n.value.testBit i := by
    split
    case isTrue hi =>
      exact testBit_of_lt (Int.emod_nonneg _ (by positivity))
        (Int.emod_lt_of_pos _ (by positivity)) hi
    case isFalse hi =>
      exact testBit_congr (Int.emod_emod_of_dvd _ dvd_rfl) (not_le.mp hi)
  rw [written]
  split
  case h_1 h =>
    rw [h]
    simpa [IntegerType.getValueNumBits] using hresidue (k := 2) (i := i)
  case h_2 h =>
    rw [h]
    simpa [IntegerType.getValueNumBits] using hresidue (k := 4) (i := i)
  case h_3 h₂ h₄ => rw [if_neg fun h ↦ h.1.elim h₂ h₄]

end GenericInteger

theorem getValueNumBytes_pos (t : IntegerType) : 0 < t.getValueNumBytes := by
  cases t <;> decide

/-- The first byte has the sign in its top bit. -/
theorem headD_integerBytes_and {k : ℕ} {x : ℤ} (hlo : -(128 * 256 ^ k) ≤ x)
    (hhi : x < 128 * 256 ^ k) : (integerBytes (k + 1) x).headD 0 &&& 128 ≠ 0 ↔ x < 0 := by
  have hall : ∀ q : ℤ, -128 ≤ q → q < 128 →
      (UInt8.ofBitVec (BitVec.ofInt 8 q) &&& 128 ≠ 0 ↔ q < 0) := by
    decide +kernel
  have hpow : (0 : ℤ) < 256 ^ k := by positivity
  have hlow : -128 ≤ x / 256 ^ k := by
    rw [Int.le_ediv_iff_mul_le hpow]
    omega
  have hhigh : x / 256 ^ k < 128 := by rwa [Int.ediv_lt_iff_lt_mul hpow]
  have hhead : (integerBytes (k + 1) x).headD 0 =
      UInt8.ofBitVec (BitVec.ofInt 8 (x / 256 ^ k)) := rfl
  rw [hhead, hall _ hlow hhigh, Int.ediv_lt_iff_lt_mul hpow, zero_mul]

/-- Padding gives the bytes of the written number. -/
theorem extended_integerBytes {n : GenericInteger} (hn : n.InRange) {size : ℕ}
    (hsize : n.type.getValueNumBytes ≤ size) :
    extended n.type (integerBytes n.type.getValueNumBytes n.written) size =
      integerBytes size n.written := by
  have hpos := getValueNumBytes_pos n.type
  have hlength : size = size - n.type.getValueNumBytes + n.type.getValueNumBytes := by omega
  rw [extended, length_integerBytes]
  by_cases hs : n.type.isSigned
  · obtain ⟨hlo, hhi⟩ := GenericInteger.written_signed hn hs
    have hk : n.type.getValueNumBytes = n.type.getValueNumBytes - 1 + 1 := by omega
    have hhead := headD_integerBytes_and hlo hhi
    rw [← hk] at hhead
    have hpow : (256 : ℤ) ^ n.type.getValueNumBytes =
        256 * 256 ^ (n.type.getValueNumBytes - 1) := by
      rw [← pow_succ', ← hk]
    have hq : (0 : ℤ) < 256 ^ (n.type.getValueNumBytes - 1) := by positivity
    have hadd := integerBytes_add (n := n.type.getValueNumBytes) (x := n.written) (by omega)
      (by omega) (size - n.type.getValueNumBytes)
    rw [← hlength] at hadd
    simp only [hadd, hs, hhead, true_and]
  · obtain ⟨hlo, hhi⟩ := GenericInteger.written_unsigned hn hs
    have hadd := integerBytes_add (n := n.type.getValueNumBytes) (x := n.written) (by omega) hhi
      (size - n.type.getValueNumBytes)
    rw [← hlength, if_neg (not_lt.mpr hlo)] at hadd
    simp only [hadd, hs, Bool.false_eq_true, false_and, if_false]

/-! ### The bytes of the result -/

/-- Bytes that are merged one by one are merged bit by bit. -/
theorem bitAt_zipWith {op : BooleanOperation} (hop : op.isDoubleInputOperation)
    {one two : List UInt8} (hlength : one.length = two.length) {i : ℕ}
    (hi : i < 8 * one.length) :
    op.mergeBools (bitAt one i) (bitAt two i) =
      some (bitAt (List.zipWith op.mergeBytes one two) i) := by
  have hzip : (List.zipWith op.mergeBytes one two).length = one.length := by
    rw [List.length_zipWith, ← hlength, min_self]
  have hone : one.length - 1 - i / 8 < one.length := by omega
  have hget : (List.zipWith op.mergeBytes one two).getD (one.length - 1 - i / 8) 0 =
      op.mergeBytes (one.getD (one.length - 1 - i / 8) 0)
        (two.getD (one.length - 1 - i / 8) 0) := by
    rw [List.getD_eq_getElem _ _ (by omega), List.getD_eq_getElem _ _ hone,
      List.getD_eq_getElem _ _ (by omega), List.getElem_zipWith]
  simp only [bitAt, hzip, ← hlength, hget]
  exact BooleanOperation.mergeBools_testBit hop _ _ (Nat.mod_lt _ (by decide))

theorem bitAt_map_complement {bytes : List UInt8} {i : ℕ} (hi : i < 8 * bytes.length) :
    bitAt (bytes.map fun byte ↦ ~~~byte) i = !bitAt bytes i := by
  have hindex : bytes.length - 1 - i / 8 < bytes.length := by omega
  rw [bitAt, bitAt, List.length_map, List.getD_eq_getElem _ _ (by rwa [List.length_map]),
    List.getD_eq_getElem _ _ hindex, List.getElem_map,
    BooleanOperation.testBit_complement _ (Nat.mod_lt _ (by decide))]

/-- The type of the result is that of the convention, and its bytes are those of the longer
operand. -/
theorem mergedType_eq (one two : IntegerType) :
    ∃ type, mergedType one two (max one.getValueNumBytes two.getValueNumBytes) = some type ∧
      type.getValueNumBytes = max one.getValueNumBytes two.getValueNumBytes ∧
      type.getValueNumBits = max one.getValueNumBits two.getValueNumBits ∧
      type.isSigned = (one.isSigned || two.isSigned) := by
  cases one <;> cases two <;> exact ⟨_, rfl, rfl, rfl, rfl⟩

/-- The number that the bytes of a result stand for has the merged bits of the written ones. -/
theorem mergeValuesViaOperator_eq {op : BooleanOperation} (hop : op.isDoubleInputOperation)
    {one two : GenericInteger} (hone : one.InRange) (htwo : two.InRange) :
    ∃ (type : IntegerType) (bytes : List UInt8),
      op.mergeValuesViaOperator one two = some (readMerged type bytes) ∧
      type.getValueNumBits = max one.type.getValueNumBits two.type.getValueNumBits ∧
      type.isSigned = (one.type.isSigned || two.type.isSigned) ∧
      bytes.length = type.getValueNumBytes ∧
      ∀ i < 8 * type.getValueNumBytes,
        op.mergeBools (one.written.testBit i) (two.written.testBit i) =
          some ((bytesValue bytes).testBit i) := by
  obtain ⟨type, htype, hsize, hbits, hsign⟩ := mergedType_eq one.type two.type
  refine ⟨type, List.zipWith op.mergeBytes (integerBytes type.getValueNumBytes one.written)
    (integerBytes type.getValueNumBytes two.written), ?_, hbits, hsign, ?_, fun i hi ↦ ?_⟩
  · rw [BooleanOperation.mergeValuesViaOperator, if_pos hop,
      GenericInteger.integerByteString_of_inRange hone,
      GenericInteger.integerByteString_of_inRange htwo]
    simp only [Option.bind_eq_bind, Option.bind_some, length_integerBytes, htype,
      extended_integerBytes hone (le_max_left _ _), extended_integerBytes htwo (le_max_right _ _),
      hsize]
  · rw [List.length_zipWith, length_integerBytes, length_integerBytes, min_self]
  · rw [← bitAt_integerBytes one.written hi, ← bitAt_integerBytes two.written hi,
      bitAt_zipWith hop (by rw [length_integerBytes, length_integerBytes])
        (by rwa [length_integerBytes]), bitAt_eq_testBit]
    rwa [List.length_zipWith, length_integerBytes, length_integerBytes, min_self]

/-! ### Reading the result -/

/-- The bits of a byte above a smaller width are as its reader needs them: those of the sign, or
none; a `BOOL` is only read as true from the byte 1. -/
def HighBitsFit (width : ℕ) (signed : Bool) (high top : Option Bool) : Prop :=
  width < 8 →
    if width = 1 then high = some false ∨ top = some false
    else if signed then high = top
    else high = some false

instance (width : ℕ) (signed : Bool) (high top : Option Bool) :
    Decidable (HighBitsFit width signed high top) :=
  inferInstanceAs (Decidable (width < 8 →
    if width = 1 then high = some false ∨ top = some false
    else if signed then high = top
    else high = some false))

/-- Machine types but `bool` keep the low bits. -/
theorem testBit_readMerged {type : IntegerType} (ht : type ≠ .bool) {bytes : List UInt8} {i : ℕ}
    (hi : i < type.getValueNumBits) :
    (readMerged type bytes).value.testBit i = (bytesValue bytes).testBit i := by
  have hwidth : type.getValueNumBits ≤ type.holder.width := by cases type <;> decide
  rw [readMerged, if_neg ht, GenericInteger.ofInt_value_of_ne ht,
    testBit_congr (type.holder.wrap_emod _) (hi.trans_le hwidth)]
  rfl

@[simp] theorem type_readMerged (type : IntegerType) (bytes : List UInt8) :
    (readMerged type bytes).type = type := by
  rw [readMerged]
  split
  case isTrue h => rw [GenericInteger.ofInt_type, h]
  case isFalse => rfl

theorem isSubByte_iff {t : IntegerType} : t.isSubByte ↔ t.getValueNumBits < 8 := by
  cases t <;> decide

/-- A result is read as a number of its type with the bits of its bytes if the bits above the width
fit. -/
theorem readMerged_iff {type : IntegerType} {bytes : List UInt8} {high : Bool}
    (hlength : bytes.length = type.getValueNumBytes)
    (hhigh : ∀ i, type.getValueNumBits ≤ i → i < 8 * type.getValueNumBytes →
      (bytesValue bytes).testBit i = high) :
    ((readMerged type bytes).InRange ∧ ∀ i < type.getValueNumBits,
        (readMerged type bytes).value.testBit i = (bytesValue bytes).testBit i) ↔
      HighBitsFit type.getValueNumBits type.isSigned (some high)
        (some ((bytesValue bytes).testBit (type.getValueNumBits - 1))) := by
  by_cases ht : type.isSubByte
  · have hall : ∀ t ∈ [IntegerType.bool, .int2, .uint2, .int4, .uint4], ∀ n < 256, ∀ high,
        (∀ i < 8, t.getValueNumBits ≤ i → n.testBit i = high) →
          (((readMerged t [UInt8.ofNat n]).InRange ∧ ∀ i < t.getValueNumBits,
            (readMerged t [UInt8.ofNat n]).value.testBit i = n.testBit i) ↔
          HighBitsFit t.getValueNumBits t.isSigned (some high)
            (some (n.testBit (t.getValueNumBits - 1)))) := by
      decide +kernel
    have hmem : type ∈ [IntegerType.bool, .int2, .uint2, .int4, .uint4] := by
      cases type <;> first | decide | exact absurd ht (by decide)
    have hone : type.getValueNumBytes = 1 := by
      cases type <;> first | rfl | exact absurd ht (by decide)
    obtain ⟨byte, rfl⟩ := List.length_eq_one_iff.mp (hlength.trans hone)
    have hvalue : bytesValue [byte] = byte.toNat := by simp [bytesValue]
    rw [hvalue, hone] at hhigh
    have hiff := hall type hmem byte.toNat byte.toNat_lt high fun i hi hle ↦ hhigh i hle hi
    rwa [UInt8.ofNat_toNat, ← hvalue] at hiff
  · have hbool : type ≠ .bool := by
      rintro rfl
      exact ht rfl
    have hrange : (readMerged type bytes).InRange := by
      have hheld := (readMerged type bytes).held
      rw [GenericInteger.InRange, type_readMerged, ← holder_eq_of_not_subByte ht]
      rwa [type_readMerged] at hheld
    exact iff_of_true ⟨hrange, fun i hi ↦ testBit_readMerged hbool hi⟩
      fun hlt ↦ absurd (isSubByte_iff.mpr hlt) ht

/-! ### The convention -/

namespace GenericInteger

theorem SignDropped.testBit {n : GenericInteger} (h : n.SignDropped) (hn : n.InRange) {i : ℕ}
    (hi : n.type.getValueNumBits ≤ i) :
    n.written.testBit i = false ∧ n.value.testBit i = true := by
  obtain ⟨ht, hneg⟩ := h
  obtain ⟨hlo, hhi⟩ := bounds_of_inRange hn
  refine ⟨by rw [testBit_written, if_pos ⟨ht, hi⟩], ?_⟩
  have hbound : -2 ^ n.type.getValueNumBits ≤ n.value ∧ n.value < 2 ^ n.type.getValueNumBits := by
    rcases ht with ht | ht <;> rw [ht] at hlo hhi ⊢ <;>
      simp only [IntegerType.bounds, IntegerType.getValueNumBits] at hlo hhi ⊢ <;> omega
  rw [testBit_of_bounds hbound.1 hbound.2 hi, decide_eq_true hneg]

/-- The bits that are written are those of the number unless the sign is dropped. -/
theorem testBit_written_cases {n : GenericInteger} (hn : n.InRange) (i : ℕ) :
    n.written.testBit i = n.value.testBit i ∨ n.SignDropped ∧ n.type.getValueNumBits ≤ i := by
  rw [testBit_written]
  split
  case isTrue h =>
    by_cases hneg : n.value < 0
    · exact .inr ⟨⟨h.1, hneg⟩, h.2⟩
    · obtain ⟨hlo, hhi⟩ := bounds_of_inRange hn
      have hbound : n.value < 2 ^ n.type.getValueNumBits := by
        rcases h.1 with ht | ht <;> rw [ht] at hhi ⊢ <;>
          simp only [IntegerType.bounds, IntegerType.getValueNumBits] at hhi ⊢ <;> omega
      rw [testBit_of_lt (not_lt.mp hneg) hbound h.2]
      exact .inl rfl
  case isFalse => exact .inl rfl

/-- Below its width, each operand is written as it is. -/
theorem testBit_written_of_lt (n : GenericInteger) {i : ℕ} (hi : i < n.type.getValueNumBits) :
    n.written.testBit i = n.value.testBit i := by
  rw [testBit_written, if_neg fun h ↦ absurd h.2 (not_le.mpr hi)]

/-- The types of less than a byte are written without bits above the width. -/
theorem testBit_written_of_subByte {n : GenericInteger} (hn : n.InRange)
    (ht : n.type.isSubByte) {i : ℕ} (hi : n.type.getValueNumBits ≤ i) :
    n.written.testBit i = false := by
  obtain ⟨hlo, hhi⟩ := bounds_of_inRange hn
  rw [testBit_written]
  split
  case isTrue => rfl
  case isFalse h =>
    have hkept : ¬(n.type = .int2 ∨ n.type = .int4) := fun hdropped ↦ h ⟨hdropped, hi⟩
    refine testBit_of_lt (k := n.type.getValueNumBits) ?_ ?_ hi
    all_goals
      cases ht' : n.type <;> rw [ht'] at ht hlo hhi hkept <;> first
        | exact absurd (.inl rfl) hkept
        | exact absurd (.inr rfl) hkept
        | exact absurd ht (by decide)
        | simp only [IntegerType.bounds, IntegerType.getValueNumBits] at hlo hhi ⊢
          omega

end GenericInteger

namespace BooleanOperation

/-- The operation gives the same for both values of the bits that an operand is missing, and the
bits above the width of the result fit. -/
structure Kept (op : BooleanOperation) (one two : GenericInteger) : Prop where
  double : op.isDoubleInputOperation
  oneSign : one.SignDropped → ∀ i, one.type.getValueNumBits ≤ i → i < two.type.getValueNumBits →
    op.mergeBools false (two.value.testBit i) = op.mergeBools true (two.value.testBit i)
  twoSign : two.SignDropped → ∀ i, two.type.getValueNumBits ≤ i → i < one.type.getValueNumBits →
    op.mergeBools (one.value.testBit i) false = op.mergeBools (one.value.testBit i) true
  highBits : HighBitsFit (max one.type.getValueNumBits two.type.getValueNumBits)
    (one.type.isSigned || two.type.isSigned) (op.mergeBools false false)
    (op.mergeBools
      (one.value.testBit (max one.type.getValueNumBits two.type.getValueNumBits - 1))
      (two.value.testBit (max one.type.getValueNumBits two.type.getValueNumBits - 1)))

/-- The merged bits are those of the numbers if the dropped signs do not matter. -/
theorem written_bits_iff {op : BooleanOperation} {one two : GenericInteger}
    (hone : one.InRange) (htwo : two.InRange) :
    (∀ i < max one.type.getValueNumBits two.type.getValueNumBits,
      op.mergeBools (one.written.testBit i) (two.written.testBit i) =
        op.mergeBools (one.value.testBit i) (two.value.testBit i)) ↔
      (one.SignDropped → ∀ i, one.type.getValueNumBits ≤ i → i < two.type.getValueNumBits →
        op.mergeBools false (two.value.testBit i) = op.mergeBools true (two.value.testBit i)) ∧
      (two.SignDropped → ∀ i, two.type.getValueNumBits ≤ i → i < one.type.getValueNumBits →
        op.mergeBools (one.value.testBit i) false = op.mergeBools (one.value.testBit i) true) := by
  constructor
  · refine fun h ↦ ⟨fun hdropped i hle hlt ↦ ?_, fun hdropped i hle hlt ↦ ?_⟩
    · have hbit := h i (lt_max_of_lt_right hlt)
      obtain ⟨hwritten, hvalue⟩ := hdropped.testBit hone hle
      rwa [hwritten, hvalue, two.testBit_written_of_lt hlt] at hbit
    · have hbit := h i (lt_max_of_lt_left hlt)
      obtain ⟨hwritten, hvalue⟩ := hdropped.testBit htwo hle
      rwa [hwritten, hvalue, one.testBit_written_of_lt hlt] at hbit
  · rintro ⟨hsign₁, hsign₂⟩ i hi
    rcases GenericInteger.testBit_written_cases hone i with hw₁ | ⟨hdropped, hle⟩
    · rcases GenericInteger.testBit_written_cases htwo i with hw₂ | ⟨hdropped, hle⟩
      · rw [hw₁, hw₂]
      · obtain ⟨hwritten, hvalue⟩ := hdropped.testBit htwo hle
        rw [hw₁, hwritten, hvalue, hsign₂ hdropped i hle (by omega)]
    · have hlt : i < two.type.getValueNumBits := by omega
      obtain ⟨hwritten, hvalue⟩ := hdropped.testBit hone hle
      rw [hwritten, hvalue, two.testBit_written_of_lt hlt, hsign₁ hdropped i hle hlt]

/-- No sign is dropped for a `BOOL` result. -/
theorem not_signDropped_of_width_one {n : GenericInteger} (h : n.type.getValueNumBits ≤ 1) :
    ¬n.SignDropped := by
  rintro ⟨ht | ht, -⟩ <;> rw [ht] at h <;> exact absurd h (by decide)

theorem mergeBools_of_not_double {op : BooleanOperation} (hop : ¬op.isDoubleInputOperation)
    (x y : Bool) : op.mergeBools x y = none := by
  cases op <;> first | rfl | exact absurd rfl hop

/-- The bits of a result of less than a byte above its width. -/
theorem written_high {one two : GenericInteger} (hone : one.InRange) (htwo : two.InRange)
    {type : IntegerType}
    (hwidth : type.getValueNumBits = max one.type.getValueNumBits two.type.getValueNumBits)
    {i : ℕ} (hle : type.getValueNumBits ≤ i) (hlt : i < 8 * type.getValueNumBytes) :
    one.written.testBit i = false ∧ two.written.testBit i = false := by
  have hsub : type.isSubByte := by
    by_contra hnot
    have hbits := (getValueNumBits_of_not_subByte hnot).1
    omega
  rw [isSubByte_iff, hwidth, max_lt_iff] at hsub
  rw [hwidth] at hle
  exact ⟨GenericInteger.testBit_written_of_subByte hone (isSubByte_iff.mpr hsub.1)
      ((le_max_left _ _).trans hle),
    GenericInteger.testBit_written_of_subByte htwo (isSubByte_iff.mpr hsub.2)
      ((le_max_right _ _).trans hle)⟩

theorem testBit_zero_of_bool {n : GenericInteger} (hn : n.InRange) (ht : n.type = .bool) :
    n.value.testBit 0 = decide (n.value = 1) := by
  obtain ⟨hlo, hhi⟩ := GenericInteger.bounds_of_inRange hn
  rw [ht] at hlo hhi
  simp only [IntegerType.bounds] at hlo hhi
  obtain hv | hv : n.value = 0 ∨ n.value = 1 := by omega
  all_goals
    rw [hv]
    rfl

/-- Two integers are merged by the convention if the operation keeps it. -/
theorem merged_iff (op : BooleanOperation) {one two : GenericInteger} (hone : one.InRange)
    (htwo : two.InRange) :
    (∃ result ∈ op.mergeValuesViaOperator one two, op.Merged one two result) ↔
      op.Kept one two := by
  by_cases hop : op.isDoubleInputOperation
  case neg =>
    refine iff_of_false ?_ fun h ↦ hop h.double
    rintro ⟨result, hmem, -⟩
    rw [mergeValuesViaOperator, if_neg hop] at hmem
    nomatch hmem
  obtain ⟨type, bytes, hmerge, hwidth, hsign, hlength, hbits⟩ :=
    mergeValuesViaOperator_eq hop hone htwo
  have hbytes : type.getValueNumBits ≤ 8 * type.getValueNumBytes := by cases type <;> decide
  have hpos := type.getValueNumBits_pos
  -- The bits above the width come from two operands that have none there.
  obtain ⟨high, hfalse⟩ : ∃ high, op.mergeBools false false = some high := by
    cases op <;> first | exact absurd hop Bool.false_ne_true | exact ⟨_, rfl⟩
  have hhigh : ∀ i, type.getValueNumBits ≤ i → i < 8 * type.getValueNumBytes →
      (bytesValue bytes).testBit i = high := by
    intro i hle hlt
    have hbit := hbits i hlt
    obtain ⟨h₁, h₂⟩ := written_high hone htwo hwidth hle hlt
    rw [h₁, h₂, hfalse] at hbit
    exact (Option.some.inj hbit).symm
  have hread := readMerged_iff hlength hhigh
  have htop (hsigns : ∀ i < max one.type.getValueNumBits two.type.getValueNumBits,
      op.mergeBools (one.written.testBit i) (two.written.testBit i) =
        op.mergeBools (one.value.testBit i) (two.value.testBit i)) :
      HighBitsFit type.getValueNumBits type.isSigned (some high)
          (some ((bytesValue bytes).testBit (type.getValueNumBits - 1))) ↔
        HighBitsFit (max one.type.getValueNumBits two.type.getValueNumBits)
          (one.type.isSigned || two.type.isSigned) (op.mergeBools false false)
          (op.mergeBools
            (one.value.testBit (max one.type.getValueNumBits two.type.getValueNumBits - 1))
            (two.value.testBit (max one.type.getValueNumBits two.type.getValueNumBits - 1))) := by
    rw [← hbits _ (by omega), hsign, hfalse, hwidth, hsigns _ (by omega)]
  constructor
  · rintro ⟨result, hmem, hmerged⟩
    obtain rfl := Option.some.inj (hmerge.symm.trans hmem)
    have hvalues := hmerged.bits
    rw [type_readMerged] at hvalues
    have hsigns : ∀ i < max one.type.getValueNumBits two.type.getValueNumBits,
        op.mergeBools (one.written.testBit i) (two.written.testBit i) =
          op.mergeBools (one.value.testBit i) (two.value.testBit i) := by
      by_cases htype : type = .bool
      · have hone_width : max one.type.getValueNumBits two.type.getValueNumBits = 1 := by
          rw [← hwidth, htype]
          rfl
        exact (written_bits_iff hone htwo).mpr
          ⟨fun h ↦ absurd h (not_signDropped_of_width_one (by omega)),
            fun h ↦ absurd h (not_signDropped_of_width_one (by omega))⟩
      · intro i hi
        rw [← hwidth] at hi
        rw [hbits i (by omega), hvalues i hi, testBit_readMerged htype hi]
    have hsame : ∀ i < type.getValueNumBits,
        (readMerged type bytes).value.testBit i = (bytesValue bytes).testBit i := by
      intro i hi
      have hbit := hvalues i hi
      rw [← hsigns i (by omega), hbits i (by omega)] at hbit
      exact (Option.some.inj hbit).symm
    obtain ⟨hsign₁, hsign₂⟩ := (written_bits_iff hone htwo).mp hsigns
    exact ⟨hop, hsign₁, hsign₂, (htop hsigns).mp (hread.mp ⟨hmerged.inRange, hsame⟩)⟩
  · intro h
    have hsigns := (written_bits_iff hone htwo).mpr ⟨h.oneSign, h.twoSign⟩
    obtain ⟨hrange, hsame⟩ := hread.mpr ((htop hsigns).mpr h.highBits)
    have hvalues : ∀ i < type.getValueNumBits,
        op.mergeBools (one.value.testBit i) (two.value.testBit i) =
          some ((readMerged type bytes).value.testBit i) := by
      intro i hi
      rw [← hsigns i (by omega), hbits i (by omega), hsame i hi]
    refine ⟨readMerged type bytes, hmerge, ?_, ?_, hrange, ?_, fun hb₁ hb₂ ↦ ?_⟩
    · rw [type_readMerged, hwidth]
    · rw [type_readMerged, hsign]
    · rw [type_readMerged]
      exact hvalues
    · have htype : type = .bool := by
        rw [hb₁, hb₂] at hwidth
        cases type <;> first | rfl | exact absurd hwidth (by decide)
      have hbit := hvalues 0 hpos
      rwa [testBit_zero_of_bool hone hb₁, testBit_zero_of_bool htwo hb₂,
        testBit_zero_of_bool hrange (by rw [type_readMerged, htype])] at hbit

/-- The complement of a type of less than a byte, value by value. -/
theorem applied_not_subByte_iff {one : GenericInteger} (hone : one.InRange)
    (ht : one.type.isSubByte) :
    (∃ result ∈ not.applyOperator one, result.type = one.type ∧ result.InRange ∧
        ∀ i < one.type.getValueNumBits, result.value.testBit i = !one.value.testBit i) ↔
      (one.type = .int2 ∨ one.type = .int4 → one.value < 0) := by
  have hall : ∀ t ∈ [IntegerType.bool, .int2, .uint2, .int4, .uint4], ∀ v : ℤ, -8 ≤ v → v < 16 →
      t.format.Holds v →
        ((∃ result ∈ not.applyOperator (.ofInt t v), result.type = t ∧ result.InRange ∧
            ∀ i < t.getValueNumBits, result.value.testBit i = !v.testBit i) ↔
          (t = .int2 ∨ t = .int4 → v < 0)) := by
    decide +kernel
  have hmem : one.type ∈ [IntegerType.bool, .int2, .uint2, .int4, .uint4] := by
    cases h : one.type <;> first | decide | exact absurd ht (by rw [h]; decide)
  have hself : GenericInteger.ofInt one.type one.value = one :=
    GenericInteger.ext rfl (GenericInteger.ofInt_value one.held)
  obtain ⟨hlo, hhi⟩ := GenericInteger.bounds_of_inRange hone
  have hbounds : -8 ≤ one.value ∧ one.value < 16 := by
    cases h : one.type <;> rw [h] at ht hlo hhi <;> first
      | exact absurd ht (by decide)
      | simp only [IntegerType.bounds] at hlo hhi
        omega
  have hiff := hall one.type hmem one.value hbounds.1 hbounds.2 hone
  rwa [hself] at hiff

/-- The complement of a type of whole bytes. -/
theorem applied_not_of_not_subByte {one : GenericInteger} (hone : one.InRange)
    (ht : ¬one.type.isSubByte) : ∃ result ∈ not.applyOperator one, not.Applied one result := by
  obtain ⟨hbits, hholder⟩ := getValueNumBits_of_not_subByte ht
  have hbool : one.type ≠ .bool := by
    intro h
    exact ht (by rw [h]; rfl)
  have happly : not.applyOperator one = some (.ofInt one.type
      (bytesValue ((integerBytes one.type.getValueNumBytes one.value).map fun byte ↦ ~~~byte))) := by
    simp only [applyOperator, integerByteString_eq ht hone, Option.bind_eq_bind, Option.bind_some,
      if_neg ht]
  refine ⟨_, happly, rfl, ?_, fun i hi ↦ ?_⟩
  · rw [GenericInteger.InRange, GenericInteger.ofInt_type, ← holder_eq_of_not_subByte ht]
    exact (GenericInteger.ofInt one.type _).held
  · have hbyte : i < 8 * (integerBytes one.type.getValueNumBytes one.value).length := by
      rw [length_integerBytes]
      omega
    rw [GenericInteger.ofInt_value_of_ne hbool,
      testBit_congr (one.type.holder.wrap_emod _) (hholder ▸ hi), decide_eq_true rfl,
      Bool.xor_true, ← bitAt_integerBytes one.value (hbits ▸ hi),
      ← bitAt_map_complement hbyte,
      bitAt_eq_testBit (by rwa [List.length_map])]
    rfl

/-- The complement follows the convention apart from `INT2` and `INT4` numbers that are not
negative. -/
theorem applied_iff (op : BooleanOperation) {one : GenericInteger} (hone : one.InRange) :
    (∃ result ∈ op.applyOperator one, op.Applied one result) ↔
      op = identity ∨ op = not ∧ (one.type = .int2 ∨ one.type = .int4 → one.value < 0) := by
  by_cases hid : op = identity
  · subst hid
    refine iff_of_true ⟨one, rfl, rfl, hone, fun i _ ↦ ?_⟩ (.inl rfl)
    rw [decide_eq_false (by decide), Bool.xor_false]
  by_cases hnot : op = not
  · subst hnot
    simp only [hid, true_and, false_or]
    by_cases ht : one.type.isSubByte
    · rw [← applied_not_subByte_iff hone ht]
      refine exists_congr fun result ↦ and_congr_right fun _ ↦ ⟨fun h ↦ ?_, fun h ↦ ?_⟩
      · exact ⟨h.type, h.inRange, fun i hi ↦ by rw [h.bits i hi, decide_eq_true rfl, Bool.xor_true]⟩
      · exact ⟨h.1, h.2.1, fun i hi ↦ by rw [h.2.2 i hi, decide_eq_true rfl, Bool.xor_true]⟩
    · refine iff_of_true (applied_not_of_not_subByte hone ht) fun h ↦ ?_
      rcases h with h | h <;> exact absurd (by rw [h]; rfl) ht
  · refine iff_of_false ?_ fun h ↦ h.elim hid fun h ↦ hnot h.1
    rintro ⟨result, hmem, -⟩
    cases op <;> first | exact hid rfl | exact hnot rfl | nomatch hmem

/-- The bitwise operations follow the convention for the operands that keep it. -/
theorem bitwise_convention_iff (op : BooleanOperation) (one two : Operand) :
    ((∃ result ∈ op.mergeValuesViaOperator one two, op.Merged one two result) ↔
      op.Kept one two) ∧
    ((∃ result ∈ op.applyOperator one, op.Applied one result) ↔
      op = identity ∨
        op = not ∧ (one.val.type = .int2 ∨ one.val.type = .int4 → one.val.value < 0)) :=
  ⟨merged_iff op one.property two.property, applied_iff op one.property⟩

/-- The `NAND` of two false `BOOL` values has the byte 255, which is read as false. -/
theorem not_merged_nand_false :
    ¬∃ result ∈ nand.mergeValuesViaOperator (.ofInt .bool 0) (.ofInt .bool 0),
      nand.Merged (.ofInt .bool 0) (.ofInt .bool 0) result := by
  rw [merged_iff nand (by decide) (by decide)]
  intro h
  exact absurd h.highBits (by decide)

end BooleanOperation

end Safrn.Generic
