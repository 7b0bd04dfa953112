import Safrn.Generic.ByteString
import Safrn.Generic.Literal

/-!
# Arithmetic of generic integers

Models `MergeValuesViaOperator` of an `ArithmeticOperation` on two integers
(`Util/data_structures.cpp:3762-4351`). Whether the result is unsigned is decided from the second
operand alone, which is tested twice. Overflow of signed arithmetic is undefined, and so is the
conversion of a power, computed in floating point, that does not fit; `wraps` says whether signed
sums and products are compiled to ones that wrap.
-/

namespace Safrn.Generic

open Safrn.Base

/-- The operations that make an integer of two integers. -/
inductive ArithmeticOperation
  | add
  | sub
  | mult
  | innerProduct
  | div
  | min
  | max
  | pow
  deriving DecidableEq

/-! ### Reducing to the types of less than a byte -/

/-- `while (temp < lower) temp += modulus`. -/
def raised (f : IntFormat) (temp : ℤ) : ℤ :=
  if temp < f.lower then raised f (temp + 2 ^ f.width) else temp
  termination_by (f.lower - temp).toNat
  decreasing_by
    have hpow : (0 : ℤ) < 2 ^ f.width := by positivity
    omega

/-- `while (temp >= upper) temp -= modulus`. -/
def lowered (f : IntFormat) (temp : ℤ) : ℤ :=
  if f.upper ≤ temp then lowered f (temp - 2 ^ f.width) else temp
  termination_by (temp - f.upper + 1).toNat
  decreasing_by
    have hpow : (0 : ℤ) < 2 ^ f.width := by positivity
    omega

theorem raised_spec (f : IntFormat) (temp : ℤ) :
    f.lower ≤ raised f temp ∧ (raised f temp < f.upper ∨ raised f temp = temp) ∧
      raised f temp % 2 ^ f.width = temp % 2 ^ f.width := by
  have hupper := f.upper_eq
  fun_induction raised f temp with
  | case1 temp h ih =>
    obtain ⟨hlo, hhi, hmod⟩ := ih
    refine ⟨hlo, .inl (hhi.elim id fun heq ↦ by rw [heq]; omega), ?_⟩
    rw [hmod, Int.add_emod_right]
  | case2 temp h => exact ⟨not_lt.mp h, .inr rfl, rfl⟩

theorem lowered_spec (f : IntFormat) {temp : ℤ} (hlo : f.lower ≤ temp) :
    f.Holds (lowered f temp) ∧ lowered f temp % 2 ^ f.width = temp % 2 ^ f.width := by
  have hupper := f.upper_eq
  fun_induction lowered f temp with
  | case1 temp h ih =>
    obtain ⟨hheld, hmod⟩ := ih (by omega)
    refine ⟨hheld, ?_⟩
    rw [hmod, Int.sub_emod_right]
  | case2 temp h => exact ⟨⟨hlo, not_le.mp h⟩, rfl⟩

/-- Both loops together reduce to the format. -/
theorem lowered_raised (f : IntFormat) (temp : ℤ) : lowered f (raised f temp) = f.wrap temp := by
  obtain ⟨hlo, -, hmod⟩ := raised_spec f temp
  obtain ⟨hheld, hmod'⟩ := lowered_spec f hlo
  rw [IntFormat.eq_wrap_iff hheld, hmod', hmod]

/-! ### The operations -/

/-- The result of a sum, a difference or a product in the machine type of `t`: the narrow types are
promoted to `int`. -/
def computed (wraps : Bool) (t : IntegerType) (v : ℤ) : Outcome ℤ :=
  match t with
  | .uint64 | .uint32 => .value (t.holder.wrap v)
  | .int64 | .int32 => signedResult wraps t v
  | _ => (signedResult wraps .int32 v).map t.holder.wrap

/-- The result of a division. -/
def divided (t : IntegerType) (v : ℤ) : Outcome ℤ :=
  match t with
  | .int64 | .int32 => if t.holder.Holds v then .value v else .undefined
  | _ => .value (t.holder.wrap v)

/-- A `double` converted to a machine type; `none` is no number. -/
def converted (f : IntFormat) (x : Option ℚ) : Outcome ℤ :=
  match x with
  | none => .undefined
  | some x =>
    let v := if 0 ≤ x then ⌊x⌋ else ⌈x⌉
    if f.Holds v then .value v else .undefined

namespace ArithmeticOperation

variable (powDouble : ℤ → ℤ → Option ℚ) (wraps : Bool)

/-- The branches for whole bytes. -/
def mergeBytes (t : IntegerType) (op : ArithmeticOperation) (valueOne valueTwo : ℤ) : Outcome ℤ :=
  match op with
  | add => computed wraps t (valueOne + valueTwo)
  | sub => computed wraps t (valueOne - valueTwo)
  | mult | innerProduct => computed wraps t (valueOne * valueTwo)
  | div => if valueTwo = 0 then .refused else divided t (valueOne.tdiv valueTwo)
  | min => .value (Min.min valueOne valueTwo)
  | max => .value (Max.max valueOne valueTwo)
  | pow =>
    if valueTwo = 0 ∧ valueOne = 0 then .refused
    else converted t.holder (powDouble valueOne valueTwo)

/-- The branches for two and four bits: `temp` is a `char`. -/
def mergeSubByte (t : IntegerType) (op : ArithmeticOperation) (valueOne valueTwo : ℤ) :
    Outcome ℤ :=
  let char := IntegerType.int8.holder
  let f := t.format
  match op with
  | add =>
    let temp := char.wrap (valueOne + valueTwo)
    .value (if t.isSigned ∧ temp < f.lower then temp + 2 ^ f.width
      else if f.upper ≤ temp then temp - 2 ^ f.width else temp)
  | sub =>
    let temp := char.wrap (valueOne - valueTwo)
    .value (if temp < f.lower then temp + 2 ^ f.width
      else if t.isSigned ∧ f.upper ≤ temp then temp - 2 ^ f.width else temp)
  | mult | innerProduct =>
    .value (lowered f (raised f (char.wrap (valueOne * valueTwo))))
  | div => if valueTwo = 0 then .refused else .value (valueOne.tdiv valueTwo)
  | min => .value (Min.min valueOne valueTwo)
  | max => .value (Max.max valueOne valueTwo)
  | pow =>
    if valueTwo = 0 ∧ valueOne = 0 then .refused
    else (converted char (powDouble valueOne valueTwo)).map
      fun temp ↦ lowered f (raised f temp)

/-- The branch for `BOOL`. -/
def mergeBool (op : ArithmeticOperation) (valueOne valueTwo : ℤ) : Outcome ℤ :=
  match op with
  | add | sub => .value (if valueOne ≠ valueTwo then 1 else 0)
  | mult | innerProduct | min => .value (if valueOne ≠ 0 ∧ valueTwo ≠ 0 then 1 else 0)
  | div => if valueTwo = 0 then .refused else .value valueOne
  | max => .value (if valueOne ≠ 0 ∨ valueTwo ≠ 0 then 1 else 0)
  | pow => if valueTwo = 0 ∧ valueOne = 0 then .refused else .value valueOne

/-- The type of the result: the signedness of the second operand is tested twice. -/
def outputType (one two : IntegerType) : IntegerType :=
  let isUnsigned := !two.isSigned && !two.isSigned
  let either (bits : ℕ) : Bool := one.getValueNumBits = bits || two.getValueNumBits = bits
  if either 64 then if isUnsigned then .uint64 else .int64
  else if either 32 then if isUnsigned then .uint32 else .int32
  else if either 16 then if isUnsigned then .uint16 else .int16
  else if either 8 then if isUnsigned then .uint8 else .int8
  else if either 4 then if isUnsigned then .uint4 else .int4
  else if either 2 then if isUnsigned then .uint2 else .int2
  else .bool

/-- The operands as numbers of the machine type: `GetUnsignedIntegerValue` and
`GetSignedIntegerValue` for 64 bits, `GetIntegerValue` for less. -/
def readOperands (t : IntegerType) (one two : GenericInteger) : Option (ℤ × ℤ) :=
  match t with
  | .uint64 => do
    let valueOne ← one.getUnsignedIntegerValue
    let valueTwo ← two.getUnsignedIntegerValue
    some (valueOne, valueTwo)
  | .int64 => do
    -- The second operand is signed here, so the branch for a signed first one is never taken.
    let valueTwo ← two.getSignedIntegerValue
    let valueTemp ← one.getUnsignedIntegerValue
    some (t.holder.wrap valueTemp, valueTwo)
  | _ => some ((GenericInteger.ofInt t one.value).value, (GenericInteger.ofInt t two.value).value)

/-- The branch that is taken. -/
def mergeValues (t : IntegerType) (op : ArithmeticOperation) (valueOne valueTwo : ℤ) : Outcome ℤ :=
  match t with
  | .bool => op.mergeBool valueOne valueTwo
  | .int2 | .uint2 | .int4 | .uint4 => mergeSubByte powDouble t op valueOne valueTwo
  | _ => mergeBytes powDouble wraps t op valueOne valueTwo

/-- `MergeValuesViaOperator` on two integers. -/
def mergeValuesViaOperator (op : ArithmeticOperation) (one two : GenericInteger) :
    Outcome GenericInteger :=
  let t := outputType one.type two.type
  match readOperands t one two with
  | none => .refused
  | some (valueOne, valueTwo) =>
    (mergeValues powDouble wraps t op valueOne valueTwo).map (GenericInteger.ofInt t)

end ArithmeticOperation

/-! ### The convention -/

/-- The power of two integers if it is an integer; `0 ^ 0` is none. -/
def power (x y : ℤ) : Option ℤ :=
  if x = 0 ∧ y ≤ 0 then none
  else if 0 ≤ y ∨ x = 1 ∨ x = -1 then some (x ^ y.natAbs)
  else none

/-- The integer result of an operation. -/
def exactResult (op : ArithmeticOperation) (x y : ℤ) : Option ℤ :=
  match op with
  | .add => some (x + y)
  | .sub => some (x - y)
  | .mult | .innerProduct => some (x * y)
  | .div => if y = 0 then none else some (x.tdiv y)
  | .min => some (min x y)
  | .max => some (max x y)
  | .pow => power x y

/-- The result has the larger width, is signed if one of the operands is, and is the representative
of the integer result. -/
structure Conventional (one two : GenericInteger) (v : ℤ) (result : GenericInteger) : Prop where
  width : result.type.getValueNumBits =
    max one.type.getValueNumBits two.type.getValueNumBits
  sign : result.type.isSigned = (one.type.isSigned || two.type.isSigned)
  value : result.value = result.type.format.wrap v

/-- The integers that are a `double`: at most 53 bits, and zeros below them. -/
def IsDouble (n : ℤ) : Prop := ∃ k : ℕ, (2 ^ k : ℤ) ∣ n ∧ |n| < 2 ^ (53 + k)

/-- What is relied on of the library's `pow` for integers converted to `double`: every `double` above
`2 ^ 53` is even, a power that is a `double` is found, and another is rounded to a `double`. -/
structure IsPow (powDouble : ℤ → ℤ → Option ℚ) : Prop where
  zero : ∀ y, 0 < y → powDouble 0 y = some 0
  one : ∀ y, powDouble 1 y = some 1
  minusOne : ∀ y, powDouble (-1) y = some (if 2 ^ 53 < |y| ∨ Even y then 1 else -1)
  representable : ∀ x y, 2 ≤ |x| → 0 ≤ y → |x ^ y.natAbs| < 2 ^ 64 → IsDouble (x ^ y.natAbs) →
    powDouble x y = some ((x ^ y.natAbs : ℤ) : ℚ)
  rounded : ∀ x y, 2 ≤ |x| → 0 ≤ y → |x ^ y.natAbs| < 2 ^ 64 → ¬IsDouble (x ^ y.natAbs) →
    ∃ n : ℤ, powDouble x y = some (n : ℚ) ∧ IsDouble n ∧ 2 ^ 53 ≤ |n| ∧ (0 < n ↔ 0 < x ^ y.natAbs)
  large : ∀ x y, 2 ≤ |x| → 0 ≤ y → 2 ^ 64 ≤ |x ^ y.natAbs| → ∀ q ∈ powDouble x y, 2 ^ 64 ≤ |q|

/-- No signed arithmetic overflows, or it wraps. -/
def NoOverflow (wraps : Bool) (t : IntegerType) (v : ℤ) : Prop :=
  match t with
  | .int64 => wraps ∨ t.format.Holds v
  | .int32 | .uint16 => wraps ∨ IntegerType.int32.format.Holds v
  | _ => True

/-- The power fits the machine type and is computed exactly in floating point. -/
def PowerFits (f : IntFormat) (x y : ℤ) : Prop :=
  (∀ p ∈ power x y, f.Holds p ∧ IsDouble p) ∧ (x = -1 → |y| ≤ 2 ^ 53 ∨ Even y)

/-- The operands can be read, and the second one has the signedness of the result. -/
structure Readable (one two : GenericInteger) : Prop where
  sign : one.type.isSigned → two.type.isSigned
  slice : one.type ≠ .slice ∧ two.type ≠ .slice
  nonneg : max one.type.getValueNumBits two.type.getValueNumBits = 64 → two.type.isSigned →
    0 ≤ one.value

/-- Nothing is lost on the way to the result of the type `t`: `x` is the first operand as it is
read. -/
def NothingLost (wraps : Bool) (t : IntegerType) (op : ArithmeticOperation) (a b : ℤ) : Prop :=
  let x := t.holder.wrap a
  match op with
  | .add => NoOverflow wraps t (x + b)
  | .sub => NoOverflow wraps t (x - b)
  | .mult | .innerProduct => NoOverflow wraps t (x * b)
  | .div =>
    if t.isSubByte then t.format.Holds (a.tdiv b)
    else (t.format.Holds a ∨ b = 1 ∨ b = -1) ∧
      (t = .int64 ∨ t = .int32 → t.format.Holds (x.tdiv b))
  | .min => t.isSubByte ∨ t.format.Holds a ∨ b ≤ x
  | .max => t.format.Holds a ∨ ¬t.isSubByte ∧ b ≤ x
  | .pow => t = .bool ∨ PowerFits (if t.isSubByte then IntegerType.int8.holder else t.holder) x b

/-! ### Results of the branches -/

/-- A branch stores the representative of `v`. -/
def Gives (t : IntegerType) (result : Outcome ℤ) (v : ℤ) : Prop :=
  ∃ u, result = .value u ∧ (GenericInteger.ofInt t u).value = t.format.wrap v

theorem gives_value {t : IntegerType} {u v : ℤ} :
    Gives t (.value u) v ↔ (GenericInteger.ofInt t u).value = t.format.wrap v := by
  refine ⟨?_, fun h ↦ ⟨u, rfl, h⟩⟩
  rintro ⟨u', h, hvalue⟩
  cases h
  exact hvalue

theorem not_gives_undefined {t : IntegerType} {v : ℤ} : ¬Gives t .undefined v := by
  rintro ⟨u, h, -⟩
  cases h

theorem not_gives_refused {t : IntegerType} {v : ℤ} : ¬Gives t .refused v := by
  rintro ⟨u, h, -⟩
  cases h

/-- The type keeps a representative. -/
theorem ofInt_wrap (t : IntegerType) (v : ℤ) :
    (GenericInteger.ofInt t (t.format.wrap v)).value = t.format.wrap v :=
  GenericInteger.ofInt_value (IntegerType.holder_holds (t.format.holds_wrap v))

/-- What the type holds is the representative of its residue only. -/
theorem gives_value_of_holds {t : IntegerType} {u v : ℤ} (hu : t.format.Holds u) :
    Gives t (.value u) v ↔ u % 2 ^ t.format.width = v % 2 ^ t.format.width := by
  rw [gives_value, GenericInteger.ofInt_value (IntegerType.holder_holds hu),
    IntFormat.eq_wrap_iff hu]

/-- A number that is kept without being reduced must be a number of the type. -/
theorem gives_value_self_iff {t : IntegerType} {v : ℤ} (hv : t.holder.Holds v) :
    Gives t (.value v) v ↔ t.format.Holds v := by
  rw [gives_value, GenericInteger.ofInt_value hv, eq_comm, IntFormat.wrap_eq_self_iff]

/-- The types that are promoted to `int`. -/
theorem computed_of_promoted (wraps : Bool) {t : IntegerType}
    (ht : t = .int8 ∨ t = .uint8 ∨ t = .int16 ∨ t = .uint16) (v : ℤ) :
    computed wraps t v = (signedResult wraps .int32 v).map t.holder.wrap := by
  rcases ht with rfl | rfl | rfl | rfl <;> rfl

/-- Machine arithmetic gives the representative unless it overflows. -/
theorem gives_computed_iff {wraps : Bool} {t : IntegerType} (ht : ¬t.isSubByte)
    (hslice : t ≠ .slice) {v e : ℤ}
    (hnarrow : t = .int8 ∨ t = .uint8 ∨ t = .int16 → IntegerType.int32.holder.Holds v)
    (hmod : v % 2 ^ t.format.width = e % 2 ^ t.format.width) :
    Gives t (computed wraps t v) e ↔ NoOverflow wraps t v := by
  have hwrapped : Gives t (.value (t.format.wrap v)) e := by
    rw [gives_value, ofInt_wrap, IntFormat.wrap_congr hmod]
  have hpromoted (hdvd : (2 ^ t.format.width : ℤ) ∣ 2 ^ 32) :
      Gives t (.value (t.format.wrap (IntegerType.int32.holder.wrap v))) e := by
    have hwrap : IntegerType.int32.holder.wrap v % 2 ^ t.format.width =
        v % 2 ^ t.format.width := by
      have hmod32 : IntegerType.int32.holder.wrap v % 2 ^ 32 = v % 2 ^ 32 :=
        IntegerType.int32.holder.wrap_emod v
      rw [← Int.emod_emod_of_dvd _ hdvd, hmod32, Int.emod_emod_of_dvd _ hdvd]
    rw [IntFormat.wrap_congr hwrap]
    exact hwrapped
  cases t with
  | bool | int2 | uint2 | int4 | uint4 => exact absurd rfl ht
  | slice => exact absurd rfl hslice
  | uint64 | uint32 => exact iff_of_true hwrapped trivial
  | int8 | uint8 | int16 =>
    refine iff_of_true ?_ trivial
    rw [computed_of_promoted wraps (by simp), signedResult, if_pos (hnarrow (by simp))]
    exact hwrapped
  | uint16 =>
    rw [computed_of_promoted wraps (by simp), signedResult]
    by_cases hheld : IntegerType.int32.holder.Holds v
    · rw [if_pos hheld]
      exact iff_of_true hwrapped (.inr hheld)
    · rw [if_neg hheld]
      cases wraps
      · exact iff_of_false not_gives_undefined fun h ↦ h.elim Bool.false_ne_true hheld
      · exact iff_of_true (hpromoted (by decide)) (.inl rfl)
  | int32 | int64 =>
    rw [computed, signedResult]
    split
    case isTrue hheld =>
      refine iff_of_true ?_ (.inr hheld)
      exact (gives_value_of_holds (by exact hheld)).mpr hmod
    case isFalse hheld =>
      cases wraps
      · exact iff_of_false not_gives_undefined fun h ↦ h.elim Bool.false_ne_true hheld
      · exact iff_of_true hwrapped (.inl rfl)

/-! ### Operands as they are read -/

/-- The operands of a result type that has the signedness of the second one. -/
structure Ranged (t : IntegerType) (a b : ℤ) : Prop where
  first : t.format.lower ≤ a ∧ a < 2 ^ t.format.width
  second : t.format.Holds b

section

variable {t : IntegerType} {a b : ℤ}

/-- A first operand that is not kept is above the numbers of the type, which are signed. -/
theorem Ranged.first_above (h : Ranged t a b) (hheld : ¬t.format.Holds a) :
    (2 : ℤ) ^ t.format.width = 2 * t.format.upper ∧ t.format.lower = -t.format.upper ∧
      t.format.upper ≤ a := by
  have hlo := h.first.1
  have hhi := h.first.2
  have hnot : t.format.upper ≤ a := by
    by_contra hlt
    exact hheld ⟨hlo, not_le.mp hlt⟩
  have hwidth := t.format.two_pow_width
  rw [IntFormat.upper, IntFormat.lower] at *
  by_cases hs : t.format.signed
  · rw [if_pos hs] at hnot ⊢
    rw [if_pos hs]
    exact ⟨hwidth, rfl, hnot⟩
  · rw [if_neg hs] at hnot
    omega

/-- The first operand is read as its representative. -/
theorem Ranged.wrap_first (h : Ranged t a b) :
    t.format.wrap a = if t.format.Holds a then a else a - 2 ^ t.format.width := by
  split
  case isTrue hheld => exact IntFormat.wrap_of_holds hheld
  case isFalse hheld =>
    obtain ⟨hwidth, hlower, hle⟩ := h.first_above hheld
    have hhi := h.first.2
    have hpos := t.format.upper_pos
    symm
    rw [IntFormat.eq_wrap_iff ⟨by omega, by omega⟩, Int.sub_emod_right]

end

/-! ### Powers -/

theorem isDouble_of_abs_lt {n : ℤ} (h : |n| < 2 ^ 53) : IsDouble n := ⟨0, one_dvd n, h⟩

/-- An integer is converted to itself if it fits. -/
theorem converted_intCast (f : IntFormat) (n : ℤ) :
    converted f (some (n : ℚ)) = if f.Holds n then .value n else .undefined := by
  simp only [converted, Int.floor_intCast, Int.ceil_intCast, ite_self]

theorem holds_of_converted {f : IntFormat} {x : Option ℚ} {v : ℤ}
    (h : converted f x = .value v) : f.Holds v := by
  cases x with
  | none => cases h
  | some q =>
    simp only [converted] at h
    generalize (if 0 ≤ q then ⌊q⌋ else ⌈q⌉) = u at h
    split at h
    case isTrue hheld =>
      cases h
      exact hheld
    case isFalse => cases h

theorem eq_of_converted_intCast {f : IntFormat} {n v : ℤ}
    (h : converted f (some (n : ℚ)) = .value v) : v = n ∧ f.Holds n := by
  rw [converted_intCast] at h
  split at h
  case isTrue hheld =>
    cases h
    exact ⟨rfl, hheld⟩
  case isFalse => cases h

/-- What is too large for all types is not converted. -/
theorem not_converted_of_large {f : IntFormat} (hwidth : f.width ≤ 64) {x : Option ℚ} {v : ℤ}
    (hx : ∀ q ∈ x, 2 ^ 64 ≤ |q|) : converted f x ≠ .value v := by
  intro h
  cases x with
  | none => cases h
  | some q =>
    have hlarge := hx q rfl
    have hpow : (2 : ℤ) ^ f.width ≤ 2 ^ 64 := pow_le_pow_right₀ (by norm_num) hwidth
    have htrunc : 2 ^ 64 ≤ |if 0 ≤ q then ⌊q⌋ else ⌈q⌉| := by
      split
      case isTrue hq =>
        rw [abs_of_nonneg hq] at hlarge
        rw [abs_of_nonneg (Int.floor_nonneg.mpr hq), Int.le_floor]
        exact_mod_cast hlarge
      case isFalse hq =>
        rw [abs_of_neg (not_le.mp hq)] at hlarge
        have hceil : ⌈q⌉ ≤ -2 ^ 64 := by
          rw [Int.ceil_le]
          push_cast
          linarith
        rw [abs_of_neg (by omega)]
        omega
    simp only [converted] at h
    generalize (if 0 ≤ q then ⌊q⌋ else ⌈q⌉) = u at h htrunc
    split at h
    case isTrue hheld =>
      have hlt := IntFormat.abs_lt_of_holds hheld
      omega
    case isFalse => cases h

/-- The powers of the bases 0, 1 and -1. -/
theorem power_cases {x y p : ℤ} (h : power x y = some p) :
    x = 0 ∧ 0 < y ∧ p = 0 ∨ x = 1 ∧ p = 1 ∨ x = -1 ∧ p = (if Even y then 1 else -1) ∨
      2 ≤ |x| ∧ 0 ≤ y ∧ p = x ^ y.natAbs := by
  unfold power at h
  split at h
  case isTrue => cases h
  case isFalse hzero =>
    split at h
    case isFalse => cases h
    case isTrue hunit =>
      obtain rfl := Option.some.inj h
      by_cases hx0 : x = 0
      · left
        have hy : 0 < y := by
          by_contra hle
          exact hzero ⟨hx0, not_lt.mp hle⟩
        exact ⟨hx0, hy, by rw [hx0, zero_pow (Int.natAbs_ne_zero.mpr hy.ne')]⟩
      by_cases hx1 : x = 1
      · exact .inr (.inl ⟨hx1, by rw [hx1, one_pow]⟩)
      by_cases hx2 : x = -1
      · refine .inr (.inr (.inl ⟨hx2, ?_⟩))
        rw [hx2]
        split
        case isTrue heven => exact (Int.natAbs_even.mpr heven).neg_one_pow
        case isFalse hodd =>
          rw [Int.not_even_iff_odd] at hodd
          exact (Int.natAbs_odd.mpr hodd).neg_one_pow
      · refine .inr (.inr (.inr ⟨?_, by tauto, rfl⟩))
        rcases abs_cases x with ⟨h, _⟩ | ⟨h, _⟩ <;> omega

section

variable {powDouble : ℤ → ℤ → Option ℚ}

/-- A power that fits is converted exactly. -/
theorem converted_of_powerFits (hpow : IsPow powDouble) {f : IntFormat} (hwidth : f.width ≤ 64)
    {x y p : ℤ} (hp : power x y = some p) (hfits : PowerFits f x y) :
    converted f (powDouble x y) = .value p := by
  obtain ⟨hheld, hdouble⟩ := hfits.1 p hp
  have hlt : |p| < 2 ^ 64 :=
    (IntFormat.abs_lt_of_holds hheld).trans_le (pow_le_pow_right₀ (by norm_num) hwidth)
  have hvalue : powDouble x y = some (p : ℚ) := by
    rcases power_cases hp with ⟨rfl, hy, rfl⟩ | ⟨rfl, rfl⟩ | ⟨rfl, rfl⟩ | ⟨hx, hy, rfl⟩
    · rw [hpow.zero y hy, Int.cast_zero]
    · rw [hpow.one, Int.cast_one]
    · rw [hpow.minusOne]
      by_cases heven : Even y
      · simp [heven]
      · have hsmall : ¬2 ^ 53 < |y| := not_lt.mpr ((hfits.2 rfl).resolve_right heven)
        rw [if_neg (not_or.mpr ⟨hsmall, heven⟩), if_neg heven, Int.cast_neg, Int.cast_one]
    · exact hpow.representable x y hx hy hlt hdouble
  rw [hvalue, converted_intCast, if_pos hheld]

/-- A power that is converted fits if it has the right residue, or if numbers with more than 53 bits
are out of the question. -/
theorem powerFits_of_converted (hpow : IsPow powDouble) {f : IntFormat}
    (hwidth : f.width ≤ 32 ∨ f.width = 64) {x y p v : ℤ} (hp : power x y = some p)
    (hv : converted f (powDouble x y) = .value v)
    (hcase : v % 2 ^ f.width = p % 2 ^ f.width ∧ 2 ≤ f.width ∨ f.width ≤ 32 ∧ |y| ≤ 2 ^ 53) :
    PowerFits f x y := by
  have hsome {Q : ℤ → Prop} (h : Q p) : ∀ p' ∈ power x y, Q p' := by
    rintro p' hp'
    obtain rfl := Option.some.inj (hp.symm.trans hp')
    exact h
  rcases power_cases hp with ⟨rfl, hy, rfl⟩ | ⟨rfl, rfl⟩ | ⟨rfl, rfl⟩ | ⟨hx, hy, rfl⟩
  · exact ⟨hsome ⟨f.holds_zero, isDouble_of_abs_lt (by norm_num)⟩, by norm_num⟩
  · rw [hpow.one, ← Int.cast_one] at hv
    exact ⟨hsome ⟨(eq_of_converted_intCast hv).2, isDouble_of_abs_lt (by norm_num)⟩, by norm_num⟩
  · have hparity : |y| ≤ 2 ^ 53 ∨ Even y := by
      by_contra hnot
      rw [not_or, not_le] at hnot
      rcases hcase with ⟨hmod, htwo⟩ | ⟨-, hle⟩
      · rw [hpow.minusOne, if_pos (.inl hnot.1), ← Int.cast_one] at hv
        rw [(eq_of_converted_intCast hv).1, if_neg hnot.2] at hmod
        have hdvd : (2 : ℤ) ^ f.width ∣ 1 - -1 := Int.ModEq.dvd hmod.symm
        have hle := Int.le_of_dvd (by norm_num) hdvd
        have hpow2 : (2 : ℤ) ^ 2 ≤ 2 ^ f.width := pow_le_pow_right₀ (by norm_num) htwo
        omega
      · exact absurd hle (not_le.mpr hnot.1)
    refine ⟨hsome ?_, fun _ ↦ hparity⟩
    by_cases heven : Even y
    · rw [hpow.minusOne, if_pos (.inr heven), ← Int.cast_one] at hv
      rw [if_pos heven]
      exact ⟨(eq_of_converted_intCast hv).2, isDouble_of_abs_lt (by norm_num)⟩
    · have hsmall : ¬(2 ^ 53 < |y| ∨ Even y) := by
        rintro (h | h)
        · exact absurd (hparity.resolve_right heven) (not_le.mpr h)
        · exact heven h
      rw [hpow.minusOne, if_neg hsmall, ← Int.cast_one, ← Int.cast_neg] at hv
      rw [if_neg heven]
      exact ⟨(eq_of_converted_intCast hv).2, isDouble_of_abs_lt (by norm_num)⟩
  · have hx1 : x ≠ -1 := by
      rintro rfl
      exact absurd hx (by norm_num)
    refine ⟨hsome ?_, fun h ↦ absurd h hx1⟩
    by_cases hlt : |x ^ y.natAbs| < 2 ^ 64
    · by_cases hdouble : IsDouble (x ^ y.natAbs)
      · rw [hpow.representable x y hx hy hlt hdouble] at hv
        exact ⟨(eq_of_converted_intCast hv).2, hdouble⟩
      · obtain ⟨n, hn, hnDouble, hlarge, hsign⟩ := hpow.rounded x y hx hy hlt hdouble
        rw [hn] at hv
        obtain ⟨rfl, hheld⟩ := eq_of_converted_intCast hv
        have hnlt := IntFormat.abs_lt_of_holds hheld
        have hwide : f.width = 64 := by
          rcases hwidth with h | h
          · have hle : (2 : ℤ) ^ f.width ≤ 2 ^ 32 := pow_le_pow_right₀ (by norm_num) h
            omega
          · exact h
        have hmod := (hcase.resolve_right fun h ↦ by omega).1
        rw [hwide] at hmod hnlt
        have heq : v = x ^ y.natAbs := by
          rw [abs_lt] at hlt hnlt
          omega
        exact absurd (heq ▸ hnDouble) hdouble
    · exact absurd hv (not_converted_of_large (by omega)
        (hpow.large x y hx hy (not_lt.mp hlt)))

end

/-! ### Whole bytes -/

section

variable {t : IntegerType} {a b : ℤ}

/-- The first operand keeps its residue. -/
theorem emod_wrap (t : IntegerType) (a : ℤ) :
    t.format.wrap a ≡ a [ZMOD 2 ^ t.format.width] :=
  t.format.wrap_emod a

/-- The power of the operand that is read has the right residue. -/
theorem Ranged.power_congr (h : Ranged t a b) (hwidth : 2 ≤ t.format.width) {e : ℤ}
    (he : power a b = some e) :
    ∃ p, power (t.format.wrap a) b = some p ∧ p % 2 ^ t.format.width = e % 2 ^ t.format.width := by
  have hwrap := h.wrap_first
  by_cases hheld : t.format.Holds a
  · rw [if_pos hheld] at hwrap
    exact ⟨e, by rw [hwrap, he], rfl⟩
  · rw [if_neg hheld] at hwrap
    obtain ⟨hpow, hlower, hle⟩ := h.first_above hheld
    have hhi := h.first.2
    have hpos := t.format.upper_pos
    have htwo : (2 : ℤ) ^ 2 ≤ 2 ^ t.format.width := pow_le_pow_right₀ (by norm_num) hwidth
    unfold power at he
    rw [if_neg (by omega)] at he
    have hb : 0 ≤ b := by
      by_contra hneg
      rw [if_neg (by omega)] at he
      cases he
    rw [if_pos (.inl hb)] at he
    obtain rfl := Option.some.inj he
    refine ⟨t.format.wrap a ^ b.natAbs, ?_, (emod_wrap t a).pow _⟩
    rw [power, if_neg (by omega), if_pos (.inl hb)]

/-- Quotients of a first operand and of what is read for it. -/
theorem Ranged.tdiv_emod_iff (h : Ranged t a b) (hb : b ≠ 0) :
    (t.format.wrap a).tdiv b % 2 ^ t.format.width = a.tdiv b % 2 ^ t.format.width ↔
      t.format.Holds a ∨ b = 1 ∨ b = -1 := by
  have hwrap := h.wrap_first
  by_cases hheld : t.format.Holds a
  · rw [if_pos hheld] at hwrap
    rw [hwrap]
    exact iff_of_true rfl (.inl hheld)
  by_cases hone : b = 1
  · rw [hone, Int.tdiv_one, Int.tdiv_one]
    exact iff_of_true (emod_wrap t a) (.inr (.inl rfl))
  by_cases hminus : b = -1
  · rw [hminus, Int.tdiv_neg, Int.tdiv_neg, Int.tdiv_one, Int.tdiv_one]
    exact iff_of_true (emod_wrap t a).neg (.inr (.inr rfl))
  rw [if_neg hheld] at hwrap
  obtain ⟨hpow, hlower, hle⟩ := h.first_above hheld
  have hhi := h.first.2
  have hlo := h.second.1
  have hlt := h.second.2
  refine iff_of_false (fun hmod ↦ ?_) (by tauto)
  -- The quotients have opposite signs, and their distance is smaller than the modulus.
  have habs : 2 ≤ |b| ∧ |b| ≤ t.format.upper := by
    rcases abs_cases b with ⟨h, _⟩ | ⟨h, _⟩ <;> omega
  have hquotient {c : ℤ} (hc : 2 ≤ c ∧ c ≤ t.format.upper) :
      ¬(2 ^ t.format.width : ℤ) ∣ a.tdiv c - (t.format.wrap a).tdiv c := by
    have hneg : (t.format.wrap a).tdiv c = -((2 ^ t.format.width - a) / c) := by
      rw [hwrap, ← neg_sub, Int.neg_tdiv, Int.tdiv_eq_ediv_of_nonneg (by omega)]
    have hfirst : c * (a / c) ≤ a := Int.mul_ediv_self_le (by omega)
    have hsecond : c * ((2 ^ t.format.width - a) / c) ≤ 2 ^ t.format.width - a :=
      Int.mul_ediv_self_le (by omega)
    have hge : 1 ≤ a / c := (Int.le_ediv_iff_mul_le (by omega)).mpr (by omega)
    have hnonneg : 0 ≤ (2 ^ t.format.width - a) / c := Int.ediv_nonneg (by omega) (by omega)
    rw [hneg, Int.tdiv_eq_ediv_of_nonneg (by omega), sub_neg_eq_add]
    intro hdvd
    have hle := Int.le_of_dvd (by omega) hdvd
    have htwice : 2 * (a / c + (2 ^ t.format.width - a) / c) ≤
        c * (a / c + (2 ^ t.format.width - a) / c) :=
      mul_le_mul_of_nonneg_right hc.1 (by omega)
    rw [mul_add c] at htwice
    omega
  have hdvd : (2 ^ t.format.width : ℤ) ∣ a.tdiv b - (t.format.wrap a).tdiv b := Int.ModEq.dvd hmod
  rcases abs_cases b with ⟨heq, _⟩ | ⟨heq, _⟩
  · rw [heq] at habs
    exact hquotient habs hdvd
  · rw [heq] at habs
    refine hquotient habs ?_
    rw [Int.tdiv_neg, Int.tdiv_neg, ← neg_sub', dvd_neg]
    exact hdvd

/-- The narrow types that are promoted, and the numbers they compute with. -/
theorem Ranged.narrow (h : Ranged t a b) (ht : t = .int8 ∨ t = .uint8 ∨ t = .int16) :
    |t.format.wrap a| ≤ 32768 ∧ |b| ≤ 32768 := by
  have hx := IntegerType.holds_iff.mp (t.format.holds_wrap a)
  have hb := IntegerType.holds_iff.mp h.second
  rw [abs_le, abs_le]
  rcases ht with rfl | rfl | rfl <;> simp only [IntegerType.bounds] at hx hb <;> omega

theorem int32_holds_of_abs_le {v : ℤ} (h : |v| ≤ 1073741824) : IntegerType.int32.holder.Holds v := by
  rw [abs_le] at h
  rw [holder_eq_of_not_subByte (by decide), IntegerType.holds_iff]
  simp only [IntegerType.bounds]
  omega

/-- Numbers of a type, one of which is kept as the minimum or the maximum. -/
theorem Ranged.min_emod_iff (h : Ranged t a b) :
    min (t.format.wrap a) b % 2 ^ t.format.width = min a b % 2 ^ t.format.width ↔
      t.format.Holds a ∨ b ≤ t.format.wrap a := by
  have hwrap := h.wrap_first
  by_cases hheld : t.format.Holds a
  · rw [if_pos hheld] at hwrap
    rw [hwrap]
    exact iff_of_true rfl (.inl hheld)
  · obtain ⟨hpow, hlower, hle⟩ := h.first_above hheld
    have hlt := h.second.2
    rw [min_eq_right (show b ≤ a by omega), or_iff_right hheld]
    refine ⟨fun hmod ↦ ?_, fun hb ↦ by rw [min_eq_right hb]⟩
    by_contra hnot
    rw [min_eq_left (le_of_not_ge hnot)] at hmod
    exact hnot (IntFormat.eq_of_emod_eq (t.format.holds_wrap a) h.second hmod).ge

theorem Ranged.max_emod_iff (h : Ranged t a b) :
    max (t.format.wrap a) b % 2 ^ t.format.width = max a b % 2 ^ t.format.width ↔
      t.format.Holds a ∨ b ≤ t.format.wrap a := by
  have hwrap := h.wrap_first
  by_cases hheld : t.format.Holds a
  · rw [if_pos hheld] at hwrap
    rw [hwrap]
    exact iff_of_true rfl (.inl hheld)
  · obtain ⟨hpow, hlower, hle⟩ := h.first_above hheld
    have hlt := h.second.2
    rw [max_eq_left (show b ≤ a by omega), or_iff_right hheld]
    refine ⟨fun hmod ↦ ?_, fun hb ↦ by rw [max_eq_left hb, emod_wrap]⟩
    by_contra hnot
    rw [max_eq_right (le_of_not_ge hnot), ← emod_wrap t a] at hmod
    exact hnot (IntFormat.eq_of_emod_eq h.second (t.format.holds_wrap a) hmod).le

/-- A division gives the representative if its operands keep the quotient and it does not
overflow. -/
theorem Ranged.gives_divided_iff (h : Ranged t a b) (ht : ¬t.isSubByte) (hb : b ≠ 0) :
    Gives t (divided t ((t.format.wrap a).tdiv b)) (a.tdiv b) ↔
      (t.format.Holds a ∨ b = 1 ∨ b = -1) ∧
        (t = .int64 ∨ t = .int32 → t.format.Holds ((t.format.wrap a).tdiv b)) := by
  rw [← h.tdiv_emod_iff hb]
  by_cases hint : t = .int64 ∨ t = .int32
  · have hdivided (v : ℤ) :
        divided t v = if t.holder.Holds v then .value v else .undefined := by
      rcases hint with rfl | rfl <;> rfl
    rw [hdivided, holder_eq_of_not_subByte ht]
    split
    case isTrue hheld =>
      rw [gives_value_of_holds hheld]
      exact (and_iff_left fun _ ↦ hheld).symm
    case isFalse hheld => exact iff_of_false not_gives_undefined fun h ↦ hheld (h.2 hint)
  · have hdivided (v : ℤ) : divided t v = .value (t.holder.wrap v) := by
      cases t <;> first | rfl | exact absurd (by simp) hint
    rw [hdivided, holder_eq_of_not_subByte ht, gives_value_of_holds (t.format.holds_wrap _),
      t.format.wrap_emod]
    exact (and_iff_left fun h ↦ absurd h hint).symm

/-- The branches for whole bytes give the representative if nothing is lost. -/
theorem Ranged.gives_mergeBytes_iff {powDouble : ℤ → ℤ → Option ℚ} (hpow : IsPow powDouble)
    {wraps : Bool} (h : Ranged t a b) (ht : ¬t.isSubByte) (hslice : t ≠ .slice)
    {op : ArithmeticOperation} {e : ℤ} (he : exactResult op a b = some e) :
    Gives t (op.mergeBytes powDouble wraps t (t.holder.wrap a) b) e ↔
      NothingLost wraps t op a b := by
  have hholder := holder_eq_of_not_subByte ht
  have hx := emod_wrap t a
  cases op with
  | add =>
    obtain rfl := Option.some.inj he
    simp only [ArithmeticOperation.mergeBytes, NothingLost, hholder]
    refine gives_computed_iff ht hslice (fun hnarrow ↦ int32_holds_of_abs_le ?_) (hx.add_right b)
    have habs := abs_add_le (t.format.wrap a) b
    have hsmall := h.narrow hnarrow
    omega
  | sub =>
    obtain rfl := Option.some.inj he
    simp only [ArithmeticOperation.mergeBytes, NothingLost, hholder]
    refine gives_computed_iff ht hslice (fun hnarrow ↦ int32_holds_of_abs_le ?_) (hx.sub_right b)
    have habs := abs_sub (t.format.wrap a) b
    have hsmall := h.narrow hnarrow
    omega
  | mult | innerProduct =>
    obtain rfl := Option.some.inj he
    simp only [ArithmeticOperation.mergeBytes, NothingLost, hholder]
    refine gives_computed_iff ht hslice (fun hnarrow ↦ int32_holds_of_abs_le ?_) (hx.mul_right b)
    obtain ⟨h₁, h₂⟩ := h.narrow hnarrow
    rw [abs_mul]
    calc |t.format.wrap a| * |b| ≤ 32768 * 32768 :=
          mul_le_mul h₁ h₂ (abs_nonneg b) (by norm_num)
      _ = 1073741824 := by norm_num
  | div =>
    have hb : b ≠ 0 := by
      rintro rfl
      cases he
    obtain rfl := Option.some.inj ((if_neg hb).symm.trans he)
    simp only [ArithmeticOperation.mergeBytes, NothingLost, hholder, if_neg hb, if_neg ht]
    exact h.gives_divided_iff ht hb
  | min =>
    obtain rfl := Option.some.inj he
    have hmin : t.format.Holds (min (t.format.wrap a) b) := by
      rcases min_choice (t.format.wrap a) b with heq | heq <;> rw [heq]
      · exact t.format.holds_wrap a
      · exact h.second
    simp only [ArithmeticOperation.mergeBytes, NothingLost, hholder, gives_value_of_holds hmin,
      h.min_emod_iff, ht, Bool.false_eq_true, false_or]
  | max =>
    obtain rfl := Option.some.inj he
    have hmax : t.format.Holds (max (t.format.wrap a) b) := by
      rcases max_choice (t.format.wrap a) b with heq | heq <;> rw [heq]
      · exact t.format.holds_wrap a
      · exact h.second
    simp only [ArithmeticOperation.mergeBytes, NothingLost, hholder, gives_value_of_holds hmax,
      h.max_emod_iff, ht, Bool.false_eq_true, not_false_eq_true, true_and]
  | pow =>
    have hwidth : 8 ≤ t.format.width ∧ (t.format.width ≤ 32 ∨ t.format.width = 64) := by
      cases t <;> first | exact absurd rfl ht | decide
    obtain ⟨p, hp, hmod⟩ := h.power_congr (by omega) he
    have hzero : ¬(b = 0 ∧ t.format.wrap a = 0) := by
      rintro ⟨hb, hx0⟩
      rw [hx0, power, if_pos ⟨rfl, hb.le⟩] at hp
      cases hp
    have hbool : t ≠ .bool := by
      rintro rfl
      exact ht rfl
    simp only [ArithmeticOperation.mergeBytes, NothingLost, hholder, hzero, if_false, hbool, false_or,
      if_neg ht]
    constructor
    · rintro ⟨v, hv, hvalue⟩
      have hgives := (gives_value_of_holds (holds_of_converted hv)).mp (gives_value.mpr hvalue)
      exact powerFits_of_converted hpow hwidth.2 hp hv (.inl ⟨hgives.trans hmod.symm, by omega⟩)
    · intro hfits
      rw [converted_of_powerFits hpow (by omega) hp hfits, gives_value_of_holds (hfits.1 p hp).1]
      exact hmod

/-! ### Less than a byte -/

/-- The formats by their signedness. -/
theorem lower_of_signed (hs : t.isSigned) : 2 * t.format.lower = -2 ^ t.format.width := by
  have hlower : t.format.lower = -2 ^ (t.format.width - 1) := if_pos hs
  rw [hlower, t.format.two_pow_width]
  ring

theorem lower_of_unsigned (hs : ¬t.isSigned) : t.format.lower = 0 := if_neg hs

/-- The types of two and four bits, which are computed in a `char`. -/
theorem Ranged.subByte (h : Ranged t a b) (ht : t.isSubByte) (hbool : t ≠ .bool) :
    t.holder.wrap a = a ∧ |a| ≤ 15 ∧ |b| ≤ 15 ∧ 2 ≤ t.format.width ∧ t.format.width ≤ 4 := by
  have hfirst := h.first
  have hb := IntegerType.holds_iff.mp h.second
  have ha : t.bounds.1 ≤ a ∧ a < 16 := by
    cases t <;> first
      | exact absurd ht (by decide)
      | simp only [IntFormat.lower, IntegerType.format, IntegerType.isSigned,
          IntegerType.getValueNumBits, IntegerType.bounds, if_true, Bool.false_eq_true,
          if_false] at hfirst ⊢
        omega
  have hheld : t.holder.Holds a := by
    cases t <;> first
      | exact absurd ht (by decide)
      | exact absurd rfl hbool
      | simp only [IntFormat.Holds, IntFormat.lower, IntFormat.upper, IntegerType.holder,
          IntegerType.bounds, if_true, Bool.false_eq_true, if_false] at ha ⊢
        omega
  rw [IntFormat.wrap_of_holds hheld, abs_le, abs_le]
  cases t <;> first
    | exact absurd ht (by decide)
    | exact absurd rfl hbool
    | simp only [IntegerType.bounds] at ha hb
      exact ⟨rfl, by omega, by omega, by decide, by decide⟩

theorem char_holds_of_abs_le {v : ℤ} (h : |v| ≤ 30) : IntegerType.int8.holder.Holds v := by
  rw [abs_le] at h
  rw [holder_eq_of_not_subByte (by decide), IntegerType.holds_iff]
  simp only [IntegerType.bounds]
  omega

theorem holder_holds_of_abs_le {v : ℤ} (hbool : t ≠ .bool) (h : |v| ≤ 30)
    (hv : ¬t.isSigned → 0 ≤ v) : t.holder.Holds v := by
  rw [abs_le] at h
  cases t <;> first
    | exact absurd rfl hbool
    | simp only [IntFormat.Holds, IntFormat.lower, IntFormat.upper, IntegerType.holder,
        IntegerType.isSigned, if_true, Bool.false_eq_true, if_false, not_false_eq_true,
        true_implies] at hv ⊢
      omega

theorem gives_map_iff {result : Outcome ℤ} {f : ℤ → ℤ} {e : ℤ} :
    Gives t (result.map f) e ↔
      ∃ v, result = .value v ∧ (GenericInteger.ofInt t (f v)).value = t.format.wrap e := by
  cases result with
  | refused => exact iff_of_false not_gives_refused nofun
  | undefined => exact iff_of_false not_gives_undefined nofun
  | value v =>
    refine gives_value.trans ⟨fun h ↦ ⟨v, rfl, h⟩, ?_⟩
    rintro ⟨v', h, hvalue⟩
    cases h
    exact hvalue

/-- One step of reduction is enough for a sum. -/
theorem Ranged.gives_add (h : Ranged t a b) :
    Gives t (.value (if t.isSigned ∧ a + b < t.format.lower then a + b + 2 ^ t.format.width
      else if t.format.upper ≤ a + b then a + b - 2 ^ t.format.width else a + b)) (a + b) := by
  have hfirst := h.first
  have hsecond := h.second
  have hupper := t.format.upper_eq
  have hlower := t.format.lower_nonpos
  rw [IntFormat.Holds] at hsecond
  refine (gives_value_of_holds ?_).mpr ?_
  · rw [IntFormat.Holds]
    split_ifs with h₁ h₂
    · have hsigned := lower_of_signed h₁.1
      omega
    · omega
    · refine ⟨?_, not_le.mp h₂⟩
      by_cases hs : t.isSigned
      · exact not_lt.mp fun hlt ↦ h₁ ⟨hs, hlt⟩
      · have hzero := lower_of_unsigned hs
        omega
  · split_ifs
    · rw [Int.add_emod_right]
    · rw [Int.sub_emod_right]
    · rfl

/-- One step of reduction is enough for a difference. -/
theorem Ranged.gives_sub (h : Ranged t a b) :
    Gives t (.value (if a - b < t.format.lower then a - b + 2 ^ t.format.width
      else if t.isSigned ∧ t.format.upper ≤ a - b then a - b - 2 ^ t.format.width
      else a - b)) (a - b) := by
  have hfirst := h.first
  have hsecond := h.second
  have hupper := t.format.upper_eq
  have hlower := t.format.lower_nonpos
  rw [IntFormat.Holds] at hsecond
  refine (gives_value_of_holds ?_).mpr ?_
  · rw [IntFormat.Holds]
    split_ifs with h₁ h₂
    · omega
    · have hsigned := lower_of_signed h₂.1
      omega
    · refine ⟨not_lt.mp h₁, ?_⟩
      by_cases hs : t.isSigned
      · exact not_le.mp fun hle ↦ h₂ ⟨hs, hle⟩
      · have hzero := lower_of_unsigned hs
        omega
  · split_ifs
    · rw [Int.add_emod_right]
    · rw [Int.sub_emod_right]
    · rfl

/-- The branches for two and four bits give the representative if nothing is lost. -/
theorem Ranged.gives_mergeSubByte_iff {powDouble : ℤ → ℤ → Option ℚ} (hpow : IsPow powDouble)
    {wraps : Bool} (h : Ranged t a b) (ht : t.isSubByte) (hbool : t ≠ .bool)
    {op : ArithmeticOperation} {e : ℤ} (he : exactResult op a b = some e) :
    Gives t (op.mergeSubByte powDouble t (t.holder.wrap a) b) e ↔ NothingLost wraps t op a b := by
  obtain ⟨hwrap, ha, hb, htwo, hfour⟩ := h.subByte ht hbool
  have hno (v : ℤ) : NoOverflow wraps t v := by
    cases t <;> trivial
  have hsecond := h.second
  have hlower := t.format.lower_nonpos
  have hnonneg : ¬t.isSigned → 0 ≤ a ∧ 0 ≤ b := by
    intro hs
    have hzero := lower_of_unsigned hs
    exact ⟨hzero ▸ h.first.1, hzero ▸ hsecond.1⟩
  rw [hwrap]
  cases op with
  | add =>
    obtain rfl := Option.some.inj he
    have htemp := IntFormat.wrap_of_holds (char_holds_of_abs_le (v := a + b)
      ((abs_add_le a b).trans (by omega)))
    simp only [ArithmeticOperation.mergeSubByte, NothingLost, htemp]
    exact iff_of_true h.gives_add (hno _)
  | sub =>
    obtain rfl := Option.some.inj he
    have htemp := IntFormat.wrap_of_holds (char_holds_of_abs_le (v := a - b)
      ((abs_sub a b).trans (by omega)))
    simp only [ArithmeticOperation.mergeSubByte, NothingLost, htemp]
    exact iff_of_true h.gives_sub (hno _)
  | mult | innerProduct =>
    obtain rfl := Option.some.inj he
    have hdvd : (2 ^ t.format.width : ℤ) ∣ 2 ^ 8 := pow_dvd_pow 2 (by omega)
    have htemp : IntegerType.int8.holder.wrap (a * b) % 2 ^ t.format.width =
        a * b % 2 ^ t.format.width := by
      have hmod : IntegerType.int8.holder.wrap (a * b) % 2 ^ 8 = a * b % 2 ^ 8 :=
        IntegerType.int8.holder.wrap_emod (a * b)
      rw [← Int.emod_emod_of_dvd _ hdvd, hmod, Int.emod_emod_of_dvd _ hdvd]
    simp only [ArithmeticOperation.mergeSubByte, NothingLost, lowered_raised,
      IntFormat.wrap_congr htemp]
    exact iff_of_true (gives_value.mpr (ofInt_wrap t _)) (hno _)
  | div =>
    have hb0 : b ≠ 0 := by
      rintro rfl
      cases he
    obtain rfl := Option.some.inj ((if_neg hb0).symm.trans he)
    have hquotient : |a.tdiv b| ≤ 30 := by
      have hle := Int.natAbs_tdiv_le_natAbs a b
      rw [Int.abs_eq_natAbs] at ha ⊢
      omega
    simp only [ArithmeticOperation.mergeSubByte, NothingLost, if_neg hb0, if_pos ht]
    exact gives_value_self_iff (holder_holds_of_abs_le hbool hquotient fun hs ↦
      Int.tdiv_nonneg (hnonneg hs).1 (hnonneg hs).2)
  | min =>
    obtain rfl := Option.some.inj he
    have hmin : t.format.Holds (min a b) :=
      ⟨le_min h.first.1 hsecond.1, (min_le_right a b).trans_lt hsecond.2⟩
    simp only [ArithmeticOperation.mergeSubByte, NothingLost]
    exact iff_of_true ((gives_value_of_holds hmin).mpr rfl) (.inl ht)
  | max =>
    obtain rfl := Option.some.inj he
    have hmax : |max a b| ≤ 30 := by
      rcases max_choice a b with heq | heq <;> rw [heq] <;> omega
    have hheld : t.format.Holds (max a b) ↔ t.format.Holds a := by
      refine ⟨fun hm ↦ ⟨h.first.1, (le_max_left a b).trans_lt hm.2⟩, fun hm ↦ ?_⟩
      exact ⟨hm.1.trans (le_max_left a b), max_lt hm.2 hsecond.2⟩
    simp only [ArithmeticOperation.mergeSubByte, NothingLost, ht, not_true_eq_false, false_and,
      or_false]
    rw [← hheld]
    exact gives_value_self_iff (holder_holds_of_abs_le hbool hmax fun hs ↦
      (hnonneg hs).1.trans (le_max_left a b))
  | pow =>
    have hzero : ¬(b = 0 ∧ a = 0) := by
      rintro ⟨rfl, rfl⟩
      cases he
    simp only [ArithmeticOperation.mergeSubByte, NothingLost, hzero, if_false, hbool, false_or,
      if_pos ht, hwrap, lowered_raised]
    rw [gives_map_iff]
    constructor
    · rintro ⟨v, hv, -⟩
      exact powerFits_of_converted hpow (.inl (by decide)) he hv (.inr ⟨by decide, by omega⟩)
    · intro hfits
      exact ⟨e, converted_of_powerFits hpow (by decide) he hfits, ofInt_wrap t e⟩

/-- The branch for `BOOL` always gives the representative. -/
theorem gives_mergeBool (h : Ranged .bool a b) {op : ArithmeticOperation} {e : ℤ}
    (he : exactResult op a b = some e) : Gives .bool (op.mergeBool a b) e := by
  have ha := h.first
  have hb := IntegerType.holds_iff.mp h.second
  simp only [IntFormat.lower, IntegerType.format, IntegerType.isSigned, Bool.false_eq_true,
    if_false, IntegerType.getValueNumBits] at ha
  simp only [IntegerType.bounds] at hb
  obtain rfl | rfl : a = 0 ∨ a = 1 := by omega
  all_goals
    obtain rfl | rfl : b = 0 ∨ b = 1 := by omega
    all_goals
      cases op <;> first
        | exact (Option.some_ne_none e he.symm).elim
        | cases he
          exact ⟨_, rfl, by decide⟩

theorem nothingLost_bool (h : Ranged .bool a b) (wraps : Bool) {op : ArithmeticOperation} {e : ℤ}
    (he : exactResult op a b = some e) : NothingLost wraps .bool op a b := by
  have ha : IntegerType.bool.format.Holds a := h.first
  cases op with
  | add | sub | mult | innerProduct => trivial
  | div =>
    have hb := IntegerType.holds_iff.mp h.second
    simp only [IntegerType.bounds] at hb
    obtain rfl | rfl : b = 0 ∨ b = 1 := by omega
    · cases he
    · rw [NothingLost, Int.tdiv_one]
      exact ha
  | min => exact .inl rfl
  | max => exact .inl ha
  | pow => exact .inl rfl

/-- Every branch gives the representative if nothing is lost. -/
theorem Ranged.gives_mergeValues_iff {powDouble : ℤ → ℤ → Option ℚ} (hpow : IsPow powDouble)
    {wraps : Bool} (h : Ranged t a b) (hslice : t ≠ .slice) {op : ArithmeticOperation} {e : ℤ}
    (he : exactResult op a b = some e) :
    Gives t (op.mergeValues powDouble wraps t (t.holder.wrap a) b) e ↔
      NothingLost wraps t op a b := by
  by_cases hbool : t = .bool
  · subst hbool
    have hwrap : IntegerType.bool.holder.wrap a = a := IntFormat.wrap_of_holds h.first
    rw [hwrap]
    exact iff_of_true (gives_mergeBool h he) (nothingLost_bool h wraps he)
  by_cases ht : t.isSubByte
  · rw [← h.gives_mergeSubByte_iff hpow ht hbool he]
    cases t <;> first | exact Iff.rfl | exact absurd rfl hbool | exact absurd ht (by decide)
  · rw [← h.gives_mergeBytes_iff hpow ht hslice he]
    cases t <;> first | exact Iff.rfl | exact absurd rfl ht

end

/-! ### Both operands -/

open ArithmeticOperation (outputType readOperands)

/-- The result has the larger width and the signedness of the second operand. -/
theorem outputType_spec (one two : IntegerType) :
    (outputType one two).getValueNumBits = max one.getValueNumBits two.getValueNumBits ∧
      (outputType one two).isSigned = two.isSigned ∧ outputType one two ≠ .slice := by
  cases one <;> cases two <;> decide

/-- The operands are in the range that the branches are for. -/
theorem ranged_of_inRange {one two : GenericInteger} (hone : one.InRange) (htwo : two.InRange)
    (hsign : one.type.isSigned → two.type.isSigned) :
    Ranged (outputType one.type two.type) one.value two.value := by
  obtain ⟨hbits, hsigned, -⟩ := outputType_spec one.type two.type
  have hwidth : (outputType one.type two.type).format.width =
      max one.type.getValueNumBits two.type.getValueNumBits := hbits
  have hone' : one.type.format.width ≤ (outputType one.type two.type).format.width := by
    rw [hwidth]
    exact le_max_left _ _
  refine ⟨⟨?_, ?_⟩, IntFormat.Holds.mono htwo hsigned.symm ?_⟩
  · by_cases hs : one.type.isSigned
    · exact (IntFormat.Holds.mono hone (by
        change one.type.isSigned = (outputType one.type two.type).isSigned
        rw [hsigned, hs, hsign hs]) hone').1
    · have hlower := lower_of_unsigned hs
      exact (IntFormat.lower_nonpos _).trans (hlower ▸ hone.1)
  · have hpow : (2 : ℤ) ^ one.type.format.width ≤
        2 ^ (outputType one.type two.type).format.width :=
      pow_le_pow_right₀ (by norm_num) hone'
    have habs := IntFormat.abs_lt_of_holds hone
    exact (le_abs_self _).trans_lt (habs.trans_le hpow)
  · rw [hwidth]
    exact le_max_right _ _

/-- `GetUnsignedIntegerValue` refuses `SLICE` and negative numbers. -/
theorem getUnsignedIntegerValue_eq {n : GenericInteger} (hn : n.InRange) :
    n.getUnsignedIntegerValue =
      if n.type ≠ .slice ∧ 0 ≤ n.value then some n.value else none := by
  rw [GenericInteger.getUnsignedIntegerValue]
  by_cases hs : n.type.isSigned
  · have hslice : n.type ≠ .slice := by
      intro h
      rw [h] at hs
      cases hs
    by_cases hneg : n.value < 0
    · rw [if_pos hs, if_pos hneg, if_neg fun h ↦ absurd h.2 (not_le.mpr hneg)]
    · rw [if_pos hs, if_neg hneg, if_pos ⟨hslice, not_lt.mp hneg⟩]
  · have hnonneg : 0 ≤ n.value := lower_of_unsigned hs ▸ hn.1
    by_cases hslice : n.type = .slice
    · rw [if_neg hs, if_pos hslice, if_neg fun h ↦ h.1 hslice]
    · rw [if_neg hs, if_neg hslice, if_pos ⟨hslice, hnonneg⟩]

/-- The operands are read unless one of them is a `SLICE`, or the first one is negative and the
result is an `INT64`. -/
theorem readOperands_eq {one two : GenericInteger} (hone : one.InRange) (htwo : two.InRange)
    (hsign : one.type.isSigned → two.type.isSigned) :
    readOperands (outputType one.type two.type) one two =
      if (one.type ≠ .slice ∧ two.type ≠ .slice) ∧
          (outputType one.type two.type = .int64 → 0 ≤ one.value) then
        some ((outputType one.type two.type).holder.wrap one.value, two.value)
      else none := by
  obtain ⟨hbits, hsigned, hnot⟩ := outputType_spec one.type two.type
  have hranged := ranged_of_inRange hone htwo hsign
  generalize outputType one.type two.type = t at *
  by_cases hint : t = .int64
  · subst hint
    have hs : two.type.isSigned := hsigned.symm
    have htwoSlice : two.type ≠ .slice := by
      intro h
      rw [h] at hs
      cases hs
    have hsigned₂ : two.getSignedIntegerValue = some two.value := by
      apply GenericInteger.getSignedIntegerValue_of_not
      intro hwide
      cases h : two.type <;> rw [h] at hs hwide <;>
        first | exact absurd hs (by decide) | exact absurd hwide (by decide)
    simp only [readOperands, hsigned₂, getUnsignedIntegerValue_eq hone, Option.bind_eq_bind,
      Option.bind_some]
    by_cases hread : one.type ≠ .slice ∧ 0 ≤ one.value
    · rw [if_pos hread, if_pos ⟨⟨hread.1, htwoSlice⟩, fun _ ↦ hread.2⟩, Option.bind_some]
    · rw [if_neg hread, if_neg fun h ↦ hread ⟨h.1.1, h.2 trivial⟩, Option.bind_none]
  by_cases huint : t = .uint64
  · subst huint
    have hwrap : IntegerType.uint64.holder.wrap one.value = one.value :=
      IntFormat.wrap_of_holds ⟨hranged.first.1, hranged.first.2⟩
    have hone0 : 0 ≤ one.value := hranged.first.1
    have htwo0 : 0 ≤ two.value := hranged.second.1
    simp only [readOperands, getUnsignedIntegerValue_eq hone, getUnsignedIntegerValue_eq htwo,
      hone0, htwo0, hwrap, and_true, Option.bind_eq_bind, reduceCtorEq, false_implies]
    by_cases honeSlice : one.type ≠ .slice
    · by_cases htwoSlice : two.type ≠ .slice
      · rw [if_pos honeSlice, if_pos htwoSlice, if_pos ⟨honeSlice, htwoSlice⟩, Option.bind_some,
          Option.bind_some]
      · rw [if_pos honeSlice, if_neg htwoSlice, if_neg fun h ↦ htwoSlice h.2, Option.bind_some,
          Option.bind_none]
    · rw [if_neg honeSlice, Option.bind_none, if_neg fun h ↦ honeSlice h.1]
  · have hnarrow : t.getValueNumBits < 64 := by
      cases t <;> first
        | decide
        | exact absurd rfl hint
        | exact absurd rfl huint
        | exact absurd rfl hnot
    have hslice {s : IntegerType} (hle : s.getValueNumBits ≤ t.getValueNumBits) : s ≠ .slice := by
      rintro rfl
      exact absurd (hle.trans_lt hnarrow) (by decide)
    have hfirst : (GenericInteger.ofInt t one.value).value = t.holder.wrap one.value := by
      by_cases hbool : t = .bool
      · subst hbool
        have hheld : IntegerType.bool.holder.Holds one.value :=
          ⟨hranged.first.1, hranged.first.2⟩
        rw [GenericInteger.ofInt_value hheld, IntFormat.wrap_of_holds hheld]
      · exact GenericInteger.ofInt_value_of_ne hbool _
    have hsecond : (GenericInteger.ofInt t two.value).value = two.value :=
      GenericInteger.ofInt_value (IntegerType.holder_holds hranged.second)
    have hread : readOperands t one two = some ((GenericInteger.ofInt t one.value).value,
        (GenericInteger.ofInt t two.value).value) := by
      cases t <;> first | rfl | exact absurd rfl hint | exact absurd rfl huint
    rw [hread, hfirst, hsecond,
      if_pos ⟨⟨hslice (by omega), hslice (by omega)⟩, fun h ↦ absurd h hint⟩]

section

variable {powDouble : ℤ → ℤ → Option ℚ} {wraps : Bool} {op : ArithmeticOperation}
  {one two : GenericInteger}

/-- The result has the output type. -/
theorem type_of_mergeValuesViaOperator {result : GenericInteger}
    (h : op.mergeValuesViaOperator powDouble wraps one two = .value result) :
    result.type = outputType one.type two.type := by
  rw [ArithmeticOperation.mergeValuesViaOperator] at h
  split at h
  case h_1 => cases h
  case h_2 valueOne valueTwo _ =>
    cases hmerge : op.mergeValues powDouble wraps (outputType one.type two.type) valueOne valueTwo
    all_goals
      rw [hmerge] at h
      cases h
    rfl

/-- For operands that are read, the convention is about the result of the branch. -/
theorem conventional_iff_gives {valueOne valueTwo e : ℤ}
    (hsign : one.type.isSigned → two.type.isSigned)
    (hread : readOperands (outputType one.type two.type) one two = some (valueOne, valueTwo)) :
    (∃ result, op.mergeValuesViaOperator powDouble wraps one two = .value result ∧
        Conventional one two e result) ↔
      Gives (outputType one.type two.type)
        (op.mergeValues powDouble wraps (outputType one.type two.type) valueOne valueTwo) e := by
  obtain ⟨hbits, hsigned, -⟩ := outputType_spec one.type two.type
  have hmerge : op.mergeValuesViaOperator powDouble wraps one two =
      (op.mergeValues powDouble wraps (outputType one.type two.type) valueOne valueTwo).map
        (GenericInteger.ofInt (outputType one.type two.type)) := by
    simp only [ArithmeticOperation.mergeValuesViaOperator, hread]
  constructor
  · rintro ⟨result, hresult, hconv⟩
    have htype := type_of_mergeValuesViaOperator hresult
    have hvalue := hconv.value
    rw [htype] at hvalue
    rw [hmerge] at hresult
    cases hv : op.mergeValues powDouble wraps (outputType one.type two.type) valueOne valueTwo
    all_goals
      rw [hv] at hresult
      cases hresult
    exact ⟨_, rfl, hvalue⟩
  · rintro ⟨u, hu, hvalue⟩
    refine ⟨.ofInt (outputType one.type two.type) u, by rw [hmerge, hu]; rfl, hbits, ?_, hvalue⟩
    rw [GenericInteger.ofInt_type, hsigned]
    cases hs : one.type.isSigned
    · rfl
    · rw [hsign hs]
      rfl

end

/-- The operations follow the convention where the operands are read and nothing is lost. -/
theorem arithmetic_convention_iff {powDouble : ℤ → ℤ → Option ℚ} (hpow : IsPow powDouble)
    (wraps : Bool) (op : ArithmeticOperation) (one two : Operand) :
    (∀ e, exactResult op one.val.value two.val.value = some e →
      ∃ result, op.mergeValuesViaOperator powDouble wraps one.val two.val = .value result ∧
        Conventional one.val two.val e result) ↔
      exactResult op one.val.value two.val.value = none ∨
        Readable one.val two.val ∧
          NothingLost wraps (outputType one.val.type two.val.type) op one.val.value
            two.val.value := by
  obtain ⟨one, hone⟩ := one
  obtain ⟨two, htwo⟩ := two
  obtain ⟨hbits, hsigned, hslice⟩ := outputType_spec one.type two.type
  cases he : exactResult op one.value two.value with
  | none => exact iff_of_true nofun (.inl rfl)
  | some e =>
    simp only [Option.some.injEq, forall_eq', reduceCtorEq, false_or]
    by_cases hsign : one.type.isSigned → two.type.isSigned
    case neg =>
      -- The type of the result is unsigned although the first operand is signed.
      obtain ⟨hs₁, hs₂⟩ := Classical.not_imp.mp hsign
      refine iff_of_false ?_ fun h ↦ hsign h.1.sign
      rintro ⟨result, hresult, hconv⟩
      have hwrong := hconv.sign
      rw [type_of_mergeValuesViaOperator hresult, hsigned, hs₁, Bool.true_or] at hwrong
      exact hs₂ hwrong
    have hranged := ranged_of_inRange hone htwo hsign
    have hint : outputType one.type two.type = .int64 ↔
        max one.type.getValueNumBits two.type.getValueNumBits = 64 ∧ two.type.isSigned := by
      rw [← hbits, ← hsigned]
      cases outputType one.type two.type <;> decide
    have hread : ((one.type ≠ .slice ∧ two.type ≠ .slice) ∧
        (outputType one.type two.type = .int64 → 0 ≤ one.value)) ↔ Readable one two := by
      rw [hint]
      exact ⟨fun h ↦ ⟨hsign, h.1, fun hb hs ↦ h.2 ⟨hb, hs⟩⟩,
        fun h ↦ ⟨h.slice, fun hb ↦ h.nonneg hb.1 hb.2⟩⟩
    have hoperands := readOperands_eq hone htwo hsign
    by_cases hreadable : Readable one two
    · rw [if_pos (hread.mpr hreadable)] at hoperands
      rw [conventional_iff_gives hsign hoperands, hranged.gives_mergeValues_iff hpow hslice he]
      exact (and_iff_right hreadable).symm
    · rw [if_neg (mt hread.mp hreadable)] at hoperands
      refine iff_of_false ?_ fun h ↦ hreadable h.1
      rintro ⟨result, hresult, -⟩
      simp only [ArithmeticOperation.mergeValuesViaOperator, hoperands] at hresult
      cases hresult

/-- Powers of integers as a library computes them that rounds towards zero. -/
def roundedPow (x y : ℤ) : Option ℚ :=
  if x = 0 then if 0 < y then some 0 else none
  else if x = 1 then some 1
  else if x = -1 then some (if 2 ^ 53 < |y| ∨ Even y then 1 else -1)
  else if y < 0 then some (x ^ y)
  else
    let p := x ^ y.natAbs
    if 2 ^ 64 ≤ |p| then none
    else if ∃ k < 12, (2 ^ k : ℤ) ∣ p ∧ |p| < 2 ^ (53 + k) then some p
    else some ((p.sign * (|p| / 2 ^ 11 * 2 ^ 11) : ℤ) : ℚ)

theorem isDouble_iff {p : ℤ} (hp : |p| < 2 ^ 64) :
    IsDouble p ↔ ∃ k < 12, (2 ^ k : ℤ) ∣ p ∧ |p| < 2 ^ (53 + k) := by
  refine ⟨fun ⟨k, hdvd, hlt⟩ ↦ ?_, fun ⟨k, _, hdvd, hlt⟩ ↦ ⟨k, hdvd, hlt⟩⟩
  by_cases hk : k < 12
  · exact ⟨k, hk, hdvd, hlt⟩
  · exact ⟨11, by omega, (pow_dvd_pow 2 (by omega)).trans hdvd, hp⟩

theorem roundedPow_of_two_le {x y : ℤ} (hx : 2 ≤ |x|) (hy : 0 ≤ y) :
    roundedPow x y =
      if 2 ^ 64 ≤ |x ^ y.natAbs| then none
      else if ∃ k < 12, (2 ^ k : ℤ) ∣ x ^ y.natAbs ∧ |x ^ y.natAbs| < 2 ^ (53 + k) then
        some ((x ^ y.natAbs : ℤ) : ℚ)
      else some (((x ^ y.natAbs).sign * (|x ^ y.natAbs| / 2 ^ 11 * 2 ^ 11) : ℤ) : ℚ) := by
  have hunit : x ≠ 0 ∧ x ≠ 1 ∧ x ≠ -1 := by
    rcases abs_cases x with ⟨h, _⟩ | ⟨h, _⟩ <;> omega
  simp only [roundedPow, hunit, if_false, not_lt.mpr hy]

theorem isPow_roundedPow : IsPow roundedPow where
  zero y hy := by rw [roundedPow, if_pos rfl, if_pos hy]
  one y := rfl
  minusOne y := rfl
  representable x y hx hy hlt hdouble := by
    rw [roundedPow_of_two_le hx hy, if_neg (not_le.mpr hlt), if_pos ((isDouble_iff hlt).mp hdouble)]
  rounded x y hx hy hlt hdouble := by
    rw [roundedPow_of_two_le hx hy, if_neg (not_le.mpr hlt),
      if_neg (mt (isDouble_iff hlt).mpr hdouble)]
    generalize x ^ y.natAbs = p at *
    have hlarge : 2 ^ 53 ≤ |p| := by
      by_contra hsmall
      exact hdouble (isDouble_of_abs_lt (not_le.mp hsmall))
    have hpos : 2 ^ 53 ≤ |p| / 2 ^ 11 * 2 ^ 11 := by omega
    have habs : |p.sign * (|p| / 2 ^ 11 * 2 ^ 11)| = |p| / 2 ^ 11 * 2 ^ 11 := by
      have hp : p ≠ 0 := by
        rintro rfl
        norm_num at hlarge
      rw [abs_mul, abs_of_pos (a := |p| / 2 ^ 11 * 2 ^ 11) (by omega)]
      rcases lt_or_gt_of_ne hp with h | h
      · rw [Int.sign_eq_neg_one_of_neg h, abs_neg, abs_one, one_mul]
      · rw [Int.sign_eq_one_of_pos h, abs_one, one_mul]
    refine ⟨_, rfl, ⟨11, ⟨p.sign * (|p| / 2 ^ 11), by ring⟩, ?_⟩, by rw [habs]; exact hpos, ?_⟩
    · rw [habs]
      omega
    · rw [mul_pos_iff_of_pos_right (by omega), Int.sign_pos_iff]
  large x y hx hy hle q hq := by
    rw [roundedPow_of_two_le hx hy, if_pos hle] at hq
    nomatch hq

/-- The `INT8` values 2 and 3 have the power 8. -/
theorem arithmetic_convention_pow :
    ∃ result, ArithmeticOperation.pow.mergeValuesViaOperator roundedPow false (.ofInt .int8 2)
        (.ofInt .int8 3) = .value result ∧
      Conventional (.ofInt .int8 2) (.ofInt .int8 3) 8 result := by
  refine (arithmetic_convention_iff isPow_roundedPow false .pow ⟨.ofInt .int8 2, by decide⟩
    ⟨.ofInt .int8 3, by decide⟩).mpr
      (.inr ⟨⟨by decide, by decide, by decide⟩, .inr ⟨?_, by decide⟩⟩) 8 rfl
  rintro p hp
  obtain rfl : 8 = p := Option.some.inj hp
  exact ⟨by decide, isDouble_of_abs_lt (by norm_num)⟩

/-- The sum of the `INT64` values -1 and -1 is refused. -/
theorem not_conventional_add_minusOne :
    ¬∀ e, exactResult .add (-1) (-1) = some e →
      ∃ result, ArithmeticOperation.add.mergeValuesViaOperator roundedPow true (.ofInt .int64 (-1))
          (.ofInt .int64 (-1)) = .value result ∧
        Conventional (.ofInt .int64 (-1)) (.ofInt .int64 (-1)) e result := by
  intro h
  obtain ⟨result, hresult, -⟩ := h (-2) rfl
  cases hresult

end Safrn.Generic
