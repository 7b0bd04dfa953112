import Safrn.Generic.DataType

/-!
# Comparison of generic values

Models `operator==`, `operator<` and what is derived from them (`Util/data_structures.cpp:331-586`)
and the comparison operations (`3153-3361`). Numbers are compared as numbers unless one of them is a
`SLICE`, which compares with nothing. A vector is below its equal, and the comparison operations
take a string's text from the first operand twice and refuse vectors and mixtures of `DOUBLE` with
integers, so the two agree and order their arguments on domains without any of these only.
-/

namespace Safrn.Generic

open Safrn.Base

/-! ### Reading two integers -/

/-- What the code reads from two integers: numbers of one machine type, or only that one of them
is negative and the other a `uint64_t`. -/
inductive Operands
  | unread
  | firstNegative
  | secondNegative
  | numbers (one two : ℤ)

namespace GenericInteger

/-- The ladder of types in front of each comparison of integers. -/
def operands (one two : GenericInteger) : Operands :=
  if one.type.isWide then
    if two.type.isWide then
      match one.getUnsignedIntegerValue, two.getUnsignedIntegerValue with
      | some valueOne, some valueTwo => .numbers valueOne valueTwo
      | _, _ => .unread
    else
      match one.getUnsignedIntegerValue, two.getSignedIntegerValue with
      | some valueOne, some valueTwo =>
        if valueTwo < 0 then .secondNegative
        else .numbers valueOne (IntegerType.uint64.holder.wrap valueTwo)
      | _, _ => .unread
  else if two.type.isWide then
    match one.getSignedIntegerValue, two.getUnsignedIntegerValue with
    | some valueOne, some valueTwo =>
      if valueOne < 0 then .firstNegative
      else .numbers (IntegerType.uint64.holder.wrap valueOne) valueTwo
    | _, _ => .unread
  else
    match one.getSignedIntegerValue, two.getSignedIntegerValue with
    | some valueOne, some valueTwo => .numbers valueOne valueTwo
    | _, _ => .unread

/-- `operator==` on integers. -/
def eq (self other : GenericInteger) : Bool :=
  match self.operands other with
  | .numbers selfValue otherValue => selfValue = otherValue
  | _ => false

/-- `operator<` on integers. -/
def lt (self other : GenericInteger) : Bool :=
  match self.operands other with
  | .numbers selfValue otherValue => selfValue < otherValue
  | .firstNegative => true
  | _ => false

theorem getUnsignedIntegerValue_of_isWide {n : GenericInteger} (hn : n.type.isWide)
    (hs : n.type ≠ .slice) : n.getUnsignedIntegerValue = some n.value := by
  have ht : n.type = .uint64 := by
    cases h : n.type <;> simp_all [IntegerType.isWide]
  rw [getUnsignedIntegerValue, ht]
  rfl

theorem getSignedIntegerValue_of_not {n : GenericInteger} (hn : ¬n.type.isWide) :
    n.getSignedIntegerValue = some n.value := by
  rw [getSignedIntegerValue, if_neg hn]

theorem getUnsignedIntegerValue_slice {n : GenericInteger} (hn : n.type = .slice) :
    n.getUnsignedIntegerValue = none := by
  rw [getUnsignedIntegerValue, hn]
  rfl

theorem isWide_slice {n : GenericInteger} (hn : n.type = .slice) : n.type.isWide := by
  rw [hn]
  rfl

/-- A number that is not read as `uint64_t` and is not negative is the same as `uint64_t`. -/
theorem wrap_of_not_isWide {n : GenericInteger} (hn : ¬n.type.isWide) (h0 : ¬n.value < 0) :
    IntegerType.uint64.holder.wrap n.value = n.value := by
  have hhi : n.value < n.type.holder.upper := n.held.2
  have hup : n.type.holder.upper ≤ 2 ^ 63 := by
    cases h : n.type <;> simp_all [IntegerType.isWide, IntegerType.holder, IntFormat.upper]
  refine IntFormat.wrap_of_holds ⟨not_lt.mp h0, ?_⟩
  have hbig : (2 : ℤ) ^ 63 < IntegerType.uint64.holder.upper := by decide
  omega

/-- A number that is read as `uint64_t` is not negative. -/
theorem nonneg_of_isWide {n : GenericInteger} (hn : n.type.isWide) : 0 ≤ n.value := by
  have hlo : n.type.holder.lower ≤ n.value := n.held.1
  have hz : n.type.holder.lower = 0 := by
    cases h : n.type <;> simp_all [IntegerType.isWide, IntegerType.holder, IntFormat.lower]
  omega

/-- Integers that are no `SLICE` are read as their numbers, or their signs tell them apart. -/
theorem operands_cases {one two : GenericInteger} (hone : one.type ≠ .slice)
    (htwo : two.type ≠ .slice) :
    one.operands two = .numbers one.value two.value ∨
    (one.operands two = .firstNegative ∧ one.value < 0 ∧ 0 ≤ two.value) ∨
    (one.operands two = .secondNegative ∧ two.value < 0 ∧ 0 ≤ one.value) := by
  by_cases h₁ : one.type.isWide
  · have hnn := nonneg_of_isWide h₁
    by_cases h₂ : two.type.isWide
    · left
      simp [operands, h₁, h₂, getUnsignedIntegerValue_of_isWide h₁ hone,
        getUnsignedIntegerValue_of_isWide h₂ htwo]
    · by_cases h0 : two.value < 0
      · right; right
        refine ⟨?_, h0, hnn⟩
        simp [operands, h₁, h₂, getUnsignedIntegerValue_of_isWide h₁ hone,
          getSignedIntegerValue_of_not h₂, h0]
      · left
        simp [operands, h₁, h₂, getUnsignedIntegerValue_of_isWide h₁ hone,
          getSignedIntegerValue_of_not h₂, h0, wrap_of_not_isWide h₂ h0]
  · by_cases h₂ : two.type.isWide
    · have hnn := nonneg_of_isWide h₂
      by_cases h0 : one.value < 0
      · right; left
        refine ⟨?_, h0, hnn⟩
        simp [operands, h₁, h₂, getUnsignedIntegerValue_of_isWide h₂ htwo,
          getSignedIntegerValue_of_not h₁, h0]
      · left
        simp [operands, h₁, h₂, getUnsignedIntegerValue_of_isWide h₂ htwo,
          getSignedIntegerValue_of_not h₁, h0, wrap_of_not_isWide h₁ h0]
    · left
      simp [operands, h₁, h₂, getSignedIntegerValue_of_not h₁, getSignedIntegerValue_of_not h₂]

/-- A `SLICE` is not read. -/
theorem operands_slice {one two : GenericInteger} (h : one.type = .slice ∨ two.type = .slice) :
    one.operands two = .unread := by
  rcases h with h | h
  · simp only [operands, isWide_slice h, if_true, getUnsignedIntegerValue_slice h, ite_self]
  · have hnone := getUnsignedIntegerValue_slice h
    unfold operands
    rw [isWide_slice h, hnone]
    simp only [if_true]
    split <;> split <;> first | rfl | simp_all

/-- Integers that are no `SLICE` are equal when their numbers are. -/
theorem eq_iff {self other : GenericInteger} (hs : self.type ≠ .slice)
    (ho : other.type ≠ .slice) : self.eq other = true ↔ self.value = other.value := by
  rw [eq]
  obtain h | ⟨h, h₁, h₂⟩ | ⟨h, h₁, h₂⟩ := operands_cases hs ho
  · rw [h, decide_eq_true_eq]
  · rw [h]
    simp only [Bool.false_eq_true, false_iff]
    omega
  · rw [h]
    simp only [Bool.false_eq_true, false_iff]
    omega

/-- Integers that are no `SLICE` are ordered as their numbers are. -/
theorem lt_iff {self other : GenericInteger} (hs : self.type ≠ .slice)
    (ho : other.type ≠ .slice) : self.lt other = true ↔ self.value < other.value := by
  rw [lt]
  obtain h | ⟨h, h₁, h₂⟩ | ⟨h, h₁, h₂⟩ := operands_cases hs ho
  · rw [h, decide_eq_true_eq]
  · rw [h]
    simp only [true_iff]
    omega
  · rw [h]
    simp only [Bool.false_eq_true, false_iff]
    omega

/-- A `SLICE` is not even equal to itself. -/
theorem eq_slice {self other : GenericInteger}
    (h : self.type = .slice ∨ other.type = .slice) : self.eq other = false := by
  rw [eq, operands_slice h]

end GenericInteger

/-! ### The operators -/

/-- The integer that a cast of a `double` keeps of it; what is out of range is left to the machine. -/
def truncate (t : IntegerType) (x : ℚ) : ℤ := t.holder.wrap (x.num.tdiv x.den)

/-- What an integer next to a `DOUBLE` is read as, with the type it is read in. -/
def GenericInteger.besideDouble (n : GenericInteger) : Option (IntegerType × ℤ) :=
  if n.type.isWide then n.getUnsignedIntegerValue.map (IntegerType.uint64, ·)
  else n.getSignedIntegerValue.map (IntegerType.int64, ·)

namespace GenericValue

mutual

/-- `operator==`. -/
def eq : GenericValue → GenericValue → Bool
  | string _ selfValue, string _ otherValue => selfValue = otherValue
  | vector selfCast, vector otherCast =>
    selfCast.length = otherCast.length && eqEach selfCast otherCast
  | double selfValue, double otherValue => selfValue = otherValue
  | double selfValue, integer other =>
    match other.besideDouble with
    | some (t, otherValue) => truncate t selfValue = otherValue && selfValue = otherValue
    | none => false
  | integer self, double otherValue =>
    match self.besideDouble with
    | some (t, selfValue) => truncate t otherValue = selfValue && otherValue = selfValue
    | none => false
  | integer self, integer other => self.eq other
  | _, _ => false

/-- The loop of `operator==` over two vectors of one length. -/
def eqEach : List GenericValue → List GenericValue → Bool
  | self :: selfCast, other :: otherCast => self.eq other && eqEach selfCast otherCast
  | _, _ => true

end

mutual

/-- `operator<`. -/
def lt : GenericValue → GenericValue → Bool
  | string _ selfValue, string _ otherValue => selfValue < otherValue
  | vector selfCast, vector otherCast =>
    if selfCast.length ≠ otherCast.length then selfCast.length < otherCast.length
    else ltEach selfCast otherCast
  | double selfValue, double otherValue => selfValue < otherValue
  | double selfValue, integer other =>
    match other.besideDouble with
    | some (_, otherValue) => selfValue < otherValue
    | none => false
  | integer self, double otherValue =>
    match self.besideDouble with
    | some (_, selfValue) => selfValue < otherValue
    | none => false
  | integer self, integer other => self.lt other
  | _, _ => false

/-- The loop of `operator<` over two vectors of one length, with its `return true` at the end. -/
def ltEach : List GenericValue → List GenericValue → Bool
  | self :: selfCast, other :: otherCast =>
    if self.eq other then ltEach selfCast otherCast else self.lt other
  | _, _ => true

end

/-- `operator<=`. -/
def le (self other : GenericValue) : Bool := self.eq other || self.lt other

/-- `operator>`. -/
def gt (self other : GenericValue) : Bool := !self.le other

/-- `operator>=`. -/
def ge (self other : GenericValue) : Bool := self.eq other || self.gt other

end GenericValue

/-! ### The comparison operations -/

/-- The operations on two terms that give a truth value. -/
inductive ComparisonOperation
  | unknown
  | compEq
  | compNeq
  | compGt
  | compGte
  | compLt
  | compLte
  deriving DecidableEq

namespace ComparisonOperation

/-- The ladder of operations on two values of one machine type. -/
def apply {α : Type} [DecidableEq α] [LT α] [LE α] [DecidableLT α] [DecidableLE α]
    (one two : α) : ComparisonOperation → Option Bool
  | unknown => none
  | compEq => some (one = two)
  | compNeq => some (one ≠ two)
  | compGt => some (two < one)
  | compGte => some (two ≤ one)
  | compLt => some (one < two)
  | compLte => some (one ≤ two)

/-- The operations on a negative integer and a `uint64_t`. -/
def applyFirstNegative : ComparisonOperation → Option Bool
  | unknown => none
  | compEq => some false
  | compNeq => some true
  | compGt => some false
  | compGte => some false
  | compLt => some true
  | compLte => some true

/-- The operations on a `uint64_t` and a negative integer. -/
def applySecondNegative : ComparisonOperation → Option Bool
  | unknown => none
  | compEq => some false
  | compNeq => some true
  | compGt => some true
  | compGte => some true
  | compLt => some false
  | compLte => some false

/-- The operations on two integers. -/
def applyIntegers (op : ComparisonOperation) (one two : GenericInteger) : Option Bool :=
  match one.operands two with
  | .unread => none
  | .firstNegative => op.applyFirstNegative
  | .secondNegative => op.applySecondNegative
  | .numbers valueOne valueTwo => op.apply valueOne valueTwo

/-- `MergeValuesViaOperator` for a comparison. Both texts are read from the first operand. -/
def mergeValuesViaOperator (op : ComparisonOperation) :
    GenericValue → GenericValue → Option GenericValue
  | .string _ valueOne, .string _ _ => (op.apply valueOne valueOne).map .bool
  | .double valueOne, .double valueTwo => (op.apply valueOne valueTwo).map .bool
  | .integer one, .integer two => (op.applyIntegers one two).map .bool
  | _, _ => none

/-- The operator that an operation is named after. -/
def operator (one two : GenericValue) : ComparisonOperation → Bool
  | unknown => false
  | compEq => one.eq two
  | compNeq => !one.eq two
  | compGt => one.gt two
  | compGte => one.ge two
  | compLt => one.lt two
  | compLte => one.le two

end ComparisonOperation

/-! ### When they are orders -/

namespace GenericValue

mutual

/-- Two values of kinds that the operators compare. -/
def Comparable : GenericValue → GenericValue → Prop
  | string _ _, string _ _ => True
  | vector selfCast, vector otherCast => ComparableEach selfCast otherCast
  | integer _, integer _ => True
  | integer _, double _ => True
  | double _, integer _ => True
  | double _, double _ => True
  | _, _ => False

/-- The entries of two vectors at the same positions are comparable. -/
def ComparableEach : List GenericValue → List GenericValue → Prop
  | self :: selfCast, other :: otherCast =>
    self.Comparable other ∧ ComparableEach selfCast otherCast
  | _, _ => True

end

/-- The number that a value stands for. -/
def number : GenericValue → ℚ
  | integer n => n.value
  | double x => x
  | _ => 0

/-- Vectors that are equal entry by entry pass through the loop of `operator<` to its end. -/
theorem ltEach_of_eqEach (xs ys : List GenericValue) (h : eqEach xs ys = true) :
    ltEach xs ys = true := by
  induction xs generalizing ys with
  | nil => rw [ltEach]; simp
  | cons x xs ih =>
    cases ys with
    | nil => rw [ltEach]; simp
    | cons y ys =>
      rw [eqEach, Bool.and_eq_true] at h
      rw [ltEach, if_pos h.1]
      exact ih ys h.2

/-- A vector is below each vector that it equals. -/
theorem lt_vector_of_eq {xs ys : List GenericValue} (h : (vector xs).eq (vector ys) = true) :
    (vector xs).lt (vector ys) = true := by
  rw [eq, Bool.and_eq_true, decide_eq_true_eq] at h
  rw [lt, if_neg (not_not.mpr h.1)]
  exact ltEach_of_eqEach xs ys h.2

end GenericValue

/-- On the domain `D`, `operator<` is a strict weak order with `operator==` as its equivalence, the
other operators are derived from it, and the comparison operations agree with them. -/
structure Lawful (D : Set GenericValue) : Prop where
  strictWeak : IsStrictWeakOrder D fun a b ↦ a.1.lt b.1 = true
  equivalence : ∀ a ∈ D, ∀ b ∈ D, a.eq b = true ↔ a.lt b = false ∧ b.lt a = false
  gt : ∀ a ∈ D, ∀ b ∈ D, a.gt b = b.lt a
  le : ∀ a ∈ D, ∀ b ∈ D, a.le b = !b.lt a
  ge : ∀ a ∈ D, ∀ b ∈ D, a.ge b = !a.lt b
  merge : ∀ op ≠ ComparisonOperation.unknown, ∀ a ∈ D, ∀ b ∈ D,
    op.mergeValuesViaOperator a b = some (.bool (op.operator a b))

/-- No vector, no `SLICE`, at most one text, and not both a `DOUBLE` and an integer. -/
structure Plain (D : Set GenericValue) : Prop where
  noVector : ∀ xs, GenericValue.vector xs ∉ D
  noSlice : ∀ n, GenericValue.integer n ∈ D → n.type ≠ .slice
  oneText : ∀ t a u b, GenericValue.string t a ∈ D → GenericValue.string u b ∈ D → a = b
  oneKind : ∀ n x, GenericValue.integer n ∈ D → GenericValue.double x ∉ D

variable {D : Set GenericValue}

/-- On a plain domain the operators compare numbers. -/
theorem Plain.eq_lt_iff (hp : Plain D) {a b : GenericValue} (ha : a ∈ D) (hb : b ∈ D)
    (hcmp : a.Comparable b) :
    (a.eq b = true ↔ a.number = b.number) ∧ (a.lt b = true ↔ a.number < b.number) := by
  cases a with
  | vector xs => exact absurd ha (hp.noVector xs)
  | string t x =>
    cases b with
    | string u y =>
      obtain rfl := hp.oneText t x u y ha hb
      simp [GenericValue.eq, GenericValue.lt, GenericValue.number]
    | _ => simp [GenericValue.Comparable] at hcmp
  | integer m =>
    cases b with
    | integer n =>
      have hm := hp.noSlice m ha
      have hn := hp.noSlice n hb
      simp [GenericValue.eq, GenericValue.lt, GenericValue.number, GenericInteger.eq_iff hm hn,
        GenericInteger.lt_iff hm hn]
    | double y => exact absurd hb (hp.oneKind m y ha)
    | _ => simp [GenericValue.Comparable] at hcmp
  | double x =>
    cases b with
    | double y => simp [GenericValue.eq, GenericValue.lt, GenericValue.number]
    | integer n => exact absurd ha (hp.oneKind n x hb)
    | _ => simp [GenericValue.Comparable] at hcmp

/-- The operations on two values of one machine type are the operators, where these compare them. -/
theorem ComparisonOperation.apply_eq_operator {α : Type} [LinearOrder α] {a b : GenericValue}
    {x y : α} (heq : a.eq b = true ↔ x = y) (hlt : a.lt b = true ↔ x < y)
    {op : ComparisonOperation} (hop : op ≠ .unknown) : op.apply x y = some (op.operator a b) := by
  have heq' : a.eq b = decide (x = y) := by rw [Bool.eq_iff_iff, heq, decide_eq_true_eq]
  have hlt' : a.lt b = decide (x < y) := by rw [Bool.eq_iff_iff, hlt, decide_eq_true_eq]
  have htri := lt_trichotomy x y
  cases op with
  | unknown => exact absurd rfl hop
  | compEq => rw [apply, operator, heq']
  | compNeq => simp [apply, operator, heq']
  | compGt =>
    rw [apply, operator, GenericValue.gt, GenericValue.le, heq', hlt']
    grind
  | compGte =>
    rw [apply, operator, GenericValue.ge, GenericValue.gt, GenericValue.le, heq', hlt']
    grind
  | compLt => rw [apply, operator, hlt']
  | compLte =>
    rw [apply, operator, GenericValue.le, heq', hlt']
    grind

/-- The operations on integers that are no `SLICE` are those on their numbers. -/
theorem ComparisonOperation.applyIntegers_eq {one two : GenericInteger} (hone : one.type ≠ .slice)
    (htwo : two.type ≠ .slice) (op : ComparisonOperation) :
    op.applyIntegers one two = op.apply one.value two.value := by
  rw [applyIntegers]
  obtain h | ⟨h, h₁, h₂⟩ | ⟨h, h₁, h₂⟩ := GenericInteger.operands_cases hone htwo
  · rw [h]
  · have hlt : one.value < two.value := by omega
    rw [h]
    cases op <;> simp [applyFirstNegative, apply, hlt, hlt.ne, hlt.le]
  · have hlt : two.value < one.value := by omega
    rw [h]
    cases op <;> simp [applySecondNegative, apply, hlt, hlt.ne', hlt.le]

/-- On a plain domain the comparison operations are the operators. -/
theorem Plain.merge (hp : Plain D) {a b : GenericValue} (ha : a ∈ D) (hb : b ∈ D)
    (hcmp : a.Comparable b) {op : ComparisonOperation} (hop : op ≠ .unknown) :
    op.mergeValuesViaOperator a b = some (.bool (op.operator a b)) := by
  obtain ⟨heq, hlt⟩ := hp.eq_lt_iff ha hb hcmp
  cases a with
  | vector xs => exact absurd ha (hp.noVector xs)
  | string t x =>
    cases b with
    | string u y =>
      obtain rfl := hp.oneText t x u y ha hb
      have hirrefl : ¬x < x := List.lt_irrefl x
      cases op with
      | unknown => exact absurd rfl hop
      | _ =>
        simp [hirrefl, ComparisonOperation.mergeValuesViaOperator, ComparisonOperation.apply,
          ComparisonOperation.operator, GenericValue.eq, GenericValue.lt, GenericValue.le,
          GenericValue.ge, GenericValue.gt]
    | _ => simp [GenericValue.Comparable] at hcmp
  | integer m =>
    cases b with
    | integer n =>
      have hm := hp.noSlice m ha
      have hn := hp.noSlice n hb
      simp only [GenericValue.number, Int.cast_inj, Int.cast_lt] at heq hlt
      rw [ComparisonOperation.mergeValuesViaOperator, ComparisonOperation.applyIntegers_eq hm hn,
        ComparisonOperation.apply_eq_operator heq hlt hop, Option.map_some]
    | double y => exact absurd hb (hp.oneKind m y ha)
    | _ => simp [GenericValue.Comparable] at hcmp
  | double x =>
    cases b with
    | double y =>
      rw [ComparisonOperation.mergeValuesViaOperator]
      have happly := ComparisonOperation.apply_eq_operator heq hlt hop
      simp only [GenericValue.number] at happly
      rw [happly, Option.map_some]
    | integer n => exact absurd ha (hp.oneKind n x hb)
    | _ => simp [GenericValue.Comparable] at hcmp

/-- On a plain domain of comparable values all laws hold. -/
theorem Plain.lawful (hp : Plain D) (hcmp : ∀ a ∈ D, ∀ b ∈ D, a.Comparable b) : Lawful D where
  strictWeak := by
    have hlt : (fun a b : D ↦ a.1.lt b.1 = true) =
        Order.Preimage (fun a : D ↦ a.1.number) (· < ·) := by
      funext a b
      exact propext (hp.eq_lt_iff a.2 b.2 (hcmp a a.2 b b.2)).2
    have hnumbers : IsStrictWeakOrder ℚ (· < ·) := isStrictWeakOrder_of_isOrderConnected
    rw [hlt]
    infer_instance
  equivalence a ha b hb := by
    rw [(hp.eq_lt_iff ha hb (hcmp a ha b hb)).1, ← Bool.not_eq_true, ← Bool.not_eq_true,
      (hp.eq_lt_iff ha hb (hcmp a ha b hb)).2, (hp.eq_lt_iff hb ha (hcmp b hb a ha)).2]
    exact ⟨fun h ↦ ⟨h.not_lt, h.not_gt⟩, fun h ↦ le_antisymm (not_lt.mp h.2) (not_lt.mp h.1)⟩
  gt a ha b hb := by
    rw [Bool.eq_iff_iff, GenericValue.gt, GenericValue.le, Bool.not_or, Bool.and_eq_true,
      Bool.not_eq_true', Bool.not_eq_true', ← Bool.not_eq_true, ← Bool.not_eq_true,
      (hp.eq_lt_iff ha hb (hcmp a ha b hb)).1, (hp.eq_lt_iff ha hb (hcmp a ha b hb)).2,
      (hp.eq_lt_iff hb ha (hcmp b hb a ha)).2]
    grind
  le a ha b hb := by
    rw [Bool.eq_iff_iff, GenericValue.le, Bool.or_eq_true, Bool.not_eq_true', ← Bool.not_eq_true,
      (hp.eq_lt_iff ha hb (hcmp a ha b hb)).1, (hp.eq_lt_iff ha hb (hcmp a ha b hb)).2,
      (hp.eq_lt_iff hb ha (hcmp b hb a ha)).2]
    grind
  ge a ha b hb := by
    rw [Bool.eq_iff_iff, GenericValue.ge, GenericValue.gt, GenericValue.le]
    have heq := (hp.eq_lt_iff ha hb (hcmp a ha b hb)).1
    have hlt := (hp.eq_lt_iff ha hb (hcmp a ha b hb)).2
    grind
  merge op hop a ha b hb := hp.merge ha hb (hcmp a ha b hb) hop

/-- A domain on which all laws hold is plain. -/
theorem Lawful.plain (hl : Lawful D) : Plain D where
  noVector xs hxs := by
    have hirrefl : (GenericValue.vector xs).lt (.vector xs) = false := by
      have hs := hl.strictWeak
      exact Bool.eq_false_iff.mpr fun h ↦ irrefl (r := fun a b : D ↦ a.1.lt b.1 = true)
        ⟨_, hxs⟩ h
    have heq := (hl.equivalence _ hxs _ hxs).mpr ⟨hirrefl, hirrefl⟩
    rw [GenericValue.lt_vector_of_eq heq] at hirrefl
    exact Bool.noConfusion hirrefl
  noSlice n hn hslice := by
    have hlt : (GenericValue.integer n).lt (.integer n) = false := by
      rw [GenericValue.lt, GenericInteger.lt, GenericInteger.operands_slice (.inl hslice)]
    have heq := (hl.equivalence _ hn _ hn).mpr ⟨hlt, hlt⟩
    rw [GenericValue.eq, GenericInteger.eq_slice (.inl hslice)] at heq
    exact Bool.noConfusion heq
  oneText t a u b ha hb := by
    have hm := hl.merge .compEq (by decide) _ ha _ hb
    simp only [ComparisonOperation.mergeValuesViaOperator, ComparisonOperation.apply,
      ComparisonOperation.operator, GenericValue.eq, Option.map_some, Option.some.injEq] at hm
    by_contra hne
    simp [hne] at hm
  oneKind n x hn hx := by
    have hm := hl.merge .compEq (by decide) _ hn _ hx
    simp [ComparisonOperation.mergeValuesViaOperator] at hm

/-- The laws hold on a domain of comparable values exactly if it is plain. -/
theorem lawful_iff_plain (D : Set GenericValue) (hcmp : ∀ a ∈ D, ∀ b ∈ D, a.Comparable b) :
    Lawful D ↔ Plain D :=
  ⟨Lawful.plain, fun hp ↦ hp.lawful hcmp⟩

/-- A negative `INT8` and a `UINT64` beyond the signed range. -/
def mixedSigns : Set GenericValue :=
  {.integer (.ofInt .int8 (-1)), .integer (.ofInt .uint64 (2 ^ 63))}

theorem lawful_mixedSigns : Lawful mixedSigns := by
  refine (lawful_iff_plain mixedSigns ?_).mpr ?_
  · rintro a (rfl | rfl) b (rfl | rfl) <;> trivial
  · refine ⟨?_, ?_, ?_, ?_⟩
    · rintro xs (h | h) <;> exact GenericValue.noConfusion h
    · rintro n (h | h) <;> cases h <;> decide
    · rintro t a u b (h | h) <;> exact GenericValue.noConfusion h
    · rintro n x - (h | h) <;> exact GenericValue.noConfusion h

/-- A vector is below itself. -/
theorem not_lawful_oneVector :
    ¬∀ D : Set GenericValue, (∀ a ∈ D, ∀ b ∈ D, a.Comparable b) → Lawful D := by
  intro h
  have hl : Lawful {.vector [.integer (.ofInt .int8 1)]} := by
    apply h
    rintro a rfl b rfl
    exact ⟨trivial, trivial⟩
  have hirrefl := hl.strictWeak.irrefl ⟨_, rfl⟩
  exact hirrefl (by decide)

end Safrn.Generic
