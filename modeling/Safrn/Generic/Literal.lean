import Mathlib.Data.List.Infix
import Safrn.Generic.DataType

/-!
# Integer literals

Models `ParseIfInteger` (`Util/data_structures.cpp:1879-2151`) on Linux, where `long` has 64 bits:
the bounds `LONG_MAX` and `ULONG_MAX` of the 32-bit types are those of the 64-bit types. A product of
signed numbers that does not fit is undefined; `wraps` says whether it is compiled to one that wraps
around. `erange` says whether `errno` is `ERANGE` already, which makes `Stoi` refuse `ULONG_MAX`.
-/

namespace Safrn.Generic

open Safrn.Base

/-- What a call can come to. -/
inductive Outcome (α : Type)
  | refused
  | undefined
  | value (a : α)

namespace Outcome

def map {α β : Type} (f : α → β) : Outcome α → Outcome β
  | refused => refused
  | undefined => undefined
  | value a => value (f a)

end Outcome

/-- The result of signed arithmetic in the type `t`. -/
def signedResult (wraps : Bool) (t : IntegerType) (v : ℤ) : Outcome ℤ :=
  if t.holder.Holds v then .value v
  else if wraps then .value (t.holder.wrap v)
  else .undefined

/-- The suffixes in the order in which they are looked for. -/
def suffixes : List (List Char × IntegerType) :=
  [("_BIT".toList, .bool), ("_BOOL".toList, .bool), ("_INT2".toList, .int2),
    ("_UINT2".toList, .uint2), ("_INT4".toList, .int4), ("_UINT4".toList, .uint4),
    ("_INT8".toList, .int8), ("_UINT8".toList, .uint8), ("_INT16".toList, .int16),
    ("_UINT16".toList, .uint16), ("_INT32".toList, .int32), ("_UINT32".toList, .uint32),
    ("_INT64".toList, .int64), ("_UINT64".toList, .uint64), ("_SLICE".toList, .slice)]

/-- `Stoi` to `uint64_t` on digits. -/
def stoi (erange : Bool) (digits : List Char) : Option ℕ :=
  let value := Nat.ofDigitChars 10 digits 0
  if 2 ^ 64 ≤ value ∨ value = 2 ^ 64 - 1 ∧ erange then none else some value

/-- The greatest number that is accepted with the suffix of a type. -/
def limit : IntegerType → ℕ
  | .bool => 1
  | .int2 => 1
  | .uint2 => 3
  | .int4 => 7
  | .uint4 => 15
  | .int8 => 2 ^ 7 - 1
  | .uint8 => 2 ^ 8 - 1
  | .int16 => 2 ^ 15 - 1
  | .uint16 => 2 ^ 16 - 1
  | .int32 => 2 ^ 63 - 1
  | .uint32 => 2 ^ 64 - 1
  | .int64 => 2 ^ 63 - 1
  | .uint64 => 2 ^ 64 - 1
  | .slice => 2 ^ 64 - 1

/-- A number cast to a signed type and multiplied by `-1`: the narrow types are promoted. -/
def negated (wraps : Bool) (t : IntegerType) (value : ℕ) : Outcome GenericInteger :=
  (signedResult wraps (if t = .int64 then .int64 else .int32) (-t.holder.wrap value)).map
    (GenericInteger.ofInt t)

/-- The value with a suffix. -/
def parseTyped (wraps isNegative : Bool) (t : IntegerType) (value : ℕ) : Outcome GenericInteger :=
  if limit t < value then .refused
  else if t = .int2 then .value (.ofInt .int2 (if value = 0 then 0 else -1))
  else if isNegative then negated wraps t value
  else .value (.ofInt t value)

/-- The value without a suffix, in the smallest type that it is taken to fit. -/
def parseUntyped (wraps isNegative : Bool) (value : ℕ) : Outcome GenericInteger :=
  if isNegative then
    if value = 0 ∨ value = 1 then .value (.ofInt .int2 (if value = 0 then 0 else -1))
    else if value ≤ 7 then negated wraps .int4 value
    else if value ≤ 2 ^ 7 - 1 then negated wraps .int8 value
    else if value ≤ 2 ^ 15 - 1 then negated wraps .int16 value
    else if value ≤ 2 ^ 63 - 1 then negated wraps .int32 value
    else negated wraps .int64 value
  else
    if value = 0 ∨ value = 1 then .value (.ofInt .bool (if value = 1 then 1 else 0))
    else if value = 2 ∨ value = 3 then .value (.ofInt .uint2 value)
    else if value ≤ 15 then .value (.ofInt .uint4 value)
    else if value ≤ 2 ^ 8 - 1 then .value (.ofInt .uint8 value)
    else if value ≤ 2 ^ 16 - 1 then .value (.ofInt .uint16 value)
    else if value ≤ 2 ^ 64 - 1 then .value (.ofInt .uint32 value)
    else .value (.ofInt .uint64 value)

/-- What is done with the text before the suffix. -/
def parseDigits (wraps erange isNegative : Bool) (type : Option IntegerType) (digits : List Char) :
    Outcome GenericInteger :=
  if ¬digits.all Char.isDigit then .refused
  else
    match stoi erange digits with
    | none => .refused
    | some value =>
      if isNegative ∧ 2 ^ 63 - 1 < value then .refused
      else
        match type with
        | some t => parseTyped wraps isNegative t value
        | none => parseUntyped wraps isNegative value

/-- `ParseIfInteger` behind the sign. -/
def parseIfUnsigned (wraps erange isNegative : Bool) (input : List Char) :
    Outcome GenericInteger :=
  match suffixes.find? fun s ↦ s.1.isSuffixOf input with
  | some (suffix, t) =>
    if isNegative ∧ ¬t.isSigned then .refused
    else parseDigits wraps erange isNegative (some t) (input.take (input.length - suffix.length))
  | none => parseDigits wraps erange isNegative none input

/-- `ParseIfInteger`. -/
def parseIfInteger (wraps erange : Bool) (input : List Char) : Outcome GenericInteger :=
  match input with
  | '-' :: input => parseIfUnsigned wraps erange true input
  | input => parseIfUnsigned wraps erange false input

/-! ### Numerals -/

/-- A decimal numeral with an optional minus sign and an optional suffix. -/
structure Literal where
  isNegative : Bool
  digits : List Char
  digits_ne_nil : digits ≠ []
  isDigit : ∀ c ∈ digits, c.isDigit = true
  suffix : Option (List Char × IntegerType)
  suffix_mem : ∀ s, suffix = some s → s ∈ suffixes

namespace Literal

/-- The text of a literal. -/
def text (l : Literal) : List Char :=
  (if l.isNegative then ['-'] else []) ++ l.digits ++ (l.suffix.map (·.1)).getD []

/-- The number without its sign. -/
def magnitude (l : Literal) : ℕ := Nat.ofDigitChars 10 l.digits 0

/-- The number that a literal is written for. -/
def number (l : Literal) : ℤ := if l.isNegative then -l.magnitude else l.magnitude

/-- The type of the suffix. -/
def type (l : Literal) : Option IntegerType := l.suffix.map (·.2)

end Literal

/-- No type with fewer bits is for the number. -/
def Narrowest (t : IntegerType) (v : ℤ) : Prop :=
  t.format.Holds v ∧ ∀ u : IntegerType, u.format.Holds v → t.getValueNumBits ≤ u.getValueNumBits

/-- A number is accepted if it fits and is preserved then, in the given type or in a narrowest one. -/
def Preserved (v : ℤ) : Option IntegerType → Outcome GenericInteger → Prop
  | some t, out =>
    (t.format.Holds v → ∃ n, out = .value n ∧ n.type = t ∧ n.value = v) ∧
      (¬t.format.Holds v → out = .refused)
  | none, out =>
    ((∃ t : IntegerType, t.format.Holds v) →
      ∃ n, out = .value n ∧ Narrowest n.type v ∧ n.value = v) ∧
      ((∀ t : IntegerType, ¬t.format.Holds v) → out = .refused)

/-- The numbers `-n` that the code preserves. With a suffix it refuses a zero of an unsigned type and
the minimum of a signed one and cuts what has more than 32 bits to a 32-bit type; without one it
also passes over the minimum of each narrower type. -/
def AccurateNegative (wraps : Bool) (n : ℕ) : Option IntegerType → Prop
  | some .int2 => n ≠ 2
  | some .int4 => n ≠ 2 ^ 3
  | some .int8 => n ≠ 2 ^ 7
  | some .int16 => n ≠ 2 ^ 15
  | some .int32 => n < 2 ^ 31 ∨ n = 2 ^ 31 ∧ wraps ∨ 2 ^ 63 ≤ n
  | some .int64 => n ≠ 2 ^ 63
  | some _ => n ≠ 0
  | none =>
    n ∉ [0, 2, 2 ^ 3, 2 ^ 7, 2 ^ 15, 2 ^ 63] ∧ (n < 2 ^ 31 ∨ n = 2 ^ 31 ∧ wraps ∨ 2 ^ 63 ≤ n)

/-- The numbers `n` that the code preserves. It gives `-1` for `1_INT2` and cuts what has more than
32 bits to a 32-bit type. -/
def AccurateNonneg (erange : Bool) (n : ℕ) : Option IntegerType → Prop
  | some .int2 => n ≠ 1
  | some .int32 => n < 2 ^ 31 ∨ 2 ^ 63 ≤ n
  | some .uint32 => n < 2 ^ 32 ∨ 2 ^ 64 ≤ n ∨ n = 2 ^ 64 - 1 ∧ erange
  | some .uint64 | some .slice => n ≠ 2 ^ 64 - 1 ∨ erange = false
  | some _ => True
  | none => n < 2 ^ 32 ∨ 2 ^ 64 ≤ n

/-! ### From the text to the number -/

/-- A suffix is an underscore and no other one behind it. -/
theorem suffixes_underscore :
    ∀ s ∈ suffixes, s.1 = '_' :: s.1.tail ∧ '_' ∉ s.1.tail := by
  decide

/-- A suffix of the list is known by its text. -/
theorem suffixes_injective : ∀ s ∈ suffixes, ∀ s' ∈ suffixes, s.1.tail = s'.1.tail → s = s' := by
  decide

variable {digits : List Char}

theorem not_mem_digits (hd : ∀ c ∈ digits, c.isDigit = true) {c : Char} (hc : c.isDigit = false) :
    c ∉ digits := by
  intro h
  rw [hd c h] at hc
  exact Bool.noConfusion hc

/-- Behind digits, the suffix that is found is the one that is there. -/
theorem isSuffixOf_append_iff (hd : ∀ c ∈ digits, c.isDigit = true)
    {s s' : List Char × IntegerType} (hs : s ∈ suffixes) (hs' : s' ∈ suffixes) :
    s'.1.isSuffixOf (digits ++ s.1) = true ↔ s' = s := by
  rw [List.isSuffixOf_iff_suffix]
  refine ⟨fun ⟨before, h⟩ ↦ ?_, fun h ↦ h ▸ List.suffix_append digits s'.1⟩
  obtain ⟨hcons, hnot⟩ := suffixes_underscore s hs
  obtain ⟨hcons', hnot'⟩ := suffixes_underscore s' hs'
  rw [hcons, hcons'] at h
  have hdigits := not_mem_digits hd (c := '_') (by decide)
  obtain ⟨-, -, htail⟩ := (List.append_cons_inj_of_notMem hdigits hnot).mp h.symm
  exact suffixes_injective s' hs' s hs htail.symm

/-- No suffix is found in digits alone. -/
theorem not_isSuffixOf_digits (hd : ∀ c ∈ digits, c.isDigit = true)
    {s : List Char × IntegerType} (hs : s ∈ suffixes) : s.1.isSuffixOf digits = false := by
  rw [Bool.eq_false_iff, Ne, List.isSuffixOf_iff_suffix]
  intro h
  have hmem : '_' ∈ s.1 := by
    rw [(suffixes_underscore s hs).1]
    exact List.mem_cons_self
  exact not_mem_digits hd (by decide) (h.subset hmem)

/-- What the code does with the sign, the type and the digits of a literal. -/
def parseLiteral (wraps erange isNegative : Bool) (type : Option IntegerType) (digits : List Char) :
    Outcome GenericInteger :=
  if isNegative ∧ ¬(type.map IntegerType.isSigned).getD true then .refused
  else parseDigits wraps erange isNegative type digits

theorem parseIfUnsigned_suffix (wraps erange isNegative : Bool)
    (hd : ∀ c ∈ digits, c.isDigit = true) {s : List Char × IntegerType} (hs : s ∈ suffixes) :
    parseIfUnsigned wraps erange isNegative (digits ++ s.1) =
      parseLiteral wraps erange isNegative (some s.2) digits := by
  have hfind : (suffixes.find? fun s' ↦ s'.1.isSuffixOf (digits ++ s.1)) = some s := by
    have hself : s.1.isSuffixOf (digits ++ s.1) = true := (isSuffixOf_append_iff hd hs hs).mpr rfl
    have hsome : (suffixes.find? fun s' ↦ s'.1.isSuffixOf (digits ++ s.1)).isSome :=
      List.find?_isSome.mpr ⟨s, hs, hself⟩
    obtain ⟨s', hs'⟩ := Option.isSome_iff_exists.mp hsome
    have hfound := List.find?_some (p := fun s' : List Char × IntegerType ↦
      s'.1.isSuffixOf (digits ++ s.1)) hs'
    rw [hs', (isSuffixOf_append_iff hd hs (List.mem_of_find?_eq_some hs')).mp hfound]
  rw [parseIfUnsigned, hfind]
  simp [parseLiteral]

theorem parseIfUnsigned_digits (wraps erange isNegative : Bool)
    (hd : ∀ c ∈ digits, c.isDigit = true) :
    parseIfUnsigned wraps erange isNegative digits =
      parseLiteral wraps erange isNegative none digits := by
  have hfind : (suffixes.find? fun s' ↦ s'.1.isSuffixOf digits) = none := by
    rw [List.find?_eq_none]
    intro s hs
    rw [not_isSuffixOf_digits hd hs]
    exact Bool.false_ne_true
  rw [parseIfUnsigned, hfind]
  simp [parseLiteral]

/-- The text of a literal is taken apart as it was put together. -/
theorem parseIfInteger_text (wraps erange : Bool) (l : Literal) :
    parseIfInteger wraps erange l.text =
      parseLiteral wraps erange l.isNegative l.type l.digits := by
  have hbody : parseIfUnsigned wraps erange l.isNegative
      (l.digits ++ (l.suffix.map (·.1)).getD []) =
      parseLiteral wraps erange l.isNegative l.type l.digits := by
    cases hs : l.suffix with
    | none =>
      rw [Literal.type, hs]
      simpa using parseIfUnsigned_digits wraps erange l.isNegative l.isDigit
    | some s =>
      rw [Literal.type, hs]
      exact parseIfUnsigned_suffix wraps erange l.isNegative l.isDigit (l.suffix_mem s hs)
  rw [← hbody, Literal.text]
  cases hneg : l.isNegative with
  | true => rfl
  | false =>
    obtain ⟨c, digits, hcons⟩ := List.exists_cons_of_ne_nil l.digits_ne_nil
    have hc : c.isDigit = true := l.isDigit c (hcons ▸ List.mem_cons_self)
    rw [hcons]
    simp only [Bool.false_eq_true, if_false, List.nil_append, List.cons_append]
    rw [parseIfInteger]
    rintro rest h
    rw [List.cons.injEq] at h
    rw [h.1] at hc
    exact absurd hc (by decide)

/-! ### From the number to the value -/

variable {v x : ℤ} {t : IntegerType} {n : ℕ} {wraps erange isNegative : Bool}

theorem preserved_some_iff {a : GenericInteger} :
    Preserved v (some t) (.value a) ↔ t.format.Holds v ∧ a.type = t ∧ a.value = v := by
  simp only [Preserved, Outcome.value.injEq, reduceCtorEq]
  refine ⟨fun ⟨h, h'⟩ ↦ ?_, fun ⟨h, h'⟩ ↦ ⟨fun _ ↦ ⟨a, rfl, h'⟩, fun hn ↦ absurd h hn⟩⟩
  have hv : t.format.Holds v := by
    by_contra hn
    exact h' hn
  obtain ⟨n, rfl, hn⟩ := h hv
  exact ⟨hv, hn⟩

/-- A number stored in the type of its suffix is preserved if it is one of its numbers. -/
theorem preserved_ofInt_iff : Preserved v (some t) (.value (.ofInt t v)) ↔ t.format.Holds v := by
  rw [preserved_some_iff]
  exact ⟨fun h ↦ h.1, fun h ↦ ⟨h, rfl, GenericInteger.ofInt_value (IntegerType.holder_holds h)⟩⟩

theorem preserved_refused_iff : Preserved v (some t) .refused ↔ ¬t.format.Holds v := by
  simp [Preserved]

theorem not_preserved_undefined (type : Option IntegerType) : ¬Preserved v type .undefined := by
  cases type with
  | some t =>
    simp only [Preserved, reduceCtorEq, false_and, exists_false]
    tauto
  | none =>
    simp only [Preserved, reduceCtorEq, false_and, exists_false, imp_false, not_exists]
    tauto

theorem preserved_none_iff {a : GenericInteger} :
    Preserved v none (.value a) ↔ Narrowest a.type v ∧ a.value = v := by
  simp only [Preserved, Outcome.value.injEq, reduceCtorEq]
  refine ⟨fun ⟨h, h'⟩ ↦ ?_,
    fun ⟨h, h'⟩ ↦ ⟨fun _ ↦ ⟨a, rfl, h, h'⟩, fun hn ↦ absurd h.1 (hn a.type)⟩⟩
  have hv : ∃ t : IntegerType, t.format.Holds v := by
    by_contra hn
    exact h' (not_exists.mp hn)
  obtain ⟨n, rfl, hn⟩ := h hv
  exact hn

theorem preserved_none_refused_iff :
    Preserved v none .refused ↔ v < -2 ^ 63 ∨ 2 ^ 64 ≤ v := by
  simp only [Preserved, reduceCtorEq, false_and, exists_false, imp_false, implies_true, and_true,
    IntegerType.holds_iff]
  refine ⟨fun h ↦ ?_, fun h ⟨t, ht⟩ ↦ ?_⟩
  · have hint := not_exists.mp h .int64
    have huint := not_exists.mp h .uint64
    simp only [IntegerType.bounds] at hint huint
    omega
  · cases t <;> simp only [IntegerType.bounds] at ht <;> omega

/-- A type that is signed is negated without an overflow where it has both numbers. -/
theorem negated_of_holds (ht : t.isSigned) (hn : t.holder.Holds n) (hneg : t.holder.Holds (-n)) :
    negated wraps t n = .value (.ofInt t (-n)) := by
  have hwide : (if t = .int64 then IntegerType.int64 else .int32).holder.Holds (-(n : ℤ)) := by
    cases t <;>
      simp only [IntFormat.Holds, IntFormat.lower, IntFormat.upper, IntegerType.holder,
        IntegerType.isSigned, reduceCtorEq, if_true, if_false] at ht hneg ⊢ <;> omega
  rw [negated, IntFormat.wrap_of_holds hn, signedResult, if_pos hwide, Outcome.map]

/-- A negation gives a value of its type, unless it is undefined. -/
theorem negated_cases (wraps : Bool) (t : IntegerType) (n : ℕ) :
    (negated wraps t n = .undefined ∧ wraps = false) ∨
      ∃ a : GenericInteger, negated wraps t n = .value a ∧ a.type = t := by
  let arithmetic : IntegerType := if t = .int64 then .int64 else .int32
  by_cases hfits : arithmetic.holder.Holds (-t.holder.wrap n)
  · exact .inr ⟨_, by rw [negated, signedResult, if_pos hfits, Outcome.map], rfl⟩
  · cases wraps
    · exact .inl ⟨by rw [negated, signedResult, if_neg hfits]; rfl, rfl⟩
    · exact .inr ⟨_, by rw [negated, signedResult, if_neg hfits, if_pos rfl, Outcome.map], rfl⟩

/-- Of the numbers that an `int32_t` lacks, negation can give the minimum only. -/
theorem negated_int32_iff (hn : 2 ^ 31 ≤ n) :
    (∃ a : GenericInteger, negated wraps .int32 n = .value a ∧ a.type = .int32 ∧
      a.value = -(n : ℤ)) ↔ n = 2 ^ 31 ∧ wraps := by
  constructor
  · rintro ⟨a, ha, htype, hvalue⟩
    have hlo : a.type.holder.lower ≤ a.value := a.held.1
    have hmin : a.type.holder.lower = -2 ^ 31 := by
      rw [htype]
      rfl
    have heq : n = 2 ^ 31 := by omega
    refine ⟨heq, ?_⟩
    subst heq
    cases wraps
    · nomatch ha
    · rfl
  · rintro ⟨rfl, hwraps⟩
    rw [hwraps]
    exact ⟨.ofInt .int32 (-2 ^ 31), rfl, rfl, rfl⟩

/-- The one bit of an `INT2` literal is taken for its sign. -/
theorem int2_value (hn : n ≤ 1) :
    (GenericInteger.ofInt .int2 (if n = 0 then 0 else -1)).value = -(n : ℤ) := by
  obtain rfl | rfl : n = 0 ∨ n = 1 := by omega
  · rfl
  · rfl

/-- The digits are refused for the size of their number alone. -/
theorem parseLiteral_eq (hd : ∀ c ∈ digits, c.isDigit = true) (type : Option IntegerType)
    (hn : n = Nat.ofDigitChars 10 digits 0) :
    parseLiteral wraps erange isNegative type digits =
      if isNegative ∧ ¬(type.map IntegerType.isSigned).getD true ∨ 2 ^ 64 ≤ n ∨
        n = 2 ^ 64 - 1 ∧ erange ∨ isNegative ∧ 2 ^ 63 ≤ n then .refused
      else
        match type with
        | some t => parseTyped wraps isNegative t n
        | none => parseUntyped wraps isNegative n := by
  have hall : digits.all Char.isDigit = true := List.all_eq_true.mpr hd
  rw [parseLiteral, parseDigits, if_neg (not_not.mpr hall), stoi, ← hn]
  by_cases hsign : isNegative ∧ ¬(type.map IntegerType.isSigned).getD true
  · rw [if_pos hsign, if_pos (.inl hsign)]
  · rw [if_neg hsign]
    by_cases hbig : 2 ^ 64 ≤ n ∨ n = 2 ^ 64 - 1 ∧ erange
    · rw [if_pos hbig, if_pos (by tauto)]
    · rw [if_neg hbig]
      by_cases hneg : isNegative ∧ 2 ^ 63 ≤ n
      · have hlt : isNegative ∧ 2 ^ 63 - 1 < n := ⟨hneg.1, by omega⟩
        simp only
        rw [if_pos hlt, if_pos (by tauto)]
      · have hlt : ¬(isNegative ∧ 2 ^ 63 - 1 < n) := fun h ↦ hneg ⟨h.1, by omega⟩
        simp only
        rw [if_neg hlt, if_neg (by tauto)]

/-- The numbers that are not negative, with the suffix of a type. -/
theorem preserved_nonneg_iff (hd : ∀ c ∈ digits, c.isDigit = true) (t : IntegerType)
    (hn : n = Nat.ofDigitChars 10 digits 0) :
    Preserved n (some t) (parseLiteral wraps erange false (some t) digits) ↔
      AccurateNonneg erange n (some t) := by
  rw [parseLiteral_eq hd _ hn]
  split
  · rw [preserved_refused_iff, IntegerType.holds_iff]
    cases t <;> simp only [AccurateNonneg, IntegerType.bounds] <;> grind
  · by_cases hlimit : limit t < n
    · simp only [parseTyped, if_pos hlimit]
      rw [preserved_refused_iff, IntegerType.holds_iff]
      cases t <;> simp only [AccurateNonneg, limit, IntegerType.bounds] at hlimit ⊢ <;> grind
    · by_cases htwo : t = .int2
      · subst htwo
        simp only [limit] at hlimit
        simp only [parseTyped, limit, if_neg hlimit, if_true]
        rw [preserved_some_iff, IntegerType.holds_iff, int2_value (by omega)]
        simp only [IntegerType.bounds, GenericInteger.ofInt_type, AccurateNonneg, true_and]
        omega
      · simp only [parseTyped, if_neg hlimit, if_neg htwo, Bool.false_eq_true, if_false]
        rw [preserved_ofInt_iff, IntegerType.holds_iff]
        cases t <;> simp only [AccurateNonneg, limit, IntegerType.bounds] at hlimit ⊢ <;> grind

/-- The negative numbers, with the suffix of a type. -/
theorem preserved_negative_iff (hd : ∀ c ∈ digits, c.isDigit = true) (t : IntegerType)
    (hn : n = Nat.ofDigitChars 10 digits 0) :
    Preserved (-n) (some t) (parseLiteral wraps erange true (some t) digits) ↔
      AccurateNegative wraps n (some t) := by
  rw [parseLiteral_eq hd _ hn]
  split
  case isTrue h =>
    rw [preserved_refused_iff, IntegerType.holds_iff]
    cases t <;> simp only [AccurateNegative, IntegerType.bounds, IntegerType.isSigned,
      Option.map_some, Option.getD_some] at h ⊢ <;> grind
  case isFalse h =>
    by_cases hlimit : limit t < n
    · simp only [parseTyped, if_pos hlimit]
      rw [preserved_refused_iff, IntegerType.holds_iff]
      cases t <;> simp only [AccurateNegative, limit, IntegerType.bounds] at hlimit ⊢ <;> grind
    have hsigned : t.isSigned = true := by
      by_contra hs
      exact h (.inl ⟨rfl, hs⟩)
    by_cases htwo : t = .int2
    · subst htwo
      simp only [limit] at hlimit
      simp only [parseTyped, limit, if_neg hlimit, if_true]
      rw [preserved_some_iff, IntegerType.holds_iff, int2_value (by omega)]
      simp only [IntegerType.bounds, GenericInteger.ofInt_type, AccurateNegative, and_true]
      omega
    simp only [parseTyped, if_neg hlimit, if_neg htwo, if_true]
    by_cases hwide : t = .int32 ∧ 2 ^ 31 ≤ n
    · obtain ⟨rfl, hwide⟩ := hwide
      simp only [limit, not_lt] at hlimit
      constructor
      · intro hp
        obtain ⟨hnone, -⟩ | ⟨a, ha, htype⟩ := negated_cases wraps .int32 n
        · rw [hnone] at hp
          exact absurd hp (not_preserved_undefined _)
        · rw [ha, preserved_some_iff] at hp
          exact .inr (.inl ((negated_int32_iff hwide).mp ⟨a, ha, hp.2⟩))
      · rintro (h | h | h)
        · omega
        · obtain ⟨a, ha, hp⟩ := (negated_int32_iff hwide).mpr h
          rw [ha, preserved_some_iff, IntegerType.holds_iff]
          refine ⟨?_, hp⟩
          simp only [IntegerType.bounds]
          omega
        · omega
    · have hboth : t.format.Holds n ∧ t.format.Holds (-n) := by
        rw [IntegerType.holds_iff, IntegerType.holds_iff]
        cases t <;> simp only [limit, IntegerType.bounds, IntegerType.isSigned, true_and,
          Bool.false_eq_true, not_le] at hlimit hsigned hwide ⊢ <;> omega
      rw [negated_of_holds hsigned (IntegerType.holder_holds hboth.1)
        (IntegerType.holder_holds hboth.2), preserved_ofInt_iff]
      refine ⟨fun _ ↦ ?_, fun _ ↦ hboth.2⟩
      cases t <;> simp only [AccurateNegative, limit, IntegerType.isSigned, true_and,
        Bool.false_eq_true] at hlimit hsigned hwide ⊢ <;> omega

/-- A narrowest type is compared with the types of fewer bits. -/
theorem narrowest_iff : Narrowest t v ↔ (t.bounds.1 ≤ v ∧ v < t.bounds.2) ∧
    ∀ u : IntegerType, u.getValueNumBits < t.getValueNumBits →
      ¬(u.bounds.1 ≤ v ∧ v < u.bounds.2) := by
  simp only [Narrowest, IntegerType.holds_iff]
  exact and_congr_right fun _ ↦ forall_congr' fun u ↦ by rw [← not_imp_not, not_le]

/-- The numbers `-n` that the signed types are narrowest for. -/
theorem narrowest_neg_iff (t : IntegerType) (ht : t.isSigned) :
    Narrowest t (-n) ↔
      match t with
      | .int2 => 1 ≤ n ∧ n ≤ 2
      | .int4 => 3 ≤ n ∧ n ≤ 2 ^ 3
      | .int8 => 2 ^ 3 < n ∧ n ≤ 2 ^ 7
      | .int16 => 2 ^ 7 < n ∧ n ≤ 2 ^ 15
      | .int32 => 2 ^ 15 < n ∧ n ≤ 2 ^ 31
      | _ => 2 ^ 31 < n ∧ n ≤ 2 ^ 63 := by
  rw [narrowest_iff, IntegerType.forall_iff]
  cases t <;> simp only [IntegerType.bounds, IntegerType.getValueNumBits, IntegerType.isSigned,
    Bool.false_eq_true, Nat.reduceLT, forall_const, IsEmpty.forall_iff, and_true] at ht ⊢ <;> omega

/-- The numbers `n` that the unsigned types are narrowest for. -/
theorem narrowest_nonneg_iff (t : IntegerType) (ht : ¬t.isSigned) :
    Narrowest t n ↔
      match t with
      | .bool => n < 2
      | .uint2 => 2 ≤ n ∧ n < 2 ^ 2
      | .uint4 => 2 ^ 2 ≤ n ∧ n < 2 ^ 4
      | .uint8 => 2 ^ 4 ≤ n ∧ n < 2 ^ 8
      | .uint16 => 2 ^ 8 ≤ n ∧ n < 2 ^ 16
      | .uint32 => 2 ^ 16 ≤ n ∧ n < 2 ^ 32
      | _ => 2 ^ 32 ≤ n ∧ n < 2 ^ 64 := by
  rw [narrowest_iff, IntegerType.forall_iff]
  cases t <;> simp only [IntegerType.bounds, IntegerType.getValueNumBits, IntegerType.isSigned,
    not_true_eq_false, Nat.reduceLT, forall_const, IsEmpty.forall_iff, and_true] at ht ⊢ <;> omega

/-- A negation without an overflow is preserved if its type is a narrowest one. -/
theorem preserved_negated_iff (ht : t.isSigned) (hn : n < t.bounds.2) :
    Preserved (-n) none (negated wraps t n) ↔ Narrowest t (-n) := by
  have hboth : t.format.Holds n ∧ t.format.Holds (-n) := by
    rw [IntegerType.holds_iff, IntegerType.holds_iff]
    cases t <;> simp only [IntegerType.bounds, IntegerType.isSigned, Bool.false_eq_true]
      at ht hn ⊢ <;> omega
  have hheld := IntegerType.holder_holds hboth.2
  rw [negated_of_holds ht (IntegerType.holder_holds hboth.1) hheld, preserved_none_iff,
    GenericInteger.ofInt_value hheld]
  exact ⟨fun h ↦ h.1, fun h ↦ ⟨h, rfl⟩⟩

/-- The negative numbers without a suffix. -/
theorem preserved_untyped_negative_iff (hd : ∀ c ∈ digits, c.isDigit = true)
    (hn : n = Nat.ofDigitChars 10 digits 0) :
    Preserved (-n) none (parseLiteral wraps erange true none digits) ↔
      AccurateNegative wraps n none := by
  rw [parseLiteral_eq hd _ hn]
  split
  case isTrue h =>
    rw [preserved_none_refused_iff]
    simp only [AccurateNegative, List.mem_cons, List.not_mem_nil]
    grind
  case isFalse h =>
    have hlt : n < 2 ^ 63 := by
      by_contra hge
      exact h (.inr (.inr (.inr ⟨rfl, not_lt.mp hge⟩)))
    have hsmall (hlt : n < 2 ^ 31) : AccurateNegative wraps n none ↔
        ¬(n = 0 ∨ n = 2 ∨ n = 2 ^ 3 ∨ n = 2 ^ 7 ∨ n = 2 ^ 15 ∨ n = 2 ^ 63) := by
      simp only [AccurateNegative, List.mem_cons, List.not_mem_nil, or_false, hlt, true_or,
        and_true]
    simp only [parseUntyped, if_true]
    by_cases h₁ : n = 0 ∨ n = 1
    · rw [if_pos h₁, preserved_none_iff, int2_value (by omega), GenericInteger.ofInt_type,
        narrowest_neg_iff _ rfl, hsmall (by omega)]
      simp only [and_true]
      omega
    by_cases h₂ : n ≤ 7
    · rw [if_neg h₁, if_pos h₂, preserved_negated_iff rfl, narrowest_neg_iff _ rfl,
        hsmall (by omega)]
      · simp only
        omega
      · simp only [IntegerType.bounds]
        omega
    by_cases h₃ : n ≤ 2 ^ 7 - 1
    · rw [if_neg h₁, if_neg h₂, if_pos h₃, preserved_negated_iff rfl, narrowest_neg_iff _ rfl,
        hsmall (by omega)]
      · simp only
        omega
      · simp only [IntegerType.bounds]
        omega
    by_cases h₄ : n ≤ 2 ^ 15 - 1
    · rw [if_neg h₁, if_neg h₂, if_neg h₃, if_pos h₄, preserved_negated_iff rfl,
        narrowest_neg_iff _ rfl, hsmall (by omega)]
      · simp only
        omega
      · simp only [IntegerType.bounds]
        omega
    rw [if_neg h₁, if_neg h₂, if_neg h₃, if_neg h₄, if_pos (by omega)]
    by_cases hwide : n < 2 ^ 31
    · rw [preserved_negated_iff rfl, narrowest_neg_iff _ rfl, hsmall hwide]
      · simp only
        omega
      · simp only [IntegerType.bounds]
        omega
    have hmin : AccurateNegative wraps n none ↔ n = 2 ^ 31 ∧ wraps := by
      simp only [AccurateNegative, List.mem_cons, List.not_mem_nil]
      grind
    rw [hmin, ← negated_int32_iff (not_lt.mp hwide)]
    constructor
    · intro hp
      obtain ⟨hnone, -⟩ | ⟨a, ha, htype⟩ := negated_cases wraps .int32 n
      · rw [hnone] at hp
        exact absurd hp (not_preserved_undefined _)
      · rw [ha, preserved_none_iff] at hp
        exact ⟨a, ha, htype, hp.2⟩
    · intro hp
      have heq := ((negated_int32_iff (not_lt.mp hwide)).mp hp).1
      obtain ⟨a, ha, htype, hvalue⟩ := hp
      rw [ha, preserved_none_iff, htype, narrowest_neg_iff _ rfl]
      refine ⟨?_, hvalue⟩
      simp only
      omega

/-- A number that its type has is preserved if that type is a narrowest one. -/
theorem preserved_ofInt_none_iff (ht : ¬t.isSigned) (hn : n < t.bounds.2) :
    Preserved n none (.value (.ofInt t n)) ↔ Narrowest t n := by
  have hholds : t.format.Holds n := by
    rw [IntegerType.holds_iff]
    cases t <;> simp only [IntegerType.bounds, IntegerType.isSigned, not_true_eq_false]
      at ht hn ⊢ <;> omega
  rw [preserved_none_iff, GenericInteger.ofInt_value (IntegerType.holder_holds hholds)]
  exact ⟨fun h ↦ h.1, fun h ↦ ⟨h, rfl⟩⟩

/-- The numbers that are not negative, without a suffix. -/
theorem preserved_untyped_nonneg_iff (hd : ∀ c ∈ digits, c.isDigit = true)
    (hn : n = Nat.ofDigitChars 10 digits 0) :
    Preserved n none (parseLiteral wraps erange false none digits) ↔
      AccurateNonneg erange n none := by
  rw [parseLiteral_eq hd _ hn]
  split
  case isTrue h =>
    rw [preserved_none_refused_iff]
    simp only [AccurateNonneg]
    grind
  case isFalse h =>
    have hlt : n < 2 ^ 64 := by
      by_contra hge
      exact h (.inr (.inl (not_lt.mp hge)))
    have hunsigned {t : IntegerType} (ht : t.isSigned = false) : ¬t.isSigned := by
      rw [ht]
      exact Bool.false_ne_true
    simp only [parseUntyped, Bool.false_eq_true, if_false, AccurateNonneg]
    by_cases h₁ : n = 0 ∨ n = 1
    · have hbit : ((if n = 1 then 1 else 0 : ℤ)) = n := by
        obtain rfl | rfl := h₁
        · rfl
        · rfl
      rw [if_pos h₁, hbit, preserved_ofInt_none_iff (hunsigned rfl),
        narrowest_nonneg_iff _ (hunsigned rfl)]
      · simp only
        omega
      · simp only [IntegerType.bounds]
        omega
    by_cases h₂ : n = 2 ∨ n = 3
    · rw [if_neg h₁, if_pos h₂, preserved_ofInt_none_iff (hunsigned rfl),
        narrowest_nonneg_iff _ (hunsigned rfl)]
      · simp only
        omega
      · simp only [IntegerType.bounds]
        omega
    by_cases h₃ : n ≤ 15
    · rw [if_neg h₁, if_neg h₂, if_pos h₃, preserved_ofInt_none_iff (hunsigned rfl),
        narrowest_nonneg_iff _ (hunsigned rfl)]
      · simp only
        omega
      · simp only [IntegerType.bounds]
        omega
    by_cases h₄ : n ≤ 2 ^ 8 - 1
    · rw [if_neg h₁, if_neg h₂, if_neg h₃, if_pos h₄, preserved_ofInt_none_iff (hunsigned rfl),
        narrowest_nonneg_iff _ (hunsigned rfl)]
      · simp only
        omega
      · simp only [IntegerType.bounds]
        omega
    by_cases h₅ : n ≤ 2 ^ 16 - 1
    · rw [if_neg h₁, if_neg h₂, if_neg h₃, if_neg h₄, if_pos h₅,
        preserved_ofInt_none_iff (hunsigned rfl), narrowest_nonneg_iff _ (hunsigned rfl)]
      · simp only
        omega
      · simp only [IntegerType.bounds]
        omega
    rw [if_neg h₁, if_neg h₂, if_neg h₃, if_neg h₄, if_neg h₅, if_pos (by omega)]
    by_cases hwide : n < 2 ^ 32
    · rw [preserved_ofInt_none_iff (hunsigned rfl), narrowest_nonneg_iff _ (hunsigned rfl)]
      · simp only
        omega
      · simp only [IntegerType.bounds]
        omega
    · rw [preserved_none_iff, GenericInteger.ofInt_type, narrowest_nonneg_iff _ (hunsigned rfl)]
      simp only
      omega

/-! ### All literals -/

/-- A literal is accepted where its number fits and then preserved exactly if it is one of the numbers
that the code is accurate for. -/
theorem preserved_parseIfInteger_iff (wraps erange : Bool) (l : Literal) :
    Preserved l.number l.type (parseIfInteger wraps erange l.text) ↔
      if l.isNegative then AccurateNegative wraps l.magnitude l.type
      else AccurateNonneg erange l.magnitude l.type := by
  rw [parseIfInteger_text, Literal.number]
  cases l.isNegative with
  | true =>
    simp only [if_true]
    cases l.type with
    | some t => exact preserved_negative_iff l.isDigit t rfl
    | none => exact preserved_untyped_negative_iff l.isDigit rfl
  | false =>
    simp only [Bool.false_eq_true, if_false]
    cases l.type with
    | some t => exact preserved_nonneg_iff l.isDigit t rfl
    | none => exact preserved_untyped_nonneg_iff l.isDigit rfl

/-- The literal `1_INT2`. -/
def oneInt2 : Literal where
  isNegative := false
  digits := ['1']
  digits_ne_nil := by decide
  isDigit := by
    intro c hc
    rw [List.mem_singleton.mp hc]
    rfl
  suffix := some ("_INT2".toList, .int2)
  suffix_mem := by
    rintro s ⟨⟩
    decide

/-- `1_INT2` is accepted as `-1`. -/
theorem not_preserved_oneInt2 :
    ¬∀ (wraps erange : Bool) (l : Literal),
      Preserved l.number l.type (parseIfInteger wraps erange l.text) := by
  intro h
  have hone := h true false oneInt2
  rw [parseIfInteger_text] at hone
  have haccurate : AccurateNonneg false 1 (some .int2) :=
    (preserved_nonneg_iff oneInt2.isDigit .int2 rfl).mp hone
  exact haccurate rfl

end Safrn.Generic
