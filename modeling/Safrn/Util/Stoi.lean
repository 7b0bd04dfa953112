import Mathlib.Data.List.TakeWhile
import Safrn.Base.IntFormat

/-!
# Strings converted to integers

Models the overloads of `Stoi` for strings and integer types (`Util/string_utils.cpp:472-968`) on
Linux, where a `char` is signed and `long` and `long long` have 64 bits. The C functions that they call skip white space, take a plus sign and
stop at the first character that is no digit; a terminating zero in the string ends it for them.
`erange` says whether `errno` is `ERANGE` before the call.
-/

namespace Safrn.Util

open Safrn.Base

/-- The types that there are overloads for. -/
inductive StoiType
  | char
  | unsignedChar
  | short
  | unsignedShort
  | int
  | unsignedInt
  | long
  | unsignedLong
  | longLong
  | unsignedLongLong
deriving DecidableEq

/-- The numbers of a type. -/
def StoiType.format : StoiType → IntFormat
  | .char => ⟨8, true, IntFormat.eight_pos⟩
  | .unsignedChar => ⟨8, false, IntFormat.eight_pos⟩
  | .short => ⟨16, true, IntFormat.sixteen_pos⟩
  | .unsignedShort => ⟨16, false, IntFormat.sixteen_pos⟩
  | .int => ⟨32, true, IntFormat.thirtyTwo_pos⟩
  | .unsignedInt => ⟨32, false, IntFormat.thirtyTwo_pos⟩
  | .long | .longLong => ⟨64, true, IntFormat.sixtyFour_pos⟩
  | .unsignedLong | .unsignedLongLong => ⟨64, false, IntFormat.sixtyFour_pos⟩

/-- What `Stoi` comes to: the address of the last character of an empty string is undefined. -/
inductive Parsed
  | refused
  | undefined
  | value (v : ℤ)
deriving DecidableEq

/-! ### The C library -/

/-- `isspace` in the `C` locale. -/
def isSpace (c : Char) : Bool := [' ', '\t', '\n', '\x0b', '\x0c', '\r'].contains c

inductive Sign
  | minus
  | plus
deriving DecidableEq

def Sign.text : Sign → Char
  | .minus => '-'
  | .plus => '+'

/-- A string cut as the conversions read it. -/
structure Scanned where
  spaces : List Char
  sign : Option Sign
  digits : List Char
  rest : List Char
deriving DecidableEq

namespace Scanned

/-- What is read. -/
def text (p : Scanned) : List Char := p.spaces ++ p.sign.toList.map Sign.text ++ p.digits

def magnitude (p : Scanned) : ℕ := Nat.ofDigitChars 10 p.digits 0

def value (p : Scanned) : ℤ := if p.sign = some .minus then -p.magnitude else p.magnitude

end Scanned

/-- The optional sign in front. -/
def scanSign : List Char → Option Sign × List Char
  | [] => (none, [])
  | c :: s =>
    if c = '-' then (some .minus, s) else if c = '+' then (some .plus, s) else (none, c :: s)

/-- White space, an optional sign and digits. -/
def scan (s : List Char) : Scanned :=
  let (sign, digits) := scanSign (s.dropWhile isSpace)
  ⟨s.takeWhile isSpace, sign, digits.takeWhile Char.isDigit, digits.dropWhile Char.isDigit⟩

/-- What `strtol` and `strtoul` yield: the number, where `last_char` points to, and whether `errno`
is `ERANGE` now. -/
structure Converted where
  value : ℤ
  last : ℕ
  erange : Bool
deriving DecidableEq

/-- A number is converted to the nearest one between the bounds. -/
def convert (lo hi : ℤ) (erange : Bool) (p : Scanned) : Converted :=
  if p.digits = [] then ⟨0, 0, erange⟩
  else if hi < p.value then ⟨hi, p.text.length, true⟩
  else if p.value < lo then ⟨lo, p.text.length, true⟩
  else ⟨p.value, p.text.length, erange⟩

def LONG_MAX : ℤ := 2 ^ 63 - 1

def LONG_MIN : ℤ := -2 ^ 63

def ULONG_MAX : ℤ := 2 ^ 64 - 1

/-- `strtol` and `strtoll` to the base ten. -/
def strtol (erange : Bool) (s : List Char) : Converted :=
  convert LONG_MIN LONG_MAX erange (scan s)

/-- `strtoul` and `strtoull` to the base ten: a negative number is converted to the type. -/
def strtoul (erange : Bool) (s : List Char) : Converted :=
  let p := scan s
  if p.sign = some .minus ∧ p.digits ≠ [] then
    if ULONG_MAX < p.magnitude then ⟨ULONG_MAX, p.text.length, true⟩
    else ⟨p.value % 2 ^ 64, p.text.length, erange⟩
  else convert 0 ULONG_MAX erange p

/-- `c_str`, up to the first zero. -/
def cString (str : List Char) : List Char := str.takeWhile (· ≠ '\x00')

/-! ### The overloads -/

/-- What the overloads that call `strtol` or `strtoul` check, in this order. -/
def stoiChecked (T : StoiType) (extremes : List ℤ) (temp : Converted) (str : List Char) : Parsed :=
  if temp.value ∈ extremes ∧ temp.erange then .refused
  else if temp.value = 0 ∧ str ≠ List.replicate str.length '0' then .refused
  else if str = [] then .undefined
  else if temp.last ≠ str.length then .refused
  else if ¬T.format.Holds temp.value then .refused
  else .value temp.value

/-- The overloads that call `strtol`. -/
def stoiSigned (T : StoiType) (erange : Bool) (str : List Char) : Parsed :=
  stoiChecked T [LONG_MAX, LONG_MIN] (strtol erange (cString str)) str

/-- The overloads that call `strtoul`. -/
def stoiUnsigned (T : StoiType) (erange : Bool) (str : List Char) : Parsed :=
  let temp := strtoul erange (cString str)
  if '-' ∈ str then .refused else stoiChecked T [ULONG_MAX] temp str

/-- `sscanf` with a single conversion, after which `errno` is looked at. -/
def stoiScanned (strto : Bool → List Char → Converted) (str : List Char) : Parsed :=
  if (scan (cString str)).digits = [] then .refused
  else
    let temp := strto false (cString str)
    if temp.erange then .refused else .value temp.value

/-- `Stoi`. -/
def stoi (T : StoiType) (erange : Bool) (str : List Char) : Parsed :=
  match T with
  | .char | .short | .int | .long => stoiSigned T erange str
  | .unsignedChar | .unsignedShort | .unsignedInt | .unsignedLong => stoiUnsigned T erange str
  | .longLong => stoiScanned strtol str
  | .unsignedLongLong => if '-' ∈ str then .refused else stoiScanned strtoul str

/-! ### Numerals -/

/-- An optional minus sign, if the type is signed, and decimal digits of a number of the type. -/
def Denotes (T : StoiType) (str : List Char) (v : ℤ) : Prop :=
  ∃ (isNegative : Bool) (digits : List Char),
    str = (if isNegative then ['-'] else []) ++ digits ∧ digits ≠ [] ∧
      (∀ c ∈ digits, c.isDigit = true) ∧ (isNegative = true → T.format.signed = true) ∧
      v = (if isNegative then -(Nat.ofDigitChars 10 digits 0 : ℤ) else Nat.ofDigitChars 10 digits 0) ∧
      T.format.Holds v

/-- Exactly the numerals are accepted, as the numbers that they denote. -/
def Accurate (T : StoiType) (str : List Char) (result : Parsed) : Prop :=
  result ≠ .undefined ∧ ∀ v, result = .value v ↔ Denotes T str v

/-! ### Cut strings -/

section

variable {s : List Char} {p : Scanned}

theorem scanSign_eq (s : List Char) :
    (scanSign s).1.toList.map Sign.text ++ (scanSign s).2 = s := by
  cases s with
  | nil => rfl
  | cons c s =>
    rw [scanSign]
    split
    case isTrue hminus => rw [hminus]; rfl
    case isFalse =>
      split
      case isTrue hplus => rw [hplus]; rfl
      case isFalse => rfl

theorem text_scan_append_rest (s : List Char) : (scan s).text ++ (scan s).rest = s := by
  have hdigits : (scan s).digits ++ (scan s).rest = (scanSign (s.dropWhile isSpace)).2 :=
    List.takeWhile_append_dropWhile
  have hsign : (scan s).sign = (scanSign (s.dropWhile isSpace)).1 := rfl
  have hspaces : (scan s).spaces ++ s.dropWhile isSpace = s := List.takeWhile_append_dropWhile
  rw [Scanned.text, List.append_assoc, List.append_assoc, hdigits, hsign, scanSign_eq, hspaces]

theorem isDigit_of_mem_digits {c : Char} (hc : c ∈ (scan s).digits) : c.isDigit = true :=
  List.mem_takeWhile_imp hc

theorem isSpace_of_isDigit {c : Char} (hc : c.isDigit = true) : isSpace c = false := by
  by_contra hspace
  rw [Bool.not_eq_false, isSpace, List.contains_iff_mem] at hspace
  simp only [List.mem_cons, List.not_mem_nil, or_false] at hspace
  obtain rfl | rfl | rfl | rfl | rfl | rfl := hspace <;> exact Bool.false_ne_true hc

/-- A numeral is cut into its sign and its digits. -/
theorem scan_numeral (isNegative : Bool) {digits : List Char} (hne : digits ≠ [])
    (hdigits : ∀ c ∈ digits, c.isDigit = true) :
    scan ((if isNegative then ['-'] else []) ++ digits) =
      ⟨[], if isNegative then some .minus else none, digits, []⟩ := by
  have htake : digits.takeWhile Char.isDigit = digits := List.takeWhile_eq_self_iff.mpr hdigits
  have hdrop : digits.dropWhile Char.isDigit = [] := List.dropWhile_eq_nil_iff.mpr hdigits
  cases isNegative with
  | true =>
    have hminus : isSpace '-' = false := by decide
    simp only [if_true, List.singleton_append, scan, List.dropWhile_cons, hminus, scanSign,
      List.takeWhile_cons, Bool.false_eq_true, if_false, htake, hdrop]
  | false =>
    cases digits with
    | nil => exact absurd rfl hne
    | cons c digits =>
      have hc : c.isDigit = true := hdigits c List.mem_cons_self
      have hsign : scanSign (c :: digits) = (none, c :: digits) := by
        have hminus : c ≠ '-' := by
          rintro rfl
          exact Bool.false_ne_true hc
        have hplus : c ≠ '+' := by
          rintro rfl
          exact Bool.false_ne_true hc
        rw [scanSign, if_neg hminus, if_neg hplus]
      simp only [Bool.false_eq_true, if_false, List.nil_append, scan, List.dropWhile_cons,
        List.takeWhile_cons, isSpace_of_isDigit hc, hsign, hc, if_true] at htake hdrop ⊢
      rw [htake, hdrop]

/-- The numerals among the strings, by how they are cut. -/
theorem denotes_iff {T : StoiType} {str : List Char} {v : ℤ} :
    Denotes T str v ↔ (scan str).text = str ∧ (scan str).spaces = [] ∧
      (scan str).sign ≠ some .plus ∧ (scan str).digits ≠ [] ∧
      ((scan str).sign = some .minus → T.format.signed = true) ∧ v = (scan str).value ∧
      T.format.Holds v := by
  constructor
  · rintro ⟨isNegative, digits, rfl, hne, hdigits, hsigned, rfl, hholds⟩
    rw [scan_numeral isNegative hne hdigits]
    cases isNegative with
    | true =>
      exact ⟨rfl, rfl, nofun, hne, fun _ ↦ hsigned rfl, rfl, hholds⟩
    | false =>
      exact ⟨rfl, rfl, nofun, hne, nofun, rfl, hholds⟩
  · rintro ⟨htext, hspaces, hplus, hne, hsigned, rfl, hholds⟩
    have hdigits : ∀ c ∈ (scan str).digits, c.isDigit = true := fun c ↦ isDigit_of_mem_digits
    rw [Scanned.text, hspaces, List.nil_append] at htext
    cases hsign : (scan str).sign with
    | none =>
      refine ⟨false, (scan str).digits, ?_, hne, hdigits, nofun, ?_, hholds⟩
      · rw [hsign] at htext
        exact htext.symm
      · rw [Scanned.value, hsign]
        rfl
    | some sign =>
      cases sign with
      | minus =>
        refine ⟨true, (scan str).digits, ?_, hne, hdigits, fun _ ↦ hsigned hsign, ?_, hholds⟩
        · rw [hsign] at htext
          exact htext.symm
        · rw [Scanned.value, hsign]
          rfl
      | plus => exact absurd hsign hplus

/-- Nothing that is read is a zero character, so what is read whole is not cut off. -/
theorem cString_of_text {str : List Char} (h : (scan str).text = str) : cString str = str := by
  have hspaces : ∀ c ∈ (scan str).spaces, c ≠ '\x00' := by
    rintro _ hc rfl
    exact Bool.false_ne_true (List.mem_takeWhile_imp hc)
  have hdigits : ∀ c ∈ (scan str).digits, c ≠ '\x00' := by
    rintro _ hc rfl
    exact Bool.false_ne_true (isDigit_of_mem_digits hc)
  rw [cString, List.takeWhile_eq_self_iff]
  intro c hc
  rw [← h, Scanned.text, List.mem_append, List.mem_append] at hc
  rw [decide_eq_true_iff]
  obtain (hc | hc) | hc := hc
  · exact hspaces c hc
  · obtain ⟨sign, -, rfl⟩ := List.mem_map.mp hc
    cases sign <;> decide
  · exact hdigits c hc

theorem cString_of_length {str : List Char} (h : (scan (cString str)).text.length = str.length) :
    cString str = str ∧ (scan str).text = str := by
  have hread := congrArg List.length (text_scan_append_rest (cString str))
  have hbefore : cString str <+: str := List.takeWhile_prefix _
  rw [List.length_append] at hread
  have hcut : cString str = str := hbefore.eq_of_length_le (by omega)
  have hrest : (scan str).rest = [] := by
    rw [hcut] at hread h
    exact List.length_eq_zero_iff.mp (by omega)
  refine ⟨hcut, ?_⟩
  have htext := text_scan_append_rest str
  rwa [hrest, List.append_nil] at htext

/-- Only zeros have the value zero. -/
theorem eq_zero_of_ofDigitChars {digits : List Char} (hdigits : ∀ c ∈ digits, c.isDigit = true)
    (h : Nat.ofDigitChars 10 digits 0 = 0) : ∀ c ∈ digits, c = '0' := by
  induction digits with
  | nil => nofun
  | cons c digits ih =>
    rw [Nat.ofDigitChars_cons, Nat.mul_zero, Nat.zero_add, Nat.ofDigitChars_eq_ofDigitChars_zero] at h
    obtain ⟨hhead, htail⟩ := Nat.add_eq_zero_iff.mp h
    have hpow : 10 ^ digits.length ≠ 0 := by positivity
    have hsub := (Nat.mul_eq_zero.mp hhead).resolve_left hpow
    have hc := (Char.isDigit_iff_toNat.mp (hdigits c List.mem_cons_self)).1
    intro c' hc'
    obtain rfl | hc' := List.mem_cons.mp hc'
    · exact Char.toNat_inj.mp (by omega)
    · exact ih (fun d hd ↦ hdigits d (List.mem_cons_of_mem _ hd)) htail c' hc'

/-- A zero that is read whole is written with zeros only if nothing is in front of its digits. -/
theorem eq_replicate_iff {str : List Char} (htext : (scan str).text = str)
    (hne : (scan str).digits ≠ []) (hzero : (scan str).value = 0) :
    str = List.replicate str.length '0' ↔ (scan str).spaces = [] ∧ (scan str).sign = none := by
  constructor
  · intro h
    have hstr : str ≠ [] := by
      rintro rfl
      exact hne rfl
    have hdigits : ∀ c ∈ str, c.isDigit = true := by
      intro c hc
      rw [h] at hc
      rw [(List.mem_replicate.mp hc).2]
      rfl
    have hscan := scan_numeral false hstr hdigits
    rw [if_neg Bool.false_ne_true, List.nil_append, if_neg Bool.false_ne_true] at hscan
    rw [hscan]
    exact ⟨rfl, rfl⟩
  · rintro ⟨hspaces, hsign⟩
    have hdigits : (scan str).digits = str := by
      rw [Scanned.text, hspaces, hsign] at htext
      exact htext
    have hmagnitude : Nat.ofDigitChars 10 (scan str).digits 0 = 0 := by
      rw [Scanned.value, hsign, if_neg (by decide)] at hzero
      exact_mod_cast hzero
    have hzeros := eq_zero_of_ofDigitChars (fun c ↦ isDigit_of_mem_digits) hmagnitude
    rw [hdigits] at hzeros
    exact List.eq_replicate_iff.mpr ⟨rfl, hzeros⟩

/-! ### What is accepted -/

section

variable {T : StoiType} {extremes : List ℤ} {lo hi : ℤ} {erange : Bool} {str : List Char} {v : ℤ}

theorem stoiChecked_undefined (hext : 0 ∉ extremes) :
    stoiChecked T extremes (convert lo hi erange (scan (cString str))) str = .undefined ↔
      str = [] := by
  constructor
  · intro h
    by_contra hne
    rw [stoiChecked, if_neg hne] at h
    split_ifs at h
  · rintro rfl
    have hconvert : convert lo hi erange (scan (cString [])) = ⟨0, 0, erange⟩ := rfl
    rw [stoiChecked, hconvert, if_neg fun h ↦ hext h.1, if_neg fun h ↦ h.2 rfl, if_pos rfl]

/-- What is accepted is read whole. -/
theorem stoiChecked_value_iff (hlo : ∀ v, T.format.Holds v → lo ≤ v ∧ v ≤ hi) (hhi : hi ∈ extremes)
    (hsat : lo ≤ (scan (cString str)).value ∨ lo ∈ extremes) :
    stoiChecked T extremes (convert lo hi erange (scan (cString str))) str = .value v ↔
      str ≠ [] ∧ (scan str).text = str ∧ (scan str).digits ≠ [] ∧
        ¬((scan str).value ∈ extremes ∧ erange = true) ∧
        ((scan str).value = 0 → (scan str).spaces = [] ∧ (scan str).sign = none) ∧
        T.format.Holds (scan str).value ∧ v = (scan str).value := by
  constructor
  · intro h
    rw [stoiChecked] at h
    split_ifs at h with hextreme hzero hne hlast hholds
    have hlast := not_not.mp hlast
    have hdigits : (scan (cString str)).digits ≠ [] := by
      intro hnil
      rw [convert, if_pos hnil] at hlast
      exact hne (List.length_eq_zero_iff.mp hlast.symm)
    have hle : ¬hi < (scan (cString str)).value := by
      intro hlt
      rw [convert, if_neg hdigits, if_pos hlt] at hextreme
      exact hextreme ⟨hhi, rfl⟩
    have hge : ¬(scan (cString str)).value < lo := by
      intro hlt
      rw [convert, if_neg hdigits, if_neg hle, if_pos hlt] at hextreme
      exact hextreme ⟨hsat.resolve_left hlt.not_ge, rfl⟩
    have hconvert : convert lo hi erange (scan (cString str)) =
        ⟨(scan (cString str)).value, (scan (cString str)).text.length, erange⟩ := by
      rw [convert, if_neg hdigits, if_neg hle, if_neg hge]
    rw [hconvert] at hextreme hzero hlast hholds h
    obtain ⟨hcut, htext⟩ := cString_of_length hlast
    rw [hcut] at hdigits hextreme hzero hholds h
    refine ⟨hne, htext, hdigits, hextreme, fun hvalue ↦ ?_, hholds, (Parsed.value.inj h).symm⟩
    refine (eq_replicate_iff htext hdigits hvalue).mp ?_
    by_contra hreplicate
    exact hzero ⟨hvalue, hreplicate⟩
  · rintro ⟨hne, htext, hdigits, hextreme, hzero, hholds, rfl⟩
    have hconvert : convert lo hi erange (scan (cString str)) =
        ⟨(scan str).value, (scan str).text.length, erange⟩ := by
      obtain ⟨hlo, hhi⟩ := hlo _ hholds
      rw [cString_of_text htext, convert, if_neg hdigits, if_neg hhi.not_gt, if_neg hlo.not_gt]
    rw [stoiChecked, hconvert, if_neg hextreme, if_neg, if_neg hne, if_neg, if_neg (not_not.mpr hholds)]
    · rw [htext]
      exact not_not.mpr rfl
    · rintro ⟨hvalue, hreplicate⟩
      exact hreplicate ((eq_replicate_iff htext hdigits hvalue).mpr (hzero hvalue))

/-- Behind its sign a number that is converted is not negative. -/
theorem Scanned.value_nonneg {p : Scanned} (h : p.sign ≠ some .minus) : 0 ≤ p.value := by
  rw [Scanned.value, if_neg h]
  exact Int.natCast_nonneg _

theorem Scanned.value_nonpos {p : Scanned} (h : p.sign = some .minus) : p.value ≤ 0 := by
  rw [Scanned.value, if_pos h]
  exact Int.neg_nonpos_of_nonneg (Int.natCast_nonneg _)

theorem sign_cases (p : Scanned) :
    p.sign = none ∨ p.sign = some .minus ∨ p.sign = some .plus := by
  cases p.sign with
  | none => exact .inl rfl
  | some sign =>
    cases sign with
    | minus => exact .inr (.inl rfl)
    | plus => exact .inr (.inr rfl)

/-- In what is read, a minus sign is only in front of the digits. -/
theorem sign_of_minus_mem {str : List Char} (h : '-' ∈ (scan str).text) :
    (scan str).sign = some .minus := by
  rw [Scanned.text, List.mem_append, List.mem_append] at h
  obtain (h | h) | h := h
  · exact absurd (List.mem_takeWhile_imp h) Bool.false_ne_true
  · obtain ⟨sign, hsign, htext⟩ := List.mem_map.mp h
    cases sign with
    | minus => exact Option.mem_toList.mp hsign
    | plus => exact absurd htext (by decide)
  · exact absurd (isDigit_of_mem_digits h) Bool.false_ne_true

/-- A minus sign that is read is in the string. -/
theorem minus_mem {str : List Char} (h : (scan str).sign = some .minus) : '-' ∈ str := by
  have hread := text_scan_append_rest str
  rw [← hread, Scanned.text, h]
  simp [Sign.text]

theorem minus_mem_of_cString {str : List Char} (h : (scan (cString str)).sign = some .minus) :
    '-' ∈ str :=
  (List.takeWhile_prefix _).subset (minus_mem h)

/-- The overloads that call `sscanf` accept a number of the type with anything behind it. -/
theorem stoiScanned_value_iff {strto : Bool → List Char → Converted} {lo hi : ℤ}
    (hstrto : strto false (cString str) = convert lo hi false (scan (cString str))) :
    stoiScanned strto str = .value v ↔
      (scan (cString str)).digits ≠ [] ∧
        (lo ≤ (scan (cString str)).value ∧ (scan (cString str)).value ≤ hi) ∧
        v = (scan (cString str)).value := by
  have hrefused {P : Prop} (hP : ¬P) : Parsed.refused = .value v ↔ P :=
    iff_of_false (by simp) hP
  rw [stoiScanned, hstrto]
  by_cases hdigits : (scan (cString str)).digits = []
  · rw [if_pos hdigits]
    exact hrefused fun h ↦ h.1 hdigits
  rw [if_neg hdigits, convert, if_neg hdigits]
  by_cases hhi : hi < (scan (cString str)).value
  · rw [if_pos hhi]
    exact hrefused fun h ↦ hhi.not_ge h.2.1.2
  rw [if_neg hhi]
  by_cases hlo : (scan (cString str)).value < lo
  · rw [if_pos hlo]
    exact hrefused fun h ↦ hlo.not_ge h.2.1.1
  rw [if_neg hlo]
  constructor
  · intro h
    exact ⟨hdigits, ⟨not_lt.mp hlo, not_lt.mp hhi⟩, (Parsed.value.inj h).symm⟩
  · rintro ⟨-, -, rfl⟩
    rfl

theorem stoiScanned_ne_undefined {strto : Bool → List Char → Converted} :
    stoiScanned strto str ≠ .undefined := by
  unfold stoiScanned
  split
  · simp
  · dsimp only
    split <;> simp

theorem text_eq_iff : (scan (cString str)).text = str ↔ (scan str).text = str := by
  constructor
  · intro h
    exact (cString_of_length (congrArg List.length h)).2
  · intro h
    rw [cString_of_text h, h]

theorem strtoul_eq (h : '-' ∉ str) (erange : Bool) :
    strtoul erange (cString str) = convert 0 ULONG_MAX erange (scan (cString str)) := by
  rw [strtoul, if_neg fun hminus ↦ h (minus_mem_of_cString hminus.1)]

end

end

/-! ### What is misread -/

/-- The numbers that a conversion may have ended at. -/
def StoiType.extremes : StoiType → List ℤ
  | .char | .short | .int | .long | .longLong => [LONG_MAX, LONG_MIN]
  | .unsignedChar | .unsignedShort | .unsignedInt | .unsignedLong | .unsignedLongLong => [ULONG_MAX]

/-- What the overloads that call `strtol` or `strtoul` misread: the empty string; white space or a
plus sign in front of a number; a zero with a minus sign; and an extreme number after an earlier
`ERANGE`. -/
def MisreadChecked (T : StoiType) (erange : Bool) (str : List Char) : Prop :=
  str = [] ∨
    (scan str).text = str ∧ (scan str).digits ≠ [] ∧ T.format.Holds (scan str).value ∧
      if (scan str).value ∈ T.extremes ∧ erange = true then
        (scan str).spaces = [] ∧ (scan str).sign ≠ some .plus
      else if (scan str).value = 0 then
        (scan str).spaces = [] ∧ (scan str).sign = some .minus ∧ T.format.signed = true
      else (scan str).spaces ≠ [] ∨ (scan str).sign = some .plus

/-- What the overloads that call `sscanf` misread: a number with anything but its digits and a minus
sign. -/
def MisreadScanned (T : StoiType) (str : List Char) : Prop :=
  (scan (cString str)).digits ≠ [] ∧ T.format.Holds (scan (cString str)).value ∧
    (T.format.signed = true ∨ '-' ∉ str) ∧
    ¬((scan (cString str)).text = str ∧ (scan (cString str)).spaces = [] ∧
      (scan (cString str)).sign ≠ some .plus)

/-- The strings that an overload misreads. -/
def Misread (T : StoiType) (erange : Bool) (str : List Char) : Prop :=
  match T with
  | .longLong | .unsignedLongLong => MisreadScanned T str
  | _ => MisreadChecked T erange str

section

variable {T : StoiType} {lo hi : ℤ} {erange : Bool} {str : List Char}

theorem zero_notMem_extremes (T : StoiType) : 0 ∉ T.extremes := by
  cases T <;> decide

/-- An unsigned numeral has no minus sign. -/
theorem not_denotes_of_minus (hT : T.format.signed = false) (h : '-' ∈ str) (v : ℤ) :
    ¬Denotes T str v := by
  rintro ⟨isNegative, digits, rfl, -, hdigits, hsigned, -⟩
  cases isNegative with
  | true => exact Bool.false_ne_true (hT.symm.trans (hsigned rfl))
  | false => exact Bool.false_ne_true (hdigits '-' h)

/-- The strings that a call checks as it should. -/
theorem accurate_stoiChecked_iff (hlo : ∀ v, T.format.Holds v → lo ≤ v ∧ v ≤ hi)
    (hhi : hi ∈ T.extremes) (hsat : lo ≤ (scan (cString str)).value ∨ lo ∈ T.extremes)
    (hminus : (scan str).sign = some .minus → T.format.signed = true) :
    Accurate T str (stoiChecked T T.extremes (convert lo hi erange (scan (cString str))) str) ↔
      ¬MisreadChecked T erange str := by
  rw [Accurate, ne_eq, stoiChecked_undefined (zero_notMem_extremes T)]
  simp only [stoiChecked_value_iff hlo hhi hsat, denotes_iff]
  have hsign := sign_cases (scan str)
  constructor
  · rintro ⟨hne, h⟩ hmisread
    have hvalue := h (scan str).value
    obtain rfl | ⟨htext, hdigits, hholds, hmisread⟩ := hmisread
    · exact hne rfl
    · split_ifs at hmisread with hstale hzero <;> grind
  · intro h
    rw [MisreadChecked, not_or] at h
    refine ⟨h.1, fun v ↦ ?_⟩
    grind

theorem accurate_refused (hT : T.format.signed = false) (h : '-' ∈ str) :
    Accurate T str .refused :=
  ⟨by simp, fun v ↦ iff_of_false (by simp) (not_denotes_of_minus hT h v)⟩

theorem not_misreadChecked_of_minus (hT : T.format.signed = false) (h : '-' ∈ str) :
    ¬MisreadChecked T erange str := by
  rintro (rfl | ⟨htext, hdigits, hholds, hmisread⟩)
  · cases h
  · have hsign : (scan str).sign = some .minus := sign_of_minus_mem (by rwa [htext])
    have hlower : T.format.lower = 0 := by rw [IntFormat.lower, hT, if_neg Bool.false_ne_true]
    have hzero : (scan str).value = 0 :=
      le_antisymm (Scanned.value_nonpos hsign) (hlower ▸ hholds.1)
    rw [if_neg fun h ↦ zero_notMem_extremes T (hzero ▸ h.1), if_pos hzero, hT] at hmisread
    exact Bool.false_ne_true hmisread.2.2

theorem accurate_stoiScanned_iff {strto : Bool → List Char → Converted}
    (hstrto : strto false (cString str) = convert lo hi false (scan (cString str)))
    (hholds : ∀ v, T.format.Holds v ↔ lo ≤ v ∧ v ≤ hi)
    (hminus : (scan str).sign = some .minus → T.format.signed = true)
    (hstr : T.format.signed = true ∨ '-' ∉ str) :
    Accurate T str (stoiScanned strto str) ↔ ¬MisreadScanned T str := by
  rw [Accurate, MisreadScanned, text_eq_iff]
  simp only [stoiScanned_value_iff hstrto, ← hholds, denotes_iff]
  by_cases htext : (scan str).text = str
  · rw [cString_of_text htext]
    constructor
    · rintro ⟨-, h⟩
      have hvalue := h (scan str).value
      grind
    · intro h
      refine ⟨stoiScanned_ne_undefined, fun v ↦ ?_⟩
      grind
  · constructor
    · rintro ⟨-, h⟩
      have hvalue := h (scan (cString str)).value
      grind
    · intro h
      refine ⟨stoiScanned_ne_undefined, fun v ↦ ?_⟩
      grind

theorem stoiSigned_eq (hT : T.extremes = [LONG_MAX, LONG_MIN]) :
    stoiSigned T erange str =
      stoiChecked T T.extremes (convert LONG_MIN LONG_MAX erange (scan (cString str))) str := by
  rw [stoiSigned, strtol, hT]

theorem stoiUnsigned_eq (hT : T.extremes = [ULONG_MAX]) (h : '-' ∉ str) :
    stoiUnsigned T erange str =
      stoiChecked T T.extremes (convert 0 ULONG_MAX erange (scan (cString str))) str := by
  simp only [stoiUnsigned, if_neg h, strtoul_eq h, hT]

/-- The overloads that call `strtol`. -/
theorem accurate_stoiSigned_iff (hT : T.extremes = [LONG_MAX, LONG_MIN])
    (hsigned : T.format.signed = true)
    (hholds : ∀ v, T.format.Holds v → LONG_MIN ≤ v ∧ v ≤ LONG_MAX) :
    (Accurate T str (stoiSigned T erange str) ↔ ¬MisreadChecked T erange str) ∧
      ∀ v, stoiSigned T erange str = .value v → v = (scan (cString str)).value := by
  have hhi : LONG_MAX ∈ T.extremes := by simp [hT]
  have hlo : LONG_MIN ∈ T.extremes := by simp [hT]
  rw [stoiSigned_eq hT]
  refine ⟨accurate_stoiChecked_iff hholds hhi (.inr hlo) fun _ ↦ hsigned, fun v h ↦ ?_⟩
  obtain ⟨-, htext, -, -, -, -, rfl⟩ := (stoiChecked_value_iff hholds hhi (.inr hlo)).mp h
  rw [cString_of_text htext]

/-- The overloads that call `strtoul`. -/
theorem accurate_stoiUnsigned_iff (hT : T.extremes = [ULONG_MAX]) (hsigned : T.format.signed = false)
    (hholds : ∀ v, T.format.Holds v → 0 ≤ v ∧ v ≤ ULONG_MAX) :
    (Accurate T str (stoiUnsigned T erange str) ↔ ¬MisreadChecked T erange str) ∧
      ∀ v, stoiUnsigned T erange str = .value v → v = (scan (cString str)).value := by
  by_cases h : '-' ∈ str
  · have hrefused : stoiUnsigned T erange str = .refused := if_pos h
    rw [hrefused]
    exact ⟨iff_of_true (accurate_refused hsigned h) (not_misreadChecked_of_minus hsigned h), nofun⟩
  · have hhi : ULONG_MAX ∈ T.extremes := by simp [hT]
    have hnonneg : 0 ≤ (scan (cString str)).value :=
      Scanned.value_nonneg fun hminus ↦ h (minus_mem_of_cString hminus)
    rw [stoiUnsigned_eq hT h]
    refine ⟨accurate_stoiChecked_iff hholds hhi (.inl hnonneg)
      fun hminus ↦ absurd (minus_mem hminus) h, fun v hv ↦ ?_⟩
    obtain ⟨-, htext, -, -, -, -, rfl⟩ := (stoiChecked_value_iff hholds hhi (.inl hnonneg)).mp hv
    rw [cString_of_text htext]

/-- The numbers of the widest types are those that the conversions yield. -/
theorem holds_long_iff {f : IntFormat} (hf : f = ⟨64, true, IntFormat.sixtyFour_pos⟩) (v : ℤ) :
    f.Holds v ↔ LONG_MIN ≤ v ∧ v ≤ LONG_MAX := by
  have hlower : f.lower = LONG_MIN := by rw [hf]; rfl
  have hupper : f.upper = 2 ^ 63 := by rw [hf]; rfl
  rw [IntFormat.Holds, hlower, hupper, LONG_MAX]
  omega

theorem holds_unsignedLong_iff {f : IntFormat} (hf : f = ⟨64, false, IntFormat.sixtyFour_pos⟩) (v : ℤ) :
    f.Holds v ↔ 0 ≤ v ∧ v ≤ ULONG_MAX := by
  have hlower : f.lower = 0 := by rw [hf]; rfl
  have hupper : f.upper = 2 ^ 64 := by rw [hf]; rfl
  rw [IntFormat.Holds, hlower, hupper, ULONG_MAX]
  omega

/-- Each overload is accurate on the strings that it does not misread, and what it accepts is the
number that is read. -/
theorem stoi_spec (T : StoiType) (erange : Bool) (str : List Char) :
    (Accurate T str (stoi T erange str) ↔ ¬Misread T erange str) ∧
      ∀ v, stoi T erange str = .value v → v = (scan (cString str)).value := by
  have hlong {v : ℤ} {f : IntFormat} (hsigned : f.signed = true) (hwidth : f.width ≤ 64)
      (h : f.Holds v) : LONG_MIN ≤ v ∧ v ≤ LONG_MAX :=
    (holds_long_iff rfl v).mp (h.mono hsigned hwidth)
  have hunsignedLong {v : ℤ} {f : IntFormat} (hsigned : f.signed = false) (hwidth : f.width ≤ 64)
      (h : f.Holds v) : 0 ≤ v ∧ v ≤ ULONG_MAX :=
    (holds_unsignedLong_iff rfl v).mp (h.mono hsigned hwidth)
  cases T with
  | char | short | int | long =>
    exact accurate_stoiSigned_iff rfl rfl fun v ↦ hlong rfl (by decide)
  | unsignedChar | unsignedShort | unsignedInt | unsignedLong =>
    exact accurate_stoiUnsigned_iff rfl rfl fun v ↦ hunsignedLong rfl (by decide)
  | longLong =>
    exact ⟨accurate_stoiScanned_iff rfl (holds_long_iff rfl) (fun _ ↦ rfl) (.inl rfl),
      fun v h ↦ ((stoiScanned_value_iff rfl).mp h).2.2⟩
  | unsignedLongLong =>
    by_cases h : '-' ∈ str
    · have hrefused : stoi .unsignedLongLong erange str = .refused := if_pos h
      rw [hrefused]
      exact ⟨iff_of_true (accurate_refused rfl h) fun hmisread ↦
        hmisread.2.2.1.elim Bool.false_ne_true fun hnot ↦ hnot h, nofun⟩
    · have hscanned : stoi .unsignedLongLong erange str = stoiScanned strtoul str := if_neg h
      rw [hscanned]
      exact ⟨accurate_stoiScanned_iff (strtoul_eq h false) (holds_unsignedLong_iff rfl)
        (fun hminus ↦ absurd (minus_mem hminus) h) (.inr h),
        fun v hv ↦ ((stoiScanned_value_iff (strtoul_eq h false)).mp hv).2.2⟩

/-- **Strings converted to integers.** Exactly the strings that are not misread are accepted or
refused as they should be, and the overloads agree on what they accept. -/
theorem stoi_accurate_iff (T : StoiType) (erange : Bool) (str : List Char) :
    (Accurate T str (stoi T erange str) ↔ ¬Misread T erange str) ∧
      ∀ T' erange' v v', stoi T erange str = .value v → stoi T' erange' str = .value v' →
        v = v' := by
  refine ⟨(stoi_spec T erange str).1, ?_⟩
  intro T' erange' v v' h h'
  rw [(stoi_spec T erange str).2 v h, (stoi_spec T' erange' str).2 v' h']

/-- `5x` is accepted as `5` by the overload for `long long`. -/
theorem not_accurate_trailing :
    ¬∀ (T : StoiType) (erange : Bool) (str : List Char), Accurate T str (stoi T erange str) := by
  intro h
  have hvalue : stoi .longLong false ['5', 'x'] = .value 5 := by decide
  have htext := (denotes_iff.mp (((h .longLong false ['5', 'x']).2 5).mp hvalue)).1
  exact absurd htext (by decide)

end

end Safrn.Util
