import Mathlib.Algebra.Order.Ring.Int
import Mathlib.Data.List.TakeWhile
import Mathlib.Data.Rat.Lemmas
import Safrn.Base.Euclid
import Safrn.Json.Value
import Safrn.Setup.CsvLines

/-!
# Fractions of a query

Models `GCDReducedFraction`, `RationalFraction` and `Polynomial` of `JSON/Query`, with the splitting
of a fraction into its tokens (`Util/StringUtils.cpp:17-61`). The sign of the divisor by which a
fraction is reduced alternates with the divisions of Euclid's algorithm, so a negative fraction may
be stored with a negative denominator.
-/

namespace Safrn.Json

open Safrn.Base
open Safrn.Setup (Text isspace)

/-! ### Arithmetic of `intmax_t` -/

/-- `INTMAX_MAX`. -/
def intmaxMax : Int := 2 ^ 63 - 1

/-- A quotient is undefined for a zero divisor and when it overflows; then its remainder is too. -/
def divides? (a b : Int) : Bool := b ≠ 0 && !(a < -intmaxMax && b = -1)

/-- `a / b`. -/
def quotient (a b : Int) : Except Fault Int :=
  if divides? a b then .ok (a.tdiv b) else .error .undefinedBehaviour

/-- `a % b`. -/
def remainder (a b : Int) : Except Fault Int :=
  if divides? a b then .ok (a.tmod b) else .error .undefinedBehaviour

theorem remainder_ok {a b r : Int} (h : remainder a b = .ok r) : r = a.tmod b := by
  rw [remainder] at h
  split at h
  · exact (Except.ok.inj h).symm
  · contradiction

/-! ### Fractions -/

/-- `GCDReducedFraction`. -/
structure GCDReducedFraction where
  gcd : Int
  numerator : Int
  denominator : Int
  deriving DecidableEq

/-- `GCDReducedFraction::calculateGCD`. -/
def calculateGCD (a b : Int) : Except Fault Int :=
  if a = 0 then .ok b
  else
    match _h : remainder b a with
    | .error fault => .error fault
    | .ok r => calculateGCD r a
termination_by a.natAbs
decreasing_by
  rw [remainder_ok _h, Int.natAbs_tmod]
  exact Nat.mod_lt _ (Int.natAbs_pos.mpr ‹_›)

/-- The constructor of `GCDReducedFraction`. -/
def GCDReducedFraction.new (numerator denominator : Int) : Except Fault GCDReducedFraction := do
  let gcd ← calculateGCD numerator denominator
  return ⟨gcd, ← quotient numerator gcd, ← quotient denominator gcd⟩

/-- `std::string::find`: what stands before the first occurrence of the token and behind it. -/
def findToken (token : Text) : Text → Option (Text × Text)
  | [] => if token = [] then some ([], []) else none
  | c :: rest =>
    if token.isPrefixOf (c :: rest) then some ([], (c :: rest).drop token.length)
    else (findToken token rest).map fun (before, behind) ↦ (c :: before, behind)

/-- `ExtractTokenNWithDefault`, with what stands behind the tokens already skipped. -/
def extractTokenNWithDefault (target token defaultToken : Text) : Nat → Text
  | 0 =>
    match findToken token target with
    | none => target
    | some (before, _) => before
  | n + 1 =>
    match findToken token target with
    | none => defaultToken
    | some (_, behind) => extractTokenNWithDefault behind token defaultToken n

/-- `std::stoll`: white space, a sign, and as many digits as there are. -/
def stoll (s : Text) : Except Fault Int :=
  let s := s.dropWhile isspace
  let negative := s.head? = some '-'
  let s := if s.head? = some '-' ∨ s.head? = some '+' then s.tail else s
  let digits := s.takeWhile Char.isDigit
  let magnitude : Int := Nat.ofDigitChars 10 digits 0
  let value := if negative then -magnitude else magnitude
  if digits = [] then .error .invalidArgument
  else if -intmaxMax - 1 ≤ value ∧ value ≤ intmaxMax then .ok value
  else .error .outOfRange

namespace RationalFraction

/-- The constructor of `RationalFraction`. -/
def ofJson (json : Value) : Except Fault GCDReducedFraction := do
  let target := (← json.toText).toList
  let numerator ← stoll (extractTokenNWithDefault target ['/'] ['1'] 0)
  let denominator ← stoll (extractTokenNWithDefault target ['/'] ['1'] 1)
  GCDReducedFraction.new numerator denominator

/-- `operator==` with an integer. -/
def eqLiteral (f : GCDReducedFraction) (literal : Int) : Bool :=
  f.denominator == 1 && f.numerator == literal

/-- `operator==`. -/
def eq (f literal : GCDReducedFraction) : Bool :=
  f.numerator == literal.numerator && f.denominator == literal.denominator

end RationalFraction

/-- `Polynomial<RationalFraction>`. -/
structure Polynomial where
  coefficients : List GCDReducedFraction

namespace Polynomial

/-- `coefficientsFromJson`. -/
def ofJson (json : Value) : Except Fault Polynomial :=
  match json.items.getLast? with
  | none => .error .notEnoughCoefficients
  | some back => do
    if RationalFraction.eqLiteral (← RationalFraction.ofJson back) 0 then .error .lastElementZero
    else return ⟨← json.items.mapM RationalFraction.ofJson⟩

/-- `IsIdentity`. -/
def isIdentity (p : Polynomial) : Bool :=
  match p.coefficients with
  | [a, b] => RationalFraction.eqLiteral a 0 && RationalFraction.eqLiteral b 1
  | _ => false

end Polynomial

/-! ### What is stored -/

/-- The absolute value fits the type. -/
def Fits (x : Int) : Prop := -intmaxMax ≤ x ∧ x ≤ intmaxMax

instance (x : Int) : Decidable (Fits x) := inferInstanceAs (Decidable (_ ∧ _))

theorem divides?_of_fits {a b : Int} (ha : Fits a) (hb : b ≠ 0) : divides? a b = true := by
  simp [divides?, hb, Int.not_lt.mpr ha.1]

theorem calculateGCD_eq {a b : Int} (ha : Fits a) (hb : Fits b) :
    calculateGCD a b = .ok (signedGcd a b) := by
  induction a, b using signedGcd.induct with
  | case1 b => rw [calculateGCD, if_pos rfl, signedGcd_zero]
  | case2 a b hne ih =>
    have hrem : remainder b a = .ok (b.tmod a) := if_pos (divides?_of_fits hb hne)
    have hlt : (b.tmod a).natAbs < a.natAbs := by
      rw [Int.natAbs_tmod]
      exact Nat.mod_lt _ (Int.natAbs_pos.mpr hne)
    have hfits : Fits (b.tmod a) := by
      unfold Fits at ha ⊢
      omega
    rw [calculateGCD, if_neg hne, signedGcd_of_ne_zero hne]
    split
    · next fault hfault =>
      rw [hrem] at hfault
      contradiction
    · next r hr =>
      rw [hrem] at hr
      obtain rfl := Except.ok.inj hr
      exact ih hfits ha

/-- The sign of the divisor of a fraction, apart from that of the denominator. -/
def divisorSign (r : ℚ) : Int := if Even (divisions r.num.natAbs r.den) then 1 else r.num.sign

theorem divisorSign_eq (r : ℚ) : divisorSign r = 1 ∨ divisorSign r = -1 := by
  rw [divisorSign]
  split
  · exact .inl rfl
  · next hodd =>
    rcases lt_trichotomy r.num 0 with hneg | hzero | hpos
    · exact .inr (Int.sign_eq_neg_one_of_neg hneg)
    · rw [hzero, Int.natAbs_zero, divisions_zero] at hodd
      exact absurd Even.zero hodd
    · exact .inl (Int.sign_eq_one_of_pos hpos)

theorem divisorSign_mul_self (r : ℚ) : divisorSign r * divisorSign r = 1 := by
  rcases divisorSign_eq r with h | h <;> rw [h] <;> rfl

/-- The divisor of a fraction is its common factor, up to the sign. -/
theorem signedGcd_mul {c : Int} (hc : c ≠ 0) (r : ℚ) :
    signedGcd (c * r.num) (c * r.den) = c * divisorSign r := by
  have hcoprime : Int.gcd r.num r.den = 1 := r.reduced
  have hden : Int.sign (r.den : Int) = 1 :=
    Int.sign_eq_one_of_pos (Int.natCast_pos.mpr r.pos)
  have hdivisions : divisions (c * r.num).natAbs (c * r.den).natAbs =
      divisions r.num.natAbs r.den := by
    rw [Int.natAbs_mul, Int.natAbs_mul, Int.natAbs_natCast,
      divisions_mul (Int.natAbs_pos.mpr hc)]
  rw [signedGcd_eq, hdivisions, Int.gcd_mul_left, hcoprime, Nat.mul_one, divisorSign]
  split
  · rw [Int.sign_mul, hden, Int.mul_one, Int.sign_mul_natAbs, Int.mul_one]
  · calc (c * r.num).sign * (c.natAbs : Int) = c.sign * c.natAbs * r.num.sign := by
          rw [Int.sign_mul, Int.mul_right_comm]
      _ = c * r.num.sign := by rw [Int.sign_mul_natAbs]

/-- A fraction is stored by its value: reduced, with the sign of its divisor taken out. -/
theorem new_eq {p q : Int} (hp : Fits p) (hq : Fits q) (hne : q ≠ 0) :
    GCDReducedFraction.new p q = .ok
      { gcd := signedGcd p q
        numerator := divisorSign ((p : ℚ) / q) * ((p : ℚ) / q).num
        denominator := divisorSign ((p : ℚ) / q) * ((p : ℚ) / q).den } := by
  rw [GCDReducedFraction.new, calculateGCD_eq hp hq, ok_bind]
  obtain ⟨c, hpc, hqc⟩ := Rat.exists_eq_mul_div_num_and_eq_mul_div_den p hne
  generalize (p : ℚ) / q = r at hpc hqc ⊢
  have hc : c ≠ 0 := by
    rintro rfl
    exact hne (hqc.trans (Int.zero_mul _))
  have hgcd : signedGcd p q = c * divisorSign r := by
    rw [hpc, hqc]
    exact signedGcd_mul hc r
  have hsign : divisorSign r ≠ 0 := by
    rcases divisorSign_eq r with h | h <;> rw [h] <;> decide
  have hgcd_ne : signedGcd p q ≠ 0 := by
    rw [hgcd]
    exact Int.mul_ne_zero hc hsign
  -- the sign squares to one
  have hquotient : ∀ x y : Int, Fits x → x = c * y →
      quotient x (signedGcd p q) = .ok (divisorSign r * y) := by
    intro x y hx hxy
    have hfactor : x = divisorSign r * y * (c * divisorSign r) := by
      calc x = c * y * (divisorSign r * divisorSign r) := by
            rw [divisorSign_mul_self, Int.mul_one, hxy]
        _ = divisorSign r * y * (c * divisorSign r) := by ring
    rw [quotient, if_pos (divides?_of_fits hx hgcd_ne)]
    congr 1
    rw [hgcd] at hgcd_ne ⊢
    conv_lhs => rw [hfactor]
    exact Int.mul_tdiv_cancel _ hgcd_ne
  rw [hquotient p r.num hp hpc, hquotient q r.den hq hqc]
  rfl

/-! ### Reduced fractions -/

/-- A rational as it is to be stored: in lowest terms, over a positive denominator. -/
def Represents (f : GCDReducedFraction) (r : ℚ) : Prop :=
  0 < f.denominator ∧ Int.gcd f.numerator f.denominator = 1 ∧
    (f.numerator : ℚ) / f.denominator = r

/-- The sign that a fraction is stored with. -/
theorem divisorSign_of_num_nonneg {r : ℚ} (h : 0 ≤ r.num) : divisorSign r = 1 := by
  rcases divisorSign_eq r with hone | hneg
  · exact hone
  · rw [divisorSign] at hneg
    split at hneg
    · contradiction
    · exact absurd (Int.sign_eq_neg_one_iff_neg.mp hneg) (Int.not_lt.mpr h)

theorem divisorSign_eq_one_iff (r : ℚ) :
    divisorSign r = 1 ↔ 0 ≤ r.num ∨ Even (divisions r.num.natAbs r.den) := by
  constructor
  · intro h
    by_contra hne
    obtain ⟨hneg, hodd⟩ := not_or.mp hne
    rw [divisorSign, if_neg hodd, Int.sign_eq_one_iff_pos] at h
    exact hneg h.le
  · rintro (h | h)
    · exact divisorSign_of_num_nonneg h
    · rw [divisorSign, if_pos h]

/-- A fraction is stored right when its divisor is positive. -/
theorem represents_iff {g : Int} (r : ℚ) :
    Represents ⟨g, divisorSign r * r.num, divisorSign r * r.den⟩ r ↔ divisorSign r = 1 := by
  have hden : (0 : Int) < r.den := Int.natCast_pos.mpr r.pos
  constructor
  · rintro ⟨hpos, -, -⟩
    rcases divisorSign_eq r with h | h
    · exact h
    · simp only [h] at hpos
      omega
  · intro h
    refine ⟨?_, ?_, ?_⟩
    · simpa [h] using r.pos
    · rw [h, Int.one_mul, Int.one_mul]
      exact r.reduced
    · simpa [h] using r.num_div_den

/-- Two stored fractions are equal when their values are. -/
theorem eq_iff {g g' : Int} (r r' : ℚ) :
    RationalFraction.eq ⟨g, divisorSign r * r.num, divisorSign r * r.den⟩
      ⟨g', divisorSign r' * r'.num, divisorSign r' * r'.den⟩ = true ↔ r = r' := by
  simp only [RationalFraction.eq, Bool.and_eq_true, beq_iff_eq]
  constructor
  · rintro ⟨hnum, hden⟩
    have hr : (0 : Int) < r.den := Int.natCast_pos.mpr r.pos
    have hr' : (0 : Int) < r'.den := Int.natCast_pos.mpr r'.pos
    -- the denominators give the signs away
    have hsign : divisorSign r = divisorSign r' := by
      rcases divisorSign_eq r with h | h <;> rcases divisorSign_eq r' with h' | h' <;>
        rw [h, h'] at hden ⊢ <;> omega
    have hne : divisorSign r' ≠ 0 := by
      rcases divisorSign_eq r' with h | h <;> rw [h] <;> decide
    rw [hsign] at hnum hden
    apply Rat.ext
    · exact Int.eq_of_mul_eq_mul_left hne hnum
    · exact Int.natCast_inj.mp (Int.eq_of_mul_eq_mul_left hne hden)
  · rintro rfl
    exact ⟨rfl, rfl⟩

/-- Only `-1` is not recognized: it is stored as `1 / -1`. -/
theorem eqLiteral_iff {g : Int} (r : ℚ) (n : Int) :
    RationalFraction.eqLiteral ⟨g, divisorSign r * r.num, divisorSign r * r.den⟩ n = true ↔
      r = n ∧ n ≠ -1 := by
  simp only [RationalFraction.eqLiteral, Bool.and_eq_true, beq_iff_eq]
  constructor
  · rintro ⟨hden, hnum⟩
    have hr : (0 : Int) < r.den := Int.natCast_pos.mpr r.pos
    have hone : divisorSign r = 1 := by
      rcases divisorSign_eq r with h | h
      · exact h
      · rw [h] at hden
        omega
    rw [hone, Int.one_mul] at hden hnum
    have hvalue : r = n := by
      rw [← Rat.num_div_den r, hnum, Int.natCast_inj.mp hden]
      simp
    refine ⟨hvalue, ?_⟩
    rintro rfl
    -- one division, and a number below zero
    rw [hvalue, divisorSign_eq_one_iff, Rat.num_intCast, Rat.den_intCast, Int.natAbs_neg,
      Int.natAbs_one, divisions_of_ne_zero Nat.one_ne_zero, Nat.mod_one, divisions_zero] at hone
    exact absurd hone (by decide)
  · rintro ⟨rfl, hne⟩
    have hone : divisorSign (n : ℚ) = 1 := by
      rw [divisorSign_eq_one_iff, Rat.num_intCast, Rat.den_intCast]
      by_cases hn : 0 ≤ n
      · exact .inl hn
      · -- one division by the number, one by the one that it leaves
        have habs : 1 < n.natAbs := by omega
        rw [divisions_of_ne_zero (by omega), Nat.mod_eq_of_lt habs,
          divisions_of_ne_zero (by decide), Nat.mod_one, divisions_zero]
        exact .inr (by decide)
    simp [hone]

/-! ### A fraction in a text -/

theorem findToken_of_not_mem {t : Char} {s : Text} (h : t ∉ s) : findToken [t] s = none := by
  induction s with
  | nil => rfl
  | cons c rest ih =>
    have hne : t ≠ c := by
      rintro rfl
      exact h List.mem_cons_self
    have hrest : t ∉ rest := fun hmem ↦ h (List.mem_cons_of_mem c hmem)
    simp [findToken, hne, ih hrest]

theorem findToken_append {t : Char} {s : Text} (h : t ∉ s) (rest : Text) :
    findToken [t] (s ++ t :: rest) = some (s, rest) := by
  induction s with
  | nil => simp [findToken]
  | cons c s ih =>
    have hne : t ≠ c := by
      rintro rfl
      exact h List.mem_cons_self
    have hs : t ∉ s := fun hmem ↦ h (List.mem_cons_of_mem c hmem)
    simp [findToken, hne, ih hs]

/-- The digits of a number. -/
def digits (n : Nat) : Text := Nat.toDigits 10 n

theorem isDigit_of_mem_digits {n : Nat} {c : Char} (h : c ∈ digits n) : c.isDigit = true :=
  Nat.isDigit_of_mem_toDigits (by decide) (by decide) h

theorem takeWhile_digits (n : Nat) : (digits n).takeWhile Char.isDigit = digits n :=
  List.takeWhile_eq_self_iff.mpr fun _ hc ↦ isDigit_of_mem_digits hc

theorem toList_toString (p : Int) :
    (toString p).toList = if 0 ≤ p then digits p.toNat else '-' :: digits (-p).toNat := by
  rw [Int.toString_eq_repr, Int.repr_eq_if]
  split <;> simp [digits]

theorem slash_not_mem_toString (p : Int) : '/' ∉ (toString p).toList := by
  rw [toList_toString]
  intro h
  split at h
  · exact absurd (isDigit_of_mem_digits h) (by decide)
  · rcases List.mem_cons.mp h with h | h
    · exact absurd h (by decide)
    · exact absurd (isDigit_of_mem_digits h) (by decide)

/-- The first digit of a number is neither white space nor a sign. -/
theorem digits_cons (n : Nat) : ∃ c rest, digits n = c :: rest ∧ isspace c = false ∧ c ≠ '-' ∧
    c ≠ '+' := by
  obtain ⟨c, rest, hcons⟩ := List.exists_cons_of_ne_nil (Nat.toDigits_ne_nil (n := n) (b := 10))
  have hdigit : c.isDigit = true := by
    apply isDigit_of_mem_digits (n := n)
    rw [digits, hcons]
    exact List.mem_cons_self
  have hrange : 48 ≤ c.toNat ∧ c.toNat ≤ 57 := Char.isDigit_iff_toNat.mp hdigit
  refine ⟨c, rest, hcons, ?_, ?_, ?_⟩
  · have hspace : c ≠ ' ' := by
      rintro rfl
      exact absurd hdigit (by decide)
    simp [isspace, hspace]
    omega
  · rintro rfl
    exact absurd hdigit (by decide)
  · rintro rfl
    exact absurd hdigit (by decide)

/-- A printed number is read back. -/
theorem stoll_toString {p : Int} (hp : Fits p) : stoll (toString p).toList = .ok p := by
  unfold Fits at hp
  rw [toList_toString]
  split
  · next hnonneg =>
    obtain ⟨c, rest, hcons, hspace, hminus, hplus⟩ := digits_cons p.toNat
    have hvalue : Nat.ofDigitChars 10 (digits p.toNat) 0 = p.toNat := Nat.ofDigitChars_ten_toDigits
    have hdigits := takeWhile_digits p.toNat
    rw [hcons] at hvalue hdigits ⊢
    simp only [stoll, List.dropWhile_cons, hspace, List.head?_cons, Option.some.injEq, hminus,
      hplus, or_self, if_false, hdigits, hvalue, Bool.false_eq_true, reduceCtorEq]
    rw [Int.toNat_of_nonneg hnonneg, if_pos ⟨by omega, hp.2⟩]
  · next hneg =>
    obtain ⟨c, rest, hcons, hspace, hminus, hplus⟩ := digits_cons (-p).toNat
    have hvalue : Nat.ofDigitChars 10 (digits (-p).toNat) 0 = (-p).toNat :=
      Nat.ofDigitChars_ten_toDigits
    have hdigits := takeWhile_digits (-p).toNat
    rw [hcons] at hvalue hdigits ⊢
    have hminusSpace : isspace '-' = false := by decide
    simp only [stoll, List.dropWhile_cons, hminusSpace, List.head?_cons, List.tail_cons, true_or,
      if_true, if_false, hdigits, hvalue, Bool.false_eq_true, reduceCtorEq]
    rw [Int.toNat_of_nonneg (by omega), Int.neg_neg, if_pos ⟨by omega, hp.2⟩]

/-- What a query gives for a fraction of two numbers. -/
theorem ofJson_fraction {p q : Int} (hp : Fits p) (hq : Fits q) :
    RationalFraction.ofJson (.string (toString p ++ "/" ++ toString q)) =
      GCDReducedFraction.new p q := by
  have hsplit : (toString p ++ "/" ++ toString q).toList =
      (toString p).toList ++ '/' :: (toString q).toList := by
    simp
  have hfirst := findToken_append (slash_not_mem_toString p) (toString q).toList
  have hlast := findToken_of_not_mem (slash_not_mem_toString q)
  simp only [RationalFraction.ofJson, Value.toText, ok_bind, hsplit, extractTokenNWithDefault,
    hfirst, hlast, stoll_toString hp, stoll_toString hq]

/-- What a query gives for a number alone. -/
theorem ofJson_number {n : Int} (hn : Fits n) :
    RationalFraction.ofJson (.string (toString n)) = GCDReducedFraction.new n 1 := by
  have hnone := findToken_of_not_mem (slash_not_mem_toString n)
  have hone : stoll ['1'] = .ok 1 := by decide
  simp only [RationalFraction.ofJson, Value.toText, ok_bind, extractTokenNWithDefault, hnone,
    stoll_toString hn, hone]

/-! ### Fractions of a query -/

/-- The fraction of two numbers, as a query gives it. -/
def fraction (p q : Int) : Value := .string (toString p ++ "/" ++ toString q)

/-- A zero denominator is rejected. Another fraction is reduced and compares by its value. -/
def StoresReduced (p q : Int) : Prop :=
  if q = 0 then Throws (RationalFraction.ofJson (fraction p q))
  else
    ∃ f, RationalFraction.ofJson (fraction p q) = .ok f ∧ Represents f ((p : ℚ) / q) ∧
      (∀ p' q' f', Fits p' → Fits q' → q' ≠ 0 →
        RationalFraction.ofJson (fraction p' q') = .ok f' →
          (RationalFraction.eq f f' = true ↔ (p : ℚ) / q = (p' : ℚ) / q')) ∧
      (∀ n f', Fits n → RationalFraction.ofJson (.string (toString n)) = .ok f' →
          (RationalFraction.eq f f' = true ↔ (p : ℚ) / q = n)) ∧
      ∀ n : Int, RationalFraction.eqLiteral f n = true ↔ (p : ℚ) / q = n

theorem fits_one : Fits 1 := by decide

/-- A positive divisor is all that a fraction needs. -/
theorem storesReduced_iff_divisorSign {p q : Int} (hp : Fits p) (hq : Fits q) (hne : q ≠ 0) :
    StoresReduced p q ↔ divisorSign ((p : ℚ) / q) = 1 := by
  have hnew := new_eq hp hq hne
  rw [StoresReduced, if_neg hne, fraction, ofJson_fraction hp hq, hnew]
  constructor
  · rintro ⟨f, hf, hrep, -⟩
    obtain rfl := Except.ok.inj hf
    exact (represents_iff _).mp hrep
  · intro hsign
    refine ⟨_, rfl, (represents_iff _).mpr hsign, ?_, ?_, ?_⟩
    · intro p' q' f' hp' hq' hne' hf'
      rw [fraction, ofJson_fraction hp' hq', new_eq hp' hq' hne'] at hf'
      obtain rfl := Except.ok.inj hf'
      exact eq_iff _ _
    · intro n f' hn hf'
      rw [ofJson_number hn, new_eq hn fits_one Int.one_ne_zero] at hf'
      obtain rfl := Except.ok.inj hf'
      rw [eq_iff, Int.cast_one, div_one]
    · intro n
      rw [eqLiteral_iff, and_iff_left_iff_imp]
      rintro hvalue rfl
      rw [hvalue, divisorSign_eq_one_iff, Rat.num_intCast, Rat.den_intCast, Int.natAbs_neg,
        Int.natAbs_one, divisions_of_ne_zero Nat.one_ne_zero, Nat.mod_one, divisions_zero] at hsign
      exact absurd hsign (by decide)

theorem not_storesReduced_zero {p : Int} (hp : Fits p) : ¬StoresReduced p 0 := by
  rw [StoresReduced, if_pos rfl, fraction, ofJson_fraction hp (by decide),
    GCDReducedFraction.new, calculateGCD_eq hp (by decide)]
  rintro ⟨fault, hfault, hne⟩
  by_cases hzero : p = 0
  · rw [hzero, signedGcd_zero] at hfault
    exact hne (Except.error.inj hfault).symm
  · have hgcd : signedGcd p 0 = p := by
      rw [signedGcd_of_ne_zero hzero, Int.zero_tmod, signedGcd_zero]
    have hquotient : ∀ x, Fits x → quotient x p = .ok (x.tdiv p) :=
      fun x hx ↦ if_pos (divides?_of_fits hx hzero)
    rw [hgcd, ok_bind, hquotient p hp, hquotient 0 (by decide)] at hfault
    contradiction

/-- A fraction is stored reduced unless its denominator is zero, or it is negative and Euclid's
algorithm makes an odd number of divisions. -/
theorem storesReduced_iff {p q : Int} (hp : Fits p) (hq : Fits q) :
    StoresReduced p q ↔
      q ≠ 0 ∧ (0 ≤ p * q ∨ Even (divisions p.natAbs q.natAbs)) := by
  by_cases hne : q = 0
  · subst hne
    exact iff_of_false (not_storesReduced_zero hp) fun h ↦ h.1 rfl
  · rw [storesReduced_iff_divisorSign hp hq hne, divisorSign_eq_one_iff, and_iff_right hne]
    obtain ⟨c, hpc, hqc⟩ := Rat.exists_eq_mul_div_num_and_eq_mul_div_den p hne
    generalize (p : ℚ) / q = r at hpc hqc ⊢
    have hc : c ≠ 0 := by
      rintro rfl
      exact hne (hqc.trans (Int.zero_mul _))
    have hden : (0 : Int) < r.den := Int.natCast_pos.mpr r.pos
    have hsign : 0 ≤ p * q ↔ 0 ≤ r.num := by
      have hproduct : p * q = c * c * r.den * r.num := by
        rw [hpc, hqc]
        ring
      have hpos : 0 < c * c * r.den := mul_pos (mul_self_pos.mpr hc) hden
      rw [hproduct, mul_nonneg_iff_of_pos_left hpos]
    have hdivisions : divisions p.natAbs q.natAbs = divisions r.num.natAbs r.den := by
      rw [hpc, hqc, Int.natAbs_mul, Int.natAbs_mul, Int.natAbs_natCast,
        divisions_mul (Int.natAbs_pos.mpr hc)]
    rw [hsign, hdivisions]

theorem divisions_two_three : divisions 2 3 = 2 := by
  rw [divisions_of_ne_zero (by decide), divisions_of_ne_zero (by decide), divisions_zero]

theorem storesReduced_neg_two_thirds : StoresReduced (-2) 3 := by
  refine (storesReduced_iff (by decide) (by decide)).mpr ⟨by decide, .inr ?_⟩
  exact divisions_two_three ▸ (by decide : Even 2)

/-- The half below zero has a negative denominator, and no denominator is rejected. -/
theorem not_storesReduced_neg_half : ¬StoresReduced (-1) 2 ∧ ¬StoresReduced 1 0 := by
  refine ⟨?_, not_storesReduced_zero (by decide)⟩
  have hvalue : ((-1 : Int) : ℚ) / (2 : Int) = Rat.divInt (-1) 2 := (Rat.divInt_eq_div _ _).symm
  have hnum : (Rat.divInt (-1) 2).num = -1 := by decide
  have hden : (Rat.divInt (-1) 2).den = 2 := by decide
  rw [storesReduced_iff_divisorSign (by decide) (by decide) (by decide), hvalue,
    divisorSign_eq_one_iff, hnum, hden, Int.natAbs_neg, Int.natAbs_one,
    divisions_of_ne_zero Nat.one_ne_zero, Nat.mod_one, divisions_zero]
  decide

/-! ### Polynomials -/

/-- The fraction gives the rational. -/
def HasValue (json : Value) (r : ℚ) : Prop :=
  ∃ p q : Int, Fits p ∧ Fits q ∧ q ≠ 0 ∧ json = fraction p q ∧ r = (p : ℚ) / q

/-- How a rational is stored, apart from the divisor. -/
def StoredAs (f : GCDReducedFraction) (r : ℚ) : Prop :=
  f.numerator = divisorSign r * r.num ∧ f.denominator = divisorSign r * r.den

theorem StoredAs.eqLiteral_iff {f : GCDReducedFraction} {r : ℚ} (h : StoredAs f r) (n : Int) :
    RationalFraction.eqLiteral f n = true ↔ r = n ∧ n ≠ -1 := by
  obtain ⟨g, a, b⟩ := f
  obtain ⟨rfl, rfl⟩ := h
  exact Json.eqLiteral_iff r n

theorem HasValue.storedAs {json : Value} {r : ℚ} {f : GCDReducedFraction} (hvalue : HasValue json r)
    (hf : RationalFraction.ofJson json = .ok f) : StoredAs f r := by
  obtain ⟨p, q, hp, hq, hne, rfl, rfl⟩ := hvalue
  rw [fraction, ofJson_fraction hp hq, new_eq hp hq hne] at hf
  obtain rfl := Except.ok.inj hf
  exact ⟨rfl, rfl⟩

theorem storedAs_mapM {jsons : List Value} {rs : List ℚ} {fs : List GCDReducedFraction}
    (hvalues : List.Forall₂ HasValue jsons rs)
    (hfs : jsons.mapM RationalFraction.ofJson = .ok fs) : List.Forall₂ StoredAs fs rs := by
  induction hvalues generalizing fs with
  | nil =>
    obtain rfl := Except.ok.inj hfs
    exact .nil
  | cons hvalue _ ih =>
    rw [List.mapM_cons] at hfs
    obtain ⟨f, hf, hrest⟩ := bind_eq_ok.mp hfs
    obtain ⟨rest, htail, hcons⟩ := bind_eq_ok.mp hrest
    obtain rfl := Except.ok.inj hcons
    exact .cons (hvalue.storedAs hf) (ih htail)

/-- The identity is recognized by the values of its coefficients: neither of them is `-1`. -/
theorem isIdentity_iff {jsons : List Value} {rs : List ℚ} {poly : Polynomial}
    (hvalues : List.Forall₂ HasValue jsons rs) (h : Polynomial.ofJson (.array jsons) = .ok poly) :
    poly.isIdentity = true ↔ rs = [0, 1] := by
  rw [Polynomial.ofJson, Value.items] at h
  split at h
  · contradiction
  · obtain ⟨back, -, h⟩ := bind_eq_ok.mp h
    split at h
    · contradiction
    · obtain ⟨fs, hfs, hpoly⟩ := bind_eq_ok.mp h
      obtain rfl := Except.ok.inj hpoly
      have hstored := storedAs_mapM hvalues hfs
      match fs, rs, hstored with
      | [], [], _ => simp [Polynomial.isIdentity]
      | [_], [_], _ => simp [Polynomial.isIdentity]
      | [a, b], [r, r'], .cons ha (.cons hb .nil) =>
        simp [Polynomial.isIdentity, ha.eqLiteral_iff, hb.eqLiteral_iff]
      | _ :: _ :: _ :: _, _ :: _ :: _ :: _, _ => simp [Polynomial.isIdentity]

end Safrn.Json
