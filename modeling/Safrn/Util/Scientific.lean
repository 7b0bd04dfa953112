import Mathlib.Data.List.Basic

/-!
# Scientific notation

Models `RemoveScientificNotation` (`Util/string_utils.cpp:41-46` and `:246-406`), which writes a
number with an exponent as a product with a power of ten. Which strings `Stod` accepts is a
parameter.
-/

namespace Safrn.Util

def isDigit (c : Char) : Bool :=
  ['0', '1', '2', '3', '4', '5', '6', '7', '8', '9'].contains c

/-- The letter of an exponent. -/
def IsExponent (c : Char) : Prop := c = 'e' ∨ c = 'E'

instance decidableIsExponent : DecidablePred IsExponent := fun c ↦
  inferInstanceAs (Decidable (c = 'e' ∨ c = 'E'))

/-- A digit or a point. -/
def IsNumeral (c : Char) : Prop := c = '.' ∨ isDigit c = true

instance decidableIsNumeral : DecidablePred IsNumeral := fun c ↦
  inferInstanceAs (Decidable (c = '.' ∨ isDigit c = true))

/-- A sign or a digit. -/
def StartsExponent (c : Char) : Prop := c = '+' ∨ c = '-' ∨ isDigit c = true

instance decidableStartsExponent : DecidablePred StartsExponent := fun c ↦
  inferInstanceAs (Decidable (c = '+' ∨ c = '-' ∨ isDigit c = true))

/-- The loop that looks for the start of the mantissa, backwards: how far it goes. -/
def mantissaLength : List Char → Bool → ℕ
  | [], _ => 0
  | c :: input, hasDecimalBefore =>
    if c = '.' then
      if hasDecimalBefore then 0 else mantissaLength input true + 1
    else if isDigit c then mantissaLength input hasDecimalBefore + 1
    else 0

/-- The exponent with its sign, and what follows it. -/
def exponentOf : List Char → List Char × List Char
  | [] => ([], [])
  | c :: input =>
    if c = '+' ∨ c = '-' then (c :: input.takeWhile isDigit, input.dropWhile isDigit)
    else ((c :: input).takeWhile isDigit, (c :: input).dropWhile isDigit)

/-- `RemoveScientificNotationInternal`: what is done with, and what is left. -/
def removeScientificNotationInternal (stodAccepts : List Char → Bool) (input : List Char) :
    List Char × List Char :=
  match input.findIdx? fun c ↦ IsExponent c with
  | none => (input, [])
  | some expPos =>
    let skip := (input.take (expPos + 1), input.drop (expPos + 1))
    if expPos = 0 then skip
    else if expPos = input.length - 1 then (input, [])
    else
      let nextChar := input.getD (expPos + 1) ' '
      let prevChar := input.getD (expPos - 1) ' '
      if ¬StartsExponent nextChar then skip
      else if ¬IsNumeral prevChar then skip
      else
        let before := input.take expPos
        let length := mantissaLength before.reverse false
        let base := before.drop (before.length - length)
        if base.any isDigit = false then skip
        else
          let (exponent, suffix) := exponentOf (input.drop (expPos + 1))
          if exponent.any isDigit = false then skip
          else if stodAccepts base = false then (input, [])
          else
            -- a plus sign is left out
            let exp := if exponent.head? = some '+' then exponent.tail else exponent
            (before.take (before.length - length) ++ base ++ ['*', '1', '0', '^', '('] ++ exp ++
              [')'], suffix)

/-- The loop of `RemoveScientificNotation`; each round shortens what is left. -/
def removeScientificNotationLoop (stodAccepts : List Char → Bool) : ℕ → List Char → List Char
  | 0, _ => []
  | fuel + 1, input =>
    if input = [] then []
    else
      let (done, suffix) := removeScientificNotationInternal stodAccepts input
      done ++ removeScientificNotationLoop stodAccepts fuel suffix

def removeScientificNotation (stodAccepts : List Char → Bool) (input : List Char) : List Char :=
  removeScientificNotationLoop stodAccepts (input.length + 1) input

/-! ### A round -/

section Round

variable {accepts : List Char → Bool} {v w : List Char} {e : Char}

theorem internal_of_none (h : ∀ c ∈ v, ¬IsExponent c) :
    removeScientificNotationInternal accepts v = (v, []) := by
  have hnone : v.findIdx? (fun c ↦ decide (IsExponent c)) = none := by
    rw [List.findIdx?_eq_none_iff]
    exact fun c hc ↦ decide_eq_false (h c hc)
  rw [removeScientificNotationInternal, hnone]

/-- The round that meets the letter `e` behind `v` and in front of `w`. -/
theorem internal_eq (hv : ∀ c ∈ v, ¬IsExponent c) (he : IsExponent e) :
    removeScientificNotationInternal accepts (v ++ e :: w) =
      if v = [] ∨ w = [] ∨ ¬StartsExponent (w.headD ' ') ∨ ¬IsNumeral (v.getLastD ' ') then
        (v ++ [e], w)
      else
        let base := v.drop (v.length - mantissaLength v.reverse false)
        if base.any isDigit = false then (v ++ [e], w)
        else
          let (exponent, suffix) := exponentOf w
          if exponent.any isDigit = false then (v ++ [e], w)
          else if accepts base = false then (v ++ e :: w, [])
          else
            let exp := if exponent.head? = some '+' then exponent.tail else exponent
            (v ++ ['*', '1', '0', '^', '('] ++ exp ++ [')'], suffix) := by
  have hfind : (v ++ e :: w).findIdx? (fun c ↦ decide (IsExponent c)) = some v.length := by
    have hnone : v.findIdx? (fun c ↦ decide (IsExponent c)) = none := by
      rw [List.findIdx?_eq_none_iff]
      exact fun c hc ↦ decide_eq_false (hv c hc)
    rw [List.findIdx?_append, hnone, List.findIdx?_cons, if_pos (decide_eq_true he),
      Option.map_some, Nat.zero_add]
    rfl
  have htake : (v ++ e :: w).take (v.length + 1) = v ++ [e] := by
    rw [List.take_append, List.take_of_length_le (Nat.le_succ _), Nat.add_sub_cancel_left]
    rfl
  have hdrop : (v ++ e :: w).drop (v.length + 1) = w := by
    rw [← List.drop_drop, List.drop_left]
    rfl
  rw [removeScientificNotationInternal, hfind]
  simp only [htake, hdrop, List.take_left]
  by_cases hnil : v = []
  · simp [hnil]
  have hlength : v.length ≠ 0 := fun h ↦ hnil (List.length_eq_zero_iff.mp h)
  rw [if_neg hlength]
  by_cases hw : w = []
  · simp [hw]
  have hlast : ¬v.length = (v ++ e :: w).length - 1 := by
    have hpos := List.length_pos_iff.mpr hw
    rw [List.length_append, List.length_cons]
    omega
  have hnext : (v ++ e :: w).getD (v.length + 1) ' ' = w.headD ' ' := by
    have hindex : v.length + 1 - v.length = 0 + 1 := Nat.add_sub_cancel_left _ _
    rw [List.getD_eq_getElem?_getD, List.getElem?_append_right (Nat.le_add_right _ 1), hindex,
      List.getElem?_cons_succ, ← List.head?_eq_getElem?, List.headD_eq_head?_getD]
  have hprev : (v ++ e :: w).getD (v.length - 1) ' ' = v.getLastD ' ' := by
    rw [List.getD_eq_getElem?_getD, List.getElem?_append_left (Nat.sub_one_lt hlength),
      ← List.getLast?_eq_getElem?, List.getLastD_eq_getLast?]
  rw [if_neg hlast, hnext, hprev]
  by_cases hstart : StartsExponent (w.headD ' ')
  · by_cases hnumeral : IsNumeral (v.getLastD ' ')
    · have hskip : ¬(v = [] ∨ w = [] ∨ ¬StartsExponent (w.headD ' ') ∨
          ¬IsNumeral (v.getLastD ' ')) := by
        rw [not_or, not_or, not_or, not_not, not_not]
        exact ⟨hnil, hw, hstart, hnumeral⟩
      rw [if_neg (not_not.mpr hstart), if_neg (not_not.mpr hnumeral), if_neg hskip]
      simp only [List.take_append_drop]
    · rw [if_neg (not_not.mpr hstart), if_pos hnumeral, if_pos (.inr (.inr (.inr hnumeral)))]
  · rw [if_pos hstart, if_pos (.inr (.inr (.inl hstart)))]

end Round

/-! ### Texts and numbers -/

/-- No letter of an exponent stands between a mantissa and what may be an exponent. -/
def Quiet : List Char → Prop
  | a :: b :: c :: rest =>
    ¬(IsNumeral a ∧ IsExponent b ∧ StartsExponent c) ∧ Quiet (b :: c :: rest)
  | _ => True

/-- A number with an exponent. -/
structure SciNumber where
  base : List Char
  letter : Char
  sign : List Char
  digits : List Char

namespace SciNumber

variable (n : SciNumber)

def text : List Char := n.base ++ n.letter :: (n.sign ++ n.digits)

/-- What is written instead of the number. -/
def rewritten : List Char :=
  n.base ++ ['*', '1', '0', '^', '('] ++ (if n.sign = ['+'] then [] else n.sign) ++ n.digits ++
    [')']

structure Valid (accepts : List Char → Bool) : Prop where
  base : ∀ c ∈ n.base, IsNumeral c
  point : n.base.count '.' ≤ 1
  digit : ∃ c ∈ n.base, isDigit c = true
  accepted : accepts n.base = true
  letter : IsExponent n.letter
  sign : n.sign = [] ∨ n.sign = ['+'] ∨ n.sign = ['-']
  digits : n.digits ≠ [] ∧ ∀ c ∈ n.digits, isDigit c = true

end SciNumber

/-- The formula of texts that numbers follow, and a last text. -/
def formula : List (List Char × SciNumber) → List Char → List Char
  | [], last => last
  | (u, n) :: parts, last => u ++ n.text ++ formula parts last

/-- The formula with the numbers rewritten. -/
def rewrittenFormula : List (List Char × SciNumber) → List Char → List Char
  | [], last => last
  | (u, n) :: parts, last => u ++ n.rewritten ++ rewrittenFormula parts last

/-- The parts are told apart: no text ends like a mantissa, or goes on like an exponent. -/
def Separated (accepts : List Char → Bool) : List (List Char × SciNumber) → List Char → Prop
  | [], last => Quiet last
  | (u, n) :: parts, last =>
    Quiet (u ++ n.base) ∧ (∀ c ∈ u.getLast?, ¬IsNumeral c) ∧ n.Valid accepts ∧
      (∀ c ∈ (formula parts last).head?, isDigit c = false) ∧ Separated accepts parts last

section Texts

variable {accepts : List Char → Bool} {u v w s rest : List Char} {e : Char} {n : SciNumber}

theorem Quiet.tail {a : Char} (h : Quiet (a :: s)) : Quiet s := by
  match s, h with
  | [], _ => trivial
  | [_], _ => trivial
  | _ :: _ :: _, h => exact h.2

theorem Quiet.of_append (h : Quiet (v ++ s)) : Quiet s := by
  induction v with
  | nil => exact h
  | cons a v ih => exact ih h.tail

/-- What a letter that is no exponent stands between. -/
theorem Quiet.letter (h : Quiet (v ++ e :: w)) (he : IsExponent e) :
    v = [] ∨ w = [] ∨ ¬StartsExponent (w.headD ' ') ∨ ¬IsNumeral (v.getLastD ' ') := by
  obtain rfl | ⟨v, a, rfl⟩ := List.eq_nil_or_concat v
  · exact .inl rfl
  cases w with
  | nil => exact .inr (.inl rfl)
  | cons c w =>
    rw [List.concat_eq_append, List.append_assoc, List.singleton_append] at h
    have hwindow := h.of_append.1
    rw [List.concat_eq_append, List.getLastD_eq_getLast?, List.getLast?_append_of_ne_nil _
      (List.cons_ne_nil a []), List.headD_cons]
    by_cases hnumeral : IsNumeral a
    · exact .inr (.inr (.inl fun hstart ↦ hwindow ⟨hnumeral, he, hstart⟩))
    · exact .inr (.inr (.inr hnumeral))

theorem exists_letter (h : ∃ c ∈ s, IsExponent c) :
    ∃ v e w, s = v ++ e :: w ∧ (∀ c ∈ v, ¬IsExponent c) ∧ IsExponent e := by
  induction s with
  | nil =>
    obtain ⟨c, hc, -⟩ := h
    cases hc
  | cons c s ih =>
    by_cases hc : IsExponent c
    · exact ⟨[], c, s, rfl, fun d hd ↦ absurd hd List.not_mem_nil, hc⟩
    · obtain ⟨d, hd, he⟩ := h
      obtain rfl | hd := List.mem_cons.mp hd
      · exact absurd he hc
      · obtain ⟨v, e, w, rfl, hv, he⟩ := ih ⟨d, hd, he⟩
        exact ⟨c :: v, e, w, rfl, List.forall_mem_cons.mpr ⟨hc, hv⟩, he⟩

theorem loop_nil (fuel : ℕ) : removeScientificNotationLoop accepts fuel [] = [] := by
  cases fuel <;> rfl

theorem loop_succ {fuel : ℕ} (hs : s ≠ []) :
    removeScientificNotationLoop accepts (fuel + 1) s =
      (removeScientificNotationInternal accepts s).1 ++
        removeScientificNotationLoop accepts fuel
          (removeScientificNotationInternal accepts s).2 := by
  rw [removeScientificNotationLoop, if_neg hs]

/-- A letter that is no exponent is kept. -/
theorem loop_letter {fuel : ℕ} (hv : ∀ c ∈ v, ¬IsExponent c) (he : IsExponent e)
    (h : v = [] ∨ w = [] ∨ ¬StartsExponent (w.headD ' ') ∨ ¬IsNumeral (v.getLastD ' ')) :
    removeScientificNotationLoop accepts (fuel + 1) (v ++ e :: w) =
      v ++ e :: removeScientificNotationLoop accepts fuel w := by
  rw [loop_succ (by simp), internal_eq hv he, if_pos h]
  simp

/-- A text without exponents stays. -/
theorem loop_quiet {fuel : ℕ} (h : Quiet s) (hfuel : s.length < fuel) :
    removeScientificNotationLoop accepts fuel s = s := by
  induction fuel generalizing s with
  | zero => exact absurd hfuel (Nat.not_lt_zero _)
  | succ fuel ih =>
    by_cases hs : s = []
    · rw [hs, loop_nil]
    by_cases hletter : ∃ c ∈ s, IsExponent c
    · obtain ⟨v, e, w, rfl, hv, he⟩ := exists_letter hletter
      have hw : Quiet w := (h.of_append (v := v)).tail
      rw [List.length_append, List.length_cons] at hfuel
      rw [loop_letter hv he (h.letter he), ih hw (by omega)]
    · have hnone : ∀ c ∈ s, ¬IsExponent c := fun c hc he ↦ hletter ⟨c, hc, he⟩
      rw [loop_succ hs, internal_of_none hnone, loop_nil, List.append_nil]

/-! A number. -/

theorem not_isExponent_of_isNumeral {c : Char} (h : IsNumeral c) : ¬IsExponent c := by
  rintro (rfl | rfl) <;> exact absurd h (by decide)

theorem mantissaLength_append {r : List Char} {hasDecimal : Bool} (hs : ∀ c ∈ s, IsNumeral c)
    (hpoint : s.count '.' + hasDecimal.toNat ≤ 1) (hr : ∀ c ∈ r.head?, ¬IsNumeral c) :
    mantissaLength (s ++ r) hasDecimal = s.length := by
  induction s generalizing hasDecimal with
  | nil =>
    cases r with
    | nil => rfl
    | cons c r =>
      have hc := hr c rfl
      have hpoint : ¬c = '.' := fun h ↦ hc (.inl h)
      have hdigit : ¬isDigit c = true := fun h ↦ hc (.inr h)
      rw [List.nil_append, mantissaLength, if_neg hpoint, if_neg hdigit]
      rfl
  | cons c s ih =>
    obtain ⟨hc, hs⟩ := List.forall_mem_cons.mp hs
    rw [List.cons_append, mantissaLength]
    by_cases hdot : c = '.'
    · rw [hdot, List.count_cons_self] at hpoint
      cases hasDecimal with
      | true => exact absurd hpoint (by rw [Bool.toNat_true]; omega)
      | false =>
        rw [if_pos hdot, if_neg Bool.false_ne_true, ih hs (by rw [Bool.toNat_true]; omega)]
        rfl
    · rw [List.count_cons_of_ne hdot] at hpoint
      rw [if_neg hdot, if_pos (hc.resolve_left hdot), ih hs hpoint]
      rfl

theorem exponentOf_append {sign digits : List Char}
    (hsign : sign = [] ∨ sign = ['+'] ∨ sign = ['-'])
    (hdigits : digits ≠ [] ∧ ∀ c ∈ digits, isDigit c = true)
    (hrest : ∀ c ∈ rest.head?, isDigit c = false) :
    exponentOf (sign ++ digits ++ rest) = (sign ++ digits, rest) := by
  have htake : (digits ++ rest).takeWhile isDigit = digits := by
    rw [List.takeWhile_append_of_pos hdigits.2]
    cases rest with
    | nil => simp
    | cons c rest => simp [hrest c rfl]
  have hdrop : (digits ++ rest).dropWhile isDigit = rest := by
    rw [List.dropWhile_append_of_pos hdigits.2]
    cases rest with
    | nil => rfl
    | cons c rest => simp [hrest c rfl]
  obtain rfl | rfl | rfl := hsign
  · obtain ⟨c, digits, rfl⟩ := List.exists_cons_of_ne_nil hdigits.1
    have hc := hdigits.2 c List.mem_cons_self
    have hplus : ¬(c = '+' ∨ c = '-') := by
      rintro (rfl | rfl) <;> exact absurd hc (by decide)
    rw [List.nil_append, List.cons_append, exponentOf, if_neg hplus, ← List.cons_append, htake,
      hdrop]
  · rw [List.append_assoc, List.singleton_append, exponentOf, if_pos (.inl rfl), htake, hdrop]
    rfl
  · rw [List.append_assoc, List.singleton_append, exponentOf, if_pos (.inr rfl), htake, hdrop]
    rfl

/-- The number that ends the text in front of the letter is rewritten. -/
theorem internal_number (hn : n.Valid accepts) (hu : ∀ c ∈ u, ¬IsExponent c)
    (hlast : ∀ c ∈ u.getLast?, ¬IsNumeral c) (hrest : ∀ c ∈ rest.head?, isDigit c = false) :
    removeScientificNotationInternal accepts (u ++ n.text ++ rest) = (u ++ n.rewritten, rest) := by
  have hsplit : u ++ n.text ++ rest =
      (u ++ n.base) ++ n.letter :: (n.sign ++ n.digits ++ rest) := by
    simp [SciNumber.text]
  have hletters : ∀ c ∈ u ++ n.base, ¬IsExponent c := by
    intro c hc
    exact (List.mem_append.mp hc).elim (hu c) fun hb ↦ not_isExponent_of_isNumeral (hn.base c hb)
  obtain ⟨d, hd, hdigit⟩ := hn.digit
  have hbase : n.base ≠ [] := List.ne_nil_of_mem hd
  have hlength : mantissaLength (u ++ n.base).reverse false = n.base.length := by
    rw [List.reverse_append, ← List.length_reverse]
    refine mantissaLength_append (fun c hc ↦ hn.base c (List.mem_reverse.mp hc)) ?_ ?_
    · rw [List.count_reverse]
      exact hn.point
    · rw [List.head?_reverse]
      exact hlast
  have hdrop : (u ++ n.base).drop ((u ++ n.base).length - n.base.length) = n.base := by
    rw [List.length_append, Nat.add_sub_cancel, List.drop_left]
  have hany : n.base.any isDigit = true := List.any_eq_true.mpr ⟨d, hd, hdigit⟩
  obtain ⟨c, digits, hcons⟩ := List.exists_cons_of_ne_nil hn.digits.1
  have hc : isDigit c = true := hn.digits.2 c (by rw [hcons]; exact List.mem_cons_self)
  have hexponent : (n.sign ++ n.digits).any isDigit = true :=
    List.any_eq_true.mpr ⟨c, by rw [hcons]; simp, hc⟩
  have hstart : StartsExponent ((n.sign ++ n.digits ++ rest).headD ' ') := by
    obtain h | h | h := hn.sign
    · rw [h, hcons]
      exact .inr (.inr hc)
    · rw [h]
      exact .inl rfl
    · rw [h]
      exact .inr (.inl rfl)
  have hnumeral : IsNumeral ((u ++ n.base).getLastD ' ') := by
    rw [List.getLastD_eq_getLast?, List.getLast?_append_of_ne_nil _ hbase,
      List.getLast?_eq_some_getLast hbase]
    exact hn.base _ (List.getLast_mem hbase)
  have hgo : ¬(u ++ n.base = [] ∨ n.sign ++ n.digits ++ rest = [] ∨
      ¬StartsExponent ((n.sign ++ n.digits ++ rest).headD ' ') ∨
        ¬IsNumeral ((u ++ n.base).getLastD ' ')) := by
    rw [not_or, not_or, not_or, not_not, not_not]
    refine ⟨fun h ↦ hbase (List.append_eq_nil_iff.mp h).2, fun h ↦ ?_, hstart, hnumeral⟩
    exact hn.digits.1 (List.append_eq_nil_iff.mp (List.append_eq_nil_iff.mp h).1).2
  rw [hsplit, internal_eq hletters hn.letter, if_neg hgo]
  simp only [hlength, hdrop, hany, exponentOf_append hn.sign hn.digits hrest, hexponent,
    hn.accepted, Bool.true_eq_false, if_false, SciNumber.rewritten]
  have hexp : (if (n.sign ++ n.digits).head? = some '+' then (n.sign ++ n.digits).tail
      else n.sign ++ n.digits) = (if n.sign = ['+'] then [] else n.sign) ++ n.digits := by
    obtain h | h | h := hn.sign
    · have hplus : ¬c = '+' := by
        rintro rfl
        exact absurd hc (by decide)
      rw [h, hcons]
      simp [hplus]
    · rw [h]
      rfl
    · rw [h]
      rfl
  rw [hexp]
  simp

/-- The rounds up to the number. -/
theorem loop_number {fuel : ℕ} (hn : n.Valid accepts) (hquiet : Quiet (u ++ n.base))
    (hlast : ∀ c ∈ u.getLast?, ¬IsNumeral c) (hrest : ∀ c ∈ rest.head?, isDigit c = false)
    (hfuel : (u ++ n.text ++ rest).length < fuel) :
    ∃ fuel', rest.length < fuel' ∧ removeScientificNotationLoop accepts fuel (u ++ n.text ++ rest) =
      u ++ n.rewritten ++ removeScientificNotationLoop accepts fuel' rest := by
  have hbase : n.base ≠ [] := by
    obtain ⟨d, hd, -⟩ := hn.digit
    exact List.ne_nil_of_mem hd
  induction fuel generalizing u with
  | zero => exact absurd hfuel (Nat.not_lt_zero _)
  | succ fuel ih =>
    by_cases hletter : ∃ c ∈ u, IsExponent c
    · obtain ⟨v, e, w, rfl, hv, he⟩ := exists_letter hletter
      have hassoc : v ++ e :: w ++ n.text ++ rest = v ++ e :: (w ++ n.text ++ rest) := by simp
      rw [List.append_assoc, List.cons_append] at hquiet
      have hskip : v = [] ∨ w ++ n.text ++ rest = [] ∨
          ¬StartsExponent ((w ++ n.text ++ rest).headD ' ') ∨ ¬IsNumeral (v.getLastD ' ') := by
        obtain h | h | h | h := hquiet.letter he
        · exact .inl h
        · exact absurd (List.append_eq_nil_iff.mp h).2 hbase
        · refine .inr (.inr (.inl ?_))
          have hhead : (w ++ n.text ++ rest).headD ' ' = (w ++ n.base).headD ' ' := by
            have hne : w ++ n.base ≠ [] := fun hnil ↦ hbase (List.append_eq_nil_iff.mp hnil).2
            obtain ⟨c, t, hct⟩ := List.exists_cons_of_ne_nil hne
            have htext : w ++ n.text ++ rest =
                (w ++ n.base) ++ (n.letter :: (n.sign ++ n.digits) ++ rest) := by
              simp [SciNumber.text]
            rw [htext, hct]
            rfl
          rwa [hhead]
        · exact .inr (.inr (.inr h))
      have hlast' : ∀ c ∈ w.getLast?, ¬IsNumeral c := by
        intro c hc
        refine hlast c ?_
        rw [List.getLast?_append_of_ne_nil _ (List.cons_ne_nil e w)]
        rw [List.getLast?_cons_of_ne_nil (by rintro rfl; cases hc)]
        exact hc
      rw [hassoc, List.length_append, List.length_cons] at hfuel
      obtain ⟨fuel', hfuel', hloop⟩ := ih (hquiet.of_append (v := v)).tail hlast' (by omega)
      refine ⟨fuel', hfuel', ?_⟩
      rw [hassoc, loop_letter hv he hskip, hloop]
      simp
    · have hu : ∀ c ∈ u, ¬IsExponent c := fun c hc he ↦ hletter ⟨c, hc, he⟩
      have hne : u ++ n.text ++ rest ≠ [] := by simp [SciNumber.text]
      refine ⟨fuel, ?_, ?_⟩
      · rw [List.length_append, List.length_append, SciNumber.text, List.length_append,
          List.length_cons] at hfuel
        omega
      · rw [loop_succ hne, internal_number hn hu hlast hrest]

end Texts

end Safrn.Util
