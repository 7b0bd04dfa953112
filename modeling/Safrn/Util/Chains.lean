import Mathlib.Tactic.NormNum
import Mathlib.Algebra.Field.Rat
import Safrn.Base.Quotients
import Safrn.Util.Printed

/-!
# Sums and products of several terms

`ParseExpression` makes a chain of terms a tree that is nested to the right, and exchanges the two
operators behind a minus sign or a division (`Util/data_structures.cpp:5533-5628`). Behind the next
one it exchanges them back, so that a term with an inverse operator two places in front of it goes
into the value with the wrong sign, or on the wrong side of the division.
-/

namespace Safrn.Util

open Safrn.Base

/-- What constants, variables and operations stand for. -/
structure Meaning (Double R : Type) where
  constant : Double → R
  varName : List Char → R
  unary : UnaryOperation → R → R
  binary : BinaryOperation → R → R → R

section Values

variable {Double R : Type}

def Expression.value (M : Meaning Double R) : Expression Double → R
  | .constant value => M.constant value
  | .variable varName => M.varName varName
  | .unary op e => M.unary op (e.value M)
  | .binary op e e' => M.binary op (e.value M) (e'.value M)

/-- The four operations of arithmetic stand for themselves. -/
structure Meaning.Arithmetic (M : Meaning Double ℚ) : Prop where
  add : M.binary .add = (· + ·)
  sub : M.binary .sub = (· - ·)
  mult : M.binary .mult = (· * ·)
  div : M.binary .div = (· / ·)

variable (C : Chain)

/-- The tree of a chain that is read from the left. -/
def leftNested (e : Expression Double) : List (ℕ × Expression Double) → Expression Double
  | [] => e
  | (i, e') :: l => leftNested (.binary (if i = 0 then C.operation else C.inverse) e e') l

/-- The tree that `ParseExpression` makes of a chain. -/
def rightNested (inverted : Bool) (e : Expression Double) :
    List (ℕ × Expression Double) → Expression Double
  | [] => e
  | (i, e') :: l =>
    .binary (if decide (i ≠ 0) = inverted then C.operation else C.inverse) e
      (rightNested (decide (i ≠ 0) ^^ inverted) e' l)

variable {C} {M : Meaning Double R} {e : Expression Double} {l : List (ℕ × Expression Double)}

theorem value_leftNested : (leftNested C e l).value M =
    fromLeft (M.binary C.operation) (M.binary C.inverse) (e.value M)
      (l.map fun p ↦ (decide (p.1 ≠ 0), p.2.value M)) := by
  induction l generalizing e with
  | nil => rfl
  | cons p l ih =>
    obtain ⟨i, e'⟩ := p
    rw [leftNested, ih, List.map_cons, fromLeft, Expression.value]
    by_cases hi : i = 0 <;> simp [hi]

theorem value_rightNested {inverted : Bool} : (rightNested C inverted e l).value M =
    fromRight (M.binary C.operation) (M.binary C.inverse) inverted (e.value M)
      (l.map fun p ↦ (decide (p.1 ≠ 0), p.2.value M)) := by
  induction l generalizing e inverted with
  | nil => rfl
  | cons p l ih =>
    obtain ⟨i, e'⟩ := p
    rw [rightNested, Expression.value, ih, List.map_cons, fromRight]
    split <;> rfl

end Values

/-! ### The tree -/

/-- The chains, with their operators. -/
def chains : List (Chain × List (List Char)) :=
  [(additive, [['+'], ['-']]), (multiplicative, [['*'], ['/']])]

section Tree

variable {Double : Type} {D : Doubles Double} {varNames : List (List Char)} {C : Chain}
  {ops : List (List Char)} {e : Expression Double} {l : List (ℕ × Expression Double)}

/-- The terms as they are printed, with the operators between them. -/
def chainString (D : Doubles Double) (ops : List (List Char)) (e : Expression Double)
    (l : List (ℕ × Expression Double)) : List Char :=
  chainText ops (getExpressionString D e) (l.map fun p ↦ (p.1, getExpressionString D p.2))

theorem operator_of_chains (hC : (C, ops) ∈ chains) {i : ℕ} (hi : i < 2) :
    ∃ o ∈ operatorChars, ops.getD i [] = [o] := by
  simp only [chains, List.mem_cons, List.not_mem_nil, or_false, Prod.mk.injEq] at hC
  rcases hC with ⟨-, rfl⟩ | ⟨-, rfl⟩
  · obtain rfl | rfl : i = 0 ∨ i = 1 := by omega
    · exact ⟨'+', by simp [operatorChars], rfl⟩
    · exact ⟨'-', by simp [operatorChars], rfl⟩
  · obtain rfl | rfl : i = 0 ∨ i = 1 := by omega
    · exact ⟨'*', by simp [operatorChars], rfl⟩
    · exact ⟨'/', by simp [operatorChars], rfl⟩

theorem removeAllWhitespace_operator {o : Char} (ho : o ∈ operatorChars) :
    removeAllWhitespace [o] = [o] := by
  simp only [operatorChars, List.mem_cons, List.not_mem_nil, or_false] at ho
  rcases ho with rfl | rfl | rfl | rfl | rfl | rfl | rfl | rfl | rfl | rfl <;>
    simp [removeAllWhitespace, isSpace]

theorem removeAllWhitespace_chainString (hC : (C, ops) ∈ chains) (hl : ∀ p ∈ l, p.1 < 2) :
    removeAllWhitespace (chainString D ops e l) =
      chainText ops (compact D e) (l.map fun p ↦ (p.1, compact D p.2)) := by
  rw [chainString]
  induction l generalizing e with
  | nil => rfl
  | cons p l ih =>
    obtain ⟨i, e'⟩ := p
    obtain ⟨hi, hl⟩ := List.forall_mem_cons.mp hl
    obtain ⟨o, ho, hoperator⟩ := operator_of_chains hC hi
    simp only [List.map_cons, chainText, removeAllWhitespace_append, hoperator,
      removeAllWhitespace_operator ho, ih hl]
    rfl

theorem isChain_chainText (hC : (C, ops) ∈ chains) (he : Readable D varNames e)
    (hl : ∀ p ∈ l, p.1 < 2 ∧ Readable D varNames p.2) :
    (chainText ops (compact D e) (l.map fun p ↦ (p.1, compact D p.2))).IsChain NoExponent := by
  induction l generalizing e with
  | nil => exact isChain_compact he
  | cons p l ih =>
    obtain ⟨i, e'⟩ := p
    obtain ⟨⟨hi, he'⟩, hl⟩ := List.forall_mem_cons.mp hl
    obtain ⟨o, ho, hoperator⟩ := operator_of_chains hC hi
    rw [List.map_cons, chainText, hoperator]
    exact isChain_between (isChain_compact he) (ih he' hl) (not_isNumeral_of_operatorChar ho)

theorem length_le_chainText (ops : List (List Char)) (a : List Char) (l : List (ℕ × List Char)) :
    a.length ≤ (chainText ops a l).length ∧
      ∀ p ∈ l, p.2.length ≤ (chainText ops a l).length := by
  induction l generalizing a with
  | nil => exact ⟨le_rfl, fun p hp ↦ absurd hp List.not_mem_nil⟩
  | cons p l ih =>
    obtain ⟨i, b⟩ := p
    obtain ⟨hb, hl⟩ := ih b
    have htail : (chainText ops b l).length ≤ (chainText ops a ((i, b) :: l)).length := by
      rw [chainText, List.length_append, List.length_append]
      omega
    refine ⟨?_, List.forall_mem_cons.mpr ⟨hb.trans htail, fun p hp ↦ (hl p hp).trans htail⟩⟩
    rw [chainText, List.length_append]
    exact Nat.le_add_right _ _

theorem length_lt_chainText (hC : (C, ops) ∈ chains) {a : List Char} {l : List (ℕ × List Char)}
    (hl : ∀ p ∈ l, p.1 < 2) (hne : l ≠ []) :
    a.length < (chainText ops a l).length ∧
      ∀ p ∈ l, p.2.length < (chainText ops a l).length := by
  obtain ⟨⟨i, b⟩, l, rfl⟩ := List.exists_cons_of_ne_nil hne
  obtain ⟨o, -, hoperator⟩ := operator_of_chains hC (List.forall_mem_cons.mp hl).1
  obtain ⟨hb, hrest⟩ := length_le_chainText ops b l
  have hlength : (chainText ops a ((i, b) :: l)).length =
      a.length + (1 + (chainText ops b l).length) := by
    rw [chainText, hoperator, List.length_append, List.length_append, List.length_singleton]
  refine ⟨by omega, List.forall_mem_cons.mpr ⟨?_, fun p hp ↦ ?_⟩⟩
  · simp only
    omega
  · have hle := hrest p hp
    omega

theorem parseChain_cons {parse : List Char → Option (Expression Double)} {inverted : Bool}
    {term : Term} {terms : List Term} (h : terms ≠ []) {e₁ e₂ : Expression Double}
    (he₁ : parse term.1 = some e₁)
    (he₂ : parseChain C parse terms (decide (term.2 ≠ some 0) ^^ inverted) = some e₂) :
    parseChain C parse (term :: terms) inverted =
      some (.binary (if decide (term.2 ≠ some 0) = inverted then C.operation else C.inverse)
        e₁ e₂) := by
  obtain ⟨t, ts, rfl⟩ := List.exists_cons_of_ne_nil h
  rw [parseChain, he₁]
  · simp only [Option.bind_eq_bind, Option.bind_some, he₂]
    rfl
  · exact h

theorem parseChain_chainTerms {parse : List Char → Option (Expression Double)} {inverted : Bool}
    (he : parse (compact D e) = some e) (hl : ∀ p ∈ l, parse (compact D p.2) = some p.2) :
    parseChain C parse (chainTerms (compact D e) (l.map fun p ↦ (p.1, compact D p.2))) inverted =
      some (rightNested C inverted e l) := by
  induction l generalizing e inverted with
  | nil => exact he
  | cons p l ih =>
    obtain ⟨i, e'⟩ := p
    obtain ⟨he', hl⟩ := List.forall_mem_cons.mp hl
    have hindex : decide (some i ≠ some 0) = decide (i ≠ 0) := by simp
    have hne : chainTerms (compact D e') (l.map fun p ↦ (p.1, compact D p.2)) ≠ [] := by
      cases l <;> exact List.cons_ne_nil _ _
    rw [List.map_cons, chainTerms, rightNested, ← hindex]
    exact parseChain_cons hne he (ih he' hl)

/-- The tree of a chain of printed terms. -/
theorem parseExpression_chainString (hC : (C, ops) ∈ chains) (hnamed : Named varNames)
    (he : Readable D varNames e) (hl : ∀ p ∈ l, p.1 < 2 ∧ Readable D varNames p.2) (hne : l ≠ [])
    (enforce : Bool) :
    parseExpression D true (chainString D ops e l) enforce varNames =
      some (rightNested C false e l) := by
  have htexts : ∀ p ∈ l.map fun p ↦ (p.1, compact D p.2), p.1 < 2 ∧ Printed p.2 := by
    intro p hp
    obtain ⟨q, hq, rfl⟩ := List.mem_map.mp hp
    exact ⟨(hl q hq).1, printed_compact (hl q hq).2⟩
  have hne' : l.map (fun p ↦ (p.1, compact D p.2)) ≠ [] := fun hnil ↦
    hne (List.map_eq_nil_iff.mp hnil)
  obtain ⟨hfirst, hrest⟩ := length_lt_chainText hC (a := compact D e)
    (fun p hp ↦ (htexts p hp).1) hne'
  have hcleaned : removeScientificNotation (fun s ↦ (D.stod s).isSome)
      (chainText ops (compact D e) (l.map fun p ↦ (p.1, compact D p.2))) =
        chainText ops (compact D e) (l.map fun p ↦ (p.1, compact D p.2)) :=
    loop_quiet (quiet_of_isChain (isChain_chainText hC he hl)) (Nat.lt_succ_self _)
  rw [parseExpression, if_pos rfl, removeAllWhitespace_chainString hC fun p hp ↦ (hl p hp).1]
  simp only [hcleaned, parseLoop]
  generalize (chainText ops (compact D e) (l.map fun p ↦ (p.1, compact D p.2))).length = fuel at *
  have hchain : parseChain C (parseLoop D enforce varNames fuel)
      (chainTerms (compact D e) (l.map fun p ↦ (p.1, compact D p.2))) false =
        some (rightNested C false e l) := parseChain_chainTerms (parseLoop_compact hnamed he hfirst)
    fun p hp ↦ parseLoop_compact hnamed (hl p hp).2 (hrest _ (List.mem_map_of_mem hp))
  simp only [chains, List.mem_cons, List.not_mem_nil, or_false, Prod.mk.injEq] at hC
  rcases hC with ⟨rfl, rfl⟩ | ⟨rfl, rfl⟩
  · exact (parseBody_sum (printed_compact he) htexts hne').trans hchain
  · exact (parseBody_product (printed_compact he) htexts hne').trans hchain

end Tree

/-! ### The value -/

section Value

variable {Double : Type} {D : Doubles Double} {varNames : List (List Char)} {C : Chain}
  {ops : List (List Char)}

/-- The operations of a chain, with what is neutral for them. -/
theorem exists_isQuotient (Double : Type) (hC : (C, ops) ∈ chains) : ∃ one g : ℚ, ∃ mul div : ℚ → ℚ → ℚ,
    IsQuotient one mul div ∧ div one g ≠ g ∧ (C.inverse = .div → one ≠ 0 ∧ g ≠ 0) ∧
      ∀ M : Meaning Double ℚ, M.Arithmetic → M.binary C.operation = mul ∧
        M.binary C.inverse = div := by
  simp only [chains, List.mem_cons, List.not_mem_nil, or_false, Prod.mk.injEq] at hC
  rcases hC with ⟨rfl, rfl⟩ | ⟨rfl, rfl⟩
  · exact ⟨0, 1, _, _, isQuotient_add ℚ, by norm_num, fun h ↦ (by cases h),
      fun M hM ↦ ⟨hM.add, hM.sub⟩⟩
  · exact ⟨1, 2, _, _, isQuotient_mul ℚ, by norm_num, fun _ ↦ by norm_num,
      fun M hM ↦ ⟨hM.mult, hM.div⟩⟩

/-- Where no operator but the last two inverts, a chain of printed terms is read with its value. -/
theorem value_parseExpression_chainString (hC : (C, ops) ∈ chains) (hnamed : Named varNames)
    {e : Expression Double} {l : List (ℕ × Expression Double)} (he : Readable D varNames e)
    (hl : ∀ p ∈ l, p.1 < 2 ∧ Readable D varNames p.2) (hne : l ≠ [])
    (hops : ∀ p ∈ l.dropLast.dropLast, p.1 = 0) (enforce : Bool) :
    ∃ t, parseExpression D true (chainString D ops e l) enforce varNames = some t ∧
      ∀ M : Meaning Double ℚ, M.Arithmetic → t.value M = (leftNested C e l).value M := by
  refine ⟨_, parseExpression_chainString hC hnamed he hl hne enforce, fun M hM ↦ ?_⟩
  obtain ⟨one, g, mul, div, hquotient, -, -, hM'⟩ := exists_isQuotient Double hC
  rw [value_rightNested, value_leftNested, (hM' M hM).1, (hM' M hM).2]
  refine fromRight_eq_fromLeft hquotient fun p hp ↦ ?_
  rw [← List.map_dropLast, ← List.map_dropLast] at hp
  obtain ⟨q, hq, rfl⟩ := List.mem_map.mp hp
  exact decide_eq_false (not_not.mpr (hops q hq))

/-- `x + 2 - x - exp(x)`. -/
theorem value_parseExpression_chainString_four :
    ∃ t, parseExpression integers true
        (chainString integers [['+'], ['-']] (.variable ['x'])
          [(0, .constant 2), (1, .variable ['x']), (1, .unary .exp (.variable ['x']))])
        true [['x']] = some t ∧
      ∀ M : Meaning ℤ ℚ, M.Arithmetic →
        t.value M = (leftNested additive (.variable ['x'])
          [(0, .constant 2), (1, .variable ['x']),
            (1, .unary .exp (.variable ['x']))]).value M := by
  have hx : Readable integers [['x']] (.variable ['x']) := .name plainText_x (by simp)
  refine value_parseExpression_chainString (by simp [chains]) (by simp [Named, IsNumeral, isDigit])
    hx ?_ (by simp) (by simp) true
  simp only [List.forall_mem_cons, List.not_mem_nil, false_implies, implies_true, and_true]
  exact ⟨⟨by decide, readable_two⟩, ⟨by decide, hx⟩, by decide,
    .call (show (UnaryOperation.exp, ['e', 'x', 'p']) ∈ calls by simp [calls]) hx⟩

/-- The arithmetic of rational numbers, with values for the variables. -/
def arithmetic (Double : Type) (ρ : List Char → ℚ) : Meaning Double ℚ where
  constant _ := 0
  varName := ρ
  unary _ x := x
  binary
    | .add, x, y => x + y
    | .sub, x, y => x - y
    | .mult, x, y => x * y
    | .div, x, y => x / y
    | _, _, _ => 0

theorem arithmetic_arithmetic (ρ : List Char → ℚ) : (arithmetic Double ρ).Arithmetic :=
  ⟨rfl, rfl, rfl, rfl⟩

/-- A chain of different variables is read with its value exactly if no operator but the last two
inverts. -/
theorem value_parseExpression_chain_iff (hC : (C, ops) ∈ chains) (hnamed : Named varNames)
    {x : List Char} {l : List (ℕ × List Char)} (hx : ∀ y ∈ x :: l.map Prod.snd,
      PlainText y ∧ y ∈ varNames) (hindex : ∀ p ∈ l, p.1 < 2) (hne : l ≠ [])
    (hnodup : (x :: l.map Prod.snd).Nodup) (enforce : Bool) :
    ∃ t, parseExpression D true
        (chainString D ops (.variable x) (l.map fun p ↦ (p.1, .variable p.2))) enforce varNames =
          some t ∧
      ((∀ M : Meaning Double ℚ, M.Arithmetic → (C.inverse = .div → ∀ y, M.varName y ≠ 0) →
          t.value M = (leftNested C (.variable x) (l.map fun p ↦ (p.1, .variable p.2))).value M) ↔
        ∀ p ∈ l.dropLast.dropLast, p.1 = 0) := by
  obtain ⟨hx, hl⟩ := List.forall_mem_cons.mp hx
  have hreadable : ∀ p ∈ l.map fun p ↦ (p.1, (.variable p.2 : Expression Double)),
      p.1 < 2 ∧ Readable D varNames p.2 := by
    intro p hp
    obtain ⟨q, hq, rfl⟩ := List.mem_map.mp hp
    obtain ⟨hplain, hmem⟩ := hl q.2 (List.mem_map_of_mem hq)
    exact ⟨hindex q hq, .name hplain hmem⟩
  refine ⟨_, parseExpression_chainString hC hnamed (.name hx.1 hx.2) hreadable
    (fun hnil ↦ hne (List.map_eq_nil_iff.mp hnil)) enforce, ?_⟩
  obtain ⟨one, g, mul, div, hquotient, hg, hzero, hM⟩ := exists_isQuotient Double hC
  have hmap : ∀ M : Meaning Double ℚ,
      (l.map fun p ↦ (p.1, (.variable p.2 : Expression Double))).map
        (fun p ↦ (decide (p.1 ≠ 0), p.2.value M)) =
      (l.map fun p ↦ (decide (p.1 ≠ 0), p.2)).map fun p ↦ (p.1, M.varName p.2) := by
    intro M
    rw [List.map_map, List.map_map]
    rfl
  constructor
  · intro h
    by_contra hnot
    have hnodup' : (x :: (l.map fun p ↦ (decide (p.1 ≠ 0), p.2)).map Prod.snd).Nodup := by
      rw [List.map_map]
      exact hnodup
    have hsome : ¬∀ p ∈ (l.map fun p ↦ (decide (p.1 ≠ 0), p.2)).dropLast.dropLast,
        p.1 = false := by
      refine fun hall ↦ hnot fun p hp ↦ ?_
      rw [← List.map_dropLast, ← List.map_dropLast] at hall
      exact not_not.mp (of_decide_eq_false (hall _ (List.mem_map_of_mem hp)))
    obtain ⟨ρ, hρ, hdiffer⟩ := exists_fromRight_ne hquotient hg hnodup' hsome
    have hvalue := h (arithmetic Double ρ) (arithmetic_arithmetic ρ) fun hdiv y ↦ by
      obtain ⟨hone, hg'⟩ := hzero hdiv
      obtain hy | hy := hρ y
      · exact (show ρ y ≠ 0 from hy ▸ hone)
      · exact (show ρ y ≠ 0 from hy ▸ hg')
    rw [value_rightNested, value_leftNested, hmap, (hM _ (arithmetic_arithmetic ρ)).1,
      (hM _ (arithmetic_arithmetic ρ)).2] at hvalue
    exact hdiffer hvalue
  · intro hops M hA _
    rw [value_rightNested, value_leftNested, (hM M hA).1, (hM M hA).2]
    refine fromRight_eq_fromLeft hquotient fun p hp ↦ ?_
    rw [hmap, ← List.map_dropLast, ← List.map_dropLast, ← List.map_dropLast,
      ← List.map_dropLast] at hp
    obtain ⟨q, hq, rfl⟩ := List.mem_map.mp hp
    obtain ⟨r, hr, rfl⟩ := List.mem_map.mp hq
    exact decide_eq_false (not_not.mpr (hops r hr))

/-- `x-y-z-u` is not read with its value. -/
theorem value_parseExpression_chain_iff_minus :
    ∃ t, parseExpression integers true
        (chainString integers [['+'], ['-']] (.variable ['x'])
          ([(1, ['y']), (1, ['z']), (1, ['u'])].map fun p ↦ (p.1, .variable p.2)))
        true [['u'], ['x'], ['y'], ['z']] = some t ∧
      ((∀ M : Meaning ℤ ℚ, M.Arithmetic → (additive.inverse = .div → ∀ y, M.varName y ≠ 0) →
          t.value M = (leftNested additive (.variable ['x'])
            ([(1, ['y']), (1, ['z']), (1, ['u'])].map fun p ↦ (p.1, .variable p.2))).value M) ↔
        ∀ p ∈ [(1, ['y']), (1, ['z']), (1, ['u'])].dropLast.dropLast, p.1 = 0) := by
  refine value_parseExpression_chain_iff (by simp [chains]) (by simp [Named, IsNumeral, isDigit])
    ?_ (by simp) (by simp) (by simp) true
  have hplain : ∀ c ∈ ['x', 'y', 'z', 'u'], PlainText [c] := by
    simp only [List.forall_mem_cons, List.not_mem_nil, false_implies, implies_true, and_true]
    refine ⟨?_, ?_, ?_, ?_⟩ <;>
      exact ⟨by simp, by simp [specialChars, operatorChars], by simp [isSpace], .singleton _⟩
  simp only [List.map_cons, List.map_nil, List.forall_mem_cons, List.not_mem_nil, false_implies,
    implies_true, and_true]
  exact ⟨⟨hplain _ (by simp), by simp⟩, ⟨hplain _ (by simp), by simp⟩,
    ⟨hplain _ (by simp), by simp⟩, hplain _ (by simp), by simp⟩

end Value

end Safrn.Util
