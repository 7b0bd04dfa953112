import Mathlib.Data.List.Chain
import Safrn.Util.Expression

/-!
# Printed formulas read again

What `GetExpressionString` prints is read by `ParseExpression` as the expression that was printed.
Excepted are the operations that are printed in a way that is not read (the bars of `ABS`, `%`, and
the two that only an error is printed for), the two functions with two terms when their argument
list starts and ends with parentheses, which are taken for a pair, and numbers that are printed with
a sign or an exponent.
-/

namespace Safrn.Util

/-- The characters that operators start with. -/
def operatorChars : List Char := ['+', '-', '*', '/', '^', '=', '!', '<', '>', '~']

/-- The characters of operators and groups, and the comma. -/
def specialChars : List Char :=
  operatorChars ++ ['(', ')', '{', '}', '[', ']', '|', Char.ofNat 0, ',']

/-- A digit or point in front of the letter of an exponent. -/
def NoExponent (c d : Char) : Prop := ¬(IsNumeral c ∧ IsExponent d)

/-- Text that stands for itself in a formula. -/
structure PlainText (s : List Char) : Prop where
  nonempty : s ≠ []
  plain : ∀ c ∈ s, c ∉ specialChars
  space : ∀ c ∈ s, isSpace c = false
  exponent : s.IsChain NoExponent

def parenthesized (t : List Char) : List Char := '(' :: (t ++ [')'])

/-! ### Texts without operators -/

/-- All operators that a formula is split at, as they are looked for. -/
def allOperators : List (List (List Char)) :=
  [[['+'], ['-']], [['*'], ['/']], [['^']], [['=', '=']], [['!', '=']], [['>', '=']], [['<', '=']],
    [['>']], [['<']], [['~', '=']]]

/-- No operator stands outside of the parentheses. -/
def Single (s : List Char) : Prop := ∀ ops ∈ allOperators, Top ops [] s

section Texts

variable {abort : Bool} {ops : List (List Char)} {s t u w a p rest : List Char} {i : ℕ}

theorem operators_of_mem (h : ops ∈ allOperators) : Operators ops := by
  simp only [allOperators, List.mem_cons, List.not_mem_nil, or_false] at h
  rcases h with rfl | rfl | rfl | rfl | rfl | rfl | rfl | rfl | rfl | rfl <;>
    exact ⟨by simp, by simp [groupingSymbols]⟩

theorem exists_operatorChar (h : ops ∈ allOperators) (hp : p ∈ ops) :
    ∃ c q, p = c :: q ∧ c ∈ operatorChars := by
  simp only [allOperators, List.mem_cons, List.not_mem_nil, or_false] at h
  rcases h with rfl | rfl | rfl | rfl | rfl | rfl | rfl | rfl | rfl | rfl <;>
    · simp only [List.mem_cons, List.not_mem_nil, or_false] at hp
      first
      | obtain rfl := hp
        exact ⟨_, _, rfl, by simp [operatorChars]⟩
      | obtain rfl | rfl := hp <;> exact ⟨_, _, rfl, by simp [operatorChars]⟩

theorem notMem_openers_of_plain {c : Char} (h : c ∉ specialChars) :
    c ∉ groupingSymbols.map Prod.fst := by
  refine fun hmem ↦ h ?_
  simp only [groupingSymbols, List.map_cons, List.map_nil, List.mem_cons, List.not_mem_nil,
    or_false] at hmem
  rcases hmem with rfl | rfl | rfl | rfl | rfl <;> simp [specialChars]

/-- A character that is not special stands in front of any text. -/
theorem Top.plain (h : ops ∈ allOperators) (hu : ∀ c ∈ u, c ∉ specialChars) (hs : Top ops w s) :
    Top ops w (u ++ s) := by
  induction u with
  | nil => exact hs
  | cons c u ih =>
    obtain ⟨hc, hu⟩ := List.forall_mem_cons.mp hu
    refine .char (notMem_openers_of_plain hc) (fun p hp hprefix ↦ hc ?_) (ih hu)
    obtain ⟨d, q, rfl, hd⟩ := exists_operatorChar h hp
    rw [← (List.cons_prefix_cons.mp hprefix).1]
    exact List.mem_append_left _ hd

theorem Top.parenthesized (ht : Balanced t) (hs : Top ops w s) :
    Top ops w (parenthesized t ++ s) :=
  .group (group_balanced ht) hs

theorem Top.append (hs : Top ops (t ++ w) s) (ht : Top ops w t) : Top ops w (s ++ t) := by
  induction hs with
  | bare hnone =>
    rw [← List.append_assoc] at hnone
    exact .bare hnone
  | nil => exact ht
  | @char c s hc hprefix _ ih =>
    rw [List.cons_append]
    refine .char hc (fun p hp h ↦ hprefix p hp ?_) ih
    rwa [List.append_assoc] at h
  | group hg _ ih =>
    rw [List.append_assoc]
    exact .group hg ih

theorem getTerms_single (hops : Operators ops) (h : Top ops [] s) (hs : s ≠ []) :
    getTerms abort s [] ops = some [(s, none)] := by
  have hterms : getTerms abort (s ++ []) [] ops = afterTop abort ops [] ([] ++ s) :=
    getTerms_top hops h (.inl rfl)
  rw [List.append_nil, List.nil_append] at hterms
  rw [hterms]
  exact congrArg some (if_neg hs)

/-- The first operator outside of the parentheses splits. -/
theorem getTerms_split (hops : Operators ops) (ha : Top ops (p ++ rest) a)
    (hp : scanFor ops (p ++ rest) = some (0, i)) (hi : ops.getD i [] = p) :
    getTerms abort (a ++ (p ++ rest)) [] ops =
      if abort then some [(a, some i), (rest, none)]
      else (getTerms abort rest [] ops).map ([(a, some i)] ++ ·) := by
  rw [getTerms_top hops ha (.inr ⟨i, hp⟩), List.nil_append, afterTop, hp]
  simp only [hi, List.drop_left]

end Texts

/-! ### One round of the parser -/

section Round

variable {Double : Type} {D : Doubles Double} {enforce : Bool} {varNames : List (List Char)}
  {parse : List Char → Option (Expression Double)} {s a b p : List Char} {ops : List (List Char)}

theorem getAdditiveTerms_eq (h : s.head? ≠ some '-') :
    getAdditiveTerms s = getTerms false s [] [['+'], ['-']] := by
  unfold getAdditiveTerms
  split
  case h_1 => exact absurd rfl h
  case h_2 => rfl

theorem parseBody_of_top (hminus : s.head? ≠ some '-') (hs : s ≠ [])
    (h : Top [['+'], ['-']] [] s) :
    parseBody D enforce varNames parse s = parseProduct D enforce varNames parse s := by
  rw [parseBody, getAdditiveTerms_eq hminus,
    getTerms_single (operators_of_mem (by simp [allOperators])) h hs]
  rfl

theorem parseProduct_of_top (hs : s ≠ []) (h : Top [['*'], ['/']] [] s) :
    parseProduct D enforce varNames parse s = parsePower D enforce varNames parse s := by
  rw [parseProduct, getMultiplicativeTerms,
    getTerms_single (operators_of_mem (by simp [allOperators])) h hs]
  rfl

theorem parsePower_of_top (hs : s ≠ []) (h : Top [['^']] [] s) :
    parsePower D enforce varNames parse s = parseComparison D enforce varNames parse s := by
  rw [parsePower, getExponentTerms,
    getTerms_single (operators_of_mem (by simp [allOperators])) h hs]
  rfl

theorem splitOnce_of_top (hops : Operators [p]) (hs : s ≠ []) (h : Top [p] [] s) :
    splitOnce s p = some none := by
  rw [splitOnce, getTerms_single hops h hs]

theorem operators_comparison (op : ComparisonOperation) : [op.text] ∈ allOperators := by
  cases op <;> simp [allOperators, ComparisonOperation.text]

theorem comparisonLoop_of_top (ops : List ComparisonOperation) (hs : s ≠ [])
    (h : ∀ op ∈ ops, Top [op.text] [] s) (ops' : List ComparisonOperation) :
    comparisonLoop s (ops ++ ops') = comparisonLoop s ops' := by
  induction ops with
  | nil => rfl
  | cons op ops ih =>
    obtain ⟨hop, hops⟩ := List.forall_mem_cons.mp h
    rw [List.cons_append, comparisonLoop,
      splitOnce_of_top (operators_of_mem (operators_comparison op)) hs hop]
    exact ih hops

theorem parseComparison_of_top (hs : s ≠ []) (h : ∀ op : ComparisonOperation, Top [op.text] [] s) :
    parseComparison D enforce varNames parse s = parseFloatEq D enforce varNames parse s := by
  have hnone := comparisonLoop_of_top [.eq, .neq, .gte, .lte, .gt, .lt] hs
    (fun op _ ↦ h op) []
  rw [List.append_nil] at hnone
  rw [parseComparison, getComparisonTerms, hnone]
  rfl

theorem parseFloatEq_of_top (hs : s ≠ []) (h : Top [['~', '=']] [] s) :
    parseFloatEq D enforce varNames parse s = parseTerm D enforce varNames parse s := by
  rw [parseFloatEq, splitOnce_of_top (operators_of_mem (by simp [allOperators])) hs h]
  rfl

/-- A formula that no operator splits is a single term. -/
theorem parseBody_single (hminus : s.head? ≠ some '-') (hs : s ≠ []) (h : Single s) :
    parseBody D enforce varNames parse s = parseTerm D enforce varNames parse s := by
  rw [parseBody_of_top hminus hs (h _ (by simp [allOperators])),
    parseProduct_of_top hs (h _ (by simp [allOperators])),
    parsePower_of_top hs (h _ (by simp [allOperators])),
    parseComparison_of_top hs fun op ↦ h _ (operators_comparison op),
    parseFloatEq_of_top hs (h _ (by simp [allOperators]))]

/-! Parentheses. -/

variable {t u name : List Char}

theorem isSuffixOf_concat (c d : Char) (s : List Char) : [c].isSuffixOf (s ++ [d]) = (c == d) := by
  simp [List.isSuffixOf, List.isPrefixOf]

theorem parenthesized_eq (t : List Char) : parenthesized t = '(' :: t ++ [')'] := rfl

theorem single_parenthesized (ht : Balanced t) : Single (parenthesized t) := by
  intro ops _
  have h : Top ops [] (parenthesized t ++ []) := .parenthesized ht .nil
  rwa [List.append_nil] at h

theorem parseTerm_parenthesized :
    parseTerm D enforce varNames parse (parenthesized t) = parse t := by
  have hnone : findFunction (parenthesized t) functions = none := rfl
  have hlength : (parenthesized t).length - 2 = t.length := by simp [parenthesized]
  have hfactorial : ['!'].isSuffixOf (parenthesized t) = false := isSuffixOf_concat _ _ ('(' :: t)
  have hclosed : [')'].isSuffixOf (parenthesized t) = true := isSuffixOf_concat _ _ ('(' :: t)
  have hopen : ['('].isPrefixOf (parenthesized t) = true := rfl
  have hdrop : (parenthesized t).drop 1 = t ++ [')'] := rfl
  rw [parseTerm, hnone]
  simp only [hfactorial, hopen, hclosed, hlength, hdrop, Bool.false_eq_true, Bool.true_eq_false,
    if_true, if_false, List.take_left]

theorem parseBody_parenthesized (ht : Balanced t) :
    parseBody D enforce varNames parse (parenthesized t) = parse t := by
  rw [parseBody_single (by simp [parenthesized]) (by simp [parenthesized])
    (single_parenthesized ht), parseTerm_parenthesized]

/-! Factorials. -/

theorem single_factorial (ha : Balanced a) : Single (parenthesized a ++ ['!']) := by
  intro ops hops
  refine .parenthesized ha (.char (by simp [groupingSymbols]) (fun p hp hprefix ↦ ?_) .nil)
  have hle := hprefix.length_le
  obtain ⟨c, q, rfl, -⟩ := exists_operatorChar hops hp
  obtain ⟨rfl, hq⟩ := List.cons_prefix_cons.mp hprefix
  obtain rfl := List.prefix_nil.mp hq
  simp only [allOperators, List.mem_cons, List.not_mem_nil, or_false] at hops
  rcases hops with rfl | rfl | rfl | rfl | rfl | rfl | rfl | rfl | rfl | rfl <;> simp at hp

theorem parseBody_factorial (ha : Balanced a) :
    parseBody D enforce varNames parse (parenthesized a ++ ['!']) =
      (parse a).map (.unary .factorial) := by
  have hminus : (parenthesized a ++ ['!']).head? ≠ some '-' := by simp [parenthesized]
  have hnone : findFunction (parenthesized a ++ ['!']) functions = none := rfl
  have hfactorial : ['!'].isSuffixOf (parenthesized a ++ ['!']) = true := isSuffixOf_concat _ _ _
  have hlength : (parenthesized a ++ ['!']).length = a.length + 3 := by simp [parenthesized]
  have hclosed : (parenthesized a ++ ['!']).getD (a.length + 1) ' ' = ')' := by
    simp [parenthesized]
  have hopen : ['('].isPrefixOf (parenthesized a ++ ['!']) = true := rfl
  have hdrop : (parenthesized a ++ ['!']).drop 1 = a ++ [')', '!'] := by simp [parenthesized]
  rw [parseBody_single hminus (by simp) (single_factorial ha), parseTerm, hnone]
  simp only [hfactorial, hlength, hopen, hdrop, Nat.add_sub_cancel, if_true, List.take_left]
  rw [if_neg (by omega), show a.length + 3 - 2 = a.length + 1 from rfl, hclosed]
  simp

/-! Calls. -/

/-- The functions with one term, as they are printed. -/
def calls : List (UnaryOperation × List Char) :=
  [(.exp, ['e', 'x', 'p']), (.log, ['l', 'o', 'g']), (.sin, ['s', 'i', 'n']),
    (.cos, ['c', 'o', 's']), (.tan, ['t', 'a', 'n']), (.indicator, ['I']),
    (.gammaFn, ['G', 'a', 'm', 'm', 'a']), (.phiFn, ['P', 'h', 'i'])]

/-- The functions with two terms. -/
def pairCalls : List (BinaryOperation × List Char) :=
  [(.incGammaFn, ['I', 'n', 'c', 'G', 'a', 'm', 'm', 'a']),
    (.regIncGammaFn, ['R', 'e', 'g', 'I', 'n', 'c', 'G', 'a', 'm', 'm', 'a'])]

theorem single_call (hname : ∀ c ∈ name, c ∉ specialChars) (ha : Balanced a) :
    Single (name ++ parenthesized a) := by
  intro ops hops
  have h : Top ops [] (parenthesized a ++ []) := .parenthesized ha .nil
  rw [List.append_nil] at h
  exact .plain hops hname h

theorem argument_eq (name a : List Char) :
    ((name ++ parenthesized a).drop (name.length + 1)).take
      ((name ++ parenthesized a).length - (name.length + 1 + 1)) = a := by
  have hdrop : (name ++ parenthesized a).drop (name.length + 1) = a ++ [')'] := by
    rw [← List.drop_drop, List.drop_left]
    rfl
  have hlength : (name ++ parenthesized a).length - (name.length + 1 + 1) = a.length := by
    simp [parenthesized]
    omega
  rw [hdrop, hlength, List.take_left]

theorem closed_call (name a : List Char) : [')'].isSuffixOf (name ++ parenthesized a) = true := by
  rw [parenthesized_eq, ← List.append_assoc]
  exact isSuffixOf_concat _ _ _

theorem parseFunction_unary {names : List (List Char)} {op : UnaryOperation} :
    parseFunction parse (name ++ parenthesized a) (.unary names op, name.length + 1) =
      (parse a).map (.unary op) := by
  simp only [parseFunction, closed_call, argument_eq, Bool.true_eq_false, if_false]

theorem parseFunction_binary {names : List (List Char)} {op : BinaryOperation} :
    parseFunction parse (name ++ parenthesized a) (.binary names op, name.length + 1) =
      (getCommaTerms (stripExtraneousParentheses a)).bind fun terms ↦
        parseBoth parse op terms.1 terms.2 := by
  simp only [parseFunction, closed_call, argument_eq, Bool.true_eq_false, if_false]
  rfl

theorem findFunction_call {op : UnaryOperation} (h : (op, name) ∈ calls) (s : List Char) :
    ∃ names, findFunction (name ++ '(' :: s) functions =
      some (.unary names op, name.length + 1) := by
  simp only [calls, List.mem_cons, List.not_mem_nil, or_false, Prod.mk.injEq] at h
  rcases h with ⟨rfl, rfl⟩ | ⟨rfl, rfl⟩ | ⟨rfl, rfl⟩ | ⟨rfl, rfl⟩ | ⟨rfl, rfl⟩ | ⟨rfl, rfl⟩ |
    ⟨rfl, rfl⟩ | ⟨rfl, rfl⟩ <;> exact ⟨_, rfl⟩

theorem findFunction_pairCall {op : BinaryOperation} (h : (op, name) ∈ pairCalls)
    (s : List Char) :
    ∃ names, findFunction (name ++ '(' :: s) functions =
      some (.binary names op, name.length + 1) := by
  simp only [pairCalls, List.mem_cons, List.not_mem_nil, or_false, Prod.mk.injEq] at h
  rcases h with ⟨rfl, rfl⟩ | ⟨rfl, rfl⟩ <;> exact ⟨_, rfl⟩

theorem plain_of_call {op : UnaryOperation} (h : (op, name) ∈ calls) :
    ∀ c ∈ name, c ∉ specialChars := by
  simp only [calls, List.mem_cons, List.not_mem_nil, or_false, Prod.mk.injEq] at h
  rcases h with ⟨-, rfl⟩ | ⟨-, rfl⟩ | ⟨-, rfl⟩ | ⟨-, rfl⟩ | ⟨-, rfl⟩ | ⟨-, rfl⟩ | ⟨-, rfl⟩ |
    ⟨-, rfl⟩ <;> simp [specialChars, operatorChars]

theorem plain_of_pairCall {op : BinaryOperation} (h : (op, name) ∈ pairCalls) :
    ∀ c ∈ name, c ∉ specialChars := by
  simp only [pairCalls, List.mem_cons, List.not_mem_nil, or_false, Prod.mk.injEq] at h
  rcases h with ⟨-, rfl⟩ | ⟨-, rfl⟩ <;> simp [specialChars, operatorChars]

/-! Arguments. -/

/-- A character that neither groups nor separates. -/
def Inert (c : Char) : Prop := c ≠ '(' ∧ c ≠ ')' ∧ c ≠ ','

theorem inert_of_plain {c : Char} (h : c ∉ specialChars) : Inert c := by
  refine ⟨?_, ?_, ?_⟩ <;>
    · rintro rfl
      exact h (by simp [specialChars])

theorem inert_of_operatorChar {c : Char} (h : c ∈ operatorChars) : Inert c := by
  refine ⟨?_, ?_, ?_⟩ <;>
    · rintro rfl
      simp [operatorChars] at h

theorem balanced_inert (h : ∀ c ∈ u, Inert c) : Balanced u := by
  induction u with
  | nil => exact .nil
  | cons c u ih =>
    obtain ⟨hc, hu⟩ := List.forall_mem_cons.mp h
    exact .char hc.1 hc.2.1 (ih hu)

theorem balanced_parenthesized (ht : Balanced t) : Balanced (parenthesized t) := .group ht .nil

/-- The commas stand between parentheses. -/
inductive CommaFree : List Char → Prop
  | nil : CommaFree []
  | char {c : Char} {s : List Char} : c ≠ ',' → c ≠ '(' → CommaFree s → CommaFree (c :: s)
  | group {t s : List Char} : Balanced t → CommaFree s → CommaFree (parenthesized t ++ s)

theorem CommaFree.append (ha : CommaFree a) (hb : CommaFree b) : CommaFree (a ++ b) := by
  induction ha with
  | nil => exact hb
  | char hcomma hopen _ ih => exact .char hcomma hopen ih
  | group ht _ ih =>
    rw [List.append_assoc]
    exact .group ht ih

theorem CommaFree.inert (h : ∀ c ∈ u, Inert c) (hs : CommaFree s) : CommaFree (u ++ s) := by
  induction u with
  | nil => exact hs
  | cons c u ih =>
    obtain ⟨hc, hu⟩ := List.forall_mem_cons.mp h
    exact .char hc.2.2 hc.1 (ih hu)

/-- There is no parenthesis, or a first one. -/
theorem CommaFree.cases (h : CommaFree a) : (',' ∉ a ∧ '(' ∉ a) ∨
    ∃ u t s, a = u ++ (parenthesized t ++ s) ∧ ',' ∉ u ∧ '(' ∉ u ∧ Balanced t ∧ CommaFree s := by
  induction h with
  | nil => exact .inl ⟨List.not_mem_nil, List.not_mem_nil⟩
  | @group t s ht hs _ =>
    exact .inr ⟨[], t, s, rfl, List.not_mem_nil, List.not_mem_nil, ht, hs⟩
  | @char c s hcomma hopen _ ih =>
    obtain ⟨h, h'⟩ | ⟨u, t, s, rfl, h, h', ht, hs⟩ := ih
    · exact .inl ⟨List.not_mem_cons_of_ne_of_not_mem (Ne.symm hcomma) h,
        List.not_mem_cons_of_ne_of_not_mem (Ne.symm hopen) h'⟩
    · exact .inr ⟨c :: u, t, s, rfl, List.not_mem_cons_of_ne_of_not_mem (Ne.symm hcomma) h,
        List.not_mem_cons_of_ne_of_not_mem (Ne.symm hopen) h', ht, hs⟩

/-- The terms are split at the comma between them. -/
theorem commaLoop_eq {fuel : ℕ} {first : List Char} (ha : CommaFree a)
    (hfuel : (a ++ ',' :: b).length < fuel) :
    commaLoop fuel (a ++ ',' :: b) first = some (first ++ a, b) := by
  induction fuel generalizing a first with
  | zero => exact absurd hfuel (Nat.not_lt_zero _)
  | succ fuel ih =>
    obtain ⟨hcomma, hopen⟩ | ⟨u, t, s, rfl, hcomma, hopen, ht, hs⟩ := ha.cases
    · have hsplit : some (first ++ (a ++ ',' :: b).take a.length,
          (a ++ ',' :: b).drop (a.length + 1)) = some (first ++ a, b) := by
        rw [List.take_left, ← List.drop_drop, List.drop_left]
        rfl
      rw [commaLoop, find_single_append hcomma]
      cases hfind : find ['('] (a ++ ',' :: b) with
      | none => exact hsplit
      | some pos =>
        have hle : ¬pos < a.length := by
          intro hlt
          have hprefix := ((find_eq_some_iff (List.cons_ne_nil _ _)).mp hfind).1
          rw [List.drop_append_of_le_length hlt.le, List.drop_eq_getElem_cons hlt] at hprefix
          refine hopen ?_
          rw [(List.cons_prefix_cons.mp hprefix).1]
          exact List.getElem_mem hlt
        simp only [if_neg hle]
        exact hsplit
    · have hinput : u ++ (parenthesized t ++ s) ++ ',' :: b =
          u ++ '(' :: (t ++ ')' :: (s ++ ',' :: b)) := by simp [parenthesized]
      have hinput' : u ++ (parenthesized t ++ s) ++ ',' :: b =
          u ++ (parenthesized t ++ (s ++ ',' :: b)) := by simp
      have hparentheses : find ['('] (u ++ '(' :: (t ++ ')' :: (s ++ ',' :: b))) = some u.length :=
        find_single_append hopen
      obtain ⟨commaPos, hcommaPos, hlt⟩ : ∃ pos,
          find [','] (u ++ '(' :: (t ++ ')' :: (s ++ ',' :: b))) = some pos ∧ u.length < pos := by
        cases hfind : find [','] (u ++ '(' :: (t ++ ')' :: (s ++ ',' :: b))) with
        | none =>
          refine absurd ⟨u ++ '(' :: (t ++ ')' :: s), b, ?_⟩
            ((find_eq_none_iff (List.cons_ne_nil _ _)).mp hfind)
          simp
        | some pos =>
          refine ⟨pos, rfl, ?_⟩
          by_contra hle
          have hprefix := ((find_eq_some_iff (List.cons_ne_nil _ _)).mp hfind).1
          rw [List.drop_append_of_le_length (Nat.le_of_not_lt hle)] at hprefix
          obtain heq | hlt := Nat.eq_or_lt_of_le (Nat.le_of_not_lt hle)
          · rw [heq, List.drop_length] at hprefix
            exact absurd (List.cons_prefix_cons.mp hprefix).1 (by decide)
          · rw [List.drop_eq_getElem_cons hlt] at hprefix
            refine hcomma ?_
            rw [(List.cons_prefix_cons.mp hprefix).1]
            exact List.getElem_mem hlt
      have hclosing : getClosingParentheses (parenthesized t ++ (s ++ ',' :: b)) =
          some (t.length + 1) := by
        have h := (getClosingSymbol_append (s ++ ',' :: b) (group_balanced ht).closing).1
        rw [getClosingParentheses]
        refine h.trans ?_
        simp
      have hlength : u.length + (t.length + 1) + 1 = (u ++ parenthesized t).length := by
        simp [parenthesized]
        omega
      rw [hinput, commaLoop, hcommaPos, hparentheses]
      simp only [if_pos hlt]
      rw [← hinput, hinput', List.drop_left, hclosing, Option.bind_eq_bind, Option.bind_some,
        hlength, ← List.append_assoc u, List.drop_left, List.take_left, ih hs ?_,
        List.append_assoc, List.append_assoc]
      rw [hinput', List.length_append, List.length_append] at hfuel
      simp only [parenthesized, List.length_cons] at hfuel
      omega

theorem getCommaTerms_eq (ha : CommaFree a) : getCommaTerms (a ++ ',' :: b) = some (a, b) :=
  commaLoop_eq ha (Nat.lt_succ_self _)

theorem stripExtraneousParentheses_of_not
    (h : ¬(['('].isPrefixOf s = true ∧ [')'].isSuffixOf s = true)) :
    stripExtraneousParentheses s = s := by
  rw [stripExtraneousParentheses]
  cases s.length with
  | zero => rfl
  | succ n => rw [stripLoop, if_neg h]

/-! Relations and powers. -/

/-- The operations that are printed between two terms in parentheses. -/
def relations : List (BinaryOperation × List Char) :=
  [(.pow, ['^']), (.eq, ['=', '=']), (.floatEq, ['~', '=']), (.gt, ['>']), (.gte, ['>', '=']),
    (.lt, ['<']), (.lte, ['<', '='])]

/-- In front of a parenthesis, none of the operators stands in the text. -/
def Between (ops : List (List Char)) (p : List Char) : Prop := ∀ s, Plain ops ('(' :: s) p

theorem top_between (ha : Balanced a) (hb : Balanced b) (hp : NoOpener p) (h : Between ops p)
    (w : List Char) : Top ops w (parenthesized a ++ (p ++ parenthesized b)) := by
  have hgroup : Top ops w (parenthesized b ++ []) := .parenthesized hb .nil
  rw [List.append_nil] at hgroup
  exact .parenthesized ha (.append_plain hp (h _) hgroup)

theorem operatorChar_of_relation {op : BinaryOperation} (h : (op, p) ∈ relations) :
    p ≠ [] ∧ ∀ c ∈ p, c ∈ operatorChars := by
  simp only [relations, List.mem_cons, List.not_mem_nil, or_false, Prod.mk.injEq] at h
  rcases h with ⟨-, rfl⟩ | ⟨-, rfl⟩ | ⟨-, rfl⟩ | ⟨-, rfl⟩ | ⟨-, rfl⟩ | ⟨-, rfl⟩ | ⟨-, rfl⟩ <;>
    simp [operatorChars]

theorem noOpener_relation {op : BinaryOperation} (h : (op, p) ∈ relations) : NoOpener p := by
  intro c hc hopener
  have hmem := (operatorChar_of_relation h).2 c hc
  simp only [operatorChars, List.mem_cons, List.not_mem_nil, or_false] at hmem
  rcases hmem with rfl | rfl | rfl | rfl | rfl | rfl | rfl | rfl | rfl | rfl <;>
    simp [groupingSymbols] at hopener

theorem between_sum {op : BinaryOperation} (h : (op, p) ∈ relations) :
    Between [['+'], ['-']] p := by
  simp only [relations, List.mem_cons, List.not_mem_nil, or_false, Prod.mk.injEq] at h
  rcases h with ⟨-, rfl⟩ | ⟨-, rfl⟩ | ⟨-, rfl⟩ | ⟨-, rfl⟩ | ⟨-, rfl⟩ | ⟨-, rfl⟩ | ⟨-, rfl⟩ <;>
    simp [Between, Plain]

theorem between_product {op : BinaryOperation} (h : (op, p) ∈ relations) :
    Between [['*'], ['/']] p := by
  simp only [relations, List.mem_cons, List.not_mem_nil, or_false, Prod.mk.injEq] at h
  rcases h with ⟨-, rfl⟩ | ⟨-, rfl⟩ | ⟨-, rfl⟩ | ⟨-, rfl⟩ | ⟨-, rfl⟩ | ⟨-, rfl⟩ | ⟨-, rfl⟩ <;>
    simp [Between, Plain]

theorem getTerms_between {abort : Bool} (hops : Operators [p]) (ha : Balanced a)
    (hb : Balanced b) (hp : p ≠ []) :
    getTerms abort (parenthesized a ++ (p ++ parenthesized b)) [] [p] =
      some [(parenthesized a, some 0), (parenthesized b, none)] := by
  have hgroup : ∀ w t, Balanced t → Top [p] w (parenthesized t) := by
    intro w t ht
    have h : Top [p] w (parenthesized t ++ []) := .parenthesized ht .nil
    rwa [List.append_nil] at h
  have hscan : scanFor [p] (p ++ parenthesized b) = some (0, 0) := by
    obtain ⟨c, q, rfl⟩ := List.exists_cons_of_ne_nil hp
    have hprefix : (c :: q).isPrefixOf (c :: (q ++ parenthesized b)) = true :=
      List.isPrefixOf_iff_prefix.mpr (List.prefix_append (c :: q) _)
    rw [List.cons_append, scanFor, List.findIdx?_cons, hprefix]
    rfl
  rw [getTerms_split hops (hgroup _ a ha) hscan rfl,
    getTerms_single hops (hgroup _ b hb) (List.cons_ne_nil _ _)]
  cases abort <;> rfl

theorem parseComparison_found (op : ComparisonOperation) (ops : List ComparisonOperation)
    {ops' : List ComparisonOperation}
    (horder : [.eq, .neq, .gte, .lte, .gt, .lt] = ops ++ op :: ops')
    (ha : Balanced a) (hb : Balanced b)
    (htop : ∀ o ∈ ops, Top [o.text] [] (parenthesized a ++ (op.text ++ parenthesized b))) :
    parseComparison D enforce varNames parse (parenthesized a ++ (op.text ++ parenthesized b)) =
      parseBoth parse op.operation (parenthesized a) (parenthesized b) := by
  have hsplit : splitOnce (parenthesized a ++ (op.text ++ parenthesized b)) op.text =
      some (some (parenthesized a, parenthesized b)) := by
    rw [splitOnce, getTerms_between (operators_of_mem (operators_comparison op)) ha hb
      (by cases op <;> simp [ComparisonOperation.text])]
  rw [parseComparison, getComparisonTerms, horder, comparisonLoop_of_top _ (by simp [parenthesized])
    htop, comparisonLoop, hsplit]
  simp [parenthesized]

theorem parseBody_relation {op : BinaryOperation} (h : (op, p) ∈ relations) (ha : Balanced a)
    (hb : Balanced b) :
    parseBody D enforce varNames parse (parenthesized a ++ (p ++ parenthesized b)) =
      parseBoth parse op (parenthesized a) (parenthesized b) := by
  have hminus : (parenthesized a ++ (p ++ parenthesized b)).head? ≠ some '-' := by
    simp [parenthesized]
  have hne : parenthesized a ++ (p ++ parenthesized b) ≠ [] := by simp [parenthesized]
  have hopener := noOpener_relation h
  rw [parseBody_of_top hminus hne (top_between ha hb hopener (between_sum h) _),
    parseProduct_of_top hne (top_between ha hb hopener (between_product h) _)]
  simp only [relations, List.mem_cons, List.not_mem_nil, or_false, Prod.mk.injEq] at h
  rcases h with ⟨rfl, rfl⟩ | ⟨rfl, rfl⟩ | ⟨rfl, rfl⟩ | ⟨rfl, rfl⟩ | ⟨rfl, rfl⟩ | ⟨rfl, rfl⟩ |
    ⟨rfl, rfl⟩
  case inl =>
    rw [parsePower, getExponentTerms,
      getTerms_between (operators_of_mem (by simp [allOperators])) ha hb (List.cons_ne_nil _ _)]
    rfl
  all_goals
    rw [parsePower_of_top hne (top_between ha hb hopener (by simp [Between, Plain]) _)]
  case inr.inl =>
    exact parseComparison_found .eq [] rfl ha hb
      fun o ho ↦ absurd ho List.not_mem_nil
  case inr.inr.inl =>
    rw [parseComparison_of_top hne fun o ↦ top_between ha hb hopener ?_ _, parseFloatEq, splitOnce,
      getTerms_between (operators_of_mem (by simp [allOperators])) ha hb (List.cons_ne_nil _ _)]
    · simp [parenthesized]
    · cases o <;> simp [Between, Plain, ComparisonOperation.text]
  case inr.inr.inr.inl =>
    refine parseComparison_found .gt [.eq, .neq, .gte, .lte] rfl ha hb
      fun o ho ↦ top_between ha hb hopener ?_ _
    cases o <;> simp [Between, Plain, ComparisonOperation.text] at ho ⊢
  case inr.inr.inr.inr.inl =>
    refine parseComparison_found .gte [.eq, .neq] rfl ha hb
      fun o ho ↦ top_between ha hb hopener ?_ _
    cases o <;> simp [Between, Plain, ComparisonOperation.text] at ho ⊢
  case inr.inr.inr.inr.inr.inl =>
    refine parseComparison_found .lt [.eq, .neq, .gte, .lte, .gt] rfl ha hb
      fun o ho ↦ top_between ha hb hopener ?_ _
    cases o <;> simp [Between, Plain, ComparisonOperation.text] at ho ⊢
  case inr.inr.inr.inr.inr.inr =>
    refine parseComparison_found .lte [.eq, .neq, .gte] rfl ha hb
      fun o ho ↦ top_between ha hb hopener ?_ _
    cases o <;> simp [Between, Plain, ComparisonOperation.text] at ho ⊢

end Round

/-! ### Atoms -/

section Atoms

variable {Double : Type} {D : Doubles Double} {enforce : Bool} {varNames : List (List Char)}
  {parse : List Char → Option (Expression Double)} {s : List Char}

/-- No variable is called like a number. -/
def Named (varNames : List (List Char)) : Prop := ∀ x ∈ varNames, ∃ c ∈ x, ¬IsNumeral c

theorem single_plain (h : ∀ c ∈ s, c ∉ specialChars) : Single s := by
  intro ops hops
  have htop : Top ops [] (s ++ []) := .plain hops h .nil
  rwa [List.append_nil] at htop

theorem findFunction_none {fs : List NamedFunction} (hs : '(' ∉ s)
    (h : ∀ f ∈ fs, ∀ name ∈ f.names, '(' ∈ name) : findFunction s fs = none := by
  induction fs with
  | nil => rfl
  | cons f fs ih =>
    obtain ⟨hf, hfs⟩ := List.forall_mem_cons.mp h
    have hnone : f.names.find? (·.isPrefixOf s) = none := by
      rw [List.find?_eq_none]
      intro name hname hprefix
      exact hs ((List.isPrefixOf_iff_prefix.mp hprefix).subset (hf name hname))
    rw [findFunction, hnone]
    exact ih hfs

theorem functions_parenthesis : ∀ f ∈ functions, ∀ name ∈ f.names, '(' ∈ name := by
  simp [functions, NamedFunction.names]

/-- Text that stands for itself is an atom. -/
theorem parseBody_plain (h : PlainText s) :
    parseBody D enforce varNames parse s = parseAtom D enforce varNames parse s := by
  have hnot : ∀ c ∈ specialChars, c ∉ s := fun c hc hs ↦ h.plain c hs hc
  have hminus : s.head? ≠ some '-' := fun hhead ↦
    hnot '-' (by simp [specialChars, operatorChars]) (List.mem_of_head? hhead)
  have hprefix : ∀ c ∈ specialChars, [c].isPrefixOf s = false := by
    intro c hc
    rw [Bool.eq_false_iff]
    intro hprefix
    exact hnot c hc ((List.isPrefixOf_iff_prefix.mp hprefix).subset List.mem_cons_self)
  have hsuffix : ['!'].isSuffixOf s = false := by
    rw [Bool.eq_false_iff]
    intro hsuffix
    exact hnot '!' (by simp [specialChars, operatorChars])
      ((List.isSuffixOf_iff_suffix.mp hsuffix).subset List.mem_cons_self)
  have hnone := findFunction_none (hnot '(' (by simp [specialChars])) functions_parenthesis
  rw [parseBody_single hminus h.nonempty (single_plain h.plain), parseTerm, hnone]
  simp only [hsuffix, hprefix '(' (by simp [specialChars]),
    hprefix '-' (by simp [specialChars, operatorChars]), Bool.false_eq_true, if_false]

theorem parseAtom_variable (h : s ∈ varNames) :
    parseAtom D enforce varNames parse s = some (.variable s) := by
  rw [parseAtom, if_pos (List.contains_iff_mem.mpr h)]

theorem parseCoefficient_none (h : ∀ x ∈ varNames, ¬x <:+: s) :
    parseCoefficient D parse s varNames = none := by
  induction varNames with
  | nil => rfl
  | cons x varNames ih =>
    obtain ⟨hx, hvarNames⟩ := List.forall_mem_cons.mp h
    have hne : x ≠ [] := by
      rintro rfl
      exact hx List.nil_infix
    rw [parseCoefficient, (find_eq_none_iff hne).mpr hx]
    exact ih hvarNames

theorem parseAtom_constant {value : Double} (hnamed : Named varNames)
    (hs : ∀ c ∈ s, IsNumeral c) (hvalue : D.stod s = some value) :
    parseAtom D enforce varNames parse s = some (.constant value) := by
  have hinfix : ∀ x ∈ varNames, ¬x <:+: s := by
    intro x hx hin
    obtain ⟨c, hc, hnot⟩ := hnamed x hx
    exact hnot (hs c (hin.subset hc))
  have hmem : ¬varNames.contains s = true := fun hs' ↦
    hinfix s (List.contains_iff_mem.mp hs') (List.infix_refl s)
  rw [parseAtom, if_neg hmem, parseCoefficient_none hinfix, hvalue]

end Atoms

/-! ### Signs and calls -/

section Signs

variable {Double : Type} {D : Doubles Double} {enforce : Bool} {varNames : List (List Char)}
  {parse : List Char → Option (Expression Double)} {a b name : List Char}

/-- The operations that are printed between two terms. -/
def signs : List (BinaryOperation × Char) := [(.add, '+'), (.sub, '-'), (.mult, '*'), (.div, '/')]

/-- What is true of all printed formulas. -/
structure Printed (s : List Char) : Prop where
  nonempty : s ≠ []
  balanced : Balanced s
  commaFree : CommaFree s
  minus : s.head? ≠ some '-'
  sum : ∀ w, Top [['+'], ['-']] w s
  product : ∀ w, Top [['*'], ['/']] w s

/-- The text of terms, each but the first with the number of the operator in front of it. -/
def chainText (ops : List (List Char)) (a : List Char) : List (ℕ × List Char) → List Char
  | [] => a
  | (i, b) :: l => a ++ (ops.getD i [] ++ chainText ops b l)

/-- The same terms, each but the last with the number of the operator behind it. -/
def chainTerms (a : List Char) : List (ℕ × List Char) → List Term
  | [] => [(a, none)]
  | (i, b) :: l => (a, some i) :: chainTerms b l

/-- Operators of which each is found where it stands. -/
structure Signs (ops : List (List Char)) : Prop where
  operators : Operators ops
  found : ∀ i < ops.length, ∀ rest, scanFor ops (ops.getD i [] ++ rest) = some (0, i)

theorem signs_sum : Signs [['+'], ['-']] := by
  refine ⟨operators_of_mem (by simp [allOperators]), fun i hi rest ↦ ?_⟩
  obtain rfl | rfl : i = 0 ∨ i = 1 := by
    simp only [List.length_cons, List.length_nil] at hi
    omega
  · rfl
  · rfl

theorem signs_product : Signs [['*'], ['/']] := by
  refine ⟨operators_of_mem (by simp [allOperators]), fun i hi rest ↦ ?_⟩
  obtain rfl | rfl : i = 0 ∨ i = 1 := by
    simp only [List.length_cons, List.length_nil] at hi
    omega
  · rfl
  · rfl

theorem getTerms_chain {ops : List (List Char)} {l : List (ℕ × List Char)} (hops : Signs ops)
    (ha : a ≠ [] ∧ ∀ w, Top ops w a)
    (hl : ∀ p ∈ l, p.1 < ops.length ∧ p.2 ≠ [] ∧ ∀ w, Top ops w p.2) :
    getTerms false (chainText ops a l) [] ops = some (chainTerms a l) := by
  induction l generalizing a with
  | nil => exact getTerms_single hops.operators (ha.2 []) ha.1
  | cons p l ih =>
    obtain ⟨i, b⟩ := p
    obtain ⟨⟨hi, hb⟩, hl⟩ := List.forall_mem_cons.mp hl
    rw [chainText, getTerms_split hops.operators (ha.2 _) (hops.found i hi _) rfl, ih hb hl]
    rfl

theorem chainText_ne_nil {ops : List (List Char)} (ha : a ≠ []) (l : List (ℕ × List Char)) :
    chainText ops a l ≠ [] := by
  cases l with
  | nil => exact ha
  | cons p l =>
    intro hnil
    exact ha (List.append_eq_nil_iff.mp hnil).1

theorem head?_chainText {ops : List (List Char)} (ha : Printed a) (l : List (ℕ × List Char)) :
    (chainText ops a l).head? ≠ some '-' := by
  cases l with
  | nil => exact ha.minus
  | cons p l =>
    obtain ⟨c, t, rfl⟩ := List.exists_cons_of_ne_nil ha.nonempty
    exact ha.minus

theorem one_lt_length_chainTerms {l : List (ℕ × List Char)} (hl : l ≠ []) (a : List Char) :
    1 < (chainTerms a l).length := by
  obtain ⟨⟨i, b⟩, l, rfl⟩ := List.exists_cons_of_ne_nil hl
  cases l <;> simp [chainTerms]

theorem parseBody_sum {l : List (ℕ × List Char)} (ha : Printed a)
    (hl : ∀ p ∈ l, p.1 < 2 ∧ Printed p.2) (hne : l ≠ []) :
    parseBody D enforce varNames parse (chainText [['+'], ['-']] a l) =
      parseChain additive parse (chainTerms a l) false := by
  have hterms := getTerms_chain signs_sum ⟨ha.nonempty, ha.sum⟩
    fun p hp ↦ ⟨(hl p hp).1, (hl p hp).2.nonempty, (hl p hp).2.sum⟩
  rw [parseBody, getAdditiveTerms_eq (head?_chainText ha l), hterms]
  exact if_pos (one_lt_length_chainTerms hne a)

/-- No sum stands in a product. -/
theorem top_chainText {l : List (ℕ × List Char)} (ha : Printed a)
    (hl : ∀ p ∈ l, p.1 < 2 ∧ Printed p.2) :
    Top [['+'], ['-']] [] (chainText [['*'], ['/']] a l) := by
  induction l generalizing a with
  | nil => exact ha.sum []
  | cons p l ih =>
    obtain ⟨i, b⟩ := p
    obtain ⟨⟨hi, hb⟩, hrest⟩ := List.forall_mem_cons.mp hl
    refine .append (ha.sum _) ?_
    obtain rfl | rfl : i = 0 ∨ i = 1 := by omega
    · exact .char (by simp [groupingSymbols]) (by simp) (ih hb hrest)
    · exact .char (by simp [groupingSymbols]) (by simp) (ih hb hrest)

theorem parseBody_product {l : List (ℕ × List Char)} (ha : Printed a)
    (hl : ∀ p ∈ l, p.1 < 2 ∧ Printed p.2) (hne : l ≠ []) :
    parseBody D enforce varNames parse (chainText [['*'], ['/']] a l) =
      parseChain multiplicative parse (chainTerms a l) false := by
  have hterms := getTerms_chain signs_product ⟨ha.nonempty, ha.product⟩
    fun p hp ↦ ⟨(hl p hp).1, (hl p hp).2.nonempty, (hl p hp).2.product⟩
  rw [parseBody_of_top (head?_chainText ha l) (chainText_ne_nil ha.nonempty l)
    (top_chainText ha hl), parseProduct, getMultiplicativeTerms, hterms]
  exact if_pos (one_lt_length_chainTerms hne a)

theorem parseBody_sign {op : BinaryOperation} {o : Char} (h : (op, o) ∈ signs) (ha : Printed a)
    (hb : Printed b) :
    parseBody D enforce varNames parse (a ++ o :: b) = parseBoth parse op a b := by
  have hl : ∀ i < 2, ∀ p ∈ [(i, b)], p.1 < 2 ∧ Printed p.2 := by
    intro i hi p hp
    rw [List.mem_singleton.mp hp]
    exact ⟨hi, hb⟩
  simp only [signs, List.mem_cons, List.not_mem_nil, or_false, Prod.mk.injEq] at h
  rcases h with ⟨rfl, rfl⟩ | ⟨rfl, rfl⟩ | ⟨rfl, rfl⟩ | ⟨rfl, rfl⟩
  · exact parseBody_sum ha (hl 0 (by decide)) (List.cons_ne_nil _ _)
  · exact parseBody_sum ha (hl 1 (by decide)) (List.cons_ne_nil _ _)
  · exact parseBody_product ha (hl 0 (by decide)) (List.cons_ne_nil _ _)
  · exact parseBody_product ha (hl 1 (by decide)) (List.cons_ne_nil _ _)

theorem head?_call (hname : ∀ c ∈ name, c ∉ specialChars) :
    (name ++ parenthesized a).head? ≠ some '-' := by
  cases name with
  | nil => simp [parenthesized]
  | cons c name =>
    intro h
    refine hname c List.mem_cons_self ?_
    rw [Option.some.inj h]
    simp [specialChars, operatorChars]

theorem parseBody_call {op : UnaryOperation} (h : (op, name) ∈ calls) (ha : Balanced a) :
    parseBody D enforce varNames parse (name ++ parenthesized a) =
      (parse a).map (.unary op) := by
  obtain ⟨names, hfind⟩ := findFunction_call h (a ++ [')'])
  have hname := plain_of_call h
  rw [parseBody_single (head?_call hname) (by simp [parenthesized]) (single_call hname ha),
    parseTerm]
  rw [← parenthesized] at hfind
  rw [hfind]
  exact parseFunction_unary

theorem parseBody_pairCall {op : BinaryOperation} (h : (op, name) ∈ pairCalls)
    (ha : CommaFree a) (hab : Balanced (a ++ ',' :: b))
    (hnot : ¬(['('].isPrefixOf (a ++ ',' :: b) = true ∧ [')'].isSuffixOf (a ++ ',' :: b) = true)) :
    parseBody D enforce varNames parse (name ++ parenthesized (a ++ ',' :: b)) =
      parseBoth parse op a b := by
  obtain ⟨names, hfind⟩ := findFunction_pairCall h (a ++ ',' :: b ++ [')'])
  have hname := plain_of_pairCall h
  rw [parseBody_single (head?_call hname) (by simp [parenthesized]) (single_call hname hab),
    parseTerm]
  rw [← parenthesized] at hfind
  rw [hfind]
  refine parseFunction_binary.trans ?_
  rw [stripExtraneousParentheses_of_not hnot, getCommaTerms_eq ha]
  rfl

end Signs

/-! ### The round trip -/

section RoundTrip

variable {Double : Type} (D : Doubles Double) (varNames : List (List Char))

/-- The formula as it is printed, without spaces. -/
def compact (e : Expression Double) : List Char := removeAllWhitespace (getExpressionString D e)

/-- The expressions that are read as they are printed. -/
inductive Readable : Expression Double → Prop
  | constant {value : Double} : PlainText (D.itoa value) → (∀ c ∈ D.itoa value, IsNumeral c) →
      D.stod (D.itoa value) = some value → Readable (.constant value)
  | name {varName : List Char} : PlainText varName → varName ∈ varNames →
      Readable (.variable varName)
  | call {op : UnaryOperation} {name : List Char} {e : Expression Double} : (op, name) ∈ calls →
      Readable e → Readable (.unary op e)
  | factorial {e : Expression Double} : Readable e → Readable (.unary .factorial e)
  | sign {op : BinaryOperation} {o : Char} {e e' : Expression Double} : (op, o) ∈ signs →
      Readable e → Readable e' → Readable (.binary op e e')
  | relation {op : BinaryOperation} {p : List Char} {e e' : Expression Double} :
      (op, p) ∈ relations → Readable e → Readable e' → Readable (.binary op e e')
  | pairCall {op : BinaryOperation} {name : List Char} {e e' : Expression Double} :
      (op, name) ∈ pairCalls →
      ¬((compact D e).head? = some '(' ∧ (compact D e').getLast? = some ')') →
      Readable e → Readable e' → Readable (.binary op e e')

variable {D varNames} {op : BinaryOperation} {e e' : Expression Double}

theorem removeAllWhitespace_append (s t : List Char) :
    removeAllWhitespace (s ++ t) = removeAllWhitespace s ++ removeAllWhitespace t :=
  List.filter_append ..

theorem removeAllWhitespace_plain {s : List Char} (h : PlainText s) :
    removeAllWhitespace s = s := by
  rw [removeAllWhitespace, List.filter_eq_self]
  intro c hc
  rw [h.space c hc]
  rfl

theorem compact_call {op : UnaryOperation} {name : List Char} (h : (op, name) ∈ calls) :
    compact D (.unary op e) = name ++ parenthesized (compact D e) := by
  simp only [calls, List.mem_cons, List.not_mem_nil, or_false, Prod.mk.injEq] at h
  rcases h with ⟨rfl, rfl⟩ | ⟨rfl, rfl⟩ | ⟨rfl, rfl⟩ | ⟨rfl, rfl⟩ | ⟨rfl, rfl⟩ | ⟨rfl, rfl⟩ |
    ⟨rfl, rfl⟩ | ⟨rfl, rfl⟩ <;>
    simp [compact, getExpressionString, UnaryOperation.text, removeAllWhitespace, isSpace,
      parenthesized]

theorem compact_factorial :
    compact D (.unary .factorial e) = parenthesized (compact D e) ++ ['!'] := by
  simp [compact, getExpressionString, UnaryOperation.text, removeAllWhitespace, isSpace,
    parenthesized]

theorem compact_sign {o : Char} (h : (op, o) ∈ signs) :
    compact D (.binary op e e') = parenthesized (compact D e ++ o :: compact D e') := by
  simp only [signs, List.mem_cons, List.not_mem_nil, or_false, Prod.mk.injEq] at h
  rcases h with ⟨rfl, rfl⟩ | ⟨rfl, rfl⟩ | ⟨rfl, rfl⟩ | ⟨rfl, rfl⟩ <;>
    simp [compact, getExpressionString, BinaryOperation.text, removeAllWhitespace, isSpace,
      parenthesized]

theorem compact_relation {p : List Char} (h : (op, p) ∈ relations) :
    compact D (.binary op e e') =
      parenthesized (compact D e) ++ (p ++ parenthesized (compact D e')) := by
  simp only [relations, List.mem_cons, List.not_mem_nil, or_false, Prod.mk.injEq] at h
  rcases h with ⟨rfl, rfl⟩ | ⟨rfl, rfl⟩ | ⟨rfl, rfl⟩ | ⟨rfl, rfl⟩ | ⟨rfl, rfl⟩ | ⟨rfl, rfl⟩ |
    ⟨rfl, rfl⟩ <;>
    simp [compact, getExpressionString, BinaryOperation.text, removeAllWhitespace, isSpace,
      parenthesized]

theorem compact_pairCall {name : List Char} (h : (op, name) ∈ pairCalls) :
    compact D (.binary op e e') = name ++ parenthesized (compact D e ++ ',' :: compact D e') := by
  simp only [pairCalls, List.mem_cons, List.not_mem_nil, or_false, Prod.mk.injEq] at h
  rcases h with ⟨rfl, rfl⟩ | ⟨rfl, rfl⟩ <;>
    simp [compact, getExpressionString, BinaryOperation.text, removeAllWhitespace, isSpace,
      parenthesized]

theorem printed_plain {s : List Char} (h : PlainText s) : Printed s := by
  have hinert : ∀ c ∈ s, Inert c := fun c hc ↦ inert_of_plain (h.plain c hc)
  have hcommaFree : CommaFree (s ++ []) := .inert hinert .nil
  have htop : ∀ ops ∈ allOperators, ∀ w, Top ops w (s ++ []) := fun ops hops w ↦
    .plain hops h.plain .nil
  rw [List.append_nil] at hcommaFree
  simp only [List.append_nil] at htop
  refine ⟨h.nonempty, balanced_inert hinert, hcommaFree, fun hhead ↦ ?_,
    htop _ (by simp [allOperators]), htop _ (by simp [allOperators])⟩
  exact h.plain '-' (List.mem_of_head? hhead) (by simp [specialChars, operatorChars])

theorem printed_call {name a : List Char} (hname : ∀ c ∈ name, c ∉ specialChars)
    (ha : Balanced a) : Printed (name ++ parenthesized a) := by
  have hinert : ∀ c ∈ name, Inert c := fun c hc ↦ inert_of_plain (hname c hc)
  have hgroup : CommaFree (parenthesized a ++ []) := .group ha .nil
  have htop : ∀ ops w, Top ops w (parenthesized a ++ []) := fun ops w ↦ .parenthesized ha .nil
  rw [List.append_nil] at hgroup
  simp only [List.append_nil] at htop
  exact ⟨by simp [parenthesized], (balanced_inert hinert).append (balanced_parenthesized ha),
    .inert hinert hgroup, head?_call hname,
    fun w ↦ .plain (by simp [allOperators]) hname (htop _ w),
    fun w ↦ .plain (by simp [allOperators]) hname (htop _ w)⟩

theorem balanced_between {o : Char} {a b : List Char} (ha : Balanced a) (ho : Inert o)
    (hb : Balanced b) : Balanced (a ++ o :: b) :=
  ha.append (.char ho.1 ho.2.1 hb)

theorem inert_sign {o : Char} (h : (op, o) ∈ signs) : Inert o := by
  refine inert_of_operatorChar ?_
  simp only [signs, List.mem_cons, List.not_mem_nil, or_false, Prod.mk.injEq] at h
  rcases h with ⟨-, rfl⟩ | ⟨-, rfl⟩ | ⟨-, rfl⟩ | ⟨-, rfl⟩ <;> simp [operatorChars]

theorem balanced_pair {a b : List Char} (ha : Balanced a) (hb : Balanced b) :
    Balanced (a ++ ',' :: b) :=
  ha.append (.char (by decide) (by decide) hb)

theorem printed_factorial {a : List Char} (ha : Balanced a) :
    Printed (parenthesized a ++ ['!']) := by
  have hmark : ∀ c ∈ ['!'], Inert c := by
    intro c hc
    rw [List.mem_singleton.mp hc]
    exact inert_of_operatorChar (by simp [operatorChars])
  have hcommaFree : CommaFree (['!'] ++ []) := .inert hmark .nil
  exact ⟨by simp, (balanced_parenthesized ha).append (balanced_inert hmark),
    .group ha hcommaFree, by simp [parenthesized],
    fun w ↦ .parenthesized ha (.char (by simp [groupingSymbols]) (by simp) .nil),
    fun w ↦ .parenthesized ha (.char (by simp [groupingSymbols]) (by simp) .nil)⟩

theorem printed_relation {p a b : List Char} (h : (op, p) ∈ relations) (ha : Balanced a)
    (hb : Balanced b) : Printed (parenthesized a ++ (p ++ parenthesized b)) := by
  have hinert : ∀ c ∈ p, Inert c := fun c hc ↦
    inert_of_operatorChar ((operatorChar_of_relation h).2 c hc)
  have hgroup : CommaFree (parenthesized b ++ []) := .group hb .nil
  rw [List.append_nil] at hgroup
  exact ⟨by simp [parenthesized],
    (balanced_parenthesized ha).append ((balanced_inert hinert).append (balanced_parenthesized hb)),
    .group ha (.inert hinert hgroup), by simp [parenthesized],
    top_between ha hb (noOpener_relation h) (between_sum h),
    top_between ha hb (noOpener_relation h) (between_product h)⟩

theorem printed_compact (h : Readable D varNames e) : Printed (compact D e) := by
  induction h with
  | constant hplain =>
    rw [compact, getExpressionString, removeAllWhitespace_plain hplain]
    exact printed_plain hplain
  | name hplain =>
    rw [compact, getExpressionString, removeAllWhitespace_plain hplain]
    exact printed_plain hplain
  | call hop _ ih =>
    rw [compact_call hop]
    exact printed_call (plain_of_call hop) ih.balanced
  | factorial _ ih =>
    rw [compact_factorial]
    exact printed_factorial ih.balanced
  | sign hop _ _ ih ih' =>
    rw [compact_sign hop]
    exact printed_call (fun c hc ↦ absurd hc List.not_mem_nil)
      (balanced_between ih.balanced (inert_sign hop) ih'.balanced)
  | relation hop _ _ ih ih' =>
    rw [compact_relation hop]
    exact printed_relation hop ih.balanced ih'.balanced
  | pairCall hop _ _ _ ih ih' =>
    rw [compact_pairCall hop]
    exact printed_call (plain_of_pairCall hop) (balanced_pair ih.balanced ih'.balanced)

/-- What is printed without spaces is read, whatever is left of the fuel. -/
theorem parseLoop_compact (hnamed : Named varNames) (h : Readable D varNames e) {enforce : Bool}
    {fuel : ℕ} (hfuel : (compact D e).length < fuel) :
    parseLoop D enforce varNames fuel (compact D e) = some e := by
  induction h generalizing fuel with
  | constant hplain hnumeral hvalue =>
    obtain ⟨fuel, rfl⟩ := Nat.exists_eq_succ_of_ne_zero (Nat.ne_zero_of_lt hfuel)
    rw [compact, getExpressionString, removeAllWhitespace_plain hplain, parseLoop,
      parseBody_plain hplain, parseAtom_constant hnamed hnumeral hvalue]
  | name hplain hmem =>
    obtain ⟨fuel, rfl⟩ := Nat.exists_eq_succ_of_ne_zero (Nat.ne_zero_of_lt hfuel)
    rw [compact, getExpressionString, removeAllWhitespace_plain hplain, parseLoop,
      parseBody_plain hplain, parseAtom_variable hmem]
  | call hop he ih =>
    obtain ⟨fuel, rfl⟩ := Nat.exists_eq_succ_of_ne_zero (Nat.ne_zero_of_lt hfuel)
    rw [compact_call hop] at hfuel ⊢
    simp only [parenthesized, List.length_append, List.length_cons, List.length_nil] at hfuel
    rw [parseLoop, parseBody_call hop (printed_compact he).balanced, ih (by omega)]
    rfl
  | factorial he ih =>
    obtain ⟨fuel, rfl⟩ := Nat.exists_eq_succ_of_ne_zero (Nat.ne_zero_of_lt hfuel)
    rw [compact_factorial] at hfuel ⊢
    simp only [parenthesized, List.length_append, List.length_cons, List.length_nil] at hfuel
    rw [parseLoop, parseBody_factorial (printed_compact he).balanced, ih (by omega)]
    rfl
  | sign hop he he' ih ih' =>
    have hprinted := printed_compact he
    have hprinted' := printed_compact he'
    rw [compact_sign hop] at hfuel ⊢
    simp only [parenthesized, List.length_append, List.length_cons, List.length_nil] at hfuel
    obtain ⟨fuel, rfl⟩ := Nat.exists_eq_add_of_le' (show 2 ≤ fuel by omega)
    rw [parseLoop, parseBody_parenthesized
        (balanced_between hprinted.balanced (inert_sign hop) hprinted'.balanced),
      parseLoop, parseBody_sign hop hprinted hprinted', parseBoth, ih (by omega), ih' (by omega)]
    rfl
  | relation hop he he' ih ih' =>
    have hbalanced := (printed_compact he).balanced
    have hbalanced' := (printed_compact he').balanced
    rw [compact_relation hop] at hfuel ⊢
    simp only [parenthesized, List.length_append, List.length_cons, List.length_nil] at hfuel
    obtain ⟨fuel, rfl⟩ := Nat.exists_eq_add_of_le' (show 2 ≤ fuel by omega)
    have hgroup : ∀ {t}, Balanced t → parseLoop D enforce varNames (fuel + 1) (parenthesized t) =
        parseLoop D enforce varNames fuel t := fun ht ↦ parseBody_parenthesized ht
    rw [parseLoop, parseBody_relation hop hbalanced hbalanced', parseBoth, hgroup hbalanced,
      hgroup hbalanced', ih (by omega), ih' (by omega)]
    rfl
  | pairCall hop hnot he he' ih ih' =>
    have hprinted := printed_compact he
    have hprinted' := printed_compact he'
    obtain ⟨fuel, rfl⟩ := Nat.exists_eq_succ_of_ne_zero (Nat.ne_zero_of_lt hfuel)
    rw [compact_pairCall hop] at hfuel ⊢
    simp only [parenthesized, List.length_append, List.length_cons, List.length_nil] at hfuel
    rw [parseLoop, parseBody_pairCall hop hprinted.commaFree
      (balanced_pair hprinted.balanced hprinted'.balanced) ?_, parseBoth, ih (by omega),
      ih' (by omega)]
    · rfl
    · rintro ⟨hopen, hclosed⟩
      refine hnot ⟨?_, ?_⟩
      · obtain ⟨c, t, hct⟩ := List.exists_cons_of_ne_nil hprinted.nonempty
        rw [hct] at hopen ⊢
        rw [(List.cons_prefix_cons.mp (List.isPrefixOf_iff_prefix.mp hopen)).1]
        rfl
      · obtain ⟨t, ht⟩ := List.isSuffixOf_iff_suffix.mp hclosed
        have hlast := congrArg List.getLast? ht
        rw [List.getLast?_concat, List.getLast?_append_of_ne_nil _ (List.cons_ne_nil _ _),
          List.getLast?_cons_of_ne_nil hprinted'.nonempty] at hlast
        exact hlast.symm

/-! No number with an exponent is found. -/

theorem quiet_of_isChain {s : List Char} (h : s.IsChain NoExponent) : Quiet s := by
  induction s with
  | nil => trivial
  | cons a s ih =>
    have hs := ih h.tail
    match s, h, hs with
    | [], _, _ => trivial
    | [_], _, _ => trivial
    | b :: _ :: _, h, hs =>
      exact ⟨fun hwindow ↦ h.rel ⟨hwindow.1, hwindow.2.1⟩, hs⟩

theorem not_isNumeral_of_operatorChar {c : Char} (h : c ∈ operatorChars) :
    ¬IsNumeral c ∧ ¬IsExponent c := by
  simp only [operatorChars, List.mem_cons, List.not_mem_nil, or_false] at h
  rcases h with rfl | rfl | rfl | rfl | rfl | rfl | rfl | rfl | rfl | rfl <;>
    simp [IsNumeral, IsExponent, isDigit]

theorem isChain_append_of_head {a b : List Char} (ha : a.IsChain NoExponent)
    (hb : b.IsChain NoExponent) (h : ∀ y ∈ b.head?, ¬IsExponent y) :
    (a ++ b).IsChain NoExponent :=
  ha.append hb fun _ _ y hy hpair ↦ h y hy hpair.2

theorem isChain_cons_of_not {c : Char} {s : List Char} (hc : ¬IsNumeral c)
    (hs : s.IsChain NoExponent) : (c :: s).IsChain NoExponent :=
  hs.cons fun _ _ hpair ↦ hc hpair.1

theorem isChain_of_not {s : List Char} (h : ∀ c ∈ s, ¬IsNumeral c) : s.IsChain NoExponent := by
  induction s with
  | nil => exact .nil
  | cons c s ih =>
    obtain ⟨hc, hs⟩ := List.forall_mem_cons.mp h
    exact isChain_cons_of_not hc (ih hs)

theorem isChain_parenthesized {t : List Char} (ht : t.IsChain NoExponent) :
    (parenthesized t).IsChain NoExponent :=
  isChain_cons_of_not (by simp [IsNumeral, isDigit])
    (isChain_append_of_head ht (.singleton _) (by simp [IsExponent]))

theorem isChain_name {name a : List Char} (hname : ∀ c ∈ name, ¬IsNumeral c)
    (ha : a.IsChain NoExponent) : (name ++ parenthesized a).IsChain NoExponent :=
  isChain_append_of_head (isChain_of_not hname) (isChain_parenthesized ha)
    (by simp [parenthesized, IsExponent])

theorem isChain_between {a b : List Char} {c : Char} (ha : a.IsChain NoExponent)
    (hb : b.IsChain NoExponent) (hc : ¬IsNumeral c ∧ ¬IsExponent c) :
    (a ++ c :: b).IsChain NoExponent :=
  isChain_append_of_head ha (isChain_cons_of_not hc.1 hb) (by simp [hc.2])

theorem not_isNumeral_call {op : UnaryOperation} {name : List Char} (h : (op, name) ∈ calls) :
    ∀ c ∈ name, ¬IsNumeral c := by
  simp only [calls, List.mem_cons, List.not_mem_nil, or_false, Prod.mk.injEq] at h
  rcases h with ⟨-, rfl⟩ | ⟨-, rfl⟩ | ⟨-, rfl⟩ | ⟨-, rfl⟩ | ⟨-, rfl⟩ | ⟨-, rfl⟩ | ⟨-, rfl⟩ |
    ⟨-, rfl⟩ <;> simp [IsNumeral, isDigit]

theorem not_isNumeral_pairCall {name : List Char} (h : (op, name) ∈ pairCalls) :
    ∀ c ∈ name, ¬IsNumeral c := by
  simp only [pairCalls, List.mem_cons, List.not_mem_nil, or_false, Prod.mk.injEq] at h
  rcases h with ⟨-, rfl⟩ | ⟨-, rfl⟩ <;> simp [IsNumeral, isDigit]

theorem isChain_compact (h : Readable D varNames e) : (compact D e).IsChain NoExponent := by
  induction h with
  | constant hplain =>
    rw [compact, getExpressionString, removeAllWhitespace_plain hplain]
    exact hplain.exponent
  | name hplain =>
    rw [compact, getExpressionString, removeAllWhitespace_plain hplain]
    exact hplain.exponent
  | call hop _ ih =>
    rw [compact_call hop]
    exact isChain_name (not_isNumeral_call hop) ih
  | factorial _ ih =>
    rw [compact_factorial]
    exact isChain_append_of_head (isChain_parenthesized ih) (.singleton _) (by simp [IsExponent])
  | sign hop _ _ ih ih' =>
    rw [compact_sign hop]
    refine isChain_parenthesized (isChain_between ih ih' (not_isNumeral_of_operatorChar ?_))
    simp only [signs, List.mem_cons, List.not_mem_nil, or_false, Prod.mk.injEq] at hop
    rcases hop with ⟨-, rfl⟩ | ⟨-, rfl⟩ | ⟨-, rfl⟩ | ⟨-, rfl⟩ <;> simp [operatorChars]
  | relation hop _ _ ih ih' =>
    obtain ⟨hne, hchars⟩ := operatorChar_of_relation hop
    obtain ⟨c, p, rfl⟩ := List.exists_cons_of_ne_nil hne
    have hp := isChain_name (fun d hd ↦ (not_isNumeral_of_operatorChar (hchars d hd)).1) ih'
    rw [compact_relation hop]
    refine isChain_append_of_head (isChain_parenthesized ih) hp fun y hy ↦ ?_
    obtain rfl := Option.some.inj hy
    exact (not_isNumeral_of_operatorChar (hchars c List.mem_cons_self)).2
  | pairCall hop _ _ _ ih ih' =>
    rw [compact_pairCall hop]
    exact isChain_name (not_isNumeral_pairCall hop)
      (isChain_between ih ih' (by simp [IsNumeral, IsExponent, isDigit]))

/-- What `GetExpressionString` prints is read as it was. -/
theorem parseExpression_getExpressionString (hnamed : Named varNames) (h : Readable D varNames e)
    (enforce : Bool) :
    parseExpression D true (getExpressionString D e) enforce varNames = some e := by
  have hcleaned : removeScientificNotation (fun s ↦ (D.stod s).isSome) (compact D e) =
      compact D e :=
    loop_quiet (quiet_of_isChain (isChain_compact h)) (Nat.lt_succ_self _)
  rw [parseExpression, if_pos rfl]
  simp only
  rw [← compact, hcleaned]
  exact parseLoop_compact hnamed h (Nat.lt_succ_self _)

end RoundTrip

/-- Integers in the place of numbers. Those with a sign are not read. -/
def integers : Doubles ℤ where
  itoa
    | .ofNat n => Nat.toDigits 10 n
    | .negSucc n => '-' :: Nat.toDigits 10 (n + 1)
  stod s :=
    if s = [] ∨ s.any (fun c ↦ !isDigit c) then none
    else some (s.foldl (fun n c ↦ 10 * n + (c.toNat - 48)) 0)
  minusOne := -1

theorem plainText_x : PlainText ['x'] :=
  ⟨by simp, by simp [specialChars, operatorChars], by simp [isSpace], .singleton _⟩

theorem readable_two {varNames : List (List Char)} : Readable integers varNames (.constant 2) := by
  have htwo : PlainText ['2'] := ⟨by simp, by simp [specialChars, operatorChars],
    by simp [isSpace], .singleton _⟩
  have hdigit : ∀ c ∈ ['2'], IsNumeral c := by simp [IsNumeral, isDigit]
  exact .constant htwo hdigit rfl

/-- `((exp(x) - 2))>=((x)!)`. -/
theorem parseExpression_getExpressionString_exp :
    parseExpression integers true
        (getExpressionString integers
          (.binary .gte (.binary .sub (.unary .exp (.variable ['x'])) (.constant 2))
            (.unary .factorial (.variable ['x']))))
        true [['x']] =
      some (.binary .gte (.binary .sub (.unary .exp (.variable ['x'])) (.constant 2))
        (.unary .factorial (.variable ['x']))) := by
  have hx : Readable integers [['x']] (.variable ['x']) := .name plainText_x (by simp)
  refine parseExpression_getExpressionString (by simp [Named, IsNumeral, isDigit]) ?_ true
  exact .relation (p := ['>', '=']) (by simp [relations])
    (.sign (o := '-') (by simp [signs])
      (.call (show (UnaryOperation.exp, ['e', 'x', 'p']) ∈ calls by simp [calls]) hx) readable_two)
    (.factorial hx)

end Safrn.Util
