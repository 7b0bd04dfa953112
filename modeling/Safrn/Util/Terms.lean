import Safrn.Util.Split

/-!
# Formulas split into terms

Models `GetTerms` and the functions that split a formula at operators
(`Util/data_structures.cpp:36-185`, `:5019-5064` and `:5331-5496`). An operator between parentheses,
braces, brackets or vertical bars does not split. Characters that a template takes are strings of
length one here.
-/

namespace Safrn.Util

/-- `kGroupingSymbols`. The array has one place more than symbols are given, which holds a pair of
null characters. -/
def groupingSymbols : List (Char × Char) :=
  [('(', ')'), ('{', '}'), ('[', ']'), ('|', '|'), (Char.ofNat 0, Char.ofNat 0)]

/-- A term with the number of the operator behind it, which the source has as -1 if there is
none. -/
abbrev Term := List Char × Option ℕ

/-! ### Groups -/

/-- The symbols that are open after a character. -/
def currentCount (left right c : Char) (count : ℕ) : ℕ :=
  let count := if c = left then count + 1 else count
  if c = right then count - 1 else count

/-- The loop of `GetClosingSymbol`, with `count` symbols open. -/
def closingLoop (left right : Char) : List Char → ℕ → Option ℕ
  | [], _ => none
  | c :: input, count =>
    if currentCount left right c count = 0 then some 0
    else (closingLoop left right input (currentCount left right c count)).map (· + 1)

def getClosingSymbol (symbols : Char × Char) : List Char → Option ℕ
  | [] => none
  | c :: input =>
    if c ≠ symbols.1 then none
    else if symbols.1 = symbols.2 then (find [symbols.1] input).map (· + 1)
    else (closingLoop symbols.1 symbols.2 input 1).map (· + 1)

def getClosingParentheses (input : List Char) : Option ℕ := getClosingSymbol ('(', ')') input

/-! ### Terms -/

/-- The first position found so far, with the number of the string found there. -/
def better (best : Option (ℕ × ℕ)) (i : ℕ) : Option ℕ → Option (ℕ × ℕ)
  | none => best
  | some pos => best.elim (some (pos, i)) fun b ↦ if pos < b.1 then some (pos, i) else best

/-- The first of the strings that stand first in the suffix: how far on, and its number. -/
def firstFound (suffix : List Char) : List (List Char) → ℕ → Option (ℕ × ℕ) → Option (ℕ × ℕ)
  | [], _, best => best
  | s :: strings, i, best => firstFound suffix strings (i + 1) (better best i (find s suffix))

/-- What a call of the inner `GetTerms` does with the suffix and the term so far. -/
inductive TermStep
  | failed
  | finished (terms : List Term)
  | next (terms : List Term) (suffix currentTerm : List Char)

def termStep (abortAfterFound : Bool) (splitChars : List (List Char))
    (suffix currentTerm : List Char) : TermStep :=
  if suffix = [] then
    .finished (if currentTerm = [] then [] else [(currentTerm, none)])
  else
    match firstFound suffix splitChars 0 none with
    | none => .finished [(currentTerm ++ suffix, none)]
    | some (splitPos, splitIndex) =>
      match firstFound suffix (groupingSymbols.map ([·.1])) 0 none with
      | some (leftPos, symbolIndex) =>
        if leftPos < splitPos then
          -- the operator may stand in the group, which is kept together
          match groupingSymbols[symbolIndex]?.bind (getClosingSymbol · (suffix.drop leftPos)) with
          | none => .failed
          | some closingPos =>
            .next [] (suffix.drop (leftPos + closingPos + 1))
              (currentTerm ++ suffix.take (leftPos + closingPos + 1))
        else split splitPos splitIndex
      | none => split splitPos splitIndex
where
  /-- The suffix is split at the operator found. -/
  split (splitPos splitIndex : ℕ) : TermStep :=
    let rest := suffix.drop (splitPos + (splitChars.getD splitIndex []).length)
    let term := (currentTerm ++ suffix.take splitPos, some splitIndex)
    if abortAfterFound then .finished [term, (rest, none)] else .next [term] rest []

/-- `GetTerms`. Each round shortens the suffix. -/
def getTermsLoop (abortAfterFound : Bool) (splitChars : List (List Char)) :
    ℕ → List Char → List Char → Option (List Term)
  | 0, _, _ => none
  | fuel + 1, suffix, currentTerm =>
    match termStep abortAfterFound splitChars suffix currentTerm with
    | .failed => none
    | .finished terms => some terms
    | .next terms suffix currentTerm =>
      (getTermsLoop abortAfterFound splitChars fuel suffix currentTerm).map (terms ++ ·)

def getTerms (abortAfterFound : Bool) (suffix term : List Char) (splitChars : List (List Char)) :
    Option (List Term) :=
  getTermsLoop abortAfterFound splitChars (suffix.length + 1) suffix term

/-- `GetAdditiveTerms`. A leading minus sign does not split. -/
def getAdditiveTerms (input : List Char) : Option (List Term) :=
  match input with
  | '-' :: rest => getTerms false rest ['-'] [['+'], ['-']]
  | _ => getTerms false input [] [['+'], ['-']]

def getMultiplicativeTerms (input : List Char) : Option (List Term) :=
  getTerms false input [] [['*'], ['/']]

def getExponentTerms (input : List Char) : Option (List Term) :=
  getTerms false input [] [['^']]

/-- `ComparisonOperation`, in the order in which `GetComparisonTerms` looks for them. -/
inductive ComparisonOperation
  | eq
  | neq
  | gte
  | lte
  | gt
  | lt
deriving DecidableEq

def ComparisonOperation.text : ComparisonOperation → List Char
  | .eq => ['=', '=']
  | .neq => ['!', '=']
  | .gte => ['>', '=']
  | .lte => ['<', '=']
  | .gt => ['>']
  | .lt => ['<']

/-- The terms of two at most: the string is split at the first operator. -/
def splitOnce (input operator : List Char) : Option (Option (List Char × List Char)) :=
  match getTerms true input [] [operator] with
  | some [_] => some none
  | some [first, second] => some (some (first.1, second.1))
  | _ => none

/-- The loop of `GetComparisonTerms`: an error, no operator, or an operator with its terms. -/
def comparisonLoop (input : List Char) : List ComparisonOperation →
    Option (Option (ComparisonOperation × List Char × List Char))
  | [] => some none
  | op :: ops => do
    match ← splitOnce input op.text with
    | some (first, second) => return some (op, first, second)
    | none => comparisonLoop input ops

def getComparisonTerms (input : List Char) :
    Option (Option (ComparisonOperation × List Char × List Char)) :=
  comparisonLoop input [.eq, .neq, .gte, .lte, .gt, .lt]

/-- `GetCommaTerms`: what is appended to the first term, and the second one. -/
def commaLoop : ℕ → List Char → List Char → Option (List Char × List Char)
  | 0, _, _ => none
  | fuel + 1, input, firstTerm =>
    match find [','] input with
    | none => some (firstTerm ++ input, [])
    | some commaPos =>
      match find ['('] input with
      | some parenthesesPos =>
        if parenthesesPos < commaPos then do
          let closingPos ← getClosingParentheses (input.drop parenthesesPos)
          commaLoop fuel (input.drop (parenthesesPos + closingPos + 1))
            (firstTerm ++ input.take (parenthesesPos + closingPos + 1))
        else some (firstTerm ++ input.take commaPos, input.drop (commaPos + 1))
      | none => some (firstTerm ++ input.take commaPos, input.drop (commaPos + 1))

def getCommaTerms (input : List Char) : Option (List Char × List Char) :=
  commaLoop (input.length + 1) input []

/-! ### The first operator -/

/-- How far on the first of the strings stands, and which one. -/
def scanFor (strings : List (List Char)) : List Char → Option (ℕ × ℕ)
  | [] => none
  | c :: s =>
    match strings.findIdx? (·.isPrefixOf (c :: s)) with
    | some i => some (0, i)
    | none => (scanFor strings s).map fun p ↦ (p.1 + 1, p.2)

section Scan

variable {strings : List (List Char)}

theorem find_cons (p : List Char) (c : Char) (s : List Char) :
    find p (c :: s) = if p <+: c :: s then some 0 else (find p s).map (· + 1) := rfl

private theorem firstFound_zero (s : List Char) (i j : ℕ) (strings : List (List Char)) :
    firstFound s strings i (some (0, j)) = some (0, j) := by
  induction strings generalizing i with
  | nil => rfl
  | cons p strings ih =>
    have hbetter : better (some (0, j)) i (find p s) = some (0, j) := by
      cases find p s <;> rfl
    rw [firstFound, hbetter, ih]

private theorem better_pos {best : Option (ℕ × ℕ)} (hbest : ∀ b ∈ best, 0 < b.1) (i : ℕ)
    (found : Option ℕ) : ∀ b ∈ better best i (found.map (· + 1)), 0 < b.1 := by
  cases found with
  | none => exact hbest
  | some pos =>
    cases best with
    | none =>
      intro b hb
      obtain rfl := Option.some.inj hb
      exact Nat.succ_pos pos
    | some b' =>
      intro b hb
      rw [Option.map_some, better, Option.elim_some] at hb
      split at hb
      · obtain rfl := Option.some.inj hb
        exact Nat.succ_pos pos
      · exact hbest b hb

private theorem firstFound_cons_some {c : Char} {s : List Char} {i j : ℕ} {best : Option (ℕ × ℕ)}
    (hbest : ∀ b ∈ best, 0 < b.1) (h : strings.findIdx? (·.isPrefixOf (c :: s)) = some j) :
    firstFound (c :: s) strings i best = some (0, i + j) := by
  induction strings generalizing i j best with
  | nil => cases h
  | cons p strings ih =>
    rw [List.findIdx?_cons] at h
    rw [firstFound, find_cons]
    split at h
    case isTrue hprefix =>
      obtain rfl := Option.some.inj h
      have hbetter : better best i (some 0) = some (0, i) := by
        cases best with
        | none => rfl
        | some b => exact if_pos (hbest b rfl)
      rw [if_pos (List.isPrefixOf_iff_prefix.mp hprefix), hbetter]
      exact firstFound_zero _ _ _ _
    case isFalse hprefix =>
      obtain ⟨j', hj', rfl⟩ := Option.map_eq_some_iff.mp h
      rw [if_neg fun hp ↦ hprefix (List.isPrefixOf_iff_prefix.mpr hp),
        ih (better_pos hbest i _) hj', Nat.add_right_comm, Nat.add_assoc]

private theorem better_map (best : Option (ℕ × ℕ)) (i : ℕ) (found : Option ℕ) :
    better (best.map fun p ↦ (p.1 + 1, p.2)) i (found.map (· + 1)) =
      (better best i found).map fun p ↦ (p.1 + 1, p.2) := by
  cases found with
  | none => rfl
  | some pos =>
    cases best with
    | none => rfl
    | some b =>
      simp only [Option.map_some, better, Option.elim_some, Nat.add_lt_add_iff_right]
      split <;> rfl

private theorem firstFound_cons_none {c : Char} {s : List Char} {i : ℕ} (best : Option (ℕ × ℕ))
    (h : strings.findIdx? (·.isPrefixOf (c :: s)) = none) :
    firstFound (c :: s) strings i (best.map fun p ↦ (p.1 + 1, p.2)) =
      (firstFound s strings i best).map fun p ↦ (p.1 + 1, p.2) := by
  induction strings generalizing i best with
  | nil => rfl
  | cons p strings ih =>
    rw [List.findIdx?_cons] at h
    split at h
    case isTrue => cases h
    case isFalse hprefix =>
      rw [firstFound, firstFound, find_cons,
        if_neg fun hp ↦ hprefix (List.isPrefixOf_iff_prefix.mpr hp), better_map,
        ih _ (Option.map_eq_none_iff.mp h)]

theorem firstFound_eq_scanFor (hstrings : [] ∉ strings) (s : List Char) :
    firstFound s strings 0 none = scanFor strings s := by
  induction s with
  | nil =>
    have hnone : ∀ i, firstFound [] strings i none = none := by
      induction strings with
      | nil => exact fun _ ↦ rfl
      | cons p strings ih =>
        intro i
        rw [List.mem_cons, not_or] at hstrings
        have hfind : find p [] = none := if_neg (Ne.symm hstrings.1)
        rw [firstFound, hfind]
        exact ih hstrings.2 (i + 1)
    exact hnone 0
  | cons c s ih =>
    rw [scanFor]
    cases hfind : strings.findIdx? (·.isPrefixOf (c :: s)) with
    | none =>
      simp only [← ih]
      exact firstFound_cons_none none hfind
    | some j =>
      rw [firstFound_cons_some (fun b hb ↦ by cases hb) hfind, Nat.zero_add]

theorem scanFor_lt {s : List Char} {pos i : ℕ} (h : scanFor strings s = some (pos, i)) :
    pos < s.length ∧ ∃ p, strings[i]? = some p ∧ p <+: s.drop pos := by
  induction s generalizing pos with
  | nil => cases h
  | cons c s ih =>
    rw [scanFor] at h
    split at h
    case h_1 j hj =>
      cases h
      obtain ⟨hlt, hprefix, -⟩ := List.findIdx?_eq_some_iff_getElem.mp hj
      exact ⟨Nat.succ_pos _, _, List.getElem?_eq_getElem hlt,
        List.isPrefixOf_iff_prefix.mp hprefix⟩
    case h_2 =>
      obtain ⟨⟨pos', j⟩, hscan, heq⟩ := Option.map_eq_some_iff.mp h
      cases heq
      obtain ⟨hlt, hp⟩ := ih hscan
      exact ⟨Nat.succ_lt_succ hlt, hp⟩

end Scan

/-! ### Rounds of the loop -/

/-- Operators that `GetTerms` is called with: not empty, and without the symbols that open
groups. -/
structure Operators (ops : List (List Char)) : Prop where
  nonempty : [] ∉ ops
  opener : ∀ p ∈ ops, ∀ c ∈ p, c ∉ groupingSymbols.map Prod.fst

/-- The first characters of groups, as strings. -/
def openers : List (List Char) := groupingSymbols.map ([·.1])

theorem nil_notMem_openers : [] ∉ openers := by decide

section Loop

variable {abort : Bool} {ops : List (List Char)} {s cur s' cur' : List Char} {ts : List Term}

theorem Operators.length_pos (hops : Operators ops) {i : ℕ} {p : List Char}
    (hp : ops[i]? = some p) : 0 < p.length := by
  refine List.length_pos_iff.mpr fun hnil ↦ hops.nonempty ?_
  rw [← hnil]
  exact List.mem_of_getElem? hp

/-- A round that goes on has shortened the suffix. -/
theorem length_lt_of_next (hops : Operators ops)
    (h : termStep abort ops s cur = .next ts s' cur') : s'.length < s.length := by
  have hdrop : ∀ k, 0 < k → s ≠ [] → (s.drop k).length < s.length := by
    intro k hk hne
    rw [List.length_drop]
    exact Nat.sub_lt (List.length_pos_iff.mpr hne) hk
  rw [termStep] at h
  split at h
  case isTrue => cases h
  case isFalse hne =>
    rw [firstFound_eq_scanFor hops.nonempty] at h
    split at h
    case h_1 => cases h
    case h_2 pos i hscan =>
      obtain ⟨-, p, hp, -⟩ := scanFor_lt hscan
      have hsplit : termStep.split abort ops s cur pos i = .next ts s' cur' →
          s'.length < s.length := by
        intro h
        rw [termStep.split] at h
        split at h
        case isTrue => cases h
        case isFalse =>
          cases h
          refine hdrop _ ?_ hne
          rw [List.getD_eq_getElem?_getD, hp]
          exact Nat.add_pos_right pos (hops.length_pos hp)
      split at h
      case h_1 =>
        split at h
        case isTrue =>
          split at h
          case h_1 => cases h
          case h_2 =>
            cases h
            exact hdrop _ (Nat.succ_pos _) hne
        case isFalse => exact hsplit h
      case h_2 => exact hsplit h

theorem getTermsLoop_fuel (hops : Operators ops) {m n : ℕ} (hm : s.length < m) (hn : s.length < n) :
    getTermsLoop abort ops m s cur = getTermsLoop abort ops n s cur := by
  induction m generalizing n s cur with
  | zero => exact absurd hm (Nat.not_lt_zero _)
  | succ m ih =>
    obtain ⟨n, rfl⟩ := Nat.exists_eq_succ_of_ne_zero (Nat.ne_zero_of_lt hn)
    rw [getTermsLoop, getTermsLoop]
    cases hstep : termStep abort ops s cur with
    | failed => rfl
    | finished => rfl
    | next ts s' cur' =>
      have hlt := length_lt_of_next hops hstep
      have hloop : getTermsLoop abort ops m s' cur' = getTermsLoop abort ops n s' cur' :=
        ih (by omega) (by omega)
      simp only [hloop]

/-- A round of the loop. -/
theorem getTerms_eq (hops : Operators ops) : getTerms abort s cur ops =
    match termStep abort ops s cur with
    | .failed => none
    | .finished terms => some terms
    | .next terms s' cur' => (getTerms abort s' cur' ops).map (terms ++ ·) := by
  rw [getTerms, getTermsLoop]
  cases hstep : termStep abort ops s cur with
  | failed => rfl
  | finished => rfl
  | next ts s' cur' =>
    have hlt := length_lt_of_next hops hstep
    simp only [getTerms]
    rw [getTermsLoop_fuel hops hlt (Nat.lt_succ_self _)]

end Loop

/-! ### Groups -/

/-- A string that one grouping symbol opens and its counterpart closes. -/
structure Group (symbols : Char × Char) (g : List Char) : Prop where
  mem : symbols ∈ groupingSymbols
  closing : getClosingSymbol symbols g = some (g.length - 1)

/-- Parentheses that match. -/
inductive Balanced : List Char → Prop
  | nil : Balanced []
  | char {c : Char} {s : List Char} : c ≠ '(' → c ≠ ')' → Balanced s → Balanced (c :: s)
  | group {t s : List Char} : Balanced t → Balanced s → Balanced ('(' :: (t ++ ')' :: s))

section Groups

variable {symbols : Char × Char} {g t : List Char}

theorem closingLoop_append (rest : List Char) {left right : Char} {n k : ℕ}
    (h : closingLoop left right g n = some k) :
    closingLoop left right (g ++ rest) n = some k ∧ k < g.length ∧
      closingLoop left right (g.take (k + 1)) n = some k := by
  induction g generalizing n k with
  | nil => cases h
  | cons c g ih =>
    rw [closingLoop] at h
    split at h
    case isTrue hzero =>
      cases h
      refine ⟨?_, Nat.succ_pos _, ?_⟩
      · simp only [List.cons_append, closingLoop, hzero, if_true]
      · simp only [List.take_succ_cons, closingLoop, hzero, if_true]
    case isFalse hne =>
      obtain ⟨k', hk', rfl⟩ := Option.map_eq_some_iff.mp h
      obtain ⟨happend, hlt, htake⟩ := ih hk'
      refine ⟨?_, Nat.succ_lt_succ hlt, ?_⟩
      · simp only [List.cons_append, closingLoop, hne, if_false, happend, Option.map_some]
      · simp only [List.take_succ_cons, closingLoop, hne, if_false, htake, Option.map_some]

theorem find_single_take (rest : List Char) {c : Char} {k : ℕ} (h : find [c] g = some k) :
    find [c] (g ++ rest) = some k ∧ k < g.length ∧ find [c] (g.take (k + 1)) = some k := by
  induction g generalizing k with
  | nil => cases h
  | cons d g ih =>
    have hcons : ∀ s, find [c] (d :: s) = if c = d then some 0 else (find [c] s).map (· + 1) := by
      intro s
      rw [find_cons]
      simp only [List.cons_prefix_cons, List.nil_prefix, and_true]
    rw [hcons] at h
    rw [List.cons_append, List.take_succ_cons, hcons, hcons]
    split at h
    case isTrue heq =>
      cases h
      rw [if_pos heq, if_pos heq]
      exact ⟨rfl, Nat.succ_pos _, rfl⟩
    case isFalse hne =>
      obtain ⟨k', hk', rfl⟩ := Option.map_eq_some_iff.mp h
      obtain ⟨happend, hlt, htake⟩ := ih hk'
      rw [if_neg hne, if_neg hne, happend, htake]
      exact ⟨rfl, Nat.succ_lt_succ hlt, rfl⟩

/-- Whether a group is closed, and where, does not depend on what follows. -/
theorem getClosingSymbol_append (rest : List Char) {k : ℕ}
    (h : getClosingSymbol symbols g = some k) :
    getClosingSymbol symbols (g ++ rest) = some k ∧ k < g.length ∧
      getClosingSymbol symbols (g.take (k + 1)) = some k := by
  cases g with
  | nil => cases h
  | cons c g =>
    rw [getClosingSymbol] at h
    rw [List.cons_append, List.take_succ_cons, getClosingSymbol, getClosingSymbol]
    split at h
    case isTrue => cases h
    case isFalse hc =>
      rw [if_neg hc, if_neg hc]
      split at h
      case isTrue heq =>
        rw [if_pos heq, if_pos heq]
        obtain ⟨k', hk', rfl⟩ := Option.map_eq_some_iff.mp h
        obtain ⟨happend, hlt, htake⟩ := find_single_take rest hk'
        rw [happend, htake]
        exact ⟨rfl, Nat.succ_lt_succ hlt, rfl⟩
      case isFalse hne =>
        rw [if_neg hne, if_neg hne]
        obtain ⟨k', hk', rfl⟩ := Option.map_eq_some_iff.mp h
        obtain ⟨happend, hlt, htake⟩ := closingLoop_append rest hk'
        rw [happend, htake]
        exact ⟨rfl, Nat.succ_lt_succ hlt, rfl⟩

/-- The group that starts a string. -/
theorem group_take {k : ℕ} (hsymbols : symbols ∈ groupingSymbols)
    (h : getClosingSymbol symbols t = some k) : Group symbols (t.take (k + 1)) := by
  obtain ⟨-, hlt, htake⟩ := getClosingSymbol_append [] h
  refine ⟨hsymbols, ?_⟩
  rw [htake, List.length_take, Nat.min_eq_left hlt]
  rfl

theorem Group.exists_cons (hg : Group symbols g) : ∃ t, g = symbols.1 :: t := by
  have hclosing := hg.closing
  cases g with
  | nil => cases hclosing
  | cons c t =>
    rw [getClosingSymbol] at hclosing
    split at hclosing
    case isTrue => cases hclosing
    case isFalse hc => exact ⟨t, congrArg (· :: t) (of_not_not hc)⟩

theorem closingLoop_balanced (rest : List Char) {s : List Char} (h : Balanced s) (n : ℕ) :
    closingLoop '(' ')' (s ++ rest) (n + 1) =
      (closingLoop '(' ')' rest (n + 1)).map (· + s.length) := by
  have hopen : ∀ n, currentCount '(' ')' '(' n = n + 1 := fun _ ↦ rfl
  have hclose : ∀ n, currentCount '(' ')' ')' (n + 1) = n := fun _ ↦ rfl
  induction h generalizing rest n with
  | nil => simp
  | @char c s hleft hright _ ih =>
    have hother : currentCount '(' ')' c (n + 1) = n + 1 := by
      rw [currentCount, if_neg hleft, if_neg hright]
    rw [List.cons_append, closingLoop, hother, if_neg (Nat.succ_ne_zero n), ih, Option.map_map,
      List.length_cons]
    rfl
  | @group t s _ _ iht ihs =>
    have hcons : '(' :: (t ++ ')' :: s) ++ rest = '(' :: (t ++ (')' :: (s ++ rest))) := by simp
    rw [hcons, closingLoop, hopen, if_neg (Nat.succ_ne_zero _), iht, closingLoop, hclose,
      if_neg (Nat.succ_ne_zero _), ihs]
    simp only [Option.map_map]
    congr 1
    funext k
    simp only [Function.comp_apply, List.length_cons, List.length_append]
    omega

/-- Matching parentheses are a group. -/
theorem group_balanced (h : Balanced t) : Group ('(', ')') ('(' :: (t ++ [')'])) := by
  refine ⟨by decide, ?_⟩
  have hne : '(' ≠ ')' := by decide
  have hloop := closingLoop_balanced [')'] h 0
  rw [Nat.zero_add] at hloop
  simp only [getClosingSymbol, ne_eq, not_true_eq_false, if_false, hne, hloop]
  simp [closingLoop, currentCount]

theorem Balanced.append {s : List Char} (ht : Balanced t) (hs : Balanced s) :
    Balanced (t ++ s) := by
  induction ht with
  | nil => exact hs
  | char hleft hright _ ih => exact .char hleft hright ih
  | group hin _ _ ih =>
    rw [List.cons_append, List.append_assoc, List.cons_append]
    exact .group hin ih

end Groups

/-! ### Where a string is split -/

def NoOpener (u : List Char) : Prop := ∀ c ∈ u, c ∉ groupingSymbols.map Prod.fst

theorem noOpener_nil : NoOpener [] := fun _ h ↦ absurd h List.not_mem_nil

/-- None of the strings stands in `u`, when `rest` follows it. -/
def Plain (strings : List (List Char)) (rest : List Char) : List Char → Prop
  | [] => True
  | c :: u => (∀ p ∈ strings, ¬p <+: c :: (u ++ rest)) ∧ Plain strings rest u

/-- No operator stands in the string outside of a group, when `w` follows it. -/
inductive Top (ops : List (List Char)) (w : List Char) : List Char → Prop
  | bare {s : List Char} : scanFor ops (s ++ w) = none → Top ops w s
  | nil : Top ops w []
  | char {c : Char} {s : List Char} : c ∉ groupingSymbols.map Prod.fst →
      (∀ p ∈ ops, ¬p <+: c :: (s ++ w)) → Top ops w s → Top ops w (c :: s)
  | group {symbols : Char × Char} {g s : List Char} : Group symbols g → Top ops w s →
      Top ops w (g ++ s)

section Top

variable {ops strings : List (List Char)} {u g s w rest : List Char}

theorem scanFor_append (h : Plain strings rest u) :
    scanFor strings (u ++ rest) = (scanFor strings rest).map fun p ↦ (p.1 + u.length, p.2) := by
  induction u with
  | nil => simp
  | cons c u ih =>
    have hnone : strings.findIdx? (·.isPrefixOf (c :: (u ++ rest))) = none := by
      rw [List.findIdx?_eq_none_iff]
      intro p hp
      rw [Bool.eq_false_iff]
      exact fun hprefix ↦ h.1 p hp (List.isPrefixOf_iff_prefix.mp hprefix)
    rw [List.cons_append, scanFor, hnone]
    simp only [ih h.2, Option.map_map, List.length_cons]
    congr 1

theorem scanFor_none_of_append (h : scanFor strings (u ++ rest) = none) :
    scanFor strings rest = none := by
  induction u with
  | nil => exact h
  | cons c u ih =>
    rw [List.cons_append, scanFor] at h
    split at h
    case h_1 => cases h
    case h_2 => exact ih (Option.map_eq_none_iff.mp h)

theorem plain_of_scanFor {k i l : ℕ} (h : scanFor strings s = some (k, i)) (hl : l ≤ k) :
    Plain strings (s.drop l) (s.take l) := by
  induction s generalizing k l with
  | nil => cases h
  | cons c s ih =>
    rw [scanFor] at h
    split at h
    case h_1 =>
      cases h
      rw [Nat.le_zero.mp hl]
      trivial
    case h_2 hnone =>
      obtain ⟨⟨k', j⟩, hscan, heq⟩ := Option.map_eq_some_iff.mp h
      cases heq
      cases l with
      | zero => trivial
      | succ l =>
        refine ⟨fun p hp hprefix ↦ ?_, ih hscan (Nat.le_of_succ_le_succ hl)⟩
        rw [List.drop_succ_cons, List.take_append_drop] at hprefix
        have hfalse := List.findIdx?_eq_none_iff.mp hnone p hp
        rw [List.isPrefixOf_iff_prefix.mpr hprefix] at hfalse
        cases hfalse

theorem plain_of_scanFor_none (h : scanFor strings (u ++ rest) = none) : Plain strings rest u := by
  induction u with
  | nil => trivial
  | cons c u ih =>
    rw [List.cons_append, scanFor] at h
    split at h
    case h_1 => cases h
    case h_2 hnone =>
      refine ⟨fun p hp hprefix ↦ ?_, ih (Option.map_eq_none_iff.mp h)⟩
      have hfalse := List.findIdx?_eq_none_iff.mp hnone p hp
      rw [List.isPrefixOf_iff_prefix.mpr hprefix] at hfalse
      cases hfalse

theorem plain_openers (h : NoOpener u) : Plain openers rest u := by
  induction u with
  | nil => trivial
  | cons c u ih =>
    obtain ⟨hc, hu⟩ := List.forall_mem_cons.mp h
    refine ⟨fun p hp hprefix ↦ hc ?_, ih hu⟩
    obtain ⟨symbols, hsymbols, rfl⟩ := List.mem_map.mp hp
    rw [← (List.cons_prefix_cons.mp hprefix).1]
    exact List.mem_map_of_mem hsymbols

theorem noOpener_of_plain (h : Plain openers rest u) : NoOpener u := by
  induction u with
  | nil => exact noOpener_nil
  | cons c u ih =>
    refine List.forall_mem_cons.mpr ⟨fun hc ↦ ?_, ih h.2⟩
    obtain ⟨symbols, hsymbols, rfl⟩ := List.mem_map.mp hc
    exact h.1 [symbols.1] (List.mem_map_of_mem hsymbols)
      (List.cons_prefix_cons.mpr ⟨rfl, List.nil_prefix⟩)

/-- A group is found at its first character. -/
theorem scanFor_group {symbols : Char × Char} (hg : Group symbols g) :
    ∃ i, scanFor openers (g ++ rest) = some (0, i) ∧ groupingSymbols[i]? = some symbols := by
  obtain ⟨t, rfl⟩ := hg.exists_cons
  have hmem := hg.mem
  rw [groupingSymbols] at hmem
  simp only [List.mem_cons, List.not_mem_nil, or_false] at hmem
  rcases hmem with rfl | rfl | rfl | rfl | rfl
  · exact ⟨0, by simp [scanFor, openers, groupingSymbols, List.findIdx?_cons], rfl⟩
  · exact ⟨1, by simp [scanFor, openers, groupingSymbols, List.findIdx?_cons], rfl⟩
  · exact ⟨2, by simp [scanFor, openers, groupingSymbols, List.findIdx?_cons], rfl⟩
  · exact ⟨3, by simp [scanFor, openers, groupingSymbols, List.findIdx?_cons], rfl⟩
  · exact ⟨4, by simp [scanFor, openers, groupingSymbols, List.findIdx?_cons], rfl⟩

/-- No operator starts with the symbol that opens a group. -/
theorem scanFor_group_pos {symbols : Char × Char} {k i : ℕ} (hops : Operators ops)
    (hg : Group symbols g) (h : scanFor ops (g ++ rest) = some (k, i)) : 0 < k := by
  refine Nat.pos_of_ne_zero fun hzero ↦ ?_
  obtain ⟨-, p, hp, hprefix⟩ := scanFor_lt h
  obtain ⟨t, rfl⟩ := hg.exists_cons
  have hmem := List.mem_of_getElem? hp
  rw [hzero, List.drop_zero, List.cons_append] at hprefix
  cases p with
  | nil => exact hops.nonempty hmem
  | cons c p =>
    refine hops.opener _ hmem c List.mem_cons_self ?_
    rw [(List.cons_prefix_cons.mp hprefix).1]
    exact List.mem_map_of_mem hg.mem

theorem Top.cases (h : Top ops w s) : scanFor ops (s ++ w) = none ∨ (NoOpener s ∧ Plain ops w s) ∨
    ∃ u symbols g s', s = u ++ (g ++ s') ∧ NoOpener u ∧ Plain ops (g ++ (s' ++ w)) u ∧
      Group symbols g ∧ Top ops w s' := by
  induction h with
  | bare hnone => exact .inl hnone
  | nil => exact .inr (.inl ⟨noOpener_nil, trivial⟩)
  | @group symbols g s hg hs _ =>
    exact .inr (.inr ⟨[], symbols, g, s, rfl, noOpener_nil, trivial, hg, hs⟩)
  | @char c s hc hplain _ ih =>
    obtain hnone | ⟨hopener, hrest⟩ | ⟨u, symbols, g, s', rfl, hopener, hrest, hg, hs'⟩ := ih
    · refine .inl ?_
      have hone : Plain ops (s ++ w) [c] := ⟨hplain, trivial⟩
      have happend := scanFor_append hone
      rw [hnone] at happend
      exact happend
    · exact .inr (.inl ⟨List.forall_mem_cons.mpr ⟨hc, hopener⟩, hplain, hrest⟩)
    · refine .inr (.inr ⟨c :: u, symbols, g, s', rfl, List.forall_mem_cons.mpr ⟨hc, hopener⟩,
        ⟨?_, hrest⟩, hg, hs'⟩)
      intro p hp hprefix
      refine hplain p hp ?_
      rwa [List.append_assoc, List.append_assoc]

end Top

/-! ### The terms -/

section Terms

variable {abort : Bool} {ops : List (List Char)} {s cur w u : List Char} {k i : ℕ}

theorem termStep_none (hops : Operators ops) (hs : s ≠ []) (h : scanFor ops s = none) :
    termStep abort ops s cur = .finished [(cur ++ s, none)] := by
  rw [termStep, if_neg hs, firstFound_eq_scanFor hops.nonempty, h]

theorem termStep_split (hops : Operators ops) (h : scanFor ops s = some (k, i))
    (hopener : ∀ l ∈ scanFor openers s, k ≤ l.1) :
    termStep abort ops s cur = termStep.split abort ops s cur k i := by
  have hs : s ≠ [] := by
    rintro rfl
    cases h
  rw [termStep, if_neg hs, firstFound_eq_scanFor hops.nonempty, h, ← openers,
    firstFound_eq_scanFor nil_notMem_openers]
  cases hscan : scanFor openers s with
  | none => rfl
  | some l => exact if_neg (Nat.not_lt.mpr (hopener l hscan))

theorem termStep_group {symbols : Char × Char} {g s' : List Char} (hops : Operators ops)
    (hu : NoOpener u) (hg : Group symbols g) (h : scanFor ops (u ++ (g ++ s')) = some (k, i))
    (hk : u.length < k) :
    termStep abort ops (u ++ (g ++ s')) cur = .next [] s' (cur ++ (u ++ g)) := by
  have hs : u ++ (g ++ s') ≠ [] := by
    intro hnil
    rw [hnil] at h
    cases h
  obtain ⟨m, hm, hsymbols⟩ : ∃ i, scanFor openers (g ++ s') = some (0, i) ∧
      groupingSymbols[i]? = some symbols := scanFor_group hg
  have hlength : 0 < g.length := by
    obtain ⟨t, rfl⟩ := hg.exists_cons
    exact Nat.succ_pos _
  obtain ⟨hclosing, -, -⟩ := getClosingSymbol_append s' hg.closing
  have hindex : u.length + (g.length - 1) + 1 = (u ++ g).length := by
    rw [List.length_append]
    omega
  rw [termStep, if_neg hs, firstFound_eq_scanFor hops.nonempty, h, ← openers,
    firstFound_eq_scanFor nil_notMem_openers, scanFor_append (plain_openers hu), hm]
  simp only [Option.map_some, Nat.zero_add, if_pos hk, hsymbols, Option.bind_some,
    List.drop_left, hclosing, hindex]
  rw [← List.append_assoc, List.drop_left, List.take_left]

/-- What `GetTerms` comes to behind a string without operators. -/
def afterTop (abort : Bool) (ops : List (List Char)) (w cur : List Char) : Option (List Term) :=
  match scanFor ops w with
  | none => some (if cur = [] then [] else [(cur, none)])
  | some (_, i) =>
    let rest := w.drop (ops.getD i []).length
    if abort then some [(cur, some i), (rest, none)]
    else (getTerms abort rest [] ops).map ([(cur, some i)] ++ ·)

theorem getTerms_nil (hops : Operators ops) :
    getTerms abort [] cur ops = some (if cur = [] then [] else [(cur, none)]) := by
  rw [getTerms_eq hops]
  rfl

theorem getTerms_bare (hops : Operators ops) (h : scanFor ops s = none) :
    getTerms abort s cur ops = afterTop abort ops [] (cur ++ s) := by
  by_cases hs : s = []
  · rw [hs, getTerms_nil hops, List.append_nil]
    rfl
  · have hne : cur ++ s ≠ [] := fun hnil ↦ hs (List.append_eq_nil_iff.mp hnil).2
    rw [getTerms_eq hops, termStep_none hops hs h]
    simp only [afterTop, scanFor, if_neg hne]

theorem eq_nil_of_bare (hw : w = [] ∨ ∃ i, scanFor ops w = some (0, i))
    (h : scanFor ops (s ++ w) = none) : w = [] := by
  obtain hnil | ⟨i, hi⟩ := hw
  · exact hnil
  · rw [scanFor_none_of_append h] at hi
    cases hi

/-- A string without operators outside of its groups is kept together. -/
theorem getTerms_top (hops : Operators ops) (h : Top ops w s)
    (hw : w = [] ∨ ∃ i, scanFor ops w = some (0, i)) :
    getTerms abort (s ++ w) cur ops = afterTop abort ops w (cur ++ s) := by
  generalize hn : s.length = n
  induction n using Nat.strong_induction_on generalizing s cur with
  | _ n ih =>
    obtain hnone | ⟨hopener, hplain⟩ | ⟨u, symbols, g, s', rfl, hopener, hplain, hg, hs'⟩ := h.cases
    · obtain rfl := eq_nil_of_bare hw hnone
      rw [List.append_nil] at hnone ⊢
      exact getTerms_bare hops hnone
    · have hscan := scanFor_append hplain
      obtain rfl | ⟨i, hi⟩ := hw
      · rw [List.append_nil] at hscan ⊢
        exact getTerms_bare hops hscan
      · rw [hi, Option.map_some, Nat.zero_add] at hscan
        rw [getTerms_eq hops, termStep_split hops hscan fun l hl ↦ ?_]
        · have hdrop : ∀ m, (s ++ w).drop (s.length + m) = w.drop m := by
            intro m
            rw [← List.drop_drop, List.drop_left]
          simp only [termStep.split, List.take_left, hdrop, afterTop, hi]
          cases abort <;> rfl
        · rw [scanFor_append (plain_openers hopener)] at hl
          obtain ⟨l', -, rfl⟩ := Option.map_eq_some_iff.mp hl
          exact Nat.le_add_left _ _
    · have hassoc : u ++ (g ++ s') ++ w = u ++ (g ++ (s' ++ w)) := by
        rw [List.append_assoc, List.append_assoc]
      cases hscan : scanFor ops (u ++ (g ++ (s' ++ w))) with
      | none =>
        rw [← hassoc] at hscan
        obtain rfl := eq_nil_of_bare hw hscan
        rw [List.append_nil] at hscan ⊢
        exact getTerms_bare hops hscan
      | some found =>
        obtain ⟨k, i⟩ := found
        have hk : u.length < k := by
          rw [scanFor_append hplain] at hscan
          obtain ⟨⟨k', i'⟩, hk', heq⟩ := Option.map_eq_some_iff.mp hscan
          cases heq
          have hpos := scanFor_group_pos hops hg hk'
          omega
        have hlt : s'.length < n := by
          obtain ⟨t, rfl⟩ := hg.exists_cons
          rw [← hn, List.length_append, List.length_append, List.length_cons]
          omega
        rw [hassoc, getTerms_eq hops, termStep_group hops hopener hg hscan hk]
        simp only [List.nil_append, Option.map_id']
        rw [ih s'.length hlt hs' rfl, List.append_assoc, List.append_assoc]

/-- The first group of a string. -/
theorem exists_group {l : ℕ × ℕ} {symbols : Char × Char} {closingPos : ℕ}
    (hscan : scanFor openers s = some l) (hsymbols : groupingSymbols[l.2]? = some symbols)
    (hclosing : getClosingSymbol symbols (s.drop l.1) = some closingPos) :
    ∃ u g s', s = u ++ (g ++ s') ∧ u.length = l.1 ∧ NoOpener u ∧ Group symbols g := by
  obtain ⟨hlt, -⟩ := scanFor_lt hscan
  refine ⟨s.take l.1, (s.drop l.1).take (closingPos + 1), (s.drop l.1).drop (closingPos + 1), ?_,
    ?_, ?_, ?_⟩
  · rw [List.take_append_drop, List.take_append_drop]
  · rw [List.length_take, Nat.min_eq_left hlt.le]
  · exact noOpener_of_plain (plain_of_scanFor hscan le_rfl)
  · exact group_take (List.mem_of_getElem? hsymbols) hclosing

/-- The terms with the operators behind them. -/
def rejoin (ops : List (List Char)) (ts : List Term) : List Char :=
  ts.flatMap fun t ↦ t.1 ++ t.2.elim [] fun i ↦ ops.getD i []

/-- What a round does: the suffix is finished, a group is taken over, or a term is split off. -/
theorem termStep_cases (hops : Operators ops) (h : termStep abort ops s cur ≠ .failed) :
    (s = [] ∧ termStep abort ops s cur = .finished (if cur = [] then [] else [(cur, none)])) ∨
    (scanFor ops s = none ∧ termStep abort ops s cur = .finished [(cur ++ s, none)]) ∨
    (∃ u symbols g s', s = u ++ (g ++ s') ∧ NoOpener u ∧ Plain ops (g ++ s') u ∧ Group symbols g ∧
      termStep abort ops s cur = .next [] s' (cur ++ (u ++ g))) ∨
    ∃ u p rest i, s = u ++ (p ++ rest) ∧ NoOpener u ∧ Plain ops (p ++ rest) u ∧ ops[i]? = some p ∧
      termStep abort ops s cur = if abort then .finished [(cur ++ u, some i), (rest, none)]
        else .next [(cur ++ u, some i)] rest [] := by
  by_cases hs : s = []
  · exact .inl ⟨hs, by rw [termStep, if_pos hs]⟩
  refine .inr ?_
  cases hscan : scanFor ops s with
  | none => exact .inl ⟨rfl, termStep_none hops hs hscan⟩
  | some found =>
    obtain ⟨k, i⟩ := found
    refine .inr ?_
    obtain ⟨-, p, hp, t, ht⟩ := scanFor_lt hscan
    have hsplit : (∀ l ∈ scanFor openers s, k ≤ l.1) → ∃ u p rest i, s = u ++ (p ++ rest) ∧
        NoOpener u ∧ Plain ops (p ++ rest) u ∧ ops[i]? = some p ∧
        termStep abort ops s cur = if abort then .finished [(cur ++ u, some i), (rest, none)]
          else .next [(cur ++ u, some i)] rest [] := by
      intro hopener
      refine ⟨s.take k, p, t, i, ?_, ?_, ?_, hp, ?_⟩
      · rw [ht, List.take_append_drop]
      · cases hscan' : scanFor openers s with
        | none =>
          rw [← List.take_append_drop k s] at hscan'
          exact noOpener_of_plain (plain_of_scanFor_none hscan')
        | some l => exact noOpener_of_plain (plain_of_scanFor hscan' (hopener l hscan'))
      · rw [ht]
        exact plain_of_scanFor hscan le_rfl
      · have hrest : s.drop (k + p.length) = t := by
          rw [← List.drop_drop, ← ht, List.drop_left]
        rw [termStep_split hops hscan hopener, termStep.split, List.getD_eq_getElem?_getD, hp]
        simp only [Option.getD_some, hrest]
    cases hscan' : scanFor openers s with
    | none => exact .inr (hsplit fun l hl ↦ by rw [hscan'] at hl; cases hl)
    | some l =>
      cases Nat.lt_or_ge l.1 k with
      | inr hge => exact .inr (hsplit fun l' hl' ↦ by rwa [Option.mem_unique hl' hscan'])
      | inl hlt =>
        cases hclosing : groupingSymbols[l.2]?.bind (getClosingSymbol · (s.drop l.1)) with
        | none =>
          refine absurd ?_ h
          rw [termStep, if_neg hs, firstFound_eq_scanFor hops.nonempty, hscan, ← openers,
            firstFound_eq_scanFor nil_notMem_openers, hscan']
          simp only [if_pos hlt, hclosing]
        | some closingPos =>
          obtain ⟨symbols, hsymbols, hclosing⟩ := Option.bind_eq_some_iff.mp hclosing
          obtain ⟨u, g, s', rfl, hu, hopener, hg⟩ := exists_group hscan' hsymbols hclosing
          rw [← hu] at hlt
          refine .inl ⟨u, symbols, g, s', rfl, hopener, ?_, hg,
            termStep_group hops hopener hg hscan hlt⟩
          have hplain := plain_of_scanFor hscan hlt.le
          rwa [List.drop_left, List.take_left] at hplain

end Terms

/-! ### Terms rejoined and split again -/

section Rejoin

variable {abort : Bool} {ops : List (List Char)} {s cur w u g rest : List Char} {ts : List Term}

theorem rejoin_cons (t : Term) (ts : List Term) :
    rejoin ops (t :: ts) = t.1 ++ (t.2.elim [] fun i ↦ ops.getD i []) ++ rejoin ops ts :=
  List.flatMap_cons

/-- The terms with their operators are the string that was split. -/
theorem rejoin_of_getTerms (hops : Operators ops) (h : getTerms abort s cur ops = some ts) :
    rejoin ops ts = cur ++ s := by
  generalize hn : s.length = n
  induction n using Nat.strong_induction_on generalizing s cur ts with
  | _ n ih =>
    rw [getTerms_eq hops] at h
    obtain ⟨rfl, hstep⟩ | ⟨-, hstep⟩ | ⟨u, symbols, g, s', rfl, -, -, hg, hstep⟩ |
      ⟨u, p, rest, i, rfl, -, -, hp, hstep⟩ := termStep_cases hops fun hfailed ↦ by
        rw [hfailed] at h
        cases h
    · rw [hstep] at h
      obtain rfl := Option.some.inj h
      split
      case isTrue hcur => simp [rejoin, hcur]
      case isFalse => simp [rejoin]
    · rw [hstep] at h
      obtain rfl := Option.some.inj h
      simp [rejoin]
    · have hlt := length_lt_of_next hops hstep
      rw [hstep] at h
      simp only [List.nil_append, Option.map_id'] at h
      rw [ih _ (hn ▸ hlt) h rfl, List.append_assoc, List.append_assoc]
    · cases abort with
      | true =>
        rw [hstep] at h
        obtain rfl := Option.some.inj h
        simp [rejoin, hp]
      | false =>
        have hlt := length_lt_of_next hops hstep
        rw [hstep] at h
        obtain ⟨ts', hts', rfl⟩ := Option.map_eq_some_iff.mp h
        have hoperator : ops.getD i [] = p := by
          rw [List.getD_eq_getElem?_getD, hp]
          rfl
        rw [List.singleton_append, rejoin_cons, ih _ (hn ▸ hlt) hts' rfl, Option.elim_some,
          hoperator, List.nil_append, List.append_assoc, List.append_assoc]

/-- Only what a group starts with tells operators from it, not what follows the group. -/
theorem Plain.group {symbols : Char × Char} (hops : Operators ops) (hg : Group symbols g)
    (h : Plain ops (g ++ rest) u) (rest' : List Char) : Plain ops (g ++ rest') u := by
  obtain ⟨t, rfl⟩ := hg.exists_cons
  induction u with
  | nil => trivial
  | cons c u ih =>
    refine ⟨fun p hp hprefix ↦ h.1 p hp ?_, ih h.2⟩
    rw [← List.cons_append] at hprefix ⊢
    have hle : p.length ≤ (c :: u).length := by
      by_contra hlt
      have hlt' : (c :: u).length < p.length := Nat.lt_of_not_le hlt
      have hget := List.prefix_iff_getElem?.mp hprefix _ hlt'
      rw [List.getElem?_append_right le_rfl, Nat.sub_self] at hget
      have hmem := List.getElem_mem hlt'
      rw [← Option.some.inj hget] at hmem
      exact hops.opener p hp symbols.1 hmem (List.mem_map_of_mem hg.mem)
    exact (List.prefix_of_prefix_length_le hprefix (List.prefix_append _ _) hle).trans
      (List.prefix_append _ _)

theorem Top.append_plain (hopener : NoOpener u) (hplain : Plain ops (s ++ w) u)
    (hs : Top ops w s) : Top ops w (u ++ s) := by
  induction u with
  | nil => exact hs
  | cons c u ih =>
    obtain ⟨hc, hu⟩ := List.forall_mem_cons.mp hopener
    refine .char hc (fun p hp hprefix ↦ hplain.1 p hp ?_) (ih hu hplain.2)
    rwa [← List.append_assoc]

theorem Plain.nil (h : Plain ops rest u) : Plain ops [] u := by
  induction u with
  | nil => trivial
  | cons c u ih =>
    refine ⟨fun p hp hp' ↦ h.1 p hp (hp'.trans ?_), ih h.2⟩
    rw [List.append_nil, ← List.cons_append]
    exact List.prefix_append _ _

/-- What the term so far consists of may stand in front of any string without operators. -/
def Kept (ops : List (List Char)) (cur : List Char) : Prop :=
  ∀ w s, Top ops w s → Top ops w (cur ++ s)

theorem kept_nil : Kept ops [] := fun _ _ hs ↦ hs

theorem Kept.top (h : Kept ops cur) : Top ops [] cur := by
  have htop := h [] [] .nil
  rwa [List.append_nil] at htop

/-- Splitting a term again gives the term. -/
theorem resplit (hops : Operators ops) (hcur : Kept ops cur)
    (h : getTerms false s cur ops = some ts) :
    ∀ t ∈ ts, t.1 = [] ∨ getTerms false t.1 [] ops = some [(t.1, none)] := by
  have htop : ∀ {t : List Char}, Top ops [] t → t = [] ∨
      getTerms false t [] ops = some [(t, none)] := by
    intro t ht
    by_cases hnil : t = []
    · exact .inl hnil
    · have hterms : getTerms false (t ++ []) [] ops = afterTop false ops [] ([] ++ t) :=
        getTerms_top hops ht (.inl rfl)
      rw [List.append_nil, List.nil_append] at hterms
      rw [hterms]
      exact .inr (congrArg some (if_neg hnil))
  generalize hn : s.length = n
  induction n using Nat.strong_induction_on generalizing s cur ts with
  | _ n ih =>
    rw [getTerms_eq hops] at h
    obtain ⟨rfl, hstep⟩ | ⟨hscan, hstep⟩ | ⟨u, symbols, g, s', rfl, hopener, hplain, hg, hstep⟩ |
      ⟨u, p, rest, i, rfl, hopener, hplain, hp, hstep⟩ := termStep_cases hops fun hfailed ↦ by
        rw [hfailed] at h
        cases h
    · rw [hstep] at h
      obtain rfl := Option.some.inj h
      intro t ht
      split at ht
      case isTrue => cases ht
      case isFalse =>
        rw [List.mem_singleton.mp ht]
        exact htop hcur.top
    · rw [hstep] at h
      obtain rfl := Option.some.inj h
      intro t ht
      rw [List.mem_singleton.mp ht]
      refine htop (hcur [] s (.bare ?_))
      rwa [List.append_nil]
    · have hlt := length_lt_of_next hops hstep
      rw [hstep] at h
      simp only [List.nil_append, Option.map_id'] at h
      refine ih _ (hn ▸ hlt) (fun w r hr ↦ ?_) h rfl
      rw [List.append_assoc, List.append_assoc]
      refine hcur w _ (Top.append_plain hopener ?_ (.group hg hr))
      rw [List.append_assoc]
      exact hplain.group hops hg _
    · have hlt := length_lt_of_next hops hstep
      rw [hstep] at h
      obtain ⟨ts', hts', rfl⟩ := Option.map_eq_some_iff.mp h
      intro t ht
      rw [List.singleton_append, List.mem_cons] at ht
      obtain rfl | ht := ht
      · refine htop ?_
        have hu : Top ops [] (u ++ []) := Top.append_plain hopener hplain.nil .nil
        have hall := hcur [] _ hu
        rwa [List.append_nil] at hall
      · exact ih _ (hn ▸ hlt) kept_nil hts' rfl t ht

/-- `GetTerms` loses nothing, and splits as far as it can. -/
theorem getTerms_rejoin (hops : Operators ops) (h : getTerms false s [] ops = some ts) :
    rejoin ops ts = s ∧
      ∀ t ∈ ts, t.1 = [] ∨ getTerms false t.1 [] ops = some [(t.1, none)] :=
  ⟨rejoin_of_getTerms hops h, resplit hops kept_nil h⟩

theorem operators_additive : Operators [['+'], ['-']] := ⟨by simp, by simp [groupingSymbols]⟩

theorem getTerms_rejoin_nested :
    rejoin [['+'], ['-']] [(['a'], some 0), (['(', 'b', '-', 'c', ')'], some 1), (['d'], none)] =
        ['a', '+', '(', 'b', '-', 'c', ')', '-', 'd'] ∧
      ∀ t ∈ [(['a'], some 0), (['(', 'b', '-', 'c', ')'], some 1), (['d'], none)],
        t.1 = [] ∨ getTerms false t.1 [] [['+'], ['-']] = some [(t.1, none)] :=
  getTerms_rejoin operators_additive (by decide)

end Rejoin

end Safrn.Util
