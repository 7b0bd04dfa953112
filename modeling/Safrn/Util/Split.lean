import Mathlib.Data.List.Infix
import Mathlib.Data.List.Count

/-!
# Strings split and joined

Models `Join` of a vector of strings (`Util/string_utils.cpp:1832-1850`) and `Split` at a string and
at the characters of a set (`:2012-2047` and `:2112-2160`).
-/

namespace Safrn.Util

/-- A line: `Join` writes the delimiter in front of each string but the first. Whether there was a
first one is told by the output, or by a flag if that string is empty. -/
def joinStep (delimiter : List Char) (s : List Char × Bool) (itr : List Char) : List Char × Bool :=
  let (output, firstElementIsEmptyStr) := s
  if output = [] ∧ firstElementIsEmptyStr = false then (itr, decide (itr = []))
  else (output ++ (delimiter ++ itr), firstElementIsEmptyStr)

/-- `Join`. -/
def join (input : List (List Char)) (delimiter : List Char) : List Char :=
  (input.foldl (joinStep delimiter) ([], false)).1

/-- `find`: how far on the delimiter stands first. -/
def find (delimiter : List Char) : List Char → Option ℕ
  | [] => if delimiter = [] then some 0 else none
  | c :: rest =>
    if delimiter <+: c :: rest then some 0 else (find delimiter rest).map (· + 1)

/-- A string between delimiters is stored unless it is empty and the empty ones are skipped. -/
def stored (skipEmpty : Bool) (token : List Char) : List (List Char) :=
  if token = [] then (if skipEmpty then [] else [[]]) else [token]

theorem le_length_of_find {delimiter s : List Char} {pos : ℕ} (h : find delimiter s = some pos) :
    pos + delimiter.length ≤ s.length := by
  induction s generalizing pos with
  | nil =>
    rw [find] at h
    split at h
    case isTrue hnil =>
      cases h
      rw [hnil]
      rfl
    case isFalse => cases h
  | cons c rest ih =>
    rw [find] at h
    split at h
    case isTrue hhead =>
      cases h
      rw [Nat.zero_add]
      exact hhead.length_le
    case isFalse =>
      obtain ⟨pos', hpos', rfl⟩ := Option.map_eq_some_iff.mp h
      have hle := ih hpos'
      rw [List.length_cons]
      omega

/-- The loop of `Split` behind `prev_pos`. -/
def splitLoop (delimiter : List Char) (hd : delimiter ≠ []) (skipEmpty : Bool) (input : List Char) :
    List (List Char) :=
  match _h : find delimiter input with
  | none => stored skipEmpty input
  | some pos =>
    stored skipEmpty (input.take pos) ++
      splitLoop delimiter hd skipEmpty (input.drop (pos + delimiter.length))
termination_by input.length
decreasing_by
  have hle := le_length_of_find _h
  have hpos : 0 < delimiter.length := List.length_pos_of_ne_nil hd
  rw [List.length_drop]
  omega

/-- `Split` at a string. There is nothing to do for an empty input or delimiter. -/
def split (input delimiter : List Char) (skipEmpty : Bool) (output : List (List Char)) :
    List (List Char) :=
  if h : input = [] ∨ delimiter = [] then output
  else output ++ splitLoop delimiter (fun hd ↦ h (.inr hd)) skipEmpty input

/-- The loop of `Split` at characters. -/
def splitCharsLoop (delimiters : List Char) (skipEmpty : Bool) (currentToken : List Char) :
    List Char → List (List Char)
  | [] => if currentToken ≠ [] then [currentToken] else []
  | c :: rest =>
    if c ∈ delimiters then
      stored skipEmpty currentToken ++ splitCharsLoop delimiters skipEmpty [] rest
    else splitCharsLoop delimiters skipEmpty (currentToken ++ [c]) rest

/-- `Split` at the characters of a set. -/
def splitChars (input delimiters : List Char) (skipEmpty : Bool) (output : List (List Char)) :
    List (List Char) :=
  if input = [] ∨ delimiters = [] then output
  else output ++ splitCharsLoop delimiters skipEmpty [] input

/-! ### Joined strings -/

/-- Once there is output, or the first string was empty, all strings get a delimiter. -/
theorem foldl_joinStep (delimiter : List Char) {output : List Char} {flag : Bool}
    (h : output ≠ [] ∨ flag = true) (input : List (List Char)) :
    (input.foldl (joinStep delimiter) (output, flag)).1 =
      output ++ input.flatMap (delimiter ++ ·) := by
  induction input generalizing output with
  | nil => rw [List.foldl_nil, List.flatMap_nil, List.append_nil]
  | cons itr input ih =>
    have hstep : joinStep delimiter (output, flag) itr = (output ++ (delimiter ++ itr), flag) := by
      rw [joinStep, if_neg]
      rintro ⟨hnil, hflag⟩
      obtain h | h := h
      · exact h hnil
      · exact Bool.false_ne_true (hflag.symm.trans h)
    have hnext : output ++ (delimiter ++ itr) ≠ [] ∨ flag = true := by
      obtain h | h := h
      · exact .inl (List.append_ne_nil_of_left_ne_nil h _)
      · exact .inr h
    rw [List.foldl_cons, hstep, ih hnext, List.flatMap_cons, List.append_assoc, List.append_assoc]

theorem join_cons (delimiter x : List Char) (xs : List (List Char)) :
    join (x :: xs) delimiter = x ++ xs.flatMap (delimiter ++ ·) := by
  have hflag : x ≠ [] ∨ decide (x = []) = true := by
    by_cases hx : x = []
    · exact .inr (decide_eq_true hx)
    · exact .inl hx
  have hstep : joinStep delimiter ([], false) x = (x, decide (x = [])) := by
    rw [joinStep, if_pos ⟨rfl, rfl⟩]
  rw [join, List.foldl_cons, hstep, foldl_joinStep delimiter hflag]

theorem join_cons_cons (delimiter x y : List Char) (xs : List (List Char)) :
    join (x :: y :: xs) delimiter = x ++ (delimiter ++ join (y :: xs) delimiter) := by
  rw [join_cons, join_cons, List.flatMap_cons, List.append_assoc]

theorem join_eq_nil_iff {delimiter : List Char} (hd : delimiter ≠ []) {xs : List (List Char)}
    (hxs : xs ≠ []) : join xs delimiter = [] ↔ xs = [[]] := by
  cases xs with
  | nil => exact absurd rfl hxs
  | cons x xs =>
    rw [join_cons]
    constructor
    · intro h
      obtain ⟨rfl, hrest⟩ := List.append_eq_nil_iff.mp h
      cases xs with
      | nil => rfl
      | cons y xs =>
        rw [List.flatMap_cons] at hrest
        exact absurd (List.append_eq_nil_iff.mp (List.append_eq_nil_iff.mp hrest).1).1 hd
    · rintro h
      cases h
      rfl

/-! ### Where a delimiter stands -/

section

variable {delimiter : List Char}

theorem find_eq_some_iff (hd : delimiter ≠ []) {s : List Char} {pos : ℕ} :
    find delimiter s = some pos ↔
      delimiter <+: s.drop pos ∧ ∀ j < pos, ¬delimiter <+: s.drop j := by
  induction s generalizing pos with
  | nil =>
    rw [find, if_neg hd]
    refine iff_of_false (by simp) fun h ↦ ?_
    rw [List.drop_nil, List.prefix_nil] at h
    exact hd h.1
  | cons c rest ih =>
    rw [find]
    split
    case isTrue hhead =>
      constructor
      · intro h
        cases h
        exact ⟨hhead, fun j hj ↦ absurd hj (Nat.not_lt_zero j)⟩
      · rintro ⟨-, hfirst⟩
        rcases Nat.eq_zero_or_pos pos with rfl | hpos
        · rfl
        · exact absurd hhead (hfirst 0 hpos)
    case isFalse hhead =>
      rw [Option.map_eq_some_iff]
      constructor
      · rintro ⟨pos, hpos, rfl⟩
        obtain ⟨hfound, hfirst⟩ := ih.mp hpos
        refine ⟨hfound, fun j hj ↦ ?_⟩
        cases j with
        | zero => exact hhead
        | succ j => exact hfirst j (by omega)
      · rintro ⟨hfound, hfirst⟩
        cases pos with
        | zero => exact absurd hfound hhead
        | succ pos => exact ⟨pos, ih.mpr ⟨hfound, fun j hj ↦ hfirst (j + 1) (by omega)⟩, rfl⟩

theorem find_eq_none_iff (hd : delimiter ≠ []) {s : List Char} :
    find delimiter s = none ↔ ¬delimiter <:+: s := by
  induction s with
  | nil =>
    rw [find, if_neg hd, List.infix_nil]
    exact iff_of_true rfl hd
  | cons c rest ih =>
    rw [find, List.infix_cons_iff, not_or]
    split
    case isTrue hhead => exact iff_of_false (by simp) fun h ↦ h.1 hhead
    case isFalse hhead => rw [Option.map_eq_none_iff, ih, and_iff_right hhead]

/-- In `x` and a delimiter behind it, one stands further in front. -/
def Overlaps (delimiter x : List Char) : Prop :=
  ∃ j < x.length, delimiter <+: (x ++ delimiter).drop j

theorem prefix_drop_append_iff {x rest : List Char} {j : ℕ} (hj : j ≤ x.length) :
    delimiter <+: (x ++ (delimiter ++ rest)).drop j ↔ delimiter <+: (x ++ delimiter).drop j := by
  have hle : j ≤ (x ++ delimiter).length := by
    rw [List.length_append]
    omega
  have hlength : delimiter.length ≤ ((x ++ delimiter).drop j).length := by
    rw [List.length_drop, List.length_append]
    omega
  rw [← List.append_assoc, List.drop_append_of_le_length hle]
  exact ⟨fun h ↦ List.prefix_of_prefix_length_le h (List.prefix_append _ _) hlength,
    fun h ↦ h.trans (List.prefix_append _ _)⟩

theorem prefix_drop_length (x rest : List Char) :
    delimiter <+: (x ++ (delimiter ++ rest)).drop x.length := by
  rw [List.drop_left]
  exact List.prefix_append _ _

/-- The first delimiter behind `x` is found unless it overlaps with `x`. -/
theorem find_append_iff (hd : delimiter ≠ []) (x rest : List Char) :
    find delimiter (x ++ (delimiter ++ rest)) = some x.length ↔ ¬Overlaps delimiter x := by
  rw [find_eq_some_iff hd, and_iff_right (prefix_drop_length x rest), Overlaps]
  constructor
  · rintro hfirst ⟨j, hj, hhead⟩
    exact hfirst j hj ((prefix_drop_append_iff hj.le).mpr hhead)
  · intro h j hj hhead
    exact h ⟨j, hj, (prefix_drop_append_iff hj.le).mp hhead⟩

/-- Some delimiter is found, at the latest the one behind `x`. -/
theorem exists_find (hd : delimiter ≠ []) (x rest : List Char) :
    ∃ pos ≤ x.length, find delimiter (x ++ (delimiter ++ rest)) = some pos := by
  cases h : find delimiter (x ++ (delimiter ++ rest)) with
  | none =>
    exact absurd ⟨x, rest, by rw [List.append_assoc]⟩ ((find_eq_none_iff hd).mp h)
  | some pos =>
    refine ⟨pos, ?_, rfl⟩
    by_contra hlt
    exact ((find_eq_some_iff hd).mp h).2 x.length (not_le.mp hlt) (prefix_drop_length x rest)

/-! ### Split strings -/

theorem stored_false (token : List Char) : stored false token = [token] := by
  rw [stored]
  split
  case isTrue hnil => rw [hnil, if_neg Bool.false_ne_true]
  case isFalse => rfl

theorem splitLoop_of_none (hd : delimiter ≠ []) {skipEmpty : Bool} {input : List Char}
    (h : find delimiter input = none) :
    splitLoop delimiter hd skipEmpty input = stored skipEmpty input := by
  rw [splitLoop]
  split
  case h_1 => rfl
  case h_2 pos hpos => exact absurd (h.symm.trans hpos) (by simp)

theorem splitLoop_of_some (hd : delimiter ≠ []) {skipEmpty : Bool} {input : List Char} {pos : ℕ}
    (h : find delimiter input = some pos) :
    splitLoop delimiter hd skipEmpty input = stored skipEmpty (input.take pos) ++
      splitLoop delimiter hd skipEmpty (input.drop (pos + delimiter.length)) := by
  rw [splitLoop]
  split
  case h_1 hnone => exact absurd (hnone.symm.trans h) (by simp)
  case h_2 pos' hpos' =>
    obtain rfl := Option.some.inj (hpos'.symm.trans h)
    rfl

theorem splitLoop_ne_nil (hd : delimiter ≠ []) (input : List Char) :
    splitLoop delimiter hd false input ≠ [] := by
  cases h : find delimiter input with
  | none =>
    rw [splitLoop_of_none hd h, stored_false]
    exact List.cons_ne_nil _ _
  | some pos =>
    rw [splitLoop_of_some hd h, stored_false]
    exact List.cons_ne_nil _ _

/-- What was joined is split again if no delimiter is found too early. -/
theorem splitLoop_join_iff (hd : delimiter ≠ []) {xs : List (List Char)} (hxs : xs ≠ []) :
    splitLoop delimiter hd false (join xs delimiter) = xs ↔
      (∀ x ∈ xs.dropLast, ¬Overlaps delimiter x) ∧ ¬delimiter <:+: xs.getLast hxs := by
  induction xs with
  | nil => exact absurd rfl hxs
  | cons x xs ih =>
    cases xs with
    | nil =>
      rw [join_cons, List.flatMap_nil, List.append_nil, List.getLast_singleton]
      rw [and_iff_right (by simp), ← find_eq_none_iff hd]
      constructor
      · intro h
        cases hfind : find delimiter x with
        | none => rfl
        | some pos =>
          rw [splitLoop_of_some hd hfind, stored_false] at h
          exact absurd (List.cons.inj h).2 (splitLoop_ne_nil hd _)
      · intro h
        rw [splitLoop_of_none hd h, stored_false]
    | cons y xs =>
      rw [join_cons_cons, List.dropLast_cons_of_ne_nil (List.cons_ne_nil y xs),
        List.forall_mem_cons, List.getLast_cons (List.cons_ne_nil y xs), and_assoc,
        ← ih (List.cons_ne_nil y xs), ← find_append_iff hd x (join (y :: xs) delimiter)]
      obtain ⟨pos, hle, hfind⟩ := exists_find hd x (join (y :: xs) delimiter)
      rw [splitLoop_of_some hd hfind, stored_false, hfind, List.singleton_append, List.cons.injEq]
      by_cases hpos : pos = x.length
      · have hdrop : (x ++ (delimiter ++ join (y :: xs) delimiter)).drop
            (x.length + delimiter.length) = join (y :: xs) delimiter := by
          rw [← List.append_assoc, ← List.length_append, List.drop_left]
        rw [hpos, List.take_left, hdrop, and_iff_right rfl, and_iff_right rfl]
      · refine iff_of_false (fun h ↦ ?_) fun h ↦ hpos (Option.some.inj h.1)
        have hlength := congrArg List.length h.1
        rw [List.length_take, List.length_append] at hlength
        omega

/-! ### Single characters -/

theorem find_single_append {c : Char} {token rest : List Char} (h : c ∉ token) :
    find [c] (token ++ c :: rest) = some token.length := by
  have hnot : ¬Overlaps [c] token := by
    rintro ⟨j, hj, hhead⟩
    rw [List.drop_append_of_le_length hj.le, List.drop_eq_getElem_cons hj] at hhead
    obtain rfl : c = token[j] := (List.cons_prefix_cons.mp hhead).1
    exact h (List.getElem_mem hj)
  exact (find_append_iff (List.cons_ne_nil c []) token rest).mpr hnot

theorem find_single_of_notMem {c : Char} {token : List Char} (h : c ∉ token) :
    find [c] token = none := by
  rw [find_eq_none_iff (List.cons_ne_nil c [])]
  exact fun hin ↦ h (hin.subset List.mem_cons_self)

/-- What only the split at a string stores: an empty string at the end. -/
def lastEmpty (c : Char) (skipEmpty : Bool) (input : List Char) : List (List Char) :=
  if skipEmpty = false ∧ (input = [] ∨ input.getLast? = some c) then [[]] else []

theorem splitLoop_single_eq {c : Char} {skipEmpty : Bool} {token : List Char} (h : c ∉ token)
    (input : List Char) :
    splitLoop [c] (List.cons_ne_nil c []) skipEmpty (token ++ input) =
      splitCharsLoop [c] skipEmpty token input ++ lastEmpty c skipEmpty (token ++ input) := by
  induction input generalizing token with
  | nil =>
    rw [List.append_nil, splitLoop_of_none _ (find_single_of_notMem h), splitCharsLoop, stored]
    by_cases hnil : token = []
    · cases skipEmpty <;> simp [lastEmpty, hnil]
    · have hlast : token.getLast? ≠ some c := fun heq ↦ h (List.mem_of_getLast? heq)
      simp [lastEmpty, hnil, hlast]
  | cons a input ih =>
    by_cases ha : a = c
    · subst ha
      have hdrop : (token ++ a :: input).drop (token.length + [a].length) = input := by
        rw [← List.drop_drop, List.drop_left]
        rfl
      have hlast : lastEmpty a skipEmpty (token ++ a :: input) = lastEmpty a skipEmpty input := by
        cases input with
        | nil => simp [lastEmpty]
        | cons b input => simp [lastEmpty, List.getLast?_cons_cons]
      have hnext := @ih [] List.not_mem_nil
      rw [List.nil_append] at hnext
      rw [splitLoop_of_some _ (find_single_append h), List.take_left, hdrop, hnext, splitCharsLoop,
        if_pos (List.mem_singleton.mpr rfl), hlast, List.append_assoc]
    · have htoken : c ∉ token ++ [a] := by
        rw [List.mem_append, List.mem_singleton, not_or]
        exact ⟨h, fun heq ↦ ha heq.symm⟩
      have hsplit : token ++ a :: input = token ++ [a] ++ input := by
        rw [List.append_assoc, List.singleton_append]
      rw [splitCharsLoop, if_neg (fun hmem ↦ ha (List.mem_singleton.mp hmem)), hsplit, ih htoken]

/-- A string is split into one more string than there are delimiters. -/
theorem length_splitLoop_single {c : Char} {token : List Char} (h : c ∉ token) (input : List Char) :
    (splitLoop [c] (List.cons_ne_nil c []) false (token ++ input)).length = input.count c + 1 := by
  induction input generalizing token with
  | nil =>
    rw [List.append_nil, splitLoop_of_none _ (find_single_of_notMem h), stored_false]
    rfl
  | cons a input ih =>
    by_cases ha : a = c
    · subst ha
      have hdrop : (token ++ a :: input).drop (token.length + [a].length) = input := by
        rw [← List.drop_drop, List.drop_left]
        rfl
      have hnext := @ih [] List.not_mem_nil
      rw [List.nil_append] at hnext
      rw [splitLoop_of_some _ (find_single_append h), List.take_left, hdrop, stored_false,
        List.singleton_append, List.length_cons, hnext, List.count_cons_self]
    · have htoken : c ∉ token ++ [a] := by
        rw [List.mem_append, List.mem_singleton, not_or]
        exact ⟨h, fun heq ↦ ha heq.symm⟩
      rw [List.count_cons_of_ne ha, ← ih htoken, List.append_assoc, List.singleton_append]

end

/-! ### The laws -/

theorem split_join_eq_iff {delimiter : List Char} (hd : delimiter ≠ []) {xs : List (List Char)}
    (hxs : xs ≠ []) (hfree : ∀ x ∈ xs, ¬delimiter <:+: x) :
    split (join xs delimiter) delimiter false [] = xs ↔
      xs ≠ [[]] ∧ ∀ x ∈ xs.dropLast, ¬Overlaps delimiter x := by
  by_cases hempty : xs = [[]]
  · subst hempty
    rw [split, dif_pos (.inl ((join_eq_nil_iff hd hxs).mpr rfl))]
    exact iff_of_false (by simp) fun h ↦ h.1 rfl
  · have hne : ¬(join xs delimiter = [] ∨ delimiter = []) := by
      rintro (h | h)
      · exact hempty ((join_eq_nil_iff hd hxs).mp h)
      · exact hd h
    rw [split, dif_neg hne, List.nil_append, splitLoop_join_iff hd hxs, and_iff_right hempty,
      and_iff_left (hfree _ (List.getLast_mem hxs))]

theorem length_split_single_iff (line : List Char) (c : Char) :
    (split line [c] false []).length = line.count c + 1 ↔ line ≠ [] := by
  by_cases h : line = []
  · subst h
    exact iff_of_false (by simp [split]) fun h ↦ h rfl
  · have hne : ¬(line = [] ∨ [c] = []) := by simp [h]
    have hlength := length_splitLoop_single (c := c) List.not_mem_nil line
    rw [List.nil_append] at hlength
    rw [split, dif_neg hne, List.nil_append, hlength]
    exact iff_of_true rfl h

theorem split_single_eq_splitChars_iff (input : List Char) (c : Char) (skipEmpty : Bool)
    (output : List (List Char)) :
    split input [c] skipEmpty output = splitChars input [c] skipEmpty output ↔
      skipEmpty = true ∨ input.getLast? ≠ some c := by
  by_cases h : input = []
  · subst h
    exact iff_of_true rfl (.inr (by simp))
  · have hne : ¬(input = [] ∨ [c] = []) := by simp [h]
    have heq := @splitLoop_single_eq c skipEmpty [] List.not_mem_nil input
    rw [List.nil_append] at heq
    rw [split, dif_neg hne, splitChars, if_neg hne, heq, List.append_cancel_left_eq, lastEmpty]
    split
    case isTrue hlast =>
      refine iff_of_false (by simp) ?_
      rintro (hskip | hother)
      · exact Bool.false_ne_true (hlast.1.symm.trans hskip)
      · exact hother (hlast.2.resolve_left h)
    case isFalse hlast =>
      refine iff_of_true (List.append_nil _) ?_
      cases skipEmpty with
      | true => exact .inl rfl
      | false => exact .inr fun hsome ↦ hlast ⟨rfl, .inr hsome⟩

/-- **Split and join.** Joined strings are split again unless there is a single empty one or a
delimiter is found too early; a line has as many cells as it has delimiters plus one unless it is
empty; and both ways to split at a character agree unless it is the last one and empty strings are
kept. -/
theorem split_join_iff (delimiter : List Char) (xs : List (List Char)) (hd : delimiter ≠ [])
    (hxs : xs ≠ []) (hfree : ∀ x ∈ xs, ¬delimiter <:+: x) :
    (split (join xs delimiter) delimiter false [] = xs ↔
      xs ≠ [[]] ∧ ∀ x ∈ xs.dropLast, ¬Overlaps delimiter x) ∧
    (∀ line c, (split line [c] false []).length = line.count c + 1 ↔ line ≠ []) ∧
    ∀ input c skipEmpty output,
      split input [c] skipEmpty output = splitChars input [c] skipEmpty output ↔
        skipEmpty = true ∨ input.getLast? ≠ some c :=
  ⟨split_join_eq_iff hd hxs hfree, length_split_single_iff, split_single_eq_splitChars_iff⟩

/-- The cells `a` and an empty one. -/
theorem split_join_iff_comma :
    [','] ≠ [] ∧ [['a'], []] ≠ ([] : List (List Char)) ∧ (∀ x ∈ [['a'], []], ¬[','] <:+: x) ∧
      (split (join [['a'], []] [',']) [','] false [] = [['a'], []] ↔
        [['a'], []] ≠ [([] : List Char)] ∧ ∀ x ∈ [['a'], []].dropLast, ¬Overlaps [','] x) ∧
      (∀ line c, (split line [c] false []).length = line.count c + 1 ↔ line ≠ []) ∧
      ∀ input c skipEmpty output,
        split input [c] skipEmpty output = splitChars input [c] skipEmpty output ↔
          skipEmpty = true ∨ input.getLast? ≠ some c :=
  ⟨by decide, by decide, by decide, split_join_iff [','] [['a'], []] (by decide) (by decide)
    (by decide)⟩

/-- A comma at the end is no cell for the split at characters. -/
theorem not_split_eq_splitChars :
    ¬∀ (input : List Char) (c : Char),
      split input [c] false [] = splitChars input [c] false [] := by
  intro h
  have hlast := (split_single_eq_splitChars_iff ['a', ','] ',' false []).mp (h _ _)
  simp at hlast

end Safrn.Util
