import Mathlib.Data.Int.Notation
import Mathlib.Data.List.Forall2
import Mathlib.Data.List.Nodup
import Safrn.Java.Status

/-!
# The parameters of a query

Models `FrontServerHttpHandler.java:639-808,1423-1429`: how the front server reads the query part of
a request and which requests it accepts. `Uris.decode` is a parameter; an exception that it throws
ends the request, which is then not accepted. A Java string is the list of its characters.
-/

namespace Safrn.Http

open Safrn.Java

/-- A Java string. -/
abbrev Text := List Char

/-- The names of the columns that `FrontServerGlobals` allows. -/
structure Columns where
  dvList : List Text
  ivList : List Text

namespace Columns

variable (columns : Columns)

/-- `colnames`. -/
def colnames : List Text := columns.dvList ++ columns.ivList

/-- `colnames.indexOf`. -/
def indexOf (col : Text) : ℤ := (columns.colnames.idxOf? col).elim (-1) Int.ofNat

end Columns

/-- `opt`. -/
def opt : List Text :=
  ["analysis".toList, "iv".toList, "dv".toList, "loanlink".toList, "countonlymean".toList]

/-- What a `List<Integer>` can be asked for. -/
inductive JavaObject
  | integer (value : ℤ)
  | string (value : Text)
  deriving DecidableEq

/-- `contains`: an `Integer` equals no `String`. -/
def contains (list : List ℤ) (x : JavaObject) : Bool := list.any fun i ↦ x = .integer i

/-- The variables of the parser. -/
structure Parameters where
  errorMsg : Text
  success : Bool
  optfound : ℕ → Bool
  myAnalysis : Text
  myIv : List ℤ
  myDv : List ℤ
  loanlinkbool : Bool
  countonlymeanint : ℕ

namespace Parameters

/-- Their first values. -/
def start : Parameters := ⟨[], true, fun _ ↦ false, [], [], [], false, 0⟩

/-- An error: `errorMsg +=` and `success = false`. -/
def fail (s : Parameters) (message : Text) : Parameters :=
  { s with errorMsg := s.errorMsg ++ message, success := false }

/-- An error under a condition. -/
def failWhen (s : Parameters) (c : Prop) [Decidable c] (message : Text) : Parameters :=
  if c then s.fail message else s

/-- `optfound[j] = true`. -/
def found (s : Parameters) (j : ℕ) : Parameters :=
  { s with optfound := fun i ↦ if i = j then true else s.optfound i }

/-- `split("=", 2)`: what is before the first `=`, and what is behind it. -/
def splitPair (seg : Text) : Text × Option Text :=
  match seg.dropWhile (· ≠ '=') with
  | [] => (seg, none)
  | _ :: value => (seg.takeWhile (· ≠ '='), some value)

section

variable (decode : Text → Except Status Text) (columns : Columns)

/-- The loop over `cols`: the columns that are added, and the error. -/
def readColumns (valid : List Text) (kind : Text) (key : Text → JavaObject) :
    List Text → List ℤ → Except Status (List ℤ × Option Text)
  | [], my => .ok (my, none)
  | col :: cols, my => do
    let col ← decode col
    if contains my (key col) then
      return (my, some ("ERROR: Duplicated ".toList ++ kind ++ " variable ".toList ++ col ++
        " \\n".toList))
    else if col ∈ valid then
      readColumns valid kind key cols (my ++ [columns.indexOf col])
    else
      return (my, some ("ERROR: Invalid ".toList ++ kind ++ " variable ".toList ++ col ++
        " \\n".toList))

/-- The loop for `iv`. -/
def readIv : List Text → List ℤ → Except Status (List ℤ × Option Text) :=
  readColumns decode columns columns.ivList "independent".toList fun col ↦
    .integer (columns.indexOf col)

/-- The loop for `dv`. -/
def readDv : List Text → List ℤ → Except Status (List ℤ × Option Text) :=
  readColumns decode columns columns.dvList "dependent".toList .string

/-- The error of a loop. -/
def failIf (s : Parameters) : Option Text → Parameters
  | none => s
  | some message => s.fail message

/-- The `switch` over the option. -/
def readOption (s : Parameters) (j : ℕ) (value : Text) : Except Status Parameters :=
  match j with
  | 0 => do
    let value ← decode value
    if value = "mean".toList ∨ value = "freq".toList then return { s with myAnalysis := value }
    else return s.fail "ERROR: Must use mean or freq for analysis \\n".toList
  | 1 => do
    let (myIv, error) ← readIv decode columns (value.splitOn '+') s.myIv
    return failIf { s with myIv } error
  | 2 => do
    let (myDv, error) ← readDv decode columns (value.splitOn '+') s.myDv
    return failIf { s with myDv } error
  | 3 => .ok { s with loanlinkbool := value = "1".toList }
  | 4 =>
    if value = "1".toList then .ok { s with countonlymeanint := 1 }
    else if value = "2".toList then .ok { s with countonlymeanint := 2 }
    else .ok s
  | _ => .ok s

/-- One round of the loop over `seg`. -/
def readSegment (s : Parameters) (seg : Text) : Except Status Parameters :=
  if seg = [] then .ok (s.fail "ERROR: Missing parameter? \\n".toList)
  else do
    let (name, value) := splitPair seg
    let name ← decode name
    match value with
    | none => return s.fail ("ERROR: Missing = after ".toList ++ seg ++ "\\n".toList)
    | some value =>
      let j := opt.idxOf name
      if j < opt.length ∧ ¬s.optfound j then
        readOption decode columns (s.found j) j value
      else
        return s.fail
          ("ERROR: Invalid or duplicated option: ".toList ++ name ++ "\\n".toList)

/-- The loop over `seg`. -/
def readSegments : List Text → Parameters → Except Status Parameters
  | [], s => .ok s
  | seg :: segs, s => do
    let s ← readSegment decode columns s seg
    if s.success then readSegments segs s else return s

/-- The checks behind the loop. -/
def check (s : Parameters) : Parameters :=
  if s.success then
    let s := s.failWhen (s.myAnalysis ≠ "freq".toList ∧ s.myAnalysis ≠ "mean".toList)
      ("ERROR: Invalid analysis ".toList ++ s.myAnalysis ++ " \\n".toList)
    let s := s.failWhen (s.myAnalysis = "freq".toList ∧ s.myDv ≠ [])
      "ERROR: Cannot have dv for frequency analysis \\n".toList
    s.failWhen (s.myAnalysis = "mean".toList ∧ s.myDv = [])
      "ERROR: Need dv for mean analysis \\n".toList
  else s

/-- The parameters of a request. -/
def read (requestQuery : Option Text) : Except Status Parameters := do
  return check (← readSegments decode columns ((requestQuery.getD []).splitOn '&') start)

/-- The request is accepted. -/
def Accepts (requestQuery : Option Text) : Prop :=
  ∃ s, read decode columns requestQuery = .ok s ∧ s.success = true

instance (requestQuery : Option Text) : Decidable (Accepts decode columns requestQuery) :=
  match h : read decode columns requestQuery with
  | .ok s => decidable_of_iff (s.success = true) (by simp [Accepts, h])
  | .error _ => .isFalse (by simp [Accepts, h])

end

end Parameters

/-! ## Requests by design -/

/-- The options. -/
inductive QueryOption
  | analysis
  | iv
  | dv
  | loanlink
  | countonlymean
  deriving DecidableEq

namespace QueryOption

/-- The text of an option. -/
def text : QueryOption → Text
  | analysis => "analysis".toList
  | iv => "iv".toList
  | dv => "dv".toList
  | loanlink => "loanlink".toList
  | countonlymean => "countonlymean".toList

/-- The index of an option. -/
def index : QueryOption → ℕ
  | analysis => 0
  | iv => 1
  | dv => 2
  | loanlink => 3
  | countonlymean => 4

theorem idxOf_text (o : QueryOption) : opt.idxOf o.text = o.index := by
  cases o <;> decide

theorem index_lt (o : QueryOption) : o.index < opt.length := by
  cases o <;> decide

theorem exists_text {name : Text} (h : name ∈ opt) : ∃ o : QueryOption, o.text = name := by
  simp only [opt, List.mem_cons, List.not_mem_nil, or_false] at h
  rcases h with rfl | rfl | rfl | rfl | rfl
  · exact ⟨analysis, rfl⟩
  · exact ⟨iv, rfl⟩
  · exact ⟨dv, rfl⟩
  · exact ⟨loanlink, rfl⟩
  · exact ⟨countonlymean, rfl⟩

theorem index_injective {o o' : QueryOption} (h : o.index = o'.index) : o = o' := by
  cases o <;> cases o' <;> first | rfl | exact absurd h (by decide)

end QueryOption

/-- The options of a request, with the texts of their values. -/
abbrev Params := List (QueryOption × Text)

section

variable (decode : Text → Except Status Text) (columns : Columns)

/-- A segment is an option, `=` and its value. -/
def Reads (seg : Text) (param : QueryOption × Text) : Prop :=
  ∃ name, '=' ∉ name ∧ seg = name ++ '=' :: param.2 ∧ decode name = .ok param.1.text

/-- The segments of a request are options with values. -/
def Parses (requestQuery : Option Text) (params : Params) : Prop :=
  List.Forall₂ (Reads decode) ((requestQuery.getD []).splitOn '&') params

/-- The columns in a value. -/
def Lists (value : Text) (cols : List Text) : Prop :=
  List.Forall₂ (fun piece col ↦ decode piece = .ok col) (value.splitOn '+') cols

/-- The value of an option by itself. -/
def ValidValue : QueryOption × Text → Prop
  | (.analysis, value) => decode value = .ok "mean".toList ∨ decode value = .ok "freq".toList
  | (.iv, value) => ∃ cols, Lists decode value cols ∧ (∀ col ∈ cols, col ∈ columns.ivList) ∧
    cols.Nodup
  | (.dv, value) => ∃ cols, Lists decode value cols ∧ ∀ col ∈ cols, col ∈ columns.dvList
  | _ => True

/-- No option comes twice, each has a value, and the analysis has the columns that it needs. -/
structure Valid (params : Params) : Prop where
  nodup : (params.map Prod.fst).Nodup
  values : ∀ param ∈ params, ValidValue decode columns param
  analysis : ∃ value, (.analysis, value) ∈ params ∧
    (decode value = .ok "mean".toList ↔ .dv ∈ params.map Prod.fst)

/-- The dependent variables are pairwise distinct. -/
def DistinctDv (params : Params) : Prop :=
  ∀ value cols, (.dv, value) ∈ params → Lists decode value cols → cols.Nodup

end

/-! ## The loops over the columns -/

theorem contains_integer {list : List ℤ} {i : ℤ} :
    contains list (.integer i) = false ↔ i ∉ list := by
  rw [contains, List.any_eq_false]
  constructor
  · intro h hi
    exact h i hi (decide_eq_true rfl)
  · intro h j hj heq
    exact h (JavaObject.integer.inj (of_decide_eq_true heq) ▸ hj)

/-- No text is found in a list of numbers. -/
theorem contains_string (list : List ℤ) (col : Text) : contains list (.string col) = false := by
  rw [contains, List.any_eq_false]
  intro i _ h
  exact absurd (of_decide_eq_true h) (by simp)

namespace Columns

variable {columns : Columns}

theorem indexOf_injective {col col' : Text} (hcol : col ∈ columns.colnames)
    (h : columns.indexOf col = columns.indexOf col') : col = col' := by
  obtain ⟨i, hi⟩ := Option.isSome_iff_exists.mp (List.isSome_idxOf?.mpr hcol)
  rw [indexOf, indexOf, hi] at h
  cases hi' : columns.colnames.idxOf? col' with
  | none =>
    rw [hi'] at h
    cases h
  | some i' =>
    rw [hi'] at h
    obtain rfl := Int.ofNat.inj h
    obtain ⟨hlt, hget, -⟩ := List.idxOf?_eq_some_iff.mp hi
    obtain ⟨hlt', hget', -⟩ := List.idxOf?_eq_some_iff.mp hi'
    rw [← hget, ← hget']

end Columns

namespace Parameters

variable {decode : Text → Except Status Text} {columns : Columns}

/-- The loop finds none of the columns among those before it. -/
def Fresh (columns : Columns) (key : Text → JavaObject) : List ℤ → List Text → Prop
  | _, [] => True
  | my, col :: cols =>
    contains my (key col) = false ∧ Fresh columns key (my ++ [columns.indexOf col]) cols

theorem fresh_string (cols : List Text) : ∀ my, Fresh columns .string my cols := by
  induction cols with
  | nil => exact fun _ ↦ trivial
  | cons col cols ih => exact fun my ↦ ⟨contains_string my col, ih _⟩

theorem fresh_integer {cols : List Text} {my : List ℤ} :
    Fresh columns (fun col ↦ .integer (columns.indexOf col)) my cols ↔
      (cols.map columns.indexOf).Nodup ∧ ∀ col ∈ cols, columns.indexOf col ∉ my := by
  induction cols generalizing my with
  | nil => simp [Fresh]
  | cons col cols ih =>
    rw [Fresh, contains_integer, ih, List.map_cons, List.nodup_cons, List.forall_mem_cons]
    simp only [List.mem_append, List.mem_singleton, List.mem_map, not_exists, not_and, not_or]
    constructor
    · rintro ⟨hcol, hnodup, hcols⟩
      exact ⟨⟨fun x hx heq ↦ (hcols x hx).2 heq, hnodup⟩, hcol, fun x hx ↦ (hcols x hx).1⟩
    · rintro ⟨⟨hne, hnodup⟩, hcol, hcols⟩
      exact ⟨hcol, hnodup, fun x hx ↦ ⟨hcols x hx, fun heq ↦ hne x hx heq⟩⟩

/-- A loop without an error. -/
theorem readColumns_eq_ok {valid : List Text} {kind : Text} {key : Text → JavaObject}
    {pieces : List Text} {my my' : List ℤ} :
    readColumns decode columns valid kind key pieces my = .ok (my', none) ↔
      ∃ cols, List.Forall₂ (fun piece col ↦ decode piece = .ok col) pieces cols ∧
        (∀ col ∈ cols, col ∈ valid) ∧ Fresh columns key my cols ∧
        my' = my ++ cols.map columns.indexOf := by
  induction pieces generalizing my with
  | nil =>
    constructor
    · intro h
      obtain ⟨rfl, -⟩ := Prod.mk.inj (Except.ok.inj h)
      exact ⟨[], .nil, nofun, trivial, (List.append_nil my).symm⟩
    · rintro ⟨cols, hcols, -, -, rfl⟩
      cases hcols
      rw [List.map_nil, List.append_nil]
      rfl
  | cons piece pieces ih =>
    rw [readColumns, bind_eq_ok]
    constructor
    · rintro ⟨col, hcol, h⟩
      split at h
      · cases (Prod.mk.inj (Except.ok.inj h)).2
      · next hcontains =>
        split at h
        · next hvalid =>
          obtain ⟨cols, hcols, hall, hfresh, rfl⟩ := ih.mp h
          refine ⟨col :: cols, .cons hcol hcols, List.forall_mem_cons.mpr ⟨hvalid, hall⟩,
            ⟨Bool.not_eq_true _ ▸ hcontains, hfresh⟩, ?_⟩
          rw [List.append_assoc]
          rfl
        · cases (Prod.mk.inj (Except.ok.inj h)).2
    · rintro ⟨cols, hcols, hall, hfresh, rfl⟩
      cases hcols with
      | cons hcol hcols =>
        rw [List.forall_mem_cons] at hall
        refine ⟨_, hcol, ?_⟩
        rw [if_neg (by rw [hfresh.1]; decide), if_pos hall.1]
        refine ih.mpr ⟨_, hcols, hall.2, hfresh.2, ?_⟩
        rw [List.append_assoc]
        rfl

/-! ## One segment -/

@[simp] theorem success_fail (s : Parameters) (message : Text) :
    (s.fail message).success = false := rfl

theorem splitPair_eq {seg name value : Text} :
    splitPair seg = (name, some value) ↔ '=' ∉ name ∧ seg = name ++ '=' :: value := by
  rw [splitPair]
  constructor
  · intro h
    have hseg := List.takeWhile_append_dropWhile (p := fun c ↦ decide (c ≠ '=')) (l := seg)
    split at h
    · cases (Prod.mk.inj h).2
    · next c value' hdrop =>
      obtain ⟨hname, hvalue⟩ := Prod.mk.inj h
      obtain rfl := Option.some.inj hvalue
      have hhead := List.head_dropWhile_not (fun c ↦ decide (c ≠ '=')) (l := seg)
        (hdrop ▸ List.cons_ne_nil c value')
      simp only [hdrop, List.head_cons, decide_eq_false_iff_not, ne_eq, not_not] at hhead
      rw [hname, hdrop, hhead] at hseg
      refine ⟨fun hmem ↦ ?_, hseg.symm⟩
      rw [← hname] at hmem
      have hall := List.all_eq_true.mp
        (List.all_takeWhile (p := fun c ↦ decide (c ≠ '=')) (l := seg)) _ hmem
      exact absurd rfl (of_decide_eq_true hall)
  · rintro ⟨hname, rfl⟩
    have hpos : ∀ c ∈ name, decide (c ≠ '=') = true := fun c hc ↦
      decide_eq_true fun heq ↦ hname (heq ▸ hc)
    rw [List.dropWhile_append_of_pos hpos, List.takeWhile_append_of_pos hpos]
    simp

/-- A segment without an error. -/
theorem readSegment_eq_ok {s t : Parameters} {seg : Text} (ht : t.success = true) :
    readSegment decode columns s seg = .ok t ↔ ∃ o value, Reads decode seg (o, value) ∧
      s.optfound o.index = false ∧
      readOption decode columns (s.found o.index) o.index value = .ok t := by
  rw [readSegment]
  constructor
  · intro h
    split at h
    · obtain rfl := Except.ok.inj h
      simp at ht
    · obtain ⟨text, htext, h⟩ := bind_eq_ok.mp h
      dsimp only at htext h
      split at h
      · obtain rfl := Except.ok.inj h
        simp at ht
      · next value hvalue =>
        split at h
        · next hfree =>
          obtain ⟨o, rfl⟩ := QueryOption.exists_text (List.idxOf_lt_length_iff.mp hfree.1)
          rw [QueryOption.idxOf_text] at hfree h
          obtain ⟨hname, hseg⟩ := splitPair_eq.mp (Prod.ext rfl hvalue)
          exact ⟨o, value, ⟨_, hname, hseg, htext⟩, Bool.not_eq_true _ ▸ hfree.2, h⟩
        · obtain rfl := Except.ok.inj h
          simp at ht
  · rintro ⟨o, value, ⟨name, hname, rfl, htext⟩, hfree, h⟩
    have hpair : splitPair (name ++ '=' :: value) = (name, some value) :=
      splitPair_eq.mpr ⟨hname, rfl⟩
    rw [if_neg (by simp), hpair]
    refine bind_eq_ok.mpr ⟨_, htext, ?_⟩
    dsimp only
    rw [QueryOption.idxOf_text, if_pos ⟨o.index_lt, by rw [hfree]; decide⟩]
    exact h

/-- What an option changes. -/
structure Effect (decode : Text → Except Status Text) (o : QueryOption) (value : Text)
    (s t : Parameters) : Prop where
  optfound : t.optfound = s.optfound
  analysis : if o = .analysis then decode value = .ok t.myAnalysis else t.myAnalysis = s.myAnalysis
  iv : o ≠ .iv → t.myIv = s.myIv
  dv : if o = .dv then t.myDv ≠ [] else t.myDv = s.myDv

theorem iv_nodup {cols : List Text} (h : ∀ col ∈ cols, col ∈ columns.ivList) :
    Fresh columns (fun col ↦ .integer (columns.indexOf col)) [] cols ↔ cols.Nodup := by
  rw [fresh_integer]
  constructor
  · rintro ⟨hnodup, -⟩
    exact List.Nodup.of_map _ hnodup
  · intro hnodup
    refine ⟨(List.nodup_map_iff_inj_on hnodup).mpr fun col hcol col' _ heq ↦ ?_, fun _ _ ↦ nofun⟩
    exact Columns.indexOf_injective (List.mem_append_right _ (h col hcol)) heq

theorem readOption_sound {s t : Parameters} {o : QueryOption} {value : Text}
    (hiv : o = .iv → s.myIv = [])
    (h : readOption decode columns s o.index value = .ok t) (ht : t.success = true) :
    ValidValue decode columns (o, value) ∧ Effect decode o value s t := by
  cases o with
  | analysis =>
    obtain ⟨analysis, hdecode, h⟩ := bind_eq_ok.mp h
    split at h
    · next hanalysis =>
      obtain rfl := Except.ok.inj h
      refine ⟨?_, rfl, hdecode, fun _ ↦ rfl, rfl⟩
      rcases hanalysis with rfl | rfl
      · exact .inl hdecode
      · exact .inr hdecode
    · obtain rfl := Except.ok.inj h
      simp at ht
  | iv =>
    obtain ⟨⟨myIv, error⟩, hread, h⟩ := bind_eq_ok.mp h
    obtain rfl := Except.ok.inj h
    cases error with
    | some message => simp [failIf] at ht
    | none =>
      obtain ⟨cols, hcols, hall, hfresh, rfl⟩ := readColumns_eq_ok.mp hread
      rw [hiv rfl, iv_nodup hall] at hfresh
      exact ⟨⟨cols, hcols, hall, hfresh⟩, rfl, rfl, fun hne ↦ absurd rfl hne, rfl⟩
  | dv =>
    obtain ⟨⟨myDv, error⟩, hread, h⟩ := bind_eq_ok.mp h
    obtain rfl := Except.ok.inj h
    cases error with
    | some message => simp [failIf] at ht
    | none =>
      obtain ⟨cols, hcols, hall, -, rfl⟩ := readColumns_eq_ok.mp hread
      refine ⟨⟨cols, hcols, hall⟩, rfl, rfl, fun _ ↦ rfl, ?_⟩
      have hne : cols ≠ [] := by
        rintro rfl
        exact List.splitOn_ne_nil _ _ (List.forall₂_nil_right_iff.mp hcols)
      change s.myDv ++ cols.map columns.indexOf ≠ []
      simp [hne]
  | loanlink =>
    obtain rfl := Except.ok.inj h
    exact ⟨trivial, rfl, rfl, fun _ ↦ rfl, rfl⟩
  | countonlymean =>
    change (if value = "1".toList then _ else if value = "2".toList then _ else _) = _ at h
    split at h
    · obtain rfl := Except.ok.inj h
      exact ⟨trivial, rfl, rfl, fun _ ↦ rfl, rfl⟩
    · split at h <;> (obtain rfl := Except.ok.inj h; exact ⟨trivial, rfl, rfl, fun _ ↦ rfl, rfl⟩)

theorem readOption_complete {s : Parameters} {o : QueryOption} {value : Text}
    (hs : s.success = true) (hiv : o = .iv → s.myIv = [])
    (h : ValidValue decode columns (o, value)) :
    ∃ t, readOption decode columns s o.index value = .ok t ∧ t.success = true := by
  cases o with
  | analysis =>
    obtain ⟨analysis, hdecode, hanalysis⟩ : ∃ analysis, decode value = .ok analysis ∧
        (analysis = "mean".toList ∨ analysis = "freq".toList) := by
      rcases h with h | h
      · exact ⟨_, h, .inl rfl⟩
      · exact ⟨_, h, .inr rfl⟩
    refine ⟨{ s with myAnalysis := analysis }, bind_eq_ok.mpr ⟨analysis, hdecode, ?_⟩, hs⟩
    rw [if_pos hanalysis]
    rfl
  | iv =>
    obtain ⟨cols, hcols, hall, hnodup⟩ := h
    refine ⟨_, bind_eq_ok.mpr ⟨(_, none), readColumns_eq_ok.mpr
      ⟨cols, hcols, hall, ?_, rfl⟩, rfl⟩, hs⟩
    rw [hiv rfl, iv_nodup hall]
    exact hnodup
  | dv =>
    obtain ⟨cols, hcols, hall⟩ := h
    exact ⟨_, bind_eq_ok.mpr ⟨(_, none), readColumns_eq_ok.mpr
      ⟨cols, hcols, hall, fresh_string cols _, rfl⟩, rfl⟩, hs⟩
  | loanlink => exact ⟨_, rfl, hs⟩
  | countonlymean =>
    change ∃ t, (if value = "1".toList then _ else if value = "2".toList then _ else _) = _ ∧ _
    split
    · exact ⟨_, rfl, hs⟩
    · split
      · exact ⟨_, rfl, hs⟩
      · exact ⟨_, rfl, hs⟩

/-! ## The segments -/

/-- The segments are read one after the other, each with an option that was not found before. -/
inductive Run (decode : Text → Except Status Text) (columns : Columns) :
    Params → Parameters → Parameters → Prop
  | nil {s : Parameters} : Run decode columns [] s s
  | cons {s s' t : Parameters} {o : QueryOption} {value : Text} {params : Params}
      (free : s.optfound o.index = false)
      (head : readOption decode columns (s.found o.index) o.index value = .ok s')
      (success : s'.success = true) (tail : Run decode columns params s' t) :
      Run decode columns ((o, value) :: params) s t

theorem readSegments_eq_ok {segs : List Text} {s t : Parameters} (hs : s.success = true) :
    readSegments decode columns segs s = .ok t ∧ t.success = true ↔
      ∃ params, List.Forall₂ (Reads decode) segs params ∧ Run decode columns params s t := by
  induction segs generalizing s with
  | nil =>
    constructor
    · rintro ⟨h, -⟩
      obtain rfl := Except.ok.inj h
      exact ⟨[], .nil, .nil⟩
    · rintro ⟨params, hparams, hrun⟩
      cases hparams
      cases hrun
      exact ⟨rfl, hs⟩
  | cons seg segs ih =>
    constructor
    · rintro ⟨h, ht⟩
      obtain ⟨s', hs', h⟩ := bind_eq_ok.mp h
      split at h
      · next hsuccess =>
        obtain ⟨o, value, hreads, hfree, hoption⟩ := (readSegment_eq_ok hsuccess).mp hs'
        obtain ⟨params, hparams, hrun⟩ := (ih hsuccess).mp ⟨h, ht⟩
        exact ⟨_, .cons hreads hparams, .cons hfree hoption hsuccess hrun⟩
      · next hfailure =>
        obtain rfl := Except.ok.inj h
        exact absurd ht hfailure
    · rintro ⟨params, hparams, hrun⟩
      cases hparams with
      | cons hreads hparams =>
        cases hrun with
        | cons hfree hoption hsuccess hrun =>
          obtain ⟨h, ht⟩ := (ih hsuccess).mpr ⟨_, hparams, hrun⟩
          refine ⟨bind_eq_ok.mpr
            ⟨_, (readSegment_eq_ok hsuccess).mpr ⟨_, _, hreads, hfree, hoption⟩, ?_⟩, ht⟩
          rw [if_pos hsuccess]
          exact h

/-- What the parser knows of the options that it has not found. -/
structure Inv (s : Parameters) : Prop where
  success : s.success = true
  iv : s.optfound QueryOption.iv.index = false → s.myIv = []

theorem Inv.start : Inv start := ⟨rfl, fun _ ↦ rfl⟩

theorem optfound_found (s : Parameters) (o o' : QueryOption) :
    (s.found o.index).optfound o'.index = false ↔ o' ≠ o ∧ s.optfound o'.index = false := by
  change (if o'.index = o.index then true else s.optfound o'.index) = false ↔ _
  split
  · next heq => simp [QueryOption.index_injective heq]
  · next hne =>
    have hoo : o' ≠ o := fun heq ↦ hne (congrArg _ heq)
    simp [hoo]

/-- One option keeps the invariant. -/
theorem Inv.step {s s' : Parameters} {o : QueryOption} {value : Text} (h : Inv s)
    (hsuccess : s'.success = true) (heffect : Effect decode o value (s.found o.index) s') :
    Inv s' := by
  refine ⟨hsuccess, fun hiv ↦ ?_⟩
  rw [heffect.optfound, optfound_found] at hiv
  rw [heffect.iv (Ne.symm hiv.1)]
  exact h.iv hiv.2

/-- What a run leaves behind. -/
structure Outcome (decode : Text → Except Status Text) (params : Params) (s t : Parameters) :
    Prop where
  success : t.success = true
  analysis : ∀ value, (.analysis, value) ∈ params → decode value = .ok t.myAnalysis
  noAnalysis : .analysis ∉ params.map Prod.fst → t.myAnalysis = s.myAnalysis
  dv : .dv ∈ params.map Prod.fst → t.myDv ≠ []
  noDv : .dv ∉ params.map Prod.fst → t.myDv = s.myDv

theorem Run.sound {params : Params} {s t : Parameters} (hrun : Run decode columns params s t)
    (hs : Inv s) :
    (params.map Prod.fst).Nodup ∧
      (∀ param ∈ params, s.optfound param.1.index = false ∧ ValidValue decode columns param) ∧
      Outcome decode params s t := by
  induction hrun with
  | nil => exact ⟨.nil, nofun, hs.success, nofun, fun _ ↦ rfl, nofun, fun _ ↦ rfl⟩
  | @cons s s' t o value params hfree hhead hsuccess _ ih =>
    have hiv : o = .iv → (s.found o.index).myIv = [] := fun ho ↦ hs.iv (ho ▸ hfree)
    obtain ⟨hvalid, heffect⟩ := readOption_sound hiv hhead hsuccess
    obtain ⟨hnodup, hall, houtcome⟩ := ih (hs.step hsuccess heffect)
    simp only [heffect.optfound, optfound_found] at hall
    have hnotin : o ∉ params.map Prod.fst := by
      intro ho
      obtain ⟨param, hparam, rfl⟩ := List.mem_map.mp ho
      exact (hall param hparam).1.1 rfl
    refine ⟨List.nodup_cons.mpr ⟨hnotin, hnodup⟩, ?_, houtcome.success, ?_, ?_, ?_, ?_⟩
    · rw [List.forall_mem_cons]
      exact ⟨⟨hfree, hvalid⟩, fun param hparam ↦ ⟨(hall param hparam).1.2, (hall param hparam).2⟩⟩
    · intro value' hvalue
      rcases List.mem_cons.mp hvalue with heq | hvalue
      · obtain ⟨rfl, rfl⟩ := Prod.mk.inj heq
        rw [houtcome.noAnalysis hnotin]
        exact heffect.analysis
      · exact houtcome.analysis value' hvalue
    · intro hnone
      rw [List.map_cons, List.mem_cons, not_or] at hnone
      have hsame := heffect.analysis
      rw [if_neg (Ne.symm hnone.1)] at hsame
      exact (houtcome.noAnalysis hnone.2).trans hsame
    · intro hdv
      rcases List.mem_cons.mp hdv with rfl | hdv
      · rw [houtcome.noDv hnotin]
        exact heffect.dv
      · exact houtcome.dv hdv
    · intro hnone
      rw [List.map_cons, List.mem_cons, not_or] at hnone
      have hsame := heffect.dv
      rw [if_neg (Ne.symm hnone.1)] at hsame
      exact (houtcome.noDv hnone.2).trans hsame

theorem Run.complete {params : Params} {s : Parameters} (hs : Inv s)
    (hnodup : (params.map Prod.fst).Nodup)
    (hall : ∀ param ∈ params, s.optfound param.1.index = false ∧
      ValidValue decode columns param) :
    ∃ t, Run decode columns params s t := by
  induction params generalizing s with
  | nil => exact ⟨s, .nil⟩
  | cons param params ih =>
    obtain ⟨o, value⟩ := param
    rw [List.forall_mem_cons] at hall
    obtain ⟨⟨hfree, hvalid⟩, hall⟩ := hall
    have hiv : o = .iv → (s.found o.index).myIv = [] := fun ho ↦ hs.iv (ho ▸ hfree)
    obtain ⟨s', hs', hsuccess⟩ := readOption_complete (s := s.found o.index) hs.success hiv hvalid
    have heffect := (readOption_sound hiv hs' hsuccess).2
    rw [List.map_cons, List.nodup_cons] at hnodup
    obtain ⟨t, hrun⟩ := ih (hs.step hsuccess heffect) hnodup.2 fun param hparam ↦ by
      rw [heffect.optfound, optfound_found]
      refine ⟨⟨?_, (hall param hparam).1⟩, (hall param hparam).2⟩
      rintro rfl
      exact hnodup.1 (List.mem_map.mpr ⟨param, hparam, rfl⟩)
    exact ⟨t, .cons hfree hs' hsuccess hrun⟩

/-! ## The checks -/

section

variable (s : Parameters) (c : Prop) [Decidable c] (message : Text)

@[simp] theorem success_failWhen :
    (s.failWhen c message).success = true ↔ s.success = true ∧ ¬c := by
  rw [failWhen]
  split <;> simp_all

@[simp] theorem myAnalysis_failWhen : (s.failWhen c message).myAnalysis = s.myAnalysis := by
  rw [failWhen]
  split <;> rfl

@[simp] theorem myDv_failWhen : (s.failWhen c message).myDv = s.myDv := by
  rw [failWhen]
  split <;> rfl

end

theorem success_check {s : Parameters} (hs : s.success = true) :
    (check s).success = true ↔
      (s.myAnalysis = "freq".toList ∧ s.myDv = [] ∨
        s.myAnalysis = "mean".toList ∧ s.myDv ≠ []) := by
  have hne : "freq".toList ≠ "mean".toList := by decide
  rw [check, if_pos hs]
  simp only [success_failWhen, myAnalysis_failWhen, myDv_failWhen]
  generalize "freq".toList = freq at hne ⊢
  generalize "mean".toList = mean at hne ⊢
  by_cases hfreq : s.myAnalysis = freq
  · by_cases hdv : s.myDv = [] <;> simp [hfreq, hdv, hne, hs]
  · by_cases hmean : s.myAnalysis = mean
    · by_cases hdv : s.myDv = [] <;> simp [hmean, hdv, hne.symm, hs]
    · simp [hfreq, hmean]

/-- A request is accepted exactly if it is valid. -/
theorem accepts_iff {requestQuery : Option Text} :
    Accepts decode columns requestQuery ↔
      ∃ params, Parses decode requestQuery params ∧ Valid decode columns params := by
  constructor
  · rintro ⟨s, hread, hsuccess⟩
    obtain ⟨t, ht, hread⟩ := bind_eq_ok.mp hread
    obtain rfl := Except.ok.inj hread
    have htsuccess : t.success = true := by
      by_contra hfalse
      rw [check, if_neg hfalse] at hsuccess
      exact hfalse hsuccess
    obtain ⟨params, hparams, hrun⟩ := (readSegments_eq_ok rfl).mp ⟨ht, htsuccess⟩
    obtain ⟨hnodup, hall, houtcome⟩ := hrun.sound Inv.start
    refine ⟨params, hparams, hnodup, fun param hparam ↦ (hall param hparam).2, ?_⟩
    have hcheck := (success_check htsuccess).mp hsuccess
    have hanalysis : .analysis ∈ params.map Prod.fst := by
      by_contra hnone
      rw [houtcome.noAnalysis hnone] at hcheck
      rcases hcheck with ⟨h, -⟩ | ⟨h, -⟩ <;> exact absurd h (by decide)
    obtain ⟨⟨_, value⟩, hvalue, rfl⟩ := List.mem_map.mp hanalysis
    refine ⟨value, hvalue, ?_⟩
    rw [houtcome.analysis value hvalue, Except.ok.injEq]
    rcases hcheck with ⟨hfreq, hdv⟩ | ⟨hmean, hdv⟩
    · rw [hfreq]
      exact iff_of_false (by decide) fun h ↦ houtcome.dv h hdv
    · refine iff_of_true hmean ?_
      by_contra hnone
      exact hdv (houtcome.noDv hnone)
  · rintro ⟨params, hparams, hvalid⟩
    obtain ⟨t, hrun⟩ := Run.complete Inv.start hvalid.nodup fun param hparam ↦
      ⟨rfl, hvalid.values param hparam⟩
    obtain ⟨-, -, houtcome⟩ := hrun.sound Inv.start
    obtain ⟨ht, htsuccess⟩ := (readSegments_eq_ok rfl).mpr ⟨params, hparams, hrun⟩
    refine ⟨check t, bind_eq_ok.mpr ⟨t, ht, rfl⟩, (success_check htsuccess).mpr ?_⟩
    obtain ⟨value, hvalue, hdv⟩ := hvalid.analysis
    have hanalysis := hvalid.values _ hvalue
    rw [ValidValue, houtcome.analysis value hvalue, Except.ok.injEq, Except.ok.injEq] at hanalysis
    rw [houtcome.analysis value hvalue, Except.ok.injEq] at hdv
    rcases hanalysis with hmean | hfreq
    · exact .inr ⟨hmean, houtcome.dv (hdv.mp hmean)⟩
    · refine .inl ⟨hfreq, houtcome.noDv fun h ↦ ?_⟩
      exact absurd (hfreq.symm.trans (hdv.mpr h)) (by decide)

/-- **Validation.** What is accepted is valid, and what is valid is accepted where the dependent
variables are pairwise distinct. -/
theorem accepts_by_design (decode : Text → Except Status Text) (columns : Columns)
    (requestQuery : Option Text) :
    (Accepts decode columns requestQuery →
        ∃ params, Parses decode requestQuery params ∧ Valid decode columns params) ∧
      ∀ params, Parses decode requestQuery params → Valid decode columns params →
        DistinctDv decode params → Accepts decode columns requestQuery :=
  ⟨accepts_iff.mp, fun params hparams hvalid _ ↦ accepts_iff.mpr ⟨params, hparams, hvalid⟩⟩

/-- The requests that only the columns and the analysis decide about. -/
structure ValidColumns (decode : Text → Except Status Text) (columns : Columns) (params : Params) :
    Prop where
  analysis : .analysis ∈ params.map Prod.fst
  values : ∀ param ∈ params, ValidValue decode columns param
  dv : DistinctDv decode params

/-- A frequency with a dependent variable is refused, and a mean with the same dependent variable
twice is accepted. -/
theorem not_accepts_iff_validColumns :
    (let requestQuery := some "analysis=freq&dv=Income".toList
      ∃ params, Parses .ok requestQuery params ∧
        ValidColumns .ok ⟨["Income".toList], ["Sex".toList]⟩ params ∧
        ¬Accepts .ok ⟨["Income".toList], ["Sex".toList]⟩ requestQuery) ∧
    (let requestQuery := some "analysis=mean&dv=Income+Income".toList
      ∃ params, Parses .ok requestQuery params ∧ ¬ValidColumns .ok
          ⟨["Income".toList], ["Sex".toList]⟩ params ∧
        Accepts .ok ⟨["Income".toList], ["Sex".toList]⟩ requestQuery) := by
  have hincome : Lists .ok "Income".toList ["Income".toList] := .cons rfl .nil
  have htwice : Lists .ok "Income+Income".toList ["Income".toList, "Income".toList] :=
    .cons rfl (.cons rfl .nil)
  constructor
  · refine ⟨[(.analysis, "freq".toList), (.dv, "Income".toList)], ?_, ⟨by decide, ?_, ?_⟩,
      by decide⟩
    · exact .cons ⟨_, by decide, rfl, rfl⟩ (.cons ⟨_, by decide, rfl, rfl⟩ .nil)
    · rw [List.forall_mem_cons, List.forall_mem_singleton]
      exact ⟨.inr rfl, _, hincome, by decide⟩
    · intro value cols hvalue hcols
      have hlength : cols.length = 1 := by
        obtain rfl : value = "Income".toList := by simpa using hvalue
        exact hcols.length_eq.symm
      obtain ⟨col, rfl⟩ := List.length_eq_one_iff.mp hlength
      exact List.nodup_singleton col
  · refine ⟨[(.analysis, "mean".toList), (.dv, "Income+Income".toList)], ?_, ?_, by decide⟩
    · exact .cons ⟨_, by decide, rfl, rfl⟩ (.cons ⟨_, by decide, rfl, rfl⟩ .nil)
    · intro h
      exact absurd (h.dv _ _ (.tail _ (.head _)) htwice) (by decide)

end Parameters

end Safrn.Http
