import Safrn.Json.Lexicon
import Safrn.Setup.Columns

/-!
# Columns of a query

Models the constructors of `ColumnSpec` and `ParseColumnIndexFromJson`
(`JSON/Query/ColumnSpec.cpp:19-96`). A column may be given by its index, by its name or by both;
`SIZE_MAX` and the empty name stand for what is not given.
-/

namespace Safrn.Json

open Safrn.Setup (ColumnSpec)

/-- What a column JSON gives: `vertIndex`, `colIndex` and `colName`. -/
structure Given where
  vertIndex : Nat
  colIndex : Nat
  colName : String

/-- `json_contains(json, key) ? json[key] : …`. -/
def memberOr {α : Type} (json : Value) (key : String) (convert : Value → Except Fault α)
    (default : α) : Except Fault α :=
  match json.member? key with
  | some value => convert value
  | none => .ok default

/-- The values that `ParseColumnIndexFromJson` reads first. -/
def Given.ofJson (json : Value) : Except Fault Given := do
  let vertIndex ← memberOr json "vertical" Value.toSize sizeMax
  let colIndex ← memberOr json "columnIndex" Value.toSize sizeMax
  let colName ← memberOr json "columnName" Value.toText ""
  return ⟨vertIndex, colIndex, colName⟩

/-- A vertical with an index and a name. -/
def checkColumn (vertical : Vertical) (colIndex : Nat) (colName : String) : Except Fault Nat :=
  match vertical.columns[colIndex]? with
  | none => .error (.runtimeError "Invalid column index.")
  | some column =>
    if column.name ≠ colName then
      .error (.runtimeError "Incompatible column index and column name.")
    else .ok colIndex

/-- The loop over the columns of a vertical, for a name. -/
def findColumn (vertical : Vertical) (colName : String) : Option Nat :=
  (vertical.columns.find? fun column ↦ column.name = colName).map Column.index

/-- The loop over the lexicon, for a vertical that is not given. -/
def searchLexicon (colIndex : Nat) (colName : String) : List Vertical → Except Fault Nat
  | [] => .error (.runtimeError "Unable to parse column index.")
  | vertical :: rest =>
    if colIndex ≠ sizeMax then checkColumn vertical colIndex colName
    else
      match findColumn vertical colName with
      | some index => .ok index
      | none => searchLexicon colIndex colName rest

/-- What `ParseColumnIndexFromJson` makes of the values. -/
def resolve (lexicon : List Vertical) (given : Given) : Except Fault Nat :=
  if given.colName = "" then
    if given.colIndex = sizeMax then .error (.runtimeError "Unable to determine column index.")
    else .ok given.colIndex
  else if given.vertIndex ≠ sizeMax then
    match lexicon[given.vertIndex]? with
    | none => .error (.runtimeError "Invalid vertical index.")
    | some vertical =>
      if given.colIndex ≠ sizeMax then checkColumn vertical given.colIndex given.colName
      else
        match findColumn vertical given.colName with
        | some index => .ok index
        | none => .error (.runtimeError "Unable to parse column index from column name.")
  else searchLexicon given.colIndex given.colName lexicon

/-- `ParseColumnIndexFromJson`. -/
def parseColumnIndexFromJson (lexicon : List Vertical) (json : Value) : Except Fault Nat := do
  resolve lexicon (← Given.ofJson json)

namespace ColumnSpec

/-- The constructor of `ColumnSpec` without a study. -/
def ofJson (json : Value) : Except Fault ColumnSpec := do
  let vertical ← (← json.member "vertical").toSize
  let column ← (← json.member "columnIndex").toSize
  return ⟨vertical, column⟩

/-- The constructor of `ColumnSpec` with a study. -/
def ofStudyJson (lexicon : List Vertical) (json : Value) : Except Fault ColumnSpec := do
  let vertical ← (← json.member "vertical").toSize
  let column ← parseColumnIndexFromJson lexicon json
  return ⟨vertical, column⟩

end ColumnSpec

/-! ### Designated columns -/

/-- The lexicon of a study that was read; the size of a vector is a `size_t`. -/
structure Lexicon where
  verticals : List Vertical
  indexed : IndexedLexicon verticals
  length_le : verticals.length ≤ sizeMax
  columns_le : ∀ vertical ∈ verticals, vertical.columns.length ≤ sizeMax

/-- The column exists, and is the one of the index and of the name, as far as these are given; for
a name alone it is the first one. -/
structure IsColumn (vertical : Vertical) (colIndex colName : Option Value) (column : Nat) :
    Prop where
  lt : column < vertical.columns.length
  index : ∀ value ∈ colIndex, value.toSize = .ok column
  text : ∀ value ∈ colName, ∃ s, value = .string s
  named : ∀ s, colName = some (.string s) → s ≠ "" → vertical.columns[column].name = s
  given : colIndex = none → ∃ s, colName = some (.string s) ∧ s ≠ "" ∧
    ∀ i (h : i < column), vertical.columns[i].name ≠ s

/-- The column that a JSON designates. -/
def Designates (study : Lexicon) (json : Value) (spec : ColumnSpec) : Prop :=
  ∃ value, json.member? "vertical" = some value ∧ value.toSize = .ok spec.vertical ∧
    ∃ vertical, study.verticals[spec.vertical]? = some vertical ∧
      IsColumn vertical (json.member? "columnIndex") (json.member? "columnName") spec.column

/-- The construction succeeds exactly with the designated column, and throws otherwise. -/
def Resolves (study : Lexicon) (json : Value) : Prop :=
  (∃ spec, Designates study json spec ∧
    ColumnSpec.ofStudyJson study.verticals json = .ok spec) ∨
  (∀ spec, ¬Designates study json spec) ∧ Throws (ColumnSpec.ofStudyJson study.verticals json)

/-- The values of a JSON that names a vertical. -/
def request (json : Value) : Except Fault Given := do
  let _ ← json.member "vertical"
  Given.ofJson json

/-- A column of the vertical has the name. -/
def HasName (vertical : Vertical) (colName : String) : Prop :=
  ∃ column ∈ vertical.columns, column.name = colName

/-- What is given does not slip past the checks: an index without a name lies in its vertical, a
vertical that is `SIZE_MAX` leads to no column, and an index that is `SIZE_MAX` to none by its
name. -/
def Guarded (study : Lexicon) (hasIndex : Prop) (given : Given) : Prop :=
  if given.colName = "" then
    given.colIndex ≠ sizeMax → ∃ vertical, study.verticals[given.vertIndex]? = some vertical ∧
      given.colIndex < vertical.columns.length
  else if given.vertIndex = sizeMax then
    if given.colIndex = sizeMax then
      ∀ vertical ∈ study.verticals, ¬HasName vertical given.colName
    else
      ∀ vertical, study.verticals.head? = some vertical → ∀ column,
        vertical.columns[given.colIndex]? = some column → column.name ≠ given.colName
  else
    hasIndex → given.colIndex = sizeMax → ∀ vertical,
      study.verticals[given.vertIndex]? = some vertical → ¬HasName vertical given.colName

/-- Nothing is undefined to read, and what is read is guarded. -/
def Sound (study : Lexicon) (json : Value) : Prop :=
  request json ≠ .error .undefinedBehaviour ∧
    ∀ given, request json = .ok given →
      Guarded study (json.contains "columnIndex" = true) given

/-! ### Verticals -/

theorem findColumn_eq_none {vertical : Vertical} {colName : String} :
    findColumn vertical colName = none ↔ ¬HasName vertical colName := by
  simp [findColumn, HasName]

/-- In an indexed vertical the first column of the name is found by its position. -/
theorem findColumn_eq_some {vertical : Vertical} (hindexed : vertical.Indexed) {colName : String}
    {i : Nat} :
    findColumn vertical colName = some i ↔ ∃ h : i < vertical.columns.length,
      vertical.columns[i].name = colName ∧
        ∀ j (hj : j < i), vertical.columns[j].name ≠ colName := by
  have hposition : ∀ (k : Nat) (hk : k < vertical.columns.length),
      vertical.columns[k].index = k := by
    intro k hk
    have hget := congrArg (·[k]?) hindexed
    simpa [hk] using hget
  rw [findColumn, Option.map_eq_some_iff]
  simp only [List.find?_eq_some_iff_getElem]
  constructor
  · rintro ⟨column, ⟨hname, k, hk, rfl, hfirst⟩, rfl⟩
    simp only [hposition k hk]
    exact ⟨hk, by simpa using hname, fun j hj ↦ by simpa using hfirst j hj⟩
  · rintro ⟨hi, hname, hfirst⟩
    exact ⟨_, ⟨by simpa using hname, i, hi, rfl, fun j hj ↦ by simpa using hfirst j hj⟩,
      hposition i hi⟩

theorem not_throws_ok {α : Type} (x : α) : ¬Throws (Except.ok x) := by
  rintro ⟨fault, h, -⟩
  contradiction

theorem throws_runtimeError {α : Type} (what : String) :
    Throws (Except.error (.runtimeError what) : Except Fault α) :=
  ⟨_, rfl, by simp⟩

/-- A column that is checked is there with the name, or there is an exception. -/
theorem checkColumn_cases (vertical : Vertical) (colIndex : Nat) (colName : String) :
    (∃ h : colIndex < vertical.columns.length, vertical.columns[colIndex].name = colName ∧
        checkColumn vertical colIndex colName = .ok colIndex) ∨
      (∀ h : colIndex < vertical.columns.length, vertical.columns[colIndex].name ≠ colName) ∧
        ∃ what, checkColumn vertical colIndex colName = .error (.runtimeError what) := by
  rw [checkColumn]
  split
  · next hnone =>
    have hlen := List.getElem?_eq_none_iff.mp hnone
    exact .inr ⟨fun h ↦ absurd h (Nat.not_lt.mpr hlen), _, rfl⟩
  · next column hsome =>
    obtain ⟨hlt, rfl⟩ := List.getElem?_eq_some_iff.mp hsome
    split
    · next hname => exact .inr ⟨fun _ ↦ hname, _, rfl⟩
    · next hname => exact .inl ⟨hlt, not_not.mp hname, rfl⟩

/-- Without a vertical a column is found somewhere, or there is an exception. -/
theorem searchLexicon_cases (colIndex : Nat) (colName : String) (verticals : List Vertical) :
    (∃ i, searchLexicon colIndex colName verticals = .ok i) ∨
      ∃ what, searchLexicon colIndex colName verticals = .error (.runtimeError what) := by
  induction verticals with
  | nil => exact .inr ⟨_, rfl⟩
  | cons vertical rest ih =>
    rw [searchLexicon]
    split
    · rcases checkColumn_cases vertical colIndex colName with ⟨_, _, h⟩ | ⟨_, _, h⟩
      · exact .inl ⟨_, h⟩
      · exact .inr ⟨_, h⟩
    · split
      · exact .inl ⟨_, rfl⟩
      · exact ih

/-- With an index only the first vertical is looked at. -/
theorem searchLexicon_index {colIndex : Nat} (hne : colIndex ≠ sizeMax) (colName : String)
    (verticals : List Vertical) :
    (∃ i, searchLexicon colIndex colName verticals = .ok i) ↔
      ∃ vertical, verticals.head? = some vertical ∧ ∃ column,
        vertical.columns[colIndex]? = some column ∧ column.name = colName := by
  cases verticals with
  | nil => simp [searchLexicon]
  | cons vertical rest =>
    rw [searchLexicon, if_pos hne]
    rcases checkColumn_cases vertical colIndex colName with ⟨hlt, hname, h⟩ | ⟨hname, what, h⟩
    · simp [h, hlt, hname]
    · rw [h]
      simp only [reduceCtorEq, exists_false, false_iff]
      rintro ⟨v, hv, column, hcolumn, hcolName⟩
      obtain rfl : vertical = v := by simpa using hv
      obtain ⟨hlt, rfl⟩ := List.getElem?_eq_some_iff.mp hcolumn
      exact hname hlt hcolName

/-- Without an index all verticals are searched for the name. -/
theorem searchLexicon_name (colName : String) (verticals : List Vertical) :
    (∃ i, searchLexicon sizeMax colName verticals = .ok i) ↔
      ∃ vertical ∈ verticals, HasName vertical colName := by
  induction verticals with
  | nil => simp [searchLexicon]
  | cons vertical rest ih =>
    rw [searchLexicon, if_neg (not_not.mpr rfl)]
    cases hfind : findColumn vertical colName with
    | none =>
      have hnot := findColumn_eq_none.mp hfind
      simp [ih, hnot]
    | some i =>
      have hname : HasName vertical colName := by
        by_contra hnot
        rw [findColumn_eq_none.mpr hnot] at hfind
        contradiction
      simp [hname]

/-! ### Requests -/

theorem memberOr_eq_ok {α : Type} {json : Value} {key : String} {convert : Value → Except Fault α}
    {default x : α} :
    memberOr json key convert default = .ok x ↔
      (json.member? key = none ∧ x = default) ∨
        ∃ value, json.member? key = some value ∧ convert value = .ok x := by
  rw [memberOr]
  cases hmember : json.member? key with
  | none => simp [eq_comm]
  | some value => simp

theorem toText_eq_ok {value : Value} {s : String} : value.toText = .ok s ↔ value = .string s := by
  cases value <;> simp [Value.toText]

theorem member_eq_ok {json value : Value} {key : String} :
    json.member key = .ok value ↔ json.member? key = some value := by
  cases json with
  | object members =>
    rw [Value.member]
    cases Value.member? (.object members) key <;> simp
  | _ => simp [Value.member, Value.member?]

/-- What a request holds. -/
structure Requested (json : Value) (given : Given) : Prop where
  vertical : ∃ value, json.member? "vertical" = some value ∧ value.toSize = .ok given.vertIndex
  index : (json.member? "columnIndex" = none ∧ given.colIndex = sizeMax) ∨
    ∃ value, json.member? "columnIndex" = some value ∧ value.toSize = .ok given.colIndex
  name : (json.member? "columnName" = none ∧ given.colName = "") ∨
    json.member? "columnName" = some (.string given.colName)

theorem request_eq_ok {json : Value} {given : Given} :
    request json = .ok given ↔ Requested json given := by
  simp only [request, Given.ofJson, bind_eq_ok, memberOr_eq_ok, member_eq_ok, toText_eq_ok]
  constructor
  · rintro ⟨vertical, hvertical, v, hv, i, hi, n, hn, hgiven⟩
    obtain rfl := Except.ok.inj hgiven
    refine ⟨?_, hi, ?_⟩
    · rcases hv with ⟨hnone, -⟩ | hsome
      · rw [hvertical] at hnone
        contradiction
      · exact hsome
    · rcases hn with hnone | ⟨value, hsome, rfl⟩
      · exact .inl hnone
      · exact .inr hsome
  · rintro ⟨⟨value, hvalue, hsize⟩, hindex, hname⟩
    refine ⟨value, hvalue, _, .inr ⟨value, hvalue, hsize⟩, _, hindex, given.colName, ?_, rfl⟩
    rcases hname with hnone | hsome
    · exact .inl hnone
    · exact .inr ⟨_, hsome, rfl⟩

/-- A construction reads the request and resolves it. -/
theorem ofStudyJson_eq (lexicon : List Vertical) (json : Value) :
    ColumnSpec.ofStudyJson lexicon json = (do
      let given ← request json
      let column ← resolve lexicon given
      return ⟨given.vertIndex, column⟩) := by
  rw [ColumnSpec.ofStudyJson, parseColumnIndexFromJson, request]
  cases hmember : json.member "vertical" with
  | error fault => rfl
  | ok value =>
    rw [ok_bind, ok_bind, Given.ofJson, memberOr, member_eq_ok.mp hmember]
    simp only
    cases value.toSize with
    | error fault => rfl
    | ok vertical =>
      simp only [ok_bind]
      cases memberOr json "columnIndex" Value.toSize sizeMax with
      | error fault => rfl
      | ok colIndex =>
        simp only [ok_bind]
        cases memberOr json "columnName" Value.toText "" <;> rfl

/-- Only a JSON that can be read designates a column. -/
theorem Designates.exists_request {study : Lexicon} {json : Value} {spec : ColumnSpec}
    (h : Designates study json spec) : ∃ given, request json = .ok given := by
  obtain ⟨value, hvalue, hsize, vertical, -, hcolumn⟩ := h
  have hindex : ∃ colIndex, (json.member? "columnIndex" = none ∧ colIndex = sizeMax) ∨
      ∃ value, json.member? "columnIndex" = some value ∧ value.toSize = .ok colIndex := by
    cases hi : json.member? "columnIndex" with
    | none => exact ⟨_, .inl ⟨rfl, rfl⟩⟩
    | some v => exact ⟨_, .inr ⟨v, rfl, hcolumn.index v hi⟩⟩
  have hname : ∃ colName, (json.member? "columnName" = none ∧ colName = "") ∨
      json.member? "columnName" = some (.string colName) := by
    cases hn : json.member? "columnName" with
    | none => exact ⟨_, .inl ⟨rfl, rfl⟩⟩
    | some v =>
      obtain ⟨s, rfl⟩ := hcolumn.text v hn
      exact ⟨s, .inr rfl⟩
  obtain ⟨colIndex, hindex⟩ := hindex
  obtain ⟨colName, hname⟩ := hname
  exact ⟨⟨spec.vertical, colIndex, colName⟩,
    request_eq_ok.mpr ⟨⟨value, hvalue, hsize⟩, hindex, hname⟩⟩

/-- What a request designates, by its values. -/
structure Target (study : Lexicon) (hasIndex : Prop) (given : Given) (spec : ColumnSpec)
    (vertical : Vertical) : Prop where
  vertical_eq : spec.vertical = given.vertIndex
  exists_vertical : study.verticals[given.vertIndex]? = some vertical
  lt : spec.column < vertical.columns.length
  index : hasIndex → given.colIndex = spec.column
  named : given.colName ≠ "" → vertical.columns[spec.column].name = given.colName
  first : ¬hasIndex → given.colName ≠ "" ∧
    ∀ i (h : i < spec.column), vertical.columns[i].name ≠ given.colName

theorem designates_iff {study : Lexicon} {json : Value} {given : Given}
    (h : Requested json given) {spec : ColumnSpec} :
    Designates study json spec ↔
      ∃ vertical, Target study (json.contains "columnIndex" = true) given spec vertical := by
  obtain ⟨⟨value, hvalue, hsize⟩, hindex, hname⟩ := h
  have hcontains : json.contains "columnIndex" = true ↔ json.member? "columnIndex" ≠ none := by
    rw [Value.contains, Option.isSome_iff_ne_none]
  have hgiven : ∀ s, json.member? "columnName" = some (.string s) → given.colName = s := by
    intro s hs
    rcases hname with ⟨hnone, -⟩ | hsome
    · rw [hnone] at hs
      contradiction
    · simpa [hsome] using hs
  constructor
  · rintro ⟨value', hvalue', hsize', vertical, hvertical, hcolumn⟩
    obtain rfl : value = value' := by simpa [hvalue] using hvalue'
    have heq : spec.vertical = given.vertIndex := by simpa [hsize] using hsize'.symm
    refine ⟨vertical, heq, heq ▸ hvertical, hcolumn.lt, ?_, ?_, ?_⟩
    · intro hhas
      rcases hindex with ⟨hnone, -⟩ | ⟨v, hv, hvsize⟩
      · exact absurd hnone (hcontains.mp hhas)
      · simpa [hvsize] using hcolumn.index v hv
    · intro hne
      rcases hname with ⟨-, hempty⟩ | hsome
      · exact absurd hempty hne
      · exact hcolumn.named _ hsome hne
    · intro hhas
      obtain ⟨s, hs, hne, hfirst⟩ := hcolumn.given (by simpa [hcontains] using hhas)
      rw [hgiven s hs]
      exact ⟨hne, hfirst⟩
  · rintro ⟨vertical, heq, hvertical, hlt, hcolumn, hnamed, hfirst⟩
    refine ⟨value, hvalue, heq ▸ hsize, vertical, heq ▸ hvertical, hlt, ?_, ?_, ?_, ?_⟩
    · intro v hv
      rcases hindex with ⟨hnone, -⟩ | ⟨v', hv', hvsize⟩
      · rw [hnone] at hv
        contradiction
      · obtain rfl : v' = v := by simpa [hv'] using hv
        rw [hvsize, hcolumn (hcontains.mpr (by simp [hv']))]
    · intro v hv
      rcases hname with ⟨hnone, -⟩ | hsome
      · rw [hnone] at hv
        contradiction
      · exact ⟨given.colName, by simpa [hsome] using hv.symm⟩
    · intro s hs hne
      rw [← hgiven s hs] at hne ⊢
      exact hnamed hne
    · intro hnone
      obtain ⟨hne, hfirst⟩ := hfirst (by simp [hcontains, hnone])
      rcases hname with ⟨-, hempty⟩ | hsome
      · exact absurd hempty hne
      · exact ⟨given.colName, hsome, hne, hfirst⟩

/-! ### Resolution -/

/-- The values are resolved to their target, or there is an exception. -/
def Settles (study : Lexicon) (hasIndex : Prop) (given : Given) : Prop :=
  (∃ spec vertical, Target study hasIndex given spec vertical ∧
    resolve study.verticals given = .ok spec.column) ∨
  (∀ spec vertical, ¬Target study hasIndex given spec vertical) ∧
    Throws (resolve study.verticals given)

theorem settles_of_throws {study : Lexicon} {hasIndex : Prop} {given : Given} {what : String}
    (hresolve : resolve study.verticals given = .error (.runtimeError what))
    (h : ∀ spec vertical, ¬Target study hasIndex given spec vertical) :
    Settles study hasIndex given :=
  .inr ⟨h, hresolve ▸ throws_runtimeError what⟩

theorem settles_iff_of_ok {study : Lexicon} {hasIndex : Prop} {given : Given} {column : Nat}
    (hresolve : resolve study.verticals given = .ok column) :
    Settles study hasIndex given ↔
      ∃ vertical, Target study hasIndex given ⟨given.vertIndex, column⟩ vertical := by
  constructor
  · rintro (⟨spec, vertical, htarget, hspec⟩ | ⟨-, hthrows⟩)
    · rw [hresolve] at hspec
      obtain rfl := Except.ok.inj hspec
      obtain ⟨v, c⟩ := spec
      obtain rfl : v = given.vertIndex := htarget.vertical_eq
      exact ⟨vertical, htarget⟩
    · rw [hresolve] at hthrows
      exact absurd hthrows (not_throws_ok column)
  · rintro ⟨vertical, htarget⟩
    exact .inl ⟨_, vertical, htarget, hresolve⟩

theorem settles_iff_not_ok {study : Lexicon} {hasIndex : Prop} {given : Given}
    (hcases : (∃ i, resolve study.verticals given = .ok i) ∨
      ∃ what, resolve study.verticals given = .error (.runtimeError what))
    (h : ∀ spec vertical, ¬Target study hasIndex given spec vertical) :
    Settles study hasIndex given ↔ ¬∃ i, resolve study.verticals given = .ok i := by
  rcases hcases with ⟨i, hi⟩ | ⟨what, hwhat⟩
  · rw [settles_iff_of_ok hi]
    simp [h, hi]
  · simp [settles_of_throws hwhat h, hwhat]

variable {study : Lexicon} {hasIndex : Prop} {given : Given}

theorem Target.column_lt {spec : ColumnSpec} {vertical : Vertical}
    (h : Target study hasIndex given spec vertical) : spec.column < sizeMax :=
  Nat.lt_of_lt_of_le h.lt
    (study.columns_le vertical (List.mem_of_getElem? h.exists_vertical))

theorem Target.vertIndex_lt {spec : ColumnSpec} {vertical : Vertical}
    (h : Target study hasIndex given spec vertical) : given.vertIndex < sizeMax :=
  Nat.lt_of_lt_of_le (List.getElem?_eq_some_iff.mp h.exists_vertical).1 study.length_le

/-- Without a name nothing is checked. -/
theorem settles_unnamed (hindex : ¬hasIndex → given.colIndex = sizeMax)
    (hname : given.colName = "") : Settles study hasIndex given ↔ Guarded study hasIndex given := by
  rw [Guarded, if_pos hname]
  by_cases hmax : given.colIndex = sizeMax
  · refine iff_of_true ?_ fun hne ↦ absurd hmax hne
    refine @settles_of_throws _ _ _ "Unable to determine column index." ?_ ?_
    · rw [resolve, if_pos hname, if_pos hmax]
    · intro spec vertical htarget
      by_cases hhas : hasIndex
      · exact absurd (htarget.index hhas ▸ hmax) (Nat.ne_of_lt htarget.column_lt)
      · exact (htarget.first hhas).1 hname
  · have hresolve : resolve study.verticals given = .ok given.colIndex := by
      rw [resolve, if_pos hname, if_neg hmax]
    have hhas : hasIndex := by
      by_contra hnot
      exact hmax (hindex hnot)
    rw [settles_iff_of_ok hresolve]
    constructor
    · rintro ⟨vertical, htarget⟩ -
      exact ⟨vertical, htarget.exists_vertical, htarget.lt⟩
    · intro h
      obtain ⟨vertical, hvertical, hlt⟩ := h hmax
      exact ⟨vertical, rfl, hvertical, hlt, fun _ ↦ rfl, fun hne ↦ absurd hname hne,
        fun hnot ↦ absurd hhas hnot⟩

/-- A vertical that counts as not given is not one of the lexicon. -/
theorem settles_anywhere (hname : given.colName ≠ "") (hvertical : given.vertIndex = sizeMax) :
    Settles study hasIndex given ↔ Guarded study hasIndex given := by
  have hresolve : resolve study.verticals given =
      searchLexicon given.colIndex given.colName study.verticals := by
    rw [resolve, if_neg hname, if_neg (not_not.mpr hvertical)]
  have hnone : ∀ spec vertical, ¬Target study hasIndex given spec vertical :=
    fun _ _ htarget ↦ absurd hvertical (Nat.ne_of_lt htarget.vertIndex_lt)
  have hcases := searchLexicon_cases given.colIndex given.colName study.verticals
  rw [← hresolve] at hcases
  rw [settles_iff_not_ok hcases hnone, hresolve, Guarded, if_neg hname, if_pos hvertical]
  split
  · next hmax =>
    rw [hmax, searchLexicon_name]
    simp
  · next hmax =>
    rw [searchLexicon_index hmax]
    simp

/-- In a vertical of the lexicon all is checked but an index that is `SIZE_MAX`. -/
theorem settles_within (hindex : ¬hasIndex → given.colIndex = sizeMax)
    (hname : given.colName ≠ "") (hvertical : given.vertIndex ≠ sizeMax) :
    Settles study hasIndex given ↔ Guarded study hasIndex given := by
  rw [Guarded, if_neg hname, if_neg hvertical]
  cases hget : study.verticals[given.vertIndex]? with
  | none =>
    refine iff_of_true ?_ fun _ _ _ h ↦ nomatch h
    refine @settles_of_throws _ _ _ "Invalid vertical index." ?_ ?_
    · rw [resolve, if_neg hname, if_pos hvertical, hget]
    · intro spec vertical htarget
      have hsome := htarget.exists_vertical
      rw [hget] at hsome
      contradiction
  | some vertical =>
    have hresolve : resolve study.verticals given =
        if given.colIndex ≠ sizeMax then checkColumn vertical given.colIndex given.colName
        else
          match findColumn vertical given.colName with
          | some index => .ok index
          | none => .error (.runtimeError "Unable to parse column index from column name.") := by
      rw [resolve, if_neg hname, if_pos hvertical, hget]
    have hof : ∀ spec v, Target study hasIndex given spec v → v = vertical := by
      intro spec v htarget
      have hsome := htarget.exists_vertical
      rw [hget] at hsome
      exact (Option.some.inj hsome).symm
    by_cases hmax : given.colIndex = sizeMax
    · rw [if_neg (not_not.mpr hmax)] at hresolve
      cases hfind : findColumn vertical given.colName with
      | none =>
        rw [hfind] at hresolve
        have hno := findColumn_eq_none.mp hfind
        refine iff_of_true ?_ fun _ _ v hv ↦ Option.some.inj hv ▸ hno
        apply settles_of_throws hresolve
        intro spec v htarget
        obtain rfl := hof spec v htarget
        exact hno ⟨_, List.getElem_mem htarget.lt, htarget.named hname⟩
      | some i =>
        rw [hfind] at hresolve
        have hmem : vertical ∈ study.verticals := List.mem_of_getElem? hget
        obtain ⟨hlt, hnamed, hfirst⟩ :=
          (findColumn_eq_some (study.indexed.columns vertical hmem)).mp hfind
        rw [settles_iff_of_ok hresolve]
        constructor
        · rintro ⟨v, htarget⟩ hhas -
          exact absurd ((htarget.index hhas).symm.trans hmax) (Nat.ne_of_lt htarget.column_lt)
        · intro h
          refine ⟨vertical, rfl, hget, hlt, ?_, fun _ ↦ hnamed, fun _ ↦ ⟨hname, hfirst⟩⟩
          intro hhas
          exact absurd ⟨_, List.getElem_mem hlt, hnamed⟩ (h hhas hmax vertical rfl)
    · rw [if_pos hmax] at hresolve
      have hhas : hasIndex := by
        by_contra hnot
        exact hmax (hindex hnot)
      refine iff_of_true ?_ fun _ h ↦ absurd h hmax
      rcases checkColumn_cases vertical given.colIndex given.colName with
        ⟨hlt, hnamed, hcheck⟩ | ⟨hnamed, what, hcheck⟩
      · rw [settles_iff_of_ok (hresolve.trans hcheck)]
        exact ⟨vertical, rfl, hget, hlt, fun _ ↦ rfl, fun _ ↦ hnamed, fun hnot ↦ absurd hhas hnot⟩
      · apply settles_of_throws (hresolve.trans hcheck)
        intro spec v htarget
        obtain rfl := hof spec v htarget
        have hcolumn := htarget.index hhas
        exact hnamed (hcolumn ▸ htarget.lt) (by simpa [hcolumn] using htarget.named hname)

theorem settles_iff (hindex : ¬hasIndex → given.colIndex = sizeMax) :
    Settles study hasIndex given ↔ Guarded study hasIndex given := by
  by_cases hname : given.colName = ""
  · exact settles_unnamed hindex hname
  · by_cases hvertical : given.vertIndex = sizeMax
    · exact settles_anywhere hname hvertical
    · exact settles_within hindex hname hvertical

/-- A construction resolves its request, or ends as the reading does. -/
theorem resolves_iff_settles {json : Value} (h : request json = .ok given) :
    Resolves study json ↔ Settles study (json.contains "columnIndex" = true) given := by
  have hdesignates : ∀ spec, Designates study json spec ↔
      ∃ vertical, Target study (json.contains "columnIndex" = true) given spec vertical :=
    fun _ ↦ designates_iff (request_eq_ok.mp h)
  have hrun : ∀ spec, ColumnSpec.ofStudyJson study.verticals json = .ok spec ↔
      spec.vertical = given.vertIndex ∧ resolve study.verticals given = .ok spec.column := by
    intro spec
    obtain ⟨v, c⟩ := spec
    rw [ofStudyJson_eq, h, ok_bind]
    cases resolve study.verticals given with
    | error fault => simp
    | ok column => simp [pure, Except.pure, eq_comm]
  have hthrows : Throws (ColumnSpec.ofStudyJson study.verticals json) ↔
      Throws (resolve study.verticals given) := by
    rw [ofStudyJson_eq, h, ok_bind]
    cases resolve study.verticals given with
    | error fault => simp [Throws]
    | ok column => exact iff_of_false (not_throws_ok _) (not_throws_ok _)
  rw [Resolves, Settles, hthrows]
  simp only [hdesignates, hrun, not_exists]
  constructor
  · rintro (⟨spec, ⟨vertical, htarget⟩, -, hresolve⟩ | hother)
    · exact .inl ⟨spec, vertical, htarget, hresolve⟩
    · exact .inr hother
  · rintro (⟨spec, vertical, htarget, hresolve⟩ | hother)
    · exact .inl ⟨spec, ⟨vertical, htarget⟩, htarget.vertical_eq, hresolve⟩
    · exact .inr hother

/-- The designated column is found or an exception is thrown exactly where nothing slips past the
checks. -/
theorem resolves_iff_sound (study : Lexicon) (json : Value) :
    Resolves study json ↔ Sound study json := by
  cases hrequest : request json with
  | error fault =>
    have hrun : ColumnSpec.ofStudyJson study.verticals json = .error fault := by
      rw [ofStudyJson_eq, hrequest, error_bind]
    have hnone : ∀ spec, ¬Designates study json spec := by
      intro spec hdesignates
      obtain ⟨given, hok⟩ := hdesignates.exists_request
      rw [hrequest] at hok
      contradiction
    simp [Resolves, Sound, hnone, hrun, hrequest, Throws]
  | ok given =>
    have hindex : ¬json.contains "columnIndex" = true → given.colIndex = sizeMax := by
      intro hnot
      rcases (request_eq_ok.mp hrequest).index with ⟨-, hmax⟩ | ⟨value, hvalue, -⟩
      · exact hmax
      · exact absurd (by simp [Value.contains, hvalue]) hnot
    rw [resolves_iff_settles hrequest, settles_iff hindex]
    simp [Sound, hrequest]

/-! ### A study of one column -/

/-- One vertical with one column. -/
def oneColumn : Lexicon where
  verticals := [⟨0, [⟨.integer, "age", 0⟩]⟩]
  indexed := ⟨rfl, by simp [Vertical.Indexed]⟩
  length_le := by decide
  columns_le := by simp [sizeMax]

/-- An index alone is stored unchecked, in a vertical that does not exist either. -/
theorem not_resolves_index :
    ¬Resolves oneColumn (.object
      [("columnIndex", .numberUnsigned 7), ("vertical", .numberUnsigned 5)]) := by
  rintro (⟨spec, ⟨value, hvalue, hsize, vertical, hget, -⟩, -⟩ | ⟨-, hthrows⟩)
  · obtain rfl : Value.numberUnsigned 5 = value := Option.some.inj hvalue
    have hvertical : 5 = spec.vertical := Except.ok.inj hsize
    rw [← hvertical] at hget
    contradiction
  · exact not_throws_ok _ hthrows

end Safrn.Json
