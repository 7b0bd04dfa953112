import Safrn.Json.Value

/-!
# The lexicon of a study

Models the columns of `JSON/Columns` and the loop of `configFromJson` over the lexicon
(`JSON/Config/StudyConfig.cpp`). A lexicon that is accepted is indexed: every vertical and every
column carries its own position.
-/

namespace Safrn.Json

/-- The kinds of column datatypes, `ColumnDatatype`. -/
inductive ColumnDatatype
  | bool
  | integer
  | real
  | categorical
  deriving DecidableEq

/-- `ColumnBase`. -/
structure Column where
  type : ColumnDatatype
  name : String
  index : Nat

/-- `Vertical`. -/
structure Vertical where
  verticalIndex : Nat
  columns : List Column

/-- `StringToColumnType`. -/
def stringToColumnType (asString : String) : Except Fault ColumnDatatype :=
  if asString = "bool" then .ok .bool
  else if asString = "integer" then .ok .integer
  else if asString = "real" then .ok .real
  else if asString = "categorical" then .ok .categorical
  else .error (.runtimeError "Unrecognized column datatype.")

/-- The constructor of `ColumnBase`. -/
def columnBase (json : Value) : Except Fault Column := do
  let type ← stringToColumnType (← (← json.member "type").toText)
  let name ← (← json.member "name").toText
  let index ← (← json.member "columnIndex").toSize
  return ⟨type, name, index⟩

/-- The constructor of `IntegerColumn`. -/
def integerColumn (json : Value) : Except Fault Column := do
  let column ← columnBase json
  let _signed ← (← json.member "signed").toBool
  let _bits ← (← json.member "bits").toSize
  return column

/-- The constructor of `RealColumn`. -/
def realColumn (json : Value) : Except Fault Column := do
  let column ← columnBase json
  let _precision ← (← json.member "precision").toArithmetic 8 0 255
  let _scale ← (← json.member "scale").toArithmetic 8 0 255
  return column

/-- The constructor of `CategoricalColumn`. -/
def categoricalColumn (json : Value) : Except Fault Column := do
  let column ← columnBase json
  let _categoricalName ← (← json.member "categorical").toText
  return column

/-- `ColumnFactory::createColumn`. What a `BoolColumn` reads beyond its base is filled in first. -/
def createColumn (columnJson : Value) : Except Fault Column := do
  match ← (← columnJson.member "type").toText with
  | "integer" => integerColumn columnJson
  | "real" => realColumn columnJson
  | "categorical" => categoricalColumn columnJson
  | "bool" => columnBase columnJson
  | _ => .error .outOfRange

/-- The loop over the columns of a vertical. -/
def readColumns (currentColIndex : Nat) : List Value → Except Fault (List Column)
  | [] => .ok []
  | json :: rest => do
    let column ← createColumn json
    if column.index ≠ currentColIndex then
      .error (.runtimeError "Incompatible vertical index.")
    else return column :: (← readColumns (currentColIndex + 1) rest)

/-- The index that a vertical gives, or its position. -/
def readVerticalIndex (currentVerticalIndex : Nat) (vertical : Value) : Except Fault Nat :=
  if vertical.contains "verticalIndex" then do (← vertical.member "verticalIndex").toSize
  else .ok currentVerticalIndex

/-- What the loop over the lexicon does with a vertical. -/
def readVertical (currentVerticalIndex : Nat) (vertical : Value) : Except Fault Vertical := do
  let verticalIndex ← readVerticalIndex currentVerticalIndex vertical
  if verticalIndex ≠ currentVerticalIndex then
    .error (.runtimeError "Incompatible vertical index.")
  else return ⟨verticalIndex, ← readColumns 0 (← vertical.member "columns").items⟩

/-- The loop over the lexicon. -/
def readLexicon (currentVerticalIndex : Nat) : List Value → Except Fault (List Vertical)
  | [] => .ok []
  | json :: rest => do
    let vertical ← readVertical currentVerticalIndex json
    return vertical :: (← readLexicon (currentVerticalIndex + 1) rest)

/-! ### Positions -/

/-- Every column carries its position. -/
def Vertical.Indexed (vertical : Vertical) : Prop :=
  vertical.columns.map Column.index = List.range vertical.columns.length

/-- Every vertical and every column carries its position, and the positions are indexes. -/
structure IndexedLexicon (lexicon : List Vertical) : Prop where
  verticals : lexicon.map Vertical.verticalIndex = List.range lexicon.length
  columns : ∀ vertical ∈ lexicon, vertical.Indexed

theorem readColumns_indexes {start : Nat} {jsons : List Value} {columns : List Column}
    (h : readColumns start jsons = .ok columns) :
    columns.map Column.index = List.range' start columns.length := by
  induction jsons generalizing start columns with
  | nil =>
    obtain rfl := Except.ok.inj h
    rfl
  | cons json rest ih =>
    obtain ⟨column, -, h⟩ := bind_eq_ok.mp h
    split at h
    · contradiction
    · next hindex =>
      obtain ⟨others, hothers, hcons⟩ := bind_eq_ok.mp h
      obtain rfl := Except.ok.inj hcons
      rw [List.map_cons, ih hothers, Decidable.not_not.mp hindex, List.length_cons,
        List.range'_succ]

theorem readVertical_indexed {start : Nat} {json : Value} {vertical : Vertical}
    (h : readVertical start json = .ok vertical) :
    vertical.verticalIndex = start ∧ vertical.Indexed := by
  obtain ⟨verticalIndex, -, h⟩ := bind_eq_ok.mp h
  split at h
  · contradiction
  · next hindex =>
    obtain ⟨columnsJson, -, h⟩ := bind_eq_ok.mp h
    obtain ⟨columns, hcolumns, hvertical⟩ := bind_eq_ok.mp h
    obtain rfl := Except.ok.inj hvertical
    refine ⟨Decidable.not_not.mp hindex, ?_⟩
    rw [Vertical.Indexed, readColumns_indexes hcolumns, List.range_eq_range']

theorem readLexicon_indexes {start : Nat} {jsons : List Value} {lexicon : List Vertical}
    (h : readLexicon start jsons = .ok lexicon) :
    lexicon.map Vertical.verticalIndex = List.range' start lexicon.length ∧
      ∀ vertical ∈ lexicon, vertical.Indexed := by
  induction jsons generalizing start lexicon with
  | nil =>
    obtain rfl := Except.ok.inj h
    exact ⟨rfl, fun _ hmem ↦ nomatch hmem⟩
  | cons json rest ih =>
    obtain ⟨vertical, hvertical, h⟩ := bind_eq_ok.mp h
    obtain ⟨others, hothers, hcons⟩ := bind_eq_ok.mp h
    obtain rfl := Except.ok.inj hcons
    obtain ⟨hindex, hcolumns⟩ := readVertical_indexed hvertical
    obtain ⟨hindexes, hrest⟩ := ih hothers
    refine ⟨?_, ?_⟩
    · rw [List.map_cons, hindexes, hindex, List.length_cons, List.range'_succ]
    · intro v hmem
      rcases List.mem_cons.mp hmem with rfl | hmem
      · exact hcolumns
      · exact hrest v hmem

/-- A lexicon that is accepted carries its positions. -/
theorem readLexicon_indexed {jsons : List Value} {lexicon : List Vertical}
    (h : readLexicon 0 jsons = .ok lexicon) : IndexedLexicon lexicon := by
  obtain ⟨hverticals, hcolumns⟩ := readLexicon_indexes h
  refine ⟨?_, hcolumns⟩
  rw [hverticals, List.range_eq_range']

end Safrn.Json
