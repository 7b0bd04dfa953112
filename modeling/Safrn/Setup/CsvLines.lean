import Mathlib.Data.List.Basic
import Mathlib.Data.Nat.Init

/-!
# Lines and cells of a CSV file

Models what `readCSV` does to a line before it looks at the cells: `getline`,
`RemoveWindowsTrailingCharacters` (`Util/read_file_utils.cpp:437-450`), `RemoveAllWhitespace` and
`Split` (`Util/string_utils.cpp:1715-1730, 2012-2053`). `Split` leaves out the empty cells, so a row
is where the header has it only if both have their empty cells at the same places.
-/

namespace Safrn.Setup

/-- A `std::string`. -/
abbrev Text := List Char

/-- The lines that `getline` reads: what follows the last line break is one unless it is empty. -/
def getlines (text : Text) : List Text :=
  let lines := text.splitOn '\n'
  if lines.getLast? = some [] then lines.dropLast else lines

/-- `RemoveWindowsTrailingCharacters`. -/
def removeWindowsTrailingCharacters (input : Text) : Text :=
  let input := if input.getLast? = some '\n' then input.dropLast else input
  if input.getLast? = some '\r' then input.dropLast else input

/-- `isspace`. -/
def isspace (c : Char) : Bool := c = ' ' || (9 ≤ c.toNat && c.toNat ≤ 13)

/-- `RemoveAllWhitespace`. -/
def removeAllWhitespace (input : Text) : Text := input.filter fun c ↦ !isspace c

/-- A line as `readCSV` looks at it. -/
def cleaned (line : Text) : Text := removeAllWhitespace (removeWindowsTrailingCharacters line)

/-- `HasPrefixString(line, "#")`. -/
def isComment (line : Text) : Bool := line.head? = some '#'

/-- What `Split` pushes at the end of a piece. -/
def pushPiece (skipEmpty : Bool) (piece : Text) : List Text :=
  if piece = [] then (if skipEmpty then [] else [[]]) else [piece]

/-- The loop of `Split`, `piece` being what stands since the last delimiter. -/
def splitFrom (delimiter : Char) (skipEmpty : Bool) (piece : Text) : Text → List Text
  | [] => pushPiece skipEmpty piece
  | c :: rest =>
    if c = delimiter then pushPiece skipEmpty piece ++ splitFrom delimiter skipEmpty [] rest
    else splitFrom delimiter skipEmpty (piece ++ [c]) rest

/-- `Split` at a delimiter of one character. -/
def split (input : Text) (delimiter : Char) (skipEmpty : Bool) : List Text :=
  if input = [] then [] else splitFrom delimiter skipEmpty [] input

/-! ## The table that a text holds -/

/-- The cells of a line, the empty ones included. -/
def cells (line : Text) : List Text := (cleaned line).splitOn ','

/-- The header and the rows without the comments, unless there is no header. -/
def records (text : Text) : Option (List Text × List (List Text)) :=
  match getlines text with
  | [] => none
  | header :: rows =>
    some (cells header, (rows.filter fun row ↦ !isComment (cleaned row)).map cells)

/-- A cell; what is missing at the end of a row is empty. -/
def cellAt (row : List Text) (k : Nat) : Text := row.getD k []

/-- The row has a cell exactly where the header has a name. -/
def FitsHeader (header row : List Text) : Prop := ∀ k, cellAt row k = [] ↔ cellAt header k = []

/-- The cells of a row that are not empty. -/
def nonempty (row : List Text) : List Text := row.filter fun cell ↦ cell ≠ []

/-- Where the header has a name. -/
def positions (header : List Text) : List Nat :=
  (List.range header.length).filter fun k ↦ cellAt header k ≠ []

/-! ## `Split` -/

private theorem splitFrom_eq (delimiter : Char) (piece input : Text) :
    splitFrom delimiter true piece input =
      nonempty ((input.splitOn delimiter).modifyHead (piece ++ ·)) := by
  induction input generalizing piece with
  | nil => by_cases hpiece : piece = [] <;> simp [splitFrom, pushPiece, nonempty, hpiece]
  | cons c rest ih =>
    rw [splitFrom, List.splitOn, List.splitOnP_cons_eq_if_modifyHead]
    by_cases hc : c = delimiter
    · have hrest : (rest.splitOn delimiter).modifyHead (([] : Text) ++ ·) =
          rest.splitOn delimiter := by
        cases rest.splitOn delimiter <;> simp
      rw [if_pos hc, ih, hrest]
      by_cases hpiece : piece = [] <;> simp [hc, pushPiece, nonempty, hpiece, List.splitOn]
    · rw [if_neg hc, ih]
      simp [hc, List.splitOn, List.modifyHead_modifyHead, Function.comp_def]

/-- `Split` keeps the cells that are not empty. -/
theorem split_eq (line : Text) : split (cleaned line) ',' true = nonempty (cells line) := by
  have hhead : (cells line).modifyHead (([] : Text) ++ ·) = cells line := by
    cases cells line <;> simp
  rw [split]
  split
  · next h => simp [cells, h, nonempty]
  · rw [splitFrom_eq, ← cells, hhead]

/-! ## Rows that fit the header -/

theorem cellAt_of_length_le {row : List Text} {k : Nat} (h : row.length ≤ k) :
    cellAt row k = [] := by
  simp [cellAt, h]

/-- Only the cells of the header and of the row count. -/
theorem fitsHeader_of_forall {header row : List Text} (hlength : row.length = header.length)
    (h : ∀ k < header.length, cellAt row k = [] ↔ cellAt header k = []) :
    FitsHeader header row := by
  intro k
  by_cases hk : k < header.length
  · exact h k hk
  · rw [cellAt_of_length_le (Nat.not_lt.mp hk),
      cellAt_of_length_le (hlength ▸ Nat.not_lt.mp hk)]

theorem positions_eq {header : List Text} {n : Nat} (h : header.length ≤ n) :
    positions header = (List.range n).filter fun k ↦ cellAt header k ≠ [] := by
  induction n, h using Nat.le_induction with
  | base => rfl
  | succ n hn ih =>
    rw [List.range_succ, List.filter_append, ← ih]
    simp [cellAt_of_length_le hn]

theorem nonempty_eq_map (row : List Text) : nonempty row = (positions row).map (cellAt row) := by
  have hrow : row = (List.range row.length).map (cellAt row) := by
    apply List.ext_getElem
    · simp
    · intro k hk _
      simp [cellAt, hk]
  conv_lhs => rw [nonempty, hrow]
  rw [List.filter_map, positions]
  rfl

/-- In a row that fits, the cells that are left stand under the names that are left. -/
theorem FitsHeader.nonempty_eq {header row : List Text} (h : FitsHeader header row) :
    nonempty row = (positions header).map (cellAt row) := by
  have hpositions : positions row = positions header := by
    rw [positions_eq (Nat.le_max_left row.length header.length),
      positions_eq (Nat.le_max_right row.length header.length)]
    apply List.filter_congr
    intro k _
    simp [h k]
  rw [nonempty_eq_map, hpositions]

/-- The cell that is left at a place. -/
theorem FitsHeader.getD_nonempty {header row : List Text} (h : FitsHeader header row) {i k : Nat}
    (hk : (positions header)[i]? = some k) : (nonempty row).getD i [] = cellAt row k := by
  rw [h.nonempty_eq, List.getD_eq_getElem?_getD, List.getElem?_map, hk]
  rfl

theorem mem_positions_iff {header : List Text} {k : Nat} :
    k ∈ positions header ↔ cellAt header k ≠ [] := by
  rw [positions, List.mem_filter, List.mem_range]
  constructor
  · intro h
    simpa using h.2
  · intro h
    refine ⟨?_, by simpa using h⟩
    by_contra hk
    exact h (cellAt_of_length_le (Nat.not_lt.mp hk))

end Safrn.Setup
