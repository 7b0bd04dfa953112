import Mathlib.Data.List.GetD
import Safrn.Util.SampleRows

/-!
# Sample data

Models `GenerateDataForVertical` and `main` of `Util/generate_sample_data_main.cpp:444-580`. Each
vertical writes a file for each of its parties. The first vertical that has common rows chooses
their identifiers; the others take these over. The joined table holds the independent variables of
the common rows of all verticals, from which the last vertical computes the dependent variable.
-/

namespace Safrn.Util

/-- `VerticalInfo`; the numbers of parties and of columns are the lengths of the lists. -/
structure VerticalInfo where
  numRows : ℕ
  keyName : String
  numRowsPerParty : List ℕ
  columnInfo : List ColumnInfo

namespace VerticalInfo

def headerLine (info : VerticalInfo) : String :=
  info.columnInfo.foldl (fun line col ↦ line ++ "," ++ col.columnName) info.keyName

end VerticalInfo

/-- The file of a party. -/
structure CsvFile where
  header : String
  rows : List Row

/-- The files of the parties of a vertical. -/
abbrev VerticalFiles := List CsvFile

/-- The rows of all parties. -/
def VerticalFiles.rows (files : VerticalFiles) : List Row := files.flatMap CsvFile.rows

namespace Vertical

/-- The loop over the parties, which draw one after the other. -/
def generateParties (V : Vertical) (header : String) :
    List ℕ → (ℕ → RowDraw) → State → Option (VerticalFiles × State)
  | [], _, s => some ([], s)
  | numRows :: parties, draws, s => do
    let (rows, s) ← V.generateDataForParty ((List.range numRows).map draws) s
    let (files, s) ← generateParties V header parties (fun k ↦ draws (numRows + k)) s
    return (⟨header, rows⟩ :: files, s)

end Vertical

namespace VerticalInfo

variable (info : VerticalInfo)

/-- The arguments of the rows of the vertical. -/
def vertical (isLast : Bool) (start : ℕ) (s : State) : Vertical :=
  ⟨s.intersectionIds.isEmpty, isLast, start, info.columnInfo⟩

/-- The state with the counts that a vertical starts with. -/
def begin (s : State) : State :=
  { s with remainingTotal := s.joined.rows, remainingInVert := info.numRows }

def generateDataForVertical (isLast : Bool) (start : ℕ) (draws : ℕ → RowDraw) (s : State) :
    Option (VerticalFiles × State) :=
  -- "bad"
  if info.numRows < s.joined.rows then none
  else
    (info.vertical isLast start s).generateParties info.headerLine info.numRowsPerParty draws
      (info.begin s)

end VerticalInfo

/-- The loop of `main` over the verticals, from vertical `k` on. -/
def generateVerticals (draws : ℕ → ℕ → RowDraw) :
    List VerticalInfo → ℕ → ℕ → State → Option (List VerticalFiles × State)
  -- "Too few verticals."
  | [], _, _, _ => none
  | [info], k, start, s => do
    let (files, s) ← info.generateDataForVertical true start (draws k) s
    return ([files], s)
  | info :: next :: infos, k, start, s => do
    let (files, s) ← info.generateDataForVertical false start (draws k) s
    let (rest, s) ← generateVerticals draws (next :: infos) (k + 1)
      (start + info.columnInfo.length) s
    return (files :: rest, s)

/-- The configuration file. -/
structure Config where
  numTotalCols : ℕ
  numTotalCommonRows : ℕ
  verticals : List VerticalInfo

namespace Config

variable (cfg : Config)

/-- The variables of `main` before the first vertical. -/
def start : State :=
  ⟨0, 0, ∅, [], ⟨cfg.numTotalCommonRows, cfg.numTotalCols, fun _ _ ↦ 0⟩⟩

def main (draws : ℕ → ℕ → RowDraw) : Option (List VerticalFiles × State) :=
  generateVerticals draws cfg.verticals 0 0 cfg.start

/-! ### What is asked of the files -/

/-- The values of the row with an identifier. -/
def lineOf (id : ℕ) (files : VerticalFiles) : List ℚ :=
  (files.rows.find? (·.id == id)).elim [] Row.values

/-- The independent variables of lines: all values, but for the last of the last vertical. -/
def features (line : VerticalFiles → List ℚ) : List VerticalFiles → List ℚ
  | [] => []
  | [files] => (line files).dropLast
  | files :: rest => line files ++ features line rest

/-- The files are as the configuration says, with `ids` for the common rows. -/
structure Correct (files : List VerticalFiles) (ids : List ℕ) : Prop where
  parties : files.map (·.map (·.rows.length)) = cfg.verticals.map (·.numRowsPerParty)
  nodup : ids.Nodup
  count : ids.length = cfg.numTotalCommonRows
  once : ∀ f ∈ files, ∀ id ∈ ids, (f.rows.map Row.id).count id = 1
  others : files.Pairwise fun f g ↦ ∀ id ∈ f.rows.map Row.id, id ∈ g.rows.map Row.id → id ∈ ids
  dependent : ∀ f ∈ files.getLast?, ∀ row ∈ f.rows, row.id ∈ ids → ∀ y ∈ row.values.getLast?,
    y = row.draw.values (row.values.length - 1) +
      weighted coeffs fun i ↦ (features (lineOf row.id) files).getD i 0

/-- The run writes its files, and they are right. -/
def Generates (draws : ℕ → ℕ → RowDraw) : Prop :=
  ∃ files s, cfg.main draws = some (files, s) ∧ cfg.Correct files s.intersectionIds

/-! ### What is asked of the configuration -/

/-- The row counts of the parties add up, and each vertical has room for the common rows. -/
structure Consistent : Prop where
  sums : ∀ info ∈ cfg.verticals, info.numRowsPerParty.sum = info.numRows
  common : ∀ info ∈ cfg.verticals, cfg.numTotalCommonRows ≤ info.numRows

/-- The number of independent variables. -/
def featureCount : List VerticalInfo → ℕ
  | [] => 0
  | [info] => info.columnInfo.length - 1
  | info :: infos => info.columnInfo.length + featureCount infos

/-- The last vertical has the column of the dependent variable. -/
def HasDependent : Prop := ∃ info ∈ cfg.verticals.getLast?, info.columnInfo ≠ []

/-- The number of identifiers that are used. -/
def idCount : ℕ :=
  (cfg.verticals.head?.elim 0 VerticalInfo.numRows) +
    (cfg.verticals.tail.map fun info ↦ info.numRows - cfg.numTotalCommonRows).sum

end Config

/-! ### The files of a vertical -/

namespace Vertical

variable {V : Vertical} {s s' : State} {rows : List Row} {header : String}

theorem generateDataForParty_append (xs ys : List RowDraw) :
    V.generateDataForParty (xs ++ ys) s = (V.generateDataForParty xs s).bind fun p ↦
      (V.generateDataForParty ys p.2).map fun q ↦ (p.1 ++ q.1, q.2) := by
  induction xs generalizing s with
  | nil => simp [generateDataForParty]
  | cons d xs ih =>
    rw [List.cons_append, generateDataForParty, generateDataForParty]
    cases V.generateRow d s with
    | none => rfl
    | some p =>
      simp only [Option.bind_eq_bind, Option.bind_some, ih]
      cases V.generateDataForParty xs p.2 with
      | none => rfl
      | some q =>
        simp only [Option.bind_some, Option.pure_def]
        cases V.generateDataForParty ys q.2 <;> rfl

theorem length_rows {ds : List RowDraw} (h : V.generateDataForParty ds s = some (rows, s')) :
    rows.length = ds.length := by
  induction ds generalizing s rows with
  | nil =>
    cases h
    rfl
  | cons d ds ih =>
    obtain ⟨⟨row, s₁⟩, -, h⟩ := Option.bind_eq_some_iff.mp h
    obtain ⟨⟨rest, s₂⟩, hrest, h⟩ := Option.bind_eq_some_iff.mp h
    cases h
    rw [List.length_cons, ih hrest, List.length_cons]

/-- The draws of the first party, and those of the others. -/
theorem draws_add (draws : ℕ → RowDraw) (m n : ℕ) : (List.range (m + n)).map draws =
    (List.range m).map draws ++ (List.range n).map fun k ↦ draws (m + k) := by
  rw [List.range_add, List.map_append, List.map_map]
  rfl

/-- The parties divide the rows of the vertical among them. -/
theorem rows_of_generateParties {parties : List ℕ} {draws : ℕ → RowDraw} {files : VerticalFiles}
    (h : V.generateParties header parties draws s = some (files, s')) :
    V.generateDataForParty ((List.range parties.sum).map draws) s = some (files.rows, s') ∧
      files.map (·.rows.length) = parties := by
  induction parties generalizing draws s files with
  | nil =>
    cases h
    exact ⟨rfl, rfl⟩
  | cons numRows parties ih =>
    obtain ⟨⟨rows, s₁⟩, hrows, h⟩ := Option.bind_eq_some_iff.mp h
    obtain ⟨⟨rest, s₂⟩, hrest, h⟩ := Option.bind_eq_some_iff.mp h
    cases h
    obtain ⟨htail, hlengths⟩ := ih hrest
    constructor
    · rw [List.sum_cons, draws_add, generateDataForParty_append, hrows, Option.bind_some, htail]
      rfl
    · have hlength := length_rows hrows
      rw [List.length_map, List.length_range] at hlength
      rw [List.map_cons, hlengths, hlength]

theorem exists_generateParties {parties : List ℕ} {draws : ℕ → RowDraw}
    (h : V.generateDataForParty ((List.range parties.sum).map draws) s = some (rows, s')) :
    ∃ files, V.generateParties header parties draws s = some (files, s') := by
  induction parties generalizing draws s rows with
  | nil =>
    cases h
    exact ⟨[], rfl⟩
  | cons numRows parties ih =>
    rw [List.sum_cons, draws_add, generateDataForParty_append] at h
    obtain ⟨⟨first, s₁⟩, hfirst, h⟩ := Option.bind_eq_some_iff.mp h
    obtain ⟨⟨rest, s₂⟩, hrest, h⟩ := Option.map_eq_some_iff.mp h
    cases h
    obtain ⟨files, hfiles⟩ := ih hrest
    refine ⟨⟨header, first⟩ :: files, ?_⟩
    rw [generateParties, hfirst]
    simp only [Option.bind_eq_bind, Option.bind_some, hfiles, Option.pure_def]

end Vertical

namespace VerticalInfo

variable {info : VerticalInfo} {isLast : Bool} {start : ℕ} {draws : ℕ → RowDraw} {s s' : State}
  {files : VerticalFiles}

/-- The rows that are not common. -/
def apart (rows : List Row) : List Row := rows.filter fun row ↦ !row.isRowInIntersection

/-- The numbers that decide about the rows of a vertical are probabilities. -/
def Decides (info : VerticalInfo) (draws : ℕ → RowDraw) : Prop :=
  ∀ j < info.numRows, 0 ≤ (draws j).unif ∧ (draws j).unif < 1

theorem ready_begin (hle : s.joined.rows ≤ info.numRows) (hunif : info.Decides draws) :
    Vertical.Ready ((List.range info.numRows).map draws) (info.begin s) := by
  refine ⟨?_, ?_, Nat.le_refl _, ?_⟩
  · rw [List.length_map, List.length_range]
    rfl
  · rw [List.length_map, List.length_range]
    exact hle
  · intro d hd
    obtain ⟨j, hj, rfl⟩ := List.mem_map.mp hd
    exact hunif j (List.mem_range.mp hj)

/-- A vertical is a run over the draws of all its parties. -/
structure Run (info : VerticalInfo) (isLast : Bool) (start : ℕ) (draws : ℕ → RowDraw) (s : State)
    (files : VerticalFiles) (s' : State) : Prop where
  ready : Vertical.Ready ((List.range info.numRows).map draws) (info.begin s)
  rows : (info.vertical isLast start s).generateDataForParty ((List.range info.numRows).map draws)
    (info.begin s) = some (files.rows, s')
  parties : files.map (·.rows.length) = info.numRowsPerParty

theorem run_of_generate (hsum : info.numRowsPerParty.sum = info.numRows)
    (hunif : info.Decides draws)
    (h : info.generateDataForVertical isLast start draws s = some (files, s')) :
    info.Run isLast start draws s files s' := by
  rw [generateDataForVertical] at h
  split at h
  case isTrue => cases h
  case isFalse hle =>
    obtain ⟨hrows, hparties⟩ := Vertical.rows_of_generateParties h
    rw [hsum] at hrows
    exact ⟨ready_begin (Nat.le_of_not_lt hle) hunif, hrows, hparties⟩

namespace Run

variable (h : info.Run isLast start draws s files s')

include h

theorem length_common : (Vertical.common files.rows).length = s.joined.rows :=
  Vertical.length_common h.ready h.rows

theorem joined_size : s'.joined.rows = s.joined.rows ∧ s'.joined.cols = s.joined.cols := by
  have hsize := Vertical.joined_size h.ready h.rows
  exact hsize

/-- The other columns of the joined table stay. -/
theorem joined_keep {r c : ℕ}
    (hout : c < start ∨ start + (info.vertical isLast start s).features info.columnInfo ≤ c) :
    s'.joined.cell r c = s.joined.cell r c :=
  Vertical.joined_keep h.ready h.rows r c (.inr hout)

/-- The `k`-th common row is row `k` of the joined table. -/
theorem joined_common {k : ℕ} {row : Row} (hrow : (Vertical.common files.rows)[k]? = some row) :
    (∀ c < (info.vertical isLast start s).features info.columnInfo,
      s'.joined.cell k (start + c) = row.draw.values c) ∧
      row.values = (info.vertical isLast start s).commonLine row.draw (s'.joined.cell k) := by
  have hcommon := Vertical.joined_common h.ready h.rows k row hrow
  have hbegin : (info.begin s).joined.rows - (info.begin s).remainingTotal + k = k := by
    rw [begin, Nat.sub_self, Nat.zero_add]
  rw [hbegin] at hcommon
  exact hcommon

/-- The first vertical chooses the common identifiers. -/
theorem ids_first (hnil : s.intersectionIds = []) :
    s'.intersectionIds = (Vertical.common files.rows).map Row.id ∧
      s'.usedIds = s.usedIds ∪ (files.rows.map Row.id).toFinset ∧
      (files.rows.map Row.id).Nodup := by
  have hfirst : (info.vertical isLast start s).isFirst = true := by
    rw [vertical, hnil]
    rfl
  have hown : Vertical.own (info.vertical isLast start s) files.rows = files.rows := by
    rw [Vertical.own, hfirst]
    exact List.filter_true _
  have hids := Vertical.ids_first hfirst h.ready h.rows
  obtain ⟨hused, hnodup, -⟩ := Vertical.ids_own h.ready h.rows
  rw [hown] at hused hnodup
  refine ⟨hids.trans ?_, hused, hnodup⟩
  rw [begin, hnil, List.nil_append]

/-- The other verticals take them over, from the last to the first. -/
theorem ids_later (hlength : s.intersectionIds.length = s.joined.rows) :
    s'.intersectionIds = s.intersectionIds ∧
      (Vertical.common files.rows).map Row.id = s.intersectionIds.reverse ∧
      s'.usedIds = s.usedIds ∪ ((apart files.rows).map Row.id).toFinset ∧
      ∀ id ∈ (apart files.rows).map Row.id, id ∉ s.usedIds := by
  obtain ⟨hused, -, hnew⟩ := Vertical.ids_own h.ready h.rows
  cases hids : s.intersectionIds with
  | nil =>
    have hnone : Vertical.common files.rows = [] := by
      have hlen := h.length_common
      rw [← hlength, hids] at hlen
      exact List.length_eq_zero_iff.mp hlen
    have hapart : apart files.rows = files.rows := by
      refine List.filter_eq_self.mpr fun row hrow ↦ ?_
      have hnot := List.filter_eq_nil_iff.mp hnone row hrow
      rw [Bool.not_eq_true] at hnot
      rw [hnot]
      rfl
    have hown : Vertical.own (info.vertical isLast start s) files.rows = files.rows := by
      rw [Vertical.own, vertical, hids]
      exact List.filter_true _
    rw [hown] at hused hnew
    rw [hapart]
    exact ⟨(h.ids_first hids).1.trans (by rw [hnone]; rfl), by rw [hnone]; rfl, hused, hnew⟩
  | cons id ids =>
    have hfirst : (info.vertical isLast start s).isFirst = false := by
      rw [vertical, hids]
      rfl
    have hown : Vertical.own (info.vertical isLast start s) files.rows = apart files.rows := by
      rw [Vertical.own, hfirst]
      rfl
    obtain ⟨hkeep, hcommon⟩ := Vertical.ids_shared hfirst h.ready h.rows
    rw [hown] at hused hnew
    have htake : (info.begin s).intersectionIds.take (info.begin s).remainingTotal =
        s.intersectionIds := List.take_of_length_le (Nat.le_of_eq hlength)
    rw [htake, hids] at hcommon
    exact ⟨hkeep.trans hids, hcommon, hused, hnew⟩

/-- A common row, and what its columns of the joined table hold. -/
theorem exists_common {k : ℕ} (hk : k < s.joined.rows) :
    ∃ row, (Vertical.common files.rows)[k]? = some row ∧
      row.values = (info.vertical isLast start s).commonLine row.draw (s'.joined.cell k) ∧
      ∀ i, s'.joined.cell k (start + i) =
        ((List.range ((info.vertical isLast start s).features info.columnInfo)).map
          row.draw.values).getD i (s.joined.cell k (start + i)) := by
  rw [← h.length_common] at hk
  have hrow := List.getElem?_eq_getElem hk
  obtain ⟨hcells, hline⟩ := h.joined_common hrow
  refine ⟨_, hrow, hline, fun i ↦ ?_⟩
  rw [List.getD_eq_getElem?_getD, List.getElem?_map]
  by_cases hi : i < (info.vertical isLast start s).features info.columnInfo
  · rw [List.getElem?_range hi]
    exact hcells i hi
  · rw [List.getElem?_eq_none (by rw [List.length_range]; omega)]
    exact h.joined_keep (.inr (by omega))

end Run

end VerticalInfo

/-! ### The joined table of all verticals -/

namespace Config

open VerticalInfo

variable {draws : ℕ → ℕ → RowDraw} {infos : List VerticalInfo} {k start : ℕ} {s s' : State}
  {files : List VerticalFiles}

/-- What the runs of the verticals from `k` on are promised. -/
structure Promised (draws : ℕ → ℕ → RowDraw) (infos : List VerticalInfo) (k : ℕ) : Prop where
  sums : ∀ info ∈ infos, info.numRowsPerParty.sum = info.numRows
  decides : ∀ (j : ℕ) (info : VerticalInfo), infos[j]? = some info → info.Decides (draws (k + j))

theorem Promised.tail {info : VerticalInfo} (h : Promised draws (info :: infos) k) :
    Promised draws infos (k + 1) := by
  refine ⟨fun i hi ↦ h.sums i (List.mem_cons_of_mem _ hi), fun j i hi ↦ ?_⟩
  rw [Nat.add_assoc, Nat.add_comm 1]
  exact h.decides (j + 1) i hi

/-- Induction over the verticals. -/
theorem verticals_induction
    {P : List VerticalInfo → ℕ → ℕ → State → List VerticalFiles → State → Prop}
    (last : ∀ info k start s f s', info.Run true start (draws k) s f s' →
      P [info] k start s [f] s')
    (next : ∀ info infos k start s f s₁ rest s', info.Run false start (draws k) s f s₁ →
      generateVerticals draws infos (k + 1) (start + info.columnInfo.length) s₁ = some (rest, s') →
      rest ≠ [] → P infos (k + 1) (start + info.columnInfo.length) s₁ rest s' →
      P (info :: infos) k start s (f :: rest) s')
    (hpromised : Promised draws infos k)
    (h : generateVerticals draws infos k start s = some (files, s')) :
    P infos k start s files s' := by
  induction infos generalizing k start s files with
  | nil => cases h
  | cons info infos ih =>
    have hsum := hpromised.sums info List.mem_cons_self
    have hdecides := hpromised.decides 0 info rfl
    cases infos with
    | nil =>
      obtain ⟨⟨f, s₁⟩, hrun, h⟩ := Option.bind_eq_some_iff.mp h
      cases h
      exact last info k start s f _ (run_of_generate hsum hdecides hrun)
    | cons info' infos =>
      obtain ⟨⟨f, s₁⟩, hrun, h⟩ := Option.bind_eq_some_iff.mp h
      obtain ⟨⟨rest, s₂⟩, hrest, h⟩ := Option.bind_eq_some_iff.mp h
      cases h
      have hne : rest ≠ [] := by
        rintro rfl
        cases infos with
        | nil =>
          obtain ⟨_, -, h⟩ := Option.bind_eq_some_iff.mp hrest
          cases h
        | cons =>
          obtain ⟨_, -, hrest⟩ := Option.bind_eq_some_iff.mp hrest
          obtain ⟨_, -, h⟩ := Option.bind_eq_some_iff.mp hrest
          cases h
      exact next info (info' :: infos) k start s f s₁ rest s' (run_of_generate hsum hdecides hrun)
        hrest hne (ih hpromised.tail hrest)

theorem parties_of_generateVerticals (hpromised : Promised draws infos k)
    (h : generateVerticals draws infos k start s = some (files, s')) :
    files.map (·.map (·.rows.length)) = infos.map (·.numRowsPerParty) := by
  refine verticals_induction
    (P := fun infos _ _ _ files _ ↦
      files.map (·.map (·.rows.length)) = infos.map (·.numRowsPerParty)) ?_ ?_ hpromised h
  · intro info k start s f s' hrun
    rw [List.map_singleton, List.map_singleton, hrun.parties]
  · intro info infos k start s f s₁ rest s' hrun _ _ ih
    rw [List.map_cons, List.map_cons, hrun.parties, ih]

theorem joined_size (hpromised : Promised draws infos k)
    (h : generateVerticals draws infos k start s = some (files, s')) :
    s'.joined.rows = s.joined.rows ∧ s'.joined.cols = s.joined.cols := by
  refine verticals_induction (P := fun _ _ _ s _ s' ↦
    s'.joined.rows = s.joined.rows ∧ s'.joined.cols = s.joined.cols) ?_ ?_ hpromised h
  · intro info k start s f s' hrun
    exact hrun.joined_size
  · intro info infos k start s f s₁ rest s' hrun _ _ ih
    exact ⟨ih.1.trans hrun.joined_size.1, ih.2.trans hrun.joined_size.2⟩

/-- The values of the `r`-th common row. -/
def lineAt (r : ℕ) (files : VerticalFiles) : List ℚ :=
  (Vertical.common files.rows)[r]?.elim [] Row.values

theorem features_cons {line : VerticalFiles → List ℚ} {f : VerticalFiles}
    {rest : List VerticalFiles} (hne : rest ≠ []) :
    features line (f :: rest) = line f ++ features line rest := by
  cases rest with
  | nil => exact absurd rfl hne
  | cons => rfl

theorem commonLine_notLast {info : VerticalInfo} {d : RowDraw} {cell : ℕ → ℚ} :
    (info.vertical false start s).commonLine d cell =
      (List.range info.columnInfo.length).map d.values := by
  simp [Vertical.commonLine, Vertical.features, vertical]

theorem dropLast_commonLine {info : VerticalInfo} {d : RowDraw} {cell : ℕ → ℚ} :
    ((info.vertical true start s).commonLine d cell).dropLast =
      (List.range (info.columnInfo.length - 1)).map d.values := by
  by_cases hnil : info.columnInfo = []
  · simp [Vertical.commonLine, Vertical.features, vertical, hnil]
  · simp [Vertical.commonLine, Vertical.features, vertical, hnil]

/-- A row of the joined table consists of the common rows of that number of all verticals. -/
theorem cells_of_generateVerticals (hpromised : Promised draws infos k)
    (h : generateVerticals draws infos k start s = some (files, s')) {r : ℕ}
    (hr : r < s.joined.rows) :
    (∀ c < start, s'.joined.cell r c = s.joined.cell r c) ∧
      ∀ i, s'.joined.cell r (start + i) =
        (features (lineAt r) files).getD i (s.joined.cell r (start + i)) := by
  refine verticals_induction (P := fun _ _ start s files s' ↦ r < s.joined.rows →
      (∀ c < start, s'.joined.cell r c = s.joined.cell r c) ∧
        ∀ i, s'.joined.cell r (start + i) =
          (features (lineAt r) files).getD i (s.joined.cell r (start + i))) ?_ ?_ hpromised h hr
  · intro info k start s f s' hrun hr
    obtain ⟨row, hrow, hline, hcells⟩ := hrun.exists_common hr
    refine ⟨fun c hc ↦ hrun.joined_keep (.inl hc), fun i ↦ ?_⟩
    rw [features, lineAt, hrow, Option.elim_some, hline, dropLast_commonLine]
    exact hcells i
  · intro info infos k start s f s₁ rest s' hrun _ hne ih hr
    obtain ⟨row, hrow, hline, hcells⟩ := hrun.exists_common hr
    obtain ⟨hbelow, habove⟩ := ih (hrun.joined_size.1 ▸ hr)
    refine ⟨fun c hc ↦ (hbelow c (by omega)).trans (hrun.joined_keep (.inl hc)), fun i ↦ ?_⟩
    have hlength : (lineAt r f).length = info.columnInfo.length := by
      rw [lineAt, hrow, Option.elim_some, hline, commonLine_notLast, List.length_map,
        List.length_range]
    rw [features_cons hne]
    by_cases hi : i < info.columnInfo.length
    · rw [hbelow _ (by omega), hcells i, List.getD_append _ _ _ _ (hlength ▸ hi), lineAt, hrow,
        Option.elim_some, hline, commonLine_notLast]
      rfl
    · obtain ⟨j, rfl⟩ := Nat.exists_eq_add_of_le (Nat.le_of_not_lt hi)
      rw [List.getD_append_right _ _ _ _ (hlength ▸ Nat.le_add_right _ _), hlength,
        Nat.add_sub_cancel_left, ← Nat.add_assoc, habove j]
      congr 1
      exact hrun.joined_keep (.inr (Nat.le_add_right _ _))

/-- The dependent value of a common row, from the row of the joined table that has its number. -/
theorem dependent_of_generateVerticals (hpromised : Promised draws infos k)
    (h : generateVerticals draws infos k start s = some (files, s')) :
    ∀ f ∈ files.getLast?, ∀ r row, (Vertical.common f.rows)[r]? = some row →
      ∀ y ∈ row.values.getLast?,
        y = row.draw.values (row.values.length - 1) + weighted coeffs (s'.joined.cell r) := by
  refine verticals_induction (P := fun _ _ _ _ files s' ↦
      ∀ f ∈ files.getLast?, ∀ r row, (Vertical.common f.rows)[r]? = some row →
        ∀ y ∈ row.values.getLast?,
          y = row.draw.values (row.values.length - 1) + weighted coeffs (s'.joined.cell r))
    ?_ ?_ hpromised h
  · intro info k start s f s' hrun f' hf r row hrow y hy
    obtain rfl := Option.some.inj hf
    have hline := (hrun.joined_common hrow).2
    by_cases hnil : info.columnInfo = []
    · rw [hline] at hy
      simp [Vertical.commonLine, Vertical.features, vertical, hnil] at hy
    · rw [hline] at hy ⊢
      simp only [Vertical.commonLine, Vertical.features, vertical, hnil, and_self, if_true, ne_eq,
        not_false_eq_true, List.getLast?_concat, List.length_append, List.length_map,
        List.length_range, List.length_singleton, Nat.add_sub_cancel] at hy ⊢
      exact (Option.some.inj hy).symm
  · intro info infos k start s f s₁ rest s' _ _ hne ih f' hf
    rw [List.getLast?_cons_of_ne_nil hne] at hf
    exact ih f' hf

/-! ### The identifiers of all verticals -/

theorem perm_ids (rows : List Row) :
    ((Vertical.common rows).map Row.id ++ (apart rows).map Row.id).Perm (rows.map Row.id) := by
  rw [← List.map_append]
  exact (List.filter_append_perm _ _).map _

/-- The common identifiers are in use, and are different. -/
structure Noted (s : State) : Prop where
  length : s.intersectionIds.length = s.joined.rows
  used : ∀ id ∈ s.intersectionIds, id ∈ s.usedIds
  nodup : s.intersectionIds.Nodup

/-- What the verticals after the first one do with the identifiers. -/
structure Later (s : State) (files : List VerticalFiles) (s' : State) : Prop where
  ids : s'.intersectionIds = s.intersectionIds
  common : ∀ f ∈ files, (Vertical.common f.rows).map Row.id = s.intersectionIds.reverse
  once : ∀ f ∈ files, ∀ id ∈ s.intersectionIds, (f.rows.map Row.id).count id = 1
  old : ∀ f ∈ files, ∀ id ∈ f.rows.map Row.id, id ∈ s.usedIds → id ∈ s.intersectionIds
  others : files.Pairwise fun f g ↦
    ∀ id ∈ f.rows.map Row.id, id ∈ g.rows.map Row.id → id ∈ s.intersectionIds

section Later

variable {info : VerticalInfo} {isLast : Bool} {f : VerticalFiles} {rest : List VerticalFiles}
  {draws' : ℕ → RowDraw} {s₁ : State}

theorem later_single (h : info.Run isLast start draws' s f s₁) (hnoted : Noted s) :
    Later s [f] s₁ := by
  obtain ⟨hids, hcommon, -, hnew⟩ := h.ids_later hnoted.length
  refine ⟨hids, ?_, ?_, ?_, List.pairwise_singleton _ _⟩
  · intro f' hf
    rw [List.mem_singleton.mp hf]
    exact hcommon
  · intro f' hf id hid
    have hone : s.intersectionIds.reverse.count id = 1 := by
      rw [List.count_reverse]
      exact List.count_eq_one_of_mem hnoted.nodup hid
    have hzero : ((apart f.rows).map Row.id).count id = 0 :=
      List.count_eq_zero.mpr fun hmem ↦ hnew id hmem (hnoted.used id hid)
    rw [List.mem_singleton.mp hf, ← (perm_ids f.rows).count_eq, List.count_append, hcommon, hone,
      hzero]
  · intro f' hf id hid hold
    rw [List.mem_singleton.mp hf, ← (perm_ids f.rows).mem_iff, List.mem_append, hcommon,
      List.mem_reverse] at hid
    exact hid.resolve_right fun hmem ↦ hnew id hmem hold

theorem used_of_run (h : info.Run isLast start draws' s f s₁) (hnoted : Noted s) :
    (∀ id ∈ s.usedIds, id ∈ s₁.usedIds) ∧ ∀ id ∈ f.rows.map Row.id, id ∈ s₁.usedIds := by
  obtain ⟨-, hcommon, hused, -⟩ := h.ids_later hnoted.length
  rw [hused]
  refine ⟨fun id hid ↦ Finset.mem_union_left _ hid, fun id hid ↦ ?_⟩
  rw [← (perm_ids f.rows).mem_iff, List.mem_append, hcommon, List.mem_reverse] at hid
  cases hid with
  | inl hid => exact Finset.mem_union_left _ (hnoted.used id hid)
  | inr hid => exact Finset.mem_union_right _ (List.mem_toFinset.mpr hid)

theorem Noted.run (h : info.Run isLast start draws' s f s₁) (hnoted : Noted s) : Noted s₁ := by
  have hids := (h.ids_later hnoted.length).1
  refine ⟨?_, ?_, hids ▸ hnoted.nodup⟩
  · rw [hids, h.joined_size.1, hnoted.length]
  · rw [hids]
    exact fun id hid ↦ (used_of_run h hnoted).1 id (hnoted.used id hid)

theorem later_cons (h : info.Run isLast start draws' s f s₁) (hnoted : Noted s)
    (hlater : Later s₁ rest s') : Later s (f :: rest) s' := by
  have hids := (h.ids_later hnoted.length).1
  have hsingle := later_single h hnoted
  obtain ⟨hkeep, hnewer⟩ := used_of_run h hnoted
  obtain ⟨hids', hcommon, honce, hold, hothers⟩ := hlater
  rw [hids] at hids' hcommon honce hold hothers
  refine ⟨hids', ?_, ?_, ?_, List.pairwise_cons.mpr ⟨?_, hothers⟩⟩
  · exact List.forall_mem_cons.mpr ⟨hsingle.common f (List.mem_singleton_self f), hcommon⟩
  · exact List.forall_mem_cons.mpr ⟨hsingle.once f (List.mem_singleton_self f), honce⟩
  · refine List.forall_mem_cons.mpr ⟨hsingle.old f (List.mem_singleton_self f), ?_⟩
    exact fun g hg id hid hused ↦ hold g hg id hid (hkeep id hused)
  · exact fun g hg id hf hid ↦ hold g hg id hid (hnewer id hf)

end Later

theorem later_of_generateVerticals (hpromised : Promised draws infos k) (hnoted : Noted s)
    (h : generateVerticals draws infos k start s = some (files, s')) : Later s files s' := by
  refine verticals_induction (P := fun _ _ _ s files s' ↦ Noted s → Later s files s') ?_ ?_
    hpromised h hnoted
  · intro info k start s f s' hrun hnoted
    exact later_single hrun hnoted
  · intro info infos k start s f s₁ rest s' hrun _ _ ih hnoted
    exact later_cons hrun hnoted (ih (hnoted.run hrun))

/-- After the first vertical the common identifiers are noted. -/
theorem noted_of_first {info : VerticalInfo} {isLast : Bool} {draws' : ℕ → RowDraw}
    {f : VerticalFiles} (h : info.Run isLast start draws' s f s') (hnil : s.intersectionIds = []) :
    Noted s' := by
  obtain ⟨hids, hused, hnodup⟩ := h.ids_first hnil
  have hsub : ((Vertical.common f.rows).map Row.id).Sublist (f.rows.map Row.id) :=
    List.filter_sublist.map _
  refine ⟨?_, ?_, hids ▸ hsub.nodup hnodup⟩
  · rw [hids, List.length_map, h.length_common, h.joined_size.1]
  · rw [hids, hused]
    exact fun id hid ↦ Finset.mem_union_right _ (List.mem_toFinset.mpr (hsub.subset hid))

/-! ### Lines by identifier and by number -/

/-- An identifier that stands once stands in one row. -/
theorem eq_of_count_eq_one {rows : List Row} {row row' : Row} (hrow : row ∈ rows)
    (hrow' : row' ∈ rows) (heq : row'.id = row.id)
    (hcount : (rows.map Row.id).count row.id = 1) : row' = row := by
  rw [List.count, List.countP_map, List.countP_eq_length_filter, List.length_eq_one_iff] at hcount
  obtain ⟨only, honly⟩ := hcount
  have hmem : ∀ r ∈ rows, r.id = row.id → r = only := fun r hr hid ↦
    List.mem_singleton.mp (honly ▸ List.mem_filter.mpr ⟨hr, by simp [hid]⟩)
  rw [hmem row' hrow' heq, hmem row hrow rfl]

theorem mem_rows_of_common {f : VerticalFiles} {r : ℕ} {row : Row}
    (hrow : (Vertical.common f.rows)[r]? = some row) : row ∈ f.rows :=
  (List.mem_filter.mp (List.mem_of_getElem? hrow)).1

theorem lineOf_eq_lineAt {f : VerticalFiles} {r : ℕ} {row : Row}
    (hrow : (Vertical.common f.rows)[r]? = some row)
    (hcount : (f.rows.map Row.id).count row.id = 1) : lineOf row.id f = lineAt r f := by
  have hmem := mem_rows_of_common hrow
  rw [lineOf, lineAt, hrow]
  cases hfind : f.rows.find? (·.id == row.id) with
  | none =>
    exact absurd (beq_self_eq_true row.id) (List.find?_eq_none.mp hfind row hmem)
  | some row' =>
    have hid : row'.id = row.id := by simpa using List.find?_some hfind
    rw [eq_of_count_eq_one hmem (List.mem_of_find?_eq_some hfind) hid hcount]

theorem features_congr {line line' : VerticalFiles → List ℚ}
    (h : ∀ f ∈ files, line f = line' f) : features line files = features line' files := by
  induction files with
  | nil => rfl
  | cons f rest ih =>
    have hf := h f List.mem_cons_self
    by_cases hnil : rest = []
    · rw [hnil, features, features, hf]
    · rw [features_cons hnil, features_cons hnil, hf,
        ih fun g hg ↦ h g (List.mem_cons_of_mem f hg)]

/-- The last vertical has a dependent value in its common rows when it has a column. -/
theorem values_ne_nil_iff (hpromised : Promised draws infos k)
    (h : generateVerticals draws infos k start s = some (files, s')) :
    ∀ f ∈ files.getLast?, ∀ (r : ℕ) (row : Row), (Vertical.common f.rows)[r]? = some row →
      (row.values ≠ [] ↔ ∃ info ∈ infos.getLast?, info.columnInfo ≠ []) := by
  refine verticals_induction (P := fun infos _ _ _ files _ ↦
      ∀ f ∈ files.getLast?, ∀ (r : ℕ) (row : Row), (Vertical.common f.rows)[r]? = some row →
        (row.values ≠ [] ↔ ∃ info ∈ infos.getLast?, info.columnInfo ≠ [])) ?_ ?_ hpromised h
  · intro info k start s f s' hrun f' hf r row hrow
    obtain rfl := Option.some.inj hf
    rw [(hrun.joined_common hrow).2]
    by_cases hnil : info.columnInfo = []
    · simp [Vertical.commonLine, Vertical.features, vertical, hnil]
    · simp [Vertical.commonLine, Vertical.features, vertical, hnil]
  · intro info infos k start s f s₁ rest s' _ hrest hne ih f' hf
    have hinfos : infos ≠ [] := by
      rintro rfl
      cases hrest
    rw [List.getLast?_cons_of_ne_nil hne] at hf
    rw [List.getLast?_cons_of_ne_nil hinfos]
    exact ih f' hf

theorem weighted_congr {cs : List ℚ} {f g : ℕ → ℚ} (h : ∀ i < cs.length, f i = g i) :
    weighted cs f = weighted cs g := by
  induction cs generalizing f g with
  | nil => rfl
  | cons c cs ih =>
    rw [weighted, weighted, h 0 (Nat.succ_pos _),
      ih fun i hi ↦ h (i + 1) (Nat.succ_lt_succ hi)]

/-- A change at one coefficient that is not zero changes the sum. -/
theorem weighted_ne {cs : List ℚ} (hcs : ∀ c ∈ cs, c ≠ 0) {f g : ℕ → ℚ} {i : ℕ}
    (hi : i < cs.length) (hne : f i ≠ g i) (hsame : ∀ j, j ≠ i → f j = g j) :
    weighted cs f ≠ weighted cs g := by
  induction cs generalizing f g i with
  | nil => exact absurd hi (Nat.not_lt_zero i)
  | cons c cs ih =>
    obtain ⟨hc, hcs⟩ := List.forall_mem_cons.mp hcs
    rw [weighted, weighted]
    cases i with
    | zero =>
      rw [weighted_congr fun j _ ↦ hsame (j + 1) (Nat.succ_ne_zero j)]
      intro heq
      exact hne (mul_left_cancel₀ hc (add_right_cancel heq))
    | succ i =>
      rw [hsame 0 (Nat.succ_ne_zero i).symm]
      intro heq
      refine ih hcs (Nat.lt_of_succ_lt_succ hi) hne (fun j hj ↦ hsame (j + 1) ?_)
        (add_left_cancel heq)
      omega

/-! ### How the common rows are paired -/

/-- The files of the first vertical and of the others, when `main` ends with `s'`. -/
structure Paired (cfg : Config) (f : VerticalFiles) (rest : List VerticalFiles) (s' : State) :
    Prop where
  nodup : s'.intersectionIds.Nodup
  count : s'.intersectionIds.length = cfg.numTotalCommonRows
  first : (Vertical.common f.rows).map Row.id = s'.intersectionIds
  later : ∀ g ∈ rest, (Vertical.common g.rows).map Row.id = s'.intersectionIds.reverse
  once : ∀ g ∈ f :: rest, ∀ id ∈ s'.intersectionIds, (g.rows.map Row.id).count id = 1
  others : (f :: rest).Pairwise fun g h ↦
    ∀ id ∈ g.rows.map Row.id, id ∈ h.rows.map Row.id → id ∈ s'.intersectionIds

/-- `main` runs the first vertical, and then the others when there are any. -/
structure MainRun (cfg : Config) (draws : ℕ → ℕ → RowDraw) (info : VerticalInfo)
    (infos : List VerticalInfo) (f : VerticalFiles) (rest : List VerticalFiles) (s' : State) :
    Prop where
  exists_first : ∃ isLast s₁, info.Run isLast 0 (draws 0) cfg.start f s₁ ∧
    (rest = [] ∧ s₁ = s' ∨ isLast = false ∧ rest ≠ [] ∧
      generateVerticals draws infos 1 info.columnInfo.length s₁ = some (rest, s'))

theorem exists_mainRun {cfg : Config} (hpromised : Promised draws cfg.verticals 0)
    (h : cfg.main draws = some (files, s')) :
    ∃ info infos f rest, cfg.verticals = info :: infos ∧ files = f :: rest ∧
      cfg.MainRun draws info infos f rest s' := by
  refine verticals_induction (P := fun verticals k start s files s' ↦
      k = 0 → start = 0 → s = cfg.start → ∃ info infos f rest, verticals = info :: infos ∧
        files = f :: rest ∧ cfg.MainRun draws info infos f rest s') ?_ ?_ hpromised h rfl rfl rfl
  · rintro info _ _ _ f s' hrun rfl rfl rfl
    exact ⟨info, [], f, [], rfl, rfl, ⟨_, _, hrun, .inl ⟨rfl, rfl⟩⟩⟩
  · rintro info infos _ _ _ f s₁ rest s' hrun hrest hne - rfl rfl rfl
    rw [Nat.zero_add, Nat.zero_add] at hrest
    exact ⟨info, infos, f, rest, rfl, rfl, ⟨_, _, hrun, .inr ⟨rfl, hne, hrest⟩⟩⟩

theorem MainRun.paired {cfg : Config} {info : VerticalInfo} {f : VerticalFiles}
    {rest : List VerticalFiles} (hpromised : Promised draws (info :: infos) 0)
    (h : cfg.MainRun draws info infos f rest s') : cfg.Paired f rest s' := by
  obtain ⟨isLast, s₁, hrun, hrest⟩ := h.exists_first
  have hnoted := noted_of_first hrun rfl
  obtain ⟨hids, hused, hnodup⟩ := hrun.ids_first rfl
  have hlater : Later s₁ rest s' := by
    obtain ⟨rfl, rfl⟩ | ⟨-, -, hrest⟩ := hrest
    · exact ⟨rfl, by simp, by simp, by simp, List.Pairwise.nil⟩
    · exact later_of_generateVerticals hpromised.tail hnoted hrest
  refine ⟨?_, ?_, ?_, ?_, ?_, ?_⟩
  · exact hlater.ids ▸ hnoted.nodup
  · rw [hlater.ids, hnoted.length, hrun.joined_size.1]
    rfl
  · rw [hlater.ids, hids]
  · rw [hlater.ids]
    exact hlater.common
  · rw [hlater.ids]
    refine List.forall_mem_cons.mpr ⟨fun id hid ↦ List.count_eq_one_of_mem hnodup ?_, hlater.once⟩
    rw [hids] at hid
    exact (List.filter_sublist.map _).subset hid
  · rw [hlater.ids]
    refine List.pairwise_cons.mpr ⟨fun g hg id hf hid ↦ hlater.old g hg id hid ?_, hlater.others⟩
    rw [hused]
    exact Finset.mem_union_right _ (List.mem_toFinset.mpr hf)

section Paired

variable {cfg : Config} {f g : VerticalFiles} {rest : List VerticalFiles} {r : ℕ} {row : Row}

/-- A row with a common identifier is a common row. -/
theorem Paired.exists_common (h : cfg.Paired f rest s') (hg : g ∈ f :: rest) (hrow : row ∈ g.rows)
    (hid : row.id ∈ s'.intersectionIds) : ∃ r : ℕ, (Vertical.common g.rows)[r]? = some row := by
  have hmem : row.id ∈ (Vertical.common g.rows).map Row.id := by
    rw [List.mem_cons] at hg
    obtain rfl | hg := hg
    · rwa [h.first]
    · rwa [h.later g hg, List.mem_reverse]
  obtain ⟨row', hrow', hid'⟩ := List.mem_map.mp hmem
  have heq := eq_of_count_eq_one hrow (List.mem_filter.mp hrow').1 hid' (h.once g hg row.id hid)
  exact List.getElem?_of_mem (heq ▸ hrow')

/-- The line of the first vertical for the identifier of a later one's `r`-th common row. -/
theorem Paired.lineOf_first (h : cfg.Paired f rest s') (hg : g ∈ rest)
    (hrow : (Vertical.common g.rows)[r]? = some row) :
    lineOf row.id f = lineAt (cfg.numTotalCommonRows - 1 - r) f := by
  have hget : s'.intersectionIds.reverse[r]? = some row.id := by
    rw [← h.later g hg, List.getElem?_map, hrow, Option.map_some]
  have hr : r < s'.intersectionIds.length := by
    have hlt := (List.getElem?_eq_some_iff.mp hget).1
    rwa [List.length_reverse] at hlt
  rw [List.getElem?_reverse hr, h.count, ← h.first, List.getElem?_map] at hget
  obtain ⟨row', hrow', hid⟩ := Option.map_eq_some_iff.mp hget
  rw [← hid]
  refine lineOf_eq_lineAt hrow' (h.once f List.mem_cons_self row'.id ?_)
  rw [← h.first]
  exact List.mem_map_of_mem (List.mem_of_getElem? hrow')

/-- The line of another later vertical has the same number. -/
theorem Paired.lineOf_later {g' : VerticalFiles} (h : cfg.Paired f rest s') (hg : g ∈ rest)
    (hg' : g' ∈ rest) (hrow : (Vertical.common g.rows)[r]? = some row) :
    lineOf row.id g' = lineAt r g' := by
  have hget : ((Vertical.common g'.rows).map Row.id)[r]? = some row.id := by
    rw [h.later g' hg', ← h.later g hg, List.getElem?_map, hrow, Option.map_some]
  rw [List.getElem?_map] at hget
  obtain ⟨row', hrow', hid⟩ := Option.map_eq_some_iff.mp hget
  rw [← hid]
  refine lineOf_eq_lineAt hrow' (h.once g' (List.mem_cons_of_mem f hg') row'.id ?_)
  rw [← List.mem_reverse, ← h.later g' hg']
  exact List.mem_map_of_mem (List.mem_of_getElem? hrow')

/-- With other verticals, the line of the first one is that of the mirrored number. -/
theorem Paired.features_lineOf (h : cfg.Paired f rest s') (hg : g ∈ rest)
    (hrow : (Vertical.common g.rows)[r]? = some row) : features (lineOf row.id) (f :: rest) =
      lineAt (cfg.numTotalCommonRows - 1 - r) f ++ features (lineAt r) rest := by
  rw [features_cons (List.ne_nil_of_mem hg), h.lineOf_first hg hrow,
    features_congr fun g' hg' ↦ h.lineOf_later hg hg' hrow]

end Paired

section Correct

variable {cfg : Config} {info : VerticalInfo} {f : VerticalFiles} {rest : List VerticalFiles}

/-- The joined table at the end. -/
theorem cell_of_main (hpromised : Promised draws cfg.verticals 0)
    (hmain : cfg.main draws = some (files, s')) {r : ℕ} (hr : r < cfg.numTotalCommonRows) :
    s'.joined.cell r = fun i ↦ (features (lineAt r) files).getD i 0 := by
  funext i
  have hcells := (cells_of_generateVerticals hpromised hmain hr).2 i
  rw [Nat.zero_add] at hcells
  exact hcells

/-- The sums of the coefficients times the values are those of the same common row. -/
def Matched (cfg : Config) (f : VerticalFiles) (rest : List VerticalFiles) : Prop :=
  ∀ r < cfg.numTotalCommonRows,
    weighted coeffs (fun i ↦ (lineAt r f ++ features (lineAt r) rest).getD i 0) =
      weighted coeffs fun i ↦
        (lineAt (cfg.numTotalCommonRows - 1 - r) f ++ features (lineAt r) rest).getD i 0

/-- What the files still need to be right. -/
theorem correct_iff_matched (hpromised : Promised draws (info :: infos) 0)
    (hverticals : cfg.verticals = info :: infos)
    (hmain : cfg.main draws = some (f :: rest, s'))
    (hrun : cfg.MainRun draws info infos f rest s') :
    cfg.Correct (f :: rest) s'.intersectionIds ↔
      (rest ≠ [] → cfg.HasDependent → cfg.Matched f rest) := by
  rw [← hverticals] at hpromised
  have hpaired := MainRun.paired (hverticals ▸ hpromised) hrun
  have hdependent := dependent_of_generateVerticals hpromised hmain
  have hvalues := values_ne_nil_iff hpromised hmain
  constructor
  · intro hcorrect hne hdep r hr
    obtain ⟨g, hg⟩ : ∃ g, rest.getLast? = some g := ⟨_, List.getLast?_eq_some_getLast hne⟩
    have hmem : g ∈ rest := List.mem_of_getLast? hg
    have hlast : g ∈ (f :: rest).getLast? := by
      rw [List.getLast?_cons_of_ne_nil hne]
      exact hg
    have hlength : r < (Vertical.common g.rows).length := by
      have heq := congrArg List.length (hpaired.later g hmem)
      rw [List.length_map, List.length_reverse, hpaired.count] at heq
      omega
    obtain ⟨row, hrow⟩ : ∃ row, (Vertical.common g.rows)[r]? = some row :=
      ⟨_, List.getElem?_eq_getElem hlength⟩
    have hid : row.id ∈ s'.intersectionIds := by
      rw [← List.mem_reverse, ← hpaired.later g hmem]
      exact List.mem_map_of_mem (List.mem_of_getElem? hrow)
    have hy := List.getLast?_eq_some_getLast ((hvalues g hlast r row hrow).mpr hdep)
    have heq := (hdependent g hlast r row hrow _ hy).symm.trans
      (hcorrect.dependent g hlast row (mem_rows_of_common hrow) hid _ hy)
    rw [cell_of_main hpromised hmain hr, hpaired.features_lineOf hmem hrow,
      features_cons hne] at heq
    exact add_left_cancel heq
  · intro hmatched
    refine ⟨parties_of_generateVerticals hpromised hmain, hpaired.nodup, hpaired.count,
      hpaired.once, hpaired.others, fun g hg row hrow hid y hy ↦ ?_⟩
    have hmem : g ∈ f :: rest := List.mem_of_getLast? hg
    obtain ⟨r, hr⟩ := hpaired.exists_common hmem hrow hid
    rw [hdependent g hg r row hr y hy]
    congr 1
    by_cases hne : rest = []
    · have hfirst : g = f := by
        rw [hne] at hmem
        exact List.mem_singleton.mp hmem
      rw [hfirst] at hr
      have hlt : r < cfg.numTotalCommonRows := by
        have hlength := (List.getElem?_eq_some_iff.mp hr).1
        rwa [← hpaired.count, ← hpaired.first, List.length_map]
      have hline := lineOf_eq_lineAt hr (hpaired.once f List.mem_cons_self row.id hid)
      rw [cell_of_main hpromised hmain hlt, hne, features, features, hline]
    · have hlater : g ∈ rest := by
        rw [List.getLast?_cons_of_ne_nil hne] at hg
        exact List.mem_of_getLast? hg
      have hlt : r < cfg.numTotalCommonRows := by
        have hlength := (List.getElem?_eq_some_iff.mp hr).1
        rwa [← hpaired.count, ← List.length_reverse, ← hpaired.later g hlater, List.length_map]
      have hvalue : row.values ≠ [] := by
        rintro hnil
        rw [hnil] at hy
        cases hy
      rw [cell_of_main hpromised hmain hlt, features_cons hne, hpaired.features_lineOf hlater hr]
      exact hmatched hne ((hvalues g hg r row hr).mp hvalue) r hlt

end Correct

/-- What the files of every run are like. The dependent value of the common identifier `ids[j]` is
computed from the values of `ids[n - 1 - j]` in the first vertical, and from its own in the others. -/
structure Mirrored (cfg : Config) (files : List VerticalFiles) (ids : List ℕ) : Prop where
  parties : files.map (·.map (·.rows.length)) = cfg.verticals.map (·.numRowsPerParty)
  nodup : ids.Nodup
  count : ids.length = cfg.numTotalCommonRows
  once : ∀ f ∈ files, ∀ id ∈ ids, (f.rows.map Row.id).count id = 1
  others : files.Pairwise fun f g ↦ ∀ id ∈ f.rows.map Row.id, id ∈ g.rows.map Row.id → id ∈ ids
  dependent : ∀ f rest, files = f :: rest → ∀ g ∈ rest.getLast?, ∀ row ∈ g.rows,
    ∀ (j mirror : ℕ), ids[j]? = some row.id →
      ids[cfg.numTotalCommonRows - 1 - j]? = some mirror →
    ∀ y ∈ row.values.getLast?, y = row.draw.values (row.values.length - 1) +
      weighted coeffs fun i ↦ (lineOf mirror f ++ features (lineOf row.id) rest).getD i 0

/-- The files of every run that ends are mirrored, whatever is drawn. -/
theorem mirrored_of_main {cfg : Config} (hpromised : Promised draws cfg.verticals 0)
    (hmain : cfg.main draws = some (files, s')) : cfg.Mirrored files s'.intersectionIds := by
  obtain ⟨info, infos, f, rest, hverticals, rfl, hrun⟩ := exists_mainRun hpromised hmain
  have hpaired := MainRun.paired (hverticals ▸ hpromised) hrun
  refine ⟨parties_of_generateVerticals hpromised hmain, hpaired.nodup, hpaired.count, hpaired.once,
    hpaired.others, ?_⟩
  intro f' rest' hcons g hg row hrow j mirror hj hmirror y hy
  obtain ⟨hf, hrest⟩ := List.cons_eq_cons.mp hcons
  rw [← hrest] at hg
  rw [← hf, ← hrest]
  have hlater : g ∈ rest := List.mem_of_getLast? hg
  have hne : rest ≠ [] := List.ne_nil_of_mem hlater
  have hlast : g ∈ (f :: rest).getLast? := by
    rw [List.getLast?_cons_of_ne_nil hne]
    exact hg
  obtain ⟨r, hr⟩ := hpaired.exists_common (List.mem_cons_of_mem f hlater) hrow
    (List.mem_of_getElem? hj)
  have hid : s'.intersectionIds.reverse[r]? = some row.id := by
    rw [← hpaired.later g hlater, List.getElem?_map, hr, Option.map_some]
  have hlt : r < cfg.numTotalCommonRows := by
    have hlength := (List.getElem?_eq_some_iff.mp hid).1
    rwa [List.length_reverse, hpaired.count] at hlength
  -- the common row `r` has the identifier `j`, counted from the other end
  have hindex : j = cfg.numTotalCommonRows - 1 - r := by
    rw [List.getElem?_reverse (hpaired.count ▸ hlt), hpaired.count] at hid
    obtain ⟨hj', hget⟩ := List.getElem?_eq_some_iff.mp hj
    obtain ⟨hr', hget'⟩ := List.getElem?_eq_some_iff.mp hid
    exact (List.Nodup.getElem_inj_iff hpaired.nodup).mp (hget.trans hget'.symm)
  have hback : cfg.numTotalCommonRows - 1 - j = r := by omega
  rw [hback, ← hpaired.first, List.getElem?_map] at hmirror
  obtain ⟨row', hrow', hid'⟩ := Option.map_eq_some_iff.mp hmirror
  have hline : lineOf mirror f = lineAt r f := by
    rw [← hid']
    refine lineOf_eq_lineAt hrow' (hpaired.once f List.mem_cons_self row'.id ?_)
    rw [← hpaired.first]
    exact List.mem_map_of_mem (List.mem_of_getElem? hrow')
  rw [dependent_of_generateVerticals hpromised hmain g hlast r row hr y hy,
    cell_of_main hpromised hmain hlt, features_cons hne, hline,
    features_congr fun g' hg' ↦ hpaired.lineOf_later hlater hg' hr]

/-- Draws of which every row may be common. -/
def steadyDraws (_k j : ℕ) : RowDraw := ⟨0, 7, fun c ↦ j + c⟩

/-- One party that has both rows, and one that has the dependent variable. -/
def pairConfig : Config :=
  ⟨3, 2, [⟨2, "id", [2], [⟨⟨some .normal, 0, 1, 0⟩, "age"⟩, ⟨⟨some .normal, 0, 1, 0⟩, "dose"⟩]⟩,
    ⟨3, "id", [1, 2], [⟨⟨some .normal, 0, 1, 0⟩, "weight"⟩, ⟨⟨some .normal, 0, 1, 0⟩, "risk"⟩]⟩]⟩

theorem mirrored_pairConfig : ∃ files s', pairConfig.main steadyDraws = some (files, s') ∧
    pairConfig.Mirrored files s'.intersectionIds := by
  have hsome : (pairConfig.main steadyDraws).isSome = true := by decide +kernel
  obtain ⟨⟨files, s'⟩, hmain⟩ := Option.isSome_iff_exists.mp hsome
  have hpromised : Promised steadyDraws pairConfig.verticals 0 := by
    refine ⟨?_, fun j info _ i _ ↦ ⟨le_rfl, one_pos⟩⟩
    simp [pairConfig]
  exact ⟨files, s', hmain, mirrored_of_main hpromised hmain⟩

end Config

end Safrn.Util
