import Mathlib.Data.Finset.Card
import Mathlib.Data.Finset.Range
import Mathlib.Data.Int.ModEq
import Mathlib.Data.Rat.Lemmas
import Mathlib.Tactic.Positivity

/-!
# Rows of sample data

Models `GenerateDataForParty` of `Util/generate_sample_data_main.cpp:341-442`. What the random
number generators return for a row is drawn in advance. A `double` is an exact rational. A call of
`log_fatal`, and an index outside the joined table, end the run without files.
-/

namespace Safrn.Util

/-- `DistributionType`, but for `UNKNOWN`. -/
inductive DistributionType
  | normal
  | uniform
  | discreteUniform
  | poisson

structure SafrnDistribution where
  type : Option DistributionType
  mean : ℚ
  var : ℚ
  max : ℚ

structure ColumnInfo where
  distribution : SafrnDistribution
  columnName : String

/-- `maxIdSize`. -/
def maxIdSize : ℕ := 2 <<< 20

/-- `coeffs`. -/
def coeffs : List ℚ := [1 / 10, 5 / 10, 9 / 10]

/-- What is drawn for a row: the number that decides about the intersection, the identifier that the
search starts with, and a value for each column. -/
structure RowDraw where
  unif : ℚ
  id : ℕ
  values : ℕ → ℚ

/-- A line of a file, with what was drawn for it. -/
structure Row where
  draw : RowDraw
  isRowInIntersection : Bool
  id : ℕ
  values : List ℚ

/-- The sum of the coefficients times the values. -/
def weighted : List ℚ → (ℕ → ℚ) → ℚ
  | [], _ => 0
  | c :: cs, f => c * f 0 + weighted cs fun i ↦ f (i + 1)

/-- `joined_table`. -/
structure JoinedTable where
  rows : ℕ
  cols : ℕ
  cell : ℕ → ℕ → ℚ

namespace JoinedTable

def write (T : JoinedTable) (r c : ℕ) (x : ℚ) : Option JoinedTable :=
  if r < T.rows ∧ c < T.cols then
    some { T with cell := Function.update T.cell r (Function.update (T.cell r) c x) }
  else none

def read (T : JoinedTable) (r c : ℕ) : Option ℚ :=
  if r < T.rows ∧ c < T.cols then some (T.cell r c) else none

/-- The loop over the coefficients, from the coefficient of column `i`. -/
def addTerms (T : JoinedTable) (r : ℕ) : List ℚ → ℕ → ℚ → Option ℚ
  | [], _, y => some y
  | c :: cs, i, y => do
    let x ← T.read r i
    addTerms T r cs (i + 1) (y + c * x)

/-- The table with the values of columns `start`, …, `start + n - 1` of a row. -/
def fill (T : JoinedTable) (r start n : ℕ) (values : ℕ → ℚ) : JoinedTable :=
  { T with cell := fun r' c ↦
      if r' = r ∧ start ≤ c ∧ c < start + n then values (c - start) else T.cell r' c }

end JoinedTable

/-- The arguments that are the same for all rows of a vertical. -/
structure Vertical where
  isFirst : Bool
  isLast : Bool
  start : ℕ
  columns : List ColumnInfo

/-- The variables that a row changes. -/
structure State where
  remainingTotal : ℕ
  remainingInVert : ℕ
  usedIds : Finset ℕ
  intersectionIds : List ℕ
  joined : JoinedTable

/-- The search for an unused identifier; the first argument is what is left of the failures. -/
def probe (used : Finset ℕ) : ℕ → ℕ → Option ℕ
  | 0, _ => none
  | failures + 1, id =>
    if id ∈ used then probe used failures (if id < maxIdSize then id + 1 else 0) else some id

namespace Vertical

variable (V : Vertical)

/-- The columns of a vertical that are independent variables. -/
def features (columns : List ColumnInfo) : ℕ :=
  if V.isLast then columns.length - 1 else columns.length

/-- The loop over the columns from column `i` on: the values of the line, and the table. -/
def generateColumns (isCommon : Bool) (r : ℕ) (values : ℕ → ℚ) :
    List ColumnInfo → ℕ → JoinedTable → Option (List ℚ × JoinedTable)
  | [], _, T => some ([], T)
  | col :: cols, i, T => do
    -- "Distribution type not set."
    let _ ← col.distribution.type
    if ¬cols = [] ∨ V.isLast = false ∨ isCommon = false then
      let T ← if isCommon then T.write r (V.start + i) (values i) else some T
      let (line, T) ← generateColumns isCommon r values cols (i + 1) T
      return (values i :: line, T)
    else
      let y ← T.addTerms r coeffs 0 (values i)
      return ([y], T)

/-- The identifier of the row. -/
def generateId (isCommon : Bool) (newId : ℕ) (s : State) : Option (ℕ × State) :=
  if V.isFirst = false ∧ isCommon = true then
    s.intersectionIds[s.remainingTotal - 1]?.map (·, s)
  else do
    let id ← probe s.usedIds maxIdSize newId
    return (id, { s with
      usedIds := insert id s.usedIds
      intersectionIds := if isCommon then s.intersectionIds ++ [id] else s.intersectionIds })

/-- `is_row_in_intersection`. -/
def isCommon (d : RowDraw) (s : State) : Bool :=
  decide (d.unif < (s.remainingTotal : ℚ) / s.remainingInVert)

/-- A round of the loop over the rows of a party. -/
def generateRow (d : RowDraw) (s : State) : Option (Row × State) := do
  let common := isCommon d s
  let (id, s) ← V.generateId common d.id s
  let (line, joined) ← V.generateColumns common (s.joined.rows - s.remainingTotal) d.values
    V.columns 0 s.joined
  return (⟨d, common, id, line⟩, { s with
    joined
    remainingInVert := s.remainingInVert - 1
    remainingTotal := if common then s.remainingTotal - 1 else s.remainingTotal })

/-- `GenerateDataForParty`: a row for each draw. -/
def generateDataForParty : List RowDraw → State → Option (List Row × State)
  | [], s => some ([], s)
  | d :: ds, s => do
    let (row, s) ← V.generateRow d s
    let (rows, s) ← generateDataForParty ds s
    return (row :: rows, s)

end Vertical

/-! ### The columns of a row -/

namespace JoinedTable

variable {T T' : JoinedTable} {r c : ℕ}

theorem write_eq_some {x : ℚ} : T.write r c x = some T' ↔
    (r < T.rows ∧ c < T.cols) ∧ T' = T.fill r c 1 fun _ ↦ x := by
  have hcell : Function.update T.cell r (Function.update (T.cell r) c x) =
      (T.fill r c 1 fun _ ↦ x).cell := by
    funext r' c'
    by_cases hr : r' = r
    · subst hr
      by_cases hc : c' = c
      · subst hc
        simp [fill]
      · have hne : ¬(True ∧ c ≤ c' ∧ c' < c + 1) := by omega
        simp only [fill]
        rw [if_neg hne, Function.update_self, Function.update_of_ne hc]
    · simp [fill, hr]
  rw [write, hcell]
  split
  case isTrue hin => simp only [Option.some.injEq, hin, and_self, true_and, fill, eq_comm]
  case isFalse hout => simp [hout]

/-- Columns are filled one after the other. -/
theorem fill_fill {n : ℕ} {values : ℕ → ℚ} :
    (T.fill r c 1 fun _ ↦ values 0).fill r (c + 1) n (fun i ↦ values (i + 1)) =
      T.fill r c (n + 1) values := by
  simp only [fill, JoinedTable.mk.injEq, true_and]
  funext r' c'
  by_cases hr : r' = r
  · by_cases hc : c' = c
    · subst hc
      have hne : ¬(c' + 1 ≤ c' ∧ c' < c' + 1 + n) := by omega
      simp [hr]
    · by_cases hlt : c < c'
      · have hsub : c' - (c + 1) + 1 = c' - c := by omega
        have hne : ¬(c ≤ c' ∧ c' < c + 1) := by omega
        by_cases hin : c' < c + (n + 1)
        · rw [if_pos ⟨hr, by omega, by omega⟩, if_pos ⟨hr, by omega, hin⟩, hsub]
        · rw [if_neg (by omega), if_neg (by omega), if_neg (by omega)]
      · rw [if_neg (by omega), if_neg (by omega), if_neg (by omega)]
  · simp [hr]

theorem fill_zero {values : ℕ → ℚ} : T.fill r c 0 values = T := by
  simp only [fill]
  congr 1
  funext r' c'
  rw [if_neg (by omega)]

theorem addTerms_eq_some {cs : List ℚ} {i : ℕ} {y y' : ℚ} :
    T.addTerms r cs i y = some y' ↔
      (cs ≠ [] → r < T.rows ∧ i + cs.length ≤ T.cols) ∧
        y' = y + weighted cs fun k ↦ T.cell r (i + k) := by
  induction cs generalizing i y with
  | nil => simp [addTerms, weighted, eq_comm]
  | cons c cs ih =>
    have hshift : (fun k ↦ T.cell r (i + 1 + k)) = fun k ↦ T.cell r (i + (k + 1)) := by
      funext k
      rw [Nat.add_right_comm, Nat.add_assoc]
    simp only [addTerms, read, weighted, List.length_cons, ne_eq, reduceCtorEq, not_false_eq_true,
      forall_const, Nat.add_zero]
    split
    case isTrue hin =>
      simp only [Option.bind_eq_bind, Option.bind_some, ih, hshift, add_assoc y]
      refine and_congr_left' ⟨fun h ↦ ⟨hin.1, ?_⟩, fun h _ ↦ ⟨hin.1, by omega⟩⟩
      cases cs with
      | nil => exact hin.2
      | cons => exact Nat.add_right_comm i 1 _ ▸ (h (List.cons_ne_nil _ _)).2
    case isFalse hout =>
      simp only [Option.bind_eq_bind, Option.bind_none, reduceCtorEq, false_iff, not_and]
      intro h
      omega

end JoinedTable

/-- The distributions of the columns are set. -/
def Typed (columns : List ColumnInfo) : Prop := ∀ col ∈ columns, col.distribution.type.isSome

theorem typed_nil : Typed [] := fun _ h ↦ by cases h

theorem typed_cons {col : ColumnInfo} {cols : List ColumnInfo} :
    Typed (col :: cols) ↔ col.distribution.type.isSome ∧ Typed cols := List.forall_mem_cons

private theorem map_range_succ (values : ℕ → ℚ) (i n : ℕ) :
    (List.range (n + 1)).map (fun c ↦ values (i + c)) =
      values i :: (List.range n).map fun c ↦ values (i + 1 + c) := by
  rw [List.range_succ_eq_map, List.map_cons, List.map_map, Nat.add_zero]
  congr 1
  refine List.map_congr_left fun c _ ↦ ?_
  rw [Function.comp_apply, Nat.succ_eq_add_one, Nat.add_right_comm, Nat.add_assoc]

namespace Vertical

variable {V : Vertical} {r i : ℕ} {values : ℕ → ℚ} {cols : List ColumnInfo}
  {T T' : JoinedTable} {line : List ℚ}

theorem features_cons {col : ColumnInfo} (h : ¬cols = [] ∨ V.isLast = false) :
    V.features (col :: cols) = V.features cols + 1 := by
  rw [features, features, List.length_cons]
  split
  case isTrue hlast =>
    have hne : cols ≠ [] := h.resolve_right (by simp [hlast])
    have hpos := List.length_pos_iff.mpr hne
    omega
  case isFalse => rfl

theorem hasDependent_cons {col : ColumnInfo} (h : ¬cols = [] ∨ V.isLast = false) :
    (V.isLast = true ∧ col :: cols ≠ []) ↔ (V.isLast = true ∧ cols ≠ []) :=
  and_congr_right fun hlast ↦
    iff_of_true (List.cons_ne_nil _ _) (h.resolve_right (by simp [hlast]))

/-- A row that is not common is written as drawn, and leaves the table. -/
theorem generateColumns_apart : V.generateColumns false r values cols i T = some (line, T') ↔
    Typed cols ∧ line = (List.range cols.length).map (fun c ↦ values (i + c)) ∧ T' = T := by
  induction cols generalizing i line T' with
  | nil =>
    rw [generateColumns]
    constructor
    · intro h
      cases h
      exact ⟨typed_nil, rfl, rfl⟩
    · rintro ⟨-, rfl, rfl⟩
      rfl
  | cons col cols ih =>
    rw [List.length_cons, map_range_succ, typed_cons]
    cases hcol : col.distribution.type with
    | none => simp [generateColumns, hcol]
    | some =>
      simp only [generateColumns, hcol, or_true, if_true, Bool.false_eq_true, if_false,
        Option.bind_eq_bind, Option.bind_some, Option.bind_eq_some_iff, Prod.exists, ih,
        Option.pure_def, Option.some.injEq, Prod.mk.injEq, Option.isSome_some, true_and]
      constructor
      · rintro ⟨rest, U, ⟨htyped, rfl, rfl⟩, rfl, rfl⟩
        exact ⟨htyped, rfl, rfl⟩
      · rintro ⟨htyped, rfl, rfl⟩
        exact ⟨_, _, ⟨htyped, rfl, rfl⟩, rfl, rfl⟩

/-- A common row is written as drawn but for the dependent value, and its independent variables are
stored. -/
theorem generateColumns_common : V.generateColumns true r values cols i T = some (line, T') ↔
    Typed cols ∧
      (0 < V.features cols → r < T.rows ∧ V.start + i + V.features cols ≤ T.cols) ∧
      (V.isLast = true ∧ cols ≠ [] → r < T.rows ∧ coeffs.length ≤ T.cols) ∧
      T' = T.fill r (V.start + i) (V.features cols) (fun c ↦ values (i + c)) ∧
      line = (List.range (V.features cols)).map (fun c ↦ values (i + c)) ++
        if V.isLast = true ∧ cols ≠ [] then
          [values (i + V.features cols) + weighted coeffs (T'.cell r)] else [] := by
  induction cols generalizing i T T' line with
  | nil =>
    have hnone : V.features [] = 0 := by simp [features]
    rw [generateColumns, hnone, JoinedTable.fill_zero]
    constructor
    · intro h
      cases h
      exact ⟨typed_nil, fun h ↦ absurd h (Nat.lt_irrefl 0), fun h ↦ absurd rfl h.2, rfl, by simp⟩
    · rintro ⟨-, -, -, rfl, rfl⟩
      simp
  | cons col cols ih =>
    rw [typed_cons]
    cases hcol : col.distribution.type with
    | none => simp [generateColumns, hcol]
    | some =>
      by_cases hmore : ¬cols = [] ∨ V.isLast = false
      · rw [features_cons hmore, map_range_succ, if_congr (hasDependent_cons hmore) rfl rfl,
          hasDependent_cons hmore]
        have hsome : V.generateColumns true r values (col :: cols) i T = some (line, T') ↔
            ∃ U, T.write r (V.start + i) (values i) = some U ∧
              ∃ rest, V.generateColumns true r values cols (i + 1) U = some (rest, T') ∧
                line = values i :: rest := by
          have hif : ¬cols = [] ∨ V.isLast = false ∨ true = false := hmore.imp_right .inl
          simp only [generateColumns, hcol, if_pos hif, Option.bind_eq_bind, Option.bind_some,
            if_true, Option.bind_eq_some_iff, Prod.exists, Option.pure_def, Option.some.injEq,
            Prod.mk.injEq]
          constructor
          · rintro ⟨U, hU, rest, U', hrest, rfl, rfl⟩
            exact ⟨U, hU, rest, hrest, rfl⟩
          · rintro ⟨U, hU, rest, hrest, rfl⟩
            exact ⟨U, hU, rest, T', hrest, rfl, rfl⟩
        have hfill : (T.fill r (V.start + i) 1 fun _ ↦ values i).fill r (V.start + (i + 1))
            (V.features cols) (fun c ↦ values (i + 1 + c)) =
            T.fill r (V.start + i) (V.features cols + 1) fun c ↦ values (i + c) := by
          have hshift : (fun c ↦ values (i + 1 + c)) = fun c ↦ values (i + (c + 1)) := by
            funext c
            rw [Nat.add_right_comm, Nat.add_assoc]
          rw [hshift, ← Nat.add_assoc]
          exact @JoinedTable.fill_fill T r (V.start + i) (V.features cols) fun c ↦ values (i + c)
        have hindex : i + (V.features cols + 1) = i + 1 + V.features cols := by omega
        rw [hsome, hindex]
        constructor
        · rintro ⟨U, hU, rest, hrest, rfl⟩
          obtain ⟨⟨hr, hc⟩, rfl⟩ := JoinedTable.write_eq_some.mp hU
          obtain ⟨htyped, hfit, hdep, hT, hline⟩ := ih.mp hrest
          refine ⟨⟨rfl, htyped⟩, fun _ ↦ ⟨hr, ?_⟩, hdep, hT.trans hfill, ?_⟩
          · cases Nat.eq_zero_or_pos (V.features cols) with
            | inl hzero => omega
            | inr hpos =>
              have hle := (hfit hpos).2
              simp only [JoinedTable.fill] at hle
              omega
          · rw [hline, List.cons_append]
        · rintro ⟨⟨-, htyped⟩, hfit, hdep, rfl, rfl⟩
          obtain ⟨hr, hc⟩ := hfit (Nat.succ_pos _)
          refine ⟨_, JoinedTable.write_eq_some.mpr ⟨⟨hr, by omega⟩, rfl⟩, _,
            ih.mpr ⟨htyped, fun _ ↦ ⟨hr, ?_⟩, hdep, hfill.symm, rfl⟩, List.cons_append⟩
          simp only [JoinedTable.fill]
          omega
      · -- the dependent value
        obtain ⟨hnil, hlast⟩ := not_or.mp hmore
        obtain rfl := not_not.mp hnil
        have hlast : V.isLast = true := by simpa using hlast
        have hnone : V.features [col] = 0 := by simp [features, hlast]
        rw [hnone, JoinedTable.fill_zero, if_pos ⟨hlast, List.cons_ne_nil _ _⟩, List.range_zero,
          List.map_nil, List.nil_append, Nat.add_zero]
        have hgen : V.generateColumns true r values [col] i T =
            (T.addTerms r coeffs 0 (values i)).bind fun y ↦ some ([y], T) := by
          simp [generateColumns, hcol, hlast]
        simp only [hgen, Option.bind_eq_some_iff, JoinedTable.addTerms_eq_some, Option.some.injEq,
          Prod.mk.injEq, Nat.zero_add]
        constructor
        · rintro ⟨y, ⟨hdep, rfl⟩, rfl, rfl⟩
          exact ⟨⟨rfl, typed_nil⟩, fun h ↦ absurd h (Nat.lt_irrefl 0),
            fun _ ↦ hdep (List.cons_ne_nil _ _), rfl, rfl⟩
        · rintro ⟨-, -, hdep, rfl, rfl⟩
          exact ⟨_, ⟨fun _ ↦ hdep ⟨hlast, List.cons_ne_nil _ _⟩, rfl⟩, rfl, rfl⟩

/-! ### One row -/

/-- The table has room for what a common row reads and writes. -/
structure Wide (V : Vertical) (T : JoinedTable) : Prop where
  features : 0 < V.features V.columns → V.start + V.features V.columns ≤ T.cols
  dependent : V.isLast = true ∧ V.columns ≠ [] → coeffs.length ≤ T.cols

/-- The values of a common row that is row `r` of the table. -/
def commonLine (V : Vertical) (d : RowDraw) (cell : ℕ → ℚ) : List ℚ :=
  (List.range (V.features V.columns)).map d.values ++
    if V.isLast = true ∧ V.columns ≠ [] then
      [d.values (V.features V.columns) + weighted coeffs cell] else []

/-- Everything that a round does. -/
structure Step (V : Vertical) (d : RowDraw) (s : State) (row : Row) (s' : State) : Prop where
  draw : row.draw = d
  common : row.isRowInIntersection = isCommon d s
  inVert : s'.remainingInVert = s.remainingInVert - 1
  total : s'.remainingTotal = if isCommon d s then s.remainingTotal - 1 else s.remainingTotal
  rows : s'.joined.rows = s.joined.rows
  cols : s'.joined.cols = s.joined.cols
  typed : Typed V.columns
  shared : V.isFirst = false → isCommon d s = true →
    s.intersectionIds[s.remainingTotal - 1]? = some row.id ∧ s'.usedIds = s.usedIds ∧
      s'.intersectionIds = s.intersectionIds
  fresh : V.isFirst = true ∨ isCommon d s = false →
    probe s.usedIds maxIdSize d.id = some row.id ∧ s'.usedIds = insert row.id s.usedIds ∧
      s'.intersectionIds =
        if isCommon d s then s.intersectionIds ++ [row.id] else s.intersectionIds
  apart : isCommon d s = false → s'.joined = s.joined
  stored : isCommon d s = true → V.Wide s.joined ∧
    s'.joined = s.joined.fill (s.joined.rows - s.remainingTotal) V.start (V.features V.columns)
      d.values ∧
    row.values = V.commonLine d (s'.joined.cell (s.joined.rows - s.remainingTotal))

variable {d : RowDraw} {s s' : State} {row : Row}

/-- The identifiers have no part in the counts and the table. -/
theorem generateId_keeps {common : Bool} {newId id : ℕ}
    (h : V.generateId common newId s = some (id, s')) :
    s'.joined = s.joined ∧ s'.remainingTotal = s.remainingTotal ∧
      s'.remainingInVert = s.remainingInVert := by
  rw [generateId] at h
  split at h
  · obtain ⟨_, -, h⟩ := Option.map_eq_some_iff.mp h
    cases h
    exact ⟨rfl, rfl, rfl⟩
  · obtain ⟨_, -, h⟩ := Option.bind_eq_some_iff.mp h
    cases h
    exact ⟨rfl, rfl, rfl⟩

theorem generateId_shared {newId id : ℕ} (hfirst : V.isFirst = false)
    (h : V.generateId true newId s = some (id, s')) :
    s.intersectionIds[s.remainingTotal - 1]? = some id ∧ s' = s := by
  rw [generateId, if_pos ⟨hfirst, rfl⟩] at h
  obtain ⟨_, hid, h⟩ := Option.map_eq_some_iff.mp h
  cases h
  exact ⟨hid, rfl⟩

theorem generateId_fresh {common : Bool} {newId id : ℕ}
    (hfresh : V.isFirst = true ∨ common = false)
    (h : V.generateId common newId s = some (id, s')) :
    probe s.usedIds maxIdSize newId = some id ∧ s'.usedIds = insert id s.usedIds ∧
      s'.intersectionIds = if common then s.intersectionIds ++ [id] else s.intersectionIds := by
  have hif : ¬(V.isFirst = false ∧ common = true) := by
    rintro ⟨hfirst, rfl⟩
    rw [hfirst] at hfresh
    exact hfresh.elim Bool.false_ne_true Bool.false_ne_true.symm
  rw [generateId, if_neg hif] at h
  obtain ⟨_, hid, h⟩ := Option.bind_eq_some_iff.mp h
  cases h
  exact ⟨hid, rfl, rfl⟩

theorem step_of_generateRow (h : V.generateRow d s = some (row, s')) : V.Step d s row s' := by
  obtain ⟨⟨id, s₁⟩, hid, h⟩ := Option.bind_eq_some_iff.mp h
  obtain ⟨⟨line, T⟩, hcols, h⟩ := Option.bind_eq_some_iff.mp h
  cases h
  obtain ⟨hjoined, htotal, hinVert⟩ := generateId_keeps hid
  rw [hjoined, htotal] at hcols
  cases hcommon : isCommon d s with
  | false =>
    rw [hcommon] at hcols hid
    obtain ⟨htyped, -, rfl⟩ := generateColumns_apart.mp hcols
    exact {
      draw := rfl
      common := hcommon.symm
      inVert := congrArg (· - 1) hinVert
      total := by simpa [hcommon] using htotal
      rows := rfl
      cols := rfl
      typed := htyped
      shared := fun _ hc ↦ absurd hc (by simp [hcommon])
      fresh := fun _ ↦ by simpa [hcommon] using generateId_fresh (.inr rfl) hid
      apart := fun _ ↦ rfl
      stored := fun hc ↦ absurd hc (by simp [hcommon]) }
  | true =>
    rw [hcommon] at hcols hid
    obtain ⟨htyped, hfit, hdep, rfl, rfl⟩ := generateColumns_common.mp hcols
    simp only [Nat.add_zero] at hfit
    exact {
      draw := rfl
      common := hcommon.symm
      inVert := congrArg (· - 1) hinVert
      total := by simpa [hcommon] using congrArg (· - 1) htotal
      rows := rfl
      cols := rfl
      typed := htyped
      shared := fun hfirst _ ↦ by
        obtain ⟨hget, rfl⟩ := generateId_shared hfirst hid
        exact ⟨hget, rfl, rfl⟩
      fresh := fun hf ↦ by simpa [hcommon] using generateId_fresh (by simpa [hcommon] using hf) hid
      apart := fun hc ↦ absurd hc (by simp [hcommon])
      stored := fun _ ↦ ⟨⟨fun h ↦ (hfit h).2, fun h ↦ (hdep h).2⟩, by simp, by simp [commonLine]⟩ }

/-- A round goes through when its identifiers and its cells are there. -/
theorem exists_generateRow (htyped : Typed V.columns)
    (hstored : isCommon d s = true →
      V.Wide s.joined ∧ 0 < s.remainingTotal ∧ s.remainingTotal ≤ s.joined.rows)
    (hshared : V.isFirst = false → isCommon d s = true →
      s.remainingTotal - 1 < s.intersectionIds.length)
    (hfresh : V.isFirst = true ∨ isCommon d s = false →
      (probe s.usedIds maxIdSize d.id).isSome) :
    ∃ row s', V.generateRow d s = some (row, s') := by
  obtain ⟨id, s₁, hid⟩ : ∃ id s₁, V.generateId (isCommon d s) d.id s = some (id, s₁) := by
    rw [generateId]
    split
    case isTrue h =>
      rw [List.getElem?_eq_getElem (hshared h.1 h.2)]
      exact ⟨_, _, rfl⟩
    case isFalse h =>
      have hcase : V.isFirst = true ∨ isCommon d s = false := by
        by_contra hc
        exact h (by simpa using hc)
      obtain ⟨id, hid⟩ := Option.isSome_iff_exists.mp (hfresh hcase)
      rw [hid]
      exact ⟨_, _, rfl⟩
  obtain ⟨hjoined, htotal, -⟩ := generateId_keeps hid
  obtain ⟨line, T, hcols⟩ : ∃ line T, V.generateColumns (isCommon d s)
      (s₁.joined.rows - s₁.remainingTotal) d.values V.columns 0 s₁.joined = some (line, T) := by
    rw [hjoined, htotal]
    cases hcommon : isCommon d s with
    | false => exact ⟨_, _, generateColumns_apart.mpr ⟨htyped, rfl, rfl⟩⟩
    | true =>
      obtain ⟨hwide, hpos, hle⟩ := hstored hcommon
      have hrow : s.joined.rows - s.remainingTotal < s.joined.rows := by omega
      exact ⟨_, _, generateColumns_common.mpr
        ⟨htyped, fun h ↦ ⟨hrow, hwide.features h⟩, fun h ↦ ⟨hrow, hwide.dependent h⟩, rfl, rfl⟩⟩
  rw [generateRow, hid]
  simp only [Option.bind_eq_bind, Option.bind_some, hcols, Option.pure_def]
  exact ⟨_, _, rfl⟩

theorem remainingTotal_pos_of_isCommon (hunif : 0 ≤ d.unif) (h : isCommon d s = true) :
    0 < s.remainingTotal := by
  by_contra hzero
  have hlt := of_decide_eq_true h
  rw [Nat.eq_zero_of_not_pos hzero, Nat.cast_zero, zero_div] at hlt
  exact absurd hunif (not_le.mpr hlt)

theorem isCommon_of_all (hunif : d.unif < 1) (hpos : 0 < s.remainingInVert)
    (h : s.remainingTotal = s.remainingInVert) : isCommon d s = true := by
  apply decide_eq_true
  rw [h, div_self (by positivity)]
  exact hunif

/-! ### The rows of a vertical -/

/-- What a vertical starts with, and keeps: the counts are those of the draws to come, and at least
that many rows of the table are not used up. -/
structure Ready (ds : List RowDraw) (s : State) : Prop where
  inVert : s.remainingInVert = ds.length
  total : s.remainingTotal ≤ ds.length
  rows : s.remainingTotal ≤ s.joined.rows
  unif : ∀ d ∈ ds, 0 ≤ d.unif ∧ d.unif < 1

variable {ds : List RowDraw} {rows : List Row}

theorem Ready.tail (h : Ready (d :: ds) s) (hstep : V.Step d s row s') : Ready ds s' := by
  obtain ⟨hinVert, htotal, hrows, hunif⟩ := h
  rw [List.length_cons] at hinVert htotal
  have hd := hunif d List.mem_cons_self
  refine ⟨?_, ?_, ?_, fun x hx ↦ hunif x (List.mem_cons_of_mem d hx)⟩
  · rw [hstep.inVert, hinVert, Nat.add_sub_cancel]
  · rw [hstep.total]
    split
    · omega
    case isFalse hcommon =>
      by_contra hlt
      exact hcommon (isCommon_of_all hd.2 (by omega) (by omega))
  · rw [hstep.total, hstep.rows]
    split <;> omega

/-- Induction over the rows of a vertical. -/
theorem rows_induction {P : List RowDraw → State → List Row → State → Prop}
    (nil : ∀ s, s.remainingTotal = 0 → P [] s [] s)
    (cons : ∀ d ds s row s₁ rows s', Ready (d :: ds) s → V.Step d s row s₁ → Ready ds s₁ →
      V.generateDataForParty ds s₁ = some (rows, s') → P ds s₁ rows s' →
      P (d :: ds) s (row :: rows) s')
    (hready : Ready ds s) (h : V.generateDataForParty ds s = some (rows, s')) :
    P ds s rows s' := by
  induction ds generalizing s rows with
  | nil =>
    cases h
    exact nil _ (Nat.le_zero.mp hready.total)
  | cons d ds ih =>
    obtain ⟨⟨row, s₁⟩, hrow, h⟩ := Option.bind_eq_some_iff.mp h
    obtain ⟨⟨rest, s₂⟩, hrest, h⟩ := Option.bind_eq_some_iff.mp h
    cases h
    have hstep := step_of_generateRow hrow
    have htail := hready.tail hstep
    exact cons d ds s row s₁ rest s' hready hstep htail hrest (ih htail hrest)

/-- The rows in the intersection. -/
def common (rows : List Row) : List Row := rows.filter (·.isRowInIntersection)

/-- The rows that have an identifier of their own. -/
def own (V : Vertical) (rows : List Row) : List Row :=
  rows.filter fun row ↦ V.isFirst || !row.isRowInIntersection

theorem common_cons (hstep : V.Step d s row s') :
    common (row :: rows) = if isCommon d s then row :: common rows else common rows := by
  rw [common, List.filter_cons, hstep.common]
  rfl

theorem rows_draws (hready : Ready ds s) (h : V.generateDataForParty ds s = some (rows, s')) :
    rows.map Row.draw = ds := by
  refine rows_induction (P := fun ds _ rows _ ↦ rows.map Row.draw = ds) (fun _ _ ↦ rfl) ?_ hready h
  intro d ds s row s₁ rows s' _ hstep _ _ ih
  rw [List.map_cons, hstep.draw, ih]

theorem length_common (hready : Ready ds s) (h : V.generateDataForParty ds s = some (rows, s')) :
    (common rows).length = s.remainingTotal := by
  refine rows_induction (P := fun _ s rows _ ↦ (common rows).length = s.remainingTotal)
    (fun _ hzero ↦ hzero.symm) ?_ hready h
  intro d ds s row s₁ rows s' hready hstep _ _ ih
  have htotal := hstep.total
  rw [common_cons hstep]
  cases hcommon : isCommon d s with
  | false =>
    rw [hcommon] at htotal
    exact ih.trans htotal
  | true =>
    rw [hcommon] at htotal
    have hpos := remainingTotal_pos_of_isCommon (hready.unif d List.mem_cons_self).1 hcommon
    rw [if_pos rfl, List.length_cons, ih, htotal, if_pos rfl]
    omega

/-- The first vertical notes the identifiers of its common rows. -/
theorem ids_first (hfirst : V.isFirst = true) (hready : Ready ds s)
    (h : V.generateDataForParty ds s = some (rows, s')) :
    s'.intersectionIds = s.intersectionIds ++ (common rows).map Row.id := by
  refine rows_induction
    (P := fun _ s rows s' ↦ s'.intersectionIds = s.intersectionIds ++ (common rows).map Row.id)
    (fun _ _ ↦ (List.append_nil _).symm) ?_ hready h
  intro d ds s row s₁ rows s' _ hstep _ _ ih
  rw [ih, (hstep.fresh (.inl hfirst)).2.2, common_cons hstep]
  cases isCommon d s with
  | false => rfl
  | true => simp

/-- The other verticals use the noted identifiers from the last to the first. -/
theorem ids_shared (hfirst : V.isFirst = false) (hready : Ready ds s)
    (h : V.generateDataForParty ds s = some (rows, s')) :
    s'.intersectionIds = s.intersectionIds ∧
      (common rows).map Row.id = (s.intersectionIds.take s.remainingTotal).reverse := by
  refine rows_induction (P := fun _ s rows s' ↦ s'.intersectionIds = s.intersectionIds ∧
      (common rows).map Row.id = (s.intersectionIds.take s.remainingTotal).reverse)
    (fun _ hzero ↦ by simp [hzero, common]) ?_ hready h
  intro d ds s row s₁ rows s' hready hstep _ _ ih
  have htotal := hstep.total
  rw [common_cons hstep]
  cases hcommon : isCommon d s with
  | false =>
    have hids := (hstep.fresh (.inr hcommon)).2.2
    rw [hcommon] at htotal hids
    rw [ih.1, if_neg Bool.false_ne_true, ih.2, hids, htotal]
    exact ⟨rfl, rfl⟩
  | true =>
    obtain ⟨hget, -, hids⟩ := hstep.shared hfirst hcommon
    have hpos := remainingTotal_pos_of_isCommon (hready.unif d List.mem_cons_self).1 hcommon
    obtain ⟨t, ht⟩ := Nat.exists_eq_add_of_lt hpos
    rw [Nat.zero_add] at ht
    rw [hcommon, if_pos rfl] at htotal
    rw [ih.1, if_pos rfl, List.map_cons, ih.2, hids, htotal]
    rw [ht, Nat.add_sub_cancel] at hget ⊢
    rw [List.take_add_one, hget]
    simp

/-! ### Identifiers that are not shared -/

theorem notMem_of_probe {used : Finset ℕ} {failures start id : ℕ}
    (h : probe used failures start = some id) : id ∉ used := by
  induction failures generalizing start with
  | zero => cases h
  | succ failures ih =>
    rw [probe] at h
    split at h
    · exact ih h
    case isFalse hfree =>
      cases h
      exact hfree

/-- A search that does not come round. -/
theorem lt_of_probe {used : Finset ℕ} {failures start id : ℕ} (hle : start + failures ≤ maxIdSize)
    (h : probe used failures start = some id) : id < start + failures := by
  induction failures generalizing start with
  | zero => cases h
  | succ failures ih =>
    rw [probe] at h
    split at h
    · rw [if_pos (by omega)] at h
      have hlt := ih (by omega) h
      omega
    · cases h
      omega

/-- The identifiers that a search looks at, while it fails. -/
theorem mem_of_probe_eq_none {used : Finset ℕ} {failures start k : ℕ} (hstart : start ≤ maxIdSize)
    (h : probe used failures start = none) (hk : k < failures) :
    (start + k) % (maxIdSize + 1) ∈ used := by
  induction failures generalizing start k with
  | zero => exact absurd hk (Nat.not_lt_zero k)
  | succ failures ih =>
    rw [probe] at h
    split at h
    case isFalse => cases h
    case isTrue hmem =>
      cases k with
      | zero => rwa [Nat.add_zero, Nat.mod_eq_of_lt (Nat.lt_succ_of_le hstart)]
      | succ k =>
        by_cases hlt : start < maxIdSize
        · rw [if_pos hlt] at h
          have hnext := @ih (start + 1) k hlt h (Nat.lt_of_succ_lt_succ hk)
          rwa [Nat.add_assoc, Nat.add_comm 1] at hnext
        · rw [if_neg hlt] at h
          have hnext := @ih 0 k (Nat.zero_le _) h (Nat.lt_of_succ_lt_succ hk)
          have heq : start + (k + 1) = 0 + k + (maxIdSize + 1) := by omega
          rwa [heq, Nat.add_mod_right]

/-- A search ends while an identifier is left for each of its failures. -/
theorem probe_isSome {used : Finset ℕ} {start : ℕ} (hstart : start ≤ maxIdSize)
    (hcard : used.card < maxIdSize) : (probe used maxIdSize start).isSome := by
  by_contra hnone
  rw [Option.not_isSome_iff_eq_none] at hnone
  have hmaps : Set.MapsTo (fun k ↦ (start + k) % (maxIdSize + 1)) (Finset.range maxIdSize) used :=
    fun k hk ↦ mem_of_probe_eq_none hstart hnone (Finset.mem_range.mp hk)
  have hinj : Set.InjOn (fun k ↦ (start + k) % (maxIdSize + 1))
      (Finset.range maxIdSize : Finset ℕ) := by
    intro j hj k hk hjk
    rw [Finset.mem_coe, Finset.mem_range] at hj hk
    have hmod : j ≡ k [MOD maxIdSize + 1] := Nat.ModEq.add_left_cancel' start hjk
    exact hmod.eq_of_lt_of_lt (by omega) (by omega)
  have hle := Finset.card_le_card_of_injOn _ hmaps hinj
  rw [Finset.card_range] at hle
  omega

theorem own_cons (hstep : V.Step d s row s') : own V (row :: rows) =
    if V.isFirst = true ∨ isCommon d s = false then row :: own V rows else own V rows := by
  rw [own, List.filter_cons, hstep.common]
  cases hfirst : V.isFirst <;> cases isCommon d s <;> simp [own, hfirst]

/-- The other rows get identifiers that nobody has. -/
theorem ids_own (hready : Ready ds s) (h : V.generateDataForParty ds s = some (rows, s')) :
    s'.usedIds = s.usedIds ∪ ((own V rows).map Row.id).toFinset ∧
      ((own V rows).map Row.id).Nodup ∧ ∀ id ∈ (own V rows).map Row.id, id ∉ s.usedIds := by
  refine rows_induction (P := fun _ s rows s' ↦
      s'.usedIds = s.usedIds ∪ ((own V rows).map Row.id).toFinset ∧
        ((own V rows).map Row.id).Nodup ∧ ∀ id ∈ (own V rows).map Row.id, id ∉ s.usedIds)
    (fun _ _ ↦ ⟨by simp [own], List.nodup_nil, fun _ hid ↦ by cases hid⟩) ?_ hready h
  intro d ds s row s₁ rows s' _ hstep _ _ ih
  obtain ⟨hused, hnodup, hnew⟩ := ih
  rw [own_cons hstep]
  split
  case isTrue hfresh =>
    obtain ⟨hprobe, hinsert, -⟩ := hstep.fresh hfresh
    rw [hinsert] at hused hnew
    have hrow : row.id ∉ (own V rows).map Row.id := fun hmem ↦
      hnew _ hmem (Finset.mem_insert_self _ _)
    refine ⟨?_, List.nodup_cons.mpr ⟨hrow, hnodup⟩, ?_⟩
    · rw [hused, List.map_cons, List.toFinset_cons, Finset.insert_union, Finset.union_insert]
    · intro id hid
      rw [List.map_cons, List.mem_cons] at hid
      cases hid with
      | inl heq => exact heq ▸ notMem_of_probe hprobe
      | inr hmem => exact fun hin ↦ hnew id hmem (Finset.mem_insert_of_mem hin)
  case isFalse hshared =>
    rw [not_or, Bool.not_eq_true, Bool.not_eq_false] at hshared
    obtain ⟨-, hkeep, -⟩ := hstep.shared hshared.1 hshared.2
    rw [hkeep] at hused hnew
    exact ⟨hused, hnodup, hnew⟩

/-- With searches from zero, all identifiers are below the bound. -/
theorem own_lt (hready : Ready ds s) (hzero : ∀ d ∈ ds, d.id = 0)
    (h : V.generateDataForParty ds s = some (rows, s')) :
    ∀ id ∈ (own V rows).map Row.id, id < maxIdSize := by
  refine rows_induction (P := fun ds _ rows _ ↦ (∀ d ∈ ds, d.id = 0) →
      ∀ id ∈ (own V rows).map Row.id, id < maxIdSize) ?_ ?_ hready h hzero
  · intro s _ _ id hid
    cases hid
  intro d ds s row s₁ rows s' _ hstep _ _ ih hzero id hid
  obtain ⟨hd, hds⟩ := List.forall_mem_cons.mp hzero
  rw [own_cons hstep] at hid
  split at hid
  case isFalse => exact ih hds id hid
  case isTrue hfresh =>
    rw [List.map_cons, List.mem_cons] at hid
    cases hid with
    | inr hmem => exact ih hds id hmem
    | inl heq =>
      obtain ⟨hprobe, -, -⟩ := hstep.fresh hfresh
      rw [hd] at hprobe
      have hlt := lt_of_probe (Nat.le_of_eq (Nat.zero_add _)) hprobe
      omega

/-! ### The joined table -/

theorem joined_size (hready : Ready ds s) (h : V.generateDataForParty ds s = some (rows, s')) :
    s'.joined.rows = s.joined.rows ∧ s'.joined.cols = s.joined.cols := by
  refine rows_induction (P := fun _ s _ s' ↦
      s'.joined.rows = s.joined.rows ∧ s'.joined.cols = s.joined.cols)
    (fun _ _ ↦ ⟨rfl, rfl⟩) ?_ hready h
  intro d ds s row s₁ rows s' _ hstep _ _ ih
  exact ⟨ih.1.trans hstep.rows, ih.2.trans hstep.cols⟩

/-- The rows that are used up and the columns of other verticals stay. -/
theorem joined_keep (hready : Ready ds s) (h : V.generateDataForParty ds s = some (rows, s')) :
    ∀ r c, r < s.joined.rows - s.remainingTotal ∨ c < V.start ∨
      V.start + V.features V.columns ≤ c → s'.joined.cell r c = s.joined.cell r c := by
  refine rows_induction (P := fun _ s _ s' ↦
      ∀ r c, r < s.joined.rows - s.remainingTotal ∨ c < V.start ∨
        V.start + V.features V.columns ≤ c → s'.joined.cell r c = s.joined.cell r c)
    (fun _ _ _ _ _ ↦ rfl) ?_ hready h
  intro d ds s row s₁ rows s' hready hstep _ _ ih r c hout
  have htotal := hstep.total
  have hrows := hstep.rows
  cases hcommon : isCommon d s with
  | false =>
    rw [hcommon, if_neg Bool.false_ne_true] at htotal
    rw [ih r c (by omega), hstep.apart hcommon]
  | true =>
    rw [hcommon, if_pos rfl] at htotal
    rw [ih r c (by omega), (hstep.stored hcommon).2.1]
    simp only [JoinedTable.fill]
    rw [if_neg (by omega)]

/-- The `k`-th common row is stored in the `k`-th row of the table that is left. -/
theorem joined_common (hready : Ready ds s) (h : V.generateDataForParty ds s = some (rows, s')) :
    ∀ k row, (common rows)[k]? = some row →
      (∀ c < V.features V.columns,
        s'.joined.cell (s.joined.rows - s.remainingTotal + k) (V.start + c) = row.draw.values c) ∧
      row.values =
        V.commonLine row.draw (s'.joined.cell (s.joined.rows - s.remainingTotal + k)) := by
  refine rows_induction (P := fun _ s rows s' ↦ ∀ k row, (common rows)[k]? = some row →
      (∀ c < V.features V.columns,
        s'.joined.cell (s.joined.rows - s.remainingTotal + k) (V.start + c) = row.draw.values c) ∧
      row.values =
        V.commonLine row.draw (s'.joined.cell (s.joined.rows - s.remainingTotal + k)))
    (fun _ _ _ _ hget ↦ by cases hget) ?_ hready h
  intro d ds s row s₁ rows s' hready hstep htail hrest ih k row' hget
  have htotal := hstep.total
  rw [common_cons hstep] at hget
  cases hcommon : isCommon d s with
  | false =>
    rw [hcommon, if_neg Bool.false_ne_true] at hget htotal
    rw [← htotal, ← hstep.rows]
    exact ih k row' hget
  | true =>
    rw [hcommon, if_pos rfl] at hget htotal
    have hpos := remainingTotal_pos_of_isCommon (hready.unif d List.mem_cons_self).1 hcommon
    have hle := hready.rows
    have hrows := hstep.rows
    cases k with
    | succ k =>
      have hrow : s.joined.rows - s.remainingTotal + (k + 1) =
          s₁.joined.rows - s₁.remainingTotal + k := by omega
      rw [hrow]
      exact ih k row' hget
    | zero =>
      obtain rfl := Option.some.inj hget
      obtain ⟨-, hfill, hline⟩ := hstep.stored hcommon
      have hkeep : s'.joined.cell (s.joined.rows - s.remainingTotal) =
          s₁.joined.cell (s.joined.rows - s.remainingTotal) :=
        funext fun c ↦ joined_keep htail hrest _ c (.inl (by omega))
      rw [Nat.add_zero, hkeep, hstep.draw]
      refine ⟨fun c hc ↦ ?_, hline⟩
      rw [hfill]
      simp only [JoinedTable.fill]
      rw [if_pos ⟨trivial, by omega, by omega⟩, Nat.add_sub_cancel_left]

/-! ### When the rows are written -/

theorem Wide.congr {T T' : JoinedTable} (h : T'.cols = T.cols) (hwide : V.Wide T) : V.Wide T' :=
  ⟨fun hpos ↦ h ▸ hwide.features hpos, fun hdep ↦ h ▸ hwide.dependent hdep⟩

theorem typed_of_rows (hready : Ready ds s) (hne : ds ≠ [])
    (h : V.generateDataForParty ds s = some (rows, s')) : Typed V.columns := by
  refine rows_induction (P := fun ds _ _ _ ↦ ds ≠ [] → Typed V.columns)
    (fun _ _ hnil ↦ absurd rfl hnil) ?_ hready h hne
  intro d ds s row s₁ rows s' _ hstep _ _ _ _
  exact hstep.typed

theorem wide_of_rows (hready : Ready ds s) (hpos : 0 < s.remainingTotal)
    (h : V.generateDataForParty ds s = some (rows, s')) : V.Wide s.joined := by
  refine rows_induction (P := fun _ s _ _ ↦ 0 < s.remainingTotal → V.Wide s.joined)
    (fun _ hzero hpos ↦ absurd hzero (Nat.pos_iff_ne_zero.mp hpos)) ?_ hready h hpos
  intro d ds s row s₁ rows s' _ hstep _ _ ih hpos
  have htotal := hstep.total
  cases hcommon : isCommon d s with
  | true => exact (hstep.stored hcommon).1
  | false =>
    rw [hcommon, if_neg Bool.false_ne_true] at htotal
    exact (ih (htotal ▸ hpos)).congr hstep.cols.symm

/-- How many identifiers a vertical needs for `n` rows with `t` common ones. -/
def ownCount (V : Vertical) (n t : ℕ) : ℕ := if V.isFirst then n else n - t

theorem length_own (hready : Ready ds s) (h : V.generateDataForParty ds s = some (rows, s')) :
    (own V rows).length = V.ownCount ds.length s.remainingTotal := by
  have hdraws := congrArg List.length (rows_draws hready h)
  rw [List.length_map] at hdraws
  have hcommon := length_common hready h
  rw [common, ← List.countP_eq_length_filter] at hcommon
  have hsplit := List.length_eq_countP_add_countP (l := rows) (·.isRowInIntersection)
  rw [own, ownCount]
  cases V.isFirst with
  | true => simp [hdraws]
  | false =>
    simp only [Bool.false_or, Bool.false_eq_true, if_false, ← List.countP_eq_length_filter]
    simp only [Bool.not_eq_true] at hsplit
    have hcongr : rows.countP (fun row ↦ !row.isRowInIntersection) =
        rows.countP (fun row ↦ decide (row.isRowInIntersection = false)) :=
      List.countP_congr fun row _ ↦ by simp
    omega

theorem exists_rows (hready : Ready ds s) (htyped : ds ≠ [] → Typed V.columns)
    (hwide : 0 < s.remainingTotal → V.Wide s.joined)
    (hids : V.isFirst = false → s.remainingTotal ≤ s.intersectionIds.length)
    (hstart : ∀ d ∈ ds, d.id ≤ maxIdSize)
    (hcard : s.usedIds.card + V.ownCount ds.length s.remainingTotal ≤ maxIdSize) :
    ∃ rows s', V.generateDataForParty ds s = some (rows, s') := by
  induction ds generalizing s with
  | nil => exact ⟨_, _, rfl⟩
  | cons d ds ih =>
    have hunif := hready.unif d List.mem_cons_self
    have htotal := hready.total
    rw [ownCount, List.length_cons] at hcard
    rw [List.length_cons] at htotal
    have hnotAll : isCommon d s = false → s.remainingTotal ≤ ds.length := by
      intro hcommon
      by_contra hlt
      have hinVert := hready.inVert
      rw [List.length_cons] at hinVert
      have htrue := isCommon_of_all (s := s) hunif.2 (by omega) (by omega)
      rw [hcommon] at htrue
      exact Bool.false_ne_true htrue
    obtain ⟨row, s₁, hrow⟩ : ∃ row s₁, V.generateRow d s = some (row, s₁) := by
      refine exists_generateRow (htyped (List.cons_ne_nil _ _)) (fun hcommon ↦ ?_)
        (fun hfirst hcommon ↦ ?_) fun hfresh ↦ ?_
      · have hpos := remainingTotal_pos_of_isCommon hunif.1 hcommon
        exact ⟨hwide hpos, hpos, hready.rows⟩
      · have hpos := remainingTotal_pos_of_isCommon hunif.1 hcommon
        have hle := hids hfirst
        omega
      · refine probe_isSome (hstart d List.mem_cons_self) ?_
        split at hcard
        · omega
        case isFalse hfirst =>
          have hle := hnotAll (hfresh.resolve_left hfirst)
          omega
    have hstep := step_of_generateRow hrow
    obtain ⟨rows, s', hrest⟩ : ∃ rows s', V.generateDataForParty ds s₁ = some (rows, s') := by
      have htotal' := hstep.total
      refine ih (hready.tail hstep) (fun _ ↦ hstep.typed) (fun hpos ↦ ?_) (fun hfirst ↦ ?_)
        (fun x hx ↦ hstart x (List.mem_cons_of_mem d hx)) ?_
      · refine (hwide ?_).congr hstep.cols
        split at htotal' <;> omega
      · have hle := hids hfirst
        cases hcommon : isCommon d s with
        | false =>
          have hkeep := (hstep.fresh (.inr hcommon)).2.2
          rw [hcommon] at htotal' hkeep
          rw [htotal', hkeep]
          exact hle
        | true =>
          rw [(hstep.shared hfirst hcommon).2.2]
          rw [hcommon, if_pos rfl] at htotal'
          omega
      · by_cases hfresh : V.isFirst = true ∨ isCommon d s = false
        · have hinsert := Finset.card_insert_le row.id s.usedIds
          rw [← (hstep.fresh hfresh).2.1] at hinsert
          rw [ownCount]
          split at hcard
          case isTrue hfirst =>
            rw [if_pos hfirst]
            omega
          case isFalse hfirst =>
            have hcommon := hfresh.resolve_left hfirst
            have hle := hnotAll hcommon
            rw [hcommon, if_neg Bool.false_ne_true] at htotal'
            rw [if_neg hfirst, htotal']
            omega
        · rw [not_or, Bool.not_eq_true, Bool.not_eq_false] at hfresh
          have hpos := remainingTotal_pos_of_isCommon hunif.1 hfresh.2
          rw [(hstep.shared hfresh.1 hfresh.2).2.1, ownCount, hfresh.1]
          rw [hfresh.1] at hcard
          rw [hfresh.2, if_pos rfl] at htotal'
          simp only [Bool.false_eq_true, if_false] at hcard ⊢
          omega
    refine ⟨row :: rows, s', ?_⟩
    rw [generateDataForParty, hrow]
    simp only [Option.bind_eq_bind, Option.bind_some, hrest, Option.pure_def]

end Vertical

end Safrn.Util
