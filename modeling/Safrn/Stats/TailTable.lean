import Mathlib.Data.List.Forall2
import Mathlib.Data.Rat.Floor
import Safrn.Stats.Division

/-!
# The rows of the p-value tables

Models the generator of the F and t tables (`Util/generate_F_T_table.cpp:209-334`), what
`read_table_csv_file` reads of the first column (`dealer/RandomTableLookup.cpp:71-106`), and how
`Regression::handleComplete` selects a row of a table (`dataowner/Regression.cpp:1425-1541`). The
generator drops a row that is close to the last one it has kept; the selection counts the kept rows
that the degrees of freedom exceed.
-/

namespace Safrn.Stats

open Safrn.Base

/-! ## Generating a table -/

/-- `x / y - 1 > pct_error_tol` for numbers that are not negative: a `double` divided by zero is
infinite, or not a number. -/
def ratioExceeds (x y pctErrorTol : ℚ) : Bool :=
  if y = 0 then 0 < x else x / y - 1 > pctErrorTol

/-- `ten_to_pow`. -/
def tenToPow (numDigits : ℕ) : ℚ := forRange (fun pow _ ↦ pow * (1 / 10)) numDigits 1

/-- `compareAdjacentRows`, for rows without their first column. -/
def compareAdjacentRows (row1 row2 : List ℚ) (pctErrorTol : ℚ) (numDigits : ℕ) : Bool :=
  (row1.zip row2).any fun (x, y) ↦
    (x > tenToPow numDigits || y > tenToPow numDigits) &&
      (ratioExceeds x y pctErrorTol || ratioExceeds y x pctErrorTol)

/-- What a table is generated from: the tail probabilities of each row, for a number of columns. -/
structure TableSource where
  current : ℕ → List ℚ
  numCols : ℕ
  maxNu2 : ℕ
  pctErrorTol : ℚ
  numDigits : ℕ
  length_current : ∀ i, (current i).length = numCols
  current_nonneg : ∀ i, ∀ cell ∈ current i, 0 ≤ cell
  pctErrorTol_nonneg : 0 ≤ pctErrorTol

/-- The lines of a table so far, each with the number of its row, and `prev`. -/
structure TableLines where
  rows : List (ℕ × List ℚ)
  prev : List ℚ

namespace TableSource

/-- The rows of `GenerateFTable`. -/
def fTable (cdfFdistQ : ℚ → ℕ → ℕ → ℚ) (hcdf : ∀ x nu1 nu2, 0 ≤ cdfFdistQ x nu1 nu2)
    (nu1 maxNu2 bits stepSize : ℕ) (fMax pctErrorTol : ℚ) (htol : 0 ≤ pctErrorTol)
    (numDigits : ℕ) : TableSource :=
  let fDiff : ℚ := (1 / 2) ^ bits * stepSize
  let numCols := ⌈fMax / fDiff⌉₊
  { current := fun i ↦ (List.range numCols).map (fun j ↦ cdfFdistQ ((1 + j) * fDiff) nu1 i)
    numCols := numCols
    maxNu2 := maxNu2
    pctErrorTol := pctErrorTol
    numDigits := numDigits
    length_current := by simp
    current_nonneg := by simp [hcdf]
    pctErrorTol_nonneg := htol }

/-- The rows of `GenerateTTable`; its vector has a place for every column when the step size divides
their number. -/
def tTable (cdfTdistQ : ℚ → ℕ → ℚ) (hcdf : ∀ x nu, 0 ≤ cdfTdistQ x nu) (sqrt : ℚ → ℚ)
    (maxNu2 bits stepSize : ℕ) (tMax pctErrorTol : ℚ) (htol : 0 ≤ pctErrorTol)
    (_hstep : stepSize ∣ ⌈tMax * tMax / ((1 / 2) ^ bits * (1 / 2) ^ bits)⌉₊)
    (numDigits : ℕ) : TableSource :=
  let tDiff : ℚ := (1 / 2) ^ bits
  let numCols := ⌈tMax * tMax / (tDiff * tDiff)⌉₊ / stepSize
  { current := fun i ↦ (List.range numCols).map (fun j ↦
      cdfTdistQ (sqrt ((1 + (stepSize * j : ℕ)) * tDiff)) i)
    numCols := numCols
    maxNu2 := maxNu2
    pctErrorTol := pctErrorTol
    numDigits := numDigits
    length_current := by simp
    current_nonneg := by simp [hcdf]
    pctErrorTol_nonneg := htol }

variable (T : TableSource)

/-- One round of the loop, for row `i + 1`. -/
def nextRow (lines : TableLines) (i : ℕ) : TableLines :=
  let current := T.current (i + 1)
  if i + 1 = 1 ∨ compareAdjacentRows current lines.prev T.pctErrorTol T.numDigits then
    ⟨lines.rows ++ [(i + 1, current)], current⟩
  else lines

/-- The rows that the generator writes. -/
def rows : List (ℕ × List ℚ) := (forRange T.nextRow (T.maxNu2 - 1) ⟨[], []⟩).rows

/-- Two probabilities that differ by the tolerance at most, or are both below the threshold. -/
def CellNear (x y : ℚ) : Prop :=
  x ≤ tenToPow T.numDigits ∧ y ≤ tenToPow T.numDigits ∨
    x ≤ (1 + T.pctErrorTol) * y ∧ y ≤ (1 + T.pctErrorTol) * x

/-- The row that is kept for `df`: the last one up to it. -/
def Kept (df : ℕ) (row : ℕ × List ℚ) : Prop :=
  row ∈ T.rows ∧ row.1 ≤ df ∧ ∀ other ∈ T.rows, other.1 ≤ df → other.1 ≤ row.1

end TableSource

/-! ## Selecting a row -/

/-- What is read of the first column: `Itoa` prints a `double` with six digits, from 10⁶ on in
scientific notation, and `atoi` then reads the first digit only. -/
def readRowId (i : ℕ) : ℕ :=
  if i < 10 ^ 6 then i
  else
    let unit := 10 ^ (Nat.log 10 i - 5)
    let mantissa := (2 * i + unit) / (2 * unit)
    if mantissa = 10 ^ 6 then 1 else mantissa / 10 ^ 5

/-- What the stages use: the shares of the number of joined rows, and the functions of the library.
`compare` and `typeCastFromBit` are the fronctocols at a position of their batch, where those of the
table start at `batchStart`. -/
structure RowSelection (ι : Type) where
  startModulus : ℕ
  endModulus : ℕ
  numIVs : ℕ
  revealer : ι
  count : ι → ℕ
  batchStart : ℕ
  compare : ℕ → (ι → ℕ) → (ι → ℕ) → ι → ℕ
  typeCastFromBit : ℕ → (ι → ℕ) → ι → ℕ
  modSub : ℕ → ℕ → ℕ → ℕ
  modAdd : ℕ → ℕ → ℕ → ℕ

namespace RowSelection

variable {ι : Type} [DecidableEq ι] (S : RowSelection ι)

/-- The first operand of `Compare`. -/
def degreesOfFreedom (p : ι) : ℕ :=
  if p = S.revealer then S.modSub (S.count p) S.numIVs S.startModulus else S.count p

/-- The second operand of `Compare`. -/
def rowIdOperand (rowId : ℕ) (p : ι) : ℕ := if p = S.revealer then rowId else 0

/-- `outputBitShare` for one row. -/
def outputBitShare (rowId i : ℕ) : ι → ℕ :=
  S.typeCastFromBit i fun p ↦ S.compare i S.degreesOfFreedom (S.rowIdOperand rowId) p % 2

/-- `F_row_id_share` and `t_row_id_share`; the former is reduced with `%`. -/
def rowIdShare (rowIds : List ℕ) (p : ι) : ℕ :=
  (rowIds.dropLast.zipIdx S.batchStart).foldl (fun share (rowId, i) ↦
    S.modAdd share (S.outputBitShare rowId i p) S.endModulus) 0

/-- `Compare` tells whether its first operand is the greater one of two numbers below half the
modulus, and `TypeCastFromBit` keeps the bit. -/
structure Ideal [Fintype ι] : Prop where
  compare : ∀ i x y (a b : ℕ), 2 * a < S.startModulus → 2 * b < S.startModulus →
    reconstruct S.startModulus x = a → reconstruct S.startModulus y = b →
      reconstructBit (S.compare i x y) = if b < a then 1 else 0
  typeCastFromBit : ∀ i x,
    reconstruct S.endModulus (S.typeCastFromBit i x) = reconstructBit x
  modSub : ∀ a b, (S.modSub a b S.startModulus : ZMod S.startModulus) = a - b
  modAdd : ∀ a b, S.modAdd a b S.endModulus = (a + b) % S.endModulus

/-- The shares select the row that is kept, and its cells are those of `df` up to the tolerance. -/
def SelectsKept [Fintype ι] (T : TableSource) (df : ℕ) : Prop :=
  ∃ (k : ℕ) (row : ℕ × List ℚ), T.rows[k]? = some row ∧ T.Kept df row ∧
    reconstruct S.endModulus (S.rowIdShare (T.rows.map fun row ↦ readRowId row.1)) = k ∧
      List.Forall₂ T.CellNear row.2 (T.current df)

end RowSelection

/-! ## The rows that are kept -/

namespace TableSource

variable {T : TableSource}

/-- Cells that `compareAdjacentRows` lets pass are near. -/
private theorem cellNear_of_not_exceeds {x y : ℚ} (hx : 0 ≤ x) (hy : 0 ≤ y)
    (h : ((x > tenToPow T.numDigits || y > tenToPow T.numDigits) &&
      (ratioExceeds x y T.pctErrorTol || ratioExceeds y x T.pctErrorTol)) = false) :
    T.CellNear y x := by
  have hratio : ∀ {a b : ℚ}, 0 ≤ b → ratioExceeds a b T.pctErrorTol = false →
      a ≤ (1 + T.pctErrorTol) * b := by
    intro a b hb hab
    rw [ratioExceeds] at hab
    split at hab
    · next hzero =>
      rw [hzero, mul_zero]
      simpa using hab
    · next hne =>
      have hpos : 0 < b := lt_of_le_of_ne hb (Ne.symm hne)
      have hle : a / b ≤ 1 + T.pctErrorTol := by
        have : a / b - 1 ≤ T.pctErrorTol := by simpa using hab
        linarith
      exact (div_le_iff₀ hpos).mp hle
  rw [Bool.and_eq_false_iff, Bool.or_eq_false_iff, Bool.or_eq_false_iff] at h
  rcases h with ⟨hsmall, hsmall'⟩ | ⟨hxy, hyx⟩
  · exact .inl ⟨by simpa using hsmall', by simpa using hsmall⟩
  · exact .inr ⟨hratio hx hyx, hratio hy hxy⟩

theorem cellNear_self {x : ℚ} (hx : 0 ≤ x) : T.CellNear x x := by
  have := mul_nonneg T.pctErrorTol_nonneg hx
  exact .inr ⟨by linarith, by linarith⟩

/-- A row that `compareAdjacentRows` drops is near the previous one. -/
private theorem near_of_dropped {i j : ℕ} (h : compareAdjacentRows (T.current i) (T.current j)
    T.pctErrorTol T.numDigits = false) :
    List.Forall₂ T.CellNear (T.current j) (T.current i) := by
  apply List.Forall₂.flip
  rw [List.forall₂_iff_zip]
  refine ⟨by rw [T.length_current, T.length_current], ?_⟩
  intro x y hxy
  obtain ⟨hx, hy⟩ := List.of_mem_zip hxy
  have hcell := List.any_eq_false.mp h (x, y) hxy
  exact cellNear_of_not_exceeds (T.current_nonneg i x hx) (T.current_nonneg j y hy)
    (Bool.eq_false_iff.mpr hcell)

/-- After `n` rows: the rows are those of their numbers, `prev` is the last of them, and the last
row up to `df` is near that of `df`. -/
structure Inv (T : TableSource) (n : ℕ) (lines : TableLines) : Prop where
  increasing : lines.rows.Pairwise fun a b ↦ a.1 < b.1
  mem : ∀ row ∈ lines.rows, 1 ≤ row.1 ∧ row.1 ≤ n ∧ row.2 = T.current row.1
  first : 0 < n → ∃ row ∈ lines.rows, row.1 = 1
  prev : 0 < n → ∃ row ∈ lines.rows, row.2 = lines.prev ∧ ∀ other ∈ lines.rows, other.1 ≤ row.1
  near : ∀ df, 1 ≤ df → df ≤ n → ∀ row ∈ lines.rows, row.1 ≤ df →
    (∀ other ∈ lines.rows, other.1 ≤ df → other.1 ≤ row.1) →
      List.Forall₂ T.CellNear row.2 (T.current df)

private theorem Inv.keep {n : ℕ} {lines : TableLines} (h : T.Inv n lines) :
    T.Inv (n + 1) ⟨lines.rows ++ [(n + 1, T.current (n + 1))], T.current (n + 1)⟩ where
  increasing := by
    rw [List.pairwise_append]
    refine ⟨h.increasing, List.pairwise_singleton _ _, ?_⟩
    intro row hrow other hother
    have hle := (h.mem row hrow).2.1
    rw [List.mem_singleton] at hother
    rw [hother]
    omega
  mem := by
    intro row hrow
    rcases List.mem_append.mp hrow with hrow | hrow
    · obtain ⟨hpos, hle, hcells⟩ := h.mem row hrow
      exact ⟨hpos, by omega, hcells⟩
    · obtain rfl := List.mem_singleton.mp hrow
      exact ⟨by omega, le_rfl, rfl⟩
  first := by
    intro _
    rcases Nat.eq_zero_or_pos n with rfl | hn
    · exact ⟨_, List.mem_append_right _ (List.mem_singleton_self _), rfl⟩
    · obtain ⟨row, hrow, hone⟩ := h.first hn
      exact ⟨row, List.mem_append_left _ hrow, hone⟩
  prev := by
    intro _
    refine ⟨_, List.mem_append_right _ (List.mem_singleton_self _), rfl, ?_⟩
    intro other hother
    rcases List.mem_append.mp hother with hother | hother
    · have hle := (h.mem other hother).2.1
      show other.1 ≤ n + 1
      omega
    · rw [List.mem_singleton.mp hother]
  near := by
    intro df hdf hle row hrow hrowdf hmax
    rcases List.mem_append.mp hrow with hrow | hrow
    · rcases Nat.lt_or_ge n df with hlt | hge
      · -- The new row is up to `df`, so it is the last one.
        have hnew := hmax _ (List.mem_append_right _ (List.mem_singleton_self _)) hlt
        have hold := (h.mem row hrow).2.1
        exact absurd hnew (by simpa using hold)
      · exact h.near df hdf hge row hrow hrowdf
          fun other hother ↦ hmax other (List.mem_append_left _ hother)
    · obtain rfl := List.mem_singleton.mp hrow
      obtain rfl : df = n + 1 := Nat.le_antisymm hle hrowdf
      rw [List.forall₂_same]
      exact fun cell hcell ↦ cellNear_self (T.current_nonneg _ cell hcell)

private theorem Inv.drop {n : ℕ} {lines : TableLines} (h : T.Inv n lines) (hn : 0 < n)
    (hdrop : compareAdjacentRows (T.current (n + 1)) lines.prev T.pctErrorTol T.numDigits =
      false) : T.Inv (n + 1) lines where
  increasing := h.increasing
  mem := by
    intro row hrow
    obtain ⟨hpos, hle, hcells⟩ := h.mem row hrow
    exact ⟨hpos, by omega, hcells⟩
  first := fun _ ↦ h.first hn
  prev := fun _ ↦ h.prev hn
  near := by
    intro df hdf hle row hrow hrowdf hmax
    rcases Nat.lt_or_ge n df with hlt | hge
    · obtain rfl : df = n + 1 := by omega
      obtain ⟨last, hlast, hprev, hlastmax⟩ := h.prev hn
      have hlastle := (h.mem last hlast).2.1
      have heq : row.1 = last.1 :=
        Nat.le_antisymm (hlastmax row hrow) (hmax last hlast (by omega))
      rw [← hprev, (h.mem last hlast).2.2] at hdrop
      rw [(h.mem row hrow).2.2, heq]
      exact near_of_dropped hdrop
    · exact h.near df hdf hge row hrow hrowdf hmax

private theorem inv_rows (T : TableSource) :
    T.Inv (T.maxNu2 - 1) (forRange T.nextRow (T.maxNu2 - 1) ⟨[], []⟩) := by
  apply forRange_invariant T.Inv
  · exact ⟨.nil, by simp, by simp, by simp, by simp⟩
  · intro n _ lines h
    rw [nextRow]
    split
    · exact h.keep
    · next hdrop =>
      rw [not_or] at hdrop
      exact h.drop (by omega) (Bool.eq_false_iff.mpr hdrop.2)

end TableSource

/-! ## The row that is selected -/

theorem readRowId_le (i : ℕ) : readRowId i ≤ i := by
  unfold readRowId
  split
  · exact le_rfl
  · next hlarge =>
    have hpos : 0 < 10 ^ (Nat.log 10 i - 5) := by positivity
    have hunit : 10 ^ (Nat.log 10 i - 5) ≤ i :=
      (Nat.pow_le_pow_right (by decide) (Nat.sub_le _ _)).trans (Nat.pow_log_le_self 10 (by omega))
    have hmantissa : (2 * i + 10 ^ (Nat.log 10 i - 5)) / (2 * 10 ^ (Nat.log 10 i - 5)) ≤
        2 * i + 10 ^ (Nat.log 10 i - 5) := Nat.div_le_self _ _
    dsimp only
    split
    · omega
    · omega

/-- Rows before the last one up to `df`, this row, and the rows after `df`. -/
private structure Split (rows : List (ℕ × List ℚ)) (df : ℕ) (pre : List (ℕ × List ℚ))
    (row : ℕ × List ℚ) (post : List (ℕ × List ℚ)) : Prop where
  rows_eq : rows = pre ++ row :: post
  pre_lt : ∀ other ∈ pre, other.1 < row.1
  row_le : row.1 ≤ df
  lt_post : ∀ other ∈ post, df < other.1

private theorem exists_split {rows : List (ℕ × List ℚ)} {df : ℕ}
    (hincreasing : rows.Pairwise fun a b ↦ a.1 < b.1) (h : ∃ row ∈ rows, row.1 ≤ df) :
    ∃ pre row post, Split rows df pre row post := by
  induction rows with
  | nil => simp at h
  | cons first rest ih =>
    obtain ⟨hfirst, hrest⟩ := List.pairwise_cons.mp hincreasing
    by_cases hex : ∃ row ∈ rest, row.1 ≤ df
    · obtain ⟨pre, row, post, rfl, hpre, hrow, hpost⟩ := ih hrest hex
      refine ⟨first :: pre, row, post, rfl, ?_, hrow, hpost⟩
      exact List.forall_mem_cons.mpr ⟨hfirst row (by simp), hpre⟩
    · push Not at hex
      obtain ⟨row, hrow, hle⟩ := h
      refine ⟨[], first, rest, rfl, by simp, ?_, hex⟩
      rcases List.mem_cons.mp hrow with rfl | hmem
      · exact hle
      · exact absurd hle (not_le.mpr (hex row hmem))

namespace Split

variable {rows pre post : List (ℕ × List ℚ)} {row : ℕ × List ℚ} {df : ℕ}
  (h : Split rows df pre row post)

include h

private theorem mem : row ∈ rows := by simp [h.rows_eq]

private theorem length_pre_lt : pre.length < rows.length := by simp [h.rows_eq]

private theorem getElem?_pre : rows[pre.length]? = some row := by simp [h.rows_eq]

private theorem le_row : ∀ other ∈ rows, other.1 ≤ df → other.1 ≤ row.1 := by
  intro other hother hle
  rw [h.rows_eq] at hother
  rcases List.mem_append.mp hother with hother | hother
  · exact (h.pre_lt other hother).le
  · rcases List.mem_cons.mp hother with rfl | hother
    · exact le_rfl
    · have hgt := h.lt_post other hother
      omega

private theorem post_eq_nil_iff : post = [] ↔ ∀ other ∈ rows, other.1 ≤ df := by
  constructor
  · rintro rfl other hother
    rw [h.rows_eq] at hother
    rcases List.mem_append.mp hother with hother | hother
    · exact (h.pre_lt other hother).le.trans h.row_le
    · rw [List.mem_singleton.mp hother]
      exact h.row_le
  · intro hall
    rw [List.eq_nil_iff_forall_not_mem]
    intro other hother
    have hle := hall other (by simp [h.rows_eq, hother])
    have hgt := h.lt_post other hother
    omega

private theorem row_eq_iff : row.1 = df ↔ ∃ other ∈ rows, other.1 = df := by
  constructor
  · exact fun heq ↦ ⟨row, h.mem, heq⟩
  · rintro ⟨other, hother, rfl⟩
    exact Nat.le_antisymm h.row_le (h.le_row other hother le_rfl)

/-- A position of a last row up to `df`. -/
private theorem index_eq {k : ℕ} {row' : ℕ × List ℚ} (hk : rows[k]? = some row')
    (hle : row'.1 ≤ df) (hmax : ∀ other ∈ rows, other.1 ≤ df → other.1 ≤ row'.1) :
    k = pre.length := by
  have hrowle := hmax row h.mem h.row_le
  rw [h.rows_eq] at hk
  rcases Nat.lt_trichotomy k pre.length with hlt | heq | hgt
  · rw [List.getElem?_append_left hlt] at hk
    have := h.pre_lt row' (List.mem_of_getElem? hk)
    omega
  · exact heq
  · obtain ⟨j, rfl⟩ : ∃ j, k = pre.length + (j + 1) := ⟨k - pre.length - 1, by omega⟩
    rw [List.getElem?_append_right (Nat.le_add_right _ _), Nat.add_sub_cancel_left,
      List.getElem?_cons_succ] at hk
    have := h.lt_post row' (List.mem_of_getElem? hk)
    omega

/-- As many rows but the last are exceeded as stand before the last one up to `df`, exactly when
this is the last of all, or `df` itself is its number and no later number is read as a smaller
one. -/
private theorem countP_dropLast_iff :
    (rows.dropLast.countP fun other ↦ readRowId other.1 < df) = pre.length ↔
      (∀ other ∈ rows, other.1 ≤ df) ∨ (∃ other ∈ rows, other.1 = df) ∧
        ∀ other ∈ rows.dropLast, df ≤ other.1 → df ≤ readRowId other.1 := by
  rw [← h.post_eq_nil_iff, ← h.row_eq_iff]
  have hcount : (pre.countP fun other ↦ readRowId other.1 < df) = pre.length := by
    rw [List.countP_eq_length]
    intro other hother
    have hlt := h.pre_lt other hother
    have hrow := h.row_le
    have hread := readRowId_le other.1
    simp only [decide_eq_true_eq]
    omega
  cases post with
  | nil => simp [h.rows_eq, hcount]
  | cons next rest =>
    have hdrop : rows.dropLast = pre ++ row :: (next :: rest).dropLast := by
      simp [h.rows_eq]
    rw [hdrop, List.countP_append, hcount, Nat.add_eq_left, List.countP_eq_zero]
    simp only [decide_eq_true_eq, not_lt, reduceCtorEq, false_or]
    constructor
    · intro hread
      have hrow := hread row List.mem_cons_self
      have hle := readRowId_le row.1
      have hrowle := h.row_le
      refine ⟨by omega, ?_⟩
      intro other hother hdf
      rcases List.mem_append.mp hother with hother | hother
      · have hlt := h.pre_lt other hother
        omega
      · exact hread other hother
    · rintro ⟨heq, hread⟩ other hother
      apply hread other (List.mem_append_right _ hother)
      rcases List.mem_cons.mp hother with rfl | hother
      · exact heq.ge
      · exact (h.lt_post other (List.dropLast_subset _ hother)).le

end Split

namespace RowSelection

variable {ι : Type} [DecidableEq ι] [Fintype ι] {S : RowSelection ι}

/-- The degrees of freedom, where the revealer subtracts. -/
theorem reconstruct_degreesOfFreedom (hsub : ∀ a b,
    (S.modSub a b S.startModulus : ZMod S.startModulus) = a - b) {df : ℕ}
    (hcount : reconstruct S.startModulus S.count = (df + S.numIVs : ℕ)) :
    reconstruct S.startModulus S.degreesOfFreedom = df := by
  have hsplit : ∀ p, (S.degreesOfFreedom p : ZMod S.startModulus) =
      S.count p - (if p = S.revealer then S.numIVs else 0 : ℕ) := by
    intro p
    rw [degreesOfFreedom]
    split
    · exact hsub _ _
    · simp
  rw [reconstruct]
  simp only [hsplit, Finset.sum_sub_distrib]
  rw [← reconstruct, ← reconstruct, hcount, reconstruct_public]
  push_cast
  ring

/-- The bit of one row. -/
private theorem reconstruct_outputBitShare (h : S.Ideal) {df rowId : ℕ}
    (hcount : reconstruct S.startModulus S.count = (df + S.numIVs : ℕ))
    (hdf : 2 * df < S.startModulus) (hrowId : 2 * rowId < S.startModulus) (i : ℕ) :
    reconstruct S.endModulus (S.outputBitShare rowId i) = ((if rowId < df then 1 else 0 : ℕ)) := by
  have hleft := reconstruct_degreesOfFreedom h.modSub hcount
  have hright : reconstruct S.startModulus (S.rowIdOperand rowId) = rowId :=
    reconstruct_public S.revealer rowId
  have hbit := h.compare i _ _ df rowId hdf hrowId hleft hright
  rw [outputBitShare, h.typeCastFromBit]
  congr 1
  exact (Finset.sum_nat_mod _ _ _).symm.trans hbit

/-- The shares of the bits add up to their number. -/
theorem reconstruct_rowIdShare_of_bits
    (hadd : ∀ a b, S.modAdd a b S.endModulus = (a + b) % S.endModulus) {rowIds : List ℕ}
    {P : ℕ → Prop} [DecidablePred P] (hbits : ∀ rowId ∈ rowIds, ∀ i,
      reconstruct S.endModulus (S.outputBitShare rowId i) = ((if P rowId then 1 else 0 : ℕ))) :
    reconstruct S.endModulus (S.rowIdShare rowIds) =
      (rowIds.dropLast.countP fun rowId ↦ P rowId : ℕ) := by
  have hfold : ∀ (ids : List ℕ) (start : ℕ) (share : ι → ℕ),
      (∀ rowId ∈ ids, rowId ∈ rowIds) →
      reconstruct S.endModulus (fun p ↦ (ids.zipIdx start).foldl (fun share (rowId, i) ↦
        S.modAdd share (S.outputBitShare rowId i p) S.endModulus) (share p)) =
          reconstruct S.endModulus share + (ids.countP fun rowId ↦ P rowId : ℕ) := by
    intro ids
    induction ids with
    | nil => simp
    | cons rowId ids ih =>
      intro start share hids
      rw [List.forall_mem_cons] at hids
      simp only [List.zipIdx_cons, List.foldl_cons]
      rw [ih (start + 1) _ hids.2]
      simp only [hadd]
      rw [reconstruct_mod, reconstruct_add, hbits rowId hids.1, List.countP_cons]
      by_cases hP : P rowId
      · simp only [hP, decide_true, if_true]
        push_cast
        ring
      · simp [hP]
  have hzero : reconstruct S.endModulus (fun _ : ι ↦ 0) = 0 := by simp [reconstruct]
  rw [← zero_add ((_ : ℕ) : ZMod S.endModulus), ← hzero]
  exact hfold _ _ _ fun rowId hrowId ↦ List.dropLast_subset _ hrowId

/-- The shares add up to the number of rows but the last that the degrees of freedom exceed. -/
theorem reconstruct_rowIdShare (h : S.Ideal) {df : ℕ} {rowIds : List ℕ}
    (hcount : reconstruct S.startModulus S.count = (df + S.numIVs : ℕ))
    (hdf : 2 * df < S.startModulus) (hrowIds : ∀ rowId ∈ rowIds, 2 * rowId < S.startModulus) :
    reconstruct S.endModulus (S.rowIdShare rowIds) =
      (rowIds.dropLast.countP fun rowId ↦ rowId < df : ℕ) :=
  reconstruct_rowIdShare_of_bits h.modAdd fun _ hrowId ↦
    reconstruct_outputBitShare h hcount hdf (hrowIds _ hrowId)

end RowSelection

/-! ## A small table -/

/-- Five rows of one cell, of which three are kept. -/
def reciprocals : TableSource where
  current := fun i ↦ [1 / i]
  numCols := 1
  maxNu2 := 6
  pctErrorTol := 3 / 5
  numDigits := 8
  length_current := fun _ ↦ rfl
  current_nonneg := by simp
  pctErrorTol_nonneg := by norm_num

open Numerals in
/-- Two parties, with the functions of the library on what is shared; the second holds nothing. -/
def twoParties (df : ℕ) : RowSelection (Fin 2) where
  startModulus := 101
  endModulus := 103
  numIVs := 2
  revealer := 0
  count := fun p ↦ if p = 0 then df + 2 else 0
  batchStart := 0
  compare := fun _ x y p ↦
    if p = 0 then (if (y 0 + y 1) % 101 < (x 0 + x 1) % 101 then 1 else 0) else 0
  typeCastFromBit := fun _ x p ↦ if p = 0 then (x 0 + x 1) % 2 else 0
  modSub := fun a b m ↦ (a + (m - 1) * b) % m
  modAdd := fun a b m ↦ (a + b) % m

theorem twoParties_ideal (df : ℕ) : (twoParties df).Ideal where
  compare := by
    intro i x y a b ha hb hx hy
    have hmod : ∀ (z : Fin 2 → ℕ) (c : ℕ), 2 * c < 101 → reconstruct 101 z = c →
        (z 0 + z 1) % 101 = c := by
      intro z c hc hz
      rw [reconstruct, Fin.sum_univ_two, ← Nat.cast_add, ZMod.natCast_eq_natCast_iff'] at hz
      omega
    show reconstructBit (fun p ↦ if p = 0 then
      (if (y 0 + y 1) % 101 < (x 0 + x 1) % 101 then 1 else 0) else 0) = _
    rw [hmod x a ha hx, hmod y b hb hy, reconstructBit, Fin.sum_univ_two]
    by_cases hlt : b < a <;> simp [hlt]
  typeCastFromBit := by
    intro i x
    show reconstruct 103 (fun p ↦ if p = 0 then (x 0 + x 1) % 2 else 0) = (reconstructBit x : ℕ)
    rw [reconstruct, Fin.sum_univ_two, reconstructBit, Fin.sum_univ_two]
    simp
  modSub := by
    intro a b
    show (((a + (101 - 1) * b) % 101 : ℕ) : ZMod 101) = a - b
    rw [ZMod.natCast_mod]
    push_cast
    have hneg : (100 : ZMod 101) = -1 := by decide
    rw [hneg]
    ring
  modAdd := fun _ _ ↦ rfl

end Safrn.Stats
