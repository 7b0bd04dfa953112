import Safrn.Stats.TailTable

/-!
# Where the p-value tables are read

Models the stages `awaitingDivisionForErrorTerms` to `awaitingFifthMultiplyForErrorTerms` of
`Regression::handleComplete` (`dataowner/Regression.cpp:1425-1736`), which turn the degrees of
freedom and a statistic into the shares of a place in a table. A statistic beyond the columns is to
be moved to the last one: `Compare` tells whether it exceeds their number, and a product with this
bit takes off what is too much.
-/

namespace Safrn.Stats

open Safrn.Base

/-- What `Compare` tells of two numbers: `a > b`, or `a ≥ b`. -/
def exceeds (strict : Bool) (a b : ℕ) : Prop := if strict then b < a else b ≤ a

instance (strict : Bool) (a b : ℕ) : Decidable (exceeds strict a b) :=
  inferInstanceAs (Decidable (if strict then b < a else b ≤ a))

/-- The shares of a data owner, the tables, and the functions of the library: those that select a
row, and the fronctocols over `endModulus` at their place in the last batches. The first place is
that of the F statistic. -/
structure FtLookup (ι : Type) where
  selection : RowSelection ι
  compareEndModulus : ℕ → (ι → ℕ) → (ι → ℕ) → ι → ℕ
  typeCastFromBitLast : ℕ → (ι → ℕ) → ι → ℕ
  multiply : ℕ → (ι → ℕ) → (ι → ℕ) → ι → ℕ
  fRowIds : List ℕ
  tRowIds : List ℕ
  numFCols : ℕ
  numTCols : ℕ
  fStatistic : ι → ℕ
  tStatisticsSquared : ℕ → ι → ℕ

namespace FtLookup

variable {ι : Type} [DecidableEq ι] (S : FtLookup ι)

/-- `endModulus`. -/
def endModulus : ℕ := S.selection.endModulus

/-- `LargeNum(num_cols)` of the revealer, and zero of the others. -/
def numColsOperand (numCols : ℕ) (p : ι) : ℕ := if p = S.selection.revealer then numCols else 0

/-- `F_statistic_overflow_bit` and `t_statistic_overflow_bits[i]`. -/
def overflowBit (i numCols : ℕ) (statistic : ι → ℕ) : ι → ℕ :=
  S.typeCastFromBitLast i fun p ↦
    S.compareEndModulus i statistic (S.numColsOperand numCols) p % 2

/-- The second operand of `Multiply`: `revealer_val_shift + endModulus - statistic`. -/
def excess (numCols : ℕ) (statistic : ι → ℕ) (p : ι) : ℕ :=
  S.numColsOperand (numCols - 1) p + S.endModulus - statistic p

/-- `F_statistic_col_index` and `t_statistic_col_indices[i]`, as `Multiply` leaves them. -/
def correction (i numCols : ℕ) (statistic : ι → ℕ) : ι → ℕ :=
  S.multiply i (S.overflowBit i numCols statistic) (S.excess numCols statistic)

/-- `F_statistic_col_index` and `t_statistic_col_indices[i]`. -/
def colIndex (i numCols : ℕ) (statistic : ι → ℕ) (p : ι) : ℕ :=
  S.selection.modAdd (S.correction i numCols statistic p) (statistic p) S.endModulus

/-- `F_row_id_share`. -/
def fRowIdShare : ι → ℕ := S.selection.rowIdShare S.fRowIds

/-- `t_row_id_share`; the bits of its rows follow those of the F table. -/
def tRowIdShare : ι → ℕ :=
  { S.selection with batchStart := S.selection.batchStart + (S.fRowIds.length - 1) }.rowIdShare
    S.tRowIds

/-- The `locationShare` of the `Lookup` into the F table. -/
def fLocationShare (p : ι) : ℕ :=
  S.colIndex 0 S.numFCols S.fStatistic p + S.fRowIdShare p * S.numFCols

/-- The `locationShare` of a `Lookup` into the t table. -/
def tLocationShare (i : ℕ) (p : ι) : ℕ :=
  S.colIndex (i + 1) S.numTCols (S.tStatisticsSquared i) p + S.tRowIdShare p * S.numTCols

/-! ## Places in a table -/

section Specification

variable [Fintype ι]

/-- The fronctocols on shared values: `Compare` compares the values, `TypeCastFromBit` keeps the
bit, `Multiply` leaves the product, and `Divide` has left statistics with reduced shares. -/
structure Ideal (strict : Bool) : Prop where
  compare : ∀ i x y, reconstructBit (S.selection.compare i x y) =
    if exceeds strict (reconstruct S.selection.startModulus x).val
      (reconstruct S.selection.startModulus y).val then 1 else 0
  compareEndModulus : ∀ i x y, reconstructBit (S.compareEndModulus i x y) =
    if exceeds strict (reconstruct S.endModulus x).val (reconstruct S.endModulus y).val then 1
    else 0
  typeCastFromBit : ∀ i x, reconstruct S.endModulus (S.selection.typeCastFromBit i x) =
    reconstructBit x
  typeCastFromBitLast : ∀ i x, reconstruct S.endModulus (S.typeCastFromBitLast i x) =
    reconstructBit x
  multiply : ∀ i x y, reconstruct S.endModulus (S.multiply i x y) =
    reconstruct S.endModulus x * reconstruct S.endModulus y
  modSub : ∀ a b, (S.selection.modSub a b S.selection.startModulus :
    ZMod S.selection.startModulus) = a - b
  modAdd : ∀ a b, S.selection.modAdd a b S.endModulus = (a + b) % S.endModulus
  fStatistic_lt : ∀ p, S.fStatistic p < S.endModulus
  tStatisticsSquared_lt : ∀ i p, S.tStatisticsSquared i p < S.endModulus

/-- What is shared: the number of joined rows, and statistics that are not negative. -/
structure Shares (count f : ℕ) (t : ℕ → ℕ) : Prop where
  joined : reconstruct S.selection.startModulus S.selection.count = (count : ℕ)
  numIVs_le : S.selection.numIVs ≤ count
  fStatistic : reconstruct S.endModulus S.fStatistic = (f : ℕ)
  fStatistic_lt : 2 * f < S.endModulus
  tStatistics : ∀ i < S.selection.numIVs,
    reconstruct S.endModulus (S.tStatisticsSquared i) = (t i : ℕ)
  tStatistics_lt : ∀ i < S.selection.numIVs, 2 * t i < S.endModulus

/-- Both tables have a row and a column. -/
structure Tables : Prop where
  fRowIds : S.fRowIds ≠ []
  tRowIds : S.tRowIds ≠ []
  numFCols : 1 ≤ S.numFCols
  numTCols : 1 ≤ S.numTCols

/-- The row that is selected: the number of rows but the last that the degrees of freedom exceed. -/
def selectedRow (strict : Bool) (count : ℕ) (rowIds : List ℕ) : ℕ :=
  rowIds.dropLast.countP fun rowId ↦
    exceeds strict ((count - S.selection.numIVs) % S.selection.startModulus)
      (rowId % S.selection.startModulus)

/-- The shares are canonical, and stand for the cell of the statistic or the last one of the row. -/
structure ReadsCell (location : ι → ℕ) (row numRows numCols statistic : ℕ) : Prop where
  row_lt : row < numRows
  index : (reconstruct S.endModulus location).val = row * numCols + min statistic (numCols - 1)
  inside : (reconstruct S.endModulus location).val < numRows * numCols
  canonical : ∀ p, location p < S.endModulus

/-- All lookups read the cells of their statistics. -/
structure ReadsCells (strict : Bool) (count f : ℕ) (t : ℕ → ℕ) : Prop where
  f : S.ReadsCell S.fLocationShare (S.selectedRow strict count S.fRowIds) S.fRowIds.length
    S.numFCols f
  t : ∀ i < S.selection.numIVs, S.ReadsCell (S.tLocationShare i)
    (S.selectedRow strict count S.tRowIds) S.tRowIds.length S.numTCols (t i)

/-- The cell lies below the modulus; the statistic is not the number of columns when `Compare` is
strict, or not beyond what the modulus leaves of it in a wider table; and no share of the place
reaches the modulus. -/
structure Fits (strict : Bool) (correction statisticShare rowIdShare : ι → ℕ)
    (row numCols statistic : ℕ) : Prop where
  cell_lt : row * numCols + min statistic (numCols - 1) < S.endModulus
  clamped : if exceeds strict statistic (numCols % S.endModulus) then numCols ≤ statistic + 1
    else statistic < numCols
  share_lt : ∀ p, (correction p + statisticShare p) % S.endModulus + rowIdShare p * numCols <
    S.endModulus

/-- All lookups fit. -/
structure AllFit (strict : Bool) (count f : ℕ) (t : ℕ → ℕ) : Prop where
  f : S.Fits strict (S.correction 0 S.numFCols S.fStatistic) S.fStatistic S.fRowIdShare
    (S.selectedRow strict count S.fRowIds) S.numFCols f
  t : ∀ i < S.selection.numIVs,
    S.Fits strict (S.correction (i + 1) S.numTCols (S.tStatisticsSquared i))
      (S.tStatisticsSquared i) S.tRowIdShare (S.selectedRow strict count S.tRowIds) S.numTCols (t i)

end Specification

/-! ## Shares of a place -/

variable {S} [Fintype ι] {strict : Bool} [Fact S.endModulus.Prime]

omit [DecidableEq ι] [Fintype ι] in
theorem two_le_endModulus : 2 ≤ S.endModulus := (Fact.out : S.endModulus.Prime).two_le

/-- The row, with the bits at any place of their batch. -/
theorem reconstruct_rowIdShare (h : S.Ideal strict) {count : ℕ}
    (hcount : reconstruct S.selection.startModulus S.selection.count = (count : ℕ))
    (hle : S.selection.numIVs ≤ count) (rowIds : List ℕ) (batchStart : ℕ) :
    reconstruct S.endModulus ({ S.selection with batchStart }.rowIdShare rowIds) =
      (S.selectedRow strict count rowIds : ℕ) := by
  have hdf : reconstruct S.selection.startModulus S.selection.degreesOfFreedom =
      (count - S.selection.numIVs : ℕ) := by
    apply RowSelection.reconstruct_degreesOfFreedom h.modSub
    rw [hcount, Nat.sub_add_cancel hle]
  apply RowSelection.reconstruct_rowIdShare_of_bits (S := { S.selection with batchStart }) h.modAdd
  intro rowId _ i
  refine (h.typeCastFromBit i _).trans (congrArg _ ?_)
  have hbit := h.compare i S.selection.degreesOfFreedom (S.selection.rowIdOperand rowId)
  have hright : reconstruct S.selection.startModulus (S.selection.rowIdOperand rowId) = rowId :=
    reconstruct_public S.selection.revealer rowId
  rw [hdf, hright, ZMod.val_natCast, ZMod.val_natCast] at hbit
  exact (Finset.sum_nat_mod _ _ _).symm.trans hbit

omit [DecidableEq ι] [Fintype ι] [Fact S.endModulus.Prime] in
/-- The last row does not count. -/
theorem selectedRow_lt (strict : Bool) (count : ℕ) {rowIds : List ℕ} (hne : rowIds ≠ []) :
    S.selectedRow strict count rowIds < rowIds.length := by
  have hpos := List.length_pos_of_ne_nil hne
  calc S.selectedRow strict count rowIds
      ≤ rowIds.dropLast.length := List.countP_le_length
    _ < rowIds.length := by
      rw [List.length_dropLast]
      omega

theorem reconstruct_overflowBit (h : S.Ideal strict) (i numCols : ℕ) {x : ι → ℕ} {statistic : ℕ}
    (hx : reconstruct S.endModulus x = (statistic : ℕ)) (hlt : statistic < S.endModulus) :
    reconstruct S.endModulus (S.overflowBit i numCols x) =
      ((if exceeds strict statistic (numCols % S.endModulus) then 1 else 0 : ℕ)) := by
  have hbit := h.compareEndModulus i x (S.numColsOperand numCols)
  have hright : reconstruct S.endModulus (S.numColsOperand numCols) = numCols :=
    reconstruct_public S.selection.revealer numCols
  rw [hx, hright, ZMod.val_natCast, ZMod.val_natCast, Nat.mod_eq_of_lt hlt] at hbit
  refine (h.typeCastFromBitLast i _).trans (congrArg _ ?_)
  exact (Finset.sum_nat_mod _ _ _).symm.trans hbit

theorem reconstruct_excess (numCols : ℕ) {x : ι → ℕ} (hle : ∀ p, x p < S.endModulus) :
    reconstruct S.endModulus (S.excess numCols x) =
      (numCols - 1 : ℕ) - reconstruct S.endModulus x := by
  have hsplit : ∀ p, (S.excess numCols x p : ZMod S.endModulus) =
      S.numColsOperand (numCols - 1) p - x p := by
    intro p
    rw [excess, Nat.cast_sub ((hle p).le.trans (Nat.le_add_left _ _)), Nat.cast_add,
      ZMod.natCast_self, add_zero]
  have hpublic : reconstruct S.endModulus (S.numColsOperand (numCols - 1)) = (numCols - 1 : ℕ) :=
    reconstruct_public S.selection.revealer (numCols - 1)
  rw [reconstruct]
  simp only [hsplit, Finset.sum_sub_distrib]
  rw [← reconstruct, ← reconstruct, hpublic]

/-- The bit decides between the statistic and the last column. -/
theorem reconstruct_colIndex (h : S.Ideal strict) (i numCols : ℕ) {x : ι → ℕ} {statistic : ℕ}
    (hle : ∀ p, x p < S.endModulus) (hx : reconstruct S.endModulus x = (statistic : ℕ))
    (hlt : statistic < S.endModulus) :
    reconstruct S.endModulus (S.colIndex i numCols x) =
      ((if exceeds strict statistic (numCols % S.endModulus) then numCols - 1
        else statistic : ℕ)) := by
  have hsum : reconstruct S.endModulus (S.colIndex i numCols x) =
      reconstruct S.endModulus (S.correction i numCols x) + reconstruct S.endModulus x := by
    rw [← reconstruct_add, ← reconstruct_mod (fun p ↦ S.correction i numCols x p + x p)]
    exact reconstruct_congr fun p ↦ congrArg _ (h.modAdd _ _)
  rw [hsum, correction, h.multiply, reconstruct_overflowBit h i numCols hx hlt,
    reconstruct_excess numCols hle, hx]
  split <;> simp

/-! ## The last column -/

/-- The place that is opened is the right one exactly when the cell is below the modulus and the
bit tells whether the statistic is beyond the columns. -/
theorem place_iff {m row numCols statistic : ℕ} (hm : 2 ≤ m) (hcols : 1 ≤ numCols)
    (hstatistic : 2 * statistic < m) :
    (row * numCols +
        if exceeds strict statistic (numCols % m) then numCols - 1 else statistic) % m =
        row * numCols + min statistic (numCols - 1) ↔
      row * numCols + min statistic (numCols - 1) < m ∧
        if exceeds strict statistic (numCols % m) then numCols ≤ statistic + 1
        else statistic < numCols := by
  by_cases hexceeds : exceeds strict statistic (numCols % m)
  · rw [if_pos hexceeds, if_pos hexceeds]
    constructor
    · intro h
      have hcell : row * numCols + min statistic (numCols - 1) < m := h ▸ Nat.mod_lt _ (by omega)
      refine ⟨hcell, ?_⟩
      by_contra hshort
      -- a multiple of the modulus lies between the statistic and the last column
      have hmin : min statistic (numCols - 1) = statistic := by omega
      rw [hmin] at h hcell
      have hmod : numCols - 1 ≡ statistic [MOD m] := by
        apply Nat.ModEq.add_left_cancel' (row * numCols)
        rw [Nat.ModEq, h, Nat.mod_eq_of_lt hcell]
      have hnext : numCols % m = statistic + 1 := by
        have hsucc : numCols - 1 + 1 ≡ statistic + 1 [MOD m] := hmod.add_right 1
        rwa [Nat.sub_add_cancel hcols, Nat.ModEq,
          Nat.mod_eq_of_lt (show statistic + 1 < m by omega)] at hsucc
      rw [exceeds, hnext] at hexceeds
      split at hexceeds <;> omega
    · rintro ⟨hcell, hclamped⟩
      have hmin : min statistic (numCols - 1) = numCols - 1 := by omega
      rw [hmin] at hcell ⊢
      exact Nat.mod_eq_of_lt hcell
  · rw [if_neg hexceeds, if_neg hexceeds]
    constructor
    · intro h
      have hcell : row * numCols + min statistic (numCols - 1) < m := h ▸ Nat.mod_lt _ (by omega)
      refine ⟨hcell, ?_⟩
      by_contra hlarge
      have hmin : min statistic (numCols - 1) = numCols - 1 := by omega
      rw [hmin] at h hcell
      have hmod : statistic ≡ numCols - 1 [MOD m] := by
        apply Nat.ModEq.add_left_cancel' (row * numCols)
        rw [Nat.ModEq, h, Nat.mod_eq_of_lt hcell]
      have heq : statistic = numCols - 1 := by
        rwa [Nat.ModEq, Nat.mod_eq_of_lt (by omega), Nat.mod_eq_of_lt (by omega)] at hmod
      omega
    · rintro ⟨hcell, hclamped⟩
      have hmin : min statistic (numCols - 1) = statistic := by omega
      rw [hmin] at hcell ⊢
      exact Nat.mod_eq_of_lt hcell

/-- One lookup, from the shares of its row. -/
theorem readsCell_iff (h : S.Ideal strict) {i row numRows numCols statistic : ℕ}
    {x rowIdShare : ι → ℕ} (hrow : row < numRows) (hcols : 1 ≤ numCols)
    (hle : ∀ p, x p < S.endModulus) (hx : reconstruct S.endModulus x = (statistic : ℕ))
    (hstatistic : 2 * statistic < S.endModulus)
    (hshare : reconstruct S.endModulus rowIdShare = (row : ℕ)) :
    S.ReadsCell (fun p ↦ S.colIndex i numCols x p + rowIdShare p * numCols) row numRows numCols
        statistic ↔
      S.Fits strict (S.correction i numCols x) x rowIdShare row numCols statistic := by
  have hopened : (reconstruct S.endModulus
      fun p ↦ S.colIndex i numCols x p + rowIdShare p * numCols).val =
        (row * numCols + if exceeds strict statistic (numCols % S.endModulus) then numCols - 1
          else statistic) % S.endModulus := by
    have hproduct : (reconstruct S.endModulus fun p ↦ rowIdShare p * numCols) =
        (row * numCols : ℕ) := by
      rw [reconstruct, Nat.cast_mul, ← hshare, reconstruct, Finset.sum_mul]
      simp
    rw [reconstruct_add, reconstruct_colIndex h i numCols hle hx (by omega), hproduct,
      ← Nat.cast_add, ZMod.val_natCast, Nat.add_comm]
  have hplace := @place_iff strict _ row _ _ (two_le_endModulus (S := S)) hcols hstatistic
  have hcanonical : (∀ p, S.colIndex i numCols x p + rowIdShare p * numCols < S.endModulus) ↔
      ∀ p, (S.correction i numCols x p + x p) % S.endModulus + rowIdShare p * numCols <
        S.endModulus := by
    simp only [colIndex, h.modAdd]
  constructor
  · rintro ⟨-, hindex, -, hshares⟩
    obtain ⟨hcell, hclamped⟩ := hplace.mp (hopened.symm.trans hindex)
    exact ⟨hcell, hclamped, hcanonical.mp hshares⟩
  · rintro ⟨hcell, hclamped, hshares⟩
    have hindex := hopened.trans (hplace.mpr ⟨hcell, hclamped⟩)
    refine ⟨hrow, hindex, ?_, hcanonical.mpr hshares⟩
    rw [hindex]
    calc row * numCols + min statistic (numCols - 1)
        < row * numCols + numCols := by omega
      _ = (row + 1) * numCols := (Nat.succ_mul row numCols).symm
      _ ≤ numRows * numCols := Nat.mul_le_mul_right numCols hrow

end FtLookup

/-! ## Two small tables -/

open Numerals in
/-- Three degrees of freedom and one statistic, all of whose shares the first party holds; the F
table has three columns. -/
def twoOwners (f : ℕ) : FtLookup (Fin 2) where
  selection := twoParties 3
  compareEndModulus := fun _ x y p ↦
    if p = 0 then (if (y 0 + y 1) % 103 < (x 0 + x 1) % 103 then 1 else 0) else 0
  typeCastFromBitLast := fun _ x p ↦ if p = 0 then (x 0 + x 1) % 2 else 0
  multiply := fun _ x y p ↦ if p = 0 then (x 0 + x 1) * (y 0 + y 1) % 103 else 0
  fRowIds := [1, 2, 4]
  tRowIds := [1, 2]
  numFCols := 3
  numTCols := 2
  fStatistic := fun p ↦ if p = 0 then f % 103 else 0
  tStatisticsSquared := fun _ _ ↦ 0

theorem prime_twoOwners (f : ℕ) : (twoOwners f).endModulus.Prime := by
  show Nat.Prime 103
  decide

theorem val_reconstruct_two (m : ℕ) (x : Fin 2 → ℕ) :
    (reconstruct m x).val = (x 0 + x 1) % m := by
  rw [reconstruct, Fin.sum_univ_two, ← Nat.cast_add, ZMod.val_natCast]

theorem twoOwners_ideal (f : ℕ) : (twoOwners f).Ideal true where
  compare := by
    intro i x y
    rw [val_reconstruct_two, val_reconstruct_two, reconstructBit, Fin.sum_univ_two]
    show (if (y 0 + y 1) % 101 < (x 0 + x 1) % 101 then 1 else 0) % 2 =
      if (y 0 + y 1) % 101 < (x 0 + x 1) % 101 then 1 else 0
    split <;> rfl
  compareEndModulus := by
    intro i x y
    rw [val_reconstruct_two, val_reconstruct_two, reconstructBit, Fin.sum_univ_two]
    show (if (y 0 + y 1) % 103 < (x 0 + x 1) % 103 then 1 else 0) % 2 =
      if (y 0 + y 1) % 103 < (x 0 + x 1) % 103 then 1 else 0
    split <;> rfl
  typeCastFromBit := (twoParties_ideal 3).typeCastFromBit
  typeCastFromBitLast := (twoParties_ideal 3).typeCastFromBit
  multiply := by
    intro i x y
    show reconstruct 103 (fun p ↦ if p = 0 then (x 0 + x 1) * (y 0 + y 1) % 103 else 0) =
      reconstruct 103 x * reconstruct 103 y
    simp [reconstruct, Fin.sum_univ_two]
  modSub := (twoParties_ideal 3).modSub
  modAdd := fun _ _ ↦ rfl
  fStatistic_lt := by
    intro p
    show (if p = 0 then f % 103 else 0) < 103
    split
    · exact Nat.mod_lt f (by decide)
    · decide
  tStatisticsSquared_lt := fun _ _ ↦ by
    show 0 < 103
    decide

theorem twoOwners_tables (f : ℕ) : (twoOwners f).Tables :=
  ⟨by simp [twoOwners], by simp [twoOwners], Nat.succ_le_succ (Nat.zero_le 2),
    Nat.succ_le_succ (Nat.zero_le 1)⟩

theorem twoOwners_shares {f : ℕ} (hf : 2 * f < 103) : (twoOwners f).Shares 5 f fun _ ↦ 0 where
  joined := by
    show reconstruct 101 (fun p : Fin 2 ↦ if p = 0 then 3 + 2 else 0) = (5 : ℕ)
    simp [reconstruct]
  numIVs_le := Nat.le_add_left 2 3
  fStatistic := by
    show reconstruct 103 (fun p : Fin 2 ↦ if p = 0 then f % 103 else 0) = (f : ℕ)
    simp [reconstruct]
  fStatistic_lt := hf
  tStatistics := by
    intro i _
    show reconstruct 103 (fun _ : Fin 2 ↦ 0) = (0 : ℕ)
    simp [reconstruct]
  tStatistics_lt := fun _ _ ↦ Nat.succ_pos 102

end Safrn.Stats
