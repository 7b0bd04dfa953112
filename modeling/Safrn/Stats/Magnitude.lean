import Mathlib.Algebra.Order.Chebyshev
import Safrn.Stats.Headroom

/-!
# The magnitude of the sums and operands of a regression

Variables of absolute value at most 1 bound the sums over the rows, the solution of the normal
equations and the operands of the divisions. `startModulus` and `endModulus` exceed twice these
bounds, but for a single variable, and but for the shifts of the `F` and `t` statistics, which are
those of the lookup tables.
-/

namespace Safrn.Stats

open Safrn.Base Matrix

/-- A value of absolute value at most 1 is at most the scale. -/
theorem abs_fixedPoint_le {val : ℚ} (h : |val| ≤ 1) (bits : ℕ) :
    |fixedPoint val bits| ≤ 2 ^ bits := by
  have hround : ∀ v : ℚ, 0 ≤ v → v ≤ 1 → |⌊v * 2 ^ bits + 1 / 2⌋| ≤ 2 ^ bits := by
    intro v hv₀ hv₁
    have hpos : (0 : ℚ) ≤ v * 2 ^ bits := by positivity
    have hle : v * 2 ^ bits ≤ 2 ^ bits := mul_le_of_le_one_left (by positivity) hv₁
    have hfloor : (0 : ℤ) ≤ ⌊v * 2 ^ bits + 1 / 2⌋ := Int.floor_nonneg.mpr (by linarith)
    rw [abs_of_nonneg hfloor]
    apply Int.le_of_lt_add_one
    apply Int.floor_lt.mpr
    push_cast
    linarith
  obtain ⟨hlow, hhigh⟩ := abs_le.mp h
  unfold fixedPoint
  split
  · next hneg =>
    rw [abs_neg]
    exact hround (-val) (by linarith) (by linarith)
  · next hneg => exact hround val (le_of_not_gt hneg) hhigh

namespace Precision

variable (P : Precision) (n : ℕ)

/-- The bound of the entries of the matrix. -/
def gramBound : ℕ := P.maxIntersectionSize * 2 ^ (2 * P.bitsOfPrecision)

/-- The bound of the entries of the adjugate. -/
def adjugateBound : ℕ := (n - 1).factorial * P.gramBound ^ (n - 1)

/-- The bound of the sum of `y * y`. -/
def ySquaredBound : ℕ := P.maxIntersectionSize * 2 ^ (4 * P.bitsOfPrecision)

/-- The bound of the residual sum of squares. A single coefficient that is truncated leaves no more
than the sum of `y * y`; the truncation of several adds up to all entries of the matrix. -/
def residualBound : ℕ := P.ySquaredBound + (if n = 1 then 0 else n ^ 2) * P.gramBound

/-- The bounds of the operands. -/
def operandBound : Operand n → ℕ
  | .numerMSE => P.residualBound n * 2 ^ P.bitsOfPrecision
  | .denomMSE => P.maxIntersectionSize - n
  | .numerRSquared => P.maxIntersectionSize * P.residualBound n * 2 ^ P.bitsOfPrecision
  | .denomRSquared => P.maxIntersectionSize * P.ySquaredBound
  | .xTXInvDiagSE _ => P.adjugateBound n * P.residualBound n * 2 ^ (2 * P.bitsOfPrecision)
  | .denomMSEReweighted => n.factorial * P.gramBound ^ n * (P.maxIntersectionSize - n)
  | .numerFStatistic =>
    P.maxIntersectionSize * P.residualBound n * (P.maxIntersectionSize - n) *
      2 ^ P.fColsBitsOfPrecision
  | .denomFStatistic => n * (P.maxIntersectionSize * P.residualBound n) * P.fColsStepSize
  | .tStatisticNumerators _ =>
    P.adjugateBound n * P.ySquaredBound * (P.maxIntersectionSize - n) *
      2 ^ P.tColsBitsOfPrecision
  | .tStatisticDenominators _ => P.adjugateBound n * P.residualBound n * P.tColsStepSize

end Precision

/-! ## The bounds -/

namespace JoinedRows

variable {n : ℕ} {rows : JoinedRows n} {P : Precision}

theorem abs_X_le (b : ℕ) (k : Fin rows.numRows) (i : Fin n) : |rows.X b k i| ≤ 2 ^ b :=
  abs_fixedPoint_le (rows.abs_x_le k i) b

theorem abs_Y_le (b : ℕ) (k : Fin rows.numRows) : |rows.Y b k| ≤ 2 ^ (2 * b) :=
  abs_fixedPoint_le (rows.abs_y_le k) (2 * b)

/-- The rows are no more than the bound. -/
private theorem mul_rows_le (hrows : rows.numRows ≤ P.maxIntersectionSize) {c : ℤ} (hc : 0 ≤ c) :
    rows.numRows * c ≤ P.maxIntersectionSize * c :=
  mul_le_mul_of_nonneg_right (by exact_mod_cast hrows) hc

theorem abs_gram_le (hrows : rows.numRows ≤ P.maxIntersectionSize) (i j : Fin n) :
    |rows.gram P.bitsOfPrecision i j| ≤ P.gramBound := by
  calc |rows.gram P.bitsOfPrecision i j|
      ≤ rows.numRows * (2 ^ P.bitsOfPrecision * 2 ^ P.bitsOfPrecision) :=
        abs_sum_mul_le (fun k ↦ abs_X_le _ k i) fun k ↦ abs_X_le _ k j
    _ ≤ P.maxIntersectionSize * (2 ^ P.bitsOfPrecision * 2 ^ P.bitsOfPrecision) :=
        mul_rows_le hrows (by positivity)
    _ = P.gramBound := by
        rw [Precision.gramBound]
        push_cast
        ring

theorem abs_moments_le (hrows : rows.numRows ≤ P.maxIntersectionSize) (i : Fin n) :
    |rows.moments P.bitsOfPrecision i| ≤
      P.maxIntersectionSize * 2 ^ (3 * P.bitsOfPrecision) := by
  calc |rows.moments P.bitsOfPrecision i|
      ≤ rows.numRows * (2 ^ P.bitsOfPrecision * 2 ^ (2 * P.bitsOfPrecision)) :=
        abs_sum_mul_le (fun k ↦ abs_X_le _ k i) fun k ↦ abs_Y_le _ k
    _ ≤ P.maxIntersectionSize * (2 ^ P.bitsOfPrecision * 2 ^ (2 * P.bitsOfPrecision)) :=
        mul_rows_le hrows (by positivity)
    _ = P.maxIntersectionSize * 2 ^ (3 * P.bitsOfPrecision) := by ring

theorem ySquared_nonneg (b : ℕ) : 0 ≤ rows.ySquared b :=
  Finset.sum_nonneg fun _ _ ↦ sq_nonneg _

theorem ySquared_le (hrows : rows.numRows ≤ P.maxIntersectionSize) :
    rows.ySquared P.bitsOfPrecision ≤ P.ySquaredBound := by
  have hY : ∀ k, |rows.Y P.bitsOfPrecision k| ≤ 2 ^ (2 * P.bitsOfPrecision) := abs_Y_le _
  have hsum := abs_sum_mul_le hY hY
  calc rows.ySquared P.bitsOfPrecision
      = ∑ k, rows.Y P.bitsOfPrecision k * rows.Y P.bitsOfPrecision k := by
        simp only [ySquared, sq]
    _ ≤ rows.numRows * (2 ^ (2 * P.bitsOfPrecision) * 2 ^ (2 * P.bitsOfPrecision)) :=
        (le_abs_self _).trans hsum
    _ ≤ P.maxIntersectionSize * (2 ^ (2 * P.bitsOfPrecision) * 2 ^ (2 * P.bitsOfPrecision)) :=
        mul_rows_le hrows (by positivity)
    _ = P.ySquaredBound := by
        rw [Precision.ySquaredBound]
        push_cast
        ring

theorem abs_ySum_le (hrows : rows.numRows ≤ P.maxIntersectionSize) :
    |rows.ySum P.bitsOfPrecision| ≤ P.gramBound := by
  calc |rows.ySum P.bitsOfPrecision| ≤ ∑ k, |rows.Y P.bitsOfPrecision k| :=
        Finset.abs_sum_le_sum_abs _ _
    _ ≤ ∑ _k : Fin rows.numRows, 2 ^ (2 * P.bitsOfPrecision) :=
        Finset.sum_le_sum fun k _ ↦ abs_Y_le _ k
    _ = rows.numRows * 2 ^ (2 * P.bitsOfPrecision) := by simp
    _ ≤ P.maxIntersectionSize * 2 ^ (2 * P.bitsOfPrecision) :=
        mul_rows_le hrows (by positivity)
    _ = P.gramBound := by
        rw [Precision.gramBound]
        push_cast
        ring

theorem det_nonneg (b : ℕ) : 0 ≤ rows.det b := det_gram_nonneg _

theorem det_le (hrows : rows.numRows ≤ P.maxIntersectionSize) :
    rows.det P.bitsOfPrecision ≤ (n.factorial * P.gramBound ^ n : ℕ) := by
  have hle := abs_det_le (abs_gram_le (P := P) hrows)
  push_cast
  exact (le_abs_self _).trans hle

theorem abs_adjugate_le' (hrows : rows.numRows ≤ P.maxIntersectionSize) (i j : Fin n) :
    |(rows.gram P.bitsOfPrecision).adjugate i j| ≤ P.adjugateBound n := by
  have hle := abs_adjugate_le (abs_gram_le (P := P) hrows) i j
  rw [Precision.adjugateBound]
  push_cast
  exact hle

theorem abs_regressionMultiplyOutput_le (hrows : rows.numRows ≤ P.maxIntersectionSize)
    (i : Fin n) : |rows.regressionMultiplyOutput P.bitsOfPrecision i| ≤
      (n * (P.adjugateBound n *
        (P.maxIntersectionSize * 2 ^ (3 * P.bitsOfPrecision))) : ℕ) := by
  push_cast
  exact abs_sum_mul_le (fun j ↦ abs_adjugate_le' hrows i j) (abs_moments_le hrows)

theorem numerMSE_eq (b : ℕ) : rows.numerMSE b = residual (rows.X b) (rows.Y b) (rows.beta b) :=
  (residual_eq _).symm

theorem numerMSE_nonneg (b : ℕ) : 0 ≤ rows.numerMSE b := by
  rw [numerMSE_eq]
  exact residual_nonneg _

theorem numerMSE_le (hrows : rows.numRows ≤ P.maxIntersectionSize)
    (hdet : rows.det P.bitsOfPrecision ≠ 0) :
    rows.numerMSE P.bitsOfPrecision ≤ P.residualBound n := by
  have hY := ySquared_le (P := P) hrows
  rw [numerMSE_eq]
  unfold Precision.residualBound
  split
  · next hn =>
    subst hn
    calc residual (rows.X P.bitsOfPrecision) (rows.Y P.bitsOfPrecision)
          (rows.beta P.bitsOfPrecision) ≤ rows.ySquared P.bitsOfPrecision :=
        residual_tdiv_le_of_one hdet
      _ ≤ P.ySquaredBound := hY
      _ = (P.ySquaredBound + 0 * P.gramBound : ℕ) := by simp
  · calc residual (rows.X P.bitsOfPrecision) (rows.Y P.bitsOfPrecision)
          (rows.beta P.bitsOfPrecision)
        ≤ rows.ySquared P.bitsOfPrecision + n ^ 2 * P.gramBound :=
        residual_tdiv_le (abs_gram_le hrows) hdet
      _ ≤ (P.ySquaredBound + n ^ 2 * P.gramBound : ℕ) := by
        push_cast
        linarith

theorem denomMSE_bounds (hrows : rows.numRows ≤ P.maxIntersectionSize)
    (hdet : rows.det P.bitsOfPrecision ≠ 0) :
    0 ≤ rows.denomMSE ∧ rows.denomMSE ≤ (P.maxIntersectionSize - n : ℕ) := by
  have hle := le_rows_of_det_ne_zero hdet
  unfold denomMSE
  omega

theorem denomRSquared_bounds (hrows : rows.numRows ≤ P.maxIntersectionSize)
    (fitIntercept : Bool) : 0 ≤ rows.denomRSquared P.bitsOfPrecision fitIntercept ∧
      rows.denomRSquared P.bitsOfPrecision fitIntercept ≤
        (P.maxIntersectionSize * P.ySquaredBound : ℕ) := by
  have hY := ySquared_le (P := P) hrows
  have hY₀ : 0 ≤ rows.ySquared P.bitsOfPrecision := ySquared_nonneg _
  have hproduct : rows.numRows * rows.ySquared P.bitsOfPrecision ≤
      (P.maxIntersectionSize * P.ySquaredBound : ℕ) := by
    push_cast
    exact mul_le_mul (by exact_mod_cast hrows) hY hY₀ (by positivity)
  -- the square of the sum is at most the number of rows times the sum of the squares
  have hcauchy : rows.ySum P.bitsOfPrecision ^ 2 ≤
      rows.numRows * rows.ySquared P.bitsOfPrecision := by
    have hsq := sq_sum_le_card_mul_sum_sq (s := Finset.univ) (f := rows.Y P.bitsOfPrecision)
    rwa [Finset.card_univ, Fintype.card_fin] at hsq
  unfold denomRSquared
  cases fitIntercept with
  | false =>
    constructor
    · simp only [Bool.false_eq_true, ↓reduceIte, sub_zero]
      positivity
    · simpa using hproduct
  | true =>
    have hsq := sq_nonneg (rows.ySum P.bitsOfPrecision)
    rw [if_pos rfl]
    constructor <;> linarith

/-- The sums of all rows and of the residuals, over all rows. -/
private theorem rows_mul_numerMSE_bounds (hrows : rows.numRows ≤ P.maxIntersectionSize)
    (hdet : rows.det P.bitsOfPrecision ≠ 0) :
    0 ≤ rows.numRows * rows.numerMSE P.bitsOfPrecision ∧
      rows.numRows * rows.numerMSE P.bitsOfPrecision ≤
        (P.maxIntersectionSize * P.residualBound n : ℕ) := by
  have hnonneg : 0 ≤ rows.numerMSE P.bitsOfPrecision := numerMSE_nonneg _
  constructor
  · positivity
  · push_cast
    exact mul_le_mul (by exact_mod_cast hrows) (numerMSE_le hrows hdet) hnonneg (by positivity)

theorem abs_numerRSquared_le (hrows : rows.numRows ≤ P.maxIntersectionSize)
    (hdet : rows.det P.bitsOfPrecision ≠ 0) (fitIntercept : Bool) :
    |rows.numerRSquared P.bitsOfPrecision fitIntercept| ≤
      (P.maxIntersectionSize * P.residualBound n : ℕ) := by
  obtain ⟨htotal₀, htotal⟩ := denomRSquared_bounds (P := P) hrows fitIntercept
  obtain ⟨hres₀, hres⟩ := rows_mul_numerMSE_bounds hrows hdet
  have hle : P.maxIntersectionSize * P.ySquaredBound ≤
      P.maxIntersectionSize * P.residualBound n :=
    Nat.mul_le_mul_left _ (Nat.le_add_right _ _)
  have hle' : ((P.maxIntersectionSize * P.ySquaredBound : ℕ) : ℤ) ≤
      (P.maxIntersectionSize * P.residualBound n : ℕ) := by exact_mod_cast hle
  rw [numerRSquared, abs_le]
  constructor <;> linarith

theorem xTXInvDiagSE_bounds (hrows : rows.numRows ≤ P.maxIntersectionSize)
    (hdet : rows.det P.bitsOfPrecision ≠ 0) (i : Fin n) :
    |rows.xTXInvDiagSE P.bitsOfPrecision i| ≤ (P.adjugateBound n * P.residualBound n : ℕ) := by
  have hnonneg : 0 ≤ rows.numerMSE P.bitsOfPrecision := numerMSE_nonneg _
  rw [xTXInvDiagSE, abs_mul, abs_of_nonneg hnonneg]
  push_cast
  exact mul_le_mul (abs_adjugate_le' hrows i i) (numerMSE_le hrows hdet) hnonneg (by positivity)

theorem denomMSEReweighted_bounds (hrows : rows.numRows ≤ P.maxIntersectionSize)
    (hdet : rows.det P.bitsOfPrecision ≠ 0) :
    |rows.denomMSEReweighted P.bitsOfPrecision| ≤
      (n.factorial * P.gramBound ^ n * (P.maxIntersectionSize - n) : ℕ) := by
  obtain ⟨hfree₀, hfree⟩ := denomMSE_bounds hrows hdet
  have hdet₀ : 0 ≤ rows.det P.bitsOfPrecision := det_nonneg _
  rw [denomMSEReweighted, abs_mul, abs_of_nonneg hdet₀, abs_of_nonneg hfree₀, Nat.cast_mul]
  exact mul_le_mul (det_le hrows) hfree hfree₀ (by positivity)

/-- The square of a truncated coefficient, times the determinant. -/
theorem det_mul_beta_sq_le (hrows : rows.numRows ≤ P.maxIntersectionSize)
    (hdet : rows.det P.bitsOfPrecision ≠ 0) (i : Fin n) :
    rows.det P.bitsOfPrecision * rows.beta P.bitsOfPrecision i ^ 2 ≤
      (P.adjugateBound n * P.ySquaredBound : ℕ) := by
  let c := rows.regressionMultiplyOutput P.bitsOfPrecision i
  let d := rows.det P.bitsOfPrecision
  let β := rows.beta P.bitsOfPrecision i
  let a := (rows.gram P.bitsOfPrecision).adjugate i i
  have hpos : 0 < d := lt_of_le_of_ne (det_nonneg _) (Ne.symm hdet)
  have hcauchy : c ^ 2 ≤ d * a * rows.ySquared P.bitsOfPrecision :=
    adjugate_mulVec_sq_le (rows.X P.bitsOfPrecision) (rows.Y P.bitsOfPrecision) i
  have hquotient : (d * β) ^ 2 ≤ c ^ 2 := by
    apply sq_le_sq.mpr
    have hdvd : d * β = c - c.tmod d := by
      have hsplit := Int.mul_tdiv_add_tmod c d
      show d * c.tdiv d = c - c.tmod d
      omega
    rw [hdvd]
    have hle : ((c.tdiv d) * d).natAbs ≤ c.natAbs := by
      rw [Int.natAbs_mul, Int.natAbs_tdiv]
      exact Nat.div_mul_le_self _ _
    rw [← hdvd, Int.abs_eq_natAbs, Int.abs_eq_natAbs, mul_comm d β]
    exact_mod_cast hle
  have hscaled : d * (d * β ^ 2) ≤ d * (a * rows.ySquared P.bitsOfPrecision) := by
    calc d * (d * β ^ 2) = (d * β) ^ 2 := by ring
      _ ≤ c ^ 2 := hquotient
      _ ≤ d * a * rows.ySquared P.bitsOfPrecision := hcauchy
      _ = d * (a * rows.ySquared P.bitsOfPrecision) := by ring
  calc d * β ^ 2 ≤ a * rows.ySquared P.bitsOfPrecision := le_of_mul_le_mul_left hscaled hpos
    _ ≤ |a| * rows.ySquared P.bitsOfPrecision :=
        mul_le_mul_of_nonneg_right (le_abs_self a) (ySquared_nonneg _)
    _ ≤ P.adjugateBound n * P.ySquaredBound :=
        mul_le_mul (abs_adjugate_le' hrows i i) (ySquared_le hrows) (ySquared_nonneg _)
          (by positivity)
    _ = (P.adjugateBound n * P.ySquaredBound : ℕ) := by push_cast; rfl

/-- Every operand is within its bound. -/
theorem abs_operand_le (hrows : rows.numRows ≤ P.maxIntersectionSize)
    (hdet : rows.det P.bitsOfPrecision ≠ 0) (fitIntercept : Bool) (o : Operand n) :
    |rows.operand P fitIntercept o| ≤ (P.operandBound n o : ℕ) := by
  have hshift : ∀ {x : ℤ} {bound c : ℕ}, |x| ≤ bound → |x * c| ≤ (bound * c : ℕ) := by
    intro x bound c hx
    rw [abs_mul, Nat.abs_cast, Nat.cast_mul]
    exact mul_le_mul_of_nonneg_right hx (by positivity)
  have hpow : ∀ k : ℕ, ((2 ^ k : ℕ) : ℤ) = 2 ^ k := fun k ↦ by push_cast; rfl
  have hmse : |rows.numerMSE P.bitsOfPrecision| ≤ P.residualBound n := by
    rw [abs_of_nonneg (numerMSE_nonneg _)]
    exact numerMSE_le hrows hdet
  obtain ⟨hfree₀, hfree⟩ := denomMSE_bounds hrows hdet
  have hfreeAbs : |rows.denomMSE| ≤ (P.maxIntersectionSize - n : ℕ) := by
    rwa [abs_of_nonneg hfree₀]
  cases o with
  | numerMSE =>
    rw [operand, ← hpow]
    exact hshift hmse
  | denomMSE => exact hfreeAbs
  | numerRSquared =>
    rw [operand, ← hpow]
    exact hshift (abs_numerRSquared_le hrows hdet fitIntercept)
  | denomRSquared =>
    obtain ⟨htotal₀, htotal⟩ := denomRSquared_bounds (P := P) hrows fitIntercept
    rw [operand, abs_of_nonneg htotal₀]
    exact htotal
  | xTXInvDiagSE i =>
    rw [operand, ← hpow]
    exact hshift (xTXInvDiagSE_bounds hrows hdet i)
  | denomMSEReweighted => exact denomMSEReweighted_bounds hrows hdet
  | numerFStatistic =>
    rw [operand, ← hpow]
    apply hshift
    rw [abs_mul, Nat.cast_mul]
    exact mul_le_mul (abs_numerRSquared_le hrows hdet fitIntercept) hfreeAbs (abs_nonneg _)
      (by positivity)
  | denomFStatistic =>
    obtain ⟨hres₀, hres⟩ := rows_mul_numerMSE_bounds hrows hdet
    apply hshift
    rw [abs_mul, Nat.abs_cast, abs_of_nonneg hres₀, Nat.cast_mul]
    exact mul_le_mul_of_nonneg_left hres (by positivity)
  | tStatisticNumerators i =>
    rw [operand, ← hpow]
    apply hshift
    have hdet₀ : 0 ≤ rows.det P.bitsOfPrecision := det_nonneg _
    have hsplit : rows.denomMSEReweighted P.bitsOfPrecision *
        rows.beta P.bitsOfPrecision i ^ 2 =
        rows.det P.bitsOfPrecision * rows.beta P.bitsOfPrecision i ^ 2 * rows.denomMSE := by
      rw [denomMSEReweighted]
      ring
    rw [hsplit, abs_mul, abs_of_nonneg (mul_nonneg hdet₀ (sq_nonneg _)), Nat.cast_mul]
    exact mul_le_mul (det_mul_beta_sq_le hrows hdet i) hfreeAbs (abs_nonneg _) (by positivity)
  | tStatisticDenominators i => exact hshift (xTXInvDiagSE_bounds hrows hdet i)

end JoinedRows

/-! ## The moduli -/

namespace Precision

variable (P : Precision)

/-- What the moduli do not provide for: the shifts of a single variable's statistics, and those of
the `F` and `t` statistics. -/
structure Fits (n q : ℕ) : Prop where
  numerRSquared : n = 1 →
    2 * (P.maxIntersectionSize ^ 2 * 2 ^ (5 * P.bitsOfPrecision)) < q
  xTXInvDiagSE : n = 1 → 2 * (P.maxIntersectionSize * 2 ^ (6 * P.bitsOfPrecision)) < q
  numerFStatistic : 2 * (P.maxIntersectionSize * P.residualBound n *
    (P.maxIntersectionSize - n) * 2 ^ P.fColsBitsOfPrecision) < q
  denomFStatistic :
    2 * (n * (P.maxIntersectionSize * P.residualBound n) * P.fColsStepSize) < q
  tStatisticNumerators : 2 * (P.adjugateBound n * P.ySquaredBound *
    (P.maxIntersectionSize - n) * 2 ^ P.tColsBitsOfPrecision) < q
  tStatisticDenominators :
    2 * (P.adjugateBound n * P.residualBound n * P.tColsStepSize) < q

variable {P} {nextPrime : ℕ → ℕ}

theorem le_endModulus (hnext : ∀ k, k ≤ nextPrime k) (n : ℕ) :
    16 ^ n * (n * P.gramBound) ^ (2 * n) ≤ endModulus nextPrime P n := by
  let size := n * 2 ^ (2 * P.bitsOfPrecision + 2) * P.maxIntersectionSize
  calc 16 ^ n * (n * P.gramBound) ^ (2 * n) = (size ^ n) ^ 2 := by
        have hsize : size = 4 * (n * P.gramBound) := by
          simp only [size, gramBound]
          ring
        have hbase : 16 ^ n = (4 ^ n) ^ 2 := by
          rw [← pow_mul, Nat.mul_comm n 2, pow_mul]
          norm_num
        rw [hsize, mul_pow 4 _ n, mul_pow (4 ^ n), hbase, ← pow_mul (n * P.gramBound),
          Nat.mul_comm n 2]
    _ ≤ (2 ^ Nat.clog 2 (size ^ n)) ^ 2 :=
        Nat.pow_le_pow_left (Nat.le_pow_clog Nat.one_lt_two _) 2
    _ = 1 <<< endModulusBits P n := by
        rw [Nat.one_shiftLeft, endModulusBits, ← pow_mul, Nat.mul_comm]
    _ ≤ endModulus nextPrime P n := hnext _

theorem le_startModulus (hnext : ∀ k, k ≤ nextPrime k) :
    4 * P.ySquaredBound ≤ startModulus nextPrime P := by
  calc 4 * P.ySquaredBound
      = (1 <<< (4 * P.bitsOfPrecision + 2)) * P.maxIntersectionSize := by
        rw [Nat.one_shiftLeft, ySquaredBound]
        ring
    _ ≤ startModulus nextPrime P := hnext _

section

variable {n : ℕ} (hn : 1 ≤ n) (hM : 1 ≤ P.maxIntersectionSize)

private theorem gramBound_eq : P.gramBound =
    P.maxIntersectionSize * (2 ^ P.bitsOfPrecision * 2 ^ P.bitsOfPrecision) := by
  rw [gramBound, two_mul, pow_add]

private theorem rows_le_gramBound : P.maxIntersectionSize ≤ P.gramBound :=
  Nat.le_mul_of_pos_right _ (Nat.two_pow_pos _)

private theorem rows_mul_scale_le : P.maxIntersectionSize * 2 ^ P.bitsOfPrecision ≤ P.gramBound := by
  rw [gramBound_eq]
  exact Nat.mul_le_mul_left _ (Nat.le_mul_of_pos_right _ (Nat.two_pow_pos _))

private theorem adjugateBound_le : P.adjugateBound n ≤ n ^ (n - 1) * P.gramBound ^ (n - 1) := by
  apply Nat.mul_le_mul_right
  calc (n - 1).factorial ≤ (n - 1) ^ (n - 1) := Nat.factorial_le_pow _
    _ ≤ n ^ (n - 1) := Nat.pow_le_pow_left (Nat.sub_le n 1) _

include hM

private theorem gramBound_pos : 1 ≤ P.gramBound := hM.trans rows_le_gramBound

private theorem scale_sq_le : 2 ^ (2 * P.bitsOfPrecision) ≤ P.gramBound :=
  Nat.le_mul_of_pos_left _ hM

private theorem ySquaredBound_le : P.ySquaredBound ≤ P.gramBound ^ 2 := by
  have hsplit : P.ySquaredBound = P.gramBound * 2 ^ (2 * P.bitsOfPrecision) := by
    rw [ySquaredBound, gramBound]
    ring
  rw [hsplit, sq]
  exact Nat.mul_le_mul_left _ (scale_sq_le hM)

include hn

/-- A power of the bounds that the modulus exceeds. -/
private theorem pow_mul_pow_le {i j : ℕ} (hi : i ≤ 2 * n) (hj : j ≤ 2 * n) :
    n ^ i * P.gramBound ^ j ≤ (n * P.gramBound) ^ (2 * n) := by
  rw [mul_pow]
  exact Nat.mul_le_mul (Nat.pow_le_pow_right hn hi)
    (Nat.pow_le_pow_right (gramBound_pos hM) hj)

private theorem residualBound_le : P.residualBound n ≤ 2 * n ^ 2 * P.gramBound ^ 2 := by
  have hK := gramBound_pos hM
  have hn₂ : 1 ≤ n ^ 2 := Nat.one_le_pow _ _ hn
  have hfactor : (if n = 1 then 0 else n ^ 2) ≤ n ^ 2 := by split <;> omega
  calc P.residualBound n ≤ P.gramBound ^ 2 + n ^ 2 * P.gramBound :=
        Nat.add_le_add (ySquaredBound_le hM) (Nat.mul_le_mul_right _ hfactor)
    _ ≤ n ^ 2 * P.gramBound ^ 2 + n ^ 2 * P.gramBound ^ 2 := by
        apply Nat.add_le_add
        · exact Nat.le_mul_of_pos_left _ hn₂
        · exact Nat.mul_le_mul_left _ (Nat.le_self_pow two_ne_zero _)
    _ = 2 * n ^ 2 * P.gramBound ^ 2 := by ring

/-- What the modulus exceeds for any number of variables. -/
private theorem two_mul_lt_of_le {q x : ℕ} (hq : 16 ^ n * (n * P.gramBound) ^ (2 * n) ≤ q)
    (hx : x ≤ 2 * (n * P.gramBound) ^ (2 * n)) : 2 * x < q := by
  have hpos : 0 < (n * P.gramBound) ^ (2 * n) :=
    Nat.pow_pos (Nat.mul_pos hn (gramBound_pos hM))
  have hbase : 16 ≤ 16 ^ n := Nat.le_self_pow (by omega) 16
  have hle : 16 * (n * P.gramBound) ^ (2 * n) ≤ 16 ^ n * (n * P.gramBound) ^ (2 * n) :=
    Nat.mul_le_mul_right _ hbase
  omega

/-- Every doubled bound of an operand lies below the modulus. -/
theorem two_mul_operandBound_lt {q : ℕ}
    (hq : 16 ^ n * (n * P.gramBound) ^ (2 * n) ≤ q) (hfits : P.Fits n q) (o : Operand n) :
    2 * P.operandBound n o < q := by
  have hK := gramBound_pos hM
  have hone : P.gramBound ^ 2 ≤ (n * P.gramBound) ^ (2 * n) := by
    simpa using pow_mul_pow_le hn hM (Nat.zero_le (2 * n)) (show 2 ≤ 2 * n by omega)
  have hresidual := residualBound_le hn hM
  have hcube : 2 ≤ n → P.gramBound * P.residualBound n ≤ 2 * (n * P.gramBound) ^ (2 * n) := by
    intro hn₂
    calc P.gramBound * P.residualBound n
        ≤ P.gramBound * (2 * n ^ 2 * P.gramBound ^ 2) := Nat.mul_le_mul_left _ hresidual
      _ = 2 * (n ^ 2 * P.gramBound ^ 3) := by ring
      _ ≤ 2 * (n * P.gramBound) ^ (2 * n) :=
          Nat.mul_le_mul_left _ (pow_mul_pow_le hn hM (by omega) (by omega))
  cases o with
  | numerMSE =>
    rcases Nat.lt_or_ge 1 n with hn₂ | hn₁
    · apply two_mul_lt_of_le hn hM hq
      calc P.residualBound n * 2 ^ P.bitsOfPrecision
          ≤ P.residualBound n * P.gramBound := by
            apply Nat.mul_le_mul_left
            exact (Nat.le_mul_of_pos_left _ hM).trans rows_mul_scale_le
        _ = P.gramBound * P.residualBound n := Nat.mul_comm _ _
        _ ≤ 2 * (n * P.gramBound) ^ (2 * n) := hcube hn₂
    · obtain rfl : n = 1 := by omega
      have hshift : 2 ^ (5 * P.bitsOfPrecision) ≤ 2 ^ (6 * P.bitsOfPrecision) :=
        Nat.pow_le_pow_right Nat.zero_lt_two (by omega)
      have hbound : P.operandBound 1 .numerMSE ≤
          P.maxIntersectionSize * 2 ^ (6 * P.bitsOfPrecision) := by
        calc P.operandBound 1 .numerMSE
            = P.maxIntersectionSize * 2 ^ (5 * P.bitsOfPrecision) := by
              simp only [operandBound, residualBound, ySquaredBound, ↓reduceIte]
              ring
          _ ≤ P.maxIntersectionSize * 2 ^ (6 * P.bitsOfPrecision) :=
              Nat.mul_le_mul_left _ hshift
      have hlt := hfits.xTXInvDiagSE rfl
      omega
  | denomMSE =>
    apply two_mul_lt_of_le hn hM hq
    have hle : P.gramBound ≤ P.gramBound ^ 2 := Nat.le_self_pow two_ne_zero _
    have hrows : P.maxIntersectionSize ≤ P.gramBound := rows_le_gramBound
    show P.maxIntersectionSize - n ≤ _
    omega
  | numerRSquared =>
    rcases Nat.lt_or_ge 1 n with hn₂ | hn₁
    · apply two_mul_lt_of_le hn hM hq
      calc P.maxIntersectionSize * P.residualBound n * 2 ^ P.bitsOfPrecision
          = P.maxIntersectionSize * 2 ^ P.bitsOfPrecision * P.residualBound n := by ring
        _ ≤ P.gramBound * P.residualBound n := Nat.mul_le_mul_right _ rows_mul_scale_le
        _ ≤ 2 * (n * P.gramBound) ^ (2 * n) := hcube hn₂
    · obtain rfl : n = 1 := by omega
      have hbound : P.operandBound 1 .numerRSquared =
          P.maxIntersectionSize ^ 2 * 2 ^ (5 * P.bitsOfPrecision) := by
        simp only [operandBound, residualBound, ySquaredBound, ↓reduceIte]
        ring
      rw [hbound]
      exact hfits.numerRSquared rfl
  | denomRSquared =>
    apply two_mul_lt_of_le hn hM hq
    calc P.maxIntersectionSize * P.ySquaredBound
        = P.gramBound * P.gramBound := by
          rw [ySquaredBound, gramBound]
          ring
      _ = P.gramBound ^ 2 := (sq _).symm
      _ ≤ 2 * (n * P.gramBound) ^ (2 * n) := by omega
  | xTXInvDiagSE i =>
    rcases Nat.lt_or_ge 1 n with hn₂ | hn₁
    · apply two_mul_lt_of_le hn hM hq
      calc P.adjugateBound n * P.residualBound n * 2 ^ (2 * P.bitsOfPrecision)
          ≤ n ^ (n - 1) * P.gramBound ^ (n - 1) * (2 * n ^ 2 * P.gramBound ^ 2) *
              P.gramBound :=
            Nat.mul_le_mul (Nat.mul_le_mul adjugateBound_le hresidual) (scale_sq_le hM)
        _ = 2 * (n ^ (n - 1 + 2) * P.gramBound ^ (n - 1 + 3)) := by ring
        _ ≤ 2 * (n * P.gramBound) ^ (2 * n) :=
            Nat.mul_le_mul_left _ (pow_mul_pow_le hn hM (by omega) (by omega))
    · obtain rfl : n = 1 := by omega
      have hbound : P.operandBound 1 (.xTXInvDiagSE i) =
          P.maxIntersectionSize * 2 ^ (6 * P.bitsOfPrecision) := by
        simp only [operandBound, adjugateBound, residualBound, ySquaredBound, ↓reduceIte]
        simp
        ring
      rw [hbound]
      exact hfits.xTXInvDiagSE rfl
  | denomMSEReweighted =>
    apply two_mul_lt_of_le hn hM hq
    calc n.factorial * P.gramBound ^ n * (P.maxIntersectionSize - n)
        ≤ n ^ n * P.gramBound ^ n * P.gramBound := by
          apply Nat.mul_le_mul
          · exact Nat.mul_le_mul_right _ (Nat.factorial_le_pow n)
          · exact (Nat.sub_le _ _).trans rows_le_gramBound
      _ = n ^ n * P.gramBound ^ (n + 1) := by ring
      _ ≤ (n * P.gramBound) ^ (2 * n) := pow_mul_pow_le hn hM (by omega) (by omega)
      _ ≤ 2 * (n * P.gramBound) ^ (2 * n) := Nat.le_mul_of_pos_left _ Nat.zero_lt_two
  | numerFStatistic => exact hfits.numerFStatistic
  | denomFStatistic => exact hfits.denomFStatistic
  | tStatisticNumerators i => exact hfits.tStatisticNumerators
  | tStatisticDenominators i => exact hfits.tStatisticDenominators

/-- The modulus exceeds the numerators and the denominator of the solution. -/
theorem two_mul_solutionBound_lt {q : ℕ}
    (hq : 16 ^ n * (n * P.gramBound) ^ (2 * n) ≤ q) :
    2 * (n * (P.adjugateBound n * (P.maxIntersectionSize * 2 ^ (3 * P.bitsOfPrecision)))) < q ∧
      2 * (n.factorial * P.gramBound ^ n) < q := by
  have hK := gramBound_pos hM
  constructor
  · apply two_mul_lt_of_le hn hM hq
    have hmoments : P.maxIntersectionSize * 2 ^ (3 * P.bitsOfPrecision) ≤ P.gramBound ^ 2 := by
      calc P.maxIntersectionSize * 2 ^ (3 * P.bitsOfPrecision) ≤ P.ySquaredBound :=
            Nat.mul_le_mul_left _ (Nat.pow_le_pow_right Nat.zero_lt_two (by omega))
        _ ≤ P.gramBound ^ 2 := ySquaredBound_le hM
    calc n * (P.adjugateBound n * (P.maxIntersectionSize * 2 ^ (3 * P.bitsOfPrecision)))
        ≤ n * (n ^ (n - 1) * P.gramBound ^ (n - 1) * P.gramBound ^ 2) :=
          Nat.mul_le_mul_left _ (Nat.mul_le_mul adjugateBound_le hmoments)
      _ = n ^ (n - 1 + 1) * P.gramBound ^ (n - 1 + 2) := by ring
      _ ≤ (n * P.gramBound) ^ (2 * n) := pow_mul_pow_le hn hM (by omega) (by omega)
      _ ≤ 2 * (n * P.gramBound) ^ (2 * n) := Nat.le_mul_of_pos_left _ Nat.zero_lt_two
  · apply two_mul_lt_of_le hn hM hq
    calc n.factorial * P.gramBound ^ n ≤ n ^ n * P.gramBound ^ n :=
          Nat.mul_le_mul_right _ (Nat.factorial_le_pow n)
      _ ≤ (n * P.gramBound) ^ (2 * n) := pow_mul_pow_le hn hM (by omega) (by omega)
      _ ≤ 2 * (n * P.gramBound) ^ (2 * n) := Nat.le_mul_of_pos_left _ Nat.zero_lt_two

end

end Precision

/-! ## The headroom -/

namespace JoinedRows

variable {n : ℕ} {rows : JoinedRows n} {P : Precision} {nextPrime : ℕ → ℕ}

/-- No sum wraps below `startModulus`. -/
theorem sumsFit (hnext : ∀ k, k ≤ nextPrime k ∧ (nextPrime k).Prime)
    (hrows : rows.numRows ≤ P.maxIntersectionSize) :
    rows.SumsFit P.bitsOfPrecision (startModulus nextPrime P) := by
  have hstart := Precision.le_startModulus (P := P) fun k ↦ (hnext k).1
  have hprime : 0 < startModulus nextPrime P := (hnext _).2.pos
  have hlt : ∀ {x : ℤ}, |x| ≤ P.ySquaredBound → 2 * |x| < startModulus nextPrime P := by
    intro x hx
    omega
  have hpow : ∀ {c : ℕ}, c ≤ 4 → ((P.maxIntersectionSize * 2 ^ (c * P.bitsOfPrecision) : ℕ) : ℤ) ≤
      P.ySquaredBound := by
    intro c hc
    have hle : 2 ^ (c * P.bitsOfPrecision) ≤ 2 ^ (4 * P.bitsOfPrecision) :=
      Nat.pow_le_pow_right Nat.zero_lt_two (Nat.mul_le_mul_right _ hc)
    exact_mod_cast Nat.mul_le_mul_left _ hle
  have hgram : (P.gramBound : ℤ) ≤ P.ySquaredBound := hpow (show 2 ≤ 4 by omega)
  constructor
  · intro i j
    exact hlt ((abs_gram_le hrows i j).trans hgram)
  · intro i
    have hmoments := hpow (show 3 ≤ 4 by omega)
    push_cast at hmoments
    exact hlt ((abs_moments_le hrows i).trans hmoments)
  · apply hlt
    rw [abs_of_nonneg (ySquared_nonneg _)]
    exact ySquared_le hrows
  · exact hlt ((abs_ySum_le hrows).trans hgram)
  · have hcount := hpow (show 0 ≤ 4 by omega)
    simp at hcount
    omega

/-- No operand wraps below `endModulus`, as far as the shifts fit. -/
theorem operandsFit (hn : 1 ≤ n) (hnext : ∀ k, k ≤ nextPrime k ∧ (nextPrime k).Prime)
    (hrows : rows.numRows ≤ P.maxIntersectionSize)
    (hfits : P.Fits n (endModulus nextPrime P n)) (fitIntercept : Bool) :
    rows.OperandsFit P fitIntercept (endModulus nextPrime P n) := by
  have hq := Precision.le_endModulus (P := P) (fun k ↦ (hnext k).1) n
  have hprime : 0 < endModulus nextPrime P n := (hnext _).2.pos
  have hsolution : 2 * (n * (P.adjugateBound n *
        (P.maxIntersectionSize * 2 ^ (3 * P.bitsOfPrecision)))) < endModulus nextPrime P n ∧
      2 * (n.factorial * P.gramBound ^ n) < endModulus nextPrime P n := by
    rcases Nat.eq_zero_or_pos P.maxIntersectionSize with hM | hM
    · -- without rows all sums are zero
      have hgram : P.gramBound = 0 := by simp [Precision.gramBound, hM]
      simp [hM, hgram, Nat.ne_of_gt hn, hprime]
    · exact Precision.two_mul_solutionBound_lt hn hM hq
  constructor
  · intro i
    have hle := abs_regressionMultiplyOutput_le (P := P) hrows i
    omega
  · have hle := det_le (P := P) hrows
    rw [abs_of_nonneg (det_nonneg _)]
    omega
  · intro hdet o
    have hM : 1 ≤ P.maxIntersectionSize :=
      hn.trans ((le_rows_of_det_ne_zero hdet).trans hrows)
    have hle := abs_operand_le hrows hdet fitIntercept o
    have hlt := Precision.two_mul_operandBound_lt hn hM hq hfits o
    omega

end JoinedRows

end Safrn.Stats
