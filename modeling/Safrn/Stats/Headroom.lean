import Mathlib.Data.Nat.Log
import Safrn.Base.LeastSquares
import Safrn.Stats.Formulas

/-!
# The moduli of a regression and the numbers below them

Models the moduli that `RegressionInfo` computes (`dataowner/RegressionInfo.cpp:19-61`), the sums
over the joined rows at their fixed-point scales (`StartupUtils.cpp:15-44`, the dependent variable
at twice the precision of the others), and the operands that the stages of
`Regression::handleComplete` pass to `Compare` and `Divide` (`dataowner/Regression.cpp:847-976`,
`:1356-1424`).
-/

namespace Safrn.Stats

open Safrn.Base Matrix

/-- The precision and the size bound of `GlobalInfo`, and the scales of the columns of the two
lookup tables. -/
structure Precision where
  bitsOfPrecision : ℕ
  maxIntersectionSize : ℕ
  fColsBitsOfPrecision : ℕ
  fColsStepSize : ℕ
  tColsBitsOfPrecision : ℕ
  tColsStepSize : ℕ

section

variable (nextPrime : ℕ → ℕ) (P : Precision)

/-- `startModulus`. -/
def startModulus : ℕ :=
  nextPrime ((1 <<< (4 * P.bitsOfPrecision + 2)) * P.maxIntersectionSize)

/-- The number of bits of `endModulus`. The ceiling of `n * (log2 n + 2 * b + 2 + log2 M)`, for
which the code uses `double`, is taken exactly. -/
def endModulusBits (n : ℕ) : ℕ :=
  2 * Nat.clog 2 ((n * 2 ^ (2 * P.bitsOfPrecision + 2) * P.maxIntersectionSize) ^ n)

/-- `endModulus`. -/
def endModulus (n : ℕ) : ℕ := nextPrime (1 <<< endModulusBits P n)

end

/-! ## The joined rows -/

/-- The integer that `convertDoubleToLargeNum` encodes. -/
def fixedPoint (val : ℚ) (bits : ℕ) : ℤ :=
  if val < 0 then -⌊-val * 2 ^ bits + 1 / 2⌋ else ⌊val * 2 ^ bits + 1 / 2⌋

/-- The rows that a regression joins: the independent variables, the intercept included, and the
dependent variable. -/
structure JoinedRows (n : ℕ) where
  numRows : ℕ
  x : Fin numRows → Fin n → ℚ
  y : Fin numRows → ℚ
  abs_x_le : ∀ k i, |x k i| ≤ 1
  abs_y_le : ∀ k, |y k| ≤ 1

namespace JoinedRows

variable {n : ℕ} (rows : JoinedRows n) (b : ℕ)

/-- The independent variables as they are read. -/
def X : Matrix (Fin rows.numRows) (Fin n) ℤ := fun k i ↦ fixedPoint (rows.x k i) b

/-- The dependent variable as it is read, with twice the precision. -/
def Y : Fin rows.numRows → ℤ := fun k ↦ fixedPoint (rows.y k) (2 * b)

/-- The sums of `x_i * x_j`. -/
def gram : Matrix (Fin n) (Fin n) ℤ := (rows.X b)ᵀ * rows.X b

/-- The sums of `x_i * y`. -/
def moments : Fin n → ℤ := (rows.X b)ᵀ *ᵥ rows.Y b

/-- The sum of `y * y`. -/
def ySquared : ℤ := ∑ k, rows.Y b k ^ 2

/-- The sum of `y`. -/
def ySum : ℤ := ∑ k, rows.Y b k

/-- `regressionMultiplyOutput`. -/
def regressionMultiplyOutput : Fin n → ℤ := (rows.gram b).adjugate *ᵥ rows.moments b

/-- `det * detShare`. -/
def det : ℤ := (rows.gram b).det

/-- `beta_i`. -/
def beta (i : Fin n) : ℤ := (rows.regressionMultiplyOutput b i).tdiv (rows.det b)

/-- `numer_MSE`. -/
def numerMSE : ℤ :=
  rows.ySquared b + ∑ i, ∑ j, rows.beta b i * rows.beta b j * rows.gram b i j -
    2 * ∑ i, rows.beta b i * rows.moments b i

/-- `denom_MSE`. -/
def denomMSE : ℤ := rows.numRows - n

/-- `denom_RSquared`. -/
def denomRSquared (fitIntercept : Bool) : ℤ :=
  rows.numRows * rows.ySquared b - if fitIntercept then rows.ySum b ^ 2 else 0

/-- `numer_RSquared`. -/
def numerRSquared (fitIntercept : Bool) : ℤ :=
  rows.denomRSquared b fitIntercept - rows.numRows * rows.numerMSE b

/-- `X_T_X_inv_diag_s_e`. -/
def xTXInvDiagSE (i : Fin n) : ℤ := (rows.gram b).adjugate i i * rows.numerMSE b

/-- `denom_MSE_reweighted`. -/
def denomMSEReweighted : ℤ := rows.det b * rows.denomMSE

end JoinedRows

/-- The operands of the divisions behind the coefficients. -/
inductive Operand (n : ℕ) where
  | numerMSE
  | denomMSE
  | numerRSquared
  | denomRSquared
  | xTXInvDiagSE (i : Fin n)
  | denomMSEReweighted
  | numerFStatistic
  | denomFStatistic
  | tStatisticNumerators (i : Fin n)
  | tStatisticDenominators (i : Fin n)

namespace JoinedRows

variable {n : ℕ} (rows : JoinedRows n) (P : Precision) (fitIntercept : Bool)

/-- The number that an operand stands for, shifted as it is passed. -/
def operand : Operand n → ℤ
  | .numerMSE => rows.numerMSE P.bitsOfPrecision * 2 ^ P.bitsOfPrecision
  | .denomMSE => rows.denomMSE
  | .numerRSquared =>
    rows.numerRSquared P.bitsOfPrecision fitIntercept * 2 ^ P.bitsOfPrecision
  | .denomRSquared => rows.denomRSquared P.bitsOfPrecision fitIntercept
  | .xTXInvDiagSE i =>
    rows.xTXInvDiagSE P.bitsOfPrecision i * 2 ^ (2 * P.bitsOfPrecision)
  | .denomMSEReweighted => rows.denomMSEReweighted P.bitsOfPrecision
  | .numerFStatistic =>
    rows.numerRSquared P.bitsOfPrecision fitIntercept * rows.denomMSE *
      2 ^ P.fColsBitsOfPrecision
  | .denomFStatistic =>
    n * (rows.numRows * rows.numerMSE P.bitsOfPrecision) * P.fColsStepSize
  | .tStatisticNumerators i =>
    rows.denomMSEReweighted P.bitsOfPrecision * rows.beta P.bitsOfPrecision i ^ 2 *
      2 ^ P.tColsBitsOfPrecision
  | .tStatisticDenominators i =>
    rows.xTXInvDiagSE P.bitsOfPrecision i * P.tColsStepSize

/-- The sums over the rows lie below half the modulus. -/
structure SumsFit (b q : ℕ) : Prop where
  gram : ∀ i j, 2 * |rows.gram b i j| < q
  moments : ∀ i, 2 * |rows.moments b i| < q
  ySquared : 2 * |rows.ySquared b| < q
  ySum : 2 * |rows.ySum b| < q
  count : 2 * rows.numRows < q

/-- The operands lie below half the modulus; those behind the coefficients as far as the normal
equations have a solution. -/
structure OperandsFit (q : ℕ) : Prop where
  regressionMultiplyOutput :
    ∀ i, 2 * |rows.regressionMultiplyOutput P.bitsOfPrecision i| < q
  det : 2 * |rows.det P.bitsOfPrecision| < q
  operand : rows.det P.bitsOfPrecision ≠ 0 → ∀ o, 2 * |rows.operand P fitIntercept o| < q

end JoinedRows

/-! ## What the shares add up to -/

/-- The sums modulo `q`. -/
def JoinedRows.gramData {n : ℕ} (rows : JoinedRows n) (b q : ℕ) : GramData (ZMod q) n where
  A := (rows.gram b).map Int.cast
  b i := rows.moments b i
  ySquared := rows.ySquared b
  y := rows.ySum b
  count := rows.numRows
  β i := rows.beta b i

namespace ErrorTerms

variable {ι : Type} {n q : ℕ} (E : ErrorTerms ι n q) (P : Precision) [DecidableEq ι]

/-- The shares of the operands that `handleComplete` passes to `Divide`. -/
def operandShare : Operand n → ι → ℕ
  | .numerMSE => fun p ↦ E.numerMSE p * (1 <<< P.bitsOfPrecision)
  | .denomMSE => E.denomMSE
  | .numerRSquared => fun p ↦ E.numerRSquared p * (1 <<< P.bitsOfPrecision)
  | .denomRSquared => E.denomRSquared
  | .xTXInvDiagSE i => fun p ↦ E.xTXInvDiagSE i p * (1 <<< (2 * P.bitsOfPrecision))
  | .denomMSEReweighted => E.denomMSEReweighted
  | .numerFStatistic => fun p ↦ E.numerFStatistic p * (1 <<< P.fColsBitsOfPrecision)
  | .denomFStatistic => fun p ↦ E.denomFStatistic p * P.fColsStepSize
  | .tStatisticNumerators i =>
    fun p ↦ E.tStatisticNumerators i p * (1 <<< P.tColsBitsOfPrecision)
  | .tStatisticDenominators i => fun p ↦ E.xTXInvDiagSE i p * P.tColsStepSize

variable {E} {P} [Fintype ι] [Fact q.Prime] {rows : JoinedRows n}

omit [DecidableEq ι] in
private theorem reconstruct_mul_right {x : ι → ℕ} {c : ℕ} :
    (reconstruct q fun p ↦ x p * c) = reconstruct q x * c := by
  rw [← reconstruct_congr fun p ↦ congrArg Nat.cast (Nat.mul_comm c (x p)), reconstruct_mul,
    mul_comm]

/-- The shares of an operand add up to the number that it stands for. -/
theorem reconstruct_operandShare (h : E.Given (rows.gramData P.bitsOfPrecision q))
    (o : Operand n) : reconstruct q (E.operandShare P o) =
      (rows.operand P E.fitIntercept o : ℤ) := by
  let G := rows.gramData P.bitsOfPrecision q
  have hrss : G.rss = (rows.numerMSE P.bitsOfPrecision : ℤ) := by
    simp only [GramData.rss, JoinedRows.numerMSE]
    push_cast
    rfl
  have htotal : G.total E.fitIntercept =
      (rows.denomRSquared P.bitsOfPrecision E.fitIntercept : ℤ) := by
    simp only [GramData.total, JoinedRows.denomRSquared]
    cases E.fitIntercept <;> push_cast <;> rfl
  have hcount : G.count = (rows.numRows : ZMod q) := rfl
  have hdet : G.A.det = (rows.det P.bitsOfPrecision : ℤ) := (Int.cast_det _).symm
  have hadjugate : ∀ i, G.A.det * G.A⁻¹ i i =
      ((rows.gram P.bitsOfPrecision).adjugate i i : ℤ) := by
    intro i
    have hinv := congrFun (congrFun (Solve.det_mul_inv h.solve) i) i
    have hmap := congrFun (congrFun (map_adjugate (q := q) (rows.gram P.bitsOfPrecision)) i) i
    rw [Matrix.smul_apply, smul_eq_mul] at hinv
    exact hinv.trans hmap
  have hnumerR : G.total E.fitIntercept - G.count * G.rss =
      (rows.numerRSquared P.bitsOfPrecision E.fitIntercept : ℤ) := by
    rw [htotal, hrss, hcount, JoinedRows.numerRSquared]
    push_cast
    rfl
  have hdenom : G.count - n = (rows.denomMSE : ℤ) := by
    rw [hcount, JoinedRows.denomMSE]
    push_cast
    rfl
  cases o with
  | numerMSE =>
    rw [operandShare, reconstruct_mul_right, reconstruct_numerMSE h, hrss, Nat.one_shiftLeft,
      JoinedRows.operand]
    push_cast
    rfl
  | denomMSE => exact (reconstruct_denomMSE h).trans hdenom
  | numerRSquared =>
    rw [operandShare, reconstruct_mul_right, reconstruct_numerRSquared h, hnumerR,
      Nat.one_shiftLeft, JoinedRows.operand]
    push_cast
    rfl
  | denomRSquared => exact (reconstruct_denomRSquared h).trans htotal
  | xTXInvDiagSE i =>
    rw [operandShare, reconstruct_mul_right, reconstruct_xTXInvDiagSE h, hadjugate, hrss,
      Nat.one_shiftLeft, JoinedRows.operand, JoinedRows.xTXInvDiagSE]
    push_cast
    rfl
  | denomMSEReweighted =>
    rw [operandShare, reconstruct_denomMSEReweighted h, hdet, hdenom, JoinedRows.operand,
      JoinedRows.denomMSEReweighted]
    push_cast
    rfl
  | numerFStatistic =>
    rw [operandShare, reconstruct_mul_right, reconstruct_numerFStatistic h, hnumerR, hdenom,
      Nat.one_shiftLeft, JoinedRows.operand]
    push_cast
    rfl
  | denomFStatistic =>
    rw [operandShare, reconstruct_mul_right, reconstruct_denomFStatistic h, hrss, hcount,
      JoinedRows.operand]
    push_cast
    rfl
  | tStatisticNumerators i =>
    rw [operandShare, reconstruct_mul_right, reconstruct_tStatisticNumerators h, hdet, hdenom,
      Nat.one_shiftLeft, JoinedRows.operand, JoinedRows.denomMSEReweighted]
    push_cast
    rfl
  | tStatisticDenominators i =>
    rw [operandShare, reconstruct_mul_right, reconstruct_xTXInvDiagSE h, hadjugate, hrss,
      JoinedRows.operand, JoinedRows.xTXInvDiagSE]
    push_cast
    rfl

end ErrorTerms
end Safrn.Stats
