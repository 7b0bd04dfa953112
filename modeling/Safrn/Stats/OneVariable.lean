import Mathlib.NumberTheory.Bertrand
import Safrn.Stats.Magnitude

/-!
# The headroom of a regression with one variable

For one variable the shifts of the statistics decide whether they wrap: rows on a line through the
origin and rows without any correlation reach the bounds of the operands.
-/

namespace Safrn.Stats

open Safrn.Base Matrix

theorem fixedPoint_one (bits : ℕ) : fixedPoint 1 bits = 2 ^ bits := by
  have hfloor : ⌊((2 ^ bits : ℤ) : ℚ) + 1 / 2⌋ = 2 ^ bits := by
    rw [Int.floor_intCast_add]
    norm_num
  rw [fixedPoint, if_neg (by norm_num), one_mul]
  exact_mod_cast hfloor

theorem fixedPoint_neg_one (bits : ℕ) : fixedPoint (-1) bits = -2 ^ bits := by
  have hone := fixedPoint_one bits
  rw [fixedPoint, if_neg (by norm_num)] at hone
  rw [fixedPoint, if_pos (by norm_num), neg_neg, hone]

theorem fixedPoint_zero (bits : ℕ) : fixedPoint 0 bits = 0 := by
  rw [fixedPoint, if_neg (lt_irrefl 0)]
  norm_num

namespace JoinedRows

variable {rows : JoinedRows 1} {P : Precision} {b : ℕ}

/-! ## One variable -/

theorem det_one : rows.det b = rows.gram b 0 0 := det_fin_one _

theorem regressionMultiplyOutput_one :
    rows.regressionMultiplyOutput b 0 = rows.moments b 0 := by
  rw [regressionMultiplyOutput, adjugate_fin_one, one_mulVec]

theorem numerMSE_one : rows.numerMSE b = rows.ySquared b +
    rows.beta b 0 * rows.beta b 0 * rows.gram b 0 0 - 2 * (rows.beta b 0 * rows.moments b 0) := by
  simp only [numerMSE, Fin.sum_univ_one]

theorem xTXInvDiagSE_one : rows.xTXInvDiagSE b 0 = rows.numerMSE b := by
  rw [xTXInvDiagSE, adjugate_fin_one, one_apply_eq, one_mul]

/-! ## Rows on a line -/

/-- All variables are 1. -/
def onLine (m : ℕ) : JoinedRows 1 where
  numRows := m
  x _ _ := 1
  y _ := 1
  abs_x_le := fun _ _ ↦ by norm_num
  abs_y_le := fun _ ↦ by norm_num

variable {m : ℕ}

theorem onLine_gram : (onLine m).gram b 0 0 = m * 2 ^ (2 * b) := by
  show ∑ _k : Fin m, fixedPoint 1 b * fixedPoint 1 b = _
  rw [fixedPoint_one, Finset.sum_const, Finset.card_univ, Fintype.card_fin, nsmul_eq_mul]
  ring

theorem onLine_moments : (onLine m).moments b 0 = m * 2 ^ (3 * b) := by
  show ∑ _k : Fin m, fixedPoint 1 b * fixedPoint 1 (2 * b) = _
  rw [fixedPoint_one, fixedPoint_one, Finset.sum_const, Finset.card_univ, Fintype.card_fin,
    nsmul_eq_mul]
  ring

theorem onLine_ySquared : (onLine m).ySquared b = m * 2 ^ (4 * b) := by
  show ∑ _k : Fin m, fixedPoint 1 (2 * b) ^ 2 = _
  rw [fixedPoint_one, Finset.sum_const, Finset.card_univ, Fintype.card_fin, nsmul_eq_mul]
  ring

theorem onLine_det_ne_zero (hm : 0 < m) : (onLine m).det b ≠ 0 := by
  rw [det_one, onLine_gram]
  positivity

theorem onLine_beta (hm : 0 < m) : (onLine m).beta b 0 = 2 ^ b := by
  have hquotient : ((m * 2 ^ (3 * b) : ℤ)).tdiv (m * 2 ^ (2 * b)) = 2 ^ b := by
    have hne : (m * 2 ^ (2 * b) : ℤ) ≠ 0 := by positivity
    have hsplit : (m * 2 ^ (3 * b) : ℤ) = 2 ^ b * (m * 2 ^ (2 * b)) := by ring
    rw [hsplit, Int.mul_tdiv_cancel _ hne]
  rw [beta, regressionMultiplyOutput_one, det_one, onLine_moments, onLine_gram, hquotient]

theorem onLine_numerMSE (hm : 0 < m) : (onLine m).numerMSE b = 0 := by
  rw [numerMSE_one, onLine_beta hm, onLine_gram, onLine_moments, onLine_ySquared]
  ring

theorem onLine_numerRSquared (hm : 0 < m) :
    (onLine m).numerRSquared b false = m ^ 2 * 2 ^ (4 * b) := by
  rw [numerRSquared, denomRSquared, onLine_numerMSE hm, onLine_ySquared]
  simp only [onLine, Bool.false_eq_true, ↓reduceIte]
  ring

/-! ## Rows without correlation -/

/-- The independent variable is 1 in the first row, -1 in the second and 0 in all others; the
dependent variable is 1. -/
def uncorrelated (m : ℕ) : JoinedRows 1 where
  numRows := m + 2
  x k _ := if k = 0 then 1 else if k = 1 then -1 else 0
  y _ := 1
  abs_x_le := fun k _ ↦ by split_ifs <;> norm_num
  abs_y_le := fun _ ↦ by norm_num

theorem uncorrelated_X (k : Fin (m + 2)) : (uncorrelated m).X b k 0 =
    (if k = 0 then 2 ^ b else 0) + if k = 1 then -2 ^ b else 0 := by
  show fixedPoint (if k = 0 then 1 else if k = 1 then -1 else 0) b = _
  by_cases h₀ : k = 0
  · subst h₀
    simp [fixedPoint_one]
  · by_cases h₁ : k = 1
    · subst h₁
      simp [fixedPoint_neg_one]
    · simp [h₀, h₁, fixedPoint_zero]

theorem uncorrelated_gram : (uncorrelated m).gram b 0 0 = 2 * 2 ^ (2 * b) := by
  have hsquare : ∀ k : Fin (m + 2), (uncorrelated m).X b k 0 * (uncorrelated m).X b k 0 =
      (if k = 0 then 2 ^ (2 * b) else 0) + if k = 1 then 2 ^ (2 * b) else 0 := by
    intro k
    rw [uncorrelated_X]
    by_cases h₀ : k = 0
    · subst h₀
      simp
      ring
    · by_cases h₁ : k = 1
      · subst h₁
        simp
        ring
      · simp [h₀, h₁]
  show ∑ k : Fin (m + 2), (uncorrelated m).X b k 0 * (uncorrelated m).X b k 0 = _
  simp only [hsquare, Finset.sum_add_distrib, Finset.sum_ite_eq', Finset.mem_univ, ↓reduceIte]
  ring

theorem uncorrelated_moments : (uncorrelated m).moments b 0 = 0 := by
  show ∑ k : Fin (m + 2), (uncorrelated m).X b k 0 * fixedPoint 1 (2 * b) = 0
  rw [← Finset.sum_mul]
  simp only [uncorrelated_X, Finset.sum_add_distrib, Finset.sum_ite_eq', Finset.mem_univ,
    ↓reduceIte]
  ring

theorem uncorrelated_det_ne_zero : (uncorrelated m).det b ≠ 0 := by
  rw [det_one, uncorrelated_gram]
  positivity

theorem uncorrelated_numerMSE :
    (uncorrelated m).numerMSE b = (m + 2 : ℕ) * 2 ^ (4 * b) := by
  have hbeta : (uncorrelated m).beta b 0 = 0 := by
    rw [beta, regressionMultiplyOutput_one, uncorrelated_moments, Int.zero_tdiv]
  have hy : (uncorrelated m).ySquared b = (m + 2 : ℕ) * 2 ^ (4 * b) := by
    show ∑ _k : Fin (m + 2), fixedPoint 1 (2 * b) ^ 2 = _
    rw [fixedPoint_one, Finset.sum_const, Finset.card_univ, Fintype.card_fin, nsmul_eq_mul]
    ring
  rw [numerMSE_one, hbeta, hy]
  ring

end JoinedRows

/-! ## The condition is exact -/

section

variable {P : Precision} {q m : ℕ}

/-- The operands of the rows on a line. -/
private theorem onLine_operands (hM : 1 ≤ P.maxIntersectionSize) :
    let rows := JoinedRows.onLine P.maxIntersectionSize
    rows.operand P false .numerRSquared =
      (P.maxIntersectionSize ^ 2 * 2 ^ (5 * P.bitsOfPrecision) : ℕ) ∧
    rows.operand P false .numerFStatistic =
      (P.maxIntersectionSize * P.residualBound 1 * (P.maxIntersectionSize - 1) *
        2 ^ P.fColsBitsOfPrecision : ℕ) ∧
    rows.operand P false (.tStatisticNumerators 0) =
      (P.adjugateBound 1 * P.ySquaredBound * (P.maxIntersectionSize - 1) *
        2 ^ P.tColsBitsOfPrecision : ℕ) := by
  have hfree : ((P.maxIntersectionSize - 1 : ℕ) : ℤ) = P.maxIntersectionSize - 1 := by omega
  have hdenomMSE : (JoinedRows.onLine P.maxIntersectionSize).denomMSE =
      P.maxIntersectionSize - 1 := by
    simp [JoinedRows.denomMSE, JoinedRows.onLine]
  refine ⟨?_, ?_, ?_⟩
  · rw [JoinedRows.operand, JoinedRows.onLine_numerRSquared hM]
    push_cast
    ring
  · rw [JoinedRows.operand, JoinedRows.onLine_numerRSquared hM, hdenomMSE, ← hfree]
    simp only [Precision.residualBound, Precision.ySquaredBound, ↓reduceIte]
    push_cast
    ring
  · rw [JoinedRows.operand, JoinedRows.denomMSEReweighted, JoinedRows.det_one,
      JoinedRows.onLine_gram, JoinedRows.onLine_beta hM, hdenomMSE, ← hfree]
    simp only [Precision.adjugateBound, Precision.ySquaredBound]
    push_cast
    simp
    ring

/-- The operands of the rows without correlation. -/
private theorem uncorrelated_operands (hm : P.maxIntersectionSize = m + 2) :
    let rows := JoinedRows.uncorrelated m
    rows.operand P false (.xTXInvDiagSE 0) =
      (P.maxIntersectionSize * 2 ^ (6 * P.bitsOfPrecision) : ℕ) ∧
    rows.operand P false .denomFStatistic =
      (1 * (P.maxIntersectionSize * P.residualBound 1) * P.fColsStepSize : ℕ) ∧
    rows.operand P false (.tStatisticDenominators 0) =
      (P.adjugateBound 1 * P.residualBound 1 * P.tColsStepSize : ℕ) := by
  have hrows : ((JoinedRows.uncorrelated m).numRows : ℤ) = (m + 2 : ℕ) := rfl
  refine ⟨?_, ?_, ?_⟩
  · rw [JoinedRows.operand, JoinedRows.xTXInvDiagSE_one, JoinedRows.uncorrelated_numerMSE, hm]
    push_cast
    ring
  · rw [JoinedRows.operand, JoinedRows.uncorrelated_numerMSE, hrows]
    simp only [Precision.residualBound, Precision.ySquaredBound, ↓reduceIte, hm]
    push_cast
    ring
  · rw [JoinedRows.operand, JoinedRows.xTXInvDiagSE_one, JoinedRows.uncorrelated_numerMSE]
    simp only [Precision.adjugateBound, Precision.residualBound, Precision.ySquaredBound,
      ↓reduceIte, hm]
    push_cast
    simp

/-- When no operand of any rows wraps, the shifts fit. -/
theorem fits_of_operandsFit (hM : 2 ≤ P.maxIntersectionSize)
    (h : ∀ rows : JoinedRows 1, rows.numRows ≤ P.maxIntersectionSize →
      ∀ fitIntercept, rows.OperandsFit P fitIntercept q) : P.Fits 1 q := by
  obtain ⟨m, hm⟩ := Nat.exists_eq_add_of_le' hM
  have hpos : 0 < P.maxIntersectionSize := by omega
  have hline := (h (.onLine P.maxIntersectionSize) (Nat.le_refl _) false).operand
    (JoinedRows.onLine_det_ne_zero hpos)
  have hflat := (h (.uncorrelated m) (Nat.le_of_eq hm.symm) false).operand
    JoinedRows.uncorrelated_det_ne_zero
  have hreads : ∀ {z : ℤ} {v : ℕ}, 2 * |z| < q → z = v → 2 * v < q := by
    intro z v hz hv
    rw [hv, Nat.abs_cast] at hz
    exact_mod_cast hz
  obtain ⟨hR, hF, hT⟩ := onLine_operands (P := P) hpos
  obtain ⟨hX, hF', hT'⟩ := uncorrelated_operands hm
  exact {
    numerRSquared := fun _ ↦ hreads (hline .numerRSquared) hR
    xTXInvDiagSE := fun _ ↦ hreads (hflat (.xTXInvDiagSE 0)) hX
    numerFStatistic := hreads (hline .numerFStatistic) hF
    denomFStatistic := hreads (hflat .denomFStatistic) hF'
    tStatisticNumerators := hreads (hline (.tStatisticNumerators 0)) hT
    tStatisticDenominators := hreads (hflat (.tStatisticDenominators 0)) hT' }

end

/-! ## The headroom of the moduli -/

/-- No sum over any joined rows and no operand wraps. -/
def Headroom (nextPrime : ℕ → ℕ) (P : Precision) (n : ℕ) : Prop :=
  ∀ rows : JoinedRows n, rows.numRows ≤ P.maxIntersectionSize →
    rows.SumsFit P.bitsOfPrecision (startModulus nextPrime P) ∧
      ∀ fitIntercept, rows.OperandsFit P fitIntercept (endModulus nextPrime P n)

/-- The least prime number from `k` on. -/
def leastPrime (k : ℕ) : ℕ := Nat.find (Nat.exists_infinite_primes k)

theorem leastPrime_spec (k : ℕ) : k ≤ leastPrime k ∧ (leastPrime k).Prime :=
  Nat.find_spec (Nat.exists_infinite_primes k)

theorem leastPrime_le {k : ℕ} (hk : k ≠ 0) : leastPrime k ≤ 2 * k := by
  obtain ⟨p, hp, hlt, hle⟩ := Nat.exists_prime_lt_and_le_two_mul k hk
  exact (Nat.find_le ⟨hlt.le, hp⟩).trans hle

end Safrn.Stats
