import Safrn.Base.Triangle
import Safrn.Stats.Division

/-!
# The statistics of a regression on shares

Models the stages `awaitingNegativeRecorrectionMultiply` to `awaitingThirdMultiplyForErrorTerms` of
`Regression::handleComplete` (`dataowner/Regression.cpp:1009-1355`) and the numerators and
denominators that the next stage divides. Products with two indices are computed for `i ≤ j` only;
a public number is added by the revealer.
-/

namespace Safrn.Stats

open Safrn.Base

/-- What the stages work on: the normal equations and their solution, the coefficients, and the
fields of `RegressionInfo` that they read. The modulus is chosen above the number of variables. -/
structure ErrorTerms (ι : Type) (n endModulus : ℕ) where
  solve : Solve ι n endModulus
  arithmetic : Arithmetic ι
  revealer : ι
  fitIntercept : Bool
  betaI : ℕ → ι → ℕ
  numIvs_le : n ≤ endModulus

namespace ErrorTerms

variable {ι : Type} {n endModulus : ℕ} (E : ErrorTerms ι n endModulus)

/-- `m.front().at(i, j)`. -/
def mAt (i j : ℕ) (p : ι) : ℕ :=
  if h : i < n ∧ j < n + 1 then E.solve.m p ⟨i, h.1⟩ ⟨j, h.2⟩ else 0

/-- `r.front().at(i, j)`. -/
def rAt (i j : ℕ) (p : ι) : ℕ :=
  if h : i < n ∧ j < n then E.solve.r p ⟨i, h.1⟩ ⟨j, h.2⟩ else 0

/-- `oneShare`. -/
def oneShare (p : ι) : ℕ := (E.solve.shares p).oneShare

/-- `yShare`. -/
def yShare (p : ι) : ℕ := (E.solve.shares p).yShare

/-- `ySquaredShare`. -/
def ySquaredShare (p : ι) : ℕ := (E.solve.shares p).ySquaredShare

/-! ### The first multiplications -/

/-- `beta_ibeta_j`. -/
def betaIBetaJ (p : ι) : ℕ → ℕ :=
  assignUpper n (fun i j ↦ E.solve.ff.multiply (.betaIBetaJ i j) (E.betaI i) (E.betaI j) p)
    fun _ ↦ 0

/-- `x_ix_jn`. -/
def xIXJN (p : ι) : ℕ → ℕ :=
  assignUpper n (fun i j ↦ E.solve.ff.multiply (.xIXJN i j) (E.mAt i j) E.oneShare p) fun _ ↦ 0

/-- `beta_ix_iy`. -/
def betaIXIY (i : ℕ) : ι → ℕ := E.solve.ff.multiply (.betaIXIY i) (E.mAt i n) (E.betaI i)

/-- `ySquaredn`. -/
def ySquaredN : ι → ℕ := E.solve.ff.multiply .ySquaredN E.ySquaredShare E.oneShare

/-- `ySumThenSquared`. -/
def ySumThenSquared : ι → ℕ := E.solve.ff.multiply .ySumThenSquared E.yShare E.yShare

/-! ### The second multiplications -/

/-- `beta_ibeta_jx_ix_jn`. -/
def betaIBetaJXIXJN (p : ι) : ℕ → ℕ :=
  assignUpper n (fun i j ↦ E.solve.ff.multiply (.betaIBetaJXIXJN i j)
    (fun p ↦ E.betaIBetaJ p (i * n + j)) (fun p ↦ E.xIXJN p (i * n + j)) p) fun _ ↦ 0

/-- `beta_ibeta_jx_ix_j`. -/
def betaIBetaJXIXJ (p : ι) : ℕ → ℕ :=
  assignUpper n (fun i j ↦ E.solve.ff.multiply (.betaIBetaJXIXJ i j)
    (fun p ↦ E.betaIBetaJ p (i * n + j)) (E.mAt i j) p) fun _ ↦ 0

/-- `beta_ix_iyn`. -/
def betaIXIYN (i : ℕ) : ι → ℕ := E.solve.ff.multiply (.betaIXIYN i) E.oneShare (E.betaIXIY i)

/-- `X_T_X_inv_diag_reweighted`. -/
def xTXInvDiagReweighted (i : ℕ) : ι → ℕ :=
  E.solve.ff.multiply (.xTXInvDiagReweighted i) E.solve.detDetShare (E.rAt i i)

/-! ### Sums -/

/-- `numer_MSE`. -/
def numerMSE (p : ι) : ℕ :=
  forRange (fun numerMSE i ↦
    let numerMSE := forRange (fun numerMSE k ↦
      let j := i + k
      let numerMSE :=
        if i = j then numerMSE + E.betaIBetaJXIXJ p (i * n + i)
        else numerMSE + 2 * E.betaIBetaJXIXJ p (i * n + j)
      numerMSE % endModulus) (n - i) numerMSE
    (numerMSE + 2 * (endModulus - E.betaIXIY i p)) % endModulus) n (E.ySquaredShare p)

/-- `denom_MSE`. -/
def denomMSE [DecidableEq ι] (p : ι) : ℕ :=
  if p = E.revealer then E.arithmetic.modAdd (E.oneShare p) (endModulus - n) endModulus
  else E.oneShare p

/-- `numer_RSquared` behind the loop: `n` times the residual sum of squares. -/
def residualN (p : ι) : ℕ :=
  forRange (fun numerRSquared i ↦
    let numerRSquared := forRange (fun numerRSquared k ↦
      let j := i + k
      if i = j then
        E.arithmetic.modAdd numerRSquared (E.betaIBetaJXIXJN p (i * n + i)) endModulus
      else E.arithmetic.modAdd numerRSquared (2 * E.betaIBetaJXIXJN p (i * n + j)) endModulus)
      (n - i) numerRSquared
    E.arithmetic.modAdd numerRSquared (2 * (endModulus - E.betaIXIYN i p)) endModulus) n
    (E.ySquaredN p)

/-- `denom_RSquared`. -/
def denomRSquared (p : ι) : ℕ :=
  if E.fitIntercept then (E.ySquaredN p + (endModulus - E.ySumThenSquared p)) % endModulus
  else E.ySquaredN p

/-- `denom_F_statistic`. -/
def denomFStatistic (p : ι) : ℕ := E.residualN p * n % endModulus

/-- `numer_RSquared`. -/
def numerRSquared (p : ι) : ℕ := (endModulus - E.residualN p + E.denomRSquared p) % endModulus

/-! ### The third and fourth multiplications -/

/-- `X_T_X_inv_diag_s_e`. -/
def xTXInvDiagSE (i : ℕ) : ι → ℕ :=
  E.solve.ff.multiply (.xTXInvDiagSE i) (E.xTXInvDiagReweighted i) E.numerMSE

/-- `denom_MSE_reweighted`. -/
def denomMSEReweighted [DecidableEq ι] : ι → ℕ :=
  E.solve.ff.multiply .denomMSEReweighted E.solve.detDetShare E.denomMSE

/-- `numer_F_statistic`. -/
def numerFStatistic [DecidableEq ι] : ι → ℕ :=
  E.solve.ff.multiply .numerFStatistic E.numerRSquared E.denomMSE

/-- `t_statisticNumerators`. -/
def tStatisticNumerators [DecidableEq ι] (i : ℕ) : ι → ℕ :=
  E.solve.ff.multiply (.tStatisticNumerators i) E.denomMSEReweighted
    fun p ↦ E.betaIBetaJ p (i * n + i)

end ErrorTerms
end Safrn.Stats
