import Safrn.Base.Grid
import Safrn.Base.Numerals
import Safrn.Base.Sharing
import Safrn.Stats.Gram

/-!
# The normal equations are solved on shares

Models `RandomSquareMatrixInfo::generate` (`dealer/RandomSquareMatrix.t.h:16-62`) and the stages
`awaitingBatchedModConvUp`, `awaitingMatrixMultiply` and `awaitingMatrixReveal` of
`Regression::handleComplete` (`dataowner/Regression.cpp:641-854`). A random matrix `R` is multiplied
to the shared matrix `A` and the shared vector `b`; `R * A` is opened, so that each party can
multiply its inverse to its shares of `R * b` and of `R`.
-/

namespace Safrn.Stats

open Safrn.Base

/-- Products of shares, by the field that the result is written to. -/
inductive Product
  | regressionMultiplyOutput (i : ℕ)
  | negativeCorrectionMultiplyOutput (i : ℕ)
  | betaI (i : ℕ)
  | betaIBetaJ (i j : ℕ)
  | xIXJN (i j : ℕ)
  | betaIXIY (i : ℕ)
  | ySquaredN
  | ySumThenSquared
  | betaIBetaJXIXJN (i j : ℕ)
  | betaIBetaJXIXJ (i j : ℕ)
  | betaIXIYN (i : ℕ)
  | xTXInvDiagReweighted (i : ℕ)
  | xTXInvDiagSE (i : ℕ)
  | denomMSEReweighted
  | numerFStatistic
  | tStatisticNumerators (i : ℕ)

/-- The fronctocols of the library that compute with matrices and products of shares, for all
parties at once, and its functions on matrices. `makeIdentity` returns both matrices. -/
structure Fortissimo (ι : Type) where
  multiply : Product → (ι → ℕ) → (ι → ℕ) → ι → ℕ
  matrixMult {l m n : ℕ} : (ι → Matrix (Fin l) (Fin m) ℕ) → (ι → Matrix (Fin m) (Fin n) ℕ) →
    ι → Matrix (Fin l) (Fin n) ℕ
  reveal : (ι → ℕ) → ℕ
  ofVector : (ℕ → ℕ) → (rows cols : ℕ) → Matrix (Fin rows) (Fin cols) ℕ
  makeIdentity {n m : ℕ} : ℕ → Matrix (Fin n) (Fin n) ℕ → Matrix (Fin n) (Fin m) ℕ →
    Matrix (Fin n) (Fin n) ℕ × Matrix (Fin n) (Fin m) ℕ
  det {n : ℕ} : ℕ → Matrix (Fin n) (Fin n) ℕ → ℕ
  modInvert : ℕ → ℕ → ℕ

variable {ι : Type} [Fintype ι] {n : ℕ}

/-- The fronctocols compute shares of what they are named after, modulo `q`; a matrix is made from
a vector row by row; and `MakeIdentity` multiplies its argument by the inverse of the matrix. -/
structure Fortissimo.Ideal (ff : Fortissimo ι) (q : ℕ) [Fact q.Prime] : Prop where
  multiply_lt (k : Product) (x y : ι → ℕ) (p : ι) : ff.multiply k x y p < q
  multiply (k : Product) (x y : ι → ℕ) :
    reconstruct q (ff.multiply k x y) = reconstruct q x * reconstruct q y
  matrixMult {l m n : ℕ} (x : ι → Matrix (Fin l) (Fin m) ℕ) (y : ι → Matrix (Fin m) (Fin n) ℕ) :
    reconstructMatrix q (ff.matrixMult x y) = reconstructMatrix q x * reconstructMatrix q y
  reveal (x : ι → ℕ) : (ff.reveal x : ZMod q) = reconstruct q x
  ofVector (values : ℕ → ℕ) {rows cols : ℕ} (i : Fin rows) (j : Fin cols) :
    ff.ofVector values rows cols i j = values (i * cols + j)
  makeIdentity {n m : ℕ} (M : Matrix (Fin n) (Fin n) ℕ) (V : Matrix (Fin n) (Fin m) ℕ)
    (hM : IsUnit (residues q M).det) : (ff.makeIdentity q M V).1 = M ∧
      residues q (ff.makeIdentity q M V).2 = (residues q M)⁻¹ * residues q V
  det {n : ℕ} (M : Matrix (Fin n) (Fin n) ℕ) : (ff.det q M : ZMod q) = (residues q M).det
  modInvert (a : ℕ) (ha : (a : ZMod q) ≠ 0) : (ff.modInvert a q : ZMod q) = (a : ZMod q)⁻¹

/-! ### The random matrix -/

/-- `RandomSquareMatrix`. -/
structure RandomSquareMatrix (n : ℕ) where
  values : Matrix (Fin n) (Fin n) ℕ
  detOfInverse : ℕ

/-- What `randomModP` returns: the original matrix and the shares of all parties but the first. -/
structure MatrixDraws (n q : ℕ) where
  orig : Matrix (Fin n) (Fin n) (Fin q)
  values : ℕ → Matrix (Fin n) (Fin n) (Fin q)
  detOfInverse : ℕ → Fin q

namespace MatrixDraws

variable {q : ℕ} (draws : MatrixDraws n q) (ff : Fortissimo ι)

/-- The original, before it is shared. -/
def original : RandomSquareMatrix n where
  values := draws.orig.map (·.val)
  detOfInverse := ff.modInvert (ff.det q (draws.orig.map (·.val))) q

/-- The share `i`, for `i` from `1`. -/
def share (i : ℕ) : RandomSquareMatrix n where
  values := (draws.values i).map (·.val)
  detOfInverse := (draws.detOfInverse i).val

/-- Subtract a share from what is left of the original. -/
def subtract (orig current : RandomSquareMatrix n) : RandomSquareMatrix n where
  values := fun row col ↦ (orig.values row col + (q - current.values row col)) % q
  detOfInverse := (orig.detOfInverse + (q - current.detOfInverse)) % q

/-- `generate`, at the position `p` of `vals`. -/
def generate (nParties p : ℕ) : RandomSquareMatrix n :=
  if p = 0 then
    forRange (fun orig k ↦ subtract (q := q) orig (draws.share (k + 1))) (nParties - 1)
      (draws.original ff)
  else draws.share p

end MatrixDraws

/-! ### The stages -/

/-- `matrix_and_vector_merged`. -/
def matrixAndVectorMerged (n : ℕ) (shares : RegressionInfo.StageShares) : ℕ → ℕ :=
  let merged := forGrid (fun merged i j ↦
    Function.update merged (i * (n + 1) + j) (shares.matrixShare.getD (i * n + j) 0)) n n
    fun _ ↦ 0
  forRange (fun merged i ↦
    Function.update merged (i * (n + 1) + n) (shares.vectorShare.getD i 0)) n merged

/-- What the stages work on: the shares of the products of the variables modulo `endModulus`, and
the random matrices. -/
structure Solve (ι : Type) (n endModulus : ℕ) where
  ff : Fortissimo ι
  shares : ι → RegressionInfo.StageShares
  random : ι → RandomSquareMatrix n

namespace Solve

variable {endModulus : ℕ} (S : Solve ι n endModulus)

/-- `m.front()`. -/
def m (p : ι) : Matrix (Fin n) (Fin (n + 1)) ℕ :=
  S.ff.ofVector (matrixAndVectorMerged n (S.shares p)) n (n + 1)

/-- `matMultiplyOutput`. -/
def matMultiplyOutput : ι → Matrix (Fin n) (Fin (n + 1)) ℕ :=
  S.ff.matrixMult (fun p ↦ (S.random p).values) S.m

/-- `output_of_reveal`. -/
def outputOfReveal : Matrix (Fin n) (Fin n) ℕ :=
  fun i j ↦ S.ff.reveal fun p ↦ S.matMultiplyOutput p i j.castSucc

/-- `vectorShare`, the last column of the product. -/
def vectorShare (p : ι) (i : ℕ) : ℕ :=
  if hi : i < n then S.matMultiplyOutput p ⟨i, hi⟩ (Fin.last n) else 0

/-- The first call of `MakeIdentity`. -/
def reduceVector (p : ι) : Matrix (Fin n) (Fin n) ℕ × Matrix (Fin n) (Fin 1) ℕ :=
  S.ff.makeIdentity endModulus S.outputOfReveal (S.ff.ofVector (S.vectorShare p) n 1)

/-- The second call of `MakeIdentity`. -/
def reduceRandom (p : ι) : Matrix (Fin n) (Fin n) ℕ × Matrix (Fin n) (Fin n) ℕ :=
  S.ff.makeIdentity endModulus (S.reduceVector p).1 (S.random p).values

/-- `vectorShareAsMatrixObject.at(i, 0)`. -/
def solution (i : Fin n) (p : ι) : ℕ := (S.reduceVector p).2 i 0

/-- `r.front()`. -/
def r (p : ι) : Matrix (Fin n) (Fin n) ℕ := (S.reduceRandom p).2

/-- `det`. -/
def det (p : ι) : ℕ := S.ff.det endModulus (S.reduceRandom p).1

/-- `det * detShare`. -/
def detDetShare (p : ι) : ℕ := S.det p * (S.random p).detOfInverse

/-- `regressionMultiplyOutput`. -/
def regressionMultiplyOutput (i : Fin n) : ι → ℕ :=
  S.ff.multiply (.regressionMultiplyOutput i) S.detDetShare (S.solution i)

/-- `X_T_X_inv_diag_reweighted`. -/
def xTXInvDiagReweighted (i : Fin n) : ι → ℕ :=
  S.ff.multiply (.xTXInvDiagReweighted i) S.detDetShare fun p ↦ S.r p i i

end Solve
end Safrn.Stats
