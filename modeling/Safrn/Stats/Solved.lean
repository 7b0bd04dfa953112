import Safrn.Stats.Solve

/-!
# What the solved shares add up to

The product of the random matrix with the merged matrix is `R * A` beside `R * b`. Each party
multiplies the inverse of the opened `R * A` to its shares, so the solutions add up to
`(R * A)⁻¹ * R * b = A⁻¹ * b`, and the random matrix is turned into `(R * A)⁻¹ * R = A⁻¹`. The
determinant of `R * A` and the shares of that of `R⁻¹` give shares of `A.det`.
-/

namespace Safrn.Stats

open Safrn.Base

/-! ### The merged matrix -/

theorem matrixAndVectorMerged_matrix {n i j : ℕ} (shares : RegressionInfo.StageShares) (hi : i < n)
    (hj : j < n) :
    matrixAndVectorMerged n shares (i * (n + 1) + j) = shares.matrixShare.getD (i * n + j) 0 := by
  have hrow {c : ℕ} (hc : c < n * n) : c / n * (n + 1) + c % n < c / n * (n + 1) + (n + 1) := by
    have hpos : 0 < n := Nat.zero_lt_of_lt hi
    have := Nat.mod_lt c hpos
    omega
  have hcol {c : ℕ} (hc : c < n * n) : c % n < n + 1 := by
    have := hrow hc
    omega
  have hcell : i * n + j < n * n := by
    calc i * n + j < i * n + n := by omega
      _ = (i + 1) * n := by ring
      _ ≤ n * n := Nat.mul_le_mul_right n hi
  unfold matrixAndVectorMerged
  rw [forRange_update_of_ne (fun i ↦ i * (n + 1) + n), forGrid_eq]
  · have hset := forRange_update_get (fun c ↦ c / n * (n + 1) + c % n)
      (fun c ↦ shares.matrixShare.getD (c / n * n + c % n) 0) (fun _ ↦ 0) hcell ?_
    · rwa [cell_div i hj, cell_mod i hj] at hset
    · intro c hc d hd heq
      have hdiv := congrArg (· / (n + 1)) heq
      have hmod := congrArg (· % (n + 1)) heq
      rw [cell_div _ (hcol hc), cell_div _ (hcol hd)] at hdiv
      rw [cell_mod _ (hcol hc), cell_mod _ (hcol hd)] at hmod
      rw [← div_mul_add_mod c n, ← div_mul_add_mod d n, hdiv, hmod]
  · intro c _ heq
    have hmod := congrArg (· % (n + 1)) heq
    rw [cell_mod _ (by omega), cell_mod _ (by omega)] at hmod
    omega

theorem matrixAndVectorMerged_vector {n i : ℕ} (shares : RegressionInfo.StageShares) (hi : i < n) :
    matrixAndVectorMerged n shares (i * (n + 1) + n) = shares.vectorShare.getD i 0 := by
  unfold matrixAndVectorMerged
  apply forRange_update_get (fun i ↦ i * (n + 1) + n) (fun i ↦ shares.vectorShare.getD i 0) _ hi
  intro c _ d _ heq
  have hdiv := congrArg (· / (n + 1)) heq
  rwa [cell_div _ (by omega), cell_div _ (by omega)] at hdiv

/-! ### The dealt matrix -/

variable {ι : Type} {n q : ℕ}

namespace MatrixDraws

variable (draws : MatrixDraws n q) (ff : Fortissimo ι)

/-- What is subtracted from the original is what the other parties receive. -/
private theorem sum_generate {M : Type} [AddCommGroup M] (φ : RandomSquareMatrix n → M)
    (hφ : ∀ orig i, φ (subtract (q := q) orig (draws.share i)) = φ orig - φ (draws.share i))
    (k : ℕ) : ∑ p : Fin (k + 1), φ (draws.generate ff (k + 1) p) = φ (draws.original ff) := by
  have hfirst : φ (draws.generate ff (k + 1) 0) =
      φ (draws.original ff) + ∑ i ∈ Finset.range k, -φ (draws.share (i + 1)) := by
    apply forRange_map_eq_add_sum φ
    intro orig i _
    rw [hφ, sub_eq_add_neg]
  have hrest (i : Fin k) : draws.generate ff (k + 1) i.succ = draws.share (i + 1) :=
    if_neg (Nat.succ_ne_zero _)
  rw [Fin.sum_univ_succ, Fin.val_zero, hfirst, Finset.sum_neg_distrib, Finset.sum_range,
    Finset.sum_congr rfl fun i _ ↦ congrArg φ (hrest i)]
  exact neg_add_cancel_right _ _

theorem reconstructMatrix_generate (k : ℕ) :
    (reconstructMatrix q fun p : Fin (k + 1) ↦ (draws.generate ff (k + 1) p).values) =
      residues q (draws.orig.map (·.val)) := by
  refine draws.sum_generate ff (fun x ↦ residues q x.values) (fun orig i ↦ ?_) k
  ext row col
  have hle : (draws.share i).values row col ≤ q := Nat.le_of_lt (draws.values i row col).isLt
  show (((orig.values row col + (q - (draws.share i).values row col)) % q : ℕ) : ZMod q) = _
  rw [ZMod.natCast_mod, Nat.cast_add, cast_neg_of_le hle, ← sub_eq_add_neg]
  rfl

theorem reconstruct_generate (k : ℕ) :
    (reconstruct q fun p : Fin (k + 1) ↦ (draws.generate ff (k + 1) p).detOfInverse) =
      (draws.original ff).detOfInverse := by
  refine draws.sum_generate ff (fun x ↦ (x.detOfInverse : ZMod q)) (fun orig i ↦ ?_) k
  have hle : (draws.share i).detOfInverse ≤ q := Nat.le_of_lt (draws.detOfInverse i).isLt
  simp [subtract, ZMod.natCast_mod, cast_neg_of_le hle, sub_eq_add_neg]

end MatrixDraws

variable [Fintype ι] [Fact q.Prime]

namespace Solve

variable (S : Solve ι n q)

/-- The random matrix. -/
def R : Matrix (Fin n) (Fin n) (ZMod q) := reconstructMatrix q fun p ↦ (S.random p).values

/-- The library does what it should, the parties hold shares of `A` and `b`, and shares of a random
matrix, which can be inverted, and of the determinant of its inverse. -/
structure Given (A : Matrix (Fin n) (Fin n) (ZMod q)) (b : Fin n → ZMod q) : Prop where
  ideal : S.ff.Ideal q
  matrix (i j : Fin n) :
    reconstruct q (fun p ↦ (S.shares p).matrixShare.getD (i * n + j) 0) = A i j
  vector (i : Fin n) : reconstruct q (fun p ↦ (S.shares p).vectorShare.getD i 0) = b i
  unit : IsUnit A.det
  unitR : IsUnit S.R.det
  detOfInverse : reconstruct q (fun p ↦ (S.random p).detOfInverse) = S.R.det⁻¹

/-! ### The stages -/

variable {S} {A : Matrix (Fin n) (Fin n) (ZMod q)} {b : Fin n → ZMod q}

theorem m_matrix (h : S.Given A b) (i j : Fin n) :
    reconstructMatrix q S.m i j.castSucc = A i j := by
  rw [reconstructMatrix_apply, ← h.matrix i j]
  refine reconstruct_congr fun p ↦ congrArg _ ?_
  rw [m, h.ideal.ofVector, Fin.val_castSucc, matrixAndVectorMerged_matrix _ i.isLt j.isLt]

theorem m_vector (h : S.Given A b) (i : Fin n) :
    reconstructMatrix q S.m i (Fin.last n) = b i := by
  rw [reconstructMatrix_apply, ← h.vector i]
  refine reconstruct_congr fun p ↦ congrArg _ ?_
  rw [m, h.ideal.ofVector, Fin.val_last, matrixAndVectorMerged_vector _ i.isLt]

theorem matMultiplyOutput_matrix (h : S.Given A b) (i j : Fin n) :
    reconstructMatrix q S.matMultiplyOutput i j.castSucc = (S.R * A) i j := by
  rw [matMultiplyOutput, h.ideal.matrixMult, Matrix.mul_apply, Matrix.mul_apply]
  exact Finset.sum_congr rfl fun k _ ↦ by rw [m_matrix h]; rfl

theorem matMultiplyOutput_vector (h : S.Given A b) (i : Fin n) :
    reconstructMatrix q S.matMultiplyOutput i (Fin.last n) = (S.R.mulVec b) i := by
  rw [matMultiplyOutput, h.ideal.matrixMult, Matrix.mul_apply]
  exact Finset.sum_congr rfl fun k _ ↦ by rw [m_vector h]; rfl

/-- The matrix that is opened. -/
theorem residues_outputOfReveal (h : S.Given A b) : residues q S.outputOfReveal = S.R * A := by
  ext i j
  rw [← matMultiplyOutput_matrix h, reconstructMatrix_apply, ← h.ideal.reveal]
  rfl

theorem isUnit_outputOfReveal (h : S.Given A b) : IsUnit (residues q S.outputOfReveal).det := by
  rw [residues_outputOfReveal h, Matrix.det_mul]
  exact h.unitR.mul h.unit

/-- The inverse of the opened matrix takes the random matrix to the inverse of `A`. -/
theorem inv_mul_R (h : S.Given A b) : (S.R * A)⁻¹ * S.R = A⁻¹ := by
  rw [Matrix.mul_inv_rev, Matrix.mul_assoc, Matrix.nonsing_inv_mul _ h.unitR, Matrix.mul_one]

theorem reduceVector_eq (h : S.Given A b) (p : ι) : (S.reduceVector p).1 = S.outputOfReveal ∧
    residues q (S.reduceVector p).2 =
      (S.R * A)⁻¹ * residues q (S.ff.ofVector (S.vectorShare p) n 1) := by
  rw [← residues_outputOfReveal h]
  exact h.ideal.makeIdentity _ _ (isUnit_outputOfReveal h)

theorem reduceRandom_eq (h : S.Given A b) (p : ι) : (S.reduceRandom p).1 = S.outputOfReveal ∧
    residues q (S.reduceRandom p).2 = (S.R * A)⁻¹ * residues q (S.random p).values := by
  rw [reduceRandom, (reduceVector_eq h p).1, ← residues_outputOfReveal h]
  exact h.ideal.makeIdentity _ _ (isUnit_outputOfReveal h)

/-- The solutions add up to `A⁻¹ * b`. -/
theorem reconstruct_solution (h : S.Given A b) (i : Fin n) :
    reconstruct q (S.solution i) = (A⁻¹.mulVec b) i := by
  have hvec : (reconstructMatrix q fun p ↦ S.ff.ofVector (S.vectorShare p) n 1) =
      Matrix.replicateCol (Fin 1) (S.R.mulVec b) := by
    ext i j
    rw [reconstructMatrix_apply, Matrix.replicateCol_apply, ← matMultiplyOutput_vector h,
      reconstructMatrix_apply]
    refine reconstruct_congr fun p ↦ congrArg _ ?_
    rw [h.ideal.ofVector, Fin.val_eq_zero j, Nat.mul_one, Nat.add_zero, vectorShare,
      dif_pos i.isLt]
  have hmul := reconstructMatrix_mul_left (S.R * A)⁻¹ fun p ↦ (reduceVector_eq h p).2
  rw [hvec, ← Matrix.replicateCol_mulVec, Matrix.mulVec_mulVec, inv_mul_R h] at hmul
  rw [← Matrix.replicateCol_apply (ι := Fin 1) (A⁻¹.mulVec b) i 0, ← hmul, reconstructMatrix_apply]
  rfl

/-- The random matrices of the parties are turned into shares of `A⁻¹`. -/
theorem reconstructMatrix_r (h : S.Given A b) : reconstructMatrix q S.r = A⁻¹ := by
  rw [← inv_mul_R h]
  exact reconstructMatrix_mul_left _ fun p ↦ (reduceRandom_eq h p).2

/-- `det * detShare` are shares of the determinant of `A`. -/
theorem reconstruct_detDetShare (h : S.Given A b) : reconstruct q S.detDetShare = A.det := by
  have hdet (p : ι) : (S.det p : ZMod q) = S.R.det * A.det := by
    rw [det, (reduceRandom_eq h p).1, h.ideal.det, residues_outputOfReveal h, Matrix.det_mul]
  have hsum : reconstruct q S.detDetShare =
      S.R.det * A.det * reconstruct q fun p ↦ (S.random p).detOfInverse := by
    rw [reconstruct, reconstruct, Finset.mul_sum]
    exact Finset.sum_congr rfl fun p _ ↦ by rw [detDetShare, Nat.cast_mul, hdet]
  rw [hsum, h.detOfInverse]
  field_simp [h.unitR.ne_zero]

/-- The inverse, multiplied by the determinant. -/
theorem det_mul_inv (h : S.Given A b) : A.det • A⁻¹ = A.adjugate := by
  rw [Matrix.inv_def, smul_smul, Ring.mul_inverse_cancel _ h.unit, one_smul]

theorem reconstruct_regressionMultiplyOutput (h : S.Given A b) (i : Fin n) :
    reconstruct q (S.regressionMultiplyOutput i) = (A.adjugate.mulVec b) i := by
  rw [regressionMultiplyOutput, h.ideal.multiply, reconstruct_detDetShare h,
    reconstruct_solution h, ← det_mul_inv h, Matrix.smul_mulVec]
  rfl

theorem reconstruct_xTXInvDiagReweighted (h : S.Given A b) (i : Fin n) :
    reconstruct q (S.xTXInvDiagReweighted i) = A.adjugate i i := by
  rw [xTXInvDiagReweighted, h.ideal.multiply, reconstruct_detDetShare h,
    ← reconstructMatrix_apply, reconstructMatrix_r h, ← det_mul_inv h]
  rfl

end Solve

/-! ### Dealt and solved -/

/-- The stages on shares of `A` and `b` with a dealt matrix. -/
def Solve.dealt (ff : Fortissimo (Fin k)) (draws : MatrixDraws n q)
    (shares : Fin k → RegressionInfo.StageShares) : Solve (Fin k) n q where
  ff := ff
  shares := shares
  random p := draws.generate ff k p

/-- The parties hold shares of the integers `A` and `b`. -/
structure SharesOf (q : ℕ) (shares : ι → RegressionInfo.StageShares) (A : Matrix (Fin n) (Fin n) ℤ)
    (b : Fin n → ℤ) : Prop where
  matrix (i j : Fin n) :
    reconstruct q (fun p ↦ (shares p).matrixShare.getD (i * n + j) 0) = A i j
  vector (i : Fin n) : reconstruct q (fun p ↦ (shares p).vectorShare.getD i 0) = b i

/-- The adjugate modulo `q`. -/
theorem map_adjugate (A : Matrix (Fin n) (Fin n) ℤ) :
    (A.map (Int.cast : ℤ → ZMod q)).adjugate = A.adjugate.map Int.cast :=
  ((Int.castRingHom (ZMod q)).map_adjugate A).symm

theorem Solve.given_dealt {k : ℕ} {ff : Fortissimo (Fin (k + 1))} (hff : ff.Ideal q)
    {draws : MatrixDraws n q} {shares : Fin (k + 1) → RegressionInfo.StageShares}
    {A : Matrix (Fin n) (Fin n) ℤ} {b : Fin n → ℤ} (hshares : SharesOf q shares A b)
    (hA : IsUnit (A.map (Int.cast : ℤ → ZMod q)).det)
    (hR : IsUnit (residues q (draws.orig.map (·.val))).det) :
    (Solve.dealt ff draws shares).Given (A.map Int.cast) fun i ↦ (b i : ZMod q) := by
  have hsum : (Solve.dealt ff draws shares).R = residues q (draws.orig.map (·.val)) :=
    draws.reconstructMatrix_generate ff k
  refine ⟨hff, hshares.matrix, hshares.vector, hA, hsum ▸ hR, ?_⟩
  have hdet : (ff.det q (draws.orig.map (·.val)) : ZMod q) ≠ 0 := by
    rw [hff.det]
    exact hR.ne_zero
  calc (reconstruct q fun p : Fin (k + 1) ↦ (draws.generate ff (k + 1) p).detOfInverse)
    _ = (ff.modInvert (ff.det q (draws.orig.map (·.val))) q : ZMod q) :=
      draws.reconstruct_generate ff k
    _ = (residues q (draws.orig.map (·.val))).det⁻¹ := by rw [hff.modInvert _ hdet, hff.det]
    _ = (Solve.dealt ff draws shares).R.det⁻¹ := by rw [hsum]

/-- Whatever the sharing, the determinant of `A`, its adjugate times `b`, its inverse and its
adjugate are what the shares add up to. -/
theorem solve_reconstructs {k : ℕ} {ff : Fortissimo (Fin (k + 1))} (hff : ff.Ideal q)
    (draws : MatrixDraws n q) (shares : Fin (k + 1) → RegressionInfo.StageShares)
    (A : Matrix (Fin n) (Fin n) ℤ) (b : Fin n → ℤ) (hshares : SharesOf q shares A b)
    (hA : IsUnit (A.map (Int.cast : ℤ → ZMod q)).det)
    (hR : IsUnit (residues q (draws.orig.map (·.val))).det) :
    let S := Solve.dealt ff draws shares
    reconstruct q S.detDetShare = (A.det : ZMod q) ∧
      (∀ i, reconstruct q (S.regressionMultiplyOutput i) = (A.adjugate.mulVec b i : ℤ)) ∧
      reconstructMatrix q S.r = (A.map (Int.cast : ℤ → ZMod q))⁻¹ ∧
      reconstruct q S.detDetShare • reconstructMatrix q S.r = A.adjugate.map Int.cast ∧
      ∀ i, reconstruct q (S.xTXInvDiagReweighted i) = (A.adjugate i i : ZMod q) := by
  have h := Solve.given_dealt hff hshares hA hR
  have hdet : (A.map (Int.cast : ℤ → ZMod q)).det = (A.det : ZMod q) :=
    (Int.cast_det A).symm
  refine ⟨?_, fun i ↦ ?_, Solve.reconstructMatrix_r h, ?_, fun i ↦ ?_⟩
  · rw [Solve.reconstruct_detDetShare h, hdet]
  · rw [Solve.reconstruct_regressionMultiplyOutput h, map_adjugate]
    simp [Matrix.mulVec, dotProduct]
  · rw [Solve.reconstruct_detDetShare h, Solve.reconstructMatrix_r h, Solve.det_mul_inv h,
      map_adjugate]
  · rw [Solve.reconstruct_xTXInvDiagReweighted h, map_adjugate]
    rfl

/-- A library that computes in the clear and leaves the results with the first party. -/
noncomputable def Fortissimo.plain (q k : ℕ) : Fortissimo (Fin (k + 1)) where
  multiply _ x y p := if p = 0 then (reconstruct q x * reconstruct q y).val else 0
  matrixMult x y p :=
    if p = 0 then (reconstructMatrix q x * reconstructMatrix q y).map ZMod.val else 0
  reveal x := (reconstruct q x).val
  ofVector values _ cols i j := values (i * cols + j)
  makeIdentity m M V := (M, ((residues m M)⁻¹ * residues m V).map ZMod.val)
  det m M := (residues m M).det.val
  modInvert a m := (a : ZMod m)⁻¹.val

private theorem residues_val {m n : Type} (M : Matrix m n (ZMod q)) :
    residues q (M.map ZMod.val) = M := by
  ext i j
  exact ZMod.natCast_zmod_val (M i j)

theorem Fortissimo.plain_ideal (q k : ℕ) [Fact q.Prime] : (Fortissimo.plain q k).Ideal q where
  multiply_lt _ x y p := by
    simp only [plain]
    split
    · exact ZMod.val_lt _
    · exact (Fact.out : q.Prime).pos
  multiply _ x y := by
    simp [plain, reconstruct, apply_ite]
  matrixMult x y := by
    have hsum : reconstructMatrix q ((Fortissimo.plain q k).matrixMult x y) =
        residues q ((Fortissimo.plain q k).matrixMult x y 0) := by
      refine Fintype.sum_eq_single 0 fun p hp ↦ ?_
      ext i j
      simp [plain, hp, residues]
    rw [hsum]
    exact residues_val _
  reveal x := ZMod.natCast_zmod_val _
  ofVector _ _ _ _ _ := rfl
  makeIdentity M V _ := ⟨rfl, residues_val _⟩
  det M := ZMod.natCast_zmod_val _
  modInvert a _ := ZMod.natCast_zmod_val _

instance fact_prime_7 : Fact (Nat.Prime 7) := ⟨by decide⟩

open Numerals in
/-- Two parties with shares of two equations modulo 7. -/
def smallShares (p : Fin 2) : RegressionInfo.StageShares :=
  if p = 0 then ⟨[5, 3, 6, 4], [1, 2], 0, 0, 0⟩ else ⟨[4, 5, 2, 4], [2, 3], 0, 0, 0⟩

/-- A random matrix and its share. -/
def smallDraws : MatrixDraws 2 7 where
  orig := !![1, 2; 3, 4]
  values _ := !![6, 0; 1, 5]
  detOfInverse _ := 3

theorem solve_smallShares :
    let S := Solve.dealt (Fortissimo.plain 7 1) smallDraws smallShares
    reconstruct 7 S.detDetShare = 1 ∧ reconstruct 7 (S.regressionMultiplyOutput 0) = -2 := by
  have hshares : SharesOf 7 smallShares !![2, 1; 1, 1] ![3, 5] :=
    ⟨by decide, by decide⟩
  obtain ⟨hdet, hmul, -⟩ := solve_reconstructs (Fortissimo.plain_ideal 7 1) smallDraws smallShares
    !![2, 1; 1, 1] ![3, 5] hshares (by decide) (by decide)
  refine ⟨hdet.trans ?_, (hmul 0).trans ?_⟩
  · simp [Matrix.det_fin_two]
  · simp [Matrix.adjugate_fin_two, Matrix.mulVec, dotProduct]

/-! ### Singular draws -/

omit [Fintype ι] in
/-- `generate` draws the matrix once. What it deals adds up to an invertible matrix and to the
inverse of its determinant when there is a party and the draw is not singular, and not otherwise. -/
theorem MatrixDraws.generate_invertible_iff {ff : Fortissimo ι} (hn : 0 < n)
    (hdet : ∀ M : Matrix (Fin n) (Fin n) ℕ, (ff.det q M : ZMod q) = (residues q M).det)
    (hinv : ∀ a : ℕ, (a : ZMod q) ≠ 0 → (ff.modInvert a q : ZMod q) = (a : ZMod q)⁻¹)
    (draws : MatrixDraws n q) (nParties : ℕ) :
    let R := reconstructMatrix q fun p : Fin nParties ↦ (draws.generate ff nParties p).values
    (IsUnit R.det ∧
      (reconstruct q fun p : Fin nParties ↦ (draws.generate ff nParties p).detOfInverse) =
        R.det⁻¹) ↔
      0 < nParties ∧ (residues q (draws.orig.map (·.val))).det ≠ 0 := by
  intro R
  cases nParties with
  | zero =>
    have hzero : R.det = 0 := by
      have : Nonempty (Fin n) := Fin.pos_iff_nonempty.mp hn
      rw [show R = 0 from Fintype.sum_empty _, Matrix.det_zero]
    simp [hzero]
  | succ k =>
    have hR : R = residues q (draws.orig.map (·.val)) := draws.reconstructMatrix_generate ff k
    rw [hR, isUnit_iff_ne_zero, draws.reconstruct_generate ff k]
    constructor
    · intro h
      exact ⟨Nat.succ_pos k, h.1⟩
    · intro h
      have hne : (ff.det q (draws.orig.map (·.val)) : ZMod q) ≠ 0 := by
        rw [hdet]
        exact h.2
      refine ⟨h.2, ?_⟩
      rw [original, hinv _ hne, hdet]

theorem generate_smallDraws :
    let R := reconstructMatrix 7 fun p : Fin 2 ↦
      (smallDraws.generate (Fortissimo.plain 7 1) 2 p).values
    IsUnit R.det ∧ (reconstruct 7 fun p : Fin 2 ↦
      (smallDraws.generate (Fortissimo.plain 7 1) 2 p).detOfInverse) = R.det⁻¹ := by
  have hideal := Fortissimo.plain_ideal 7 1
  apply (MatrixDraws.generate_invertible_iff (by decide) hideal.det hideal.modInvert smallDraws
    2).mpr
  decide

/-- Two equal rows are drawn. -/
def singularDraws : MatrixDraws 2 7 where
  orig := !![1, 2; 1, 2]
  values _ := !![6, 0; 1, 5]
  detOfInverse _ := 3

theorem generate_singularDraws :
    ¬IsUnit (reconstructMatrix 7 fun p : Fin 2 ↦
      (singularDraws.generate (Fortissimo.plain 7 1) 2 p).values).det := by
  rw [MatrixDraws.reconstructMatrix_generate singularDraws (Fortissimo.plain 7 1) 1]
  decide

end Safrn.Stats
