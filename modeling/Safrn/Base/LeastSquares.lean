import Mathlib.Algebra.Order.BigOperators.Ring.Finset
import Mathlib.Algebra.Order.Star.Real
import Mathlib.Analysis.Matrix.PosDef
import Mathlib.LinearAlgebra.Matrix.AbsoluteValue
import Mathlib.LinearAlgebra.Matrix.Rank

/-!
# Integer least squares

The normal equations `(Xᵀ * X) β = Xᵀ Y` of an integer matrix `X` whose rows are observations:
bounds on the determinant, the adjugate, the numerators of the solution and the residual sum of
squares of a solution that is truncated to integers.
-/

namespace Safrn.Base

open Matrix

variable {N n : ℕ}

/-! ## Entries and determinants -/

theorem abs_sum_mul_le {x y : Fin N → ℤ} {s t : ℤ} (hx : ∀ k, |x k| ≤ s) (hy : ∀ k, |y k| ≤ t) :
    |∑ k, x k * y k| ≤ N * (s * t) := by
  calc |∑ k, x k * y k| ≤ ∑ k, |x k * y k| := Finset.abs_sum_le_sum_abs _ _
    _ ≤ ∑ _k : Fin N, s * t := by
        apply Finset.sum_le_sum
        intro k _
        rw [abs_mul]
        exact mul_le_mul (hx k) (hy k) (abs_nonneg _) ((abs_nonneg _).trans (hx k))
    _ = N * (s * t) := by simp

theorem abs_det_le {A : Matrix (Fin n) (Fin n) ℤ} {K : ℤ} (h : ∀ i j, |A i j| ≤ K) :
    |A.det| ≤ n.factorial * K ^ n := by
  have hdet : AbsoluteValue.abs A.det ≤
      (Fintype.card (Fin n)).factorial • K ^ Fintype.card (Fin n) := det_le h
  rw [AbsoluteValue.abs_apply, Fintype.card_fin, nsmul_eq_mul] at hdet
  exact hdet

theorem abs_adjugate_le {A : Matrix (Fin n) (Fin n) ℤ} {K : ℤ} (h : ∀ i j, |A i j| ≤ K)
    (i j : Fin n) : |A.adjugate i j| ≤ (n - 1).factorial * K ^ (n - 1) := by
  cases n with
  | zero => exact i.elim0
  | succ n =>
    rw [adjugate_fin_succ_eq_det_submatrix, abs_mul, abs_pow, abs_neg, abs_one, one_pow, one_mul]
    exact abs_det_le fun i' j' ↦ h _ _

variable (X : Matrix (Fin N) (Fin n) ℤ) (Y : Fin N → ℤ)

private theorem cast_det_gram (R : Type) [CommRing R] : (((Xᵀ * X).det : ℤ) : R) =
    ((X.map (Int.cast : ℤ → R))ᵀ * X.map (Int.cast : ℤ → R)).det := by
  have hmul : (Xᵀ * X).map (Int.castRingHom R) =
      Xᵀ.map (Int.castRingHom R) * X.map (Int.castRingHom R) := Matrix.map_mul
  rw [← transpose_map, Int.cast_det]
  exact congrArg det hmul

theorem det_gram_nonneg : 0 ≤ (Xᵀ * X).det := by
  have hpos := (posSemidef_conjTranspose_mul_self (X.map (Int.cast : ℤ → ℝ))).det_nonneg
  rw [conjTranspose_eq_transpose_of_trivial, ← cast_det_gram] at hpos
  exact_mod_cast hpos

variable {X} in
/-- A regression with a solution has at least as many rows as variables. -/
theorem le_rows_of_det_ne_zero (h : (Xᵀ * X).det ≠ 0) : n ≤ N := by
  have hunit : IsUnit
      ((X.map (Int.cast : ℤ → ℚ))ᵀ * X.map (Int.cast : ℤ → ℚ)) := by
    rw [isUnit_iff_isUnit_det, ← cast_det_gram, isUnit_iff_ne_zero]
    exact_mod_cast h
  have hrank := rank_of_isUnit _ hunit
  rw [Fintype.card_fin] at hrank
  calc n = ((X.map (Int.cast : ℤ → ℚ))ᵀ * X.map Int.cast).rank := hrank.symm
    _ ≤ (X.map (Int.cast : ℤ → ℚ)).rank := rank_mul_le_right _ _
    _ ≤ N := rank_le_height _

/-! ## The numerators of the solution -/

/-- Cauchy's inequality for a numerator of the solution. -/
theorem adjugate_mulVec_sq_le (i : Fin n) :
    ((Xᵀ * X).adjugate *ᵥ (Xᵀ *ᵥ Y)) i ^ 2 ≤
      (Xᵀ * X).det * (Xᵀ * X).adjugate i i * ∑ k, Y k ^ 2 := by
  let w : Fin N → ℤ := X *ᵥ (Xᵀ * X).adjugate i
  have hnumerator : ((Xᵀ * X).adjugate *ᵥ (Xᵀ *ᵥ Y)) i = ∑ k, w k * Y k := by
    show (Xᵀ * X).adjugate i ⬝ᵥ (Xᵀ *ᵥ Y) = w ⬝ᵥ Y
    rw [dotProduct_mulVec, vecMul_transpose]
  have hsquares : ∑ k, w k ^ 2 = (Xᵀ * X).det * (Xᵀ * X).adjugate i i := by
    calc ∑ k, w k ^ 2 = w ⬝ᵥ w := by simp only [dotProduct, sq]
      _ = (Xᵀ *ᵥ (X *ᵥ (Xᵀ * X).adjugate i)) ⬝ᵥ (Xᵀ * X).adjugate i := by
          show w ⬝ᵥ (X *ᵥ (Xᵀ * X).adjugate i) = _
          rw [dotProduct_mulVec, mulVec_transpose]
      _ = (Xᵀ * X).adjugate i ⬝ᵥ ((Xᵀ * X) *ᵥ (Xᵀ * X).adjugate i) := by
          rw [mulVec_mulVec, dotProduct_comm]
      _ = ((Xᵀ * X).adjugate * (Xᵀ * X)) i ⬝ᵥ (Xᵀ * X).adjugate i := by
          rw [dotProduct_mulVec]
          rfl
      _ = (Xᵀ * X).det * (Xᵀ * X).adjugate i i := by
          rw [adjugate_mul]
          simp [dotProduct, Matrix.smul_apply, Matrix.one_apply]
  rw [hnumerator, ← hsquares]
  exact Finset.sum_mul_sq_le_sq_mul_sq _ _ _

/-! ## The residual sum of squares -/

/-- The residual sum of squares of the coefficients `β`. -/
def residual (β : Fin n → ℤ) : ℤ := ∑ k, (Y k - (X *ᵥ β) k) ^ 2

variable {X Y}

theorem residual_nonneg (β : Fin n → ℤ) : 0 ≤ residual X Y β :=
  Finset.sum_nonneg fun _ _ ↦ sq_nonneg _

private theorem sum_mulVec_sq (v : Fin n → ℤ) :
    ∑ k, (X *ᵥ v) k ^ 2 = v ⬝ᵥ ((Xᵀ * X) *ᵥ v) := by
  calc ∑ k, (X *ᵥ v) k ^ 2 = (X *ᵥ v) ⬝ᵥ (X *ᵥ v) := by simp only [dotProduct, sq]
    _ = v ⬝ᵥ (Xᵀ *ᵥ (X *ᵥ v)) := by rw [dotProduct_mulVec, dotProduct_comm, mulVec_transpose]
    _ = v ⬝ᵥ ((Xᵀ * X) *ᵥ v) := by rw [mulVec_mulVec]

/-- The residual sum of squares from the sums of products. -/
theorem residual_eq (β : Fin n → ℤ) : residual X Y β =
    ∑ k, Y k ^ 2 + ∑ i, ∑ j, β i * β j * (Xᵀ * X) i j - 2 * ∑ i, β i * (Xᵀ *ᵥ Y) i := by
  have hquadratic : ∑ k, (X *ᵥ β) k ^ 2 = ∑ i, ∑ j, β i * β j * (Xᵀ * X) i j := by
    rw [sum_mulVec_sq, dotProduct]
    apply Finset.sum_congr rfl
    intro i _
    rw [mulVec, dotProduct, Finset.mul_sum]
    apply Finset.sum_congr rfl
    intro j _
    ring
  have hlinear : ∑ k, Y k * (X *ᵥ β) k = ∑ i, β i * (Xᵀ *ᵥ Y) i := by
    show Y ⬝ᵥ (X *ᵥ β) = β ⬝ᵥ (Xᵀ *ᵥ Y)
    rw [dotProduct_mulVec, mulVec_transpose, dotProduct_comm]
  have hsquare : ∀ k, (Y k - (X *ᵥ β) k) ^ 2 =
      Y k ^ 2 + (X *ᵥ β) k ^ 2 - 2 * (Y k * (X *ᵥ β) k) := fun k ↦ by ring
  simp only [residual, hsquare, Finset.sum_sub_distrib, Finset.sum_add_distrib, ← Finset.mul_sum,
    hquadratic, hlinear]

/-- What is orthogonal to the columns adds up with their combinations as in a right triangle. -/
private theorem sum_add_mulVec_sq {e : Fin N → ℤ} (h : Xᵀ *ᵥ e = 0) (v : Fin n → ℤ) :
    ∑ k, (e k + (X *ᵥ v) k) ^ 2 = ∑ k, e k ^ 2 + ∑ k, (X *ᵥ v) k ^ 2 := by
  have hcross : ∑ k, e k * (X *ᵥ v) k = 0 := by
    show e ⬝ᵥ (X *ᵥ v) = 0
    rw [dotProduct_mulVec, ← mulVec_transpose, h, zero_dotProduct]
  have hsquare : ∀ k, (e k + (X *ᵥ v) k) ^ 2 =
      e k ^ 2 + (X *ᵥ v) k ^ 2 + 2 * (e k * (X *ᵥ v) k) := fun k ↦ by ring
  simp only [hsquare, Finset.sum_add_distrib, ← Finset.mul_sum, hcross, mul_zero, add_zero]

/-- The residual sum of squares of integer coefficients, from their distance `r` to the numerators
of the solution. -/
theorem residual_of_remainder {c β r : Fin n → ℤ} (hc : c = (Xᵀ * X).adjugate *ᵥ (Xᵀ *ᵥ Y))
    (hr : ∀ i, c i = (Xᵀ * X).det * β i + r i) :
    (Xᵀ * X).det ^ 2 * residual X Y β + ∑ k, (X *ᵥ c) k ^ 2 =
      (Xᵀ * X).det ^ 2 * ∑ k, Y k ^ 2 + ∑ k, (X *ᵥ r) k ^ 2 := by
  let d := (Xᵀ * X).det
  let e : Fin N → ℤ := fun k ↦ d * Y k - (X *ᵥ c) k
  have horthogonal : Xᵀ *ᵥ e = 0 := by
    have hsplit : e = d • Y - X *ᵥ c := rfl
    rw [hsplit, mulVec_sub, mulVec_smul, mulVec_mulVec, hc, mulVec_mulVec, mul_adjugate,
      smul_mulVec, one_mulVec]
    exact sub_self _
  have hcombined : ∀ k, (X *ᵥ c) k = d * (X *ᵥ β) k + (X *ᵥ r) k := by
    intro k
    have hvec : c = d • β + r := funext fun i ↦ hr i
    rw [hvec, mulVec_add, mulVec_smul]
    rfl
  have hresidual := sum_add_mulVec_sq horthogonal r
  have htotal := sum_add_mulVec_sq horthogonal c
  have hscale : d ^ 2 * residual X Y β = ∑ k, (e k + (X *ᵥ r) k) ^ 2 := by
    rw [residual, Finset.mul_sum]
    apply Finset.sum_congr rfl
    intro k _
    show d ^ 2 * (Y k - (X *ᵥ β) k) ^ 2 = (d * Y k - (X *ᵥ c) k + (X *ᵥ r) k) ^ 2
    rw [hcombined k]
    ring
  have hscale' : d ^ 2 * ∑ k, Y k ^ 2 = ∑ k, (e k + (X *ᵥ c) k) ^ 2 := by
    rw [Finset.mul_sum]
    apply Finset.sum_congr rfl
    intro k _
    show d ^ 2 * Y k ^ 2 = (d * Y k - (X *ᵥ c) k + (X *ᵥ c) k) ^ 2
    ring
  show d ^ 2 * residual X Y β + _ = d ^ 2 * _ + _
  rw [hscale, hscale', hresidual, htotal]
  ring

/-- Truncating every coefficient towards zero costs at most the sum of the absolute values of the
entries of the matrix. -/
theorem residual_tdiv_le {K : ℤ} (hK : ∀ i j, |(Xᵀ * X) i j| ≤ K) (hdet : (Xᵀ * X).det ≠ 0) :
    residual X Y (fun i ↦ (((Xᵀ * X).adjugate *ᵥ (Xᵀ *ᵥ Y)) i).tdiv (Xᵀ * X).det) ≤
      ∑ k, Y k ^ 2 + n ^ 2 * K := by
  let d := (Xᵀ * X).det
  let c := (Xᵀ * X).adjugate *ᵥ (Xᵀ *ᵥ Y)
  let r : Fin n → ℤ := fun i ↦ (c i).tmod d
  have hpos : 0 < d := lt_of_le_of_ne (det_gram_nonneg X) (Ne.symm hdet)
  have hr : ∀ i, |r i| ≤ d := by
    intro i
    have hlt : ((c i).tmod d).natAbs < d.natAbs := by
      rw [Int.natAbs_tmod]
      exact Nat.mod_lt _ (Int.natAbs_pos.mpr hdet)
    show |(c i).tmod d| ≤ d
    rw [Int.abs_eq_natAbs]
    omega
  have hsplit := residual_of_remainder (X := X) (Y := Y) rfl
    (fun i ↦ (Int.mul_tdiv_add_tmod (c i) d).symm)
  have hremainder : ∑ k, (X *ᵥ r) k ^ 2 ≤ d ^ 2 * (n ^ 2 * K) := by
    rw [sum_mulVec_sq]
    calc r ⬝ᵥ ((Xᵀ * X) *ᵥ r) = ∑ i, ∑ j, r i * ((Xᵀ * X) i j * r j) := by
          simp only [dotProduct, mulVec, Finset.mul_sum]
      _ ≤ ∑ _i : Fin n, ∑ _j : Fin n, d * (K * d) := by
          apply Finset.sum_le_sum
          intro i _
          apply Finset.sum_le_sum
          intro j _
          calc r i * ((Xᵀ * X) i j * r j) ≤ |r i * ((Xᵀ * X) i j * r j)| := le_abs_self _
            _ = |r i| * (|(Xᵀ * X) i j| * |r j|) := by rw [abs_mul, abs_mul]
            _ ≤ d * (K * d) := by
                have hK0 : 0 ≤ K := (abs_nonneg _).trans (hK i j)
                apply mul_le_mul (hr i) _ (by positivity) hpos.le
                exact mul_le_mul (hK i j) (hr j) (abs_nonneg _) hK0
      _ = d ^ 2 * (n ^ 2 * K) := by
          simp only [Finset.sum_const, Finset.card_univ, Fintype.card_fin, nsmul_eq_mul]
          ring
  have hnonneg : 0 ≤ ∑ k, (X *ᵥ c) k ^ 2 := Finset.sum_nonneg fun _ _ ↦ sq_nonneg _
  have hsq : 0 < d ^ 2 := by positivity
  apply le_of_mul_le_mul_left _ hsq
  rw [mul_add]
  show d ^ 2 * _ ≤ d ^ 2 * _ + d ^ 2 * _
  linarith

/-- Truncating the coefficient of a single variable towards zero costs nothing against no
coefficient. -/
theorem residual_tdiv_le_of_one {X : Matrix (Fin N) (Fin 1) ℤ} (hdet : (Xᵀ * X).det ≠ 0) :
    residual X Y (fun i ↦ (((Xᵀ * X).adjugate *ᵥ (Xᵀ *ᵥ Y)) i).tdiv (Xᵀ * X).det) ≤
      ∑ k, Y k ^ 2 := by
  let d := (Xᵀ * X).det
  let c := (Xᵀ * X).adjugate *ᵥ (Xᵀ *ᵥ Y)
  let r : Fin 1 → ℤ := fun i ↦ (c i).tmod d
  have hr : |r 0| ≤ |c 0| := by
    have hle : ((c 0).tmod d).natAbs ≤ (c 0).natAbs := by
      rw [Int.natAbs_tmod]
      exact Nat.mod_le _ _
    show |(c 0).tmod d| ≤ |c 0|
    rw [Int.abs_eq_natAbs, Int.abs_eq_natAbs]
    exact_mod_cast hle
  have hsplit := residual_of_remainder (X := X) (Y := Y) rfl
    (fun i ↦ (Int.mul_tdiv_add_tmod (c i) d).symm)
  have hremainder : ∑ k, (X *ᵥ r) k ^ 2 ≤ ∑ k, (X *ᵥ c) k ^ 2 := by
    apply Finset.sum_le_sum
    intro k _
    apply sq_le_sq.mpr
    simp only [mulVec, dotProduct, Fin.sum_univ_one, abs_mul]
    exact mul_le_mul_of_nonneg_left hr (abs_nonneg _)
  have hsq : 0 < d ^ 2 := by positivity
  apply le_of_mul_le_mul_left _ hsq
  show d ^ 2 * _ ≤ d ^ 2 * _
  linarith

end Safrn.Base
