import Mathlib.LinearAlgebra.Matrix.Block
import Mathlib.LinearAlgebra.Matrix.NonsingularInverse

/-!
# Elimination without row exchanges

Adding a multiple of one row of a system of equations to another one keeps its solutions, and, when
the row is added to a later one, the leading principal minors. Of an upper triangular matrix these
are the products of the pivots, so that elimination without exchanges meets a zero pivot exactly
where a leading principal minor is zero.
-/

namespace Safrn.Base

open Finset

variable {R : Type} [CommRing R]

/-- The determinant of the first `k` rows and columns. -/
def leadingMinor (M : ℕ → ℕ → R) (k : ℕ) : R :=
  (Matrix.of fun r c : Fin k ↦ M r c).det

/-- `x` solves the first `n` equations. -/
def Solves (n : ℕ) (M : ℕ → ℕ → R) (b x : ℕ → R) : Prop :=
  ∀ r < n, ∑ c ∈ range n, M r c * x c = b r

/-- The rows of `M'` are those of `M`, but for a multiple of row `i` that is added to row `j`. -/
def RowAdded (n : ℕ) (M M' : ℕ → ℕ → R) (a : R) (i j : ℕ) : Prop :=
  (∀ c < n, M' j c = M j c + a * M i c) ∧ ∀ r < n, r ≠ j → ∀ c < n, M' r c = M r c

/-- Nothing is left below the diagonal in the first `i` columns. -/
def Cleared {S : Type} [Zero S] (n i : ℕ) (M : ℕ → ℕ → S) : Prop :=
  ∀ c < i, ∀ r < n, c < r → M r c = 0

variable {n i j k : ℕ} {M M' : ℕ → ℕ → R} {a : R} {b b' x : ℕ → R}

/-! ### Leading principal minors -/

theorem leadingMinor_congr (h : ∀ r < k, ∀ c < k, M r c = M' r c) :
    leadingMinor M k = leadingMinor M' k := by
  unfold leadingMinor
  congr 1
  ext r c
  exact h r r.isLt c c.isLt

/-- A row that is added to a later one changes no leading principal minor. -/
theorem RowAdded.leadingMinor (h : RowAdded n M M' a i j) (hij : i < j) (hk : k ≤ n) :
    leadingMinor M' k = leadingMinor M k := by
  by_cases hjk : j < k
  · let A := Matrix.of fun r c : Fin k ↦ M r c
    let row : Fin k := ⟨i, hij.trans hjk⟩
    let target : Fin k := ⟨j, hjk⟩
    have hne : target ≠ row := by
      intro heq
      have := congrArg Fin.val heq
      simp only [row, target] at this
      omega
    have hA : (Matrix.of fun r c : Fin k ↦ M' r c) =
        A.updateRow target (A target + a • A row) := by
      ext r c
      have hc : (c : ℕ) < n := by omega
      by_cases hr : r = target
      · subst hr
        rw [Matrix.updateRow_self]
        exact h.1 c hc
      · rw [Matrix.updateRow_ne hr]
        apply h.2 r (by omega) _ c hc
        intro heq
        exact hr (Fin.ext heq)
    unfold Base.leadingMinor
    rw [hA, Matrix.det_updateRow_add_smul_self A hne]
  · apply leadingMinor_congr
    intro r hr c hc
    exact h.2 r (by omega) (by omega) c (by omega)

/-- As far as the columns are cleared the leading principal minors are products of pivots. -/
theorem Cleared.leadingMinor (h : Cleared n i M) (hk : k ≤ i + 1) (hkn : k ≤ n) :
    leadingMinor M k = ∏ c ∈ range k, M c c := by
  have hupper : (Matrix.of fun r c : Fin k ↦ M r c).IsUpperTriangular := by
    intro r c hcr
    apply h c _ r (by omega) hcr
    have : (c : ℕ) < r := hcr
    omega
  unfold Base.leadingMinor
  rw [Matrix.det_of_isUpperTriangular hupper, Finset.prod_range]
  rfl

/-- The pivot is the quotient of two leading principal minors. -/
theorem Cleared.leadingMinor_succ (h : Cleared n i M) (hi : i < n) :
    Base.leadingMinor M (i + 1) = Base.leadingMinor M i * M i i := by
  rw [h.leadingMinor le_rfl hi, h.leadingMinor (Nat.le_succ i) (Nat.le_of_lt hi),
    prod_range_succ]

/-! ### Solutions -/

theorem RowAdded.solves (h : RowAdded n M M' a i j) (hi : i < n) (hb : b' j = b j + a * b i)
    (hrest : ∀ r < n, r ≠ j → b' r = b r) (hx : Solves n M b x) : Solves n M' b' x := by
  intro r hr
  by_cases hrj : r = j
  · subst hrj
    have hrow : ∑ c ∈ range n, M' r c * x c = ∑ c ∈ range n, (M r c * x c + a * (M i c * x c)) := by
      apply sum_congr rfl
      intro c hc
      rw [h.1 c (mem_range.mp hc)]
      ring
    rw [hrow, sum_add_distrib, ← mul_sum, hx r hr, hx i hi, hb]
  · rw [hrest r hr hrj, ← hx r hr]
    apply sum_congr rfl
    intro c hc
    rw [h.2 r hr hrj c (mem_range.mp hc)]

/-- An equation in which one unknown is left. -/
theorem Solves.diagonal (hx : Solves n M b x) (hi : i < n) (hoff : ∀ c < n, c ≠ i → M i c = 0) :
    M i i * x i = b i := by
  rw [← hx i hi]
  symm
  apply sum_eq_single_of_mem i (mem_range.mpr hi)
  intro c hc hci
  rw [hoff c (mem_range.mp hc) hci, zero_mul]

/-- The equations of an invertible matrix have the solution `M⁻¹ b`. -/
theorem solves_nonsing_inv (hM : IsUnit (leadingMinor M n))
    (hx : ∀ r : Fin n, x r = ((Matrix.of fun r c : Fin n ↦ M r c)⁻¹.mulVec fun c ↦ b c) r) :
    Solves n M b x := by
  intro r hr
  have hmul : (Matrix.of fun r c : Fin n ↦ M r c).mulVec (fun c ↦ x c) = fun c : Fin n ↦ b c := by
    rw [funext hx, Matrix.mulVec_mulVec, Matrix.mul_nonsing_inv _ hM, Matrix.one_mulVec]
  rw [Finset.sum_range]
  exact congrFun hmul ⟨r, hr⟩

end Safrn.Base
