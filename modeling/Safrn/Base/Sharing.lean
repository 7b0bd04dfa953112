import Mathlib.Algebra.Field.ZMod
import Mathlib.LinearAlgebra.Matrix.NonsingularInverse
import Safrn.Base.Loop

/-!
# Additive sharing modulo a number

The shares of a value are numbers that add up to it modulo `q`. Sums of shares and multiples by a
public number are computed by each party for itself; a public summand is added by one party only.
A matrix is shared entry by entry, so that a public factor may also stand on its left.
-/

namespace Safrn.Base

variable {ι : Type} [Fintype ι] {q : ℕ}

/-- What the shares of all parties add up to. -/
def reconstruct (q : ℕ) (x : ι → ℕ) : ZMod q := ∑ p, (x p : ZMod q)

theorem reconstruct_congr {x y : ι → ℕ} (h : ∀ p, (x p : ZMod q) = y p) :
    reconstruct q x = reconstruct q y :=
  Finset.sum_congr rfl fun p _ ↦ h p

@[simp] theorem reconstruct_add (x y : ι → ℕ) :
    reconstruct q (fun p ↦ x p + y p) = reconstruct q x + reconstruct q y := by
  simp [reconstruct, Finset.sum_add_distrib]

@[simp] theorem reconstruct_mul (c : ℕ) (x : ι → ℕ) :
    reconstruct q (fun p ↦ c * x p) = c * reconstruct q x := by
  simp [reconstruct, Finset.mul_sum]

@[simp] theorem reconstruct_mod (x : ι → ℕ) :
    reconstruct q (fun p ↦ x p % q) = reconstruct q x :=
  reconstruct_congr fun p ↦ ZMod.natCast_mod (x p) q

/-- A share that does not exceed the modulus is negated by a subtraction from it. -/
theorem cast_neg_of_le {a : ℕ} (h : a ≤ q) : ((q - a : ℕ) : ZMod q) = -(a : ZMod q) := by
  rw [Nat.cast_sub h, ZMod.natCast_self, zero_sub]

theorem reconstruct_neg {x : ι → ℕ} (h : ∀ p, x p ≤ q) :
    reconstruct q (fun p ↦ q - x p) = -reconstruct q x := by
  rw [reconstruct, reconstruct, ← Finset.sum_neg_distrib]
  exact Finset.sum_congr rfl fun p _ ↦ cast_neg_of_le (h p)

/-- A summand that one party adds. -/
theorem reconstruct_public [DecidableEq ι] (revealer : ι) (c : ℕ) :
    reconstruct q (fun p ↦ if p = revealer then c else 0) = c := by
  simp [reconstruct]

/-! ### Matrices -/

variable {l m n : Type}

/-- The entries modulo `q`. -/
def residues (q : ℕ) (M : Matrix m n ℕ) : Matrix m n (ZMod q) := M.map fun a ↦ (a : ZMod q)

/-- What the shares of a matrix add up to. -/
def reconstructMatrix (q : ℕ) (M : ι → Matrix m n ℕ) : Matrix m n (ZMod q) := ∑ p, residues q (M p)

theorem reconstructMatrix_apply (M : ι → Matrix m n ℕ) (i : m) (j : n) :
    reconstructMatrix q M i j = reconstruct q fun p ↦ M p i j := by
  rw [reconstructMatrix, Matrix.sum_apply]
  rfl

/-- A public matrix is multiplied to each share. -/
theorem reconstructMatrix_mul_left [Fintype m] (C : Matrix l m (ZMod q)) {M : ι → Matrix m n ℕ}
    {N : ι → Matrix l n ℕ} (h : ∀ p, residues q (N p) = C * residues q (M p)) :
    reconstructMatrix q N = C * reconstructMatrix q M := by
  rw [reconstructMatrix, reconstructMatrix, Matrix.mul_sum]
  exact Finset.sum_congr rfl fun p _ ↦ h p

/-! ### Sums in loops -/

/-- A loop whose rounds each add a summand to the image of the state. -/
theorem forRange_map_eq_add_sum {σ M : Type} [AddCommMonoid M] (φ : σ → M) {f : σ → ℕ → σ}
    {t : ℕ → M} {n : ℕ} (h : ∀ s, ∀ i < n, φ (f s i) = φ s + t i) (s : σ) :
    φ (forRange f n s) = φ s + ∑ i ∈ Finset.range n, t i := by
  induction n with
  | zero => simp [forRange]
  | succ n ih =>
    rw [forRange, h _ n (Nat.lt_succ_self n), ih fun s i hi ↦ h s i (Nat.lt_succ_of_lt hi),
      Finset.sum_range_succ, add_assoc]

end Safrn.Base
