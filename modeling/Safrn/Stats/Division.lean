import Safrn.Stats.Solved

/-!
# Signed division on shares

Models the stages `awaitingRegressionMultiply` to `awaitingDivision` of
`Regression::handleComplete` (`dataowner/Regression.cpp:855-1008`). The sign of the numerator is a
shared bit, which becomes `1` or `-1`; it is multiplied to the numerator before the unsigned
division and to the quotient after it.
-/

namespace Safrn.Stats

open Safrn.Base

/-- The functions of the library on numbers modulo `endModulus`. `compare`, `typeCastFromBit` and
`divide` are the fronctocols with the position `i` in their batch, for all parties at once. -/
structure Arithmetic (ι : Type) where
  compare : ℕ → (ι → ℕ) → (ι → ℕ) → ι → ℕ
  typeCastFromBit : ℕ → (ι → ℕ) → ι → ℕ
  divide : ℕ → (ι → ℕ) → (ι → ℕ) → ι → ℕ
  modMul : ℕ → ℕ → ℕ → ℕ
  modAdd : ℕ → ℕ → ℕ → ℕ

variable {ι : Type} [Fintype ι]

/-- The bit that the parties' bits add up to. -/
def reconstructBit (x : ι → ℕ) : ℕ := (∑ p, x p) % 2

/-- `Compare` tells whether its first operand is the greater one, where the difference of the
operands lies within half the modulus (of equal operands nothing is said); `TypeCastFromBit` keeps
the bit; and `Divide` rounds the quotient of non-negative numbers down. -/
structure Arithmetic.Ideal (arithmetic : Arithmetic ι) (q : ℕ) : Prop where
  compare_gt (i : ℕ) (x y : ι → ℕ) (a b : ℤ) (hx : reconstruct q x = a) (hy : reconstruct q y = b)
    (hab : 2 * |a - b| < q) (hgt : b < a) : reconstructBit (arithmetic.compare i x y) = 1
  compare_lt (i : ℕ) (x y : ι → ℕ) (a b : ℤ) (hx : reconstruct q x = a) (hy : reconstruct q y = b)
    (hab : 2 * |a - b| < q) (hlt : a < b) : reconstructBit (arithmetic.compare i x y) = 0
  typeCastFromBit (i : ℕ) (x : ι → ℕ) :
    reconstruct q (arithmetic.typeCastFromBit i x) = reconstructBit x
  divide (i : ℕ) (x y : ι → ℕ) (a b : ℕ) (hx : reconstruct q x = a) (hy : reconstruct q y = b)
    (ha : 2 * a < q) (hb : 2 * b < q) (hpos : 0 < b) :
    reconstruct q (arithmetic.divide i x y) = (a / b : ℕ)
  modMul (a b : ℕ) : arithmetic.modMul a b q = a * b % q
  modAdd (a b : ℕ) : arithmetic.modAdd a b q = (a + b) % q

/-- What the stages work on: shares of the numerators and of the denominator, and the party that
adds public numbers. -/
structure Division (ι : Type) (endModulus : ℕ) where
  ff : Fortissimo ι
  arithmetic : Arithmetic ι
  revealer : ι
  regressionMultiplyOutput : ℕ → ι → ℕ
  detDetShare : ι → ℕ

namespace Division

variable {endModulus : ℕ} (D : Division ι endModulus)

/-- `negative_flag_shares`. -/
def negativeFlagShares (i : ℕ) (p : ι) : ℕ :=
  D.arithmetic.compare i (D.regressionMultiplyOutput i) (fun _ ↦ 0) p % 2

/-- `negativeOrPositiveOneShares`. -/
def negativeOrPositiveOneShares [DecidableEq ι] (i : ℕ) (p : ι) : ℕ :=
  let share := D.arithmetic.modMul 2
    (D.arithmetic.typeCastFromBit i (D.negativeFlagShares i) p) endModulus
  if p = D.revealer then D.arithmetic.modAdd share (endModulus - 1) endModulus else share

/-- `negativeCorrectionMultiplyOutput`. -/
def negativeCorrectionMultiplyOutput [DecidableEq ι] (i : ℕ) : ι → ℕ :=
  D.ff.multiply (.negativeCorrectionMultiplyOutput i) (D.negativeOrPositiveOneShares i)
    (D.regressionMultiplyOutput i)

/-- `outputWeightShares`. -/
def outputWeightShares [DecidableEq ι] (i : ℕ) : ι → ℕ :=
  D.arithmetic.divide i (D.negativeCorrectionMultiplyOutput i) D.detDetShare

/-- `beta_i`. -/
def betaI [DecidableEq ι] (i : ℕ) : ι → ℕ :=
  D.ff.multiply (.betaI i) (D.outputWeightShares i) (D.negativeOrPositiveOneShares i)

/-! ### The sign -/

variable {q : ℕ} {D : Division ι q}

/-- Each party may reduce its bit. -/
theorem reconstructBit_negativeFlagShares (i : ℕ) :
    reconstructBit (D.negativeFlagShares i) =
      reconstructBit (D.arithmetic.compare i (D.regressionMultiplyOutput i) fun _ ↦ 0) :=
  (Finset.sum_nat_mod _ _ _).symm

/-- Twice the bit, less the one that the revealer subtracts. -/
theorem reconstruct_negativeOrPositiveOneShares [DecidableEq ι] [Fact q.Prime]
    (h : D.arithmetic.Ideal q) (i : ℕ) :
    reconstruct q (D.negativeOrPositiveOneShares i) =
      2 * reconstructBit (D.arithmetic.compare i (D.regressionMultiplyOutput i) fun _ ↦ 0) - 1 := by
  have hone : 1 ≤ q := (Fact.out : q.Prime).pos
  have hsplit (p : ι) : (D.negativeOrPositiveOneShares i p : ZMod q) =
      (2 * D.arithmetic.typeCastFromBit i (D.negativeFlagShares i) p +
        (if p = D.revealer then q - 1 else 0) : ℕ) := by
    rw [negativeOrPositiveOneShares, h.modMul, h.modAdd]
    split <;> simp
  rw [reconstruct_congr hsplit, reconstruct_add, reconstruct_mul, reconstruct_public,
    cast_neg_of_le hone, h.typeCastFromBit, reconstructBit_negativeFlagShares]
  push_cast
  ring

/-! ### The quotient -/

/-- The quotient of a numerator whose sign is known. -/
private theorem reconstruct_betaI [DecidableEq ι] [Fact q.Prime] (hff : D.ff.Ideal q)
    (h : D.arithmetic.Ideal q) {i a b : ℕ} (sign : ZMod q) (hsign : sign * sign = 1)
    (hs : reconstruct q (D.negativeOrPositiveOneShares i) = sign)
    (hx : reconstruct q (D.regressionMultiplyOutput i) = sign * a)
    (hd : reconstruct q D.detDetShare = b) (ha : 2 * a < q) (hb : 2 * b < q) (hpos : 0 < b) :
    reconstruct q (D.betaI i) = (a / b : ℕ) * sign := by
  have hcorrected : reconstruct q (D.negativeCorrectionMultiplyOutput i) = a := by
    rw [negativeCorrectionMultiplyOutput, hff.multiply, hs, hx, ← mul_assoc, hsign, one_mul]
  rw [betaI, hff.multiply, hs, outputWeightShares, h.divide i _ _ a b hcorrected hd ha hb hpos]

/-- The coefficient is the quotient, truncated towards zero, of a numerator and a positive
denominator that both lie within half the modulus. -/
theorem betaI_eq_tdiv [DecidableEq ι] [Fact q.Prime] (hff : D.ff.Ideal q)
    (h : D.arithmetic.Ideal q) (i : ℕ) (x d : ℤ)
    (hx : reconstruct q (D.regressionMultiplyOutput i) = x)
    (hd : reconstruct q D.detDetShare = d) (hxq : 2 * |x| < q) (hpos : 0 < d) (hdq : 2 * d < q) :
    reconstruct q (D.betaI i) = (x.tdiv d : ℤ) := by
  obtain ⟨b, rfl⟩ := Int.eq_ofNat_of_zero_le (Int.le_of_lt hpos)
  have hb : 0 < b := by omega
  have hbq : 2 * b < q := by omega
  have hd : reconstruct q D.detDetShare = b := by simpa using hd
  have hzero : reconstruct q (fun _ : ι ↦ 0) = (0 : ℤ) := by simp [reconstruct]
  have hsub : 2 * |x - 0| < q := by simpa using hxq
  have hdiv (a : ℕ) : (a : ℤ).tdiv b = (a / b : ℕ) := rfl
  have hsquare (bit : ℕ) (hbit : bit < 2) : (2 * (bit : ZMod q) - 1) * (2 * bit - 1) = 1 := by
    obtain rfl | rfl : bit = 0 ∨ bit = 1 := by omega
    · norm_num
    · norm_num
  have hs := reconstruct_negativeOrPositiveOneShares h i
  rcases Int.lt_trichotomy x 0 with hneg | rfl | hgt
  · -- The bit is 0, and the sign -1.
    rw [h.compare_lt i _ _ x 0 hx hzero hsub hneg] at hs
    obtain ⟨a, rfl⟩ : ∃ a : ℕ, x = -a := ⟨x.natAbs, by omega⟩
    have haq : 2 * a < q := by
      rw [abs_neg, Nat.abs_cast] at hxq
      omega
    rw [reconstruct_betaI hff h (-1) (by ring) (by simpa using hs) (by simpa using hx) hd haq hbq hb,
      Int.neg_tdiv, hdiv, Int.cast_neg, Int.cast_natCast, mul_neg, mul_one]
  · -- Either sign leaves the quotient 0.
    have hbit : reconstructBit (D.arithmetic.compare i (D.regressionMultiplyOutput i)
        fun _ ↦ 0) < 2 := Nat.mod_lt _ Nat.zero_lt_two
    have hsq : reconstruct q (D.negativeOrPositiveOneShares i) *
        reconstruct q (D.negativeOrPositiveOneShares i) = 1 := by
      rw [hs]
      exact hsquare _ hbit
    rw [reconstruct_betaI hff h (a := 0) _ hsq rfl (by simpa using hx) hd (by omega) hbq hb]
    simp
  · rw [h.compare_gt i _ _ x 0 hx hzero hsub hgt] at hs
    obtain ⟨a, rfl⟩ := Int.eq_ofNat_of_zero_le (Int.le_of_lt hgt)
    have haq : 2 * a < q := by
      rw [Nat.abs_cast] at hxq
      omega
    have hs : reconstruct q (D.negativeOrPositiveOneShares i) = 1 := by
      rw [hs]
      norm_num
    rw [reconstruct_betaI hff h 1 (one_mul 1) hs (by simpa using hx) hd haq hbq hb]
    rw [hdiv, Int.cast_natCast, mul_one]

end Division

/-! ### The coefficients of the normal equations -/

variable {n q : ℕ}

/-- The stages behind the solution of the normal equations. -/
def Solve.division (S : Solve ι n q) (arithmetic : Arithmetic ι) (revealer : ι) : Division ι q where
  ff := S.ff
  arithmetic := arithmetic
  revealer := revealer
  regressionMultiplyOutput i p := if hi : i < n then S.regressionMultiplyOutput ⟨i, hi⟩ p else 0
  detDetShare := S.detDetShare

/-- The numerators are `A.adjugate * b` and the denominator is `A.det`. -/
theorem Solve.division_operands [Fact q.Prime] {S : Solve ι n q} {A : Matrix (Fin n) (Fin n) ℤ}
    {b : Fin n → ℤ} (h : S.Given (A.map Int.cast) fun i ↦ (b i : ZMod q))
    (arithmetic : Arithmetic ι) (revealer : ι) (i : Fin n) :
    reconstruct q ((S.division arithmetic revealer).regressionMultiplyOutput i) =
        (A.adjugate.mulVec b i : ℤ) ∧
      reconstruct q (S.division arithmetic revealer).detDetShare = (A.det : ℤ) := by
  constructor
  · have hi : (S.division arithmetic revealer).regressionMultiplyOutput i =
        S.regressionMultiplyOutput i := funext fun p ↦ dif_pos i.isLt
    rw [hi, Solve.reconstruct_regressionMultiplyOutput h, map_adjugate]
    simp [Matrix.mulVec, dotProduct]
  · exact (Solve.reconstruct_detDetShare h).trans (Int.cast_det A).symm

open Numerals in
/-- Arithmetic in the clear that leaves the results with the first party. -/
noncomputable def Arithmetic.plain (q k : ℕ) : Arithmetic (Fin (k + 1)) where
  compare _ x y p :=
    let d := (reconstruct q x - reconstruct q y).val
    if p = 0 ∧ 0 < d ∧ 2 * d < q then 1 else 0
  typeCastFromBit _ x p := if p = 0 then reconstructBit x else 0
  divide _ x y p := if p = 0 then (reconstruct q x).val / (reconstruct q y).val else 0
  modMul a b m := a * b % m
  modAdd a b m := (a + b) % m

private theorem Arithmetic.reconstructBit_plain (q k i : ℕ) (x y : Fin (k + 1) → ℕ) :
    reconstructBit ((Arithmetic.plain q k).compare i x y) =
      if 0 < (reconstruct q x - reconstruct q y).val ∧
        2 * (reconstruct q x - reconstruct q y).val < q then 1 else 0 := by
  simp only [reconstructBit, plain]
  rw [Fintype.sum_eq_single 0 fun p hp ↦ by simp [hp]]
  split <;> simp_all

theorem Arithmetic.plain_ideal (q k : ℕ) [Fact q.Prime] : (Arithmetic.plain q k).Ideal q where
  compare_gt i x y a b hx hy hab hgt := by
    obtain ⟨d, hd⟩ := Int.eq_ofNat_of_zero_le (Int.le_of_lt (Int.sub_pos_of_lt hgt))
    have hval : (reconstruct q x - reconstruct q y).val = d := by
      rw [hx, hy, ← Int.cast_sub, hd, Int.cast_natCast, ZMod.val_cast_of_lt]
      rw [hd, Nat.abs_cast] at hab
      omega
    rw [Arithmetic.reconstructBit_plain, hval, if_pos]
    rw [hd, Nat.abs_cast] at hab
    omega
  compare_lt i x y a b hx hy hab hlt := by
    obtain ⟨d, hd⟩ := Int.eq_ofNat_of_zero_le (Int.le_of_lt (Int.sub_pos_of_lt hlt))
    rw [abs_sub_comm, hd, Nat.abs_cast] at hab
    have hval : (reconstruct q x - reconstruct q y).val = q - d := by
      have hneg : reconstruct q x - reconstruct q y = ((q - d : ℕ) : ZMod q) := by
        rw [cast_neg_of_le (by omega), hx, hy, ← neg_sub, ← Int.cast_sub, hd, Int.cast_natCast]
      rw [hneg, ZMod.val_cast_of_lt (by omega)]
    rw [Arithmetic.reconstructBit_plain, hval, if_neg (by omega)]
  typeCastFromBit _ x := by
    simp [plain, reconstruct, apply_ite]
  divide _ x y a b hx hy ha hb _ := by
    have haq : a < q := by omega
    have hbq : b < q := by omega
    simp only [plain, hx, hy, ZMod.val_cast_of_lt haq, ZMod.val_cast_of_lt hbq]
    exact reconstruct_public 0 _
  modMul _ _ := rfl
  modAdd _ _ := rfl

instance fact_prime_53 : Fact (Nat.Prime 53) := ⟨by decide⟩

open Numerals in
/-- Two parties with shares of two equations modulo 53, with a determinant of 5. -/
def mixedShares (p : Fin 2) : RegressionInfo.StageShares :=
  if p = 0 then ⟨[50, 3, 10, 52], [30, 50], 0, 0, 0⟩ else ⟨[6, 51, 44, 3], [24, 12], 0, 0, 0⟩

/-- A random matrix and its share. -/
def mixedDraws : MatrixDraws 2 53 where
  orig := !![1, 2; 3, 4]
  values _ := !![6, 0; 1, 50]
  detOfInverse _ := 3

/-- `-7 / 5` and `26 / 5`. -/
theorem betaI_mixedShares :
    let D := (Solve.dealt (Fortissimo.plain 53 1) mixedDraws mixedShares).division
      (Arithmetic.plain 53 1) 1
    reconstruct 53 (D.betaI 0) = -1 ∧ reconstruct 53 (D.betaI 1) = 5 := by
  have hshares : SharesOf 53 mixedShares !![3, 1; 1, 2] ![1, 9] := ⟨by decide, by decide⟩
  have hA : IsUnit ((!![3, 1; 1, 2] : Matrix (Fin 2) (Fin 2) ℤ).map (Int.cast : ℤ → ZMod 53)).det :=
    isUnit_iff_ne_zero.mpr (by decide)
  have hR : IsUnit (residues 53 (mixedDraws.orig.map (·.val))).det :=
    isUnit_iff_ne_zero.mpr (by decide)
  have hgiven := Solve.given_dealt (Fortissimo.plain_ideal 53 1) hshares hA hR
  have hoperands := Solve.division_operands hgiven (Arithmetic.plain 53 1) 1
  intro D
  have hdiv := Division.betaI_eq_tdiv (D := D) (Fortissimo.plain_ideal 53 1)
    (Arithmetic.plain_ideal 53 1)
  constructor
  · exact hdiv 0 _ _ (hoperands 0).1 (hoperands 0).2 (by decide) (by decide) (by decide)
  · exact hdiv 1 _ _ (hoperands 1).1 (hoperands 1).2 (by decide) (by decide) (by decide)

end Safrn.Stats
