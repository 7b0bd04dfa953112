import Safrn.Stats.ErrorTerms

/-!
# The documented statistics

What the shares of the numerators and denominators add up to, beside the formulas of
`doc/wiki/zz-algorithms/Linear-Regression.md`. They agree but for the `F` statistic of a model with
an intercept: the code divides by the number of all variables, the intercept counted, and the
document by the number of the others.
-/

namespace Safrn.Stats

open Safrn.Base

variable {ι : Type} [Fintype ι] {n q : ℕ}

/-! ### The formulas -/

/-- The sums over the rows: `x_i * x_j`, `x_i * y`, `y * y`, `y` and `1`; and the coefficients. -/
structure GramData (K : Type) (n : ℕ) where
  A : Matrix (Fin n) (Fin n) K
  b : Fin n → K
  ySquared : K
  y : K
  count : K
  β : Fin n → K

namespace GramData

variable {K : Type} [Field K] (G : GramData K n)

/-- The residual sum of squares. -/
def rss : K :=
  G.ySquared + ∑ i, ∑ j, G.β i * G.β j * G.A i j - 2 * ∑ i, G.β i * G.b i

/-- The mean square error. -/
def mse : K := G.rss / (G.count - n)

/-- The denominator of `R²`, times the number of rows. -/
def total (fitIntercept : Bool) : K :=
  G.count * G.ySquared - if fitIntercept then G.y ^ 2 else 0

/-- The sum of squares of the model without variables. -/
def ssr0 (fitIntercept : Bool) : K :=
  G.ySquared - if fitIntercept then G.y ^ 2 / G.count else 0

/-- The number of variables that are not constant. -/
def p (n : ℕ) (fitIntercept : Bool) : K := if fitIntercept then n - 1 else n

/-- The documented `F` statistic. -/
def f (fitIntercept : Bool) : K :=
  (G.ssr0 fitIntercept - G.rss) / p n fitIntercept / (G.rss / (G.count - n))

/-- The `F` statistic has no zero denominator. -/
def HasF (fitIntercept : Bool) : Prop :=
  G.count ≠ 0 ∧ (p n fitIntercept : K) ≠ 0 ∧ G.rss ≠ 0 ∧ G.count - n ≠ 0

variable {G}

theorem total_eq {fitIntercept : Bool} (hcount : G.count ≠ 0) :
    G.total fitIntercept = G.count * G.ssr0 fitIntercept := by
  cases fitIntercept with
  | false => simp [total, ssr0]
  | true =>
    rw [total, ssr0, if_pos rfl, if_pos rfl, mul_sub, mul_div_cancel₀ _ hcount]

/-- The `F` statistic that is divided by the number of all variables. -/
theorem f_eq_iff {fitIntercept : Bool} (hF : G.HasF fitIntercept) :
    (G.total fitIntercept - G.count * G.rss) * (G.count - n) / (n * (G.count * G.rss)) =
        G.f fitIntercept ↔
      fitIntercept = false ∨ G.ssr0 fitIntercept = G.rss := by
  obtain ⟨hcount, hp, hrss, hfree⟩ := hF
  have hcode : (G.total fitIntercept - G.count * G.rss) * (G.count - n) /
      (n * (G.count * G.rss)) =
        (G.ssr0 fitIntercept - G.rss) * ((G.count - n) / G.rss) * (n : K)⁻¹ := by
    calc _ = G.count * ((G.ssr0 fitIntercept - G.rss) * (G.count - n)) /
          (G.count * (n * G.rss)) := by rw [total_eq hcount]; ring
      _ = (G.ssr0 fitIntercept - G.rss) * (G.count - n) / (n * G.rss) :=
        mul_div_mul_left _ _ hcount
      _ = _ := by ring
  have hdoc : G.f fitIntercept =
      (G.ssr0 fitIntercept - G.rss) * ((G.count - n) / G.rss) * (p n fitIntercept : K)⁻¹ := by
    rw [f, div_div_eq_mul_div]
    ring
  rw [hcode, hdoc]
  cases fitIntercept with
  | false => simp [p]
  | true =>
    have hne : (n : K)⁻¹ ≠ (p n true : K)⁻¹ := fun heq ↦ by
      have heq := inv_injective heq
      rw [p, if_pos rfl] at heq
      exact one_ne_zero (sub_eq_self.mp heq.symm)
    have hratio : (G.count - n) / G.rss ≠ 0 := div_ne_zero hfree hrss
    constructor
    · intro heq
      right
      by_contra hssr
      exact hne (mul_left_cancel₀ (mul_ne_zero (sub_ne_zero.mpr hssr) hratio) heq)
    · rintro (hfalse | hssr)
      · cases hfalse
      · rw [hssr, sub_self, zero_mul, zero_mul, zero_mul]

end GramData

namespace ErrorTerms

variable [Fact q.Prime] (E : ErrorTerms ι n q)

/-- The parties hold shares of the data. -/
structure Given (G : GramData (ZMod q) n) : Prop where
  solve : E.solve.Given G.A G.b
  arithmetic : E.arithmetic.Ideal q
  symm : G.A.IsSymm
  ySquared : reconstruct q E.ySquaredShare = G.ySquared
  y : reconstruct q E.yShare = G.y
  one : reconstruct q E.oneShare = G.count
  beta (i : Fin n) : reconstruct q (E.betaI i) = G.β i

/-- The shares add up to the documented statistics. -/
structure Documented [DecidableEq ι] (G : GramData (ZMod q) n) : Prop where
  numerMSE : reconstruct q E.numerMSE = G.rss
  denomMSE : reconstruct q E.denomMSE = G.count - n
  rSquared : G.total E.fitIntercept ≠ 0 →
    reconstruct q E.numerRSquared / reconstruct q E.denomRSquared =
      1 - G.count * G.rss / G.total E.fitIntercept
  standardError (i : Fin n) :
    reconstruct q (E.xTXInvDiagSE i) / reconstruct q E.denomMSEReweighted = G.mse * G.A⁻¹ i i
  t (i : Fin n) :
    reconstruct q (E.tStatisticNumerators i) / reconstruct q (E.xTXInvDiagSE i) =
      G.β i ^ 2 / (G.mse * G.A⁻¹ i i)
  f : G.HasF E.fitIntercept →
    reconstruct q E.numerFStatistic / reconstruct q E.denomFStatistic = G.f E.fitIntercept

variable {E} {G : GramData (ZMod q) n}

/-! ### Products -/

theorem reconstruct_mAt (h : E.Given G) (i j : Fin n) : reconstruct q (E.mAt i j) = G.A i j := by
  rw [← Solve.m_matrix h.solve, reconstructMatrix_apply]
  exact reconstruct_congr fun p ↦ congrArg _ (dif_pos ⟨i.isLt, Nat.lt_succ_of_lt j.isLt⟩)

theorem reconstruct_mAt_vector (h : E.Given G) (i : Fin n) :
    reconstruct q (E.mAt i n) = G.b i := by
  rw [← Solve.m_vector h.solve, reconstructMatrix_apply]
  exact reconstruct_congr fun p ↦ congrArg _ (dif_pos ⟨i.isLt, Nat.lt_succ_self n⟩)

omit [Fact q.Prime] in
/-- An element that has been assigned. -/
private theorem reconstruct_assignUpper (x : ℕ → ℕ → ι → ℕ) {i j : Fin n} (hij : i ≤ j) :
    (reconstruct q fun p ↦ assignUpper n (fun i j ↦ x i j p) (fun _ ↦ 0) (i * n + j)) =
      reconstruct q (x i j) :=
  reconstruct_congr fun p ↦ congrArg _ (assignUpper_get hij j.isLt (fun i j ↦ x i j p) fun _ ↦ 0)

theorem reconstruct_betaIBetaJ (h : E.Given G) {i j : Fin n} (hij : i ≤ j) :
    (reconstruct q fun p ↦ E.betaIBetaJ p (i * n + j)) = G.β i * G.β j := by
  rw [← h.beta, ← h.beta, ← h.solve.ideal.multiply (.betaIBetaJ i j)]
  exact reconstruct_assignUpper
    (fun i j ↦ E.solve.ff.multiply (.betaIBetaJ i j) (E.betaI i) (E.betaI j)) hij

theorem reconstruct_betaIBetaJXIXJ (h : E.Given G) {i j : Fin n} (hij : i ≤ j) :
    (reconstruct q fun p ↦ E.betaIBetaJXIXJ p (i * n + j)) = G.β i * G.β j * G.A i j := by
  rw [← reconstruct_betaIBetaJ h hij, ← reconstruct_mAt h,
    ← h.solve.ideal.multiply (.betaIBetaJXIXJ i j)]
  exact reconstruct_assignUpper (fun i j ↦ E.solve.ff.multiply (.betaIBetaJXIXJ i j)
    (fun p ↦ E.betaIBetaJ p (i * n + j)) (E.mAt i j)) hij

theorem reconstruct_xIXJN (h : E.Given G) {i j : Fin n} (hij : i ≤ j) :
    (reconstruct q fun p ↦ E.xIXJN p (i * n + j)) = G.A i j * G.count := by
  rw [← reconstruct_mAt h, ← h.one, ← h.solve.ideal.multiply (.xIXJN i j)]
  exact reconstruct_assignUpper
    (fun i j ↦ E.solve.ff.multiply (.xIXJN i j) (E.mAt i j) E.oneShare) hij

theorem reconstruct_betaIBetaJXIXJN (h : E.Given G) {i j : Fin n} (hij : i ≤ j) :
    (reconstruct q fun p ↦ E.betaIBetaJXIXJN p (i * n + j)) =
      G.β i * G.β j * (G.A i j * G.count) := by
  rw [← reconstruct_betaIBetaJ h hij, ← reconstruct_xIXJN h hij,
    ← h.solve.ideal.multiply (.betaIBetaJXIXJN i j)]
  exact reconstruct_assignUpper (fun i j ↦ E.solve.ff.multiply (.betaIBetaJXIXJN i j)
    (fun p ↦ E.betaIBetaJ p (i * n + j)) (fun p ↦ E.xIXJN p (i * n + j))) hij

theorem reconstruct_betaIXIY (h : E.Given G) (i : Fin n) :
    reconstruct q (E.betaIXIY i) = G.b i * G.β i := by
  rw [betaIXIY, h.solve.ideal.multiply, reconstruct_mAt_vector h, h.beta]

theorem reconstruct_betaIXIYN (h : E.Given G) (i : Fin n) :
    reconstruct q (E.betaIXIYN i) = G.count * (G.b i * G.β i) := by
  rw [betaIXIYN, h.solve.ideal.multiply, h.one, reconstruct_betaIXIY h]

theorem reconstruct_ySquaredN (h : E.Given G) :
    reconstruct q E.ySquaredN = G.ySquared * G.count := by
  rw [ySquaredN, h.solve.ideal.multiply, h.ySquared, h.one]

theorem reconstruct_ySumThenSquared (h : E.Given G) :
    reconstruct q E.ySumThenSquared = G.y ^ 2 := by
  rw [ySumThenSquared, h.solve.ideal.multiply, h.y, sq]

/-! ### The sums -/

/-- A loop that adds modulo `q`. -/
private theorem cast_forRange {f : ℕ → ℕ → ℕ} {t : ℕ → ZMod q} {m : ℕ}
    (h : ∀ s, ∀ i < m, (f s i : ZMod q) = s + t i) (s : ℕ) :
    ((forRange f m s : ℕ) : ZMod q) = s + ∑ i ∈ Finset.range m, t i :=
  forRange_map_eq_add_sum (Nat.cast : ℕ → ZMod q) h s

/-- What loops over the upper triangle add up to, whose rounds for `i` end by subtracting `y i`
twice. -/
private theorem reconstruct_residual {sum init : ι → ℕ} {x : ι → ℕ → ℕ} {y : ℕ → ι → ℕ}
    {t : Fin n → Fin n → ZMod q}
    (hsum : ∀ p, (sum p : ZMod q) = init p + ∑ i ∈ Finset.range n,
      (∑ k ∈ Finset.range (n - i),
        (if i = i + k then (x p (i * n + i) : ZMod q) else 2 * x p (i * n + (i + k))) - 2 * y i p))
    (hx : ∀ i j : Fin n, i ≤ j → (reconstruct q fun p ↦ x p (i * n + j)) = t i j)
    (ht : ∀ i j, t i j = t j i) :
    reconstruct q sum =
      reconstruct q init + ∑ i, ∑ j, t i j - 2 * ∑ i : Fin n, reconstruct q (y i) := by
  let t' (i j : ℕ) : ZMod q := if h : i < n ∧ j < n then t ⟨i, h.1⟩ ⟨j, h.2⟩ else 0
  have ht' (i j : Fin n) : t' i j = t i j := dif_pos ⟨i.isLt, j.isLt⟩
  have hcell : ∀ i < n, ∀ k < n - i,
      ∑ p, (if i = i + k then (x p (i * n + i) : ZMod q) else 2 * x p (i * n + (i + k))) =
        if i = i + k then t' i i else 2 * t' i (i + k) := by
    intro i hi k hk
    have hik : i + k < n := by omega
    split
    · exact (hx ⟨i, hi⟩ ⟨i, hi⟩ le_rfl).trans (ht' ⟨i, hi⟩ ⟨i, hi⟩).symm
    · rw [← Finset.mul_sum]
      exact congrArg _ ((hx ⟨i, hi⟩ ⟨i + k, hik⟩ (Nat.le_add_right i k)).trans
        (ht' ⟨i, hi⟩ ⟨i + k, hik⟩).symm)
  have hrow : ∀ i ∈ Finset.range n, ∑ p, (∑ k ∈ Finset.range (n - i),
      (if i = i + k then (x p (i * n + i) : ZMod q) else 2 * x p (i * n + (i + k))) - 2 * y i p) =
        ∑ k ∈ Finset.range (n - i), (if i = i + k then t' i i else 2 * t' i (i + k)) -
          2 * reconstruct q (y i) := by
    intro i hi
    rw [Finset.sum_sub_distrib, Finset.sum_comm, ← Finset.mul_sum, reconstruct]
    congr 1
    exact Finset.sum_congr rfl fun k hk ↦
      hcell i (Finset.mem_range.mp hi) k (Finset.mem_range.mp hk)
  have hsymm : ∀ i < n, ∀ j < n, t' i j = t' j i := fun i hi j hj ↦ by
    rw [ht' ⟨i, hi⟩ ⟨j, hj⟩, ht' ⟨j, hj⟩ ⟨i, hi⟩, ht]
  rw [reconstruct, Finset.sum_congr rfl fun p _ ↦ hsum p, Finset.sum_add_distrib, Finset.sum_comm,
    Finset.sum_congr rfl hrow, Finset.sum_sub_distrib, sum_upper n t' hsymm, ← Finset.mul_sum,
    Finset.sum_range, Finset.sum_range, ← add_sub_assoc]
  congr 2
  exact Finset.sum_congr rfl fun i _ ↦
    (Finset.sum_range _).trans (Finset.sum_congr rfl fun j _ ↦ ht' i j)

theorem reconstruct_numerMSE (h : E.Given G) : reconstruct q E.numerMSE = G.rss := by
  have hloop (p : ι) : (E.numerMSE p : ZMod q) = E.ySquaredShare p + ∑ i ∈ Finset.range n,
      (∑ k ∈ Finset.range (n - i),
        (if i = i + k then (E.betaIBetaJXIXJ p (i * n + i) : ZMod q)
          else 2 * E.betaIBetaJXIXJ p (i * n + (i + k))) - 2 * E.betaIXIY i p) := by
    refine cast_forRange (q := q) (fun s i _ ↦ ?_) _
    have hle : E.betaIXIY i p ≤ q := Nat.le_of_lt (h.solve.ideal.multiply_lt _ _ _ p)
    rw [ZMod.natCast_mod, Nat.cast_add, cast_forRange (q := q)
      (t := fun k ↦ if i = i + k then (E.betaIBetaJXIXJ p (i * n + i) : ZMod q)
          else 2 * E.betaIBetaJXIXJ p (i * n + (i + k)))]
    · rw [Nat.cast_mul, cast_neg_of_le hle, Nat.cast_two]
      ring
    · intro s k _
      rw [ZMod.natCast_mod]
      split <;> push_cast <;> rfl
  rw [reconstruct_residual hloop (fun i j ↦ reconstruct_betaIBetaJXIXJ h), h.ySquared,
    GramData.rss, Finset.sum_congr rfl fun i _ ↦ reconstruct_betaIXIY h i]
  · simp only [mul_comm]
  · intro i j
    rw [h.symm.apply i j, mul_comm (G.β i)]

theorem reconstruct_residualN (h : E.Given G) :
    reconstruct q E.residualN = G.count * G.rss := by
  have hadd (a b : ℕ) : (E.arithmetic.modAdd a b q : ZMod q) = a + b := by
    rw [h.arithmetic.modAdd, ZMod.natCast_mod, Nat.cast_add]
  have hloop (p : ι) : (E.residualN p : ZMod q) = E.ySquaredN p + ∑ i ∈ Finset.range n,
      (∑ k ∈ Finset.range (n - i),
        (if i = i + k then (E.betaIBetaJXIXJN p (i * n + i) : ZMod q)
          else 2 * E.betaIBetaJXIXJN p (i * n + (i + k))) - 2 * E.betaIXIYN i p) := by
    refine cast_forRange (q := q) (fun s i _ ↦ ?_) _
    have hle : E.betaIXIYN i p ≤ q := Nat.le_of_lt (h.solve.ideal.multiply_lt _ _ _ p)
    rw [hadd, cast_forRange (q := q)
      (t := fun k ↦ if i = i + k then (E.betaIBetaJXIXJN p (i * n + i) : ZMod q)
          else 2 * E.betaIBetaJXIXJN p (i * n + (i + k)))]
    · rw [Nat.cast_mul, cast_neg_of_le hle, Nat.cast_two]
      ring
    · intro s k _
      dsimp only
      split
      · exact hadd _ _
      · rw [hadd, Nat.cast_mul, Nat.cast_two]
  rw [reconstruct_residual hloop (fun i j ↦ reconstruct_betaIBetaJXIXJN h),
    reconstruct_ySquaredN h, GramData.rss,
    Finset.sum_congr rfl fun i _ ↦ reconstruct_betaIXIYN h i]
  · have hcross : ∑ i, ∑ j, G.β i * G.β j * (G.A i j * G.count) =
        G.count * ∑ i, ∑ j, G.β i * G.β j * G.A i j := by
      simp only [Finset.mul_sum]
      exact Finset.sum_congr rfl fun i _ ↦ Finset.sum_congr rfl fun j _ ↦ by ring
    have hlinear : ∑ i, G.count * (G.b i * G.β i) = G.count * ∑ i, G.β i * G.b i := by
      rw [Finset.mul_sum]
      exact Finset.sum_congr rfl fun i _ ↦ by ring
    rw [hcross, hlinear]
    ring
  · intro i j
    rw [h.symm.apply i j, mul_comm (G.β i)]

theorem reconstruct_denomMSE [DecidableEq ι] (h : E.Given G) :
    reconstruct q E.denomMSE = G.count - n := by
  have hsplit (p : ι) : (E.denomMSE p : ZMod q) =
      (E.oneShare p + (if p = E.revealer then q - n else 0) : ℕ) := by
    rw [denomMSE, h.arithmetic.modAdd]
    split <;> simp
  rw [reconstruct_congr hsplit, reconstruct_add, reconstruct_public, cast_neg_of_le E.numIvs_le,
    h.one, ← sub_eq_add_neg]

theorem reconstruct_denomRSquared (h : E.Given G) :
    reconstruct q E.denomRSquared = G.total E.fitIntercept := by
  have hle (p : ι) : E.ySumThenSquared p ≤ q := Nat.le_of_lt (h.solve.ideal.multiply_lt _ _ _ p)
  have hN := reconstruct_ySquaredN h
  cases hfit : E.fitIntercept with
  | false =>
    have hcongr (p : ι) : (E.denomRSquared p : ZMod q) = E.ySquaredN p := by
      rw [denomRSquared, hfit]
      rfl
    rw [reconstruct_congr hcongr, hN, GramData.total, mul_comm]
    simp
  | true =>
    have hcongr (p : ι) : (E.denomRSquared p : ZMod q) =
        (E.ySquaredN p + (q - E.ySumThenSquared p) : ℕ) := by
      rw [denomRSquared, hfit, if_pos rfl, ZMod.natCast_mod]
    rw [reconstruct_congr hcongr, reconstruct_add, reconstruct_neg hle, hN,
      reconstruct_ySumThenSquared h, GramData.total, if_pos rfl]
    ring

/-- What is left of a share may be subtracted from the modulus. -/
private theorem residualN_le (h : E.Given G) (p : ι) : E.residualN p ≤ q := by
  have hpos : 0 < q := (Fact.out : q.Prime).pos
  have hN : E.ySquaredN p ≤ q := Nat.le_of_lt (h.solve.ideal.multiply_lt _ _ _ p)
  apply forRange_invariant (fun _ s ↦ s ≤ q) hN
  intro i _ s _
  dsimp only
  rw [h.arithmetic.modAdd]
  exact Nat.le_of_lt (Nat.mod_lt _ hpos)

theorem reconstruct_numerRSquared (h : E.Given G) :
    reconstruct q E.numerRSquared = G.total E.fitIntercept - G.count * G.rss := by
  have hcongr (p : ι) : (E.numerRSquared p : ZMod q) =
      ((q - E.residualN p) + E.denomRSquared p : ℕ) := ZMod.natCast_mod _ _
  rw [reconstruct_congr hcongr, reconstruct_add, reconstruct_neg (residualN_le h),
    reconstruct_residualN h, reconstruct_denomRSquared h]
  ring

theorem reconstruct_denomFStatistic (h : E.Given G) :
    reconstruct q E.denomFStatistic = n * (G.count * G.rss) := by
  have hcongr (p : ι) : (E.denomFStatistic p : ZMod q) = (n * E.residualN p : ℕ) := by
    rw [denomFStatistic, ZMod.natCast_mod, mul_comm]
  rw [reconstruct_congr hcongr, reconstruct_mul, reconstruct_residualN h]

theorem rSquared_eq (h : E.Given G) (htotal : G.total E.fitIntercept ≠ 0) :
    reconstruct q E.numerRSquared / reconstruct q E.denomRSquared =
      1 - G.count * G.rss / G.total E.fitIntercept := by
  rw [reconstruct_numerRSquared h, reconstruct_denomRSquared h, sub_div, div_self htotal]

/-! ### The last products -/

theorem reconstruct_xTXInvDiagReweighted (h : E.Given G) (i : Fin n) :
    reconstruct q (E.xTXInvDiagReweighted i) = G.A.det * G.A⁻¹ i i := by
  have hr : reconstruct q (E.rAt i i) = G.A⁻¹ i i := by
    rw [← Solve.reconstructMatrix_r h.solve, reconstructMatrix_apply]
    exact reconstruct_congr fun p ↦ congrArg _ (dif_pos ⟨i.isLt, i.isLt⟩)
  rw [xTXInvDiagReweighted, h.solve.ideal.multiply, Solve.reconstruct_detDetShare h.solve, hr]

theorem reconstruct_xTXInvDiagSE (h : E.Given G) (i : Fin n) :
    reconstruct q (E.xTXInvDiagSE i) = G.A.det * G.A⁻¹ i i * G.rss := by
  rw [xTXInvDiagSE, h.solve.ideal.multiply, reconstruct_xTXInvDiagReweighted h,
    reconstruct_numerMSE h]

variable [DecidableEq ι]

theorem reconstruct_denomMSEReweighted (h : E.Given G) :
    reconstruct q E.denomMSEReweighted = G.A.det * (G.count - n) := by
  rw [denomMSEReweighted, h.solve.ideal.multiply, Solve.reconstruct_detDetShare h.solve,
    reconstruct_denomMSE h]

theorem reconstruct_numerFStatistic (h : E.Given G) :
    reconstruct q E.numerFStatistic =
      (G.total E.fitIntercept - G.count * G.rss) * (G.count - n) := by
  rw [numerFStatistic, h.solve.ideal.multiply, reconstruct_numerRSquared h,
    reconstruct_denomMSE h]

theorem reconstruct_tStatisticNumerators (h : E.Given G) (i : Fin n) :
    reconstruct q (E.tStatisticNumerators i) = G.A.det * (G.count - n) * G.β i ^ 2 := by
  rw [tStatisticNumerators, h.solve.ideal.multiply, reconstruct_denomMSEReweighted h,
    reconstruct_betaIBetaJ h le_rfl, sq]

/-! ### The statistics -/

theorem standardError_eq (h : E.Given G) (i : Fin n) :
    reconstruct q (E.xTXInvDiagSE i) / reconstruct q E.denomMSEReweighted =
      G.mse * G.A⁻¹ i i := by
  rw [reconstruct_xTXInvDiagSE h, reconstruct_denomMSEReweighted h, mul_assoc,
    mul_div_mul_left _ _ h.solve.unit.ne_zero, GramData.mse]
  ring

theorem t_eq (h : E.Given G) (i : Fin n) :
    reconstruct q (E.tStatisticNumerators i) / reconstruct q (E.xTXInvDiagSE i) =
      G.β i ^ 2 / (G.mse * G.A⁻¹ i i) := by
  rw [reconstruct_tStatisticNumerators h, reconstruct_xTXInvDiagSE h, mul_assoc, mul_assoc,
    mul_div_mul_left _ _ h.solve.unit.ne_zero, GramData.mse, div_mul_eq_mul_div,
    div_div_eq_mul_div, mul_comm (G.β i ^ 2), mul_comm (G.A⁻¹ i i)]

theorem f_documented_iff (h : E.Given G) (hF : G.HasF E.fitIntercept) :
    reconstruct q E.numerFStatistic / reconstruct q E.denomFStatistic = G.f E.fitIntercept ↔
      E.fitIntercept = false ∨ G.ssr0 E.fitIntercept = G.rss := by
  rw [reconstruct_numerFStatistic h, reconstruct_denomFStatistic h]
  exact GramData.f_eq_iff hF

/-- The shares add up to the documented statistics if and only if no intercept is fitted, or the
documented `F` statistic has a zero denominator, or it is zero. -/
theorem documented_iff (h : E.Given G) : E.Documented G ↔
    E.fitIntercept = false ∨ ¬ G.HasF E.fitIntercept ∨ G.ssr0 E.fitIntercept = G.rss := by
  constructor
  · intro hdoc
    by_cases hF : G.HasF E.fitIntercept
    · rcases (f_documented_iff h hF).mp (hdoc.f hF) with hfit | hssr
      · exact .inl hfit
      · exact .inr (.inr hssr)
    · exact .inr (.inl hF)
  · intro hcond
    refine ⟨reconstruct_numerMSE h, reconstruct_denomMSE h, rSquared_eq h, standardError_eq h,
      t_eq h, fun hF ↦ (f_documented_iff h hF).mpr ?_⟩
    rcases hcond with hfit | hF' | hssr
    · exact .inl hfit
    · exact absurd hF hF'
    · exact .inr hssr

end ErrorTerms

/-! ### Three rows -/

open Numerals in
/-- Two parties with shares of the sums over the rows `(0, 1, 0)`, `(1, 1, 1)` and `(2, 1, 3)`,
modulo 53. -/
def lineShares (p : Fin 2) : RegressionInfo.StageShares :=
  if p = 0 then ⟨[50, 3, 10, 50], [30, 50], 20, 3, 50⟩ else ⟨[8, 0, 46, 6], [30, 7], 43, 1, 6⟩

open Numerals in
/-- Shares of the coefficients 1 and 0. -/
def lineBeta (i : ℕ) (p : Fin 2) : ℕ :=
  if i = 0 then if p = 0 then 30 else 24 else if p = 0 then 20 else 33

open Numerals in
/-- The stages with these shares. -/
noncomputable def lineTerms (fitIntercept : Bool) : ErrorTerms (Fin 2) 2 53 where
  solve := Solve.dealt (Fortissimo.plain 53 1) mixedDraws lineShares
  arithmetic := Arithmetic.plain 53 1
  revealer := 1
  fitIntercept := fitIntercept
  betaI := lineBeta
  numIvs_le := by decide

/-- The sums over the rows. -/
def lineData : GramData (ZMod 53) 2 where
  A := (!![5, 3; 3, 3] : Matrix (Fin 2) (Fin 2) ℤ).map Int.cast
  b i := (![7, 4] i : ℤ)
  ySquared := 10
  y := 4
  count := 3
  β := ![1, 0]

private theorem lineTerms_given (fitIntercept : Bool) : (lineTerms fitIntercept).Given lineData := by
  have hshares : SharesOf 53 lineShares !![5, 3; 3, 3] ![7, 4] := ⟨by decide, by decide⟩
  have hA : IsUnit ((!![5, 3; 3, 3] : Matrix (Fin 2) (Fin 2) ℤ).map (Int.cast : ℤ → ZMod 53)).det :=
    isUnit_iff_ne_zero.mpr (by decide)
  have hR : IsUnit (residues 53 (mixedDraws.orig.map (·.val))).det :=
    isUnit_iff_ne_zero.mpr (by decide)
  have hySquared : (reconstruct 53 fun p ↦ (lineShares p).ySquaredShare) = 10 := by decide
  have hy : (reconstruct 53 fun p ↦ (lineShares p).yShare) = 4 := by decide
  have hone : (reconstruct 53 fun p ↦ (lineShares p).oneShare) = 3 := by decide
  have hbeta : ∀ i : Fin 2, reconstruct 53 (lineBeta i) = ![1, 0] i := by decide
  exact ⟨Solve.given_dealt (Fortissimo.plain_ideal 53 1) hshares hA hR, Arithmetic.plain_ideal 53 1,
    by decide, hySquared, hy, hone, hbeta⟩

theorem lineTerms_documented : (lineTerms false).Documented lineData :=
  (ErrorTerms.documented_iff (lineTerms_given false)).mpr (.inl rfl)

/-- The `F` statistic of the three rows with an intercept is not the documented one. -/
theorem lineTerms_undocumented : ¬ (lineTerms true).Documented lineData := by
  intro hdoc
  have hF : lineData.HasF true := ⟨by decide, by decide, by decide, by decide⟩
  rcases (ErrorTerms.f_documented_iff (lineTerms_given true) hF).mp (hdoc.f hF) with hfit | hssr
  · cases hfit
  · have htotal : lineData.total true = lineData.count * lineData.ssr0 true :=
      GramData.total_eq hF.1
    have hssr : lineData.ssr0 true = lineData.rss := hssr
    rw [hssr] at htotal
    exact absurd htotal (by decide)

end Safrn.Stats
