import Mathlib.LinearAlgebra.Lagrange
import Safrn.Base.Word

/-!
# The interpolation polynomial for the prefix OR

Models `computeLagrangeCoeffsForPrefixOr` and its helpers (`dataowner/lagrange.cpp:28-141`). The
product of `x - 1, …, x - (ell + 1)` is divided by one factor after the other, and the quotients,
divided by what they are at the missing place, are added up. The coefficients that `invert` finds
may be negative: they are kept modulo `2 ^ 32` and come out right when `s` is added at the end.
-/

namespace Safrn.Stats

open Safrn.Base

namespace PrefixOr

section Code

-- `A` forms the results everywhere but in the coefficients of `invert`, where `B` does.
variable (A B : WordOps) (s ell : ℕ)

/-- The body of the inner loop of `computeProductOneToEllPlusOne`. -/
def shiftCoefficient (i : ℕ) (coeffs : ℕ → ℕ) (j : ℕ) : Option (ℕ → ℕ) := do
  let factor ← A.sub s i
  let product ← A.mul factor (coeffs j)
  let sum ← A.add product (coeffs (j - 1))
  return Function.update coeffs j (sum % s)

/-- The body of its outer loop; `j` runs from `i - 1` down to `1`. -/
def multiplyByFactor (coeffs : ℕ → ℕ) (i : ℕ) : Option (ℕ → ℕ) := do
  let coeffs ← forRangeM (fun coeffs m ↦ shiftCoefficient A s i coeffs (i - 1 - m)) (i - 1) coeffs
  let factor ← A.sub s i
  let constant ← A.mul (coeffs 0) factor
  return Function.update coeffs 0 (constant % s)

/-- `computeProductOneToEllPlusOne`. -/
def computeProductOneToEllPlusOne : Option (ℕ → ℕ) := do
  let constant ← A.sub s 1
  forRangeM (fun coeffs m ↦ multiplyByFactor A s coeffs (m + 2)) ell
    (Function.update (fun _ ↦ 1) 0 constant)

/-- `divideByDegreeOnePolynomial`; `i` runs from `ell - 1` down to `0`, where it wraps around. -/
def divideByDegreeOnePolynomial (coeffs output : ℕ → ℕ) (a : ℕ) : Option (ℕ → ℕ) :=
  forRangeM (fun output m ↦ do
    let i := ell - 1 - m
    let product ← A.mul a (output (i + 1))
    let sum ← A.add (coeffs (i + 1)) product
    return Function.update output i (sum % s)) ell (Function.update output ell 1)

/-- `add`. -/
def add (leftTerm rightTerm : ℕ → ℕ) (degree : ℕ) : Option (ℕ → ℕ) :=
  forRangeM (fun leftTerm i ↦ do
    let sum ← A.add (leftTerm i) (rightTerm i)
    return Function.update leftTerm i (sum % s)) (degree + 1) leftTerm

/-- `multiplyByScalar`. -/
def multiplyByScalar (coeffs : ℕ → ℕ) (scalar degree : ℕ) : Option (ℕ → ℕ) :=
  forRangeM (fun coeffs i ↦ do
    let product ← A.mul (coeffs i) scalar
    return Function.update coeffs i (product % s)) (degree + 1) coeffs

/-- The body of the loop of `multiplyDifferentXValues`. -/
def multiplyDifferentXValue (a product i : ℕ) : Option ℕ :=
  if i ≠ a then do
    let sum ← A.add s a
    let difference ← A.sub sum i
    let next ← A.mul product (difference % s)
    return next % s
  else some product

/-- `multiplyDifferentXValues`. -/
def multiplyDifferentXValues (a : ℕ) : Option ℕ :=
  forRangeM (fun product m ↦ multiplyDifferentXValue A s a product (m + 1)) (ell + 1) 1

/-- The loop of `invert`; the remainders decrease, so that `r_one + 1` rounds suffice. -/
def invertLoop : ℕ → ℕ → ℕ → ℕ → ℕ → Option ℕ
  | 0, _, _, _, _ => none
  | fuel + 1, rZero, rOne, tZero, tOne =>
    if rOne = 0 then some tZero
    else do
      let q := rZero / rOne
      let rProduct ← A.mul q rOne
      let rTwo ← A.sub rZero rProduct
      let tProduct ← B.mul q tOne
      let tTwo ← B.sub tZero tProduct
      invertLoop fuel rOne rTwo tOne tTwo

/-- `invert`. -/
def invert (a : ℕ) : Option ℕ := do
  let tZero ← invertLoop A B (a + 1) s a 0 1
  let sum ← B.add tZero s
  return sum % s

/-- The body of the loop of `computeLagrangeCoeffsForPrefixOr`, which returns both vectors. -/
def addTerm (product : ℕ → ℕ) (state : (ℕ → ℕ) × (ℕ → ℕ)) (i : ℕ) :
    Option ((ℕ → ℕ) × (ℕ → ℕ)) := do
  let term ← divideByDegreeOnePolynomial A s ell product state.2 i
  let product ← multiplyDifferentXValues A s ell i
  let scalar ← invert A B s product
  let term ← multiplyByScalar A s term scalar ell
  let coeffs ← add A s state.1 term ell
  return (coeffs, term)

/-- `computeLagrangeCoeffsForPrefixOr`, the first coefficient being the constant one. -/
def computeLagrangeCoeffsForPrefixOr : Option (List ℕ) := do
  let product ← computeProductOneToEllPlusOne A s ell
  let state ← forRangeM (fun state m ↦ addTerm A B s ell product state (m + 2)) ell
    (fun _ ↦ 0, fun _ ↦ 0)
  return (List.range (ell + 1)).map state.1

end Code

open Polynomial

variable {A B : WordOps} {s ell : ℕ}

/-! ### Results that fit -/

private theorem fits {a b c : ℕ} (hs : s < 2 ^ 16) (ha : a < s) (hb : b < s) (hc : c < s) :
    a * b + c < 2 ^ 32 := by
  have hmul : a * b ≤ (s - 1) * (s - 1) := Nat.mul_le_mul (by omega) (by omega)
  have hsquare : (s - 1) * (s - 1) ≤ (2 ^ 16 - 2) * (2 ^ 16 - 2) :=
    Nat.mul_le_mul (by omega) (by omega)
  omega

private theorem mod_eq_val {a : ℕ} {x : ZMod s} (h : (a : ZMod s) = x) : a % s = x.val := by
  rw [← h, ZMod.val_natCast]

/-! ### The product of the factors -/

/-- The place `i`, counted from zero. -/
def place (s i : ℕ) : ZMod s := (i + 1 : ℕ)

/-- `(x - 1) ⋯ (x - k)`. -/
noncomputable def factors (s k : ℕ) : (ZMod s)[X] :=
  Lagrange.nodal (Finset.range k) (place s)

theorem factors_succ (k : ℕ) : factors s (k + 1) = (X - C (place s k)) * factors s k := by
  rw [factors, Finset.range_add_one, Lagrange.nodal_insert_eq_nodal Finset.notMem_range_self]
  rfl

variable [Fact s.Prime]

theorem coeff_factors_self (k : ℕ) : (factors s k).coeff k = 1 := by
  have hmonic := Lagrange.nodal_monic (s := Finset.range k) (v := place s)
  have hdegree := Lagrange.natDegree_nodal (s := Finset.range k) (v := place s)
  rw [Finset.card_range] at hdegree
  rwa [Polynomial.Monic, Polynomial.leadingCoeff, hdegree] at hmonic

/-- The first `k + 1` coefficients are those of the product, the others are still one. -/
def IsProduct (s k : ℕ) (coeffs : ℕ → ℕ) : Prop :=
  ∀ j, coeffs j = if j ≤ k then ((factors s k).coeff j).val else 1

private theorem one_lt : 1 < s := (Fact.out : s.Prime).one_lt

private theorem val_one_eq : (1 : ZMod s).val = 1 := by
  have : Fact (1 < s) := ⟨one_lt⟩
  exact ZMod.val_one s

private theorem IsProduct.lt {k : ℕ} {coeffs : ℕ → ℕ} (h : IsProduct s k coeffs) (j : ℕ) :
    coeffs j < s := by
  rw [h j]
  split
  · exact ZMod.val_lt _
  · exact one_lt

omit [Fact s.Prime] in
private theorem shiftCoefficient_eq (hA : A.Exact 32) (hs : s < 2 ^ 16) {i j : ℕ} (hi : 0 < i)
    (his : i < s) {coeffs : ℕ → ℕ} (hcoeffs : ∀ j, coeffs j < s) :
    shiftCoefficient A s i coeffs j =
      some (Function.update coeffs j (((s - i) * coeffs j + coeffs (j - 1)) % s)) := by
  have hfits := fits hs (by omega : s - i < s) (hcoeffs j) (hcoeffs (j - 1))
  have hproduct : (s - i) * coeffs j < 2 ^ 32 := by omega
  simp [shiftCoefficient, hA.sub (Nat.le_of_lt his) (by omega), hA.mul hproduct, hA.add hfits]

omit [Fact s.Prime] in
/-- What the inner loop leaves, from the highest coefficient down. -/
private theorem shiftCoefficients_eq (hA : A.Exact 32) (hs : s < 2 ^ 16) {i : ℕ} (hi : 0 < i)
    (his : i < s) {coeffs : ℕ → ℕ} (hcoeffs : ∀ j, coeffs j < s) (n : ℕ) (hn : n ≤ i - 1) :
    ∃ shifted, forRangeM (fun c m ↦ shiftCoefficient A s i c (i - 1 - m)) n coeffs = some shifted ∧
      ∀ j, shifted j = if i - 1 < j + n ∧ j < i then
        ((s - i) * coeffs j + coeffs (j - 1)) % s else coeffs j := by
  apply forRangeM_invariant (fun n (c : ℕ → ℕ) ↦ ∀ j, c j = if i - 1 < j + n ∧ j < i then
        ((s - i) * coeffs j + coeffs (j - 1)) % s else coeffs j)
  · intro j
    rw [if_neg (by omega)]
  · intro m hm c hc
    have hlt (j : ℕ) : c j < s := by
      rw [hc j]
      split
      · exact Nat.mod_lt _ (Nat.zero_lt_of_lt his)
      · exact hcoeffs j
    refine ⟨_, shiftCoefficient_eq hA hs hi his hlt, fun j ↦ ?_⟩
    by_cases hj : j = i - 1 - m
    · rw [hj, Function.update_self, hc, hc, if_neg (by omega), if_neg (by omega),
        if_pos (by omega)]
    · rw [Function.update_of_ne hj, hc]
      congr 1
      apply propext
      omega

theorem multiplyByFactor_isProduct (hA : A.Exact 32) (hs : s < 2 ^ 16) {k : ℕ} (hk : k + 1 < s)
    {coeffs : ℕ → ℕ} (h : IsProduct s k coeffs) :
    ∃ next, multiplyByFactor A s coeffs (k + 1) = some next ∧ IsProduct s (k + 1) next := by
  obtain ⟨shifted, hshifted, hentry⟩ :=
    shiftCoefficients_eq hA hs (Nat.succ_pos k) hk h.lt k le_rfl
  have hneg : ((s - (k + 1) : ℕ) : ZMod s) = -place s k := cast_neg_of_le (Nat.le_of_lt hk)
  have hconstant : shifted 0 * (s - (k + 1)) < 2 ^ 32 := by
    have := fits hs (h.lt 0) (by omega : s - (k + 1) < s) (h.lt 0)
    rw [hentry, if_neg (by omega)]
    omega
  refine ⟨Function.update shifted 0 (shifted 0 * (s - (k + 1)) % s), ?_, fun j ↦ ?_⟩
  · have hloop : forRangeM (fun c m ↦ shiftCoefficient A s (k + 1) c (k + 1 - 1 - m)) (k + 1 - 1)
        coeffs = some shifted := hshifted
    simp only [multiplyByFactor, hloop, hA.sub (Nat.le_of_lt hk) (by omega : s < 2 ^ 32),
      hA.mul hconstant, Option.bind_eq_bind, Option.bind_some, Option.pure_def]
  · cases j with
    | zero =>
      rw [Function.update_self, if_pos (Nat.zero_le _), hentry, if_neg (by omega), h 0,
        if_pos (Nat.zero_le k), factors_succ]
      apply mod_eq_val
      rw [Nat.cast_mul, hneg, ZMod.natCast_zmod_val, Polynomial.mul_coeff_zero]
      simp [mul_comm]
    | succ j =>
      rw [Function.update_of_ne (Nat.succ_ne_zero j), hentry]
      by_cases hj : j < k
      · rw [if_pos (by omega), if_pos (by omega), h (j + 1), if_pos (by omega : j + 1 ≤ k),
          Nat.succ_sub_one, h j, if_pos (Nat.le_of_lt hj), factors_succ]
        apply mod_eq_val
        rw [Nat.cast_add, Nat.cast_mul, hneg, ZMod.natCast_zmod_val, ZMod.natCast_zmod_val,
          coeff_X_sub_C_mul]
        ring
      · rw [if_neg (by omega), h, if_neg (by omega)]
        by_cases hjk : j = k
        · rw [hjk, if_pos le_rfl, coeff_factors_self, val_one_eq]
        · rw [if_neg (by omega)]

theorem computeProductOneToEllPlusOne_isProduct (hA : A.Exact 32) (hs : s < 2 ^ 16)
    (hell : ell + 1 < s) :
    ∃ coeffs, computeProductOneToEllPlusOne A s ell = some coeffs ∧
      IsProduct s (ell + 1) coeffs := by
  have hfirst : A.sub s 1 = some (s - 1) := hA.sub (by omega) (by omega)
  simp only [computeProductOneToEllPlusOne, hfirst, Option.bind_eq_bind, Option.bind_some]
  apply forRangeM_invariant (fun m ↦ IsProduct s (m + 1))
  · intro j
    cases j with
    | zero =>
      have hneg : ((s - 1 : ℕ) : ZMod s) = -1 := by
        simpa using cast_neg_of_le (q := s) (Nat.le_of_lt one_lt)
      rw [Function.update_self, if_pos (Nat.zero_le _), factors_succ, mul_coeff_zero, factors]
      simp [place, ← hneg, ZMod.val_natCast_of_lt (by omega : s - 1 < s)]
    | succ j =>
      rw [Function.update_of_ne (Nat.succ_ne_zero j)]
      by_cases hj : j = 0
      · rw [hj, if_pos le_rfl, coeff_factors_self, val_one_eq]
      · rw [if_neg (by omega)]
  · intro m hm coeffs hcoeffs
    exact multiplyByFactor_isProduct hA hs (by omega) hcoeffs

/-! ### Division by one factor -/

/-- The product of the other factors. -/
noncomputable def otherFactors (s k i : ℕ) : (ZMod s)[X] :=
  Lagrange.nodal ((Finset.range k).erase i) (place s)

theorem factors_eq_mul_otherFactors {k i : ℕ} (hi : i < k) :
    factors s k = (X - C (place s i)) * otherFactors s k i :=
  Lagrange.nodal_eq_mul_nodal_erase (Finset.mem_range.mpr hi)

theorem coeff_otherFactors_last {k i : ℕ} (hi : i ≤ k) :
    (otherFactors s (k + 1) i).coeff k = 1 := by
  have hmonic := Lagrange.nodal_monic (s := (Finset.range (k + 1)).erase i) (v := place s)
  have hdegree := Lagrange.natDegree_nodal (s := (Finset.range (k + 1)).erase i) (v := place s)
  rw [Finset.card_erase_of_mem (Finset.mem_range.mpr (by omega)), Finset.card_range,
    Nat.add_sub_cancel] at hdegree
  rwa [Polynomial.Monic, Polynomial.leadingCoeff, hdegree] at hmonic

/-- The coefficients up to the degree `ell`. -/
def IsVector (s ell : ℕ) (P : (ZMod s)[X]) (coeffs : ℕ → ℕ) : Prop :=
  ∀ j ≤ ell, coeffs j = (P.coeff j).val

theorem divideByDegreeOnePolynomial_isVector (hA : A.Exact 32) (hs : s < 2 ^ 16) {i : ℕ}
    (hi : i ≤ ell) (hell : ell + 1 < s) {coeffs : ℕ → ℕ} (h : IsProduct s (ell + 1) coeffs)
    (output : ℕ → ℕ) :
    ∃ quotient, divideByDegreeOnePolynomial A s ell coeffs output (i + 1) = some quotient ∧
      IsVector s ell (otherFactors s (ell + 1) i) quotient := by
  have hloop : ∃ quotient, divideByDegreeOnePolynomial A s ell coeffs output (i + 1) =
      some quotient ∧ ∀ j ≤ ell, ell ≤ j + ell →
        quotient j = ((otherFactors s (ell + 1) i).coeff j).val := by
    apply forRangeM_invariant (fun m (quotient : ℕ → ℕ) ↦ ∀ j ≤ ell, ell ≤ j + m →
      quotient j = ((otherFactors s (ell + 1) i).coeff j).val)
    · intro j hj hle
      have hjell : j = ell := by omega
      rw [hjell, Function.update_self, coeff_otherFactors_last hi, val_one_eq]
    · intro m hm quotient hquotient
      have hnext := hquotient (ell - 1 - m + 1) (by omega) (by omega)
      have hfits : (i + 1) * quotient (ell - 1 - m + 1) + coeffs (ell - 1 - m + 1) < 2 ^ 32 := by
        apply fits hs (by omega) _ (h.lt _)
        rw [hnext]
        exact ZMod.val_lt _
      refine ⟨Function.update quotient (ell - 1 - m)
        ((coeffs (ell - 1 - m + 1) + (i + 1) * quotient (ell - 1 - m + 1)) % s), ?_, ?_⟩
      · simp only [hA.mul (by omega : (i + 1) * quotient (ell - 1 - m + 1) < 2 ^ 32),
          hA.add (by omega : coeffs (ell - 1 - m + 1) + (i + 1) * quotient (ell - 1 - m + 1) <
            2 ^ 32), Option.bind_eq_bind, Option.bind_some, Option.pure_def]
      · intro j hj hle
        by_cases hjm : j = ell - 1 - m
        · subst hjm
          rw [Function.update_self, h, if_pos (by omega), hnext,
            factors_eq_mul_otherFactors (by omega : i < ell + 1)]
          apply mod_eq_val
          rw [coeff_X_sub_C_mul, Nat.cast_add, Nat.cast_mul, ZMod.natCast_zmod_val,
            ZMod.natCast_zmod_val, place]
          ring
        · rw [Function.update_of_ne hjm]
          exact hquotient j hj (by omega)
  obtain ⟨quotient, hrun, hquotient⟩ := hloop
  exact ⟨quotient, hrun, fun j hj ↦ hquotient j hj (by omega)⟩

/-! ### The value at the missing place -/

theorem place_sub {i j : ℕ} : place s i - place s j = (i : ZMod s) - j := by
  simp [place]

theorem place_injOn {k : ℕ} (hk : k < s) :
    Set.InjOn (place s) (Finset.range k : Set ℕ) := by
  intro i hi j hj heq
  have hcast : ((i : ℕ) : ZMod s) = j := by
    rw [← sub_eq_zero, ← place_sub, heq, sub_self]
  rw [ZMod.natCast_eq_natCast_iff'] at hcast
  simp only [Finset.coe_range, Set.mem_Iio] at hi hj
  rwa [Nat.mod_eq_of_lt (by omega), Nat.mod_eq_of_lt (by omega)] at hcast

/-- The differences to the first `m` other places. -/
def differences (s i m : ℕ) : ZMod s :=
  ∏ j ∈ (Finset.range m).erase i, (place s i - place s j)

omit [Fact s.Prime] in
private theorem differences_succ_self (i : ℕ) :
    differences s i (i + 1) = differences s i i := by
  have hnot : i ∉ Finset.range i := Finset.notMem_range_self
  rw [differences, differences, Finset.range_add_one, Finset.erase_insert hnot,
    Finset.erase_eq_of_notMem hnot]

private theorem differences_succ {i m : ℕ} (hm : m ≠ i) :
    differences s i (m + 1) = (place s i - place s m) * differences s i m := by
  have hnot : m ∉ (Finset.range m).erase i := by simp
  rw [differences, differences, Finset.range_add_one, Finset.erase_insert_of_ne hm,
    Finset.prod_insert hnot]

theorem multiplyDifferentXValues_eq (hA : A.Exact 32) (hs : s < 2 ^ 16) {i : ℕ} (hi : i ≤ ell)
    (hell : ell + 1 < s) :
    multiplyDifferentXValues A s ell (i + 1) = some (differences s i (ell + 1)).val := by
  have hloop : ∃ product, multiplyDifferentXValues A s ell (i + 1) = some product ∧
      product = (differences s i (ell + 1)).val := by
    apply forRangeM_invariant (fun m product ↦ product = (differences s i m).val)
    · simp [differences, val_one_eq]
    · rintro m hm product rfl
      by_cases hmi : m = i
      · subst hmi
        refine ⟨_, by rw [multiplyDifferentXValue, if_neg (not_not_intro rfl)], ?_⟩
        rw [differences_succ_self]
      · have hsum : s + (i + 1) < 2 ^ 32 := by omega
        have hlt : (s + (i + 1) - (m + 1)) % s < s := Nat.mod_lt _ (by omega)
        have hproduct := fits hs (ZMod.val_lt (differences s i m)) hlt hlt
        have hmul : (differences s i m).val * ((s + (i + 1) - (m + 1)) % s) < 2 ^ 32 := by omega
        refine ⟨(differences s i m).val * ((s + (i + 1) - (m + 1)) % s) % s, ?_, ?_⟩
        · simp only [multiplyDifferentXValue, if_pos (by omega : m + 1 ≠ i + 1), hA.add hsum,
            hA.sub (by omega : m + 1 ≤ s + (i + 1)) hsum, hA.mul hmul, Option.bind_eq_bind,
            Option.bind_some, Option.pure_def]
        · rw [differences_succ hmi, place_sub]
          apply mod_eq_val
          rw [Nat.cast_mul, ZMod.natCast_mod, ZMod.natCast_zmod_val, Nat.cast_sub (by omega)]
          simp [mul_comm]
  obtain ⟨product, hrun, rfl⟩ := hloop
  exact hrun

theorem differences_ne_zero {i : ℕ} (hi : i ≤ ell) (hell : ell + 1 < s) :
    differences s i (ell + 1) ≠ 0 := by
  apply Finset.prod_ne_zero_iff.mpr
  intro j hj heq
  have hmem := Finset.mem_erase.mp hj
  apply hmem.1
  apply place_injOn (by omega : ell + 1 < s) (by simpa using hmem.2) _ (sub_eq_zero.mp heq).symm
  simp
  omega

/-! ### The inverse -/

/-- The state of `invert`: up to their signs, which alternate, `u` and `v` are the coefficients of
`a` in the remainders. -/
structure Bezout (s a rZero rOne tZero tOne : ℕ) (ε : ℤ) (u v : ℕ) : Prop where
  sign : ε = 1 ∨ ε = -1
  ltZero : tZero < 2 ^ 32
  ltOne : tOne < 2 ^ 32
  wordZero : (tZero : ZMod (2 ^ 32)) = (-ε * u : ℤ)
  wordOne : (tOne : ZMod (2 ^ 32)) = (ε * v : ℤ)
  remainderZero : ((-ε * u : ℤ) : ZMod s) * a = rZero
  remainderOne : ((ε * v : ℤ) : ZMod s) * a = rOne
  size : rZero * v + rOne * u = s
  bound : u ≤ s
  pos : 0 < rZero
  small : rZero ≤ s
  le : rOne ≤ rZero
  coprime : Nat.Coprime rZero rOne

omit [Fact s.Prime] in
private theorem Bezout.next {a rZero rOne tZero tOne tTwo u v : ℕ} {ε : ℤ}
    (h : Bezout s a rZero rOne tZero tOne ε u v) (hr : rOne ≠ 0) (hlt : tTwo < 2 ^ 32)
    (ht : (tTwo : ZMod (2 ^ 32)) = tZero - (rZero / rOne : ℕ) * tOne) :
    Bezout s a rOne (rZero % rOne) tOne tTwo (-ε) v (u + rZero / rOne * v) where
  sign := by
    apply h.sign.symm.imp
    · rintro rfl
      rfl
    · rintro rfl
      rfl
  ltZero := h.ltOne
  ltOne := hlt
  wordZero := by
    rw [h.wordOne, neg_neg]
  wordOne := by
    rw [ht, h.wordZero, h.wordOne]
    generalize rZero / rOne = q
    push_cast
    ring
  remainderZero := by
    rw [neg_neg, h.remainderOne]
  remainderOne := by
    have hsplit : ((rZero % rOne : ℕ) : ZMod s) = rZero - rOne * (rZero / rOne : ℕ) := by
      rw [eq_sub_iff_add_eq]
      exact_mod_cast congrArg (Nat.cast : ℕ → ZMod s) (Nat.mod_add_div rZero rOne)
    rw [hsplit, ← h.remainderZero, ← h.remainderOne]
    generalize rZero / rOne = q
    push_cast
    ring
  size := by
    calc rOne * (u + rZero / rOne * v) + rZero % rOne * v
      _ = (rZero % rOne + rOne * (rZero / rOne)) * v + rOne * u := by ring
      _ = s := by rw [Nat.mod_add_div, h.size]
  bound := by
    have hle : 1 * v ≤ rZero * v := Nat.mul_le_mul_right v h.pos
    have := h.size
    omega
  pos := Nat.pos_of_ne_zero hr
  small := h.le.trans h.small
  le := Nat.le_of_lt (Nat.mod_lt _ (Nat.pos_of_ne_zero hr))
  coprime := by
    have hcoprime := h.coprime
    rwa [Nat.Coprime, Nat.gcd_comm, ← Nat.gcd_rec] at *

omit [Fact s.Prime] in
/-- One remainder after the other, until there is none. -/
private theorem invertLoop_bezout (hA : A.Exact 32) (hs : s < 2 ^ 16) {a : ℕ} (fuel : ℕ) :
    ∀ {rZero rOne tZero tOne u v : ℕ} {ε : ℤ}, Bezout s a rZero rOne tZero tOne ε u v →
      rOne < fuel → ∃ t last ε u v,
        invertLoop A (WordOps.wrapping 32) fuel rZero rOne tZero tOne = some t ∧
          Bezout s a 1 0 t last ε u v := by
  induction fuel with
  | zero =>
    intro rZero rOne tZero tOne u v ε _ hlt
    omega
  | succ fuel ih =>
    intro rZero rOne tZero tOne u v ε h hlt
    by_cases hr : rOne = 0
    · have hone : rZero = 1 := by
        have hcoprime := h.coprime
        rwa [hr, Nat.coprime_zero_right] at hcoprime
      refine ⟨tZero, tOne, ε, u, v, by rw [invertLoop, if_pos hr], ?_⟩
      rwa [hr, hone] at h
    · have hsmall := h.small
      have hdiv := Nat.div_mul_le_self rZero rOne
      have hsub : rZero - rZero / rOne * rOne = rZero % rOne := by
        rw [Nat.mul_comm, Nat.mod_eq_sub]
      obtain ⟨product, hproduct, -, hproductCast⟩ := WordOps.wrapping_mul 32 (rZero / rOne) tOne
      obtain ⟨tTwo, htTwo, hltTwo, htTwoCast⟩ := WordOps.wrapping_sub 32 tZero product
      rw [hproductCast] at htTwoCast
      obtain ⟨t, last, ε', u', v', hrun, hbezout⟩ := ih (h.next hr hltTwo htTwoCast)
        (Nat.lt_of_lt_of_le (Nat.mod_lt _ (Nat.pos_of_ne_zero hr)) (by omega))
      refine ⟨t, last, ε', u', v', ?_, hbezout⟩
      rw [invertLoop, if_neg hr]
      simp only [hA.mul (by omega : rZero / rOne * rOne < 2 ^ 32),
        hA.sub hdiv (by omega : rZero < 2 ^ 32), hsub, hproduct, htTwo, Option.bind_eq_bind,
        Option.bind_some, hrun]

/-- A word that is a number between zero and `2 ^ 32`. -/
private theorem cast_eq_of_word {c : ℕ} {T : ℤ} (hc : c < 2 ^ 32)
    (hcast : (c : ZMod (2 ^ 32)) = (T : ZMod (2 ^ 32))) (hT : 0 ≤ T) (hlt : T < 2 ^ 32) :
    (c : ℤ) = T := by
  have hmod : (c : ℤ) ≡ T [ZMOD (2 ^ 32 : ℕ)] := by
    rw [← ZMod.intCast_eq_intCast_iff, ← hcast]
    simp
  unfold Int.ModEq at hmod
  push_cast at hmod
  omega

theorem invert_eq (hA : A.Exact 32) (hs : s < 2 ^ 16) {x : ZMod s} (hx : x ≠ 0) :
    invert A (WordOps.wrapping 32) s x.val = some x⁻¹.val := by
  have hprime : s.Prime := Fact.out
  have hlt := ZMod.val_lt x
  have hpos : 0 < x.val := Nat.pos_of_ne_zero ((ZMod.val_ne_zero x).mpr hx)
  have hstart : Bezout s x.val s x.val 0 1 1 0 1 := {
    sign := Or.inl rfl
    ltZero := by omega
    ltOne := by omega
    wordZero := by simp
    wordOne := by simp
    remainderZero := by simp
    remainderOne := by simp
    size := by omega
    bound := Nat.zero_le s
    pos := hprime.pos
    small := le_rfl
    le := Nat.le_of_lt hlt
    coprime := hprime.coprime_iff_not_dvd.mpr (Nat.not_dvd_of_pos_of_lt hpos hlt) }
  obtain ⟨t, last, ε, u, v, hrun, h⟩ := invertLoop_bezout hA hs (x.val + 1) hstart
    (Nat.lt_succ_self _)
  obtain ⟨sum, hsum, hltSum, hsumCast⟩ := WordOps.wrapping_add 32 t s
  have hbound := h.bound
  have hvalue : (sum : ℤ) = -ε * u + s := by
    apply cast_eq_of_word hltSum
    · rw [hsumCast, h.wordZero]
      push_cast
      rfl
    · apply h.sign.elim <;> rintro rfl <;> omega
    · apply h.sign.elim <;> rintro rfl <;> omega
  have hinv : (sum : ZMod s) = x⁻¹ := by
    apply eq_inv_of_mul_eq_one_left
    have hcast : (sum : ZMod s) = ((-ε * u : ℤ) : ZMod s) := by
      rw [← Int.cast_natCast, hvalue]
      simp
    have hone := h.remainderZero
    rw [ZMod.natCast_zmod_val] at hone
    rw [hcast, hone, Nat.cast_one]
  simp only [invert, hrun, hsum, Option.bind_eq_bind, Option.bind_some, Option.pure_def,
    mod_eq_val hinv]

/-! ### The polynomial -/

theorem multiplyByScalar_isVector (hA : A.Exact 32) (hs : s < 2 ^ 16) {P : (ZMod s)[X]}
    {coeffs : ℕ → ℕ} (h : IsVector s ell P coeffs) (x : ZMod s) :
    ∃ scaled, multiplyByScalar A s coeffs x.val ell = some scaled ∧
      IsVector s ell (C x * P) scaled := by
  have hloop := forRangeM_update (n := ell + 1) (a := coeffs) (g := fun _ a ↦ a * x.val % s)
    (f := fun coeffs i ↦ do
      let product ← A.mul (coeffs i) x.val
      return Function.update coeffs i (product % s)) ?_
  · obtain ⟨scaled, hrun, hscaled⟩ := hloop
    refine ⟨scaled, hrun, fun j hj ↦ ?_⟩
    rw [hscaled, if_pos (by omega), h j hj]
    apply mod_eq_val
    simp [mul_comm]
  · intro i hi c hc
    have hfits := fits hs (ZMod.val_lt (P.coeff i)) (ZMod.val_lt x) (ZMod.val_lt x)
    have hmul : coeffs i * x.val < 2 ^ 32 := by
      rw [h i (by omega)]
      omega
    simp only [hc, hA.mul hmul, Option.bind_eq_bind, Option.bind_some, Option.pure_def]

theorem add_isVector (hA : A.Exact 32) (hs : s < 2 ^ 16) {P Q : (ZMod s)[X]} {left right : ℕ → ℕ}
    (hleft : IsVector s ell P left) (hright : IsVector s ell Q right) :
    ∃ sum, add A s left right ell = some sum ∧ IsVector s ell (P + Q) sum := by
  have hloop := forRangeM_update (n := ell + 1) (a := left) (g := fun i a ↦ (a + right i) % s)
    (f := fun left i ↦ do
      let sum ← A.add (left i) (right i)
      return Function.update left i (sum % s)) ?_
  · obtain ⟨sum, hrun, hsum⟩ := hloop
    refine ⟨sum, hrun, fun j hj ↦ ?_⟩
    rw [hsum, if_pos (by omega), hleft j hj, hright j hj]
    apply mod_eq_val
    simp
  · intro i hi c hc
    have hadd : left i + right i < 2 ^ 32 := by
      have hP := ZMod.val_lt (P.coeff i)
      have hQ := ZMod.val_lt (Q.coeff i)
      rw [hleft i (by omega), hright i (by omega)]
      omega
    simp only [hc, hA.add hadd, Option.bind_eq_bind, Option.bind_some, Option.pure_def]

/-- The polynomial that is one at the place `i` and zero at the others. -/
noncomputable def basis (s ell i : ℕ) [Fact s.Prime] : (ZMod s)[X] :=
  Lagrange.basis (Finset.range (ell + 1)) (place s) i

theorem basis_eq {i : ℕ} (hi : i ≤ ell) :
    basis s ell i = C (differences s i (ell + 1))⁻¹ * otherFactors s (ell + 1) i := by
  have hmem : i ∈ Finset.range (ell + 1) := Finset.mem_range.mpr (by omega)
  rw [basis, Lagrange.basis_eq_prod_sub_inv_mul_nodal_div hmem, otherFactors,
    Lagrange.nodal_erase_eq_nodal_div hmem, Lagrange.nodalWeight, differences,
    Finset.prod_inv_distrib]

/-- The sum of the terms for the places up to `m`. -/
noncomputable def terms (s ell m : ℕ) [Fact s.Prime] : (ZMod s)[X] :=
  ∑ i ∈ Finset.range m, basis s ell (i + 1)

theorem addTerm_isVector (hA : A.Exact 32) (hs : s < 2 ^ 16) (hell : ell + 1 < s) {m : ℕ}
    (hm : m < ell) {product : ℕ → ℕ} (hproduct : IsProduct s (ell + 1) product)
    {state : (ℕ → ℕ) × (ℕ → ℕ)} (h : IsVector s ell (terms s ell m) state.1) :
    ∃ next, addTerm A (WordOps.wrapping 32) s ell product state (m + 2) = some next ∧
      IsVector s ell (terms s ell (m + 1)) next.1 := by
  obtain ⟨quotient, hdivide, hquotient⟩ :=
    divideByDegreeOnePolynomial_isVector hA hs (by omega : m + 1 ≤ ell) hell hproduct state.2
  have hdifferences := multiplyDifferentXValues_eq hA hs (by omega : m + 1 ≤ ell) hell
  have hinvert := invert_eq hA hs (differences_ne_zero (by omega : m + 1 ≤ ell) hell)
  obtain ⟨scaled, hscale, hscaled⟩ := multiplyByScalar_isVector hA hs hquotient
    (differences s (m + 1) (ell + 1))⁻¹
  obtain ⟨sum, hadd, hsum⟩ := add_isVector hA hs h hscaled
  refine ⟨(sum, scaled), ?_, ?_⟩
  · simp only [addTerm, hdivide, hdifferences, hinvert, hscale, hadd, Option.bind_eq_bind,
      Option.bind_some, Option.pure_def]
  · rwa [← basis_eq (by omega), terms, ← Finset.sum_range_succ] at hsum

/-- What the code computes, with any arithmetic that is right where results fit. -/
theorem computeLagrangeCoeffsForPrefixOr_eq (hA : A.Exact 32) (hs : s < 2 ^ 16)
    (hell : ell + 1 < s) :
    computeLagrangeCoeffsForPrefixOr A (WordOps.wrapping 32) s ell =
      some ((List.range (ell + 1)).map fun j ↦ ((terms s ell ell).coeff j).val) := by
  obtain ⟨product, hrun, hproduct⟩ := computeProductOneToEllPlusOne_isProduct hA hs hell
  have hloop := forRangeM_invariant (n := ell) (s := ((fun _ ↦ 0, fun _ ↦ 0) : (ℕ → ℕ) × (ℕ → ℕ)))
    (f := fun state m ↦ addTerm A (WordOps.wrapping 32) s ell product state (m + 2))
    (fun m state ↦ IsVector s ell (terms s ell m) state.1) ?_ ?_
  · obtain ⟨state, hstate, hvector⟩ := hloop
    simp only [computeLagrangeCoeffsForPrefixOr, hrun, hstate, Option.bind_eq_bind,
      Option.bind_some, Option.pure_def]
    congr 1
    apply List.map_congr_left
    intro j hj
    exact hvector j (by simpa [Nat.lt_succ_iff] using hj)
  · intro j _
    simp [terms]
  · intro m hm state hstate
    exact addTerm_isVector hA hs hell hm hproduct hstate

theorem natDegree_terms_le (hell : ell + 1 < s) : (terms s ell ell).natDegree ≤ ell := by
  apply natDegree_sum_le_of_forall_le
  intro i hi
  have hmem : i + 1 ∈ Finset.range (ell + 1) := by simpa using hi
  rw [basis, Lagrange.natDegree_basis (place_injOn (by omega)) hmem, Finset.card_range]
  rfl

theorem eval_terms (hell : ell + 1 < s) {j : ℕ} (hj : j ≤ ell) :
    (terms s ell ell).eval (place s j) = if j = 0 then 0 else 1 := by
  have hinj : Set.InjOn (place s) (Finset.range (ell + 1) : Set ℕ) := place_injOn hell
  have hzero (i : ℕ) (hi : i ≠ j) : (basis s ell i).eval (place s j) = 0 :=
    Lagrange.eval_basis_of_ne hi (Finset.mem_range.mpr (by omega))
  rw [terms, eval_finsetSum]
  cases j with
  | zero =>
    apply Finset.sum_eq_zero
    intro i _
    exact hzero (i + 1) (Nat.succ_ne_zero i)
  | succ j =>
    rw [if_neg (Nat.succ_ne_zero j), Finset.sum_eq_single_of_mem j (Finset.mem_range.mpr hj)]
    · exact Lagrange.eval_basis_self hinj (Finset.mem_range.mpr (by omega))
    · intro i _ hij
      exact hzero (i + 1) (by omega)

/-! ### The values -/

/-- The value of the polynomial modulo `s`. -/
def evaluate (coeffs : List ℕ) (val s : ℕ) : ℕ :=
  (∑ i ∈ Finset.range coeffs.length, coeffs.getD i 0 * val ^ i) % s

private theorem evaluate_terms (hell : ell + 1 < s) {j : ℕ} (hj : j ≤ ell) :
    evaluate ((List.range (ell + 1)).map fun j ↦ ((terms s ell ell).coeff j).val) (j + 1) s =
      if j = 0 then 0 else 1 := by
  have hval : (if j = 0 then (0 : ZMod s) else 1).val = if j = 0 then 0 else 1 := by
    rw [apply_ite ZMod.val, ZMod.val_zero, val_one_eq]
  rw [← hval, ← eval_terms hell hj,
    eval_eq_sum_range' (Nat.lt_succ_of_le (natDegree_terms_le hell))]
  apply mod_eq_val
  simp only [List.length_map, List.length_range, Nat.cast_sum, Nat.cast_mul, Nat.cast_pow]
  apply Finset.sum_congr rfl
  intro i hi
  simp [Finset.mem_range.mp hi, place]

/-- For a prime below `2 ^ 16` and `ell + 1 < s` the coefficients are residues of a polynomial of
degree at most `ell` that is zero at `1` and one at `2, …, ell + 1`. Nothing overflows but the
coefficients in `invert`, which wrap around as they should. -/
theorem computeLagrangeCoeffsForPrefixOr_spec {s ell : ℕ} (hprime : s.Prime) (hs : s < 2 ^ 16)
    (hell : ell + 1 < s) :
    ∃ coeffs,
      computeLagrangeCoeffsForPrefixOr (WordOps.wrapping 32) (WordOps.wrapping 32) s ell =
        some coeffs ∧
      computeLagrangeCoeffsForPrefixOr (WordOps.checked 32) (WordOps.wrapping 32) s ell =
        some coeffs ∧
      coeffs.length = ell + 1 ∧ (∀ c ∈ coeffs, c < s) ∧ evaluate coeffs 1 s = 0 ∧
      ∀ k, 2 ≤ k → k ≤ ell + 1 → evaluate coeffs k s = 1 := by
  have : Fact s.Prime := ⟨hprime⟩
  refine ⟨_, computeLagrangeCoeffsForPrefixOr_eq (WordOps.wrapping_exact 32) hs hell,
    computeLagrangeCoeffsForPrefixOr_eq (WordOps.checked_exact 32) hs hell, by simp, ?_,
    evaluate_terms hell (Nat.zero_le ell), ?_⟩
  · intro c hc
    obtain ⟨j, -, rfl⟩ := List.mem_map.mp hc
    exact ZMod.val_lt _
  · intro k hk hkell
    have hvalue := evaluate_terms hell (by omega : k - 1 ≤ ell)
    rwa [if_neg (by omega), Nat.sub_add_cancel (by omega)] at hvalue

theorem computeLagrangeCoeffsForPrefixOr_five : ∃ coeffs,
    computeLagrangeCoeffsForPrefixOr (WordOps.wrapping 32) (WordOps.wrapping 32) 5 3 =
      some coeffs ∧ evaluate coeffs 1 5 = 0 ∧ evaluate coeffs 4 5 = 1 := by
  obtain ⟨coeffs, hrun, -, -, -, hone, hrest⟩ :=
    computeLagrangeCoeffsForPrefixOr_spec (by decide : Nat.Prime 5) (by decide)
      (by decide : 3 + 1 < 5)
  exact ⟨coeffs, hrun, hone, hrest 4 (by decide) (by decide)⟩

/-- The coefficients in `invert` do overflow, in a product and in a sum: `2` is inverted modulo `5`
as `-2`. -/
theorem invert_overflow :
    computeLagrangeCoeffsForPrefixOr (WordOps.checked 32) (WordOps.wrapping 32) 5 3 =
        some [2, 1, 1, 1] ∧
      computeLagrangeCoeffsForPrefixOr (WordOps.checked 32)
        { WordOps.checked 32 with sub := (WordOps.wrapping 32).sub } 5 3 = none := by
  decide +kernel

end PrefixOr

end Safrn.Stats
