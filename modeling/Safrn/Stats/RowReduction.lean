import Safrn.Base.Elimination
import Safrn.Base.Loop
import Mathlib.Algebra.Field.ZMod

/-!
# Row reduction modulo a prime

Models `bn_mod_row_reduce` (`dataowner/RowReduction.cpp:17-83`): the rows below each pivot are
cleared, then those above it, and each row is divided by its pivot. A pivot that is zero is passed
over in each of the three loops, and no rows are exchanged.
-/

namespace Safrn.Stats

open Safrn.Base

/-- The functions of `sst::bn_ctx` that are called. `modInverse` fails on what has no inverse. -/
structure BnCtx where
  isZero : ℤ → Bool
  modInverse : ℤ → ℤ → Option ℤ
  modMul : ℤ → ℤ → ℤ → ℤ
  modAdd : ℤ → ℤ → ℤ → ℤ
  sub : ℤ → ℤ → ℤ

/-- The functions compute what they are named after; sums and products modulo a number are reduced
to its least residues. -/
structure BnCtx.Lawful (ctx : BnCtx) (p : ℕ) : Prop where
  isZero (a : ℤ) : ctx.isZero a = true ↔ a = 0
  modInverse (a : ℤ) (ha : (a : ZMod p) ≠ 0) :
    ∃ inv, ctx.modInverse a p = some inv ∧ (a * inv : ZMod p) = 1
  modInverse_none (a : ℤ) (ha : (a : ZMod p) = 0) : ctx.modInverse a p = none
  modMul (a b : ℤ) : ctx.modMul a b p = a * b % p
  modAdd (a b : ℤ) : ctx.modAdd a b p = (a + b) % p
  sub (a b : ℤ) : ctx.sub a b = a - b

/-- The matrix and the right-hand side. `M i k` is the entry `n * i + k` of the vector. -/
structure Equations where
  M : ℕ → ℕ → ℤ
  b : ℕ → ℤ

namespace BnModRowReduce

variable (ctx : BnCtx) (n : ℕ) (modulus : ℤ)

/-- The body of the loop over `k`: `row(j) = row(j) + ratio * row(i)`. -/
def addMultiple (ratio : ℤ) (i j : ℕ) (s : Equations) (k : ℕ) : Equations :=
  if k = n then
    let tmp := ctx.modMul ratio (s.b i) modulus
    { s with b := Function.update s.b j (ctx.modAdd (s.b j) tmp modulus) }
  else
    let tmp := ctx.modMul ratio (s.M i k) modulus
    let row := Function.update (s.M j) k (ctx.modAdd (s.M j k) tmp modulus)
    { s with M := Function.update s.M j row }

/-- The multiple of row `i`, from the column `start`, that clears the entry `i` of row `j`. -/
def mutateRow (start i : ℕ) (s : Equations) (j : ℕ) : Option Equations :=
  (ctx.modInverse (s.M i i) modulus).map fun inv ↦
    let ratio := ctx.sub modulus (ctx.modMul (s.M j i) inv modulus)
    forRange (fun t k ↦ addMultiple ctx n modulus ratio i j t (start + k)) (n + 1 - start) s

/-- Row reduce the matrix to be upper triangular. -/
def reduceUpper (s : Equations) (i : ℕ) : Option Equations :=
  if ctx.isZero (s.M i i) then some s
  else forRangeM (fun t j ↦ mutateRow ctx n modulus 0 i t (i + 1 + j)) (n - (i + 1)) s

/-- Back-solve to remove the upper triangular terms off the diagonal. -/
def backSolve (s : Equations) (i : ℕ) : Option Equations :=
  if ctx.isZero (s.M i i) then some s
  else forRangeM (fun t j ↦
    if ctx.isZero (t.M j i) then some t else mutateRow ctx n modulus i i t j) i s

/-- Divide a row by the pivot. -/
def divideRow (s : Equations) (i : ℕ) : Option Equations :=
  if ctx.isZero (s.M i i) then some s
  else (ctx.modInverse (s.M i i) modulus).map fun inv ↦
    { M := Function.update s.M i
        (Function.update (s.M i) i (ctx.modMul (s.M i i) inv modulus))
      b := Function.update s.b i (ctx.modMul (s.b i) inv modulus) }

/-- `bn_mod_row_reduce`. -/
def bnModRowReduce (s : Equations) : Option Equations :=
  (forRangeM (reduceUpper ctx n modulus) (n - 1) s).bind fun s ↦
    (forRangeM (fun s i ↦ backSolve ctx n modulus s (i + 1)) (n - 1) s).bind fun s ↦
      forRangeM (divideRow ctx modulus) n s

end BnModRowReduce

/-- The entries modulo `p`. -/
def Equations.residues (s : Equations) (p : ℕ) : ℕ → ℕ → ZMod p := fun r c ↦ s.M r c

/-- The right-hand side modulo `p`. -/
def Equations.rhs (s : Equations) (p : ℕ) : ℕ → ZMod p := fun r ↦ s.b r

/-- The matrix modulo `p`. -/
def Equations.matrix (s : Equations) (n p : ℕ) : Matrix (Fin n) (Fin n) (ZMod p) :=
  Matrix.of fun r c ↦ s.residues p r c

/-- In place of the matrix there is the identity, and `M⁻¹ b` in place of the right-hand side. -/
def Reduced (n p : ℕ) (s t : Equations) : Prop :=
  (∀ i < n, ∀ k < n, t.M i k = if i = k then 1 else 0) ∧
    ∀ i : Fin n, 0 ≤ t.b i ∧ t.b i < p ∧
      (t.b i : ZMod p) = ((s.matrix n p)⁻¹.mulVec fun r ↦ s.rhs p r) i

namespace BnModRowReduce

variable {ctx : BnCtx} {n p i j : ℕ} {s t : Equations} [Fact p.Prime]

/-! ### A row is mutated -/

/-- What is left in row `j` after the columns from `start` on and the right-hand side are done. -/
structure Mutated (p : ℕ) [Fact p.Prime] (n start i j : ℕ) (s t : Equations) : Prop where
  row (r : ℕ) (hr : r ≠ j) : t.M r = s.M r
  rhs (r : ℕ) (hr : r ≠ j) : t.b r = s.b r
  before (k : ℕ) (hk : k < start) : t.M j k = s.M j k
  canonical (k : ℕ) (hk : start ≤ k) (hkn : k < n) : 0 ≤ t.M j k ∧ t.M j k < p
  entry (k : ℕ) (hk : start ≤ k) (hkn : k < n) :
    (t.M j k : ZMod p) = s.M j k + -((s.M j i : ZMod p) / s.M i i) * s.M i k
  entryRhs : (t.b j : ZMod p) = s.b j + -((s.M j i : ZMod p) / s.M i i) * s.b i

/-- The loop over `k`, as far as it has come. -/
private structure Added (p n start i j : ℕ) (ratio : ℤ) (s : Equations) (k : ℕ) (t : Equations) :
    Prop where
  row (r : ℕ) (hr : r ≠ j) : t.M r = s.M r
  rhs (r : ℕ) (hr : r ≠ j) : t.b r = s.b r
  entry (c : ℕ) (hc : c < n) : t.M j c =
    if start ≤ c ∧ c < start + k then (s.M j c + ratio * s.M i c % p) % p else s.M j c
  entryRhs : t.b j = if n < start + k then (s.b j + ratio * s.b i % p) % p else s.b j

omit [Fact p.Prime] in
private theorem added_addMultiple (hctx : ctx.Lawful p) {start k : ℕ} {ratio : ℤ} (hij : i ≠ j)
    (h : Added p n start i j ratio s k t) :
    Added p n start i j ratio s (k + 1) (addMultiple ctx n p ratio i j t (start + k)) := by
  unfold addMultiple
  by_cases hk : start + k = n
  · rw [if_pos hk]
    refine ⟨h.row, fun r hr ↦ ?_, fun c hc ↦ ?_, ?_⟩
    · simp [hr, h.rhs r hr]
    · have : (start ≤ c ∧ c < start + (k + 1)) ↔ start ≤ c ∧ c < start + k := by omega
      simp only [this]
      exact h.entry c hc
    · have hle : ¬n < start + k := by omega
      have hlt : n < start + (k + 1) := by omega
      simp [hctx.modMul, hctx.modAdd, h.entryRhs, h.rhs i hij, hle, hlt]
  · rw [if_neg hk]
    refine ⟨fun r hr ↦ ?_, h.rhs, fun c hc ↦ ?_, ?_⟩
    · simp [hr, h.row r hr]
    · by_cases hck : c = start + k
      · subst hck
        have hentry := h.entry _ hc
        rw [if_neg (by omega)] at hentry
        simp [hctx.modMul, hctx.modAdd, h.row i hij, hentry]
      · have : (start ≤ c ∧ c < start + (k + 1)) ↔ start ≤ c ∧ c < start + k := by omega
        simp only [this, Function.update_self, Function.update_of_ne hck]
        exact h.entry c hc
    · have : n < start + (k + 1) ↔ n < start + k := by omega
      simp only [this]
      exact h.entryRhs

omit [Fact p.Prime] in
private theorem added_forRange (hctx : ctx.Lawful p) {start : ℕ} (hstart : start ≤ n) (ratio : ℤ)
    (hij : i ≠ j) (k : ℕ) :
    Added p n start i j ratio s k
      (forRange (fun t k ↦ addMultiple ctx n p ratio i j t (start + k)) k s) := by
  apply forRange_invariant (Added p n start i j ratio s)
  · refine ⟨fun _ _ ↦ rfl, fun _ _ ↦ rfl, fun c _ ↦ ?_, ?_⟩
    · rw [if_neg (by omega)]
    · rw [if_neg (by omega)]
  · intro k _ t ht
    exact added_addMultiple hctx hij ht

/-- A row can be mutated where the pivot has an inverse. -/
theorem mutateRow_eq_some (hctx : ctx.Lawful p) {start : ℕ} (hstart : start ≤ n) (hij : i ≠ j)
    (hpivot : (s.M i i : ZMod p) ≠ 0) :
    ∃ t, mutateRow ctx n p start i s j = some t ∧ Mutated p n start i j s t := by
  obtain ⟨inv, hinv, hmul⟩ := hctx.modInverse _ hpivot
  have hdiv : (inv : ZMod p) = (s.M i i : ZMod p)⁻¹ := eq_inv_of_mul_eq_one_right hmul
  have hpos : (0 : ℤ) < p := by
    exact_mod_cast (Fact.out : p.Prime).pos
  let ratio := ctx.sub p (ctx.modMul (s.M j i) inv p)
  have hratio : (ratio : ZMod p) = -((s.M j i : ZMod p) / s.M i i) := by
    simp [ratio, hctx.sub, hctx.modMul, hdiv, div_eq_mul_inv]
  have hadded := added_forRange (s := s) hctx hstart ratio hij (n + 1 - start)
  refine ⟨_, by rw [mutateRow, hinv]; rfl, ?_⟩
  refine ⟨hadded.row, hadded.rhs, ?_, ?_, ?_, ?_⟩
  · intro k hk
    rw [hadded.entry k (by omega), if_neg (by omega)]
  · intro k hk hkn
    rw [hadded.entry k hkn, if_pos (by omega)]
    exact ⟨Int.emod_nonneg _ hpos.ne', Int.emod_lt_of_pos _ hpos⟩
  · intro k hk hkn
    rw [hadded.entry k hkn, if_pos (by omega)]
    simp [hratio]
  · rw [hadded.entryRhs, if_pos (by omega)]
    simp [hratio]

/-- Where something is divided by there is a pivot. -/
theorem mutateRow_some (hctx : ctx.Lawful p) {start : ℕ} (hstart : start ≤ n) (hij : i ≠ j)
    (h : mutateRow ctx n p start i s j = some t) :
    (s.M i i : ZMod p) ≠ 0 ∧ Mutated p n start i j s t := by
  have hpivot : (s.M i i : ZMod p) ≠ 0 := by
    intro hzero
    simp [mutateRow, hctx.modInverse_none _ hzero] at h
  obtain ⟨t', ht', hmutated⟩ := mutateRow_eq_some hctx hstart hij hpivot
  rw [h] at ht'
  cases ht'
  exact ⟨hpivot, hmutated⟩

namespace Mutated

variable {start k : ℕ} (h : Mutated p n start i j s t)

include h

theorem eq_zero (hk : start ≤ k) (hkn : k < n)
    (hzero : (s.M j k : ZMod p) + -((s.M j i : ZMod p) / s.M i i) * s.M i k = 0) :
    t.M j k = 0 := by
  obtain ⟨hnonneg, hlt⟩ := h.canonical k hk hkn
  apply Int.eq_zero_of_dvd_of_nonneg_of_lt hnonneg hlt
  rw [← ZMod.intCast_zmod_eq_zero_iff_dvd, h.entry k hk hkn, hzero]

/-- The entry in the column of the pivot is cleared. -/
theorem clears (hi : start ≤ i) (hin : i < n) (hpivot : (s.M i i : ZMod p) ≠ 0) :
    t.M j i = 0 := by
  apply h.eq_zero hi hin
  field_simp
  ring

theorem rowAdded (hzero : ∀ k < start, s.M i k = 0) :
    RowAdded n (s.residues p) (t.residues p) (-((s.M j i : ZMod p) / s.M i i)) i j := by
  constructor
  · intro c hc
    by_cases hlt : c < start
    · simp [Equations.residues, h.before c hlt, hzero c hlt]
    · exact h.entry c (by omega) hc
  · intro r _ hr c _
    simp [Equations.residues, h.row r hr]

theorem solves {x : ℕ → ZMod p} (hin : i < n) (hzero : ∀ k < start, s.M i k = 0)
    (hx : Solves n (s.residues p) (s.rhs p) x) : Solves n (t.residues p) (t.rhs p) x := by
  apply (h.rowAdded hzero).solves hin h.entryRhs _ hx
  intro r _ hr
  simp [Equations.rhs, h.rhs r hr]

end Mutated

/-! ### Below the diagonal -/

/-- What the first loop has done after `i` rounds. -/
structure Upper (p n : ℕ) (s : Equations) (x : ℕ → ZMod p) (i : ℕ)
    (t : Equations) : Prop where
  solves : Solves n (t.residues p) (t.rhs p) x
  minors (k : ℕ) (hk : k ≤ n) :
    leadingMinor (t.residues p) k = leadingMinor (s.residues p) k
  cleared : Cleared n i t.M

variable {x : ℕ → ZMod p}

private theorem cleared_residues (h : Cleared n i t.M) : Cleared n i (t.residues p) := by
  intro c hc r hr hcr
  simp [Equations.residues, h c hc r hr hcr]

private theorem Upper.pivot_ne_zero (h : Upper p n s x i t) (hi : i < n)
    (hminor : leadingMinor (s.residues p) (i + 1) ≠ 0) : (t.M i i : ZMod p) ≠ 0 := by
  rw [← h.minors (i + 1) hi, (cleared_residues h.cleared).leadingMinor_succ hi] at hminor
  exact right_ne_zero_of_mul hminor

private theorem isZero_eq_false (hctx : ctx.Lawful p) {a : ℤ} (ha : (a : ZMod p) ≠ 0) :
    ctx.isZero a = false := by
  rw [Bool.eq_false_iff, Ne, hctx.isZero]
  rintro rfl
  exact ha Int.cast_zero

/-- A row that is mutated in the first loop. -/
private theorem Upper.mutated (h : Upper p n s x i t) (hij : i < j) (hj : j < n) {u : Equations}
    (hu : Mutated p n 0 i j t u) : Upper p n s x i u := by
  have hadded := hu.rowAdded (fun k hk ↦ absurd hk (Nat.not_lt_zero k))
  refine ⟨?_, fun k hk ↦ ?_, fun c hc r hr hcr ↦ ?_⟩
  · exact hu.solves (by omega) (fun k hk ↦ absurd hk (Nat.not_lt_zero k)) h.solves
  · rw [hadded.leadingMinor hij hk, h.minors k hk]
  · by_cases hrj : r = j
    · subst hrj
      apply hu.eq_zero (Nat.zero_le c) (by omega)
      simp [h.cleared c hc r hr hcr, h.cleared c hc i (by omega) hc]
    · rw [hu.row r hrj, h.cleared c hc r hr hcr]

/-- A round with a pivot clears its column. -/
theorem reduceUpper_step (hctx : ctx.Lawful p) (hi : i < n) (h : Upper p n s x i t)
    (hminor : leadingMinor (s.residues p) (i + 1) ≠ 0) :
    ∃ t', reduceUpper ctx n p t i = some t' ∧ Upper p n s x (i + 1) t' := by
  have hloop := forRangeM_invariant (s := t) (n := n - (i + 1))
    (f := fun t j ↦ mutateRow ctx n p 0 i t (i + 1 + j))
    (fun m u ↦ Upper p n s x i u ∧ ∀ r, i < r → r < i + 1 + m → u.M r i = 0)
    ⟨h, by omega⟩ ?_
  · obtain ⟨t', ht', hupper, hcolumn⟩ := hloop
    refine ⟨t', ?_, hupper.solves, hupper.minors, fun c hc r hr hcr ↦ ?_⟩
    · rw [reduceUpper, isZero_eq_false hctx (h.pivot_ne_zero hi hminor)]
      exact ht'
    · by_cases hci : c = i
      · subst hci
        exact hcolumn r hcr (by omega)
      · exact hupper.cleared c (by omega) r hr hcr
  · intro m hm u hu
    have hpivot := hu.1.pivot_ne_zero hi hminor
    obtain ⟨u', hu', hmutated⟩ := mutateRow_eq_some (j := i + 1 + m) hctx (Nat.zero_le n)
      (by omega) hpivot
    refine ⟨u', hu', hu.1.mutated (by omega) (by omega) hmutated, fun r hir hr ↦ ?_⟩
    by_cases hrm : r = i + 1 + m
    · subst hrm
      exact hmutated.clears (Nat.zero_le i) hi hpivot
    · rw [hmutated.row r hrm]
      exact hu.2 r hir (by omega)

/-! ### Above the diagonal -/

/-- What the second loop has done for the first `i` columns. -/
structure Diagonal (p n : ℕ) (x : ℕ → ZMod p) (i : ℕ) (t : Equations) :
    Prop where
  solves : Solves n (t.residues p) (t.rhs p) x
  cleared : Cleared n n t.M
  pivots (c : ℕ) (hc : c < n) : (t.M c c : ZMod p) ≠ 0
  above (c : ℕ) (hc : c < i) (r : ℕ) (hr : r < c) : t.M r c = 0

/-- A row that is mutated in the second loop. -/
private theorem Diagonal.mutated (h : Diagonal p n x i t) (hi : i < n) (hji : j < i)
    {u : Equations} (hu : Mutated p n i i j t u) : Diagonal p n x i u := by
  have hzero (k : ℕ) (hk : k < i) : t.M i k = 0 := h.cleared k (by omega) i hi hk
  refine ⟨hu.solves hi hzero h.solves, fun c hc r hr hcr ↦ ?_, fun c hc ↦ ?_,
    fun c hc r hr ↦ ?_⟩
  · by_cases hrj : r = j
    · subst hrj
      rw [hu.before c (by omega), h.cleared c hc r hr hcr]
    · rw [hu.row r hrj, h.cleared c hc r hr hcr]
  · by_cases hcj : c = j
    · subst hcj
      rw [hu.before c hji]
      exact h.pivots c hc
    · rw [hu.row c hcj]
      exact h.pivots c hc
  · by_cases hrj : r = j
    · subst hrj
      rw [hu.before c hc, h.above c hc r hr]
    · rw [hu.row r hrj, h.above c hc r hr]

theorem backSolve_step (hctx : ctx.Lawful p) (hi : i < n) (h : Diagonal p n x i t) :
    ∃ t', backSolve ctx n p t i = some t' ∧ Diagonal p n x (i + 1) t' := by
  have hloop := forRangeM_invariant (s := t) (n := i)
    (f := fun t j ↦ if ctx.isZero (t.M j i) then some t else mutateRow ctx n p i i t j)
    (fun m u ↦ Diagonal p n x i u ∧ ∀ r < m, u.M r i = 0) ⟨h, by omega⟩ ?_
  · obtain ⟨t', ht', hdiagonal, hcolumn⟩ := hloop
    refine ⟨t', ?_, hdiagonal.solves, hdiagonal.cleared, hdiagonal.pivots, fun c hc r hr ↦ ?_⟩
    · rw [backSolve, isZero_eq_false hctx (h.pivots i hi)]
      exact ht'
    · by_cases hci : c = i
      · subst hci
        exact hcolumn r hr
      · exact hdiagonal.above c (by omega) r hr
  · intro j hj u hu
    by_cases hzero : ctx.isZero (u.M j i) = true
    · refine ⟨u, if_pos hzero, hu.1, fun r hr ↦ ?_⟩
      by_cases hrj : r = j
      · subst hrj
        exact (hctx.isZero _).mp hzero
      · exact hu.2 r (by omega)
    · have hpivot := hu.1.pivots i hi
      obtain ⟨u', hu', hmutated⟩ := mutateRow_eq_some hctx (Nat.le_of_lt hi) (Nat.ne_of_gt hj)
        hpivot
      refine ⟨u', by rw [if_neg hzero, hu'], hu.1.mutated hi hj hmutated, fun r hr ↦ ?_⟩
      by_cases hrj : r = j
      · subst hrj
        exact hmutated.clears le_rfl hi hpivot
      · rw [hmutated.row r hrj]
        exact hu.2 r (by omega)

/-! ### The pivots -/

/-- What the third loop has done after `i` rounds. -/
structure Divided (p n : ℕ) (x : ℕ → ZMod p) (i : ℕ) (t : Equations) :
    Prop where
  off (r : ℕ) (hr : r < n) (c : ℕ) (hc : c < n) (hne : c ≠ r) : t.M r c = 0
  one (r : ℕ) (hr : r < i) : t.M r r = 1
  solved (r : ℕ) (hr : r < i) : 0 ≤ t.b r ∧ t.b r < p ∧ (t.b r : ZMod p) = x r
  pivots (r : ℕ) (hi : i ≤ r) (hr : r < n) : (t.M r r : ZMod p) ≠ 0
  solves (r : ℕ) (hi : i ≤ r) (hr : r < n) : (t.M r r : ZMod p) * x r = t.b r

private theorem Diagonal.divided (h : Diagonal p n x n t) : Divided p n x 0 t := by
  have hoff (r : ℕ) (hr : r < n) (c : ℕ) (hc : c < n) (hne : c ≠ r) : t.M r c = 0 := by
    by_cases hcr : c < r
    · exact h.cleared c hc r hr hcr
    · exact h.above c hc r (by omega)
  refine ⟨hoff, by omega, by omega, fun r _ hr ↦ h.pivots r hr, fun r _ hr ↦ ?_⟩
  apply h.solves.diagonal hr
  intro c hc hcr
  simp [Equations.residues, hoff r hr c hc hcr]

theorem divideRow_step (hctx : ctx.Lawful p) (hi : i < n) (h : Divided p n x i t) :
    ∃ t', divideRow ctx p t i = some t' ∧ Divided p n x (i + 1) t' := by
  have hpivot := h.pivots i le_rfl hi
  have hprime : p.Prime := Fact.out
  have hpos : (0 : ℤ) < p := by exact_mod_cast hprime.pos
  obtain ⟨inv, hinv, hmul⟩ := hctx.modInverse _ hpivot
  have hone : t.M i i * inv % p = 1 := by
    have hmod : t.M i i * inv ≡ 1 [ZMOD p] := by
      rw [← ZMod.intCast_eq_intCast_iff]
      simpa using hmul
    rw [hmod]
    exact Int.emod_eq_of_lt (by omega) (by exact_mod_cast hprime.one_lt)
  have hx : (t.b i * inv : ZMod p) = x i := by
    rw [← h.solves i le_rfl hi, mul_right_comm, hmul, one_mul]
  refine ⟨_, by rw [divideRow, isZero_eq_false hctx hpivot, hinv]; rfl, ?_⟩
  constructor
  · intro r hr c hc hne
    by_cases hri : r = i
    · subst hri
      simp [hne, h.off r hr c hc hne]
    · simp [hri, h.off r hr c hc hne]
  · intro r hr
    by_cases hri : r = i
    · subst hri
      simp [hctx.modMul, hone]
    · simp [hri, h.one r (by omega)]
  · intro r hr
    by_cases hri : r = i
    · subst hri
      simp only [Function.update_self, hctx.modMul]
      refine ⟨Int.emod_nonneg _ hpos.ne', Int.emod_lt_of_pos _ hpos, ?_⟩
      simpa using hx
    · simp only [Function.update_of_ne hri]
      exact h.solved r (by omega)
  · intro r hr hrn
    have hri : r ≠ i := by omega
    simp only [Function.update_of_ne hri]
    exact h.pivots r (by omega) hrn
  · intro r hr hrn
    have hri : r ≠ i := by omega
    simp only [Function.update_of_ne hri]
    exact h.solves r (by omega) hrn

/-! ### A pivot that is zero -/

private theorem forRangeM_zeroPivot {f : Equations → ℕ → Option Equations} {c m : ℕ}
    (hf : ∀ i < m, ∀ u u', u.M c c = 0 → f u i = some u' → u'.M c c = 0) (hs : s.M c c = 0)
    (h : forRangeM f m s = some t) : t.M c c = 0 :=
  forRangeM_some (fun _ u ↦ u.M c c = 0) hs hf h

/-- A pivot above the rows that are mutated stays as it is. -/
private theorem reduceUpper_zeroPivot (hctx : ctx.Lawful p) {c : ℕ} (hci : c ≤ i)
    (hs : s.M c c = 0) (h : reduceUpper ctx n p s i = some t) : t.M c c = 0 := by
  unfold reduceUpper at h
  split at h
  · cases h
    exact hs
  · apply forRangeM_zeroPivot _ hs h
    intro j _ u u' hu hstep
    have hmutated := (mutateRow_some hctx (Nat.zero_le n) (by omega) hstep).2
    rw [hmutated.row c (by omega), hu]

private theorem backSolve_zeroPivot (hctx : ctx.Lawful p) {c : ℕ} (hi : i < n)
    (hs : s.M c c = 0) (h : backSolve ctx n p s i = some t) : t.M c c = 0 := by
  unfold backSolve at h
  split at h
  · cases h
    exact hs
  next hzero =>
    have hci : c ≠ i := by
      rintro rfl
      exact hzero ((hctx.isZero _).mpr hs)
    apply forRangeM_zeroPivot _ hs h
    intro j hj u u' hu hstep
    split at hstep
    · cases hstep
      exact hu
    · have hmutated := (mutateRow_some hctx (Nat.le_of_lt hi) (Nat.ne_of_gt hj) hstep).2
      by_cases hcj : c = j
      · subst hcj
        rw [hmutated.before c hj, hu]
      · rw [hmutated.row c hcj, hu]

omit [Fact p.Prime] in
private theorem divideRow_zeroPivot (hctx : ctx.Lawful p) {c : ℕ} (hs : s.M c c = 0)
    (h : divideRow ctx p s i = some t) : t.M c c = 0 := by
  unfold divideRow at h
  split at h
  · cases h
    exact hs
  next hzero =>
    have hci : c ≠ i := by
      rintro rfl
      exact hzero ((hctx.isZero _).mpr hs)
    simp only [Option.map_eq_some_iff] at h
    obtain ⟨inv, -, rfl⟩ := h
    simp [hci, hs]

/-- A zero pivot after the first loop is still there at the end. -/
private theorem zeroPivot_end (hctx : ctx.Lawful p) {c : ℕ} {u : Equations} (hs : s.M c c = 0)
    (hback : forRangeM (fun s i ↦ backSolve ctx n p s (i + 1)) (n - 1) s = some u)
    (hdivide : forRangeM (divideRow ctx p) n u = some t) : t.M c c = 0 := by
  have hu : u.M c c = 0 := by
    apply forRangeM_zeroPivot _ hs hback
    intro i hi s t
    exact backSolve_zeroPivot hctx (by omega)
  apply forRangeM_zeroPivot _ hu hdivide
  intro i _ s t
  exact divideRow_zeroPivot hctx

/-! ### The whole reduction -/

/-- The solution. -/
private noncomputable def solution (s : Equations) (n p r : ℕ) : ZMod p :=
  if h : r < n then ((s.matrix n p)⁻¹.mulVec fun r ↦ s.rhs p r) ⟨r, h⟩ else 0

private theorem upper_start (hM : IsUnit (s.matrix n p).det) :
    Upper p n s (solution s n p) 0 s := by
  refine ⟨?_, fun _ _ ↦ rfl, fun c hc ↦ absurd hc (Nat.not_lt_zero c)⟩
  apply solves_nonsing_inv hM
  intro r
  simp [solution, Equations.matrix]

/-- After the first loop all pivots are there. -/
private theorem Upper.diagonal (h : Upper p n s x (n - 1) t)
    (hminor : ∀ k ≤ n, leadingMinor (s.residues p) k ≠ 0) : Diagonal p n x 1 t := by
  have hcleared : Cleared n n t.M := by
    intro c hc r hr hcr
    exact h.cleared c (by omega) r hr hcr
  refine ⟨h.solves, hcleared, fun c hc ↦ ?_, by omega⟩
  have hupper : Upper p n s x c t := by
    refine ⟨h.solves, h.minors, fun d hd r hr hdr ↦ ?_⟩
    exact hcleared d (by omega) r hr hdr
  exact hupper.pivot_ne_zero hc (hminor (c + 1) hc)

omit [Fact p.Prime] in
private theorem Divided.reduced (h : Divided p n (solution s n p) n t) : Reduced n p s t := by
  constructor
  · intro i hi k hk
    by_cases hik : i = k
    · subst hik
      rw [if_pos rfl, h.one i hi]
    · rw [if_neg hik, h.off i hi k hk (Ne.symm hik)]
  · intro i
    have hsolved := h.solved i i.isLt
    rwa [solution, dif_pos i.isLt] at hsolved

/-- No minor is zero: all rounds of the three loops go through. -/
theorem bnModRowReduce_eq_some (hctx : ctx.Lawful p)
    (hminor : ∀ k ≤ n, leadingMinor (s.residues p) k ≠ 0) :
    ∃ t, bnModRowReduce ctx n p s = some t ∧ Reduced n p s t := by
  have hM : IsUnit (s.matrix n p).det := (hminor n le_rfl).isUnit
  have hupper := forRangeM_invariant (f := reduceUpper ctx n p) (n := n - 1) _ (upper_start hM) ?_
  · obtain ⟨t₁, ht₁, hupper⟩ := hupper
    have hback := forRangeM_invariant (f := fun s i ↦ backSolve ctx n p s (i + 1)) (n := n - 1)
      (fun i t ↦ Diagonal p n (solution s n p) (i + 1) t) (hupper.diagonal hminor) ?_
    · obtain ⟨t₂, ht₂, hdiagonal⟩ := hback
      have hfull : Diagonal p n (solution s n p) n t₂ := by
        refine ⟨hdiagonal.solves, hdiagonal.cleared, hdiagonal.pivots, fun c hc r hr ↦ ?_⟩
        exact hdiagonal.above c (by omega) r hr
      obtain ⟨t, ht, hdivided⟩ := forRangeM_invariant (f := divideRow ctx p) (n := n) _
        hfull.divided fun i hi t ↦ divideRow_step hctx hi
      refine ⟨t, ?_, hdivided.reduced⟩
      rw [bnModRowReduce, ht₁, Option.bind_some, ht₂, Option.bind_some, ht]
    · intro i hi t ht
      exact backSolve_step hctx (by omega) ht
  · intro i hi t ht
    exact reduceUpper_step hctx (by omega) ht (hminor (i + 1) (by omega))

/-- A round that goes through has divided by its pivot, or passed over it. -/
private theorem reduceUpper_pivot (hctx : ctx.Lawful p) (hi : i < n - 1)
    (h : reduceUpper ctx n p s i = some t) : t.M i i = 0 ∨ (s.M i i : ZMod p) ≠ 0 := by
  unfold reduceUpper at h
  split at h
  next hzero =>
    cases h
    exact Or.inl ((hctx.isZero _).mp hzero)
  · right
    have hloop := forRangeM_some
      (fun m u ↦ (m = 0 ∧ u = s) ∨ (s.M i i : ZMod p) ≠ 0) (Or.inl ⟨rfl, rfl⟩) ?_ h
    · exact hloop.resolve_left (by omega)
    · rintro j - u u' (⟨-, rfl⟩ | hpivot) hstep
      · exact Or.inr (mutateRow_some hctx (Nat.zero_le n) (by omega) hstep).1
      · exact Or.inr hpivot

/-- The first loop ends with all pivots, or with one that is zero and stays so. -/
private theorem upper_or_zeroPivot (hctx : ctx.Lawful p) (hM : IsUnit (s.matrix n p).det)
    (h : forRangeM (reduceUpper ctx n p) (n - 1) s = some t) :
    (∀ k ≤ n - 1, leadingMinor (s.residues p) k ≠ 0) ∨ ∃ c < n - 1, t.M c c = 0 := by
  have hloop := forRangeM_some (fun i t ↦ (Upper p n s (solution s n p) i t ∧
      ∀ k ≤ i, leadingMinor (s.residues p) k ≠ 0) ∨ ∃ c < i, t.M c c = 0) ?_ ?_ h
  · exact hloop.imp_left And.right
  · refine Or.inl ⟨upper_start hM, fun k hk ↦ ?_⟩
    rw [Nat.le_zero.mp hk]
    simp [leadingMinor]
  · rintro i hi u u' (⟨hupper, hminors⟩ | ⟨c, hc, hzero⟩) hstep
    · apply Or.symm
      apply (reduceUpper_pivot hctx hi hstep).imp
      · intro hzero
        exact ⟨i, Nat.lt_succ_self i, hzero⟩
      · intro hpivot
        have hminor : leadingMinor (s.residues p) (i + 1) ≠ 0 := by
          rw [← hupper.minors (i + 1) (by omega),
            (cleared_residues hupper.cleared).leadingMinor_succ (by omega),
            hupper.minors i (by omega)]
          exact mul_ne_zero (hminors i le_rfl) hpivot
        obtain ⟨t', ht', hnext⟩ := reduceUpper_step hctx (by omega) hupper hminor
        rw [hstep] at ht'
        cases ht'
        refine ⟨hnext, fun k hk ↦ ?_⟩
        by_cases hki : k = i + 1
        · rwa [hki]
        · exact hminors k (by omega)
    · right
      exact ⟨c, by omega, reduceUpper_zeroPivot hctx (Nat.le_of_lt hc) hzero hstep⟩

/-- For `n` from `1` and an invertible matrix the reduction is right when no leading principal minor
is zero modulo `p`, and only then: where one is zero, a row exchange is needed. -/
theorem bnModRowReduce_iff (hctx : ctx.Lawful p) (s : Equations)
    (hM : IsUnit (s.matrix n p).det) :
    (∃ t, bnModRowReduce ctx n p s = some t ∧ Reduced n p s t) ↔
      ∀ k ≤ n, leadingMinor (s.residues p) k ≠ 0 := by
  constructor
  · rintro ⟨t, hrun, hreduced⟩ k hk
    obtain ⟨t₁, hupper, hrun⟩ := Option.bind_eq_some_iff.mp hrun
    obtain ⟨t₂, hback, hdivide⟩ := Option.bind_eq_some_iff.mp hrun
    by_cases hkn : k = n
    · rw [hkn]
      exact hM.ne_zero
    · apply (upper_or_zeroPivot hctx hM hupper).elim
      · intro hminors
        exact hminors k (by omega)
      · rintro ⟨c, hc, hzero⟩
        have hone := hreduced.1 c (by omega) c (by omega)
        rw [zeroPivot_end hctx hzero hback hdivide, if_pos rfl] at hone
        omega
  · exact bnModRowReduce_eq_some hctx

end BnModRowReduce

/-! ### Two equations -/

/-- What OpenSSL computes, with the inverse from the extended Euclidean algorithm. -/
def BnCtx.euclid : BnCtx where
  isZero a := a == 0
  modInverse a m := if Int.gcd a m = 1 then some (Int.gcdA a m % m) else none
  modMul a b m := a * b % m
  modAdd a b m := (a + b) % m
  sub a b := a - b

private theorem gcd_eq_one_iff {p : ℕ} [Fact p.Prime] (a : ℤ) :
    Int.gcd a p = 1 ↔ (a : ZMod p) ≠ 0 := by
  have hprime : p.Prime := Fact.out
  rw [Ne, ZMod.intCast_zmod_eq_zero_iff_dvd, Int.natCast_dvd, ← hprime.coprime_iff_not_dvd,
    Nat.coprime_comm]
  rfl

theorem BnCtx.euclid_lawful (p : ℕ) [Fact p.Prime] : BnCtx.euclid.Lawful p where
  isZero a := by simp [euclid]
  modInverse a ha := by
    have hgcd : Int.gcd a p = 1 := (gcd_eq_one_iff a).mpr ha
    refine ⟨Int.gcdA a p % p, if_pos hgcd, ?_⟩
    have hbezout := congrArg (Int.cast : ℤ → ZMod p) (Int.gcd_eq_gcd_ab a p)
    rw [hgcd] at hbezout
    simpa using hbezout.symm
  modInverse_none a ha := by
    apply if_neg
    rw [gcd_eq_one_iff]
    exact not_not_intro ha
  modMul _ _ := rfl
  modAdd _ _ := rfl
  sub _ _ := rfl

/-- Two equations, with the pivots `2` and `3` modulo 7. -/
def smallEquations : Equations where
  M i k := if i = k then 2 else if i < k then 4 else 3
  b i := i + 1

theorem bnModRowReduce_smallEquations :
    ∃ t, BnModRowReduce.bnModRowReduce BnCtx.euclid 2 7 smallEquations = some t ∧
      Reduced 2 7 smallEquations t := by
  have hM : IsUnit (smallEquations.matrix 2 7).det := by decide
  have hminor : ∀ k ≤ 2, leadingMinor (smallEquations.residues 7) k ≠ 0 := by decide
  have : Fact (Nat.Prime 7) := ⟨by decide⟩
  exact (BnModRowReduce.bnModRowReduce_iff (BnCtx.euclid_lawful 7) smallEquations hM).mpr
    hminor

/-- Two rows that have to be exchanged. -/
def exchangedEquations : Equations where
  M i k := if i = k then 0 else 1
  b i := i + 1

theorem bnModRowReduce_exchangedEquations :
    IsUnit (exchangedEquations.matrix 2 7).det ∧
      ¬∃ t, BnModRowReduce.bnModRowReduce BnCtx.euclid 2 7 exchangedEquations = some t ∧
        Reduced 2 7 exchangedEquations t := by
  constructor
  · decide
  · rintro ⟨t, hrun, hreduced⟩
    have hsame : BnModRowReduce.bnModRowReduce BnCtx.euclid 2 7 exchangedEquations =
        some exchangedEquations := rfl
    rw [hsame] at hrun
    cases hrun
    exact absurd (hreduced.1 0 (by decide) 0 (by decide)) (by decide)

end Safrn.Stats
