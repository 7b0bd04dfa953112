import Mathlib.Algebra.BigOperators.Ring.Finset
import Mathlib.Tactic.Ring
import Safrn.Base.Loop

/-!
# Packed upper triangles

The entries `f i j` with `i ≤ j < n` of an array, row by row, as two nested loops append them. The
entry `f i j` stands behind all the triangle but its last `n - i` rows, at distance `j - i`.
-/

namespace Safrn.Base

variable {α : Type}

/-- The first `m` rows of the upper triangle of an array with `n` rows and columns. -/
def triangleRows (n m : Nat) (f : Nat → Nat → α) : List α :=
  (List.range m).flatMap fun i ↦ (List.range (n - i)).map fun k ↦ f i (i + k)

/-- The upper triangle of an array with `n` rows and columns. -/
def triangle (n : Nat) (f : Nat → Nat → α) : List α := triangleRows n n f

/-- The number of entries of a triangle grows by the first row. -/
theorem half_succ (n : Nat) : (n + 1) * (n + 1 + 1) / 2 = n * (n + 1) / 2 + (n + 1) := by
  have h : (n + 1) * (n + 1 + 1) = n * (n + 1) + 2 * (n + 1) := by ring
  rw [h, Nat.add_mul_div_left _ _ Nat.zero_lt_two]

theorem half_le {m n : Nat} (h : m ≤ n) : m * (m + 1) / 2 ≤ n * (n + 1) / 2 := by
  apply Nat.div_le_div_right
  exact Nat.mul_le_mul h (Nat.add_le_add_right h 1)

theorem triangle_succ (n : Nat) (f : Nat → Nat → α) :
    triangle (n + 1) f =
      (List.range (n + 1)).map (f 0) ++ triangle n fun i j ↦ f (i + 1) (j + 1) := by
  unfold triangle triangleRows
  rw [List.range_succ_eq_map (n := n), List.flatMap_cons, List.flatMap_map]
  congr 1
  · simp [List.range_succ_eq_map]
  · simp [Nat.add_right_comm]

@[simp] theorem length_triangle (n : Nat) (f : Nat → Nat → α) :
    (triangle n f).length = n * (n + 1) / 2 := by
  induction n generalizing f with
  | zero => rfl
  | succ n ih =>
    rw [triangle_succ, List.length_append, List.length_map, List.length_range, ih, half_succ,
      Nat.add_comm]

/-- Where the entry of row `i` and column `j` stands. -/
theorem getElem?_triangle {n i j : Nat} (hij : i ≤ j) (hj : j < n) (f : Nat → Nat → α) :
    (triangle n f)[n * (n + 1) / 2 - (n - i) * (n - i + 1) / 2 + (j - i)]? = some (f i j) := by
  induction n generalizing i j f with
  | zero => exact absurd hj (Nat.not_lt_zero j)
  | succ n ih =>
    rw [triangle_succ]
    cases i with
    | zero =>
      rw [Nat.sub_zero, Nat.sub_self, Nat.zero_add, Nat.sub_zero, List.getElem?_append_left]
      · rw [List.getElem?_map, List.getElem?_range hj]
        rfl
      · rwa [List.length_map, List.length_range]
    | succ i =>
      obtain ⟨j, rfl⟩ := Nat.exists_eq_add_one.mpr (Nat.lt_of_lt_of_le (Nat.succ_pos i) hij)
      have hindex : (n + 1) * (n + 1 + 1) / 2 - (n + 1 - (i + 1)) * (n + 1 - (i + 1) + 1) / 2 +
          (j + 1 - (i + 1)) =
            n + 1 + (n * (n + 1) / 2 - (n - i) * (n - i + 1) / 2 + (j - i)) := by
        have hle : (n - i) * (n - i + 1) / 2 ≤ n * (n + 1) / 2 := half_le (Nat.sub_le n i)
        rw [half_succ, Nat.add_sub_add_right, Nat.add_sub_add_right]
        omega
      have hlen : ((List.range (n + 1)).map (f 0)).length = n + 1 := by
        rw [List.length_map, List.length_range]
      rw [hindex, List.getElem?_append_right (by rw [hlen]; exact Nat.le_add_right _ _), hlen,
        Nat.add_sub_cancel_left]
      exact ih (Nat.le_of_succ_le_succ hij) (Nat.lt_of_succ_lt_succ hj) fun i j ↦ f (i + 1) (j + 1)

theorem triangleRows_succ (n m : Nat) (f : Nat → Nat → α) :
    triangleRows n (m + 1) f =
      triangleRows n m f ++ (List.range (n - m)).map fun k ↦ f m (m + k) := by
  simp [triangleRows, List.range_succ]

/-- A nested loop that appends the entries of a triangle. -/
theorem forRangeM_triangle {push : List α → Nat → Nat → Option (List α)} {n : Nat}
    {f : Nat → Nat → α} {cols : List α}
    (hpush : ∀ i j, i ≤ j → j < n → ∀ done, push (cols ++ done) i j =
      some (cols ++ (done ++ [f i j]))) :
    forRangeM (fun cols i ↦ forRangeM (fun cols k ↦ push cols i (i + k)) (n - i) cols) n cols =
      some (cols ++ triangle n f) := by
  have hrows : ∃ cols', forRangeM
      (fun cols i ↦ forRangeM (fun cols k ↦ push cols i (i + k)) (n - i) cols) n cols =
        some cols' ∧ cols' = cols ++ triangleRows n n f := by
    apply forRangeM_invariant fun m cols' ↦ cols' = cols ++ triangleRows n m f
    · simp [triangleRows]
    · rintro i hi cols' rfl
      rw [triangleRows_succ]
      apply forRangeM_invariant fun k cols' ↦
        cols' = cols ++ (triangleRows n i f ++ (List.range k).map fun k ↦ f i (i + k))
      · simp
      · rintro k hk cols' rfl
        refine ⟨_, hpush i (i + k) (Nat.le_add_right i k) (by omega) _, ?_⟩
        simp [List.range_succ]
  obtain ⟨cols', hrun, rfl⟩ := hrows
  exact hrun

/-! ### The upper triangle of a square array -/

/-- `for (i = 0; i != n; ++i) for (j = i; j != n; ++j)` that sets the element `i * n + j`. -/
def assignUpper (n : Nat) (f : Nat → Nat → α) (a : Nat → α) : Nat → α :=
  forRange (fun a i ↦
    forRange (fun a k ↦ Function.update a (i * n + (i + k)) (f i (i + k))) (n - i) a) n a

theorem assignUpper_get {n i j : Nat} (hij : i ≤ j) (hj : j < n) (f : Nat → Nat → α)
    (a : Nat → α) : assignUpper n f a (i * n + j) = f i j := by
  -- Row `c` is not reached by the rows below it.
  have hbelow {r c d e : Nat} (hrd : r < d) (hc : c < n) : r * n + c ≠ d * n + e := by
    have hrow : (r + 1) * n ≤ d * n := Nat.mul_le_mul_right n hrd
    rw [Nat.succ_mul] at hrow
    omega
  have hrows : ∀ r < n, ∀ c, r ≤ c → c < n → assignUpper n f a (r * n + c) = f r c := by
    unfold assignUpper
    apply forRange_invariant
      (fun m (a : Nat → α) ↦ ∀ r < m, ∀ c, r ≤ c → c < n → a (r * n + c) = f r c)
    · intro r hr
      exact absurd hr (Nat.not_lt_zero r)
    · intro m hm a ha r hr c hrc hc
      have hrow : (∀ r < m, ∀ c, r ≤ c → c < n → forRange (fun a k ↦
          Function.update a (m * n + (m + k)) (f m (m + k))) (n - m) a (r * n + c) = f r c) ∧
          ∀ k < n - m, forRange (fun a k ↦
            Function.update a (m * n + (m + k)) (f m (m + k))) (n - m) a (m * n + (m + k)) =
              f m (m + k) := by
        apply forRange_invariant (fun l (a : Nat → α) ↦
          (∀ r < m, ∀ c, r ≤ c → c < n → a (r * n + c) = f r c) ∧
            ∀ k < l, a (m * n + (m + k)) = f m (m + k))
        · exact ⟨ha, fun k hk ↦ absurd hk (Nat.not_lt_zero k)⟩
        · rintro l hl a ⟨habove, hdone⟩
          constructor
          · intro r hr c hrc hc
            rw [Function.update_of_ne (hbelow hr hc)]
            exact habove r hr c hrc hc
          · intro k hk
            by_cases hkl : k = l
            · rw [hkl, Function.update_self]
            · rw [Function.update_of_ne (by omega)]
              exact hdone k (by omega)
      by_cases hrm : r = m
      · obtain ⟨k, rfl⟩ := Nat.exists_eq_add_of_le hrc
        subst hrm
        exact hrow.2 k (by omega)
      · exact hrow.1 r (by omega) c hrc hc
  exact hrows i (Nat.lt_of_le_of_lt hij hj) j hij hj

/-- The sum over a square array that is symmetric. -/
theorem sum_upper {M : Type} [Semiring M] (n : Nat) (x : Nat → Nat → M)
    (hx : ∀ i < n, ∀ j < n, x i j = x j i) :
    ∑ i ∈ Finset.range n, ∑ k ∈ Finset.range (n - i),
        (if i = i + k then x i i else 2 * x i (i + k)) =
      ∑ i ∈ Finset.range n, ∑ j ∈ Finset.range n, x i j := by
  induction n with
  | zero => rfl
  | succ n ih =>
    have hrow : ∀ i ∈ Finset.range n,
        ∑ k ∈ Finset.range (n + 1 - i), (if i = i + k then x i i else 2 * x i (i + k)) =
          ∑ k ∈ Finset.range (n - i), (if i = i + k then x i i else 2 * x i (i + k)) +
            2 * x i n := by
      intro i hi
      have hlt : i < n := Finset.mem_range.mp hi
      have hlen : n + 1 - i = n - i + 1 := by omega
      rw [hlen, Finset.sum_range_succ, Nat.add_sub_cancel' (Nat.le_of_lt hlt),
        if_neg (Nat.ne_of_lt hlt)]
    have hcol : ∑ j ∈ Finset.range n, x n j = ∑ i ∈ Finset.range n, x i n :=
      Finset.sum_congr rfl fun j hj ↦ hx n (Nat.lt_succ_self n) j
        (Nat.lt_succ_of_lt (Finset.mem_range.mp hj))
    have ih := ih fun i hi j hj ↦ hx i (Nat.lt_succ_of_lt hi) j (Nat.lt_succ_of_lt hj)
    rw [Finset.sum_range_succ, Finset.sum_congr rfl hrow, Finset.sum_add_distrib, ih,
      Nat.add_sub_cancel_left, Finset.sum_range_one, Nat.add_zero, if_pos rfl,
      ← Finset.mul_sum, Finset.sum_range_succ, Finset.sum_range_succ]
    simp only [Finset.sum_range_succ, Finset.sum_add_distrib, hcol, two_mul, add_assoc]

end Safrn.Base
