import Mathlib.Algebra.BigOperators.Group.Finset.Basic
import Safrn.Base.Loop

/-!
# Loops over a grid, and arrays filled block by block

A nested loop over `m` rows of `n` cells visits the cells `0, …, m * n - 1` in order. A loop that
fills one block of an array in each round, without looking at blocks that later rounds fill,
fills the array, and the element `i` of round `k` stands at `k * w + i`.
-/

namespace Safrn.Base

variable {σ α : Type}

/-! ## Nested loops -/

/-- `for (i = 0; i != m; ++i) for (j = 0; j != n; ++j)`. -/
def forGrid (f : σ → Nat → Nat → σ) (m n : Nat) (s : σ) : σ :=
  forRange (fun s i ↦ forRange (fun s j ↦ f s i j) n s) m s

/-- The same loop, stopping at the first failure. -/
def forGridM (f : σ → Nat → Nat → Option σ) (m n : Nat) (s : σ) : Option σ :=
  forRangeM (fun s i ↦ forRangeM (fun s j ↦ f s i j) n s) m s

theorem forRange_add (f : σ → Nat → σ) (a b : Nat) (s : σ) :
    forRange f (a + b) s = forRange (fun s j ↦ f s (a + j)) b (forRange f a s) := by
  induction b with
  | zero => rfl
  | succ b ih => rw [← Nat.add_assoc, forRange, ih, forRange]

theorem forRangeM_add (f : σ → Nat → Option σ) (a b : Nat) (s : σ) :
    forRangeM f (a + b) s =
      (forRangeM f a s).bind fun s ↦ forRangeM (fun s j ↦ f s (a + j)) b s := by
  induction b with
  | zero => exact (Option.bind_fun_some _).symm
  | succ b ih => rw [← Nat.add_assoc, forRangeM, ih, Option.bind_assoc]; rfl

theorem forRange_congr {f g : σ → Nat → σ} {n : Nat} (h : ∀ s, ∀ i < n, f s i = g s i) (s : σ) :
    forRange f n s = forRange g n s := by
  induction n with
  | zero => rfl
  | succ n ih =>
    rw [forRange, forRange, ih fun s i hi ↦ h s i (Nat.lt_succ_of_lt hi),
      h _ n (Nat.lt_succ_self n)]

theorem forRangeM_congr {f g : σ → Nat → Option σ} {n : Nat}
    (h : ∀ s, ∀ i < n, f s i = g s i) (s : σ) : forRangeM f n s = forRangeM g n s := by
  induction n with
  | zero => rfl
  | succ n ih =>
    rw [forRangeM, forRangeM, ih fun s i hi ↦ h s i (Nat.lt_succ_of_lt hi)]
    exact congrArg _ (funext fun t ↦ h t n (Nat.lt_succ_self n))

theorem cell_div {n j : Nat} (m : Nat) (hj : j < n) : (m * n + j) / n = m := by
  rw [Nat.mul_comm, Nat.mul_add_div (Nat.zero_lt_of_lt hj), Nat.div_eq_of_lt hj, Nat.add_zero]

theorem cell_mod {n j : Nat} (m : Nat) (hj : j < n) : (m * n + j) % n = j := by
  rw [Nat.mul_comm, Nat.mul_add_mod, Nat.mod_eq_of_lt hj]

/-- The grid's cells are visited in order. -/
theorem forGrid_eq (f : σ → Nat → Nat → σ) (m n : Nat) (s : σ) :
    forGrid f m n s = forRange (fun s c ↦ f s (c / n) (c % n)) (m * n) s := by
  induction m with
  | zero => rw [Nat.zero_mul]; rfl
  | succ m ih =>
    rw [Nat.succ_mul, forRange_add, ← ih]
    show forRange (fun t j ↦ f t m j) n (forGrid f m n s) = _
    exact forRange_congr (fun t j hj ↦ by rw [cell_div m hj, cell_mod m hj]) _

theorem forGridM_eq (f : σ → Nat → Nat → Option σ) (m n : Nat) (s : σ) :
    forGridM f m n s = forRangeM (fun s c ↦ f s (c / n) (c % n)) (m * n) s := by
  induction m with
  | zero => rw [Nat.zero_mul]; rfl
  | succ m ih =>
    rw [Nat.succ_mul, forRangeM_add, ← ih]
    show (forGridM f m n s).bind (forRangeM (fun t j ↦ f t m j) n) = _
    refine congrArg _ (funext fun t ↦ ?_)
    exact forRangeM_congr (fun t j hj ↦ by rw [cell_div m hj, cell_mod m hj]) _

/-- When each cell succeeds from the invariant and restores it, the grid succeeds. -/
theorem forGridM_invariant {f : σ → Nat → Nat → Option σ} (I : Nat → σ → Prop) {m n : Nat}
    {s : σ} (h0 : I 0 s)
    (hf : ∀ i < m, ∀ j < n, ∀ t, I (i * n + j) t →
      ∃ t', f t i j = some t' ∧ I (i * n + j + 1) t') :
    ∃ t, forGridM f m n s = some t ∧ I (m * n) t := by
  rw [forGridM_eq]
  refine forRangeM_invariant I h0 fun c hc t ht ↦ ?_
  have hn : 0 < n := Nat.pos_of_ne_zero fun h ↦ by
    rw [h, Nat.mul_zero] at hc
    exact Nat.not_lt_zero c hc
  have hcell := hf (c / n) ((Nat.div_lt_iff_lt_mul hn).mpr hc) (c % n) (Nat.mod_lt c hn) t
  rw [Nat.div_add_mod'] at hcell
  exact hcell ht

/-! ## Blocks -/

/-- The `len` positions from `lo` hold `g`, and no other position has changed. -/
structure Fills (a a' : Nat → α) (lo len : Nat) (g : Nat → α) : Prop where
  inside : ∀ k < len, a' (lo + k) = g k
  outside : ∀ q, q < lo ∨ lo + len ≤ q → a' q = a q

theorem Fills.update (a : Nat → α) (lo : Nat) (v : α) :
    Fills a (Function.update a lo v) lo 1 fun _ ↦ v where
  inside k hk := by
    obtain rfl : k = 0 := by omega
    exact Function.update_self ..
  outside q hq := Function.update_of_ne (by omega) _ _

theorem Fills.congr {a a' : Nat → α} {lo len : Nat} {g h : Nat → α} (hf : Fills a a' lo len g)
    (hgh : ∀ k < len, g k = h k) : Fills a a' lo len h where
  inside k hk := (hf.inside k hk).trans (hgh k hk)
  outside := hf.outside

/-- A loop whose rounds each fill the next block fills their blocks. -/
theorem fills_forRange (arr : σ → Nat → α) {body : σ → Nat → σ} {lo w n : Nat} {s : σ}
    {g : Nat → Nat → α}
    (h : ∀ k < n, ∀ t, (∀ q, lo + k * w ≤ q → arr t q = arr s q) →
      Fills (arr t) (arr (body t k)) (lo + k * w) w (g k)) :
    Fills (arr s) (arr (forRange body n s)) lo (n * w) fun q ↦ g (q / w) (q % w) := by
  refine forRange_invariant
    (fun k t ↦ Fills (arr s) (arr t) lo (k * w) fun q ↦ g (q / w) (q % w)) ?_ ?_
  · exact ⟨fun k hk ↦ by omega, fun _ _ ↦ rfl⟩
  · intro k hk t ht
    have hround := h k hk t fun q hq ↦ ht.outside q (.inr hq)
    constructor
    · intro q hq
      rw [Nat.succ_mul] at hq
      by_cases hlow : q < k * w
      · rw [hround.outside _ (.inl (by omega)), ht.inside q hlow]
      · -- the position lies in the block of this round
        obtain ⟨r, rfl⟩ := Nat.exists_eq_add_of_le (Nat.le_of_not_lt hlow)
        have hr : r < w := by omega
        rw [← Nat.add_assoc, hround.inside r hr, cell_div k hr, cell_mod k hr]
    · intro q hq
      rw [Nat.succ_mul] at hq
      rw [hround.outside q (by omega), ht.outside q (by omega)]

/-- A loop whose rounds each set the next element sets its elements. -/
theorem fills_forRange_update (arr : σ → Nat → α) {body : σ → Nat → σ} {lo n : Nat} {s : σ}
    {g : Nat → α}
    (h : ∀ k < n, ∀ t, (∀ q, lo + k ≤ q → arr t q = arr s q) →
      arr (body t k) = Function.update (arr t) (lo + k) (g k)) :
    Fills (arr s) (arr (forRange body n s)) lo n g := by
  have hf : Fills (arr s) (arr (forRange body n s)) lo (n * 1) fun q ↦ g (q / 1) :=
    fills_forRange arr fun k hk t ht ↦ by
      rw [Nat.mul_one] at ht ⊢
      rw [h k hk t ht]
      exact Fills.update _ _ _
  rw [Nat.mul_one] at hf
  exact hf.congr fun k _ ↦ by rw [Nat.div_one]

/-- Element `i` of block `k`. -/
theorem Fills.get {a a' : Nat → α} {n w : Nat} {g : Nat → Nat → α}
    (hf : Fills a a' 0 (n * w) fun q ↦ g (q / w) (q % w)) {k i : Nat} (hk : k < n) (hi : i < w) :
    a' (k * w + i) = g k i := by
  have hlt : k * w + i < n * w := by
    calc k * w + i < k * w + w := Nat.add_lt_add_left hi _
      _ = (k + 1) * w := (Nat.succ_mul k w).symm
      _ ≤ n * w := Nat.mul_le_mul_right w hk
  rw [← Nat.zero_add (k * w + i), hf.inside _ hlt, cell_div k hi, cell_mod k hi]

/-- A grid whose cells each fill the next block fills their blocks. -/
theorem forGrid_get (arr : σ → Nat → α) {body : σ → Nat → Nat → σ} {m n w : Nat} {s : σ}
    {g : Nat → Nat → α}
    (h : ∀ c < m * n, ∀ t, (∀ q, c * w ≤ q → arr t q = arr s q) →
      Fills (arr t) (arr (body t (c / n) (c % n))) (c * w) w (g c))
    {c i : Nat} (hc : c < m * n) (hi : i < w) :
    arr (forGrid body m n s) (c * w + i) = g c i := by
  rw [forGrid_eq]
  have hf : Fills (arr s) (arr (forRange (fun s c ↦ body s (c / n) (c % n)) (m * n) s)) 0
      (m * n * w) fun q ↦ g (q / w) (q % w) := fills_forRange arr fun c hc t ht ↦ by
    rw [Nat.zero_add] at ht ⊢
    exact h c hc t ht
  exact hf.get hc hi

/-- A grid whose cells each set their own element. -/
theorem forGrid_update_get (arr : σ → Nat → α) {body : σ → Nat → Nat → σ} {m n : Nat} {s : σ}
    {g : Nat → α}
    (h : ∀ c < m * n, ∀ t, arr (body t (c / n) (c % n)) = Function.update (arr t) c (g c))
    {c : Nat} (hc : c < m * n) : arr (forGrid body m n s) c = g c := by
  have hget := forGrid_get arr (s := s) (w := 1) (g := fun c _ ↦ g c) (fun c hc t _ ↦ by
    rw [h c hc t, Nat.mul_one]
    exact Fills.update _ _ _) hc Nat.zero_lt_one
  rwa [Nat.mul_one, Nat.add_zero] at hget

/-- A loop that sets elements at positions of its own. -/
theorem forRange_update_get (pos : Nat → Nat) (val : Nat → α) (a : Nat → α) {n c : Nat}
    (hc : c < n) (hpos : ∀ c < n, ∀ d < n, pos c = pos d → c = d) :
    forRange (fun a c ↦ Function.update a (pos c) (val c)) n a (pos c) = val c := by
  induction n with
  | zero => exact absurd hc (Nat.not_lt_zero c)
  | succ n ih =>
    rw [forRange]
    by_cases heq : c = n
    · rw [heq, Function.update_self]
    · have hlt : c < n := by omega
      have hne : pos c ≠ pos n := fun h ↦ heq (hpos c hc n (Nat.lt_succ_self n) h)
      rw [Function.update_of_ne hne]
      exact ih hlt fun c hc d hd ↦ hpos c (Nat.lt_succ_of_lt hc) d (Nat.lt_succ_of_lt hd)

/-- The other elements stay. -/
theorem forRange_update_of_ne (pos : Nat → Nat) (val : Nat → α) (a : Nat → α) {n k : Nat}
    (hk : ∀ c < n, k ≠ pos c) :
    forRange (fun a c ↦ Function.update a (pos c) (val c)) n a k = a k := by
  induction n with
  | zero => rfl
  | succ n ih =>
    rw [forRange, Function.update_of_ne (hk n (Nat.lt_succ_self n))]
    exact ih fun c hc ↦ hk c (Nat.lt_succ_of_lt hc)

/-! ## Sums and loops that do not fail -/

/-- A loop that adds up. -/
theorem forRange_add_eq_sum {M : Type} [AddCommMonoid M] (f : Nat → M) (n : Nat) :
    forRange (fun sum k ↦ sum + f k) n 0 = ∑ k ∈ Finset.range n, f k := by
  induction n with
  | zero => rfl
  | succ n ih => rw [forRange, ih, Finset.sum_range_succ]

/-- A loop of which no round fails. -/
theorem forRangeM_eq_some {f : σ → Nat → Option σ} {h : σ → Nat → σ} {n : Nat}
    (hf : ∀ t, ∀ i < n, f t i = some (h t i)) (s : σ) :
    forRangeM f n s = some (forRange h n s) := by
  induction n with
  | zero => rfl
  | succ n ih =>
    rw [forRangeM, ih fun t i hi ↦ hf t i (Nat.lt_succ_of_lt hi), Option.bind_some, forRange]
    exact hf _ n (Nat.lt_succ_self n)

/-- Where a cell stands. -/
theorem div_mul_add_mod (c n : Nat) : c / n * n + c % n = c := Nat.div_add_mod' c n

end Safrn.Base
