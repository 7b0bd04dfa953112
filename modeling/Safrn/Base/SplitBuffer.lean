import Mathlib.Algebra.Order.Ring.Nat
import Mathlib.Tactic.Ring

/-!
# A long array split over buffers

An array of `n` elements kept in consecutive buffers, all of one size except possibly the last.
Element `p` is in buffer `p / chunk` at offset `p % chunk`; the lemmas relate a write into one
buffer to the array that the buffers represent.
-/

namespace Safrn.Base

/-- Buffers with their capacities; `data i j` is element `j` of buffer `i`. -/
structure SplitBuffer (α : Type) where
  capacity : List Nat
  data : Nat → Nat → α

namespace SplitBuffer

variable {α : Type} (B : SplitBuffer α)

/-- The capacity of the first buffer, by which every position is located. -/
def chunk : Nat := B.capacity.headD 0

/-- The capacity of buffer `i`. -/
def cap (i : Nat) : Nat := B.capacity.getD i 0

/-- The element at position `p` of the represented array. -/
def flat (p : Nat) : α := B.data (p / B.chunk) (p % B.chunk)

/-- Overwrite `m` elements of buffer `i` from offset `j` on. -/
def write (i j m : Nat) (f : Nat → α) : SplitBuffer α :=
  { B with data := fun i' q ↦ if i' = i ∧ j ≤ q ∧ q < j + m then f q else B.data i' q }

/-- Overwrite the `m` elements from position `p` on, which lie in one buffer. -/
def writeAt (p m : Nat) (g : Nat → α) : SplitBuffer α :=
  B.write (p / B.chunk) (p % B.chunk) m (fun q ↦ g (q - p % B.chunk))

/-- The buffers hold an array of `n` elements, every buffer at least one of them. -/
structure Layout (n : Nat) : Prop where
  chunk_pos : 0 < B.chunk
  length : ∀ i, i < B.capacity.length ↔ i * B.chunk < n
  cap : ∀ i, i * B.chunk < n → B.cap i = min B.chunk (n - i * B.chunk)

variable {B}

@[simp] theorem capacity_write (i j m : Nat) (f : Nat → α) :
    (B.write i j m f).capacity = B.capacity := rfl

@[simp] theorem chunk_write (i j m : Nat) (f : Nat → α) :
    (B.write i j m f).chunk = B.chunk := rfl

@[simp] theorem cap_write (i j m : Nat) (f : Nat → α) (k : Nat) :
    (B.write i j m f).cap k = B.cap k := rfl

/-- A write into one buffer changes the positions of that buffer's window. -/
theorem flat_write (i j m : Nat) (f : Nat → α) (p : Nat) :
    (B.write i j m f).flat p =
      if p / B.chunk = i ∧ j ≤ p % B.chunk ∧ p % B.chunk < j + m then f (p % B.chunk)
      else B.flat p := rfl

/-- Writing no element changes nothing. -/
theorem write_zero (i j : Nat) (f : Nat → α) : B.write i j 0 f = B := by
  have hd : (B.write i j 0 f).data = B.data := by
    funext i' q
    exact if_neg fun h ↦ by omega
  calc B.write i j 0 f = ⟨B.capacity, (B.write i j 0 f).data⟩ := rfl
    _ = B := by rw [hd]

/-- The offsets of a window that stays in one buffer are its positions. -/
theorem window_iff {c p q m : Nat} (hm : p % c + m ≤ c) :
    (q / c = p / c ∧ p % c ≤ q % c ∧ q % c < p % c + m) ↔ p ≤ q ∧ q < p + m := by
  have hp := Nat.div_add_mod p c
  have hq := Nat.div_add_mod q c
  constructor
  · rintro ⟨hd, hlo, hhi⟩
    rw [hd] at hq
    omega
  · rintro ⟨hlo, hhi⟩
    have hc : 0 < c := by
      rcases Nat.eq_zero_or_pos c with rfl | hc
      · omega
      · exact hc
    have hd : q / c = p / c := by
      apply Nat.div_eq_of_lt_le
      · calc p / c * c = c * (p / c) := Nat.mul_comm _ _
          _ ≤ q := by omega
      · calc q < c * (p / c) + c := by omega
          _ = (p / c + 1) * c := by ring
    rw [hd] at hq
    omega

/-- Positions are ordered by buffer and then by offset. -/
theorem le_iff_div_mod {c : Nat} (hc : 0 < c) (p q : Nat) :
    p ≤ q ↔ p / c < q / c ∨ (p / c = q / c ∧ p % c ≤ q % c) := by
  have hp := Nat.div_add_mod p c
  have hq := Nat.div_add_mod q c
  constructor
  · intro h
    rcases Nat.lt_or_eq_of_le (Nat.div_le_div_right (c := c) h) with hlt | he
    · exact .inl hlt
    · rw [he] at hp
      exact .inr ⟨he, by omega⟩
  · rintro (hlt | ⟨he, hm⟩)
    · have hmul : c * (p / c + 1) ≤ c * (q / c) := Nat.mul_le_mul_left c hlt
      have hmp := Nat.mod_lt p hc
      rw [Nat.mul_succ] at hmul
      omega
    · rw [he] at hp
      omega

/-- A write of one window changes the positions of the window. -/
theorem flat_writeAt {p m : Nat} (hm : p % B.chunk + m ≤ B.chunk) (g : Nat → α) (q : Nat) :
    (B.writeAt p m g).flat q = if p ≤ q ∧ q < p + m then g (q - p) else B.flat q := by
  rw [writeAt, flat_write]
  by_cases hw : p ≤ q ∧ q < p + m
  · have hi := (window_iff hm).mpr hw
    have hp := Nat.div_add_mod p B.chunk
    have hq := Nat.div_add_mod q B.chunk
    rw [hi.1] at hq
    rw [if_pos hi, if_pos hw, show q % B.chunk - p % B.chunk = q - p by omega]
  · rw [if_neg hw, if_neg fun hi ↦ hw ((window_iff hm).mp hi)]

/-- In slots of `m` elements, an element of slot `j` is in the window of slot `i` only for
`j = i`. -/
theorem slot_iff {m i j k : Nat} (hk : k < m) :
    (i * m ≤ j * m + k ∧ j * m + k < i * m + m) ↔ j = i := by
  constructor
  · rintro ⟨hlo, hhi⟩
    have h₁ : j * m < (i + 1) * m := by
      rw [Nat.succ_mul]
      omega
    have h₂ : i * m < (j + 1) * m := by
      rw [Nat.succ_mul]
      omega
    have h₃ := Nat.lt_of_mul_lt_mul_right h₁
    have h₄ := Nat.lt_of_mul_lt_mul_right h₂
    omega
  · rintro rfl
    omega

/-- The elements of a window are consecutive elements of its buffer. -/
theorem flat_add {p m d : Nat} (hm : p % B.chunk + m ≤ B.chunk) (hd : d < m) :
    B.flat (p + d) = B.data (p / B.chunk) (p % B.chunk + d) := by
  have hw := (window_iff (q := p + d) hm).mpr (by omega)
  have hp := Nat.div_add_mod p B.chunk
  have hq := Nat.div_add_mod (p + d) B.chunk
  rw [hw.1] at hq
  rw [flat, hw.1, show (p + d) % B.chunk = p % B.chunk + d by omega]

/-- A window of `m` elements at a multiple of `m` stays in one buffer when `m` divides the
chunk. -/
theorem mod_add_le_of_dvd {c m k : Nat} (hc : 0 < c) (hm : m ∣ c) : k * m % c + m ≤ c := by
  obtain ⟨d, rfl⟩ := hm
  rw [Nat.mul_comm k m, Nat.mul_mod_mul_left, ← Nat.mul_succ]
  exact Nat.mul_le_mul_left m (Nat.mod_lt k (Nat.pos_of_mul_pos_left hc))

/-- The same layout describes the buffers after a change of their contents. -/
theorem Layout.congr {B' : SplitBuffer α} {n : Nat} (h : B.Layout n)
    (hc : B'.capacity = B.capacity) : B'.Layout n := by
  have hk : B'.chunk = B.chunk := by rw [chunk, chunk, hc]
  have hcap : ∀ i, B'.cap i = B.cap i := fun i ↦ by rw [SplitBuffer.cap, SplitBuffer.cap, hc]
  constructor
  · rw [hk]
    exact h.chunk_pos
  · intro i
    rw [hc, hk]
    exact h.length i
  · intro i hi
    rw [hk] at hi ⊢
    rw [hcap]
    exact h.cap i hi

/-- The capacities of `k` full buffers and a non-empty rest lay out `k * per + rest` elements. -/
theorem layout_of_capacity {B : SplitBuffer α} {k per rest : Nat} (hr : 0 < rest)
    (hrp : rest < per) (hc : B.capacity = List.replicate k per ++ [rest]) :
    B.Layout (k * per + rest) := by
  have hcap : ∀ i, B.cap i = if i < k then per else if i = k then rest else 0 := by
    intro i
    rw [SplitBuffer.cap, hc]
    by_cases hi : i < k
    · simp [hi, List.getD_eq_getElem?_getD, List.getElem?_append]
    · rw [if_neg hi, List.getD_eq_getElem?_getD, List.getElem?_append_right (by simpa using hi)]
      by_cases hik : i = k
      · simp [hik]
      · rw [if_neg hik, List.length_replicate, List.getElem?_eq_none (by simp; omega)]
        rfl
  have hlen : B.capacity.length = k + 1 := by simp [hc]
  cases k with
  | zero =>
    have hch : B.chunk = rest := by simp [chunk, hc]
    rw [Nat.zero_mul, Nat.zero_add]
    refine ⟨hch ▸ hr, fun i ↦ ?_, fun i hi ↦ ?_⟩
    · rw [hlen, hch]
      cases i with
      | zero => simpa using hr
      | succ i => simp [Nat.succ_mul]
    · rw [hch] at hi ⊢
      cases i with
      | zero => simp [hcap]
      | succ i => simp [Nat.succ_mul] at hi
  | succ k =>
    have hch : B.chunk = per := by simp [chunk, hc, List.replicate_succ]
    refine ⟨by omega, fun i ↦ ?_, fun i hi ↦ ?_⟩
    · rw [hlen, hch]
      constructor
      · intro hi
        have := Nat.mul_le_mul_right per (Nat.le_of_lt_succ hi)
        omega
      · intro hi
        by_contra hge
        have := Nat.mul_le_mul_right per (Nat.not_lt.mp hge)
        rw [Nat.succ_mul (k + 1)] at this
        omega
    · rw [hch] at hi ⊢
      rw [hcap]
      by_cases hik : i < k + 1
      · have := Nat.mul_le_mul_right per hik
        rw [Nat.succ_mul] at this
        rw [if_pos hik]
        omega
      · have hik' : i = k + 1 := by
          by_contra hne
          have := Nat.mul_le_mul_right per (show k + 1 + 1 ≤ i by omega)
          rw [Nat.succ_mul (k + 1)] at this
          omega
        subst hik'
        rw [if_neg hik, if_pos rfl]
        omega

variable {n : Nat} (h : B.Layout n)
include h

/-- A position of the array is in one of the buffers. -/
theorem Layout.div_lt {p : Nat} (hp : p < n) : p / B.chunk < B.capacity.length := by
  rw [h.length]
  exact Nat.lt_of_le_of_lt (Nat.div_mul_le_self p B.chunk) hp

/-- A window that starts at `p`, ends inside the array and does not cross into the next buffer
fits in its buffer. -/
theorem Layout.window_le_cap {p m : Nat} (hm : p + m ≤ n) (hp : p < n)
    (hc : p % B.chunk + m ≤ B.chunk) : p % B.chunk + m ≤ B.cap (p / B.chunk) := by
  have hle := Nat.div_mul_le_self p B.chunk
  have hmod := Nat.div_add_mod p B.chunk
  rw [Nat.mul_comm] at hmod
  rw [h.cap _ (by omega)]
  exact Nat.le_min.mpr ⟨hc, by omega⟩

/-- A buffer before the one of some position is full. -/
theorem Layout.cap_of_lt {p i : Nat} (hp : p < n) (hi : i < p / B.chunk) :
    B.cap i = B.chunk := by
  have hnext : (i + 1) * B.chunk ≤ p / B.chunk * B.chunk := Nat.mul_le_mul_right _ hi
  have hle := Nat.div_mul_le_self p B.chunk
  have he : (i + 1) * B.chunk = i * B.chunk + B.chunk := by ring
  rw [h.cap i (by omega)]
  omega

end SplitBuffer
end Safrn.Base
