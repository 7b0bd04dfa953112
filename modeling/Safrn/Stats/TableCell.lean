import Mathlib.Algebra.Order.Floor.Semifield
import Mathlib.Data.Nat.Digits.Lemmas
import Mathlib.Data.Rat.Floor

/-!
# The cells of the lookup tables

`read_table_csv_file` scales a tail probability into a 32-bit number and splits it into bytes, the
least significant one first (`dealer/RandomTableLookup.cpp:71-98`). The recipient puts the bytes
together again (`recipient/RegressionReceiver.cpp:44-62`). A `double` is an exact rational.
-/

namespace Safrn.Stats

/-- `shifted_cell_value % 256` and `shifted_cell_value /= 256`, as often as a cell has bytes. -/
def cellValueBytes : ℕ → ℕ → List ℕ
  | 0, _ => []
  | numBytes + 1, shifted => shifted % 256 :: cellValueBytes numBytes (shifted / 256)

/-- The bytes of a cell; `none` when the scaled value does not fit a `SmallNum`. -/
def encodeCell (numBytes : ℕ) (p : ℚ) : Option (List ℕ) :=
  let scaled := ⌊2 ^ (8 * numBytes) * p⌋₊
  if scaled < 2 ^ 32 then some (cellValueBytes numBytes scaled) else none

/-- `convertBytesToDouble`: the loop starts at the last byte. -/
def convertBytesToDouble (bytes : List ℕ) (numBytes : ℕ) : ℚ :=
  (bytes.take numBytes).foldr (fun (byte : ℕ) (ret : ℚ) ↦ ret * 256 + byte) 0 / 2 ^ (8 * numBytes)

/-- What a cell should do: the recipient reads the probability back, up to its width. -/
def CellRoundTrips (numBytes : ℕ) (p : ℚ) : Prop :=
  ∃ bytes, encodeCell numBytes p = some bytes ∧
    |convertBytesToDouble bytes numBytes - p| ≤ 1 / 2 ^ (8 * numBytes)

theorem length_cellValueBytes (numBytes shifted : ℕ) :
    (cellValueBytes numBytes shifted).length = numBytes := by
  induction numBytes generalizing shifted with
  | zero => rfl
  | succ numBytes ih => rw [cellValueBytes, List.length_cons, ih]

/-- The bytes stand for the number without what exceeds their width. -/
theorem foldr_cellValueBytes (numBytes shifted : ℕ) :
    (cellValueBytes numBytes shifted).foldr (fun (byte : ℕ) (ret : ℚ) ↦ ret * 256 + byte) 0 =
      (shifted % 256 ^ numBytes : ℕ) := by
  induction numBytes generalizing shifted with
  | zero => simp [cellValueBytes, Nat.mod_one]
  | succ numBytes ih =>
    have hsplit := Nat.mod_mul (x := shifted) (a := 256) (b := 256 ^ numBytes)
    rw [cellValueBytes, List.foldr_cons, ih, pow_succ', hsplit]
    push_cast
    ring

theorem convertBytesToDouble_encoded (numBytes shifted : ℕ) :
    convertBytesToDouble (cellValueBytes numBytes shifted) numBytes =
      (shifted % 256 ^ numBytes : ℕ) / 2 ^ (8 * numBytes) := by
  rw [convertBytesToDouble, List.take_of_length_le (length_cellValueBytes _ _).le,
    foldr_cellValueBytes]

private theorem two_pow_eq (numBytes : ℕ) :
    (2 : ℚ) ^ (8 * numBytes) = (256 ^ numBytes : ℕ) := by
  rw [pow_mul]
  norm_num

/-- A cell whose scaled value fits is read back when the bytes that are left are close to it. -/
theorem cellRoundTrips_of_fits {numBytes : ℕ} {p : ℚ}
    (hfits : ⌊2 ^ (8 * numBytes) * p⌋₊ < 2 ^ 32) :
    CellRoundTrips numBytes p ↔ |((⌊2 ^ (8 * numBytes) * p⌋₊ % 256 ^ numBytes : ℕ) : ℚ) -
      2 ^ (8 * numBytes) * p| ≤ 1 := by
  have hscale : (0 : ℚ) < 2 ^ (8 * numBytes) := by positivity
  have hencode : encodeCell numBytes p =
      some (cellValueBytes numBytes ⌊2 ^ (8 * numBytes) * p⌋₊) := if_pos hfits
  have hdist : ∀ n : ℕ, |(n : ℚ) / 2 ^ (8 * numBytes) - p| ≤ 1 / 2 ^ (8 * numBytes) ↔
      |n - 2 ^ (8 * numBytes) * p| ≤ 1 := by
    intro n
    have hsplit : (n : ℚ) / 2 ^ (8 * numBytes) - p =
        (n - 2 ^ (8 * numBytes) * p) / 2 ^ (8 * numBytes) := by field_simp
    rw [hsplit, abs_div, abs_of_pos hscale, div_le_div_iff_of_pos_right hscale]
  rw [← hdist, CellRoundTrips, hencode]
  simp only [Option.some.injEq, exists_eq_left', convertBytesToDouble_encoded]

/-- A cell is read back exactly when its scaled value fits a `SmallNum` and it is not 1. -/
theorem cellRoundTrips_iff (numBytes : ℕ) {p : ℚ} (h₀ : 0 ≤ p) (h₁ : p ≤ 1) :
    CellRoundTrips numBytes p ↔
      ⌊2 ^ (8 * numBytes) * p⌋₊ < 2 ^ 32 ∧ (p < 1 ∨ numBytes = 0) := by
  by_cases hfits : ⌊2 ^ (8 * numBytes) * p⌋₊ < 2 ^ 32
  · rw [cellRoundTrips_of_fits hfits]
    rcases lt_or_ge p 1 with hp | hp
    · -- the scaled value keeps all its bytes
      have hfloor := Nat.floor_le (show 0 ≤ 2 ^ (8 * numBytes) * p by positivity)
      have hlt := Nat.lt_floor_add_one (2 ^ (8 * numBytes) * p)
      have hsmall : ⌊2 ^ (8 * numBytes) * p⌋₊ < 256 ^ numBytes := by
        rw [Nat.floor_lt (by positivity), ← two_pow_eq]
        exact mul_lt_of_lt_one_right (by positivity) hp
      rw [Nat.mod_eq_of_lt hsmall]
      constructor
      · exact fun _ ↦ ⟨hfits, .inl hp⟩
      · intro _
        rw [abs_le]
        constructor <;> linarith
    · -- a probability of 1 loses its only bit
      obtain rfl : p = 1 := le_antisymm h₁ hp
      have hvalue : ⌊(2 : ℚ) ^ (8 * numBytes) * 1⌋₊ = 256 ^ numBytes := by
        rw [mul_one, two_pow_eq, Nat.floor_natCast]
      rw [hvalue, Nat.mod_self, mul_one, two_pow_eq, Nat.cast_zero, zero_sub, abs_neg,
        Nat.abs_cast]
      constructor
      · intro hle
        have hle' : 256 ^ numBytes ≤ 1 := by exact_mod_cast hle
        refine ⟨hvalue ▸ hfits, .inr ?_⟩
        by_contra hn
        have hbig := Nat.le_self_pow hn 256
        omega
      · rintro ⟨-, hlt₁ | rfl⟩
        · exact absurd hlt₁ (lt_irrefl 1)
        · simp
  · constructor
    · rintro ⟨bytes, hencode, -⟩
      rw [encodeCell, if_neg hfits] at hencode
      contradiction
    · exact fun h ↦ absurd h.1 hfits

/-- A cell of two bytes. -/
theorem cellRoundTrips_half : CellRoundTrips 2 (1 / 2) :=
  (cellRoundTrips_iff 2 (by norm_num) (by norm_num)).mpr ⟨by norm_num, .inl (by norm_num)⟩

/-- A probability of 1 in two bytes is read back as 0. -/
theorem not_cellRoundTrips_one : ¬CellRoundTrips 2 1 := by
  rintro ⟨bytes, hencode, hclose⟩
  have hvalue : encodeCell 2 1 = some (cellValueBytes 2 65536) := by norm_num [encodeCell]
  obtain rfl : cellValueBytes 2 65536 = bytes := Option.some.inj (hvalue.symm.trans hencode)
  rw [convertBytesToDouble_encoded] at hclose
  norm_num at hclose

end Safrn.Stats
