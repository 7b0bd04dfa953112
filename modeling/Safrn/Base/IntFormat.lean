import Mathlib.Data.Int.ModEq
import Mathlib.Tactic.Positivity
import Mathlib.Tactic.Ring

/-!
# Formats of fixed width

A format is a number of bits, read in two's complement when it is signed. A format holds the
numbers between its bounds, and an integer is wrapped to the one it is congruent to.
-/

namespace Safrn.Base

/-- A binary format of integers. -/
structure IntFormat where
  width : ℕ
  signed : Bool
  width_pos : 0 < width

namespace IntFormat

/-! The widths of the integer types of C++. -/

theorem eight_pos : 0 < 8 := by decide

theorem sixteen_pos : 0 < 16 := by decide

theorem thirtyTwo_pos : 0 < 32 := by decide

theorem sixtyFour_pos : 0 < 64 := by decide

/-- The smallest number held. -/
def lower (f : IntFormat) : ℤ := if f.signed then -2 ^ (f.width - 1) else 0

/-- The first number above all held ones. -/
def upper (f : IntFormat) : ℤ := if f.signed then 2 ^ (f.width - 1) else 2 ^ f.width

/-- The numbers of a format. -/
def Holds (f : IntFormat) (v : ℤ) : Prop := f.lower ≤ v ∧ v < f.upper

instance (f : IntFormat) : DecidablePred f.Holds := fun v ↦
  inferInstanceAs (Decidable (f.lower ≤ v ∧ v < f.upper))

/-- The number held that is congruent to `v` modulo `2 ^ width`. -/
def wrap (f : IntFormat) (v : ℤ) : ℤ := f.lower + (v - f.lower) % 2 ^ f.width

variable {f : IntFormat}

theorem two_pow_width (f : IntFormat) : (2 : ℤ) ^ f.width = 2 * 2 ^ (f.width - 1) := by
  rw [← pow_succ', Nat.sub_add_cancel f.width_pos]

/-- A format holds `2 ^ width` numbers. -/
theorem upper_eq (f : IntFormat) : f.upper = f.lower + 2 ^ f.width := by
  unfold upper lower
  split
  · rw [f.two_pow_width]
    ring
  · rw [zero_add]

theorem lower_nonpos (f : IntFormat) : f.lower ≤ 0 := by
  have hpow : (0 : ℤ) < 2 ^ (f.width - 1) := by positivity
  unfold lower
  split <;> omega

theorem upper_pos (f : IntFormat) : 0 < f.upper := by
  unfold upper
  split <;> positivity

theorem holds_zero (f : IntFormat) : f.Holds 0 := ⟨f.lower_nonpos, f.upper_pos⟩

theorem holds_wrap (f : IntFormat) (v : ℤ) : f.Holds (f.wrap v) := by
  have hpow : (0 : ℤ) < 2 ^ f.width := by positivity
  have hlo := Int.emod_nonneg (v - f.lower) (ne_of_gt hpow)
  have hhi := Int.emod_lt_of_pos (v - f.lower) hpow
  refine ⟨?_, ?_⟩
  · rw [wrap]
    omega
  · rw [wrap, upper_eq]
    omega

/-- What a format holds stays as it is. -/
theorem wrap_of_holds {v : ℤ} (h : f.Holds v) : f.wrap v = v := by
  have hhi := h.2
  rw [upper_eq] at hhi
  rw [wrap, Int.emod_eq_of_lt (Int.sub_nonneg.mpr h.1) (by omega)]
  ring

theorem wrap_eq_self_iff {v : ℤ} : f.wrap v = v ↔ f.Holds v :=
  ⟨fun h ↦ h ▸ f.holds_wrap v, wrap_of_holds⟩

/-- Wrapping keeps the residue. -/
theorem wrap_emod (f : IntFormat) (v : ℤ) : f.wrap v % 2 ^ f.width = v % 2 ^ f.width := by
  rw [wrap, Int.add_emod_emod, add_sub_cancel]

/-- Wrapping depends on the residue alone. -/
theorem wrap_congr {u v : ℤ} (h : u % 2 ^ f.width = v % 2 ^ f.width) : f.wrap u = f.wrap v := by
  rw [wrap, wrap, (Int.emod_sub_cancel_right f.lower).mpr h]

/-- A held number is the wrapped one of every number with its residue. -/
theorem eq_wrap_iff {u v : ℤ} (hu : f.Holds u) :
    u = f.wrap v ↔ u % 2 ^ f.width = v % 2 ^ f.width := by
  refine ⟨fun h ↦ ?_, fun h ↦ ?_⟩
  · rw [h, wrap_emod]
  · rw [← wrap_congr h, wrap_of_holds hu]

/-- Held numbers with the same residue are equal. -/
theorem eq_of_emod_eq {u v : ℤ} (hu : f.Holds u) (hv : f.Holds v)
    (h : u % 2 ^ f.width = v % 2 ^ f.width) : u = v := by
  rw [(eq_wrap_iff hu).mpr h, wrap_of_holds hv]

/-- A wider format of the same signedness holds more. -/
theorem Holds.mono {f g : IntFormat} {v : ℤ} (hv : f.Holds v) (hsigned : f.signed = g.signed)
    (hwidth : f.width ≤ g.width) : g.Holds v := by
  have hwide : (2 : ℤ) ^ f.width ≤ 2 ^ g.width := pow_le_pow_right₀ (by norm_num) hwidth
  have hnarrow : (2 : ℤ) ^ (f.width - 1) ≤ 2 ^ (g.width - 1) :=
    pow_le_pow_right₀ (by norm_num) (by omega)
  obtain ⟨hlo, hhi⟩ := hv
  rw [lower, hsigned] at hlo
  rw [upper, hsigned] at hhi
  refine ⟨?_, ?_⟩
  · rw [lower]
    split at hlo
    case isTrue hs =>
      rw [if_pos hs]
      omega
    case isFalse hs => rwa [if_neg hs]
  · rw [upper]
    split at hhi
    case isTrue hs =>
      rw [if_pos hs]
      omega
    case isFalse hs =>
      rw [if_neg hs]
      omega

/-- Held numbers are smaller than the power of the width. -/
theorem abs_lt_of_holds {v : ℤ} (h : f.Holds v) : |v| < 2 ^ f.width := by
  have hlo := h.1
  have hhi := h.2
  have hwidth := f.two_pow_width
  have hpow : (0 : ℤ) < 2 ^ (f.width - 1) := by positivity
  rw [lower] at hlo
  rw [upper] at hhi
  rw [abs_lt]
  split at hlo <;> split at hhi <;> first | contradiction | exact ⟨by omega, by omega⟩

end IntFormat

end Safrn.Base
