import Mathlib.Algebra.Order.Floor.Semifield
import Mathlib.Data.Rat.Floor
import Safrn.Stats.Headroom

/-!
# Fixed-point numbers

Models `convertDoubleToLargeNum` (`StartupUtils.cpp:15-46`) and `castToDouble`
(`recipient/RegressionReceiver.cpp:12-42`). A `double` is an exact rational, and a `LargeNum` is a
natural number. `none` stands for a conversion of a `double` that does not fit its type and for a
difference of `LargeNum`s below zero.
-/

namespace Safrn.Stats

/-! ## Encoding -/

/-- `static_cast<uint64_t>(floor(val))` of a non-negative number. -/
def toUInt64 (val : ℚ) : Option ℕ := if ⌊val⌋₊ < 2 ^ 64 then some ⌊val⌋₊ else none

/-- One round of the loop: the next bit moves from `val` to `ret`. -/
def nextBit (s : ℕ × ℚ) : ℕ × ℚ :=
  let val := s.2 * 2
  (s.1 * 2 + ⌊val⌋₊, val - ⌊val⌋₊)

/-- `convertDoubleToLargeNum` of a non-negative number. -/
def convertNonneg (val : ℚ) (bitsOfPrecision : ℕ) : Option ℕ :=
  let val := val + (1 / 2) ^ (1 + bitsOfPrecision)
  (toUInt64 val).map fun ret ↦ (nextBit^[bitsOfPrecision] (ret, val - ⌊val⌋₊)).1

/-- `convertDoubleToLargeNum`. -/
def convertDoubleToLargeNum (val : ℚ) (bitsOfPrecision modulus : ℕ) : Option ℕ :=
  if val < 0 then
    (convertNonneg (-1 * val) bitsOfPrecision).bind fun ret ↦
      if ret ≤ modulus then some (modulus - ret) else none
  else convertNonneg val bitsOfPrecision

/-! ## Decoding -/

/-- `static_cast<uint64_t>` of a `LargeNum`. -/
def lowUInt64 (val : ℕ) : ℕ := val % 2 ^ 64

/-- `castToDouble`. -/
def castToDouble (val bits modulus : ℕ) : ℚ :=
  if modulus < 2 * val then -1 * castToDouble (modulus - val) bits modulus
  else
    let fullPowerOfTwo := 1 <<< bits
    let integerPart : ℚ := lowUInt64 (val / fullPowerOfTwo)
    let remainder := val % fullPowerOfTwo
    if bits ≤ 64 then integerPart + (lowUInt64 remainder : ℚ) / 2 ^ bits
    else
      let powerOfTwo := 1 <<< (bits - 64)
      integerPart + (lowUInt64 (val / powerOfTwo) : ℚ) / 2 ^ 64
termination_by val

/-! ## What the encoding rounds to -/

/-- The scaled absolute value, rounded to the nearest integer. -/
def rounded (v : ℚ) (b : ℕ) : ℕ := ⌊|v| * 2 ^ b + 1 / 2⌋₊

theorem nextBit_iterate {val : ℚ} (hval : 0 ≤ val) (n : ℕ) :
    nextBit^[n] (⌊val⌋₊, val - ⌊val⌋₊) = (⌊val * 2 ^ n⌋₊, val * 2 ^ n - ⌊val * 2 ^ n⌋₊) := by
  induction n with
  | zero => simp
  | succ n ih =>
    have hpos : 0 ≤ val * 2 ^ n := by positivity
    have hdouble : (val * 2 ^ n - ⌊val * 2 ^ n⌋₊) * 2 =
        val * 2 ^ (n + 1) - (⌊val * 2 ^ n⌋₊ * 2 : ℕ) := by
      push_cast
      ring
    have hle : ((⌊val * 2 ^ n⌋₊ * 2 : ℕ) : ℚ) ≤ val * 2 ^ (n + 1) := by
      have := Nat.floor_le hpos
      push_cast
      rw [pow_succ]
      linarith
    have hfloor : ⌊val * 2 ^ n⌋₊ * 2 ≤ ⌊val * 2 ^ (n + 1)⌋₊ := Nat.le_floor hle
    rw [Function.iterate_succ_apply', ih, nextBit]
    simp only [hdouble, Nat.floor_sub_natCast]
    rw [Nat.add_sub_cancel' hfloor, Nat.cast_sub hfloor, sub_sub_sub_cancel_right]

theorem convertNonneg_eq {val : ℚ} (hval : 0 ≤ val) (b : ℕ) :
    convertNonneg val b =
      if ⌊val + (1 / 2) ^ (1 + b)⌋₊ < 2 ^ 64 then some (rounded val b) else none := by
  have hpos : 0 ≤ val + (1 / 2) ^ (1 + b) := by positivity
  have hscale : (val + (1 / 2) ^ (1 + b)) * 2 ^ b = |val| * 2 ^ b + 1 / 2 := by
    rw [abs_of_nonneg hval, add_mul, pow_add, pow_one, mul_assoc, ← mul_pow]
    norm_num
  simp only [convertNonneg, toUInt64]
  split
  · rw [Option.map_some, nextBit_iterate hpos, hscale, rounded]
  · rfl

/-- The residue stands for the number that the joined rows hold. -/
theorem cast_convertDoubleToLargeNum {v : ℚ} {b m r : ℕ}
    (hr : convertDoubleToLargeNum v b m = some r) : (r : ZMod m) = (fixedPoint v b : ℤ) := by
  have hround : ∀ x : ℚ, 0 ≤ x → (⌊x * 2 ^ b + 1 / 2⌋ : ℤ) = rounded x b := by
    intro x hx
    rw [rounded, abs_of_nonneg hx, Int.natCast_floor_eq_floor (by positivity)]
  unfold convertDoubleToLargeNum at hr
  unfold fixedPoint
  split at hr
  · next hneg =>
    have hpos : 0 ≤ -v := by linarith
    rw [neg_one_mul, convertNonneg_eq hpos] at hr
    rw [if_pos hneg, hround (-v) hpos]
    split at hr
    · rw [Option.bind_some] at hr
      split at hr
      · next hle =>
        obtain rfl := Option.some.inj hr
        rw [Nat.cast_sub hle]
        simp
      · contradiction
    · contradiction
  · next hneg =>
    rw [convertNonneg_eq (not_lt.mp hneg)] at hr
    rw [if_neg hneg, hround v (not_lt.mp hneg)]
    split at hr
    · obtain rfl := Option.some.inj hr
      rw [Int.cast_natCast]
    · contradiction

/-! ## The round trip -/

/-- The low bits that `castToDouble` drops when the precision exceeds 64 bits. -/
def droppedBits (r b : ℕ) : ℕ := r % 2 ^ (b - 64)

/-- What encoding and decoding should do: a residue below the modulus that decodes to a multiple
of the precision, no further away than the precision and of the same sign. -/
def RoundTrips (m b : ℕ) (v : ℚ) : Prop :=
  ∃ r, convertDoubleToLargeNum v b m = some r ∧ r < m ∧
    (∃ k : ℤ, castToDouble r b m = k / 2 ^ b) ∧ |castToDouble r b m - v| ≤ 1 / 2 ^ b ∧
    (0 ≤ v → 0 ≤ castToDouble r b m) ∧ (v ≤ 0 → castToDouble r b m ≤ 0)

/-- The integer part fits 64 bits, the decoding drops no more than the rounding added, and a
negative number is neither rounded to zero nor to half the modulus. -/
structure Encodable (m b : ℕ) (v : ℚ) : Prop where
  fits : ⌊|v| + (1 / 2) ^ (1 + b)⌋₊ < 2 ^ 64
  dropped : droppedBits (rounded v b) b = 0 ∨
    droppedBits (rounded v b) b = 1 ∧ |v| * 2 ^ b ≤ rounded v b
  negative : v < 0 → 0 < rounded v b ∧ (2 * rounded v b < m ∨ rounded v b < 2 ^ (b - 64))

/-- Decoding of a residue in the lower half. -/
theorem castToDouble_of_le {r b m : ℕ} (hr : 2 * r ≤ m) (hfits : r / 2 ^ b < 2 ^ 64) :
    castToDouble r b m = ((r - droppedBits r b : ℕ) : ℚ) / 2 ^ b := by
  have hscale : ∀ n : ℕ, ((2 ^ n : ℕ) : ℚ) ≠ 0 := fun n ↦ by positivity
  rw [castToDouble, if_neg (Nat.not_lt.mpr hr)]
  simp only [Nat.one_shiftLeft, lowUInt64, Nat.mod_eq_of_lt hfits]
  split
  · next hb =>
    have hlt : r % 2 ^ b < 2 ^ 64 :=
      (Nat.mod_lt _ (Nat.two_pow_pos b)).trans_le (Nat.pow_le_pow_right Nat.zero_lt_two hb)
    have hsplit : (r : ℚ) = 2 ^ b * (r / 2 ^ b : ℕ) + (r % 2 ^ b : ℕ) := by
      exact_mod_cast (Nat.div_add_mod r (2 ^ b)).symm
    rw [Nat.mod_eq_of_lt hlt, droppedBits, Nat.sub_eq_zero_of_le hb, pow_zero, Nat.mod_one,
      Nat.sub_zero, hsplit]
    field_simp
  · next hb =>
    have hpow : 2 ^ b = 2 ^ (b - 64) * 2 ^ 64 := by
      rw [← Nat.pow_add, Nat.sub_add_cancel (Nat.le_of_lt (Nat.not_le.mp hb))]
    have hkept : r - droppedBits r b = 2 ^ (b - 64) * (r / 2 ^ (b - 64)) := by
      have := Nat.div_add_mod r (2 ^ (b - 64))
      rw [droppedBits]
      omega
    have hsplit : ((r / 2 ^ (b - 64) : ℕ) : ℚ) =
        2 ^ 64 * (r / 2 ^ (b - 64) / 2 ^ 64 : ℕ) + (r / 2 ^ (b - 64) % 2 ^ 64 : ℕ) := by
      exact_mod_cast (Nat.div_add_mod (r / 2 ^ (b - 64)) (2 ^ 64)).symm
    have hpowQ : (2 : ℚ) ^ b = 2 ^ (b - 64) * 2 ^ 64 := by exact_mod_cast hpow
    rw [hkept, hpow, ← Nat.div_div_eq_div_mul, hpowQ]
    push_cast [hsplit]
    field_simp

section

variable {m b : ℕ} {v : ℚ}

theorem rounded_le : (rounded v b : ℚ) ≤ |v| * 2 ^ b + 1 / 2 := Nat.floor_le (by positivity)

theorem lt_rounded : |v| * 2 ^ b - 1 / 2 < rounded v b := by
  have := Nat.lt_floor_add_one (|v| * 2 ^ b + 1 / 2)
  rw [rounded]
  linarith

theorem rounded_div : rounded v b / 2 ^ b = ⌊|v| + (1 / 2) ^ (1 + b)⌋₊ := by
  have hdiv : |v| + (1 / 2) ^ (1 + b) = (|v| * 2 ^ b + 1 / 2) / (2 ^ b : ℕ) := by
    push_cast
    rw [add_div, mul_div_cancel_right₀ _ (by positivity), pow_add, pow_one, one_div_pow]
    field_simp
  rw [hdiv, Nat.floor_div_natCast, rounded]

theorem two_mul_rounded_le (h : |v| * 2 ^ b < m / 2) : 2 * rounded v b ≤ m := by
  have hlt : (2 * rounded v b : ℚ) < m + 1 := by
    have := rounded_le (v := v) (b := b)
    linarith
  exact Nat.le_of_lt_succ (by exact_mod_cast hlt)

/-- The number that is left lies within the precision exactly when no more is dropped than the
rounding added. -/
theorem near_iff : |(rounded v b - droppedBits (rounded v b) b : ℕ) - |v| * 2 ^ b| ≤ 1 ↔
    droppedBits (rounded v b) b = 0 ∨
      droppedBits (rounded v b) b = 1 ∧ |v| * 2 ^ b ≤ rounded v b := by
  have hle := rounded_le (v := v) (b := b)
  have hlt := lt_rounded (v := v) (b := b)
  have hdropped : droppedBits (rounded v b) b ≤ rounded v b := Nat.mod_le _ _
  rw [Nat.cast_sub hdropped, abs_le]
  constructor
  · rintro ⟨hlow, -⟩
    have htwo : (droppedBits (rounded v b) b : ℚ) < 2 := by linarith
    have htwo' : droppedBits (rounded v b) b < 2 := by exact_mod_cast htwo
    obtain h₀ | h₁ : droppedBits (rounded v b) b = 0 ∨ droppedBits (rounded v b) b = 1 := by omega
    · exact .inl h₀
    · rw [h₁] at hlow
      push_cast at hlow
      exact .inr ⟨h₁, by linarith⟩
  · rintro (h₀ | ⟨h₁, hx⟩)
    · rw [h₀]
      push_cast
      constructor <;> linarith
    · rw [h₁]
      push_cast
      constructor <;> linarith

/-- What is left of the scaled number, at its own scale. -/
private theorem abs_kept_sub_le {x : ℚ} {n : ℕ} :
    |(n : ℚ) / 2 ^ b - x| ≤ 1 / 2 ^ b ↔ |(n : ℚ) - x * 2 ^ b| ≤ 1 := by
  have hpos : (0 : ℚ) < 2 ^ b := by positivity
  have hscale : (n : ℚ) / 2 ^ b - x = (n - x * 2 ^ b) / 2 ^ b := by field_simp
  rw [hscale, abs_div, abs_of_pos hpos, div_le_div_iff_of_pos_right hpos]

theorem convertDoubleToLargeNum_of_fits (h : |v| * 2 ^ b < m / 2)
    (hfits : ⌊|v| + (1 / 2) ^ (1 + b)⌋₊ < 2 ^ 64) :
    convertDoubleToLargeNum v b m =
      some (if v < 0 then m - rounded v b else rounded v b) := by
  have hle : rounded v b ≤ m := by
    have := two_mul_rounded_le h
    omega
  have habs : rounded |v| b = rounded v b := by rw [rounded, abs_abs, rounded]
  unfold convertDoubleToLargeNum
  split
  · next hneg =>
    rw [neg_one_mul, ← abs_of_neg hneg, convertNonneg_eq (abs_nonneg v), if_pos hfits, habs,
      Option.bind_some, if_pos hle]
  · next hneg =>
    have hv := abs_of_nonneg (not_lt.mp hneg)
    rw [hv] at hfits
    rw [convertNonneg_eq (not_lt.mp hneg), if_pos hfits]

theorem convertDoubleToLargeNum_of_not_fits (hfits : ¬⌊|v| + (1 / 2) ^ (1 + b)⌋₊ < 2 ^ 64) :
    convertDoubleToLargeNum v b m = none := by
  unfold convertDoubleToLargeNum
  split
  · next hneg =>
    rw [neg_one_mul, ← abs_of_neg hneg, convertNonneg_eq (abs_nonneg v), if_neg hfits,
      Option.bind_none]
  · next hneg =>
    rw [abs_of_nonneg (not_lt.mp hneg)] at hfits
    rw [convertNonneg_eq (not_lt.mp hneg), if_neg hfits]

/-- Decoding of the residue of a negative number. -/
theorem castToDouble_sub {r b m : ℕ} (hr : 2 * r < m) (hfits : r / 2 ^ b < 2 ^ 64) :
    castToDouble (m - r) b m = -(((r - droppedBits r b : ℕ) : ℚ) / 2 ^ b) := by
  rw [castToDouble, if_pos (by omega), show m - (m - r) = r by omega,
    castToDouble_of_le (Nat.le_of_lt hr) hfits, neg_one_mul]

private theorem roundTrips_of_convert {r : ℕ} (h : convertDoubleToLargeNum v b m = some r) :
    RoundTrips m b v ↔ r < m ∧ (∃ k : ℤ, castToDouble r b m = k / 2 ^ b) ∧
      |castToDouble r b m - v| ≤ 1 / 2 ^ b ∧
      (0 ≤ v → 0 ≤ castToDouble r b m) ∧ (v ≤ 0 → castToDouble r b m ≤ 0) := by
  constructor
  · rintro ⟨r', hr', hrest⟩
    obtain rfl : r = r' := Option.some.inj (h.symm.trans hr')
    exact hrest
  · exact fun hrest ↦ ⟨r, h, hrest⟩

/-- What is left of the number, compared to its absolute value. -/
private theorem close_iff {w : ℚ} (hw : w = |v|) :
    |((rounded v b - droppedBits (rounded v b) b : ℕ) : ℚ) / 2 ^ b - w| ≤ 1 / 2 ^ b ↔
      droppedBits (rounded v b) b = 0 ∨
        droppedBits (rounded v b) b = 1 ∧ |v| * 2 ^ b ≤ rounded v b := by
  rw [hw, abs_kept_sub_le]
  exact near_iff

private theorem roundTrips_nonneg (h : |v| * 2 ^ b < m / 2)
    (hfits : ⌊|v| + (1 / 2) ^ (1 + b)⌋₊ < 2 ^ 64) (hv : 0 ≤ v) :
    RoundTrips m b v ↔ droppedBits (rounded v b) b = 0 ∨
      droppedBits (rounded v b) b = 1 ∧ |v| * 2 ^ b ≤ rounded v b := by
  have hconvert := convertDoubleToLargeNum_of_fits h hfits
  rw [if_neg (not_lt.mpr hv)] at hconvert
  have hcast := castToDouble_of_le (two_mul_rounded_le h) (rounded_div.trans_lt hfits)
  have hR := two_mul_rounded_le h
  have hmod : (0 : ℚ) < m := by
    have hpos : 0 ≤ |v| * 2 ^ b := by positivity
    linarith
  have hmod' : 0 < m := by exact_mod_cast hmod
  rw [roundTrips_of_convert hconvert, hcast, close_iff (abs_of_nonneg hv).symm]
  constructor
  · exact fun hrest ↦ hrest.2.2.1
  · intro hclose
    refine ⟨by omega, ⟨_, by rw [Int.cast_natCast]⟩, hclose, fun _ ↦ by positivity, ?_⟩
    intro hv'
    have hR₀ : rounded v b = 0 := by
      rw [rounded, le_antisymm hv' hv]
      norm_num
    simp [hR₀]

private theorem roundTrips_negative_of_lt (h : |v| * 2 ^ b < m / 2)
    (hfits : ⌊|v| + (1 / 2) ^ (1 + b)⌋₊ < 2 ^ 64) (hv : v < 0) (hlt : 2 * rounded v b < m) :
    RoundTrips m b v ↔ 0 < rounded v b ∧ (droppedBits (rounded v b) b = 0 ∨
      droppedBits (rounded v b) b = 1 ∧ |v| * 2 ^ b ≤ rounded v b) := by
  have hconvert := convertDoubleToLargeNum_of_fits h hfits
  rw [if_pos hv] at hconvert
  have hcast := castToDouble_sub hlt (rounded_div.trans_lt hfits)
  have hdist : ∀ x : ℚ, |-x - v| = |x - -v| := by
    intro x
    rw [← abs_neg]
    congr 1
    ring
  rw [roundTrips_of_convert hconvert, hcast, hdist, close_iff (abs_of_neg hv).symm]
  constructor
  · rintro ⟨hm, -, hclose, -⟩
    exact ⟨by omega, hclose⟩
  · rintro ⟨hpos, hclose⟩
    refine ⟨by omega, ⟨-(rounded v b - droppedBits (rounded v b) b : ℕ), ?_⟩, hclose, ?_, ?_⟩
    · push_cast
      ring
    · exact fun hv' ↦ absurd hv (not_lt.mpr hv')
    · exact fun _ ↦ neg_nonpos.mpr (by positivity)

/-- Half the modulus is decoded as a positive number, unless nothing is left of it. -/
private theorem roundTrips_negative_of_half (h : |v| * 2 ^ b < m / 2)
    (hfits : ⌊|v| + (1 / 2) ^ (1 + b)⌋₊ < 2 ^ 64) (hv : v < 0) (hhalf : m = 2 * rounded v b) :
    RoundTrips m b v ↔ 0 < rounded v b ∧ rounded v b < 2 ^ (b - 64) ∧
      (droppedBits (rounded v b) b = 0 ∨
        droppedBits (rounded v b) b = 1 ∧ |v| * 2 ^ b ≤ rounded v b) := by
  have hconvert := convertDoubleToLargeNum_of_fits h hfits
  rw [if_pos hv, show m - rounded v b = rounded v b by omega] at hconvert
  have hcast := castToDouble_of_le (two_mul_rounded_le h) (rounded_div.trans_lt hfits)
  have hself : rounded v b - droppedBits (rounded v b) b = 0 ↔ rounded v b < 2 ^ (b - 64) := by
    have hle : droppedBits (rounded v b) b ≤ rounded v b := Nat.mod_le _ _
    rw [← Nat.mod_eq_iff_lt (Nat.two_pow_pos _).ne']
    simp only [droppedBits] at hle ⊢
    omega
  have hzero : (rounded v b - droppedBits (rounded v b) b : ℕ) = 0 →
      |((rounded v b - droppedBits (rounded v b) b : ℕ) : ℚ) / 2 ^ b - v| =
        |((rounded v b - droppedBits (rounded v b) b : ℕ) : ℚ) / 2 ^ b - -v| := by
    intro h₀
    simp [h₀]
  rw [roundTrips_of_convert hconvert, hcast]
  constructor
  · rintro ⟨hm, -, hclose, -, hsign⟩
    have h₀ : rounded v b - droppedBits (rounded v b) b = 0 := by
      have hle := hsign hv.le
      have hnonneg : 0 ≤ ((rounded v b - droppedBits (rounded v b) b : ℕ) : ℚ) / 2 ^ b := by
        positivity
      have hdiv₀ := (div_eq_zero_iff.mp (le_antisymm hle hnonneg)).resolve_right (by positivity)
      exact_mod_cast hdiv₀
    rw [hzero h₀, close_iff (abs_of_neg hv).symm] at hclose
    exact ⟨by omega, hself.mp h₀, hclose⟩
  · rintro ⟨hpos, hsmall, hclose⟩
    have h₀ := hself.mpr hsmall
    rw [hzero h₀, close_iff (abs_of_neg hv).symm]
    refine ⟨by omega, ⟨_, by rw [Int.cast_natCast]⟩, hclose, ?_, ?_⟩
    · exact fun hv' ↦ absurd hv (not_lt.mpr hv')
    · intro _
      simp [h₀]

/-- A number below half the modulus survives encoding and decoding exactly when it is encodable. -/
theorem roundTrips_iff (h : |v| * 2 ^ b < m / 2) : RoundTrips m b v ↔ Encodable m b v := by
  have hR := two_mul_rounded_le h
  by_cases hfits : ⌊|v| + (1 / 2) ^ (1 + b)⌋₊ < 2 ^ 64
  · rcases lt_or_ge v 0 with hv | hv
    · rcases Nat.lt_or_ge (2 * rounded v b) m with hlt | hge
      · rw [roundTrips_negative_of_lt h hfits hv hlt]
        constructor
        · exact fun ⟨hpos, hdropped⟩ ↦ ⟨hfits, hdropped, fun _ ↦ ⟨hpos, .inl hlt⟩⟩
        · exact fun hencodable ↦ ⟨(hencodable.negative hv).1, hencodable.dropped⟩
      · rw [roundTrips_negative_of_half h hfits hv (Nat.le_antisymm hge hR)]
        constructor
        · exact fun ⟨hpos, hsmall, hdropped⟩ ↦
            ⟨hfits, hdropped, fun _ ↦ ⟨hpos, .inr hsmall⟩⟩
        · intro hencodable
          obtain ⟨hpos, hside⟩ := hencodable.negative hv
          exact ⟨hpos, hside.resolve_left (Nat.not_lt.mpr hge), hencodable.dropped⟩
    · rw [roundTrips_nonneg h hfits hv]
      constructor
      · exact fun hdropped ↦ ⟨hfits, hdropped, fun hneg ↦ absurd hneg (not_lt.mpr hv)⟩
      · exact fun hencodable ↦ hencodable.dropped
  · have hconvert := convertDoubleToLargeNum_of_not_fits (m := m) hfits
    constructor
    · rintro ⟨r, hr, -⟩
      rw [hconvert] at hr
      contradiction
    · exact fun hencodable ↦ absurd hencodable.fits hfits

end

/-- A negative number at the default precision. -/
theorem roundTrips_negative : RoundTrips 101 5 (-3 / 2) := by
  have hround : rounded (-3 / 2) 5 = 48 := by
    rw [rounded]
    norm_num [abs_div]
  apply (roundTrips_iff (by norm_num [abs_div])).mpr
  constructor
  · norm_num [abs_div]
  · left
    rw [hround]
    decide
  · intro _
    rw [hround]
    exact ⟨by decide, .inl (by decide)⟩

/-- A negative number that is rounded to zero is encoded as the modulus. -/
theorem not_roundTrips_tiny : ¬RoundTrips 101 5 (-1 / 128) := by
  rintro ⟨r, hr, hlt, -⟩
  have hround : rounded (-1 / 128) 5 = 0 := by
    rw [rounded]
    norm_num [abs_div]
  have hconvert := convertDoubleToLargeNum_of_fits (v := -1 / 128) (b := 5) (m := 101)
    (by norm_num [abs_div]) (by norm_num [abs_div])
  rw [hround, if_pos (by norm_num), hr] at hconvert
  injection hconvert with hvalue
  omega

end Safrn.Stats
