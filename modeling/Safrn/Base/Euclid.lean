import Mathlib.Algebra.Order.Group.Unbundled.Int
import Mathlib.Algebra.Ring.Parity
import Mathlib.Data.Int.GCD
import Mathlib.Tactic.Ring

/-!
# Euclid's algorithm on signed numbers

With a remainder that takes the sign of its dividend, the algorithm ends with a greatest common
divisor whose sign is that of one of the two numbers: the second one after an even number of
divisions, the first one after an odd number.
-/

namespace Safrn.Base

/-- The divisions that Euclid's algorithm makes, each of the second number by the first. -/
def divisions (a b : ℕ) : ℕ :=
  if a = 0 then 0 else divisions (b % a) a + 1
termination_by a
decreasing_by exact Nat.mod_lt b (Nat.pos_of_ne_zero ‹_›)

/-- Euclid's algorithm with a truncating division. -/
def signedGcd (a b : ℤ) : ℤ :=
  if a = 0 then b else signedGcd (b.tmod a) a
termination_by a.natAbs
decreasing_by
  rw [Int.natAbs_tmod]
  exact Nat.mod_lt _ (Int.natAbs_pos.mpr ‹_›)

@[simp] theorem divisions_zero (b : ℕ) : divisions 0 b = 0 := by
  rw [divisions, if_pos rfl]

theorem divisions_of_ne_zero {a : ℕ} (h : a ≠ 0) (b : ℕ) :
    divisions a b = divisions (b % a) a + 1 := by
  rw [divisions, if_neg h]

/-- A common factor does not count. -/
theorem divisions_mul {c : ℕ} (hc : 0 < c) (a b : ℕ) :
    divisions (c * a) (c * b) = divisions a b := by
  induction a, b using divisions.induct with
  | case1 b => rw [Nat.mul_zero, divisions_zero, divisions_zero]
  | case2 a b ha ih =>
    have hca : c * a ≠ 0 := Nat.mul_ne_zero hc.ne' ha
    rw [divisions_of_ne_zero ha, divisions_of_ne_zero hca, Nat.mul_mod_mul_left, ih]

@[simp] theorem signedGcd_zero (b : ℤ) : signedGcd 0 b = b := by
  rw [signedGcd, if_pos rfl]

theorem signedGcd_of_ne_zero {a : ℤ} (h : a ≠ 0) (b : ℤ) :
    signedGcd a b = signedGcd (b.tmod a) a := by
  rw [signedGcd, if_neg h]

/-- A remainder that is not zero has the sign of its dividend. -/
theorem sign_tmod {a b : ℤ} (h : b.tmod a ≠ 0) : (b.tmod a).sign = b.sign := by
  rcases lt_trichotomy b 0 with hb | rfl | hb
  · have hle := Int.tmod_nonneg a (Int.neg_nonneg_of_nonpos hb.le)
    rw [Int.neg_tmod] at hle
    rw [Int.sign_eq_neg_one_of_neg (by omega), Int.sign_eq_neg_one_of_neg hb]
  · exact absurd (Int.zero_tmod a) h
  · have hle := Int.tmod_nonneg a hb.le
    rw [Int.sign_eq_one_of_pos (by omega), Int.sign_eq_one_of_pos hb]

theorem natAbs_signedGcd (a b : ℤ) : (signedGcd a b).natAbs = Int.gcd a b := by
  induction a, b using signedGcd.induct with
  | case1 b => rw [signedGcd_zero, Int.gcd_zero_left]
  | case2 a b ha ih =>
    rw [signedGcd_of_ne_zero ha, ih, Int.gcd, Int.gcd, Int.natAbs_tmod, ← Nat.gcd_rec]

/-- The sign of the result alternates with the divisions. -/
theorem sign_signedGcd (a b : ℤ) : (signedGcd a b).sign =
    if Even (divisions a.natAbs b.natAbs) then b.sign else a.sign := by
  induction a, b using signedGcd.induct with
  | case1 b => simp
  | case2 a b ha ih =>
    rw [Int.natAbs_tmod] at ih
    rw [signedGcd_of_ne_zero ha, ih, divisions_of_ne_zero (Int.natAbs_ne_zero.mpr ha)]
    by_cases heven : Even (divisions (b.natAbs % a.natAbs) a.natAbs)
    · rw [if_pos heven, if_neg (by simpa [Nat.even_add_one] using heven)]
    · rw [if_neg heven, if_pos (Nat.even_add_one.mpr heven)]
      apply sign_tmod
      intro hzero
      have hmod : b.natAbs % a.natAbs = 0 := by rw [← Int.natAbs_tmod, hzero, Int.natAbs_zero]
      rw [hmod, divisions_zero] at heven
      exact heven Even.zero

theorem signedGcd_eq (a b : ℤ) : signedGcd a b =
    (if Even (divisions a.natAbs b.natAbs) then b.sign else a.sign) * Int.gcd a b := by
  rw [← sign_signedGcd, ← natAbs_signedGcd, Int.sign_mul_natAbs]

end Safrn.Base
