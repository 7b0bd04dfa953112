import Safrn.Base.Sharing

/-!
# Sums, differences and products of machine words

The same code can be run with results that wrap around, and with results that are refused when they
do not fit. Where a result fits, both compute it.
-/

namespace Safrn.Base

/-- How sums, differences and products are formed; `none` is an overflow. -/
structure WordOps where
  add : ℕ → ℕ → Option ℕ
  sub : ℕ → ℕ → Option ℕ
  mul : ℕ → ℕ → Option ℕ

namespace WordOps

/-- Results are reduced modulo `2 ^ w`. -/
def wrapping (w : ℕ) : WordOps where
  add a b := some ((a + b) % 2 ^ w)
  sub a b := some ((a + (2 ^ w - b % 2 ^ w)) % 2 ^ w)
  mul a b := some (a * b % 2 ^ w)

/-- Results that are no words of `w` bits are refused. -/
def checked (w : ℕ) : WordOps where
  add a b := if a + b < 2 ^ w then some (a + b) else none
  sub a b := if b ≤ a then some (a - b) else none
  mul a b := if a * b < 2 ^ w then some (a * b) else none

/-- What fits is computed. -/
structure Exact (A : WordOps) (w : ℕ) : Prop where
  add {a b : ℕ} (h : a + b < 2 ^ w) : A.add a b = some (a + b)
  sub {a b : ℕ} (h : b ≤ a) (ha : a < 2 ^ w) : A.sub a b = some (a - b)
  mul {a b : ℕ} (h : a * b < 2 ^ w) : A.mul a b = some (a * b)

theorem wrapping_exact (w : ℕ) : (wrapping w).Exact w where
  add h := by
    simp [wrapping, Nat.mod_eq_of_lt h]
  sub {a b} h ha := by
    have hb : b % 2 ^ w = b := Nat.mod_eq_of_lt (Nat.lt_of_le_of_lt h ha)
    have heq : a + (2 ^ w - b) = a - b + 2 ^ w := by omega
    simp only [wrapping, hb, heq, Nat.add_mod_right]
    rw [Nat.mod_eq_of_lt (by omega)]
  mul h := by
    simp [wrapping, Nat.mod_eq_of_lt h]

theorem checked_exact (w : ℕ) : (checked w).Exact w where
  add h := if_pos h
  sub h _ := if_pos h
  mul h := if_pos h

/-! ### Modulo `2 ^ w` nothing is lost -/

theorem wrapping_add (w a b : ℕ) :
    ∃ c, (wrapping w).add a b = some c ∧ c < 2 ^ w ∧ (c : ZMod (2 ^ w)) = a + b := by
  refine ⟨_, rfl, Nat.mod_lt _ (Nat.two_pow_pos w), ?_⟩
  rw [ZMod.natCast_mod, Nat.cast_add]

theorem wrapping_sub (w a b : ℕ) :
    ∃ c, (wrapping w).sub a b = some c ∧ c < 2 ^ w ∧ (c : ZMod (2 ^ w)) = a - b := by
  refine ⟨_, rfl, Nat.mod_lt _ (Nat.two_pow_pos w), ?_⟩
  have hb : b % 2 ^ w ≤ 2 ^ w := Nat.le_of_lt (Nat.mod_lt b (Nat.two_pow_pos w))
  rw [ZMod.natCast_mod, Nat.cast_add, cast_neg_of_le hb, ZMod.natCast_mod, sub_eq_add_neg]

theorem wrapping_mul (w a b : ℕ) :
    ∃ c, (wrapping w).mul a b = some c ∧ c < 2 ^ w ∧ (c : ZMod (2 ^ w)) = a * b := by
  refine ⟨_, rfl, Nat.mod_lt _ (Nat.two_pow_pos w), ?_⟩
  rw [ZMod.natCast_mod, Nat.cast_mul]

end WordOps

end Safrn.Base
