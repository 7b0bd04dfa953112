import Safrn.Base.BitField

/-!
# One garbled gate

Models `BackServerRawHandler.java:1884-1925`. A label of a gate's output wire has `seclen` bits.
The first input's label is a position bit over a mask; the second input's label is two masked
output labels side by side, and the position bit says which of them to unmask.
Labels are byte or `int` patterns; the masks read bits below the sign of a byte only.
-/

namespace Safrn.Garbled

open Safrn.Base

/-- The output label that two input labels give. -/
def decodegate (seclen : Nat) (wsec : Fin 2 → Nat) : Nat :=
  let b := (wsec 0 >>> seclen) &&& 1
  let R := wsec 0 &&& ((1 <<< seclen) - 1)
  R ^^^ ((wsec 1 >>> ((b ^^^ 1) * seclen)) &&& ((1 <<< seclen) - 1))

/-- The labels of the two input wires: `osec 0`, `osec 1` of the first for the values 0 and 1,
`osec 2`, `osec 3` of the second; `zsec (2 * v + w)` is the output label for inputs `v`, `w`. -/
def encodegate (seclen : Nat) (zsec : Fin 4 → Nat) (b R0 R1 : Nat) : Fin 4 → Nat :=
  let b := b &&& 1
  let R0 := R0 &&& ((1 <<< seclen) - 1)
  let R1 := R1 &&& ((1 <<< seclen) - 1)
  fun
  | 0 => ((b ^^^ 0) <<< seclen) ||| R0
  | 1 => ((b ^^^ 1) <<< seclen) ||| R1
  | 2 => (zsec 0 ^^^ R0) <<< ((b ^^^ 1) * seclen) ||| (zsec 2 ^^^ R1) <<< ((b ^^^ 0) * seclen)
  | 3 => (zsec 1 ^^^ R0) <<< ((b ^^^ 1) * seclen) ||| (zsec 3 ^^^ R1) <<< ((b ^^^ 0) * seclen)

/-- A bit is 0 or 1. -/
theorem and_one_cases (b : Nat) : b &&& 1 = 0 ∨ b &&& 1 = 1 := by
  rw [Nat.and_one_is_mod]
  omega

/-- Decoding when the position bit and the mask of the first label, and the two halves of the
second, are known: position bit 1 selects the low half. -/
theorem decodegate_pack {seclen b R hi lo : Nat} (hb : b < 2) (hR : R < 2 ^ seclen)
    (hhi : hi < 2 ^ seclen) (hlo : lo < 2 ^ seclen) (wsec : Fin 2 → Nat)
    (h₀ : wsec 0 = b <<< seclen ||| R) (h₁ : wsec 1 = hi <<< seclen ||| lo) :
    decodegate seclen wsec = R ^^^ (if b = 0 then hi else lo) := by
  have hb' : b = 0 ∨ b = 1 := by omega
  rw [decodegate, h₀, h₁, pack_shiftRight b hR, pack_and_mask b hR]
  rcases hb' with rfl | rfl
  · rw [show (0 &&& 1) ^^^ 1 = 1 from rfl, Nat.one_mul, pack_shiftRight hi hlo, and_mask,
      Nat.mod_eq_of_lt hhi, if_pos rfl]
  · rw [show (1 &&& 1) ^^^ 1 = 0 from rfl, Nat.zero_mul, Nat.shiftRight_zero,
      pack_and_mask hi hlo, if_neg Nat.one_ne_zero]

/-- The second wire's label as two halves: position bit 0 puts the value-0 entry high. -/
theorem halves_eq {b x y seclen : Nat} (hb : b = 0 ∨ b = 1) :
    x <<< ((b ^^^ 1) * seclen) ||| y <<< ((b ^^^ 0) * seclen) =
      (if b = 0 then x else y) <<< seclen ||| (if b = 0 then y else x) := by
  rcases hb with rfl | rfl
  · simp
  · simp [Nat.lor_comm]

variable {seclen : Nat} {zsec : Fin 4 → Nat} (hz : ∀ k, zsec k < 2 ^ seclen) (b R0 R1 : Nat)

include hz in
/-- A masked output label fits in its width. -/
theorem xor_mask_lt (k : Fin 4) (R : Nat) :
    zsec k ^^^ (R &&& ((1 <<< seclen) - 1)) < 2 ^ seclen :=
  Nat.xor_lt_two_pow (hz k) (and_mask_lt R seclen)

/-- The first wire's labels have one bit more than the output's. -/
theorem encodegate_fst_lt (v : Bool) :
    encodegate seclen zsec b R0 R1 (if v then 1 else 0) < 2 ^ (seclen + 1) := by
  have h2 : ∀ c, (b &&& 1) ^^^ (c &&& 1) < 2 ^ 1 := fun c ↦
    Nat.xor_lt_two_pow (and_mask_lt b 1) (and_mask_lt c 1)
  rw [Nat.add_comm]
  cases v
  · exact pack_lt (h2 0) (and_mask_lt R0 seclen)
  · exact pack_lt (h2 1) (and_mask_lt R1 seclen)

include hz in
/-- The second wire's labels have twice the bits of the output's. -/
theorem encodegate_snd_lt (w : Bool) :
    encodegate seclen zsec b R0 R1 (if w then 3 else 2) < 2 ^ (2 * seclen) := by
  have hx := xor_mask_lt hz
  rw [Nat.two_mul]
  cases w
  all_goals
    simp only [encodegate, Bool.false_eq_true, if_true, if_false]
    rw [halves_eq (and_one_cases b)]
    apply pack_lt <;> split <;> exact hx _ _

include hz in
/-- Decoding the labels of the values `v` and `w` gives the output label of the pair. -/
theorem decodegate_encodegate (v w : Bool) (wsec : Fin 2 → Nat)
    (h₀ : wsec 0 = encodegate seclen zsec b R0 R1 (if v then 1 else 0))
    (h₁ : wsec 1 = encodegate seclen zsec b R0 R1 (if w then 3 else 2)) :
    decodegate seclen wsec =
      zsec (if v then (if w then 3 else 2) else (if w then 1 else 0)) := by
  have hx := xor_mask_lt hz
  rcases and_one_cases b with hb | hb <;> cases v <;> cases w
  all_goals
    simp only [encodegate, hb, Bool.false_eq_true, if_true, if_false] at h₀ h₁ ⊢
    rw [halves_eq (by decide)] at h₁
    rw [decodegate_pack (by decide) (and_mask_lt _ seclen) (hx _ _) (hx _ _) wsec h₀ h₁]
    simp [Nat.xor_comm]

end Safrn.Garbled
