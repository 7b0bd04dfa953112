import Mathlib.Algebra.Order.BigOperators.Group.Finset
import Safrn.Garbled.Correct
import Safrn.Psi.Cells

/-!
# Shares of the equality of two cells

`C_U - C_S` is the number of bits in which the two servers' cells differ, modulo 32. There are
at most 31 bits, so the five bits of the two sums agree exactly when the cells do, and the
garbled circuits share that.
-/

namespace Safrn.Psi

open Safrn.Base Safrn.Cuckoo Safrn.Garbled

/-- What the dealer hands out for the transfers of one cell: the pairs to one server, the bits
and the selected values to the other. -/
structure OtCell (α : Type) where
  s : Nat → Nat → α
  b : Nat → Nat
  u : Nat → α

/-- The material is consistent: `u = s[b]`. -/
structure OtCell.Dealt {α : Type} (cell : OtCell α) (otCount : Nat) (valid : α → Prop) :
    Prop where
  bit : ∀ n < otCount, cell.b n < 2
  selected : ∀ n < otCount, cell.u n = cell.s n (cell.b n)
  value : ∀ n < otCount, ∀ e < 2, valid (cell.s n e)

/-! ## Bits -/

theorem bit_eq (x k : Nat) : bit x k = (x.testBit k).toNat := by
  rw [bit, Nat.and_one_is_mod, Nat.shiftRight_eq_div_pow, Nat.toNat_testBit]

/-- Two numbers of `w` bits are equal when their bits are. -/
theorem bits_eq_iff {x y w : Nat} (hx : x < 2 ^ w) (hy : y < 2 ^ w) :
    (∀ k < w, bit x k = bit y k) ↔ x = y := by
  constructor
  · intro h
    refine Nat.eq_of_testBit_eq fun k ↦ ?_
    by_cases hk : k < w
    · have hbit := h k hk
      rw [bit_eq, bit_eq] at hbit
      revert hbit
      cases x.testBit k <;> cases y.testBit k <;> decide
    · have hpow : 2 ^ w ≤ 2 ^ k := Nat.pow_le_pow_right (by decide) (Nat.le_of_not_lt hk)
      rw [Nat.testBit_lt_two_pow (Nat.lt_of_lt_of_le hx hpow),
        Nat.testBit_lt_two_pow (Nat.lt_of_lt_of_le hy hpow)]
  · rintro rfl k -
    rfl

theorem xor_lt_two {x y : Nat} (hx : x < 2) (hy : y < 2) : x ^^^ y < 2 :=
  Nat.xor_lt_two_pow (n := 1) hx hy

/-- The sums differ by the distance of the bits, which is less than the modulus. -/
theorem sum_distance_iff {n : Nat} (hn : n ≤ 31) (a : Nat → Nat) {x y : Nat → Nat}
    (hx : ∀ k, x k < 2) (hy : ∀ k, y k < 2) :
    (∑ k ∈ Finset.range n, (a k + (y k ^^^ x k))) % 32 = (∑ k ∈ Finset.range n, a k) % 32 ↔
      ∀ k < n, x k = y k := by
  have hle : ∑ k ∈ Finset.range n, (y k ^^^ x k) ≤ n := by
    have h := Finset.sum_le_card_nsmul (Finset.range n) (fun k ↦ y k ^^^ x k) 1 fun k _ ↦
      Nat.le_of_lt_succ (xor_lt_two (hy k) (hx k))
    rwa [Finset.card_range, nsmul_one, Nat.cast_id] at h
  have hzero : ∑ k ∈ Finset.range n, (y k ^^^ x k) = 0 ↔ ∀ k < n, x k = y k := by
    rw [Finset.sum_eq_zero_iff]
    refine forall_congr' fun k ↦ ?_
    rw [Finset.mem_range, Nat.xor_eq_zero_iff, eq_comm]
  rw [Finset.sum_add_distrib, ← hzero]
  omega

namespace Globals

variable {g : Globals} {A B : CuckooTable} {aBytes : Nat → Nat → UInt8}
  {z sendsec C_S C_U cs csendsec : Nat → Nat} {ot : OtCell Nat} {c : Nat}

theorem index_lt {width : Nat} (hc : c < g.cellCount) {k : Nat} (hk : k < width) :
    c * width + k < g.cellCount * width := by
  calc c * width + k < c * width + width := Nat.add_lt_add_left hk _
    _ = (c + 1) * width := (Nat.succ_mul c width).symm
    _ ≤ g.cellCount * width := Nat.mul_le_mul_right width hc

/-- `C_U` of a cell, as a sum over its bits. -/
theorem C_U_eq (hot : ot.Dealt (g.cellCount * g.rightBits) (· < 32))
    (hz : ∀ n < g.cellCount * g.rightBits, z n = g.selbits B ot.b n)
    (hsend : ∀ n < g.cellCount * (g.rightBits * 2),
      sendsec n = (g.blind A aBytes ot.s z).sendsec n) (hc : c < g.cellCount) :
    g.unblind B sendsec ot.u c = (∑ k ∈ Finset.range g.rightBits,
      (mask5 aBytes c k + (bit (g.xR B c) k ^^^ bit (g.xR A c) k))) % 32 := by
  refine unblind_get hc fun k hk ↦ ?_
  have hn := index_lt hc hk
  have hb := hot.bit _ hn
  have hu := hot.selected _ hn
  refine ⟨hu ▸ hot.value _ hn _ hb, ?_⟩
  have hy := bit_lt (g.xR B c) k
  have hidx : (c * g.rightBits + k) * 2 + bit (g.xR B c) k < g.cellCount * (g.rightBits * 2) := by
    rw [← Nat.mul_assoc]
    omega
  rw [hsend _ hidx, blind_sendsec hc hk hy, hidden, hz _ hn, selbits_get hc hk,
    Nat.xor_comm (ot.b _), Nat.xor_xor_cancel_left, ← hu]

/-- The sums of a cell agree exactly when the two servers' cells do. -/
theorem C_U_eq_C_S_iff (hot : ot.Dealt (g.cellCount * g.rightBits) (· < 32))
    (hz : ∀ n < g.cellCount * g.rightBits, z n = g.selbits B ot.b n)
    (hsend : ∀ n < g.cellCount * (g.rightBits * 2),
      sendsec n = (g.blind A aBytes ot.s z).sendsec n)
    (hA : g.xR A c < 2 ^ g.rightBits) (hB : g.xR B c < 2 ^ g.rightBits) (hc : c < g.cellCount) :
    (g.blind A aBytes ot.s z).C_S c = g.unblind B sendsec ot.u c ↔ g.xR A c = g.xR B c := by
  have hbits : g.rightBits ≤ 31 := g.hashParams.rightBits_le
  rw [C_U_eq hot hz hsend hc, blind_C_S hc, eq_comm,
    sum_distance_iff hbits _ (bit_lt _) (bit_lt _), bits_eq_iff hA hB]

private theorem equal_bit {x y : Nat} (hx : x < 2) (hy : y < 2) :
    (1 - y) ^^^ x = (decide (x = y)).toNat := by
  interval_cases x <;> interval_cases y <;> rfl

/-- The label under a chosen blob is the one for the equality of the two bits. -/
private theorem insec_eq_selectLabels {mk : Maker} (hmk : MakerInv g.cellCount mk)
    (hot : ot.Dealt (g.cellCount * 5) (· < 256))
    (hcs : ∀ n < g.cellCount * 5, cs n = g.cselbits C_U ot.b n)
    (hsend : ∀ n < g.cellCount * (5 * 2),
      csendsec n = g.maskLabels C_S cs ot.s mk.stufftosend n) (insec : Nat → Nat)
    (hc : c < g.cellCount) {k : Nat} (hk : k < 5) :
    g.insec C_U csendsec ot.u insec (c * 5 + k) =
      selectLabels mk (fun c k ↦ decide (bit (C_S c) k = bit (C_U c) k)) (c * 5 + k) := by
  have hn := index_lt hc hk
  have hb := hot.bit _ hn
  have hu := hot.selected _ hn
  have hy := bit_lt (C_U c) k
  have hx := bit_lt (C_S c) k
  have hidx : (c * 5 + k) * 2 + bit (C_U c) k < g.cellCount * (5 * 2) := by omega
  obtain ⟨T, hT, hsent⟩ := hmk.sent c hc
  have hlabel : mk.stufftosend ((c * 5 + k) * 2 + ((1 - bit (C_U c) k) ^^^ bit (C_S c) k)) <
      256 := by
    have hv : (1 - bit (C_U c) k) ^^^ bit (C_S c) k < 2 := xor_lt_two (by omega) hx
    rw [hsent k hk _ hv]
    refine Nat.lt_of_lt_of_le (hT.width k (by omega) _ hv) ?_
    interval_cases k <;> decide
  have hblob : ot.s (c * 5 + k) (ot.b (c * 5 + k)) < 256 := hot.value _ hn _ hb
  have hxor := Nat.xor_lt_two_pow (n := 8) hlabel hblob
  rw [insec_get insec hc hk, hsend _ hidx, maskLabels_get hc hk hy, hcs _ hn, cselbits_get hc hk,
    Nat.xor_comm (ot.b _), Nat.xor_xor_cancel_left, hu, Nat.mod_eq_of_lt hxor,
    Nat.xor_xor_cancel_right, Nat.mod_eq_of_lt hlabel, selectLabels, equal_bit hx hy]
  have hdiv : (c * 5 + k) / 5 = c := by omega
  have hmod : (c * 5 + k) % 5 = k := by omega
  rw [hdiv, hmod]

/-- The output bits of the circuits and the maker's flips share the equality of the sums. -/
theorem PSIShare_eq {mk : Maker} (hmk : MakerInv g.cellCount mk)
    (hot : ot.Dealt (g.cellCount * 5) (· < 256))
    (hcs : ∀ n < g.cellCount * 5, cs n = g.cselbits C_U ot.b n)
    (hsend : ∀ n < g.cellCount * (5 * 2),
      csendsec n = g.maskLabels C_S cs ot.s mk.stufftosend n) (insec : Nat → Nat)
    (ev : Evaluator) (hc : c < g.cellCount) (hS : C_S c < 32) (hU : C_U c < 32) :
    mk.outflip c < 2 ∧
      (evaluateFullEqualityCircuits (g.insec C_U csendsec ot.u insec) g.cellCount ev).output c =
        mk.outflip c ^^^ (if C_S c = C_U c then 1 else 0) := by
  obtain ⟨T, hT, -⟩ := hmk.sent c hc
  have hev := evaluate_ok hmk (Nat.le_refl _)
    (fun c k ↦ decide (bit (C_S c) k = bit (C_U c) k))
    (fun c hc k hk ↦ insec_eq_selectLabels hmk hot hcs hsend insec hc hk) ev
  refine ⟨hT.flip_lt, ?_⟩
  rw [hev.output c hc]
  have hiff : wireValue (fun k ↦ decide (bit (C_S c) k = bit (C_U c) k)) 8 = true ↔
      C_S c = C_U c := by
    rw [wireValue_eight, ← bits_eq_iff (w := 5) hS hU]
    exact forall_congr' fun k ↦ imp_congr_right fun _ ↦ decide_eq_true_iff
  by_cases heq : C_S c = C_U c
  · rw [hiff.mpr heq, if_pos heq]
    rfl
  · rw [Bool.eq_false_iff.mpr fun h ↦ heq (hiff.mp h), if_neg heq]
    rfl

end Globals
end Safrn.Psi
