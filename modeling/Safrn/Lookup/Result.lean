import Safrn.Lookup.Opening
import Mathlib.Data.Int.ModEq
import Mathlib.Algebra.BigOperators.Ring.Finset

/-!
# The result of a table lookup

The opened value is the index minus the rotation, brought back into the table by the shared
comparison. Rotating the table by it and multiplying with the shared unit vector of the rotation
gives shares of the row.
-/

namespace Safrn.Lookup

open Safrn.Base RandomTableLookupInfo

namespace Session

variable (L : Session)

/-- `Compare` on shares of `v` leaves shares of whether `v` is negative. -/
def IdealCompare (v : Int) : Prop :=
  (∑ p ∈ Finset.range L.nParties, (L.compareOperand p : Int)) ≡ v [ZMOD L.info.rModulus] →
    xorOver (Finset.range L.nParties) L.compareShare = BitVec.ofBool (decide (v < 0))

/-- `TypeCastFromBit` leaves additive shares of the bit. -/
def IdealTypeCast : Prop :=
  (∑ p ∈ Finset.range L.nParties, L.typeCastShare p) % L.info.rModulus =
    (xorOver (Finset.range L.nParties) L.compareShare).toNat

variable {L}

/-! ### The opened value -/

private theorem cast_sub_add (p : Nat) (c : Nat) :
    ((L.info.rModulus + L.locationShare p - (L.randomTable p).r + c : Nat) : Int) ≡
      L.locationShare p - (L.randomTable p).r + c [ZMOD L.info.rModulus] := by
  have hlt := (L.randomTable p).r_lt
  have hcast : ((L.info.rModulus + L.locationShare p - (L.randomTable p).r + c : Nat) : Int) =
      L.info.rModulus + (L.locationShare p - (L.randomTable p).r + c) := by omega
  rw [hcast]
  exact Int.emod_eq_emod_iff_emod_sub_eq_zero.mpr (by simp)

private theorem sum_modEq {m : Int} {S : Finset Nat} {f g : Nat → Int}
    (h : ∀ p ∈ S, f p ≡ g p [ZMOD m]) : ∑ p ∈ S, f p ≡ ∑ p ∈ S, g p [ZMOD m] := by
  induction S using Finset.induction with
  | empty => rfl
  | insert a S ha ih =>
    rw [Finset.sum_insert ha, Finset.sum_insert ha]
    exact (h a (Finset.mem_insert_self a S)).add
      (ih fun p hp ↦ h p (Finset.mem_insert_of_mem hp))

private theorem sum_difference {x r : Nat}
    (hx : (∑ p ∈ Finset.range L.nParties, L.locationShare p) % L.info.rModulus = x)
    (hr : (∑ p ∈ Finset.range L.nParties, (L.randomTable p).r) % L.info.rModulus = r) :
    ∑ p ∈ Finset.range L.nParties, ((L.locationShare p : Int) - (L.randomTable p).r) ≡
      x - r [ZMOD L.info.rModulus] := by
  rw [Finset.sum_sub_distrib]
  refine Int.ModEq.sub ?_ ?_
  · rw [← hx]
    push_cast
    exact (Int.mod_modEq _ _).symm
  · rw [← hr]
    push_cast
    exact (Int.mod_modEq _ _).symm

/-- The operands of `Compare` are shares of the index minus the rotation. -/
theorem sum_compareOperand {x r : Nat}
    (hx : (∑ p ∈ Finset.range L.nParties, L.locationShare p) % L.info.rModulus = x)
    (hr : (∑ p ∈ Finset.range L.nParties, (L.randomTable p).r) % L.info.rModulus = r) :
    (∑ p ∈ Finset.range L.nParties, (L.compareOperand p : Int)) ≡ x - r
      [ZMOD L.info.rModulus] := by
  refine (sum_modEq fun p _ ↦ ?_).trans (sum_difference hx hr)
  have h := cast_sub_add (L := L) p 0
  simp only [Nat.cast_zero, add_zero] at h
  unfold compareOperand modSub
  rw [Int.natCast_emod]
  exact (Int.mod_modEq _ _).trans h

/-- The opened value is the index minus the rotation modulo the table size. -/
theorem openedValue_of_ideal {x r : Nat} (hxT : x < L.info.tableSize) (hrT : r < L.info.tableSize)
    (hx : (∑ p ∈ Finset.range L.nParties, L.locationShare p) % L.info.rModulus = x)
    (hr : (∑ p ∈ Finset.range L.nParties, (L.randomTable p).r) % L.info.rModulus = r)
    (hcmp : L.IdealCompare (x - r)) (htc : L.IdealTypeCast) :
    L.openedValue = if x < r then x + L.info.tableSize - r else x - r := by
  have hle := L.info.tableSize_le_rModulus
  obtain ⟨c, hc⟩ : ∃ c : Nat, c = if x < r then 1 else 0 := ⟨_, rfl⟩
  have hbit : (∑ p ∈ Finset.range L.nParties, L.typeCastShare p) % L.info.rModulus = c := by
    rw [htc, hcmp (sum_compareOperand hx hr), hc]
    by_cases hlt : x < r
    · rw [if_pos hlt, decide_eq_true (by omega)]
      rfl
    · rw [if_neg hlt, decide_eq_false (by omega)]
      rfl
  have hshares : ∑ p ∈ Finset.range L.nParties, (L.indexShare p : Int) ≡
      x - r + c * L.info.tableSize [ZMOD L.info.rModulus] := by
    calc ∑ p ∈ Finset.range L.nParties, (L.indexShare p : Int)
        ≡ ∑ p ∈ Finset.range L.nParties, ((L.locationShare p : Int) - (L.randomTable p).r +
            (L.typeCastShare p * L.info.tableSize : Nat)) [ZMOD L.info.rModulus] := by
          refine sum_modEq fun p _ ↦ ?_
          rw [indexShare, Int.natCast_emod]
          exact (Int.mod_modEq _ _).trans (cast_sub_add p _)
      _ ≡ x - r + c * L.info.tableSize [ZMOD L.info.rModulus] := by
          rw [Finset.sum_add_distrib]
          refine (sum_difference hx hr).add ?_
          push_cast
          rw [← Finset.sum_mul, ← hbit]
          push_cast
          exact (Int.mod_modEq _ _).symm.mul_right _
  have hopened : (L.openedValue : Int) ≡ x - r + c * L.info.tableSize
      [ZMOD L.info.rModulus] := by
    rw [openedValue, Int.natCast_emod]
    push_cast
    exact (Int.mod_modEq _ _).trans hshares
  have hlt : L.openedValue < L.info.rModulus := Nat.mod_lt _ (by omega)
  -- both sides are residues, so they are equal
  unfold Int.ModEq at hopened
  by_cases hxr : x < r
  · rw [if_pos hxr] at hc ⊢
    rw [hc, Int.emod_eq_of_lt (by omega) (by omega),
      Int.emod_eq_of_lt (by push_cast; omega) (by push_cast; omega)] at hopened
    push_cast at hopened
    omega
  · rw [if_neg hxr] at hc ⊢
    rw [hc, Int.emod_eq_of_lt (by omega) (by omega),
      Int.emod_eq_of_lt (by push_cast; omega) (by push_cast; omega)] at hopened
    push_cast at hopened
    omega

/-! ### The shares of the row -/

/-- One byte of a party's final share. -/
theorem computeFinalShare_apply (p revealedValue : Nat) (h : revealedValue < 2 ^ 64)
    (j : Fin L.tableValueByteLength) :
    L.computeFinalShare p revealedValue j = (L.output_p_value_shares p).getD j 0x00 ^^^
      xorOver Finset.univ fun i : Fin L.info.tableSize ↦
        if (L.randomTable p).u i = 1#8 then
          L.tableData ⟨(revealedValue + i) % L.info.tableSize, Nat.mod_lt _ i.pos⟩ j
        else 0#8 := by
  refine Eq.trans ?_ (foldl_xor (fun (i : Fin L.info.tableSize) k ↦
    if (L.randomTable p).u i = 1#8 then
      L.tableData ⟨(revealedValue + i) % L.info.tableSize, Nat.mod_lt _ i.pos⟩ k
    else 0#8) (fun j ↦ (L.output_p_value_shares p).getD j 0x00) j)
  unfold computeFinalShare
  refine congrFun (congrArg (fun body ↦ Fin.foldl L.info.tableSize body _) ?_) j
  funext output i k
  simp only [Nat.mod_eq_of_lt h]
  by_cases hu : (L.randomTable p).u i = 1#8
  · rw [if_pos hu]
    exact congrFun (if_pos hu) k
  · rw [if_neg hu, BitVec.xor_zero]
    exact congrFun (if_neg hu) k

/-- The final shares combine to the row that is the rotation away from the opened value. -/
theorem xorOver_computeFinalShare {r : Fin L.info.tableSize} {draws : Nat → L.info.Draw}
    (hdealer : ∀ p < L.nParties, L.randomTable p = generate L.nParties r draws p)
    (hout : ∀ p < L.nParties, ∀ b ∈ L.output_p_value_shares p, b = 0x00) {revealedValue : Nat}
    (h : revealedValue < 2 ^ 64) (j : Fin L.tableValueByteLength) :
    xorOver (Finset.range L.nParties) (fun p ↦ L.computeFinalShare p revealedValue j) =
      L.tableData ⟨(revealedValue + r) % L.info.tableSize, Nat.mod_lt _ r.pos⟩ j := by
  have hn : 0 < L.nParties := Nat.zero_lt_of_lt L.revealer_lt
  have hshare : ∀ p ∈ Finset.range L.nParties, L.computeFinalShare p revealedValue j =
      xorOver Finset.univ fun i : Fin L.info.tableSize ↦
        if (generate L.nParties r draws p).u i = 1#8 then
          L.tableData ⟨(revealedValue + i) % L.info.tableSize, Nat.mod_lt _ i.pos⟩ j
        else 0#8 := by
    intro p hp
    have hp := Finset.mem_range.mp hp
    have hzero : (L.output_p_value_shares p).getD j 0x00 = 0#8 := by
      rw [List.getD_eq_getElem?_getD]
      cases hget : (L.output_p_value_shares p)[j.val]? with
      | none => rfl
      | some b => exact hout p hp b (List.mem_of_getElem? hget)
    rw [computeFinalShare_apply p _ h, hzero, BitVec.zero_xor, hdealer p hp]
  rw [xorOver_congr hshare, xorOver_comm]
  -- position by position, the shared unit vector selects the row
  have hselect : ∀ i ∈ Finset.univ, (xorOver (Finset.range L.nParties) fun p ↦
      if (generate L.nParties r draws p).u i = 1#8 then
        L.tableData ⟨(revealedValue + i) % L.info.tableSize, Nat.mod_lt _ i.pos⟩ j
      else 0#8) = if i = r then
        L.tableData ⟨(revealedValue + i) % L.info.tableSize, Nat.mod_lt _ i.pos⟩ j
      else 0#8 := by
    intro i _
    rw [(xorOver_select _ fun p _ ↦ generate_bit L.nParties p i).2, xorOver_generate hn i]
    by_cases hi : i = r
    · rw [if_pos hi, if_pos hi, if_pos rfl]
    · rw [if_neg hi, if_neg hi, if_neg (by decide)]
  rw [xorOver_congr hselect, xorOver_eq_single (Finset.mem_univ r) fun i _ hi ↦ if_neg hi,
    if_pos rfl]

end Session

end Safrn.Lookup
