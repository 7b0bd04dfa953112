import Mathlib.Algebra.BigOperators.ModEq
import Safrn.Cuckoo.Matches
import Safrn.Psi.Equality

/-!
# Shares of the sum over the matching cells

The two servers end with additive shares of a sum over the cells: a cell contributes its value
when the shares of its equality say that the cells match, and nothing otherwise.
-/

namespace Safrn.Psi

open Safrn.Base Safrn.Cuckoo

namespace Globals

variable {g : Globals} {A : CuckooTable} {dvMap : Nat → Option Int} {c : Nat}

/-- What a matching cell contributes: nothing when it is empty. -/
def weight (g : Globals) (A : CuckooTable) (dvMap : Nat → Option Int) (c : Nat) : Int :=
  if g.xR A c = NULL_XR then 0
  else
    (dvMap (A.unhash (c / g.subtableSize) (c % g.subtableSize) (g.xR A c))).elim 0
      fun dv ↦ 1 + dv * 2 ^ 32

/-- Every cell that is not empty has its value in the map. -/
def Valued (g : Globals) (A : CuckooTable) (dvMap : Nat → Option Int) : Prop :=
  ∀ c < g.cellCount, g.xR A c ≠ NULL_XR →
    (dvMap (A.unhash (c / g.subtableSize) (c % g.subtableSize) (g.xR A c))).isSome

/-- The two contents of a cell are the opposite of the mask, and the weight less the mask. -/
theorem contents_some (hv : g.Valued A dvMap) (hc : c < g.cellCount) (r : Int) :
    ∃ temp, g.contents A dvMap (c / g.subtableSize) (c % g.subtableSize) r = some temp ∧
      temp.1 ≡ -r [ZMOD g.modulus] ∧ temp.2 ≡ g.weight A dvMap c - r [ZMOD g.modulus] := by
  have hneg : (g.modulus - r : Int) ≡ -r [ZMOD g.modulus] := by
    rw [Int.sub_eq_add_neg]
    exact Int.add_modEq_left
  by_cases hnull : g.xR A c = NULL_XR
  · refine ⟨(g.modulus - r, g.modulus - r), if_pos hnull, hneg, ?_⟩
    rwa [weight, if_pos hnull, zero_sub]
  · obtain ⟨dv, hdv⟩ := Option.isSome_iff_exists.mp (hv c hc hnull)
    refine ⟨(g.modulus - r, 1 + dv * 2 ^ 32 - r), ?_, hneg, ?_⟩
    · rw [contents]
      refine (if_neg hnull).trans ?_
      exact congrArg _ hdv
    · rw [weight, if_neg hnull, hdv]
      exact Int.ModEq.refl _

variable {ot : OtCell Int} {PSIShare_S PSIShare_U y : Nat → Nat} {maskedv : Nat → Int}
  {temp : Nat → Int × Int}

/-- With the mask taken off and the transfer's value taken out, a cell leaves its weight when
the shares of its equality differ. -/
private theorem cell_share (same : Bool) {w r : Int}
    (hu : ot.u c = ot.s c (ot.b c)) (h₁ : (temp c).1 ≡ -r [ZMOD g.modulus])
    (h₂ : (temp c).2 ≡ w - r [ZMOD g.modulus]) (hS : PSIShare_S c < 2)
    (hU : PSIShare_U c = PSIShare_S c ^^^ same.toNat) (hy : y c = ot.b c ^^^ PSIShare_U c)
    (hv : ∀ k < 2, maskedv (c * 2 + k) =
      (exchanged PSIShare_S temp c k + ot.s c (k ^^^ y c)) % g.modulus) :
    r + (maskedv (c * 2 + PSIShare_U c) - ot.u c) ≡
      (if same then w else 0) [ZMOD g.modulus] := by
  have hU2 : PSIShare_U c < 2 := hU ▸ xor_lt_two hS (Bool.toNat_lt same)
  have hpick : exchanged PSIShare_S temp c (PSIShare_U c) =
      if same then (temp c).2 else (temp c).1 := by
    rw [exchanged, hU]
    generalize PSIShare_S c = p at hS
    interval_cases p <;> cases same <;> rfl
  have hval : maskedv (c * 2 + PSIShare_U c) =
      ((if same then (temp c).2 else (temp c).1) + ot.u c) % g.modulus := by
    rw [hv _ hU2, hpick, hy, Nat.xor_comm (ot.b c), Nat.xor_xor_cancel_left, hu]
  rw [hval]
  have hmod : ((if same then (temp c).2 else (temp c).1) + ot.u c) % (g.modulus : Int) ≡
      (if same then (temp c).2 else (temp c).1) + ot.u c [ZMOD g.modulus] := Int.mod_modEq _ _
  have hsum : r + (((if same then (temp c).2 else (temp c).1) + ot.u c) - ot.u c) =
      r + if same then (temp c).2 else (temp c).1 := by ring
  refine ((hmod.sub_right _).add_left r).trans ?_
  rw [hsum]
  cases same with
  | true => simpa using h₂.add_left r
  | false => simpa using h₁.add_left r

/-- The residues of a valid material. -/
def IsResidue (g : Globals) (v : Int) : Prop := 0 ≤ v ∧ v < g.modulus

theorem emod_isResidue (g : Globals) (v : Int) : g.IsResidue (v % g.modulus) := by
  have hpos : (0 : Int) < g.modulus := Int.natCast_pos.mpr g.modulus_pos
  exact ⟨Int.emod_nonneg _ (Int.ne_of_gt hpos), Int.emod_lt_of_pos _ hpos⟩

/-- Masking succeeds, and the sum of the masks and what the other server takes out of the masked
values is the sum of the weights of the matching cells. -/
theorem mask_unmask {B : CuckooTable} (hv : g.Valued A dvMap)
    (hot : ot.Dealt g.cellCount g.IsResidue) (hS : ∀ c < g.cellCount, PSIShare_S c < 2)
    (hU : ∀ c < g.cellCount, PSIShare_U c =
      PSIShare_S c ^^^ (if g.xR A c = g.xR B c then 1 else 0))
    (hy : ∀ c < g.cellCount, y c = g.yselbits PSIShare_U ot.b c) (r : Nat → Int) :
    ∃ m, g.mask A dvMap PSIShare_S y ot.s r = some m ∧
      (∀ n < g.cellCount * 2, g.IsResidue (m.maskedv n)) ∧
      ∀ maskedv : Nat → Int, (∀ n < g.cellCount * 2, maskedv n = m.maskedv n) →
        m.out_S + g.unmask PSIShare_U maskedv ot.u ≡
          ∑ c ∈ Finset.range g.cellCount,
            (if g.xR A c = g.xR B c then g.weight A dvMap c else 0) [ZMOD g.modulus] := by
  have htemp : ∀ c, ∃ temp, c < g.cellCount →
      g.contents A dvMap (c / g.subtableSize) (c % g.subtableSize) (r c) = some temp ∧
        temp.1 ≡ -r c [ZMOD g.modulus] ∧ temp.2 ≡ g.weight A dvMap c - r c [ZMOD g.modulus] := by
    intro c
    by_cases hc : c < g.cellCount
    · obtain ⟨temp, h⟩ := contents_some hv hc (r c)
      exact ⟨temp, fun _ ↦ h⟩
    · exact ⟨(0, 0), fun h ↦ absurd h hc⟩
  choose temp htemp using htemp
  obtain ⟨m, hm, hval, hout⟩ := mask_ok PSIShare_S y ot.s fun c hc ↦ (htemp c hc).1
  refine ⟨m, hm, fun n hn ↦ ?_, fun maskedv heq ↦ ?_⟩
  · have hn2 : n = n / 2 * 2 + n % 2 := (Nat.div_add_mod' n 2).symm
    rw [hn2, hval _ (by omega) _ (Nat.mod_lt _ (by decide))]
    exact g.emod_isResidue _
  · rw [hout, unmask_eq, ← Finset.sum_add_distrib]
    refine Int.ModEq.sum fun c hc ↦ ?_
    have hc := Finset.mem_range.mp hc
    have hU' : PSIShare_U c = PSIShare_S c ^^^ (decide (g.xR A c = g.xR B c)).toNat := by
      rw [hU c hc]
      by_cases h : g.xR A c = g.xR B c <;> simp [h]
    have hy' : y c = ot.b c ^^^ PSIShare_U c := by rw [hy c hc, yselbits_get hc]
    have hval' : ∀ k < 2, maskedv (c * 2 + k) =
        (exchanged PSIShare_S temp c k + ot.s c (k ^^^ y c)) % g.modulus := fun k hk ↦ by
      rw [heq _ (by omega), hval c hc k hk]
    have hshare := cell_share (decide (g.xR A c = g.xR B c)) (hot.selected c hc)
      (htemp c hc).2.1 (htemp c hc).2.2 (hS c hc) hU' hy' hval'
    simpa using hshare

end Globals
end Safrn.Psi
