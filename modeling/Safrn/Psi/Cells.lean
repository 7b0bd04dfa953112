import Mathlib.Algebra.BigOperators.Ring.Finset
import Mathlib.Algebra.BigOperators.Intervals
import Mathlib.Tactic.Ring
import Safrn.Psi.Loops

/-!
# What the loops leave in their arrays

One equation for each array: its element at the index that the loop writes for a cell, a bit and
a choice. Each loop fills one block per cell, so the equations hold for all cells at once.
-/

namespace Safrn.Psi

open Safrn.Base Safrn.Cuckoo

theorem bit_lt (x k : Nat) : bit x k < 2 := by
  rw [bit, Nat.and_one_is_mod]
  exact Nat.mod_lt _ (by decide)

namespace Globals

variable {g : Globals} {table : CuckooTable} {b u selbits C_U C_S csendsec sendsec : Nat → Nat}
  {s : Nat → Nat → Nat} {c : Nat}

/-- The content of a cell. -/
def xR (g : Globals) (table : CuckooTable) (c : Nat) : Nat :=
  table.subtables (c / g.subtableSize) (c % g.subtableSize)

/-- The indices of the source name the cell. -/
theorem cell_index (g : Globals) (c : Nat) :
    c / g.subtableSize * g.subtableSize + c % g.subtableSize = c := div_mul_add_mod _ _

theorem selectionBits_get {width : Nat} {value : Nat → Nat → Nat} (hc : c < g.cellCount)
    {k : Nat} (hk : k < width) :
    g.selectionBits width value b (c * width + k) =
      b (c * width + k) ^^^ bit (value (c / g.subtableSize) (c % g.subtableSize)) k := by
  refine forGrid_get (fun a ↦ a) (g := fun c k ↦ b (c * width + k) ^^^
    bit (value (c / g.subtableSize) (c % g.subtableSize)) k) (fun c _ t _ ↦ ?_) hc hk
  refine fills_forRange_update (fun a ↦ a) fun k _ t _ ↦ ?_
  rw [g.cell_index]

theorem selbits_get (hc : c < g.cellCount) {k : Nat} (hk : k < g.rightBits) :
    g.selbits table b (c * g.rightBits + k) =
      b (c * g.rightBits + k) ^^^ bit (g.xR table c) k := selectionBits_get hc hk

theorem cselbits_get (hc : c < g.cellCount) {k : Nat} (hk : k < 5) :
    g.cselbits C_U b (c * 5 + k) = b (c * 5 + k) ^^^ bit (C_U c) k := by
  rw [cselbits, selectionBits_get hc hk, g.cell_index]

/-! ## `I_G_M_YI_1` -/

/-- The random summand of one bit. -/
def mask5 (aBytes : Nat → Nat → UInt8) (c k : Nat) : Nat := (aBytes c k).toNat &&& 0x1F

/-- The value at choice `p` of bit `k`. -/
def hidden (g : Globals) (table : CuckooTable) (aBytes : Nat → Nat → UInt8) (s : Nat → Nat → Nat)
    (selbits : Nat → Nat) (c k p : Nat) : Nat :=
  (mask5 aBytes c k + (p ^^^ bit (g.xR table c) k) +
    s (c * g.rightBits + k) (p ^^^ selbits (c * g.rightBits + k))) % 32

private theorem blindBit_fills (aBytes : Nat → Nat → UInt8) (s : Nat → Nat → Nat)
    (selbits : Nat → Nat) (st : (Nat → Nat) × Nat) :
    Fills st.1 (forRange (g.blindBit (g.xR table c) (aBytes c) s selbits c) g.rightBits st).1
      (c * (g.rightBits * 2)) (g.rightBits * 2) fun q ↦
        g.hidden table aBytes s selbits c (q / 2) (q % 2) := by
  refine fills_forRange Prod.fst (g := g.hidden table aBytes s selbits c) fun k _ t _ ↦ ?_
  have hlo : c * (g.rightBits * 2) + k * 2 = (c * g.rightBits + k) * 2 := by ring
  rw [hlo]
  exact fills_forRange_update (fun a ↦ a) fun p _ t _ ↦ rfl

private theorem blindBit_sum (xR : Nat) (aBytes : Nat → UInt8) (s : Nat → Nat → Nat)
    (selbits sendsec : Nat → Nat) (n : Nat) :
    (forRange (g.blindBit xR aBytes s selbits c) n (sendsec, 0)).2 =
      (∑ k ∈ Finset.range n, ((aBytes k).toNat &&& 0x1F)) % 32 := by
  induction n with
  | zero => rfl
  | succ n ih =>
    rw [forRange, Finset.sum_range_succ, ← Nat.mod_add_mod, ← ih]
    rfl

/-- The two values that hide bit `k` of a cell under the transfer's pair. -/
theorem blind_sendsec {aBytes : Nat → Nat → UInt8} (hc : c < g.cellCount) {k p : Nat}
    (hk : k < g.rightBits) (hp : p < 2) :
    (g.blind table aBytes s selbits).sendsec ((c * g.rightBits + k) * 2 + p) =
      g.hidden table aBytes s selbits c k p := by
  have hidx : (c * g.rightBits + k) * 2 + p = c * (g.rightBits * 2) + (k * 2 + p) := by ring
  have hdiv : (k * 2 + p) / 2 = k := by omega
  have hmod : (k * 2 + p) % 2 = p := by omega
  have hget : (g.blind table aBytes s selbits).sendsec (c * (g.rightBits * 2) + (k * 2 + p)) =
      g.hidden table aBytes s selbits c ((k * 2 + p) / 2) ((k * 2 + p) % 2) := by
    refine forGrid_get Blinded.sendsec
      (g := fun c q ↦ g.hidden table aBytes s selbits c (q / 2) (q % 2)) (fun c _ t _ ↦ ?_) hc
      (by omega)
    dsimp only
    rw [g.cell_index]
    exact blindBit_fills aBytes s selbits (t.sendsec, 0)
  rw [hidx, hget, hdiv, hmod]

/-- `C_S` is the sum of the cell's random summands. -/
theorem blind_C_S {aBytes : Nat → Nat → UInt8} (hc : c < g.cellCount) :
    (g.blind table aBytes s selbits).C_S c =
      (∑ k ∈ Finset.range g.rightBits, mask5 aBytes c k) % 32 := by
  refine forGrid_update_get Blinded.C_S (g := fun c ↦
    (∑ k ∈ Finset.range g.rightBits, mask5 aBytes c k) % 32) (fun c _ t ↦ ?_) hc
  dsimp only
  rw [g.cell_index, blindBit_sum]
  rfl

/-! ## `G_I_M_YI_2` -/

/-- `C_U` sums up what remains of the chosen values without the transfer's values. -/
theorem unblind_get {w : Nat → Nat} (hc : c < g.cellCount)
    (h : ∀ k < g.rightBits, u (c * g.rightBits + k) < 32 ∧
      sendsec ((c * g.rightBits + k) * 2 + bit (g.xR table c) k) =
        (w k + u (c * g.rightBits + k)) % 32) :
    g.unblind table sendsec u c = (∑ k ∈ Finset.range g.rightBits, w k) % 32 := by
  let round (sum : Int) (k : Nat) : Int :=
    (sum + sendsec ((c * g.rightBits + k) * 2 + bit (g.xR table c) k) -
      u (c * g.rightBits + k) + 32).tmod 32
  have hget : g.unblind table sendsec u c = (forRange round g.rightBits 0).toNat := by
    refine forGrid_update_get (fun a ↦ a) (g := fun c ↦ (forRange (fun (sum : Int) k ↦
      (sum + sendsec ((c * g.rightBits + k) * 2 + bit (g.xR table c) k) -
        u (c * g.rightBits + k) + 32).tmod 32) g.rightBits 0).toNat) (fun c _ t ↦ ?_) hc
    dsimp only
    rw [g.cell_index]
    rfl
  have hsum : forRange round g.rightBits 0 =
      ((∑ k ∈ Finset.range g.rightBits, w k) % 32 : Nat) := by
    refine forRange_invariant
      (fun n (sum : Int) ↦ sum = ((∑ k ∈ Finset.range n, w k) % 32 : Nat)) rfl ?_
    rintro k hk _ rfl
    obtain ⟨hu, hval⟩ := h k hk
    dsimp only [round]
    rw [hval, Finset.sum_range_succ, Int.tmod_eq_emod_of_nonneg (by omega)]
    omega
  rw [hget, hsum, Int.toNat_natCast]

/-! ## `I_G_M_YI_2` and `G_I_M_YI_3` -/

/-- Each choice gets the label of the choice's bit, under the transfer's blob. -/
theorem maskLabels_get {cs : Nat → Nat} (hc : c < g.cellCount) {k p : Nat} (hk : k < 5)
    (hp : p < 2) :
    g.maskLabels C_S cs s csendsec ((c * 5 + k) * 2 + p) =
      (csendsec ((c * 5 + k) * 2 + ((1 - p) ^^^ bit (C_S c) k)) ^^^
        s (c * 5 + k) (p ^^^ cs (c * 5 + k))) % 256 := by
  let label (c k p : Nat) : Nat :=
    (csendsec ((c * 5 + k) * 2 + ((1 - p) ^^^ bit (C_S c) k)) ^^^
      s (c * 5 + k) (p ^^^ cs (c * 5 + k))) % 256
  have hidx : (c * 5 + k) * 2 + p = c * (5 * 2) + (k * 2 + p) := by ring
  have hdiv : (k * 2 + p) / 2 = k := by omega
  have hmod : (k * 2 + p) % 2 = p := by omega
  have hget : g.maskLabels C_S cs s csendsec (c * (5 * 2) + (k * 2 + p)) =
      label c ((k * 2 + p) / 2) ((k * 2 + p) % 2) := by
    refine forGrid_get (fun a ↦ a) (g := fun c q ↦ label c (q / 2) (q % 2))
      (fun c _ t ht ↦ ?_) hc (by omega)
    dsimp only
    rw [g.cell_index]
    refine fills_forRange (fun a ↦ a) (g := label c) fun k _ t' ht' ↦ ?_
    have hlo : c * (5 * 2) + k * 2 = (c * 5 + k) * 2 := by ring
    have hstuff : ∀ q, (c * 5 + k) * 2 ≤ q → t' q = csendsec q := fun q hq ↦
      (ht' q (hlo ▸ hq)).trans (ht q (by omega))
    rw [hlo]
    refine fills_forRange_update (fun a ↦ a) fun p hp t'' _ ↦ ?_
    rw [hstuff _ (Nat.le_add_right _ _)]
  rw [hidx, hget, hdiv, hmod]

theorem insec_get (insec : Nat → Nat) (hc : c < g.cellCount) {k : Nat} (hk : k < 5) :
    g.insec C_U csendsec u insec (c * 5 + k) =
      (csendsec ((c * 5 + k) * 2 + bit (C_U c) k) ^^^ u (c * 5 + k)) % 256 := by
  refine forGrid_get (fun a ↦ a) (g := fun c k ↦
    (csendsec ((c * 5 + k) * 2 + bit (C_U c) k) ^^^ u (c * 5 + k)) % 256)
    (fun c _ t _ ↦ ?_) hc hk
  refine fills_forRange_update (fun a ↦ a) fun k _ t _ ↦ ?_
  rw [g.cell_index]

theorem yselbits_get {PSIShare_U : Nat → Nat} (hc : c < g.cellCount) :
    g.yselbits PSIShare_U b c = b c ^^^ PSIShare_U c := by
  refine forGrid_update_get (fun a ↦ a) (g := fun c ↦ b c ^^^ PSIShare_U c) (fun c _ t ↦ ?_) hc
  dsimp only
  rw [g.cell_index]

/-! ## `I_G_M_YI_3` and `G_I_M_YI_4` -/

/-- The two contents of a cell, in the order that the share of its equality asks for. -/
def exchanged (PSIShare_S : Nat → Nat) (temp : Nat → Int × Int) (c k : Nat) : Int :=
  let temp := if PSIShare_S c = 1 then (temp c).swap else temp c
  if k = 0 then temp.1 else temp.2

/-- When every occupied cell has its value, the loop masks both contents of each cell and adds
up the masks. -/
theorem mask_ok (PSIShare_S yselbits : Nat → Nat) (s : Nat → Nat → Int)
    {dvMap : Nat → Option Int} {r : Nat → Int} {temp : Nat → Int × Int}
    (h : ∀ c < g.cellCount, g.contents table dvMap (c / g.subtableSize) (c % g.subtableSize)
      (r c) = some (temp c)) :
    ∃ m, g.mask table dvMap PSIShare_S yselbits s r = some m ∧
      (∀ c < g.cellCount, ∀ k < 2, m.maskedv (c * 2 + k) =
        (exchanged PSIShare_S temp c k + s c (k ^^^ yselbits c)) % g.modulus) ∧
      m.out_S = ∑ c ∈ Finset.range g.cellCount, r c := by
  let value (c k : Nat) : Int :=
    (exchanged PSIShare_S temp c k + s c (k ^^^ yselbits c)) % g.modulus
  let round (st : Masked) (c : Nat) : Masked := {
    maskedv := forRange (fun maskedv k ↦ Function.update maskedv (c * 2 + k) (value c k)) 2
      st.maskedv
    out_S := st.out_S + r c }
  let st₀ : Masked := { maskedv := fun _ ↦ 0, out_S := 0 }
  have hrun : g.mask table dvMap PSIShare_S yselbits s r =
      some (forRange round g.cellCount st₀) := by
    rw [mask, forGridM_eq]
    refine forRangeM_eq_some (fun st c hc ↦ ?_) st₀
    dsimp only
    rw [g.cell_index, h c hc]
    rfl
  refine ⟨_, hrun, fun c hc k hk ↦ ?_, ?_⟩
  · have hf : Fills st₀.maskedv (forRange round g.cellCount st₀).maskedv 0 (g.cellCount * 2)
        fun q ↦ value (q / 2) (q % 2) := by
      refine fills_forRange Masked.maskedv fun c _ t _ ↦ ?_
      rw [Nat.zero_add]
      exact fills_forRange_update (fun a ↦ a) fun k _ t _ ↦ rfl
    exact hf.get hc hk
  · rw [← forRange_add_eq_sum]
    refine forRange_invariant (fun n (st : Masked) ↦ st.out_S = forRange (fun sum k ↦ sum + r k)
      n 0) rfl fun c _ t ht ↦ ?_
    show t.out_S + r c = _
    rw [ht, forRange]

theorem unmask_eq (PSIShare_U : Nat → Nat) (maskedv u : Nat → Int) :
    g.unmask PSIShare_U maskedv u =
      ∑ c ∈ Finset.range g.cellCount, (maskedv (c * 2 + PSIShare_U c) - u c) := by
  rw [unmask, forGrid_eq, ← forRange_add_eq_sum]
  refine forRange_congr (fun out c _ ↦ ?_) _
  dsimp only
  rw [g.cell_index]

end Globals
end Safrn.Psi
