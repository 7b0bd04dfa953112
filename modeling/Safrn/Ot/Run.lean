import Safrn.Ot.Invariant

/-!
# Sequences of operations on a dealer's cell

From what one operation changes to every run: a dealer's cell stays consistent, and each
operation leaves the transfers outside its range alone, in every run that never starts an
empty `randomize` at the first byte of a buffer. On the smallest cell such a call, at offset 0,
redraws the bits of eight transfers and leaves their selected values behind.
-/

namespace Safrn.Ot

open Safrn.Base Safrn.Java BlobOtCell

/-- An operation with its arguments; for `randomize` also what the generator delivers. -/
inductive OtOp
  | randomize (freshB freshS : Nat → Nat → UInt8) (otOffset otLength : Int)
  | setBValue (otIndex value : Int)
  | setSValue (otIndex pairIndex : Int) (value : Option (List UInt8)) (valueOffset : Int)
  | setUValue (otIndex : Int) (value : Option (List UInt8)) (valueOffset : Int)

namespace OtOp

/-- The operation as a step of a cell. -/
def run : OtOp → CellM Unit
  | randomize freshB freshS otOffset otLength => Ot.randomize freshB freshS otOffset otLength
  | setBValue otIndex value => Ot.setBValue otIndex value
  | setSValue otIndex pairIndex value valueOffset =>
    Ot.setSValue otIndex pairIndex value valueOffset
  | setUValue otIndex value valueOffset => Ot.setUValue otIndex value valueOffset

/-- The cell after the operation, whether it returned or threw. -/
def exec (op : OtOp) (c : BlobOtCell) : BlobOtCell := finalState (op.run c)

/-- The transfers in the operation's range. -/
def Touches : OtOp → Nat → Prop
  | randomize _ _ otOffset otLength, i => otOffset ≤ i ∧ (i : Int) < otOffset + otLength
  | setBValue otIndex _, i => otIndex = i
  | setSValue otIndex _ _ _, i => otIndex = i
  | setUValue otIndex _ _, i => otIndex = i

end OtOp

namespace BlobOtCell

/-- Every buffer has a byte: no array of the cell is an exact multiple of what its buffers
hold, for which the constructor makes the last buffer empty. -/
def NoEmptyBuffer (c : BlobOtCell) : Prop :=
  0 ∉ c.b.capacity ∧ 0 ∉ c.s.capacity ∧ 0 ∉ c.u.capacity

/-- The operation is not an accepted `randomize` of length 0 that starts at the first byte of
a buffer of `b` or of `s`. -/
def Regular (c : BlobOtCell) (op : OtOp) : Prop :=
  c.NoEmptyBuffer ∧ ∀ freshB freshS otOffset, op = .randomize freshB freshS otOffset 0 →
    randomizeCheck otOffset 0 c = none →
      ¬ StartsBuffer c.b (otOffset / 8).toNat ∧
        ¬ StartsBuffer c.s (otOffset * 2 * c.blobSize).toNat

end BlobOtCell

/-- A dealer's cell from its construction on, under any operations. -/
def dealer : Machine BlobOtCell OtOp where
  init c := ∃ otCount blobSize, newDealer otCount blobSize = .ok c
  step c op c' := c' = op.exec c

/-! ### The constructor -/

/-- Allocated buffers are zero; when none is empty they lay out their bytes. -/
theorem allocate_ok {n per : Nat} {B : ByteBuffers} (h : allocate n per = .ok B) :
    (∀ p, B.flat p = 0) ∧ (0 ∉ B.capacity → 0 < per → B.Layout n) ∧
      ∀ d, d ∣ n → d ∣ per → d ∣ B.chunk := by
  rw [allocate] at h
  generalize hk : n / per + (if n % per = 0 then 0 else 1) = k at h
  split at h
  · cases h
  split at h
  · cases h
  next hk0 =>
  obtain rfl := Except.ok.inj h
  refine ⟨fun _ ↦ rfl, fun h0 hper ↦ ?_, fun d hd hdper ↦ ?_⟩
  · have hrest : 0 < n % per := by
      rcases Nat.eq_zero_or_pos (n % per) with hz | hp
      · exact absurd (List.mem_append_right _ (by rw [hz]; exact List.mem_singleton_self 0)) h0
      · exact hp
    rw [if_neg (by omega)] at hk
    have hlay := SplitBuffer.layout_of_capacity (k := n / per) hrest (Nat.mod_lt n hper)
      (B := ⟨List.replicate (k - 1) per ++ [n % per], fun _ _ ↦ (0 : UInt8)⟩)
      (by rw [← hk, Nat.add_sub_cancel])
    rwa [Nat.mul_comm, Nat.div_add_mod] at hlay
  · rw [SplitBuffer.chunk]
    cases hk1 : k - 1 with
    | zero => exact (Nat.dvd_mod_iff hdper).mpr hd
    | succ k' => exact hdper

/-- A constructed cell is consistent, and sound when none of its buffers is empty. -/
theorem newDealer_ok {otCount blobSize : Int} {c : BlobOtCell}
    (h : newDealer otCount blobSize = .ok c) :
    c.Consistent ∧ (c.NoEmptyBuffer → c.Sound) := by
  rw [newDealer] at h
  dsimp only at h
  split at h
  · cases h
  split at h
  · cases h
  split at h
  · cases h
  next hn hz hz0 =>
  generalize otCount.toNat = n at h
  have hsize : 0 < blobSize.toNat := by omega
  generalize blobSize.toNat = size at h hsize
  split at h
  · cases h
  next b hb =>
  split at h
  · cases h
  next hlim =>
  split at h
  · cases h
  · cases h
  next s u hs hu =>
  obtain rfl := Except.ok.inj h
  obtain ⟨-, hbl, -⟩ := allocate_ok hb
  obtain ⟨hs0, hsl, hsd⟩ := allocate_ok hs
  obtain ⟨hu0, hul, hud⟩ := allocate_ok hu
  have hdvd : size ∣ 2 * size := Nat.dvd_mul_left size 2
  refine ⟨fun i _ k _ ↦ (hu0 _).trans (hs0 _).symm, fun ⟨hb1, hs1, hu1⟩ ↦ ?_⟩
  exact {
    dealer := rfl
    isOpen := rfl
    blobSize_pos := hsize
    b := hbl hb1 (by decide)
    s := hsl hs1 (Nat.mul_pos (Nat.div_pos (by omega) (by omega)) (by omega))
    u := hul hu1 (Nat.mul_pos (Nat.div_pos (by omega) hsize) hsize)
    s_dvd := hsd size (Nat.dvd_mul_left_of_dvd hdvd n)
      (Nat.dvd_mul_left_of_dvd hdvd (intMax / (2 * size)))
    u_dvd := hud size (Nat.dvd_mul_left size n) (Nat.dvd_mul_left size _) }

/-! ### One operation -/

variable {c : BlobOtCell}

/-- What the checks on a pair index accept. -/
theorem pairCheck_none {pairIndex : Int} (h : pairCheck pairIndex c = none) :
    ∃ v : Nat, pairIndex = v ∧ v < 2 := by
  rw [pairCheck] at h
  split at h
  · cases h
  split at h
  · cases h
  obtain ⟨v, rfl⟩ := Int.eq_ofNat_of_zero_le (show 0 ≤ pairIndex by omega)
  exact ⟨v, rfl, by omega⟩

/-- An operation that throws before it writes changes nothing. -/
theorem Changes.of_throw {op : OtOp} {e : Status} (h : op.run c = .error e c) :
    Changes op.Touches c (op.exec c) := by
  rw [OtOp.exec, h]
  exact .refl _ c

/-- An operation that returns changes what its specification says. -/
theorem Changes.of_return {op : OtOp} {c' : BlobOtCell} (h : op.run c = .ok () c')
    {R : Nat → Prop} (hch : Changes R c c') (hR : ∀ j, op.Touches j ↔ R j) :
    Changes op.Touches c (op.exec c) := by
  rw [OtOp.exec, h]
  exact ⟨hch.storage, fun j hj hn ↦ hch.frame j hj fun h ↦ hn ((hR j).mpr h),
    fun hcons j hj ht ↦ hch.fixed hcons j hj ((hR j).mp ht)⟩

/-- A regular operation changes only the transfers in its range. -/
theorem exec_changes (hc : c.Sound) {op : OtOp} (hr : c.Regular op) :
    Changes op.Touches c (op.exec c) := by
  cases op with
  | randomize freshB freshS otOffset otLength =>
    cases hchk : randomizeCheck otOffset otLength c with
    | some e =>
      exact .of_throw (by rw [OtOp.run, randomize, bind_error (check_error hchk)])
    | none =>
      obtain ⟨o, l, rfl, rfl, hol, ho8, hl8⟩ := randomizeCheck_none hchk
      by_cases hl0 : l = 0
      · subst hl0
        obtain ⟨hb, hs⟩ := hr.2 freshB freshS o rfl hchk
        have hrun : OtOp.exec (.randomize freshB freshS o 0) c = c := by
          refine randomize_empty hc freshB freshS hchk ho8 ?_ ?_
          · rwa [show ((o : Int) / 8).toNat = o / 8 by omega] at hb
          · rwa [show ((o : Int) * 2 * c.blobSize).toNat = o * 2 * c.blobSize by
              rw [show (o : Int) * 2 * c.blobSize = ((o * 2 * c.blobSize : Nat) : Int) by
                push_cast; rfl, Int.toNat_natCast]] at hs
        rw [show ((0 : Nat) : Int) = 0 from rfl, hrun]
        exact .refl _ c
      · obtain ⟨c', hc', hch⟩ := randomize_changes hc freshB freshS hchk hl0 hol ho8 hl8
        exact .of_return hc' hch fun j ↦ by simp only [OtOp.Touches]; omega
  | setBValue otIndex value =>
    cases hchk : indexCheck .SENDER "this.party == BlobOtCell.SENDER" otIndex c with
    | some e =>
      exact .of_throw (by rw [OtOp.run, setBValue, bind_error (check_error hchk)])
    | none =>
      obtain ⟨i, rfl, hi⟩ := indexCheck_none hchk
      obtain ⟨c', hc', hch⟩ := setBValue_changes hc hi value
      exact .of_return hc' hch fun j ↦ by simp only [OtOp.Touches]; omega
  | setSValue otIndex pairIndex value valueOffset =>
    cases hchk : indexCheck .RECEIVER "this.party == BlobOtCell.RECEIVER" otIndex c with
    | some e =>
      exact .of_throw (by rw [OtOp.run, setSValue, bind_error (check_error hchk)])
    | none =>
      cases hpair : pairCheck pairIndex c with
      | some e =>
        exact .of_throw (by
          rw [OtOp.run, setSValue, bind_ok (check_ok hchk), bind_error (check_error hpair)])
      | none =>
        cases hval : valueCheck value valueOffset c with
        | some e =>
          exact .of_throw (by
            rw [OtOp.run, setSValue, bind_ok (check_ok hchk), bind_ok (check_ok hpair),
              bind_error (check_error hval)])
        | none =>
          obtain ⟨i, rfl, hi⟩ := indexCheck_none hchk
          obtain ⟨v, rfl, hv⟩ := pairCheck_none hpair
          obtain ⟨c', hc', hch⟩ := setSValue_changes hc hi hv hval
          exact .of_return hc' hch fun j ↦ by simp only [OtOp.Touches]; omega
  | setUValue otIndex value valueOffset =>
    cases hchk : indexCheck .SENDER "this.party == BlobOtCell.SENDER" otIndex c with
    | some e =>
      exact .of_throw (by rw [OtOp.run, setUValue, bind_error (check_error hchk)])
    | none =>
      cases hval : valueCheck value valueOffset c with
      | some e =>
        exact .of_throw (by
          rw [OtOp.run, setUValue, bind_ok (check_ok hchk), bind_error (check_error hval)])
      | none =>
        obtain ⟨i, rfl, hi⟩ := indexCheck_none hchk
        obtain ⟨c', hc', hch⟩ := setUValue_changes hc hi hval
        exact .of_return hc' hch fun j ↦ by simp only [OtOp.Touches]; omega

/-! ### Every run -/

/-- In every run of regular operations the cell is consistent, and each regular operation
leaves the transfers outside its range as they are. -/
theorem dealer_invariant {c : BlobOtCell} (h : (dealer.restrict Regular).Reachable c) :
    c.Consistent ∧ ∀ op, c.Regular op → ∀ i < c.otCount, ¬ op.Touches i →
      c.SameAt (op.exec c) i := by
  have hinv : c.Consistent ∧ (c.NoEmptyBuffer → c.Sound) := by
    refine h.invariant (P := fun c ↦ c.Consistent ∧ (c.NoEmptyBuffer → c.Sound)) ?_ ?_
    · rintro c ⟨otCount, blobSize, hnew⟩
      exact newDealer_ok hnew
    · rintro c op c' ⟨hcons, hsound⟩ ⟨rfl, hreg⟩
      have hch := exec_changes (hsound hreg.1) hreg
      exact ⟨hch.consistent hcons, fun _ ↦ hch.sound (hsound hreg.1)⟩
  refine ⟨hinv.1, fun op hreg i hi hn ↦ ?_⟩
  exact (exec_changes (hinv.2 hreg.1) hreg).frame i hi hn

/-- A dealer's cell of eight transfers of one byte, as constructed. -/
def smallCell : BlobOtCell :=
  ⟨.DEALER, 8, 1, false, ⟨[1], fun _ _ ↦ 0⟩, ⟨[16], fun _ _ ↦ 0⟩, ⟨[8], fun _ _ ↦ 0⟩⟩

/-- Draw all bits as zero and all pairs as their positions. -/
def drawAll : OtOp := .randomize (fun _ _ ↦ 0) (fun _ j ↦ UInt8.ofNat j) 0 8

/-- Draw bits of no transfer from offset 0 on; the generator delivers ones. -/
def drawNone : OtOp := .randomize (fun _ _ ↦ 255) (fun _ _ ↦ 0) 0 0

/-- The constructor makes the small cell. -/
theorem newDealer_smallCell : newDealer 8 1 = .ok smallCell := by
  simp [newDealer, allocate, intMax, smallCell]

/-- The invariant after drawing all transfers of the small cell. -/
theorem dealer_invariant_drawAll :
    (drawAll.exec smallCell).Consistent ∧ ∀ op, (drawAll.exec smallCell).Regular op →
      ∀ i < (drawAll.exec smallCell).otCount, ¬ op.Touches i →
        (drawAll.exec smallCell).SameAt (op.exec (drawAll.exec smallCell)) i := by
  have hreg : smallCell.Regular drawAll := by
    refine ⟨by simp [NoEmptyBuffer, smallCell], fun freshB freshS otOffset h ↦ ?_⟩
    simp [drawAll] at h
  exact dealer_invariant
    ⟨smallCell, [drawAll], ⟨8, 1, newDealer_smallCell⟩, .cons ⟨rfl, hreg⟩ (.nil _)⟩

/-- Drawing no transfer from offset 0 on redraws the bits of the first eight transfers: they
change, and the selected values are not the ones they select. -/
theorem drawNone_not_invariant :
    ∃ c, dealer.Reachable c ∧ ¬ (drawNone.exec c).Consistent ∧ ¬ drawNone.Touches 0 ∧
      ¬ c.SameAt (drawNone.exec c) 0 := by
  refine ⟨drawAll.exec smallCell,
    ⟨smallCell, [drawAll], ⟨8, 1, newDealer_smallCell⟩, .cons rfl (.nil _)⟩, ?_⟩
  have hu : (drawNone.exec (drawAll.exec smallCell)).uByte 0 0 = 0 := by decide +kernel
  have hs : (drawNone.exec (drawAll.exec smallCell)).sByte 0 1 0 = 1 := by decide +kernel
  have hb : (drawNone.exec (drawAll.exec smallCell)).bit 0 = 1 := by decide +kernel
  have hb₀ : (drawAll.exec smallCell).bit 0 = 0 := by decide +kernel
  refine ⟨fun h ↦ ?_, fun h ↦ ?_, fun h ↦ ?_⟩
  · have h₀ := h 0 (by decide +kernel) 0 (by decide +kernel)
    rw [hu, hb, hs] at h₀
    exact absurd h₀ (by decide)
  · exact absurd h.2 (by decide)
  · exact absurd (hb.symm.trans (h.1.trans hb₀)) (by decide)

end Safrn.Ot
