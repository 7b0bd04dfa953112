import Safrn.Ot.Buffers
import Safrn.Base.BitField
import Safrn.Base.Machine

/-!
# The dealer's invariant

On a dealer's cell each `u` value is the `s` value that the bit selects. Every operation is
specified by the bits and bytes of each transfer that it changes; the invariant and the frame
of a run follow. A `randomize` of length 0 whose offset starts a buffer is left out: there
`(otOffset + otLength - 1) / 8` rounds to the byte at the offset, or precedes its buffer.
-/

namespace Safrn.Ot

open Safrn.Base Safrn.Java

namespace BlobOtCell

/-- The bit of transfer `i`. -/
def bit (c : BlobOtCell) (i : Nat) : Nat := (c.b.flat (i / 8)).toNat >>> (i % 8) &&& 1

/-- Byte `k` of value `v` of transfer `i`. -/
def sByte (c : BlobOtCell) (i v k : Nat) : UInt8 := c.s.flat ((i * 2 + v) * c.blobSize + k)

/-- Byte `k` of the selected value of transfer `i`. -/
def uByte (c : BlobOtCell) (i k : Nat) : UInt8 := c.u.flat (i * c.blobSize + k)

theorem bit_lt (c : BlobOtCell) (i : Nat) : c.bit i < 2 := and_mask_lt _ 1

/-- Every transfer's `u` value is the one that its bit selects. -/
def Consistent (c : BlobOtCell) : Prop :=
  ∀ i < c.otCount, ∀ k < c.blobSize, c.uByte i k = c.sByte i (c.bit i) k

/-- The two cells have the same bit and the same `s` and `u` values at transfer `i`. -/
def SameAt (c c' : BlobOtCell) (i : Nat) : Prop :=
  c'.bit i = c.bit i ∧ (∀ v < 2, ∀ k < c.blobSize, c'.sByte i v k = c.sByte i v k) ∧
    ∀ k < c.blobSize, c'.uByte i k = c.uByte i k

/-- An open dealer's cell whose buffers lay out its bits and values. -/
structure Sound (c : BlobOtCell) : Prop where
  dealer : c.party = .DEALER
  isOpen : c.isClosed = false
  blobSize_pos : 0 < c.blobSize
  b : c.b.Layout (c.otCount / 8 + (if c.otCount % 8 = 0 then 0 else 1))
  s : c.s.Layout (c.otCount * (2 * c.blobSize))
  u : c.u.Layout (c.otCount * c.blobSize)
  s_dvd : c.blobSize ∣ c.s.chunk
  u_dvd : c.blobSize ∣ c.u.chunk

/-- A cell that differs from a sound one only in the contents of its buffers is sound. -/
theorem Sound.congr {c : BlobOtCell} (hc : c.Sound) {b s u : ByteBuffers}
    (hb : b.capacity = c.b.capacity) (hs : s.capacity = c.s.capacity)
    (hu : u.capacity = c.u.capacity) : Sound { c with b := b, s := s, u := u } where
  dealer := hc.dealer
  isOpen := hc.isOpen
  blobSize_pos := hc.blobSize_pos
  b := hc.b.congr hb
  s := hc.s.congr hs
  u := hc.u.congr hu
  s_dvd := by
    have h := hc.s_dvd
    rwa [SplitBuffer.chunk, ← hs] at h
  u_dvd := by
    have h := hc.u_dvd
    rwa [SplitBuffer.chunk, ← hu] at h

end BlobOtCell

open BlobOtCell

variable {c : BlobOtCell}

/-! ### Steps on one buffer array -/

theorem onB_ok {α : Type} {m : BufferM α} {a : α} {B : ByteBuffers} (h : m c.b = .ok a B) :
    onB m c = .ok a { c with b := B } := by rw [onB, h]

theorem onS_ok {α : Type} {m : BufferM α} {a : α} {B : ByteBuffers} (h : m c.s = .ok a B) :
    onS m c = .ok a { c with s := B } := by rw [onS, h]

theorem onU_ok {α : Type} {m : BufferM α} {a : α} {B : ByteBuffers} (h : m c.u = .ok a B) :
    onU m c = .ok a { c with u := B } := by rw [onU, h]

theorem check_ok {f : BlobOtCell → Option Status} (h : f c = none) :
    check f c = .ok () c := by rw [check, h]

theorem check_error {f : BlobOtCell → Option Status} {e : Status} (h : f c = some e) :
    check f c = .error e c := by rw [check, h]

/-- The bit's byte is one of the array. -/
theorem byte_lt {n i : Nat} (hi : i < n) : i / 8 < n / 8 + (if n % 8 = 0 then 0 else 1) := by
  split <;> omega

/-- A dealer passes the checks of an operation on a transfer in range. -/
theorem indexCheck_ok (hc : c.Sound) {forbidden : Party} (hf : forbidden ≠ .DEALER)
    (message : String) {i : Nat} (hi : i < c.otCount) :
    indexCheck forbidden message (i : Int) c = none := by
  rw [indexCheck, if_neg (by rw [hc.dealer]; exact hf.symm), if_neg (by simp [hc.isOpen]),
    if_neg (by omega), if_neg (by omega)]

/-- The window of a blob fits in its buffer of `s`. -/
theorem sWindow (hc : c.Sound) {i v : Nat} (hi : i < c.otCount) (hv : v < 2) :
    (i * 2 + v) * c.blobSize + c.blobSize ≤ c.otCount * (2 * c.blobSize) ∧
      (i * 2 + v) * c.blobSize % c.s.chunk + c.blobSize ≤ c.s.chunk := by
  refine ⟨?_, SplitBuffer.mod_add_le_of_dvd hc.s.chunk_pos hc.s_dvd⟩
  calc (i * 2 + v) * c.blobSize + c.blobSize = (i * 2 + v + 1) * c.blobSize := by ring
    _ ≤ (c.otCount * 2) * c.blobSize := Nat.mul_le_mul_right _ (by omega)
    _ = c.otCount * (2 * c.blobSize) := by ring

/-- The window of a blob fits in its buffer of `u`. -/
theorem uWindow (hc : c.Sound) {i : Nat} (hi : i < c.otCount) :
    i * c.blobSize + c.blobSize ≤ c.otCount * c.blobSize ∧
      i * c.blobSize % c.u.chunk + c.blobSize ≤ c.u.chunk := by
  refine ⟨?_, SplitBuffer.mod_add_le_of_dvd hc.u.chunk_pos hc.u_dvd⟩
  calc i * c.blobSize + c.blobSize = (i + 1) * c.blobSize := by ring
    _ ≤ c.otCount * c.blobSize := Nat.mul_le_mul_right _ (by omega)

/-- `getBValue` of a transfer in range returns its bit. -/
theorem getBValue_ok (hc : c.Sound) {i : Nat} (hi : i < c.otCount) :
    getBValue i c = .ok (c.bit i) c := by
  have hdiv : (i : Int).tdiv 8 = ((i / 8 : Nat) : Int) := rfl
  have hmod : ((i : Int).tmod 8).toNat = i % 8 := rfl
  have hlt := hc.b.div_lt (byte_lt hi)
  have hcap := hc.b.window_le_cap (m := 1) (byte_lt hi) (byte_lt hi)
    (Nat.mod_lt _ hc.b.chunk_pos)
  rw [getBValue, bind_ok (check_ok (indexCheck_ok hc (by decide) _ hi)), hdiv,
    bind_ok (onB_ok (located_ok hc.b (i / 8)))]
  dsimp only
  rw [bind_ok (onB_ok (getByte_ok hlt hcap)), hmod]
  rfl

/-- `selectU` copies the chosen value to `u`. -/
theorem selectU_ok (hc : c.Sound) {i v : Nat} (hi : i < c.otCount) (hv : v < 2) :
    ∃ U, selectU i v c = .ok () { c with u := U } ∧ U.capacity = c.u.capacity ∧
      ∀ q, U.flat q = if i * c.blobSize ≤ q ∧ q < i * c.blobSize + c.blobSize
        then c.sByte i v (q - i * c.blobSize) else c.u.flat q := by
  obtain ⟨hs₁, hs₂⟩ := sWindow hc hi hv
  obtain ⟨hu₁, hu₂⟩ := uWindow hc hi
  obtain ⟨hsi, hsj⟩ := window_ok hc.s hs₁ hc.blobSize_pos hs₂
  obtain ⟨hui, huj⟩ := window_ok hc.u hu₁ hc.blobSize_pos hu₂
  have hpS : ((i : Int) * 2 + (v : Nat)) * (c.blobSize : Nat) =
      (((i * 2 + v) * c.blobSize : Nat) : Int) := by push_cast; rfl
  have hpU : (i : Int) * (c.blobSize : Nat) = ((i * c.blobSize : Nat) : Int) := by
    push_cast; rfl
  have hget : (get : CellM BlobOtCell) c = .ok c c := rfl
  rw [selectU, bind_ok hget, hpS, hpU, bind_ok (onS_ok (located_ok hc.s _))]
  dsimp only
  rw [bind_ok (onU_ok (located_ok hc.u _))]
  dsimp only
  rw [bind_ok (onS_ok (position_ok hsi (by omega))), if_neg (by omega),
    bind_ok (onU_ok (position_ok hui (by omega)))]
  refine ⟨_, onU_ok (putBytes_ok (by omega)), rfl, fun q ↦ ?_⟩
  refine (SplitBuffer.flat_writeAt hu₂ (fun k ↦ c.s.data
    ((i * 2 + v) * c.blobSize / c.s.chunk) ((i * 2 + v) * c.blobSize % c.s.chunk + k)) q).trans ?_
  by_cases hq : i * c.blobSize ≤ q ∧ q < i * c.blobSize + c.blobSize
  · rw [if_pos hq, if_pos hq, sByte, SplitBuffer.flat_add hs₂ (by omega)]
  · rw [if_neg hq, if_neg hq]

/-- `selectRange` copies the selected value of each of its transfers. -/
theorem selectRange_ok (n : Nat) {i : Nat} {c : BlobOtCell} (hc : c.Sound)
    (hi : i + n ≤ c.otCount) :
    ∃ U, selectRange n i c = .ok () { c with u := U } ∧ U.capacity = c.u.capacity ∧
      ∀ j, ∀ k < c.blobSize, U.flat (j * c.blobSize + k) =
        if i ≤ j ∧ j < i + n then c.sByte j (c.bit j) k else c.uByte j k := by
  induction n generalizing i c with
  | zero => exact ⟨c.u, rfl, rfl, fun j k _ ↦ (if_neg (by omega)).symm⟩
  | succ n ih =>
    obtain ⟨U, hU, hcap, hflat⟩ := selectU_ok hc (show i < c.otCount by omega) (c.bit_lt i)
    have hc' : Sound { c with u := U } := hc.congr rfl rfl hcap
    obtain ⟨U', hU', hcap', hflat'⟩ := ih (i := i + 1) hc' (by dsimp only; omega)
    refine ⟨U', ?_, hcap'.trans hcap, fun j k hk ↦ ?_⟩
    · rw [selectRange, bind_ok (getBValue_ok hc (by omega)), bind_ok hU]
      exact hU'
    · rw [hflat' j k hk]
      by_cases hj : i + 1 ≤ j ∧ j < i + 1 + n
      · rw [if_pos hj, if_pos (by omega)]
        rfl
      · rw [if_neg hj, uByte]
        dsimp only
        rw [hflat]
        by_cases hji : j = i
        · subst hji
          rw [if_pos (by omega), if_pos (by omega), Nat.add_sub_cancel_left]
        · rw [if_neg fun h ↦ hji ((SplitBuffer.slot_iff hk).mp h), if_neg (by omega), uByte]

/-! ### What an operation changes -/

/-- From `c` to `c'` only the transfers in `R` change, and they end consistent. -/
structure Changes (R : Nat → Prop) (c c' : BlobOtCell) : Prop where
  storage : ∃ b s u, c' = { c with b := b, s := s, u := u } ∧ b.capacity = c.b.capacity ∧
    s.capacity = c.s.capacity ∧ u.capacity = c.u.capacity
  frame : ∀ j < c.otCount, ¬ R j → SameAt c c' j
  fixed : c.Consistent → ∀ j < c.otCount, R j → ∀ k < c.blobSize,
    c'.uByte j k = c'.sByte j (c'.bit j) k

namespace Changes

variable {R : Nat → Prop} {c' : BlobOtCell}

/-- Doing nothing changes nothing. -/
theorem refl (R : Nat → Prop) (c : BlobOtCell) : Changes R c c where
  storage := ⟨c.b, c.s, c.u, rfl, rfl, rfl, rfl⟩
  frame _ _ _ := ⟨rfl, fun _ _ _ _ ↦ rfl, fun _ _ ↦ rfl⟩
  fixed hc j hj _ k hk := hc j hj k hk

/-- A change keeps the cell sound. -/
theorem sound (h : Changes R c c') (hc : c.Sound) : c'.Sound := by
  obtain ⟨b, s, u, rfl, hb, hs, hu⟩ := h.storage
  exact hc.congr hb hs hu

/-- A change keeps the cell consistent. -/
theorem consistent (h : Changes R c c') (hc : c.Consistent) : c'.Consistent := by
  obtain ⟨b, s, u, he, -⟩ := h.storage
  have hn : c'.otCount = c.otCount := by rw [he]
  have hz : c'.blobSize = c.blobSize := by rw [he]
  intro j hj k hk
  rw [hn] at hj
  rw [hz] at hk
  by_cases hR : R j
  · exact h.fixed hc j hj hR k hk
  · obtain ⟨hbit, hs, hu⟩ := h.frame j hj hR
    rw [hu k hk, hbit, hs _ (c.bit_lt j) k hk]
    exact hc j hj k hk

end Changes

/-- What the checks of `randomize` accept. -/
theorem randomizeCheck_none {otOffset otLength : Int}
    (h : randomizeCheck otOffset otLength c = none) :
    ∃ o l : Nat, otOffset = o ∧ otLength = l ∧ o + l ≤ c.otCount ∧ o % 8 = 0 ∧
      (l % 8 = 0 ∨ o + l = c.otCount) := by
  rw [randomizeCheck] at h
  split at h
  · cases h
  split at h
  · cases h
  split at h
  · cases h
  split at h
  · cases h
  split at h
  · cases h
  split at h
  · cases h
  split at h
  · cases h
  obtain ⟨o, rfl⟩ := Int.eq_ofNat_of_zero_le (show 0 ≤ otOffset by omega)
  obtain ⟨l, rfl⟩ := Int.eq_ofNat_of_zero_le (show 0 ≤ otLength by omega)
  have ho : (o : Int).tmod 8 = ((o % 8 : Nat) : Int) := rfl
  have hl : (l : Int).tmod 8 = ((l % 8 : Nat) : Int) := rfl
  refine ⟨o, l, rfl, rfl, ?_, ?_, ?_⟩ <;> omega

/-- `randomize` of some transfers changes those transfers. -/
theorem randomize_changes (hc : c.Sound) (freshB freshS : Nat → Nat → UInt8) {o l : Nat}
    (hchk : randomizeCheck o l c = none) (hl0 : l ≠ 0) (hol : o + l ≤ c.otCount)
    (ho8 : o % 8 = 0) (hl8 : l % 8 = 0 ∨ o + l = c.otCount) :
    ∃ c', randomize freshB freshS o l c = .ok () c' ∧
      Changes (fun j ↦ o ≤ j ∧ j < o + l) c c' := by
  have hsz := hc.blobSize_pos
  -- the bits: whole bytes from the offset's byte to the last transfer's byte
  have hb0 : (o : Int).tdiv 8 = ((o / 8 : Nat) : Int) := rfl
  have hb1 : ((o : Int) + l - 1).tdiv 8 = (((o + l - 1) / 8 : Nat) : Int) := by
    rw [show (o : Int) + l - 1 = ((o + l - 1 : Nat) : Int) by omega]
    rfl
  obtain ⟨b, hb, hbcap, hbflat⟩ := fillRange_ok hc.b freshB (o / 8)
    ((o + l - 1) / 8) (Nat.div_le_div_right (by omega)) (byte_lt (by omega))
  -- the pairs: all bytes of the transfers' pairs
  have hs0 : (o : Int) * 2 * (c.blobSize : Nat) = ((o * 2 * c.blobSize : Nat) : Int) := by
    push_cast; rfl
  have hs1 : ((o : Int) + l) * 2 * (c.blobSize : Nat) - 1 =
      (((o + l) * 2 * c.blobSize - 1 : Nat) : Int) := by
    have : 0 < (o + l) * 2 * c.blobSize := Nat.mul_pos (by omega) hsz
    rw [Int.ofNat_sub this]
    push_cast
    rfl
  have hmono : o * 2 * c.blobSize < (o + l) * 2 * c.blobSize :=
    Nat.mul_lt_mul_of_pos_right (by omega) hsz
  have hend : (o + l) * 2 * c.blobSize ≤ c.otCount * (2 * c.blobSize) := by
    rw [← Nat.mul_assoc]
    exact Nat.mul_le_mul_right _ (Nat.mul_le_mul_right _ hol)
  obtain ⟨s, hs, hscap, hsflat⟩ := fillRange_ok hc.s freshS (o * 2 * c.blobSize)
    ((o + l) * 2 * c.blobSize - 1) (by omega) (by omega)
  let c₂ : BlobOtCell := { c with b := b, s := s }
  have hc₂ : c₂.Sound := hc.congr hbcap hscap rfl
  obtain ⟨u, hu, hucap, huflat⟩ := selectRange_ok l (i := o) hc₂ hol
  have hget : (get : CellM BlobOtCell) c = .ok c c := rfl
  refine ⟨{ c with b := b, s := s, u := u }, ?_, ⟨b, s, u, rfl, hbcap, hscap, hucap⟩, ?_, ?_⟩
  · rw [randomize, bind_ok (check_ok hchk), bind_ok hget, hb0, hb1, hs0, hs1,
      bind_ok (onB_ok hb)]
    exact (bind_ok (onS_ok (c := { c with b := b }) hs)).trans hu
  · intro j hj hR
    refine ⟨?_, fun v hv k hk ↦ ?_, fun k hk ↦ ?_⟩
    · rw [bit, bit]
      dsimp only
      rw [hbflat, if_neg (by omega)]
    · have hpos : (j * 2 + v) * c.blobSize + k < (j * 2 + v + 1) * c.blobSize := by
        rw [Nat.succ_mul]
        omega
      rw [sByte, sByte]
      dsimp only
      rw [hsflat, if_neg]
      rintro ⟨hlo, hhi⟩
      have h₁ : (j * 2 + v) * c.blobSize < ((o + l) * 2) * c.blobSize := by omega
      have h₂ : (o * 2) * c.blobSize < (j * 2 + v + 1) * c.blobSize := by omega
      have h₃ := Nat.lt_of_mul_lt_mul_right h₁
      have h₄ := Nat.lt_of_mul_lt_mul_right h₂
      omega
    · rw [uByte]
      dsimp only
      rw [huflat j k hk, if_neg hR]
      rfl
  · intro _ j hj hR k hk
    rw [uByte]
    dsimp only
    rw [huflat j k hk, if_pos hR]
    rfl

/-- `randomize` of no transfer, away from the start of a buffer, changes nothing. -/
theorem randomize_empty (hc : c.Sound) (freshB freshS : Nat → Nat → UInt8) {o : Nat}
    (hchk : randomizeCheck o 0 c = none) (ho8 : o % 8 = 0)
    (hb : ¬ StartsBuffer c.b (o / 8)) (hs : ¬ StartsBuffer c.s (o * 2 * c.blobSize)) :
    finalState (randomize freshB freshS o 0 c) = c := by
  have ho : 0 < o := by
    rcases Nat.eq_zero_or_pos o with rfl | ho
    · refine absurd ⟨Nat.dvd_zero _, ?_⟩ hb
      rw [Nat.zero_div, List.length_pos_iff]
      intro hnil
      have := hc.b.chunk_pos
      rw [SplitBuffer.chunk, hnil] at this
      exact absurd this (Nat.lt_irrefl 0)
    · exact ho
  have hb0 : (o : Int).tdiv 8 = ((o / 8 : Nat) : Int) := rfl
  have hb1 : ((o : Int) + 0 - 1).tdiv 8 = ((o / 8 : Nat) : Int) - 1 := by
    rw [show (o : Int) + 0 - 1 = ((o - 1 : Nat) : Int) by omega]
    change (((o - 1) / 8 : Nat) : Int) = _
    omega
  have hs0 : (o : Int) * 2 * (c.blobSize : Nat) = ((o * 2 * c.blobSize : Nat) : Int) := by
    push_cast; rfl
  have hget : (get : CellM BlobOtCell) c = .ok c c := rfl
  rw [randomize, bind_ok (check_ok hchk), bind_ok hget, hb0, hb1, Int.add_zero, hs0]
  have hfb := fillRange_empty hc.b freshB hb
  have hfs := fillRange_empty hc.s freshS hs
  cases heb : fillRange freshB ((o / 8 : Nat) : Int) (((o / 8 : Nat) : Int) - 1) c.b with
  | error e B =>
    rw [heb] at hfb
    obtain rfl : B = c.b := hfb
    rw [bind_error (e := e) (t := c) (by rw [onB, heb])]
    rfl
  | ok x B =>
    rw [heb] at hfb
    obtain rfl : B = c.b := hfb
    rw [bind_ok (onB_ok heb)]
    cases hes : fillRange freshS ((o * 2 * c.blobSize : Nat) : Int)
      (((o * 2 * c.blobSize : Nat) : Int) - 1) c.s with
    | error e S =>
      rw [hes] at hfs
      obtain rfl : S = c.s := hfs
      rw [bind_error (e := e) (t := c) (by rw [onS, hes])]
      rfl
    | ok y S =>
      rw [hes] at hfs
      obtain rfl : S = c.s := hfs
      rw [bind_ok (onS_ok hes)]
      rfl

end Safrn.Ot
