import Safrn.Ot.Stored

/-!
# Records of one size in split buffers

Buffers that lay out records of one size: storing one record and loading it again, and what happens
to a record that begins in a last buffer without room.
-/

namespace Safrn.Ot

open Safrn.Base Safrn.Java BlobOtCell

/-- Buffers that lay out `count` records of `size` bytes. -/
structure Slots (B : ByteBuffers) (count size : Nat) : Prop where
  layout : B.Layout (count * size)
  size_pos : 0 < size
  dvd : size ∣ B.chunk

/-- The bytes of record `r`. -/
def slot (B : ByteBuffers) (size r : Nat) : List UInt8 :=
  (List.range size).map fun k ↦ B.flat (r * size + k)

@[simp] theorem length_slot (B : ByteBuffers) (size r : Nat) : (slot B size r).length = size := by
  rw [slot, List.length_map, List.length_range]

theorem slot_congr {B B' : ByteBuffers} {size r r' : Nat}
    (h : ∀ k < size, B.flat (r * size + k) = B'.flat (r' * size + k)) :
    slot B size r = slot B' size r' :=
  List.map_congr_left fun k hk ↦ h k (List.mem_range.mp hk)

namespace Slots

variable {B : ByteBuffers} {count size : Nat}

theorem congr (h : Slots B count size) {B' : ByteBuffers} (hc : B'.capacity = B.capacity) :
    Slots B' count size where
  layout := h.layout.congr hc
  size_pos := h.size_pos
  dvd := by
    rw [SplitBuffer.chunk, hc]
    exact h.dvd

/-- The window of a record fits in its buffer. -/
theorem window (h : Slots B count size) {r : Nat} (hr : r < count) :
    r * size + size ≤ count * size ∧ r * size % B.chunk + size ≤ B.chunk := by
  refine ⟨?_, SplitBuffer.mod_add_le_of_dvd h.layout.chunk_pos h.dvd⟩
  rw [← Nat.succ_mul]
  exact Nat.mul_le_mul_right size hr

/-- A record is stored, and the others stay. -/
theorem putBlob (h : Slots B count size) {r : Nat} (hr : r < count) {bytes : List UInt8}
    (hbytes : bytes.length = size) :
    ∃ B', Ot.putBlob (some bytes) 0 size ((r * size : Nat) : Int) B = .ok () B' ∧
      B'.capacity = B.capacity ∧ slot B' size r = bytes ∧
      ∀ r', r' ≠ r → slot B' size r' = slot B size r' := by
  obtain ⟨hend, hwin⟩ := h.window hr
  refine ⟨_, putBlob_ok h.layout (some bytes) 0 hend h.size_pos hwin, rfl, ?_, fun r' hne ↦ ?_⟩
  · apply List.ext_getElem (by rw [length_slot, hbytes])
    intro k hk hk'
    rw [length_slot] at hk
    simp only [slot, List.getElem_map, List.getElem_range]
    rw [SplitBuffer.flat_writeAt hwin, if_pos (by omega), Nat.add_sub_cancel_left,
      Int.toNat_zero, Nat.zero_add, valueAt, Option.getD_some, List.getD_eq_getElem _ _ hk']
  · apply slot_congr
    intro k hk
    rw [SplitBuffer.flat_writeAt hwin, if_neg fun hw ↦ hne ((SplitBuffer.slot_iff hk).mp hw)]

/-- A record is loaded behind a zero byte. -/
theorem getBlob (h : Slots B count size) {r : Nat} (hr : r < count) :
    Ot.getBlob (some (List.replicate (1 + size) 0)) 1 size ((r * size : Nat) : Int) B =
      .ok (0 :: slot B size r) B := by
  obtain ⟨hend, hwin⟩ := h.window hr
  obtain ⟨hbuffer, hstop⟩ := window_ok h.layout hend h.size_pos hwin
  have hlength : 1 + size ≤ (List.replicate (1 + size) (0 : UInt8)).length := by
    rw [List.length_replicate]
  have hget := getBlob_range (byteRange_ok h.layout (r * size) size) hbuffer
    (Nat.mul_le_mul_left 8 hstop) hlength
  refine hget.trans ?_
  have hslot : slot B size r = (List.range size).map fun k ↦
      B.data (r * size / B.chunk) (8 * (r * size % B.chunk) / 8 + k) := by
    apply List.map_congr_left
    intro k hk
    rw [SplitBuffer.flat_add hwin (List.mem_range.mp hk), Nat.mul_div_cancel_left _ (by decide)]
  rw [hslot, List.take_replicate, List.drop_replicate, Nat.min_eq_left (by omega), Nat.sub_self,
    List.replicate_zero, List.append_nil]
  rfl

end Slots

/-! ### A last buffer without room -/

/-- Where the last buffer has been left out, the buffer before the end is empty. -/
theorem capacity_of_mod_eq_zero {n per : Nat} {B : ByteBuffers} (h : allocate n per = .ok B)
    (hrest : n % per = 0) :
    n / per ≠ 0 ∧ B.capacity = List.replicate (n / per - 1) per ++ [0] := by
  rw [allocate, if_pos hrest, Nat.add_zero, hrest] at h
  split at h
  · cases h
  split at h
  · cases h
  next hne =>
  obtain rfl := Except.ok.inj h
  exact ⟨hne, rfl⟩

/-- What is located at the beginning of an empty last buffer. -/
theorem located_last {per k : Nat} {B : ByteBuffers} (hper : 0 < per)
    (hcap : B.capacity = List.replicate k per ++ [0]) :
    (∃ e, located ((k * per : Nat) : Int) B = .error e B) ∨
      located ((k * per : Nat) : Int) B = .ok ((k : Int), 0) B ∧ k < B.capacity.length ∧
        B.cap k = 0 := by
  cases k with
  | zero =>
    left
    have hchunk : B.chunk = 0 := by rw [SplitBuffer.chunk, hcap]; rfl
    exact ⟨.arithmeticException, by rw [located, locate, if_pos hchunk]⟩
  | succ k =>
    right
    have hchunk : B.chunk = per := by rw [SplitBuffer.chunk, hcap]; rfl
    refine ⟨?_, ?_, ?_⟩
    · rw [located, locate, if_neg (by omega), ← Int.ofNat_tdiv, ← Int.ofNat_tmod, hchunk,
        Nat.mul_div_cancel _ hper, Nat.mul_mod_left]
      rfl
    · rw [hcap, List.length_append, List.length_replicate, List.length_singleton]
      omega
    · rw [SplitBuffer.cap, hcap, List.getD_eq_getElem?_getD,
        List.getElem?_append_right (by rw [List.length_replicate]), List.length_replicate,
        Nat.sub_self]
      rfl

/-- No blob is stored in an empty buffer. -/
theorem putBlob_last {per k size : Nat} {B : ByteBuffers} (hper : 0 < per) (hsize : 0 < size)
    (hcap : B.capacity = List.replicate k per ++ [0]) (value : Option (List UInt8))
    (valueOffset : Int) :
    ∃ e, putBlob value valueOffset size ((k * per : Nat) : Int) B = .error e B := by
  rcases located_last hper hcap with ⟨e, he⟩ | ⟨hok, hk, hcapk⟩
  · exact ⟨e, by rw [putBlob, bind_error he]⟩
  · have hpos : position (k : Nat) ((0 : Nat) : Int) B = .ok _ B := position_ok hk (by omega)
    refine ⟨.bufferOverflowException, ?_⟩
    rw [putBlob, bind_ok hok]
    dsimp only
    refine (bind_ok hpos).trans ?_
    rw [hcapk, putBytes, if_neg (by omega), if_pos (by omega)]

/-- No byte is read from an empty buffer. -/
theorem getByte_last {per k : Nat} {B : ByteBuffers} (hper : 0 < per)
    (hcap : B.capacity = List.replicate k per ++ [0]) :
    ∃ e, (located ((k * per : Nat) : Int) >>= fun ij ↦ getByte ij.1 ij.2) B = .error e B := by
  rcases located_last hper hcap with ⟨e, he⟩ | ⟨hok, hk, hcapk⟩
  · exact ⟨e, bind_error he⟩
  · refine ⟨.indexOutOfBoundsException, ?_⟩
    rw [bind_ok hok, getByte, if_neg (by omega), if_pos (by rw [Int.toNat_natCast]; omega)]

end Safrn.Ot
