import Safrn.Ot.Cell

/-!
# Access to laid-out buffers

On buffers that lay out their bytes, positions inside the array are located and filled without
an exception; each lemma says which bytes of the represented array change. Filling an empty
range changes nothing unless the range starts a buffer.
-/

namespace Safrn.Ot

open Safrn.Base Safrn.Java

variable {ε σ α β : Type}

/-- A step that returns hands its value and state on. -/
theorem bind_ok {m : EStateM ε σ α} {f : α → EStateM ε σ β} {s s' : σ} {a : α}
    (h : m s = .ok a s') : (m >>= f) s = f a s' := by
  simp only [bind, EStateM.bind, h]

/-- A step that throws ends the sequence. -/
theorem bind_error {m : EStateM ε σ α} {f : α → EStateM ε σ β} {s t : σ} {e : ε}
    (h : m s = .error e t) : (m >>= f) s = .error e t := by
  simp only [bind, EStateM.bind, h]

/-- The state after a sequence of steps, whether it returned or threw. -/
def finalState : EStateM.Result ε σ α → σ
  | .ok _ s => s
  | .error _ s => s

variable {B : ByteBuffers} {n : Nat}

/-- A position is located by the first buffer's capacity. -/
theorem located_ok (h : B.Layout n) (p : Nat) :
    located p B = .ok (((p / B.chunk : Nat) : Int), ((p % B.chunk : Nat) : Int)) B := by
  have hc := h.chunk_pos
  rw [located, locate, if_neg (by omega), ← Int.ofNat_tdiv, ← Int.ofNat_tmod]

/-- A position within a buffer is accepted. -/
theorem position_ok {i j : Nat} (hi : i < B.capacity.length) (hj : j ≤ B.cap i) :
    position i j B = .ok ((B.cap i : Int) - j) B := by
  rw [position, if_neg (by omega), if_neg (by rw [Int.toNat_natCast]; omega), Int.toNat_natCast]

/-- A byte of a buffer is read. -/
theorem getByte_ok {i j : Nat} (hi : i < B.capacity.length) (hj : j < B.cap i) :
    getByte i j B = .ok (B.data i j) B := by
  rw [getByte, if_neg (by omega), if_neg (by rw [Int.toNat_natCast]; omega), Int.toNat_natCast,
    Int.toNat_natCast]

/-- Bytes that fit are put. -/
theorem putBytes_ok {f : Nat → UInt8} {i j m : Nat} {remaining : Int} (hm : m ≤ remaining) :
    putBytes f i j m remaining B = .ok () (B.write i j m f) := by
  rw [putBytes, if_neg (by omega), if_neg (by omega)]
  rfl

/-- A window of the array fits in its buffer. -/
theorem window_ok (h : B.Layout n) {p m : Nat} (hpm : p + m ≤ n) (hm : 0 < m)
    (hc : p % B.chunk + m ≤ B.chunk) :
    p / B.chunk < B.capacity.length ∧ p % B.chunk + m ≤ B.cap (p / B.chunk) :=
  ⟨h.div_lt (by omega), h.window_le_cap hpm (by omega) hc⟩

/-- Filling a window of one buffer. -/
theorem fill_ok (h : B.Layout n) (fresh : Nat → Nat → UInt8) {p m : Nat} (hpm : p + m ≤ n)
    (hm : 0 < m) (hc : p % B.chunk + m ≤ B.chunk) :
    fill fresh (p / B.chunk : Nat) (p % B.chunk : Nat) m B =
      .ok () (B.write (p / B.chunk) (p % B.chunk) m (fresh (p / B.chunk))) := by
  obtain ⟨hi, hj⟩ := window_ok h hpm hm hc
  rw [fill, bind_ok (position_ok hi (by omega)), Int.toNat_natCast]
  exact putBytes_ok (by omega)

/-- Filling the rest of a full buffer. -/
theorem fillRest_ok (fresh : Nat → Nat → UInt8) {i j : Nat} (hi : i < B.capacity.length)
    (hcap : B.cap i = B.chunk) (hj : j ≤ B.chunk) :
    fillRest fresh i j B = .ok () (B.write i j (B.chunk - j) (fresh i)) := by
  rw [fillRest, bind_ok (position_ok hi (hcap ▸ hj)), Int.toNat_natCast, hcap,
    ← Int.ofNat_sub hj]
  exact putBytes_ok (Int.le_refl _)

/-- The positions that a write from offset `j` to the end of buffer `i` changes. -/
theorem flat_write_rest (hc : 0 < B.chunk) (fresh : Nat → Nat → UInt8) (i j q : Nat) :
    (B.write i j (B.chunk - j) (fresh i)).flat q =
      if q / B.chunk = i ∧ j ≤ q % B.chunk then fresh (q / B.chunk) (q % B.chunk)
      else B.flat q := by
  have hq := Nat.mod_lt q hc
  rw [SplitBuffer.flat_write]
  by_cases hw : q / B.chunk = i ∧ j ≤ q % B.chunk
  · rw [if_pos ⟨hw.1, hw.2, by omega⟩, if_pos hw, hw.1]
  · rw [if_neg fun hx ↦ hw ⟨hx.1, hx.2.1⟩, if_neg hw]

/-- Filling the buffers from `i` up to `iEnd`, all of them full buffers. -/
theorem fillBetween_ok (fresh : Nat → Nat → UInt8) (iEnd fuel : Nat) {i : Nat}
    (hi : i ≤ iEnd) (hfuel : iEnd < i + fuel) (B : ByteBuffers) (hc : 0 < B.chunk)
    (hend : iEnd ≤ B.capacity.length) (hcap : ∀ k < iEnd, B.cap k = B.chunk) :
    ∃ B', fillBetween fresh iEnd fuel i B = .ok () B' ∧ B'.capacity = B.capacity ∧
      ∀ q, B'.flat q = if i ≤ q / B.chunk ∧ q / B.chunk < iEnd
        then fresh (q / B.chunk) (q % B.chunk) else B.flat q := by
  induction fuel generalizing i B with
  | zero => omega
  | succ fuel ih =>
    by_cases he : i = iEnd
    · subst he
      refine ⟨B, ?_, rfl, fun q ↦ ?_⟩
      · simp only [fillBetween, if_true]
        rfl
      · rw [if_neg fun h ↦ by omega]
    · have hrest := fillRest_ok fresh (j := 0) (show i < B.capacity.length by omega)
        (hcap i (by omega)) (Nat.zero_le _)
      obtain ⟨B', hB', hcap', hflat⟩ := ih (i := i + 1) (by omega) (by omega)
        (B.write i 0 (B.chunk - 0) (fresh i)) hc hend hcap
      refine ⟨B', ?_, hcap', fun q ↦ ?_⟩
      · rw [fillBetween, if_neg (by omega)]
        exact (bind_ok hrest).trans hB'
      · rw [hflat q, flat_write_rest hc, SplitBuffer.chunk_write]
        by_cases h1 : i + 1 ≤ q / B.chunk ∧ q / B.chunk < iEnd
        · rw [if_pos h1, if_pos ⟨by omega, h1.2⟩]
        · rw [if_neg h1]
          by_cases h2 : q / B.chunk = i
          · rw [if_pos ⟨h2, Nat.zero_le _⟩, if_pos ⟨by omega, by omega⟩]
          · rw [if_neg fun h ↦ h2 h.1, if_neg fun h ↦ by omega]

/-- Filling a non-empty range of the array replaces exactly its bytes. -/
theorem fillRange_ok (h : B.Layout n) (fresh : Nat → Nat → UInt8) (p0 p1 : Nat)
    (hp : p0 ≤ p1) (hn : p1 < n) :
    ∃ B', fillRange fresh p0 p1 B = .ok () B' ∧ B'.capacity = B.capacity ∧
      ∀ q, B'.flat q = if p0 ≤ q ∧ q ≤ p1 then fresh (q / B.chunk) (q % B.chunk)
        else B.flat q := by
  have hc := h.chunk_pos
  have hm0 := Nat.mod_lt p0 hc
  have hm1 := Nat.mod_lt p1 hc
  have hd0 := Nat.div_add_mod p0 B.chunk
  have hd1 := Nat.div_add_mod p1 B.chunk
  rw [fillRange, bind_ok (located_ok h p0)]
  dsimp only
  rw [bind_ok (located_ok h p1)]
  dsimp only
  by_cases he : p0 / B.chunk = p1 / B.chunk
  · -- the range lies in one buffer
    have hlen : ((p1 % B.chunk : Nat) : Int) - ((p0 % B.chunk : Nat) : Int) + 1 =
        ((p1 - p0 + 1 : Nat) : Int) := by
      rw [he] at hd0
      omega
    have hwin : p0 % B.chunk + (p1 - p0 + 1) ≤ B.chunk := by
      rw [he] at hd0
      omega
    rw [if_pos (congrArg _ he), hlen, fill_ok h fresh (by omega) (by omega) hwin]
    refine ⟨_, rfl, rfl, fun q ↦ ?_⟩
    rw [SplitBuffer.flat_write]
    by_cases hq : p0 ≤ q ∧ q ≤ p1
    · have hw := (SplitBuffer.window_iff hwin).mpr (⟨hq.1, by omega⟩ : p0 ≤ q ∧ _)
      rw [if_pos hw, if_pos hq, hw.1]
    · rw [if_neg fun hw ↦ hq (by have := (SplitBuffer.window_iff hwin).mp hw; omega),
        if_neg hq]
  · -- it starts in one buffer, may run over full ones and ends in another
    have hlt : p0 / B.chunk < p1 / B.chunk :=
      Nat.lt_of_le_of_ne (Nat.div_le_div_right hp) he
    have hlen1 := h.div_lt hn
    have hne : ¬ ((p0 / B.chunk : Nat) : Int) = ((p1 / B.chunk : Nat) : Int) := by omega
    have hcap : ∀ k < p1 / B.chunk, B.cap k = B.chunk := fun k hk ↦ h.cap_of_lt hn hk
    rw [if_neg hne, bind_ok (fillRest_ok fresh (by omega) (hcap _ hlt) (by omega))]
    let B₁ := B.write (p0 / B.chunk) (p0 % B.chunk) (B.chunk - p0 % B.chunk)
      (fresh (p0 / B.chunk))
    obtain ⟨B₂, hB₂, hcap₂, hflat₂⟩ := fillBetween_ok fresh (p1 / B.chunk)
      (B.capacity.length + 1) (i := p0 / B.chunk + 1) hlt
      (Nat.lt_add_left _ (Nat.lt_succ_of_lt hlen1)) B₁ hc
      (by simp only [B₁, SplitBuffer.capacity_write]; omega) hcap
    have h₂ : B₂.Layout n := h.congr hcap₂
    have hch₂ : B₂.chunk = B.chunk := by rw [SplitBuffer.chunk, hcap₂]; rfl
    have hz : p1 / B.chunk * B.chunk % B.chunk = 0 := Nat.mul_mod_left _ _
    have hdz : p1 / B.chunk * B.chunk / B.chunk = p1 / B.chunk := Nat.mul_div_cancel _ hc
    have hlast := fill_ok h₂ fresh (p := p1 / B.chunk * B.chunk) (m := p1 % B.chunk + 1)
      (by rw [Nat.mul_comm]; omega) (by omega) (by rw [hch₂, hz]; omega)
    rw [hch₂, hz, hdz] at hlast
    have hget : (get : BufferM ByteBuffers) B₁ = .ok B₁ B₁ := rfl
    refine ⟨B₂.write (p1 / B.chunk) 0 (p1 % B.chunk + 1) (fresh (p1 / B.chunk)), ?_, ?_, ?_⟩
    · rw [bind_ok hget]
      exact (bind_ok hB₂).trans hlast
    · exact hcap₂
    · intro q
      have hflat₁ : B₂.flat q = if p0 / B.chunk + 1 ≤ q / B.chunk ∧ q / B.chunk < p1 / B.chunk
          then fresh (q / B.chunk) (q % B.chunk) else B₁.flat q := hflat₂ q
      rw [SplitBuffer.flat_write, hch₂, hflat₁, flat_write_rest hc]
      -- the three writes cover the range, compared by buffer and then by offset
      have e0 := SplitBuffer.le_iff_div_mod hc p0 q
      have e1 := SplitBuffer.le_iff_div_mod hc q p1
      by_cases hlastq : q / B.chunk = p1 / B.chunk ∧ 0 ≤ q % B.chunk ∧
          q % B.chunk < 0 + (p1 % B.chunk + 1)
      · rw [if_pos hlastq, if_pos (by omega), hlastq.1]
      · rw [if_neg hlastq]
        by_cases hmid : p0 / B.chunk + 1 ≤ q / B.chunk ∧ q / B.chunk < p1 / B.chunk
        · rw [if_pos hmid, if_pos (by omega)]
        · rw [if_neg hmid]
          by_cases hfst : q / B.chunk = p0 / B.chunk ∧ p0 % B.chunk ≤ q % B.chunk
          · rw [if_pos hfst, if_pos (by omega)]
          · rw [if_neg hfst, if_neg (by omega)]

/-- The position `p` is the first one of a buffer. -/
def StartsBuffer (B : ByteBuffers) (p : Nat) : Prop :=
  B.chunk ∣ p ∧ p / B.chunk < B.capacity.length

/-- Filling the empty range before a position inside a buffer changes nothing. -/
theorem fillRange_empty (h : B.Layout n) (fresh : Nat → Nat → UInt8) {p : Nat}
    (hp : ¬ StartsBuffer B p) : finalState (fillRange fresh p ((p : Int) - 1) B) = B := by
  have hc := h.chunk_pos
  have hd := Nat.div_add_mod p B.chunk
  obtain ⟨p', rfl⟩ : ∃ p', p = p' + 1 := by
    cases p with
    | zero =>
      refine absurd ⟨Nat.dvd_zero _, ?_⟩ hp
      rw [Nat.zero_div, List.length_pos_iff]
      intro hnil
      rw [SplitBuffer.chunk, hnil] at hc
      exact absurd hc (Nat.lt_irrefl 0)
    | succ p' => exact ⟨p', rfl⟩
  rw [fillRange, bind_ok (located_ok h (p' + 1)), Int.natCast_succ, Int.add_sub_cancel]
  dsimp only
  rw [bind_ok (located_ok h p')]
  dsimp only
  by_cases hdvd : B.chunk ∣ p' + 1
  · -- the range would start a buffer that does not exist
    have hlen : B.capacity.length ≤ (p' + 1) / B.chunk :=
      Nat.not_lt.mp fun hlt ↦ hp ⟨hdvd, hlt⟩
    have hne : ¬ (((p' + 1) / B.chunk : Nat) : Int) = ((p' / B.chunk : Nat) : Int) := by
      rw [Nat.succ_div_of_dvd hdvd]
      omega
    have hpos : position (((p' + 1) / B.chunk : Nat) : Int)
        (((p' + 1) % B.chunk : Nat) : Int) B = .error .indexOutOfBoundsException B := by
      rw [position, if_pos (.inr (by omega))]
    have hrest : fillRest fresh (((p' + 1) / B.chunk : Nat) : Int)
        (((p' + 1) % B.chunk : Nat) : Int) B = .error .indexOutOfBoundsException B := by
      rw [fillRest, bind_error hpos]
    rw [if_neg hne, bind_error hrest]
    rfl
  · -- no byte is to be filled
    have hdiv : (p' + 1) / B.chunk = p' / B.chunk := Nat.succ_div_of_not_dvd hdvd
    have hd' := Nat.div_add_mod p' B.chunk
    have hmod : (p' + 1) % B.chunk = p' % B.chunk + 1 := by
      rw [hdiv] at hd
      omega
    have hlen : ((p' % B.chunk : Nat) : Int) - (((p' + 1) % B.chunk : Nat) : Int) + 1 = 0 := by
      rw [hmod]
      omega
    rw [if_pos (congrArg _ hdiv), hlen, fill]
    rcases hpos : position (((p' + 1) / B.chunk : Nat) : Int)
      (((p' + 1) % B.chunk : Nat) : Int) B with ⟨room, B'⟩ | ⟨e, B'⟩
    · have hB' : B' = B ∧ 0 ≤ room := by
        rw [position] at hpos
        split at hpos
        · cases hpos
        · split at hpos
          · cases hpos
          · next hj =>
            injection hpos with hr hs
            exact ⟨hs.symm, by omega⟩
      obtain ⟨rfl, hroom⟩ := hB'
      rw [bind_ok hpos, putBytes, if_neg (by decide), if_neg (by omega)]
      exact SplitBuffer.write_zero _ _ _
    · have hB' : B' = B := by
        rw [position] at hpos
        split at hpos
        · injection hpos with _ hs
          exact hs.symm
        · split at hpos
          · injection hpos with _ hs
            exact hs.symm
          · cases hpos
      rw [bind_error hpos]
      exact hB'

/-- A blob that fits is stored. -/
theorem putBlob_ok (h : B.Layout n) (value : Option (List UInt8)) (valueOffset : Int)
    {p size : Nat} (hp : p + size ≤ n) (hs : 0 < size) (hc : p % B.chunk + size ≤ B.chunk) :
    putBlob value valueOffset size p B =
      .ok () (B.writeAt p size (fun k ↦ valueAt value (valueOffset.toNat + k))) := by
  obtain ⟨hi, hj⟩ := window_ok h hp hs hc
  rw [putBlob, bind_ok (located_ok h p)]
  dsimp only
  rw [bind_ok (position_ok hi (by omega))]
  exact putBytes_ok (by omega)

end Safrn.Ot
