import Safrn.Ot.Residue

/-!
# Drawn residues

What the runs of `Rand.modular` leave in the buffers. Each call begins at a record and covers whole
records, so a record is replaced as a whole or not at all, whatever the range and however the run
ends. A run that is not empty replaces all records of its range.
-/

namespace Safrn.Ot

open Safrn.Base Safrn.Java BlobOtCell

/-! ### Filling with whole records -/

/-- Some records have been replaced by ones with the property `P`. -/
structure Refilled (P : List UInt8 → Prop) (size : Nat) (B B' : ByteBuffers) : Prop where
  capacity : B'.capacity = B.capacity
  slots : ∀ r, slot B' size r = slot B size r ∨ P (slot B' size r)

variable {P : List UInt8 → Prop} {size : Nat}

theorem Refilled.refl (B : ByteBuffers) : Refilled P size B B := ⟨rfl, fun _ ↦ .inl rfl⟩

theorem Refilled.trans {B B' B'' : ByteBuffers} (h : Refilled P size B B')
    (h' : Refilled P size B' B'') : Refilled P size B B'' where
  capacity := h'.capacity.trans h.capacity
  slots r := by
    rcases h'.slots r with heq | hP
    · rw [heq]
      exact h.slots r
    · exact .inr hP

/-- A record lies in one buffer and begins there at a multiple of its size. -/
theorem slot_position {B : ByteBuffers} (hc : 0 < B.chunk) (hdvd : size ∣ B.chunk) (r : Nat) :
    ∃ e, r * size % B.chunk = e * size ∧ ∀ k < size,
      (r * size + k) / B.chunk = r * size / B.chunk ∧ (r * size + k) % B.chunk = e * size + k := by
  have hin := SplitBuffer.mod_add_le_of_dvd (k := r) hc hdvd
  obtain ⟨e, he⟩ : size ∣ r * size % B.chunk :=
    (Nat.dvd_mod_iff hdvd).mpr (Nat.dvd_mul_left size r)
  rw [Nat.mul_comm size e] at he
  refine ⟨e, he, fun k hk ↦ ?_⟩
  have hw := (SplitBuffer.window_iff (q := r * size + k) hin).mpr (by omega)
  have hp := Nat.div_add_mod (r * size) B.chunk
  have hq := Nat.div_add_mod (r * size + k) B.chunk
  rw [hw.1] at hq
  exact ⟨hw.1, by omega⟩

/-- Writing records over whole records. -/
theorem Refilled.write {B : ByteBuffers} (hc : 0 < B.chunk) (hdvd : size ∣ B.chunk) (i a m : Nat)
    {f : Nat → UInt8} (hf : ∀ t, P ((List.range size).map fun k ↦ f (a * size + (t * size + k)))) :
    Refilled P size B (B.write i (a * size) (m * size) f) where
  capacity := rfl
  slots r := by
    obtain ⟨e, -, hpos⟩ := slot_position hc hdvd r
    by_cases hw : r * size / B.chunk = i ∧ a ≤ e ∧ e < a + m
    · right
      obtain ⟨hi, hlo, hhi⟩ := hw
      have hslot : slot (B.write i (a * size) (m * size) f) size r =
          (List.range size).map fun k ↦ f (a * size + ((e - a) * size + k)) := by
        apply List.map_congr_left
        intro k hk
        have hk' := List.mem_range.mp hk
        obtain ⟨hdiv, hmod⟩ := hpos k hk'
        have hsplit : a * size + (e - a) * size = e * size := by
          rw [← Nat.add_mul, Nat.add_sub_cancel' hlo]
        have hend : (e + 1) * size ≤ a * size + m * size := by
          rw [← Nat.add_mul]
          exact Nat.mul_le_mul_right size hhi
        rw [Nat.succ_mul] at hend
        rw [SplitBuffer.flat_write, hdiv, hmod, if_pos ⟨hi, by omega, by omega⟩, ← Nat.add_assoc,
          hsplit]
      rw [hslot]
      exact hf _
    · left
      apply slot_congr
      intro k hk
      obtain ⟨hdiv, hmod⟩ := hpos k hk
      rw [SplitBuffer.flat_write, hdiv, hmod]
      apply if_neg
      rintro ⟨hi, hlo, hhi⟩
      apply hw
      refine ⟨hi, ?_, ?_⟩
      · have hlt : a * size < (e + 1) * size := by
          rw [Nat.succ_mul]
          omega
        exact Nat.lt_succ_iff.mp (Nat.lt_of_mul_lt_mul_right hlt)
      · have hlt : e * size < (a + m) * size := by
          rw [Nat.add_mul]
          omega
        exact Nat.lt_of_mul_lt_mul_right hlt

/-! ### Runs of `randomize` -/

/-- The buffers hold whole records. -/
structure WholeRecords (size : Nat) (B : ByteBuffers) : Prop where
  chunk_pos : 0 < B.chunk
  dvd : ∀ i, size ∣ B.cap i

theorem WholeRecords.congr {B B' : ByteBuffers} (h : WholeRecords size B)
    (hc : B'.capacity = B.capacity) : WholeRecords size B' where
  chunk_pos := by
    rw [SplitBuffer.chunk, hc]
    exact h.chunk_pos
  dvd i := by
    rw [SplitBuffer.cap, hc]
    exact h.dvd i

theorem WholeRecords.dvd_chunk {B : ByteBuffers} (h : WholeRecords size B) : size ∣ B.chunk := by
  have hfirst := h.dvd 0
  rwa [SplitBuffer.cap, List.getD_eq_getElem?_getD, ← List.head?_eq_getElem?,
    ← List.headD_eq_head?_getD] at hfirst

theorem Slots.wholeRecords {B : ByteBuffers} {count : Nat} (h : Slots B count size) :
    WholeRecords size B where
  chunk_pos := h.layout.chunk_pos
  dvd i := by
    by_cases hi : i * B.chunk < count * size
    · rw [h.layout.cap i hi, Nat.min_def]
      split
      · exact h.dvd
      · exact Nat.dvd_sub (Nat.dvd_mul_left _ _) (Nat.dvd_mul_left_of_dvd h.dvd _)
    · have hout : B.capacity.length ≤ i := Nat.le_of_not_lt fun hlt ↦ hi ((h.layout.length i).mp hlt)
      rw [SplitBuffer.cap, List.getD_eq_default _ _ hout]
      exact Nat.dvd_zero size

/-- What is positioned, and located below, when no exception is thrown. -/
private theorem position_cases (i j : Int) (B : ByteBuffers) :
    (∃ e, position i j B = .error e B) ∨
      0 ≤ j ∧ position i j B = .ok ((B.cap i.toNat : Int) - j) B := by
  rw [position]
  split
  · exact .inl ⟨_, rfl⟩
  split
  · exact .inl ⟨_, rfl⟩
  · exact .inr ⟨by omega, rfl⟩

private theorem located_cases (p : Int) (B : ByteBuffers) :
    (∃ e, located p B = .error e B) ∨
      located p B = .ok (p.tdiv B.chunk, p.tmod B.chunk) B := by
  rw [located, locate]
  split
  · next h =>
    split at h
    · cases h
    · exact .inr (by rw [← Except.ok.inj h])
  · exact .inl ⟨_, rfl⟩

theorem finalState_bind {σ α β : Type} {m : EStateM Status σ α} {f : α → EStateM Status σ β}
    (s : σ) : finalState ((m >>= f) s) = match m s with
      | .ok a s' => finalState (f a s')
      | .error _ s' => s' := by
  cases hm : m s with
  | ok a s' => rw [bind_ok hm]
  | error e s' =>
    rw [bind_error hm]
    rfl

/-- A step and what follows it. -/
theorem Refilled.bind {α β : Type} {B : ByteBuffers} {m : BufferM α} {f : α → BufferM β}
    (hm : Refilled P size B (finalState (m B)))
    (hf : ∀ a B', B'.capacity = B.capacity → Refilled P size B' (finalState (f a B'))) :
    Refilled P size B (finalState ((m >>= f) B)) := by
  rw [finalState_bind]
  cases hr : m B with
  | ok a B' =>
    rw [hr] at hm
    exact hm.trans (hf a B' hm.capacity)
  | error e B' =>
    rw [hr] at hm
    exact hm

namespace ResidueOtCell

section

variable {draw : Nat → Nat → Nat → UInt8} {B : ByteBuffers}
  (hdraw : ∀ i j t, P ((List.range size).map fun k ↦ draw i j (t * size + k)))
include hdraw

/-- One call of the generator, whether or not its range is accepted. -/
private theorem putBytes_refilled (h : WholeRecords size B) {i j n room : Int} (hj0 : 0 ≤ j)
    (hj : (size : Int) ∣ j) (hn : (size : Int) ∣ n) :
    Refilled P size B (finalState
      (putBytes (fun q ↦ draw i.toNat j.toNat (q - j.toNat)) i j n room B)) := by
  rw [putBytes]
  split
  · exact Refilled.refl B
  split
  · exact Refilled.refl B
  obtain ⟨j, rfl⟩ := Int.eq_ofNat_of_zero_le hj0
  obtain ⟨n, rfl⟩ := Int.eq_ofNat_of_zero_le (show 0 ≤ n by omega)
  obtain ⟨a, rfl⟩ := Int.natCast_dvd_natCast.mp hj
  obtain ⟨m, rfl⟩ := Int.natCast_dvd_natCast.mp hn
  rw [Int.toNat_natCast, Int.toNat_natCast, Nat.mul_comm size a, Nat.mul_comm size m]
  apply Refilled.write h.chunk_pos h.dvd_chunk
  intro t
  simp only [Nat.add_sub_cancel_left]
  exact hdraw _ _ t

private theorem modular_refilled (h : WholeRecords size B) {i j n : Int} (hj : (size : Int) ∣ j)
    (hn : (size : Int) ∣ n) : Refilled P size B (finalState (modular draw i j n B)) := by
  rw [modular, fill, finalState_bind]
  rcases position_cases i j B with ⟨e, he⟩ | ⟨hj0, hok⟩
  · rw [he]
    exact Refilled.refl B
  · rw [hok]
    exact putBytes_refilled hdraw h hj0 hj hn

private theorem modularRest_refilled (h : WholeRecords size B) {i j : Int}
    (hj : (size : Int) ∣ j) : Refilled P size B (finalState (modularRest draw i j B)) := by
  rw [modularRest, fillRest, finalState_bind]
  rcases position_cases i j B with ⟨e, he⟩ | ⟨hj0, hok⟩
  · rw [he]
    exact Refilled.refl B
  · rw [hok]
    exact putBytes_refilled hdraw h hj0 hj
      (Int.dvd_sub (Int.natCast_dvd_natCast.mpr (h.dvd i.toNat)) hj)

private theorem modularBetween_refilled (h : WholeRecords size B) (iEnd : Int) (fuel : Nat)
    (i : Int) : Refilled P size B (finalState (modularBetween draw iEnd fuel i B)) := by
  induction fuel generalizing i B with
  | zero => exact Refilled.refl B
  | succ fuel ih =>
    rw [modularBetween]
    split
    · exact Refilled.refl B
    · apply (modularRest_refilled hdraw h (dvd_zero _)).bind
      intro _ B' hB'
      exact ih (h.congr hB') (i + 1)

/-- Whatever the range and however it ends, whole records are drawn. -/
theorem modularRange_refilled (h : WholeRecords size B) {p0 p1 : Int} (hp0 : (size : Int) ∣ p0)
    (hp1 : (size : Int) ∣ p1 + 1) : Refilled P size B (finalState (modularRange draw p0 p1 B)) := by
  have hchunk : (size : Int) ∣ B.chunk := Int.natCast_dvd_natCast.mpr h.dvd_chunk
  have hj0 : (size : Int) ∣ p0.tmod B.chunk := by
    rw [Int.tmod_def]
    exact Int.dvd_sub hp0 (Dvd.dvd.mul_right hchunk _)
  have hj1 : (size : Int) ∣ p1.tmod B.chunk + 1 := by
    rw [Int.tmod_def, sub_add_eq_add_sub]
    exact Int.dvd_sub hp1 (Dvd.dvd.mul_right hchunk _)
  rw [modularRange, finalState_bind]
  rcases located_cases p0 B with ⟨e, he⟩ | hok
  · rw [he]
    exact Refilled.refl B
  rw [hok]
  dsimp only
  rw [finalState_bind]
  rcases located_cases p1 B with ⟨e, he⟩ | hok
  · rw [he]
    exact Refilled.refl B
  rw [hok]
  dsimp only
  split
  · apply modular_refilled hdraw h hj0
    rw [sub_add_eq_add_sub]
    exact Int.dvd_sub hj1 hj0
  · apply (modularRest_refilled hdraw h hj0).bind
    intro _ B₁ hB₁
    apply (Refilled.refl B₁).bind
    intro B₀ B₂ hB₂
    apply (modularBetween_refilled hdraw (h.congr (hB₂.trans hB₁)) _ _ _).bind
    intro _ B₃ hB₃
    exact modular_refilled hdraw (h.congr (hB₃.trans (hB₂.trans hB₁))) (dvd_zero _) hj1

end

/-! ### A run that is not empty -/

section

variable (draw : Nat → Nat → Nat → UInt8)

/-- The bytes of a run that begins in buffer `i0` at offset `j0`: one call for each buffer. -/
def freshFrom (i0 j0 : Nat) (i q : Nat) : UInt8 :=
  if i = i0 then draw i j0 (q - j0) else draw i 0 q

private theorem freshFrom_self (i0 j0 : Nat) :
    freshFrom draw i0 j0 i0 = fun q ↦ draw i0 j0 (q - j0) := funext fun _ ↦ if_pos rfl

private theorem freshFrom_ne {i0 i : Nat} (j0 : Nat) (h : i ≠ i0) :
    freshFrom draw i0 j0 i = fun q ↦ draw i 0 q := funext fun _ ↦ if_neg h

private theorem modularBetween_eq {i0 : Nat} (j0 : Nat) (iEnd : Int) (fuel : Nat) {i : Nat}
    (hi : i0 < i) :
    modularBetween draw iEnd fuel i = fillBetween (freshFrom draw i0 j0) iEnd fuel i := by
  induction fuel generalizing i with
  | zero => rfl
  | succ fuel ih =>
    have hrest : modularRest draw i 0 = fillRest (freshFrom draw i0 j0) i 0 := by
      rw [modularRest, fillRest, fillRest]
      simp only [Int.toNat_natCast, Int.toNat_zero, Nat.sub_zero,
        freshFrom_ne draw j0 (Nat.ne_of_gt hi)]
    have hnext : ((i : Int) + 1) = ((i + 1 : Nat) : Int) := rfl
    rw [modularBetween, fillBetween, hrest, hnext, ih (Nat.lt_succ_of_lt hi)]

/-- `modularRange` fills as the loops of `fillRange` do. -/
theorem modularRange_eq {B : ByteBuffers} {n : Nat} (h : B.Layout n) {p0 p1 : Nat}
    (hp : p0 ≤ p1) : modularRange draw p0 p1 B =
      fillRange (freshFrom draw (p0 / B.chunk) (p0 % B.chunk)) p0 p1 B := by
  have hle : p0 / B.chunk ≤ p1 / B.chunk := Nat.div_le_div_right hp
  rw [modularRange, fillRange, bind_ok (located_ok h p0), bind_ok (located_ok h p0)]
  dsimp only
  rw [bind_ok (located_ok h p1), bind_ok (located_ok h p1)]
  dsimp only
  by_cases he : p0 / B.chunk = p1 / B.chunk
  · rw [if_pos (congrArg _ he), if_pos (congrArg _ he), modular, fill, fill]
    simp only [Int.toNat_natCast, freshFrom_self]
  · have hne : ¬ ((p0 / B.chunk : Nat) : Int) = ((p1 / B.chunk : Nat) : Int) :=
      fun heq ↦ he (Int.ofNat_inj.mp heq)
    have hnext : ((p0 / B.chunk : Nat) : Int) + 1 = ((p0 / B.chunk + 1 : Nat) : Int) := rfl
    have hlater := freshFrom_ne draw (p0 % B.chunk) (Ne.symm he)
    rw [if_neg hne, if_neg hne]
    simp only [hnext, modularBetween_eq draw (p0 % B.chunk) _ _
      (Nat.lt_succ_self (p0 / B.chunk)), modularRest, modular, fillRest, fill, Int.toNat_natCast,
      Int.toNat_zero, Nat.sub_zero, freshFrom_self, hlater]

/-- Drawing the records from `r0` up to `r1`. -/
theorem modularRange_ok {B : ByteBuffers} {count : Nat} (h : Slots B count size)
    (hdraw : ∀ i j t, P ((List.range size).map fun k ↦ draw i j (t * size + k))) {r0 r1 : Nat}
    (hr : r0 < r1) (hend : r1 ≤ count) :
    ∃ B', modularRange draw ((r0 * size : Nat) : Int) ((r1 * size - 1 : Nat) : Int) B =
        .ok () B' ∧ B'.capacity = B.capacity ∧
      (∀ r, r0 ≤ r → r < r1 → P (slot B' size r)) := by
  have hsize := h.size_pos
  have hmono : r0 * size < r1 * size := Nat.mul_lt_mul_of_pos_right hr hsize
  have hlast : r1 * size ≤ count * size := Nat.mul_le_mul_right size hend
  obtain ⟨B', hB', hcap, hflat⟩ := fillRange_ok h.layout
    (freshFrom draw (r0 * size / B.chunk) (r0 * size % B.chunk)) (r0 * size) (r1 * size - 1)
    (by omega) (by omega)
  refine ⟨B', (modularRange_eq draw h.layout (by omega)).trans hB', hcap, fun r hlo hhi ↦ ?_⟩
  obtain ⟨e, he, hpos⟩ := slot_position h.layout.chunk_pos h.dvd r
  obtain ⟨e0, he0, -⟩ := slot_position h.layout.chunk_pos h.dvd r0
  have hstart : r0 * size ≤ r * size := Nat.mul_le_mul_right size hlo
  have hstop : (r + 1) * size ≤ r1 * size := Nat.mul_le_mul_right size hhi
  rw [Nat.succ_mul] at hstop
  have hslot : slot B' size r = (List.range size).map fun k ↦
      freshFrom draw (r0 * size / B.chunk) (r0 * size % B.chunk) (r * size / B.chunk)
        (e * size + k) := by
    apply List.map_congr_left
    intro k hk
    have hk' := List.mem_range.mp hk
    obtain ⟨hdiv, hmod⟩ := hpos k hk'
    rw [hflat, if_pos (by omega), hdiv, hmod]
  rw [hslot]
  by_cases hbuffer : r * size / B.chunk = r0 * size / B.chunk
  · -- the first buffer's call begins at the first record's offset
    have hle : e0 * size ≤ e * size := by
      have hp := Nat.div_add_mod (r * size) B.chunk
      have hp0 := Nat.div_add_mod (r0 * size) B.chunk
      rw [hbuffer] at hp
      omega
    rw [hbuffer, freshFrom_self, he0]
    have hoff : ∀ k, e * size + k - e0 * size = (e - e0) * size + k := by
      intro k
      rw [Nat.sub_mul]
      omega
    simp only [hoff]
    exact hdraw _ _ _
  · rw [freshFrom_ne draw _ hbuffer]
    exact hdraw _ _ _

end

end ResidueOtCell

end Safrn.Ot
