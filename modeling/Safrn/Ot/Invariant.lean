import Safrn.Ot.Dealer

/-!
# Runs of operations on a dealer's cell

The setters, and from all four operations the invariant of a run: a dealer's cell stays
consistent and an operation leaves the other transfers alone, as long as no `randomize` of
length 0 starts a buffer. At offset 0 that exception is reached on every cell.
-/

namespace Safrn.Ot

open Safrn.Base Safrn.Java BlobOtCell

variable {c : BlobOtCell}

/-! ### The setters -/

private theorem testBit_mask : ∀ kB < 8, ∀ k < 8,
    (1 <<< UInt8.ofNat kB : UInt8).toNat.testBit k = decide (k = kB) ∧
      (~~~(1 <<< UInt8.ofNat kB : UInt8)).toNat.testBit k = decide (k ≠ kB) := by
  decide

/-- Setting one bit of a byte sets that bit and keeps the others. -/
theorem bit_setBit (byte : UInt8) {kB k v : Nat} (hkB : kB < 8) (hk : k < 8) (hv : v < 2) :
    (setBit byte kB v).toNat >>> k &&& 1 = if k = kB then v else byte.toNat >>> k &&& 1 := by
  obtain ⟨hone, hnot⟩ := testBit_mask kB hkB k hk
  have hv' : v = 0 ∨ v = 1 := by omega
  rw [shiftRight_and_one, shiftRight_and_one, setBit]
  rcases hv' with rfl | rfl
  · rw [if_pos rfl, UInt8.toNat_and, Nat.testBit_and, hnot]
    by_cases h : k = kB <;> simp [h]
  · rw [if_neg Nat.one_ne_zero, UInt8.toNat_or, Nat.testBit_or, hone]
    by_cases h : k = kB <;> simp [h]

/-- What the checks on a transfer's index accept. -/
theorem indexCheck_none {forbidden : Party} {message : String} {otIndex : Int}
    (h : indexCheck forbidden message otIndex c = none) :
    ∃ i : Nat, otIndex = i ∧ i < c.otCount := by
  rw [indexCheck] at h
  split at h
  · cases h
  split at h
  · cases h
  split at h
  · cases h
  split at h
  · cases h
  obtain ⟨i, rfl⟩ := Int.eq_ofNat_of_zero_le (show 0 ≤ otIndex by omega)
  exact ⟨i, rfl, by omega⟩

/-- `setBValue` changes its transfer only. -/
theorem setBValue_changes (hc : c.Sound) {i : Nat} (hi : i < c.otCount) (value : Int) :
    ∃ c', setBValue i value c = .ok () c' ∧ Changes (· = i) c c' := by
  let v : Nat := if value = 0 then 0 else 1
  have hv : v < 2 := by simp only [v]; split <;> decide
  have hlt := hc.b.div_lt (byte_lt hi)
  have hwin : i / 8 % c.b.chunk + 1 ≤ c.b.chunk := Nat.mod_lt _ hc.b.chunk_pos
  have hcap := hc.b.window_le_cap (m := 1) (byte_lt hi) (byte_lt hi) hwin
  let b := c.b.writeAt (i / 8) 1 (fun _ ↦ setBit (c.b.flat (i / 8)) (i % 8) v)
  have hbflat : ∀ q, b.flat q =
      if q = i / 8 then setBit (c.b.flat (i / 8)) (i % 8) v else c.b.flat q := by
    intro q
    rw [SplitBuffer.flat_writeAt hwin]
    by_cases hq : q = i / 8
    · rw [if_pos (by omega), if_pos hq]
    · rw [if_neg (by omega), if_neg hq]
  let c₁ : BlobOtCell := { c with b := b }
  have hc₁ : c₁.Sound := hc.congr rfl rfl rfl
  have hbit : ∀ j, c₁.bit j = if j = i then v else c.bit j := by
    intro j
    rw [bit, bit]
    dsimp only [c₁]
    rw [hbflat]
    by_cases hq : j / 8 = i / 8
    · rw [if_pos hq, bit_setBit _ (Nat.mod_lt _ (by decide)) (Nat.mod_lt _ (by decide)) hv, hq]
      by_cases hji : j = i
      · rw [if_pos hji, if_pos (by rw [hji])]
      · rw [if_neg hji, if_neg (by omega)]
    · rw [if_neg hq, if_neg fun h ↦ hq (by rw [h])]
  obtain ⟨u, hu, hucap, huflat⟩ := selectU_ok hc₁ hi hv
  have huByte : ∀ j, ∀ k < c.blobSize, u.flat (j * c.blobSize + k) =
      if j = i then c.sByte j v k else c.uByte j k := by
    intro j k hk
    rw [huflat]
    by_cases hji : j = i
    · subst hji
      rw [if_pos ((SplitBuffer.slot_iff hk).mpr rfl), if_pos rfl, Nat.add_sub_cancel_left]
      rfl
    · rw [if_neg fun h ↦ hji ((SplitBuffer.slot_iff hk).mp h), if_neg hji]
      rfl
  have hdiv : (i : Int).tdiv 8 = ((i / 8 : Nat) : Int) := rfl
  have hmod : ((i : Int).tmod 8).toNat = i % 8 := rfl
  have hput : putBytes (fun _ ↦ setBit (c.b.flat (i / 8)) (i % 8) v)
      ((i / 8 / c.b.chunk : Nat) : Int) ((i / 8 % c.b.chunk : Nat) : Int) 1 1 c.b =
        .ok () b := putBytes_ok (m := 1) (Int.le_refl _)
  refine ⟨{ c₁ with u := u }, ?_, ⟨b, c.s, u, rfl, rfl, rfl, hucap⟩, ?_, ?_⟩
  · rw [setBValue, bind_ok (check_ok (indexCheck_ok hc (by decide) _ hi)), hdiv,
      bind_ok (onB_ok (located_ok hc.b (i / 8)))]
    dsimp only
    rw [bind_ok (onB_ok (getByte_ok hlt hcap)), hmod]
    refine (bind_ok (onB_ok hput)).trans ?_
    have hget : (get : CellM BlobOtCell) c₁ = .ok c₁ c₁ := rfl
    refine (bind_ok hget).trans ?_
    rw [if_pos hc₁.dealer]
    exact hu
  · intro j hj hR
    refine ⟨(hbit j).trans (if_neg hR), fun _ _ _ _ ↦ rfl, fun k hk ↦ ?_⟩
    exact (huByte j k hk).trans (if_neg hR)
  · rintro _ j hj rfl k hk
    refine ((huByte j k hk).trans (if_pos rfl)).trans ?_
    rw [show BlobOtCell.bit { c₁ with u := u } j = v from (hbit j).trans (if_pos rfl)]
    rfl

/-- Storing a blob in `s` changes one value of one transfer. -/
theorem putBlob_s (hc : c.Sound) (value : Option (List UInt8)) (valueOffset : Int) {i v : Nat}
    (hi : i < c.otCount) (hv : v < 2) :
    ∃ S, onS (putBlob value valueOffset c.blobSize (((i * 2 + v) * c.blobSize : Nat) : Int)) c =
        .ok () { c with s := S } ∧ S.capacity = c.s.capacity ∧
      ∀ j, ∀ w < 2, ∀ k < c.blobSize, S.flat ((j * 2 + w) * c.blobSize + k) =
        if j = i ∧ w = v then valueAt value (valueOffset.toNat + k) else c.sByte j w k := by
  obtain ⟨hs₁, hs₂⟩ := sWindow hc hi hv
  refine ⟨_, onS_ok (putBlob_ok hc.s value valueOffset hs₁ hc.blobSize_pos hs₂), rfl, ?_⟩
  intro j w hw k hk
  rw [SplitBuffer.flat_writeAt hs₂]
  by_cases hjw : j * 2 + w = i * 2 + v
  · rw [if_pos ((SplitBuffer.slot_iff hk).mpr hjw), if_pos (by omega), hjw,
      Nat.add_sub_cancel_left]
  · rw [if_neg fun h ↦ hjw ((SplitBuffer.slot_iff hk).mp h), if_neg (by omega), sByte]

/-- Storing a blob in `u` changes the value of one transfer. -/
theorem putBlob_u (hc : c.Sound) (value : Option (List UInt8)) (valueOffset : Int) {i : Nat}
    (hi : i < c.otCount) :
    ∃ U, onU (putBlob value valueOffset c.blobSize ((i * c.blobSize : Nat) : Int)) c =
        .ok () { c with u := U } ∧ U.capacity = c.u.capacity ∧
      ∀ j, ∀ k < c.blobSize, U.flat (j * c.blobSize + k) =
        if j = i then valueAt value (valueOffset.toNat + k) else c.uByte j k := by
  obtain ⟨hu₁, hu₂⟩ := uWindow hc hi
  refine ⟨_, onU_ok (putBlob_ok hc.u value valueOffset hu₁ hc.blobSize_pos hu₂), rfl, ?_⟩
  intro j k hk
  rw [SplitBuffer.flat_writeAt hu₂]
  by_cases hji : j = i
  · subst hji
    rw [if_pos ((SplitBuffer.slot_iff hk).mpr rfl), if_pos rfl, Nat.add_sub_cancel_left]
  · rw [if_neg fun h ↦ hji ((SplitBuffer.slot_iff hk).mp h), if_neg hji, uByte]

/-- `setSValue` changes its transfer only, and selects again when the bit points there. -/
theorem setSValue_changes (hc : c.Sound) {i v : Nat} (hi : i < c.otCount) (hv : v < 2)
    {value : Option (List UInt8)} {valueOffset : Int}
    (hval : valueCheck value valueOffset c = none) :
    ∃ c', setSValue i v value valueOffset c = .ok () c' ∧ Changes (· = i) c c' := by
  obtain ⟨S, hS, hScap, hSflat⟩ := putBlob_s hc value valueOffset hi hv
  let c₁ : BlobOtCell := { c with s := S }
  have hc₁ : c₁.Sound := hc.congr rfl hScap rfl
  obtain ⟨U, hU, hUcap, hUflat⟩ := putBlob_u hc₁ value valueOffset hi
  have hpS : ((i : Int) * 2 + (v : Nat)) * (c.blobSize : Nat) =
      (((i * 2 + v) * c.blobSize : Nat) : Int) := by push_cast; rfl
  have hpU : (i : Int) * (c.blobSize : Nat) = ((i * c.blobSize : Nat) : Int) := by
    push_cast; rfl
  have hget : (get : CellM BlobOtCell) c = .ok c c := rfl
  have hframe : ∀ j, j ≠ i → ∀ w < 2, ∀ k < c.blobSize, c₁.sByte j w k = c.sByte j w k :=
    fun j hj w hw k hk ↦ (hSflat j w hw k hk).trans (if_neg fun h ↦ hj h.1)
  have hrun : setSValue i v value valueOffset c =
      (if (v : Int) = (c₁.bit i : Nat) then
        onU (putBlob value valueOffset c.blobSize ((i : Int) * c.blobSize)) c₁
      else .ok () c₁) := by
    rw [setSValue, bind_ok (check_ok (indexCheck_ok hc (by decide) _ hi)),
      bind_ok (check_ok (by rw [pairCheck, if_neg (by omega), if_neg (by omega)])),
      bind_ok (check_ok hval), bind_ok hget, hpS, bind_ok hS, if_pos hc.dealer]
    refine (bind_ok (getBValue_ok hc₁ hi)).trans ?_
    split <;> rfl
  by_cases hb : v = c.bit i
  · refine ⟨{ c₁ with u := U }, ?_, ⟨c.b, S, U, rfl, rfl, hScap, hUcap⟩, ?_, ?_⟩
    · have hbit : (v : Int) = (c₁.bit i : Nat) := Int.ofNat_inj.mpr hb
      rw [hrun, if_pos hbit, hpU]
      exact hU
    · exact fun j hj hR ↦ ⟨rfl, fun w hw k hk ↦ hframe j hR w hw k hk,
        fun k hk ↦ (hUflat j k hk).trans (if_neg hR)⟩
    · rintro _ j hj rfl k hk
      refine ((hUflat j k hk).trans (if_pos rfl)).trans ?_
      exact ((hSflat j (c.bit j) (c.bit_lt j) k hk).trans (if_pos ⟨rfl, hb.symm⟩)).symm
  · refine ⟨c₁, ?_, ⟨c.b, S, c.u, rfl, rfl, hScap, rfl⟩, ?_, ?_⟩
    · rw [hrun, if_neg]
      exact fun h ↦ hb (Int.ofNat_inj.mp h)
    · exact fun j hj hR ↦ ⟨rfl, fun w hw k hk ↦ hframe j hR w hw k hk, fun _ _ ↦ rfl⟩
    · rintro hcons j hj rfl k hk
      refine (hcons j hj k hk).trans ?_
      exact ((hSflat j (c.bit j) (c.bit_lt j) k hk).trans (if_neg fun h ↦ hb h.2.symm)).symm

/-- `setUValue` changes its transfer only, and the `s` value that the bit selects with it. -/
theorem setUValue_changes (hc : c.Sound) {i : Nat} (hi : i < c.otCount)
    {value : Option (List UInt8)} {valueOffset : Int}
    (hval : valueCheck value valueOffset c = none) :
    ∃ c', setUValue i value valueOffset c = .ok () c' ∧ Changes (· = i) c c' := by
  obtain ⟨U, hU, hUcap, hUflat⟩ := putBlob_u hc value valueOffset hi
  let c₁ : BlobOtCell := { c with u := U }
  have hc₁ : c₁.Sound := hc.congr rfl rfl hUcap
  obtain ⟨S, hS, hScap, hSflat⟩ := putBlob_s hc₁ value valueOffset hi (c.bit_lt i)
  have hpS : ((i : Int) * 2 + (c.bit i : Nat)) * (c.blobSize : Nat) =
      (((i * 2 + c.bit i) * c.blobSize : Nat) : Int) := by push_cast; rfl
  have hpU : (i : Int) * (c.blobSize : Nat) = ((i * c.blobSize : Nat) : Int) := by
    push_cast; rfl
  have hget : (get : CellM BlobOtCell) c = .ok c c := rfl
  refine ⟨{ c₁ with s := S }, ?_, ⟨c.b, S, U, rfl, rfl, hScap, hUcap⟩, ?_, ?_⟩
  · rw [setUValue, bind_ok (check_ok (indexCheck_ok hc (by decide) _ hi)),
      bind_ok (check_ok hval), bind_ok hget, hpU, bind_ok hU, if_pos hc.dealer]
    refine (bind_ok (getBValue_ok hc₁ hi)).trans ?_
    rw [show c₁.bit i = c.bit i from rfl, hpS]
    exact hS
  · exact fun j hj hR ↦ ⟨rfl, fun w hw k hk ↦ (hSflat j w hw k hk).trans (if_neg fun h ↦ hR h.1),
      fun k hk ↦ (hUflat j k hk).trans (if_neg hR)⟩
  · rintro _ j hj rfl k hk
    refine ((hUflat j k hk).trans (if_pos rfl)).trans ?_
    exact ((hSflat j (c.bit j) (c.bit_lt j) k hk).trans (if_pos ⟨rfl, rfl⟩)).symm

end Safrn.Ot
