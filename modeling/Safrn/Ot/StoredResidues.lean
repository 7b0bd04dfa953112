import Safrn.Ot.Drawn
import Safrn.Ot.Invariant

/-!
# Stored residues

What the setters and `randomize` of `ResidueOtCell` leave in a cell, for each party and from any
contents. On a dealer's cell the selected value and the value that the bit selects are stored
together.
-/

namespace Safrn.Ot

open Safrn.Base Safrn.Java BlobOtCell

/-! ### Cells with room for every record -/

namespace BlobOtCell

/-- An open cell whose buffers lay out the records that its party holds. -/
structure Ready (c : BlobOtCell) : Prop where
  isOpen : c.isClosed = false
  s : c.party ≠ .RECEIVER → Slots c.s (c.otCount * 2) c.blobSize
  u : c.party ≠ .SENDER → Slots c.u c.otCount c.blobSize
  dealer : c.party = .DEALER → c.Sound

/-- The records are laid out as before when only contents change. -/
theorem Ready.congr {c : BlobOtCell} (hc : c.Ready) {b s u : ByteBuffers}
    (hb : b.capacity = c.b.capacity) (hs : s.capacity = c.s.capacity)
    (hu : u.capacity = c.u.capacity) : Ready { c with b := b, s := s, u := u } where
  isOpen := hc.isOpen
  s hp := (hc.s hp).congr hs
  u hp := (hc.u hp).congr hu
  dealer hp := (hc.dealer hp).congr hb hs hu

end BlobOtCell

variable {c : BlobOtCell}

/-- The holder of an array passes the checks of an operation on a transfer in range. -/
private theorem indexCheck_open {forbidden : Party} (hp : c.party ≠ forbidden)
    (ho : c.isClosed = false) (message : String) {i : Nat} (hi : i < c.otCount) :
    indexCheck forbidden message (i : Int) c = none := by
  rw [indexCheck, if_neg hp, if_neg (by simp [ho]), if_neg (by omega), if_neg (by omega)]

private theorem pairCheck_ok {v : Nat} (hv : v < 2) : pairCheck (v : Int) c = none := by
  rw [pairCheck, if_neg (by omega), if_neg (by omega)]

private theorem s_position (i v size : Nat) :
    ((i : Int) * 2 + (v : Nat)) * (size : Nat) = (((i * 2 + v) * size : Nat) : Int) := by
  push_cast
  rfl

private theorem u_position (i size : Nat) :
    (i : Int) * (size : Nat) = ((i * size : Nat) : Int) := by
  push_cast
  rfl

/-! ### Getters -/

namespace ResidueOtCell

theorem getSValue_slot (hp : c.party ≠ .RECEIVER) (ho : c.isClosed = false)
    (hs : Slots c.s (c.otCount * 2) c.blobSize) {i v : Nat} (hi : i < c.otCount) (hv : v < 2) :
    getSValue i v c = .ok (bigInteger (slot c.s c.blobSize (i * 2 + v))) c := by
  have hget : (get : CellM BlobOtCell) c = .ok c c := rfl
  have hcheck := indexCheck_open hp ho "this.party == BlobOtCell.RECEIVER" hi
  have hvalue : valueCheck (some (List.replicate (1 + c.blobSize) 0)) 1 c = none := by
    rw [valueCheck, if_neg (by decide), if_neg (by rw [List.length_replicate]; omega)]
  have hload : Ot.getSValue i v (some (List.replicate (1 + c.blobSize) 0)) 1 c =
      .ok (0 :: slot c.s c.blobSize (i * 2 + v)) c := by
    rw [Ot.getSValue, bind_ok (check_ok hcheck), bind_ok (check_ok (pairCheck_ok hv)),
      bind_ok (check_ok hvalue), bind_ok hget, s_position]
    exact onS_ok (hs.getBlob (by omega))
  rw [getSValue, bind_ok (check_ok hcheck), bind_ok (check_ok (pairCheck_ok hv)), bind_ok hget,
    bind_ok hload]
  rfl

theorem getUValue_slot (hp : c.party ≠ .SENDER) (ho : c.isClosed = false)
    (hu : Slots c.u c.otCount c.blobSize) {i : Nat} (hi : i < c.otCount) :
    getUValue i c = .ok (bigInteger (slot c.u c.blobSize i)) c := by
  have hget : (get : CellM BlobOtCell) c = .ok c c := rfl
  have hcheck := indexCheck_open hp ho "this.party == BlobOtCell.SENDER" hi
  have hload : Ot.getUValue i (some (List.replicate (1 + c.blobSize) 0)) 1 c =
      .ok (0 :: slot c.u c.blobSize i) c := by
    rw [Ot.getUValue, bind_ok (check_ok hcheck), bind_ok hget, u_position]
    exact onU_ok (hu.getBlob hi)
  rw [getUValue, bind_ok (check_ok hcheck), bind_ok hget, bind_ok hload]
  rfl

/-- The getters of a ready cell. -/
theorem Ready.getSValue (hc : c.Ready) (hp : c.party ≠ .RECEIVER) {i v : Nat} (hi : i < c.otCount)
    (hv : v < 2) : ResidueOtCell.getSValue i v c =
      .ok (bigInteger (slot c.s c.blobSize (i * 2 + v))) c :=
  getSValue_slot hp hc.isOpen (hc.s hp) hi hv

theorem Ready.getUValue (hc : c.Ready) (hp : c.party ≠ .SENDER) {i : Nat} (hi : i < c.otCount) :
    ResidueOtCell.getUValue i c = .ok (bigInteger (slot c.u c.blobSize i)) c :=
  getUValue_slot hp hc.isOpen (hc.u hp) hi

end ResidueOtCell

/-! ### Setters -/

/-- From `c` to `c'` the records `sChanged` and `uChanged` may change, and no bit. -/
structure Stores (sChanged : Nat → Prop) (uChanged : Nat → Prop) (c c' : BlobOtCell) : Prop where
  storage : ∃ s u, c' = { c with s := s, u := u } ∧ s.capacity = c.s.capacity ∧
    u.capacity = c.u.capacity
  s : ∀ r, ¬ sChanged r → slot c'.s c.blobSize r = slot c.s c.blobSize r
  u : ∀ r, ¬ uChanged r → slot c'.u c.blobSize r = slot c.u c.blobSize r

/-- Storing a blob as `s`. -/
theorem setSValue_stores (hc : c.Ready) (hp : c.party ≠ .RECEIVER) {i v : Nat} (hi : i < c.otCount)
    (hv : v < 2) {bytes : List UInt8} (hbytes : bytes.length = c.blobSize) :
    ∃ c', setSValue i v (some bytes) 0 c = .ok () c' ∧
      Stores (· = i * 2 + v) (fun r ↦ r = i ∧ c.party = .DEALER ∧ v = c.bit i) c c' ∧
      slot c'.s c.blobSize (i * 2 + v) = bytes := by
  obtain ⟨S, hS, hScap, hSslot, hSframe⟩ := (hc.s hp).putBlob (r := i * 2 + v) (by omega) hbytes
  have hget : (get : CellM BlobOtCell) c = .ok c c := rfl
  have hcheck := indexCheck_open hp hc.isOpen "this.party == BlobOtCell.RECEIVER" hi
  have hvalue : valueCheck (some bytes) 0 c = none := by
    rw [valueCheck, if_neg (by decide), if_neg (by omega)]
  let c₁ : BlobOtCell := { c with s := S }
  have hrun : setSValue i v (some bytes) 0 c = (if c.party = .DEALER then
      getBValue i >>= fun bit ↦
        if (v : Int) = bit then onU (putBlob (some bytes) 0 c.blobSize ((i : Int) * c.blobSize))
        else pure ()
      else pure () : CellM Unit) c₁ := by
    rw [setSValue, bind_ok (check_ok hcheck), bind_ok (check_ok (pairCheck_ok hv)),
      bind_ok (check_ok hvalue), bind_ok hget, s_position, bind_ok (onS_ok hS)]
  by_cases hd : c.party = .DEALER
  · have hc₁ : c₁.Ready := hc.congr rfl hScap rfl
    rw [if_pos hd] at hrun
    have hbit : getBValue i c₁ = .ok (c.bit i) c₁ := getBValue_ok (hc₁.dealer hd) hi
    by_cases hb : v = c.bit i
    · have hnotSender : c.party ≠ .SENDER := by rw [hd]; decide
      obtain ⟨U, hU, hUcap, -, hUframe⟩ := (hc.u hnotSender).putBlob hi hbytes
      refine ⟨{ c₁ with u := U }, ?_, ⟨⟨S, U, rfl, hScap, hUcap⟩, hSframe, fun r hr ↦ ?_⟩, hSslot⟩
      · rw [hrun, bind_ok hbit, if_pos (Int.ofNat_inj.mpr hb), u_position]
        exact onU_ok hU
      · exact hUframe r fun heq ↦ hr ⟨heq, hd, hb⟩
    · refine ⟨c₁, ?_, ⟨⟨S, c.u, rfl, hScap, rfl⟩, hSframe, fun _ _ ↦ rfl⟩, hSslot⟩
      rw [hrun, bind_ok hbit, if_neg fun heq ↦ hb (Int.ofNat_inj.mp heq)]
      rfl
  · refine ⟨c₁, ?_, ⟨⟨S, c.u, rfl, hScap, rfl⟩, hSframe, fun _ _ ↦ rfl⟩, hSslot⟩
    rw [hrun, if_neg hd]
    rfl

/-- Storing a blob as `u`. -/
theorem setUValue_stores (hc : c.Ready) (hp : c.party ≠ .SENDER) {i : Nat} (hi : i < c.otCount)
    {bytes : List UInt8} (hbytes : bytes.length = c.blobSize) :
    ∃ c', setUValue i (some bytes) 0 c = .ok () c' ∧
      Stores (fun r ↦ c.party = .DEALER ∧ r = i * 2 + c.bit i) (· = i) c c' ∧
      slot c'.u c.blobSize i = bytes := by
  obtain ⟨U, hU, hUcap, hUslot, hUframe⟩ := (hc.u hp).putBlob hi hbytes
  have hget : (get : CellM BlobOtCell) c = .ok c c := rfl
  have hcheck := indexCheck_open hp hc.isOpen "this.party == BlobOtCell.SENDER" hi
  have hvalue : valueCheck (some bytes) 0 c = none := by
    rw [valueCheck, if_neg (by decide), if_neg (by omega)]
  let c₁ : BlobOtCell := { c with u := U }
  have hrun : setUValue i (some bytes) 0 c = (if c.party = .DEALER then
      getBValue i >>= fun bit ↦
        onS (putBlob (some bytes) 0 c.blobSize (((i : Int) * 2 + bit) * c.blobSize))
      else pure () : CellM Unit) c₁ := by
    rw [setUValue, bind_ok (check_ok hcheck), bind_ok (check_ok hvalue), bind_ok hget, u_position,
      bind_ok (onU_ok hU)]
  by_cases hd : c.party = .DEALER
  · have hc₁ : c₁.Ready := hc.congr rfl rfl hUcap
    have hbit : getBValue i c₁ = .ok (c.bit i) c₁ := getBValue_ok (hc₁.dealer hd) hi
    have hnotReceiver : c.party ≠ .RECEIVER := by rw [hd]; decide
    have hlt := c.bit_lt i
    obtain ⟨S, hS, hScap, -, hSframe⟩ :=
      (hc.s hnotReceiver).putBlob (r := i * 2 + c.bit i) (by omega) hbytes
    refine ⟨{ c₁ with s := S }, ?_,
      ⟨⟨S, U, rfl, hScap, hUcap⟩, fun r hr ↦ hSframe r fun heq ↦ hr ⟨hd, heq⟩, hUframe⟩, hUslot⟩
    rw [hrun, if_pos hd, bind_ok hbit, s_position]
    exact onS_ok hS
  · refine ⟨c₁, ?_, ⟨⟨c.s, U, rfl, rfl, hUcap⟩, fun _ _ ↦ rfl, hUframe⟩, hUslot⟩
    rw [hrun, if_neg hd]
    rfl

/-- Storing keeps the cell ready. -/
theorem Stores.ready {sChanged uChanged : Nat → Prop} {c' : BlobOtCell}
    (h : Stores sChanged uChanged c c') (hc : c.Ready) : c'.Ready := by
  obtain ⟨S, U, rfl, hS, hU⟩ := h.storage
  exact hc.congr rfl hS hU

namespace ResidueOtCell

/-- No bit changes, and of the values that are read at most those of `sChanged` and `uChanged`. -/
structure Keeps (sChanged : Nat → Nat → Prop) (uChanged : Nat → Prop) (c c' : BlobOtCell) :
    Prop where
  b : c.party ≠ .SENDER → ∀ j < c.otCount, outcome (getBValue j c') = outcome (getBValue j c)
  s : c.party ≠ .RECEIVER → ∀ j < c.otCount, ∀ w < 2, ¬ sChanged j w →
    outcome (getSValue j w c') = outcome (getSValue j w c)
  u : c.party ≠ .SENDER → ∀ j < c.otCount, ¬ uChanged j →
    outcome (getUValue j c') = outcome (getUValue j c)

/-- What is stored apart is read as before. -/
theorem Stores.keeps {sChanged uChanged : Nat → Prop} {c' : BlobOtCell}
    (h : Stores sChanged uChanged c c') (hc : c.Ready) :
    Keeps (fun j w ↦ sChanged (j * 2 + w)) uChanged c c' := by
  have hc' := h.ready hc
  obtain ⟨S, U, rfl, hS, hU⟩ := h.storage
  refine ⟨fun hp j hj ↦ ?_, fun hp j hj w hw hne ↦ ?_, fun hp j hj hne ↦ ?_⟩
  · exact (reads_getBValue j).same _ _ ⟨hp, hp, rfl, rfl, rfl, rfl, fun _ _ _ ↦ rfl⟩
  · rw [Ready.getSValue hc hp hj hw, Ready.getSValue hc' hp hj hw]
    exact congrArg (fun bytes ↦ Except.ok (bigInteger bytes)) (h.s _ hne)
  · rw [Ready.getUValue hc hp hj, Ready.getUValue hc' hp hj]
    exact congrArg (fun bytes ↦ Except.ok (bigInteger bytes)) (h.u _ hne)

/-- A residue passes the checks of its setter. -/
private theorem residueCheck_ok {modulus value : BigInteger} (h0 : 0 ≤ value.value)
    (hlt : value.value < modulus.value) : residueCheck modulus value c = none := by
  have hsign : ¬ value.signum < 0 := by
    rw [BigInteger.signum, Int.sign_neg_iff]
    omega
  rw [residueCheck, if_neg hsign, if_neg (by omega)]

variable {modulus : BigInteger}

/-- The setters of residues store the bytes. -/
private theorem set_eq (hsize : 0 < c.blobSize) (hfits : modulus.value ≤ 256 ^ c.blobSize)
    {value : BigInteger} (h0 : 0 ≤ value.value) (hlt : value.value < modulus.value) :
    ∃ bytes, bytes.length = c.blobSize ∧ (bigInteger bytes : Int) = value.value ∧
      (∀ i v, setSValue modulus i v (some value) c = Ot.setSValue i v (some bytes) 0 c) ∧
      ∀ i, setUValue modulus i (some value) c = Ot.setUValue i (some bytes) 0 c := by
  obtain ⟨bytes, hencode, hlength, hvalue⟩ :=
    residueBytes_ok hsize h0 (Int.lt_of_lt_of_le hlt hfits)
  have hget : (get : CellM BlobOtCell) c = .ok c c := rfl
  refine ⟨bytes, hlength, hvalue, fun i v ↦ ?_, fun i ↦ ?_⟩
  · rw [setSValue, Option.getD_some, bind_ok (check_ok (residueCheck_ok h0 hlt)), bind_ok hget,
      hencode]
  · rw [setUValue, Option.getD_some, bind_ok (check_ok (residueCheck_ok h0 hlt)), bind_ok hget,
      hencode]

/-- Storing a residue as `s` and reading it. -/
theorem setSValue_ok (hc : c.Ready) (hfits : modulus.value ≤ 256 ^ c.blobSize)
    (hp : c.party ≠ .RECEIVER) {i v : Nat} (hi : i < c.otCount) (hv : v < 2) {value : BigInteger}
    (h0 : 0 ≤ value.value) (hlt : value.value < modulus.value) :
    ∃ c' x, setSValue modulus i v (some value) c = .ok () c' ∧ getSValue i v c' = .ok x c' ∧
      x = value.value ∧ Keeps (fun j w ↦ j = i ∧ w = v)
        (fun j ↦ j = i ∧ c.party = .DEALER ∧ outcome (getBValue i c) = .ok v) c c' := by
  obtain ⟨bytes, hlength, hvalue, heq, -⟩ := set_eq (hc.s hp).size_pos hfits h0 hlt
  obtain ⟨c', hset, hstores, hslot⟩ := setSValue_stores hc hp hi hv hlength
  have hrun := (heq i v).trans hset
  have hc' := hstores.ready hc
  have hkeeps := Stores.keeps hstores hc
  obtain ⟨S, U, rfl, -, -⟩ := hstores.storage
  refine ⟨_, _, hrun, Ready.getSValue hc' hp hi hv, ?_, hkeeps.b, ?_, ?_⟩
  · rw [hslot]
    exact hvalue
  · intro hp j hj w hw hne
    exact hkeeps.s hp j hj w hw fun heq ↦ hne (by omega)
  · intro hp j hj hne
    apply hkeeps.u hp j hj
    rintro ⟨rfl, hd, rfl⟩
    rw [getBValue_ok (hc.dealer hd) hj] at hne
    exact hne ⟨rfl, hd, rfl⟩

/-- Storing a residue as `u` and reading it. -/
theorem setUValue_ok (hc : c.Ready) (hfits : modulus.value ≤ 256 ^ c.blobSize)
    (hp : c.party ≠ .SENDER) {i : Nat} (hi : i < c.otCount) {value : BigInteger}
    (h0 : 0 ≤ value.value) (hlt : value.value < modulus.value) :
    ∃ c' x, setUValue modulus i (some value) c = .ok () c' ∧ getUValue i c' = .ok x c' ∧
      x = value.value ∧ Keeps
        (fun j w ↦ c.party = .DEALER ∧ j = i ∧ outcome (getBValue i c) = .ok w) (· = i) c c' := by
  obtain ⟨bytes, hlength, hvalue, -, heq⟩ := set_eq (hc.u hp).size_pos hfits h0 hlt
  obtain ⟨c', hset, hstores, hslot⟩ := setUValue_stores hc hp hi hlength
  have hrun := (heq i).trans hset
  have hc' := hstores.ready hc
  have hkeeps := Stores.keeps hstores hc
  obtain ⟨S, U, rfl, -, -⟩ := hstores.storage
  refine ⟨_, _, hrun, Ready.getUValue hc' hp hi, ?_, hkeeps.b, ?_, hkeeps.u⟩
  · rw [hslot]
    exact hvalue
  · intro hp j hj w hw hne
    apply hkeeps.s hp j hj w hw
    rintro ⟨hd, heq⟩
    have hbit := c.bit_lt i
    obtain ⟨rfl, rfl⟩ : j = i ∧ w = c.bit i := by omega
    rw [getBValue_ok (hc.dealer hd) hj] at hne
    exact hne ⟨hd, rfl, rfl⟩

/-! ### `randomize` -/

/-- Bytes of a value below the modulus. -/
def IsResidue (modulus : BigInteger) (bytes : List UInt8) : Prop :=
  (bigInteger bytes : Int) < modulus.value

/-- Every value that is read is as before or a residue. -/
structure DrawsResidues (modulus : BigInteger) (c c' : BlobOtCell) : Prop where
  s : c.party ≠ .RECEIVER → ∀ j < c.otCount, ∀ w : Nat, w < 2 →
    outcome (getSValue j w c') = outcome (getSValue j w c) ∨
      ∃ x : Nat, outcome (getSValue j w c') = .ok x ∧ x < modulus.value
  u : c.party ≠ .SENDER → ∀ j < c.otCount,
    outcome (getUValue j c') = outcome (getUValue j c) ∨
      ∃ x : Nat, outcome (getUValue j c') = .ok x ∧ x < modulus.value

theorem DrawsResidues.refl (modulus : BigInteger) (c : BlobOtCell) : DrawsResidues modulus c c :=
  ⟨fun _ _ _ _ _ ↦ .inl rfl, fun _ _ _ ↦ .inl rfl⟩

/-- The values that are read are those of the records. -/
private theorem DrawsResidues.of_slots (hc : c.Ready) {b s u : ByteBuffers}
    (hs : Refilled (IsResidue modulus) c.blobSize c.s s)
    (hu : u.capacity = c.u.capacity)
    (huslot : ∀ j < c.otCount, slot u c.blobSize j = slot c.u c.blobSize j ∨
      IsResidue modulus (slot u c.blobSize j)) :
    DrawsResidues modulus c { c with b := b, s := s, u := u } where
  s hp j hj w hw := by
    have hs' : Slots s (c.otCount * 2) c.blobSize := (hc.s hp).congr hs.capacity
    rw [Ready.getSValue hc hp hj hw]
    have hread := @getSValue_slot { c with b := b, s := s, u := u } hp hc.isOpen hs' j w hj hw
    rw [hread]
    rcases hs.slots (j * 2 + w) with heq | hlt
    · exact .inl (congrArg (fun bytes ↦ Except.ok (bigInteger bytes)) heq)
    · exact .inr ⟨_, rfl, hlt⟩
  u hp j hj := by
    have hu' : Slots u c.otCount c.blobSize := (hc.u hp).congr hu
    rw [Ready.getUValue hc hp hj]
    have hread := @getUValue_slot { c with b := b, s := s, u := u } hp hc.isOpen hu' j hj
    rw [hread]
    rcases huslot j hj with heq | hlt
    · exact .inl (congrArg (fun bytes ↦ Except.ok (bigInteger bytes)) heq)
    · exact .inr ⟨_, rfl, hlt⟩

/-- All that `Rand.modular` delivers are residues, one after the other. -/
def Delivers (modulus : BigInteger) (size : Nat) (draw : Nat → Nat → Nat → UInt8) : Prop :=
  ∀ i j t, IsResidue modulus ((List.range size).map fun k ↦ draw i j (t * size + k))

variable {draw : Nat → Nat → Nat → UInt8}

/-- Whatever the arguments and however it ends, `randomize` stores residues. -/
theorem randomize_draws (hc : c.Ready) (hdraw : Delivers modulus c.blobSize draw)
    (freshB : Nat → Nat → UInt8) (otOffset otLength : Int) :
    DrawsResidues modulus c (finalState (randomize draw freshB otOffset otLength c)) := by
  cases hcheck : randomizeCheck otOffset otLength c with
  | some e =>
    rw [randomize, bind_error (check_error hcheck)]
    exact DrawsResidues.refl modulus c
  | none =>
  obtain ⟨o, l, rfl, rfl, hol, ho8, hl8⟩ := randomizeCheck_none hcheck
  have hd : c.party = .DEALER := by
    by_contra hd
    rw [randomizeCheck, if_pos hd] at hcheck
    cases hcheck
  have hnotReceiver : c.party ≠ .RECEIVER := by rw [hd]; decide
  have hsound := hc.dealer hd
  have hslots := hc.s hnotReceiver
  have hsize := hslots.size_pos
  have hget : (get : CellM BlobOtCell) c = .ok c c := rfl
  have hfirst : (o : Int) * 2 * (c.blobSize : Nat) = ((o * 2 * c.blobSize : Nat) : Int) := by
    push_cast
    rfl
  have hlast : ((o : Int) + l) * 2 * (c.blobSize : Nat) =
      (((o + l) * 2 * c.blobSize : Nat) : Int) := by
    push_cast
    rfl
  have hrefilled : Refilled (IsResidue modulus) c.blobSize c.s
      (finalState (modularRange draw ((o : Int) * 2 * c.blobSize)
        (((o : Int) + l) * 2 * c.blobSize - 1) c.s)) := by
    apply modularRange_refilled hdraw hslots.wholeRecords
    · exact Dvd.intro_left _ rfl
    · rw [Int.sub_add_cancel]
      exact Dvd.intro_left _ rfl
  rw [randomize, bind_ok (check_ok hcheck), bind_ok hget]
  rcases Nat.eq_zero_or_pos l with rfl | hl
  · -- no transfer is selected again, and either run may throw
    rw [finalState_bind, onB]
    cases fillRange freshB ((o : Int).tdiv 8) (((o : Int) + (0 : Nat) - 1).tdiv 8) c.b with
    | error e b => exact DrawsResidues.of_slots hc (Refilled.refl c.s) rfl fun _ _ ↦ .inl rfl
    | ok x b =>
      dsimp only
      rw [finalState_bind, onS]
      dsimp only
      cases hS : modularRange draw ((o : Int) * 2 * c.blobSize)
          (((o : Int) + (0 : Nat)) * 2 * c.blobSize - 1) c.s with
      | error e S =>
        rw [hS] at hrefilled
        exact DrawsResidues.of_slots hc hrefilled rfl fun _ _ ↦ .inl rfl
      | ok x S =>
        rw [hS] at hrefilled
        exact DrawsResidues.of_slots hc hrefilled rfl fun _ _ ↦ .inl rfl
  · have hb0 : (o : Int).tdiv 8 = ((o / 8 : Nat) : Int) := rfl
    have hb1 : ((o : Int) + l - 1).tdiv 8 = (((o + l - 1) / 8 : Nat) : Int) := by
      rw [show (o : Int) + l - 1 = ((o + l - 1 : Nat) : Int) by omega]
      rfl
    have hpos : 0 < (o + l) * 2 * c.blobSize := Nat.mul_pos (by omega) hsize
    have hs1 : (((o + l) * 2 * c.blobSize : Nat) : Int) - 1 =
        (((o + l) * 2 * c.blobSize - 1 : Nat) : Int) := by
      rw [Int.ofNat_sub hpos]
      rfl
    obtain ⟨b, hb, hbcap, -⟩ := fillRange_ok hsound.b freshB (o / 8) ((o + l - 1) / 8)
      (Nat.div_le_div_right (by omega)) (byte_lt (by omega))
    obtain ⟨S, hS, hScap, hfresh⟩ := modularRange_ok draw hslots hdraw
      (show o * 2 < (o + l) * 2 by omega) (by omega)
    let c₂ : BlobOtCell := { c with b := b, s := S }
    obtain ⟨U, hU, hUcap, hUflat⟩ := selectRange_ok l (i := o) (c := c₂)
      (hsound.congr hbcap hScap rfl) hol
    rw [hfirst, hlast, hs1, hS] at hrefilled
    rw [hb0, hb1, bind_ok (onB_ok hb), hfirst, hlast, hs1,
      bind_ok (onS_ok (c := { c with b := b }) hS), Int.toNat_natCast, hU]
    refine DrawsResidues.of_slots hc hrefilled hUcap fun j hj ↦ ?_
    by_cases hin : o ≤ j ∧ j < o + l
    · -- the selected record has just been drawn
      right
      have hbit := c₂.bit_lt j
      have hslot : slot U c.blobSize j = slot S c.blobSize (j * 2 + c₂.bit j) :=
        slot_congr fun k hk ↦ (hUflat j k hk).trans (if_pos hin)
      rw [hslot]
      exact hfresh _ (by omega) (by omega)
    · exact .inl (slot_congr fun k hk ↦ (hUflat j k hk).trans (if_neg hin))

/-! ### All cells of a constructor -/

/-- A residue has at most as many bytes as its modulus, and every residue fits. -/
structure ResidueSize (residueSize : BigInteger → Int) : Prop where
  fits : ∀ modulus : BigInteger, 0 < modulus.value →
    modulus.value ≤ 256 ^ (residueSize modulus).toNat
  le : ∀ modulus : BigInteger, 0 < modulus.value →
    residueSize modulus ≤ (modulus.bitLength / 8 + 1 : Nat)

/-- From whatever contents, a residue that is stored is read again and the other records stay, and
`randomize` stores nothing but residues. -/
structure StoresResidues (modulus : BigInteger) (c₀ : BlobOtCell) : Prop where
  s : c₀.party ≠ .RECEIVER → ∀ c, c₀.SameShape c → ∀ i < c.otCount, ∀ v : Nat, v < 2 →
    ∀ value : BigInteger, 0 ≤ value.value → value.value < modulus.value →
      ∃ c' x, setSValue modulus i v (some value) c = .ok () c' ∧ getSValue i v c' = .ok x c' ∧
        x = value.value ∧ Keeps (fun j w ↦ j = i ∧ w = v)
          (fun j ↦ j = i ∧ c.party = .DEALER ∧ outcome (getBValue i c) = .ok v) c c'
  u : c₀.party ≠ .SENDER → ∀ c, c₀.SameShape c → ∀ i < c.otCount,
    ∀ value : BigInteger, 0 ≤ value.value → value.value < modulus.value →
      ∃ c' x, setUValue modulus i (some value) c = .ok () c' ∧ getUValue i c' = .ok x c' ∧
        x = value.value ∧ Keeps
          (fun j w ↦ c.party = .DEALER ∧ j = i ∧ outcome (getBValue i c) = .ok w) (· = i) c c'
  randomize : ∀ c, c₀.SameShape c → ∀ draw, Delivers modulus c.blobSize draw →
    ∀ freshB otOffset otLength,
      DrawsResidues modulus c (finalState (randomize draw freshB otOffset otLength c))

/-- No array of records, and on the dealer's side not the bits either, requires a multiple of what
one buffer holds. -/
structure HasRoom (party : Party) (n size : Nat) : Prop where
  b : party = .DEALER → bBytes n % intMax ≠ 0
  s : party ≠ .RECEIVER → n * (2 * size) % sPerBuffer size ≠ 0
  u : party ≠ .SENDER → n * size % uPerBuffer size ≠ 0

/-- What the constructor of a cell of residues leaves. -/
theorem new_ok {residueSize : BigInteger → Int} {party : Party} {otCount : Int}
    (h : new residueSize party otCount (some modulus) = .ok c) :
    0 < modulus.value ∧
      Constructed party otCount.toNat (residueSize modulus).toNat c := by
  rw [new, computeBlobSize] at h
  split at h
  · cases h
  split at h
  · cases h
  next hneg hzero =>
  refine ⟨?_, BlobOtCell.new_ok h⟩
  rw [BigInteger.signum, Int.sign_neg_iff] at hneg
  rw [BigInteger.signum, Int.sign_eq_zero_iff_zero] at hzero
  omega

/-- A blob is shorter than any array. -/
private theorem two_mul_size_le {residueSize : BigInteger → Int} (hsize : ResidueSize residueSize)
    (h0 : 0 < modulus.value) : 2 * (residueSize modulus).toNat ≤ intMax := by
  have hle := hsize.le modulus h0
  have hbits : modulus.bitLength ≤ Integer.MAX_VALUE := by
    rw [BigInteger.bitLength, if_neg (by omega)]
    have hrange := modulus.inRange
    rwa [show modulus.value.natAbs = modulus.value.toNat by omega] at hrange
  have hmax : Integer.MAX_VALUE = 2 ^ 31 - 1 := rfl
  have hint : intMax = 2 ^ 31 - 1 := rfl
  omega

variable {party : Party} {n size : Nat}

/-- With room for every record, a cell is ready. -/
theorem Constructed.ready (h : Constructed party n size c) (hint : 2 * size ≤ intMax)
    (hroom : HasRoom party n size) : c.Ready := by
  obtain ⟨rfl, rfl, rfl, hopen, hsize, -, hb, hs, hu⟩ := h
  have hS : c.party ≠ .RECEIVER → Slots c.s (c.otCount * 2) c.blobSize := fun hp ↦
    { layout := by
        rw [Nat.mul_assoc]
        exact allocate_layout (hs hp) (hroom.s hp) (sPerBuffer_pos hsize hint)
      size_pos := hsize
      dvd := (allocate_ok (hs hp)).2.2 _ (Nat.dvd_mul_left_of_dvd (Nat.dvd_mul_left _ 2) _)
        (Nat.dvd_mul_left_of_dvd (Nat.dvd_mul_left _ 2) _) }
  have hU : c.party ≠ .SENDER → Slots c.u c.otCount c.blobSize := fun hp ↦
    { layout := allocate_layout (hu hp) (hroom.u hp) (uPerBuffer_pos hsize (by omega))
      size_pos := hsize
      dvd := (allocate_ok (hu hp)).2.2 _ (Nat.dvd_mul_left _ _) (Nat.dvd_mul_left _ _) }
  refine ⟨hopen, hS, hU, fun hd ↦ ?_⟩
  have hnotReceiver : c.party ≠ .RECEIVER := by rw [hd]; decide
  have hnotSender : c.party ≠ .SENDER := by rw [hd]; decide
  have hlayout := (hS hnotReceiver).layout
  rw [Nat.mul_assoc] at hlayout
  exact ⟨hd, hopen, hsize, allocate_layout (hb hnotSender) (hroom.b hd) (by decide), hlayout,
    (hU hnotSender).layout, (hS hnotReceiver).dvd, (hU hnotSender).dvd⟩

/-- Contents do not make a cell less ready. -/
theorem Ready.of_sameShape {c' : BlobOtCell} (hc : c.Ready) (h : c.SameShape c') : c'.Ready := by
  have heq : c' = { c with b := c'.b, s := c'.s, u := c'.u } := by
    cases c'
    simp only [BlobOtCell.mk.injEq, and_true]
    exact ⟨h.party, h.otCount, h.blobSize, h.isClosed⟩
  rw [heq]
  exact hc.congr (h.capacity .b) (h.capacity .s) (h.capacity .u)

/-! ### Without room -/

/-- The record or bit that begins in a last buffer without room is one of the array. -/
private theorem last_lt {n per q unit : Nat} (hunit : 0 < unit) (hper : per = q * unit)
    (hk : n * unit / per ≠ 0) : (n * unit / per - 1) * q < n := by
  have hq : 0 < q := by
    rcases Nat.eq_zero_or_pos q with rfl | hq
    · rw [hper, Nat.zero_mul, Nat.div_zero] at hk
      exact absurd rfl hk
    · exact hq
  have hle : n * unit / per * per ≤ n * unit := Nat.div_mul_le_self _ _
  generalize n * unit / per = k at hk hle ⊢
  subst hper
  rw [← Nat.mul_assoc] at hle
  have hkq : k * q ≤ n := Nat.le_of_mul_le_mul_right hle hunit
  have hlt : (k - 1) * q < k * q := Nat.mul_lt_mul_of_pos_right (by omega) hq
  omega

/-- A sequence that throws, at the latest in its last step. -/
private def Throws {σ α : Type} (m : EStateM Status σ α) (s : σ) : Prop := ∃ e t, m s = .error e t

private theorem Throws.bind {σ α β : Type} {m : EStateM Status σ α} {f : α → EStateM Status σ β}
    {s : σ} (h : ∀ a t, m s = .ok a t → Throws (f a) t) : Throws (m >>= f) s := by
  cases hm : m s with
  | ok a t =>
    obtain ⟨e, t', he⟩ := h a t hm
    exact ⟨e, t', (bind_ok hm).trans he⟩
  | error e t => exact ⟨e, t, bind_error hm⟩

private theorem Throws.check {α : Type} {f : BlobOtCell → Option Status} {m : Unit → CellM α}
    (h : Throws (m ()) c) : Throws (check f >>= m) c := by
  apply Throws.bind
  intro _ t ht
  rw [Ot.check] at ht
  split at ht
  · cases ht
  · cases ht
    exact h

private theorem Throws.onS {α : Type} {m : BufferM α} (h : Throws m c.s) : Throws (onS m) c := by
  obtain ⟨e, B, he⟩ := h
  exact ⟨e, _, by rw [Ot.onS, he]⟩

private theorem Throws.onU {α : Type} {m : BufferM α} (h : Throws m c.u) : Throws (onU m) c := by
  obtain ⟨e, B, he⟩ := h
  exact ⟨e, _, by rw [Ot.onU, he]⟩

/-- A sequence whose first step throws. -/
private theorem Throws.seq {σ α β : Type} {m : EStateM Status σ α} {f : α → EStateM Status σ β}
    {s : σ} (h : Throws m s) : Throws (m >>= f) s := by
  obtain ⟨e, t, he⟩ := h
  exact ⟨e, t, bind_error he⟩

/-- Without room, the pair of some transfer is not stored. -/
private theorem setSValue_throws (h : Constructed party n size c) (hp : party ≠ .RECEIVER)
    (hint : 2 * size ≤ intMax) (hfull : n * (2 * size) % sPerBuffer size = 0) :
    ∃ i < n, ∀ value, Throws (Ot.setSValue i (0 : Nat) value 0) c := by
  obtain ⟨hne, hcap⟩ := capacity_of_mod_eq_zero (h.s hp) hfull
  have hsize := h.size_pos
  refine ⟨_, last_lt (by omega) rfl hne, fun value ↦ ?_⟩
  have hpos : ∀ k : Nat, ((k * (intMax / (2 * size)) : Nat) : Int) * 2 + (0 : Nat) =
      ((k * (intMax / (2 * size)) * 2 : Nat) : Int) := by
    intro k
    push_cast
    rfl
  have hlocate : ∀ k : Nat, ((k * (intMax / (2 * size)) * 2 : Nat) : Int) * (size : Nat) =
      ((k * sPerBuffer size : Nat) : Int) := by
    intro k
    rw [sPerBuffer]
    push_cast
    ring
  obtain ⟨e, he⟩ := putBlob_last (sPerBuffer_pos hsize hint) hsize hcap value 0
  apply Throws.check
  apply Throws.check
  apply Throws.check
  apply Throws.bind
  intro _ _ hget
  cases hget
  apply Throws.seq
  apply Throws.onS
  rw [h.blobSize, hpos, hlocate]
  exact ⟨e, _, he⟩

/-- Without room, the selected value of some transfer is not stored. -/
private theorem setUValue_throws (h : Constructed party n size c) (hp : party ≠ .SENDER)
    (hint : size ≤ intMax) (hfull : n * size % uPerBuffer size = 0) :
    ∃ i < n, ∀ value, Throws (Ot.setUValue i value 0) c := by
  obtain ⟨hne, hcap⟩ := capacity_of_mod_eq_zero (h.u hp) hfull
  have hsize := h.size_pos
  refine ⟨_, last_lt hsize rfl hne, fun value ↦ ?_⟩
  have hlocate : ∀ k : Nat, ((k * (intMax / size) : Nat) : Int) * (size : Nat) =
      ((k * uPerBuffer size : Nat) : Int) := by
    intro k
    rw [uPerBuffer]
    push_cast
    ring
  obtain ⟨e, he⟩ := putBlob_last (uPerBuffer_pos hsize hint) hsize hcap value 0
  apply Throws.check
  apply Throws.check
  apply Throws.bind
  intro _ _ hget
  cases hget
  apply Throws.seq
  apply Throws.onU
  rw [h.blobSize, hlocate]
  exact ⟨e, _, he⟩

/-- Without room, the bit of some transfer is not read. -/
private theorem getBValue_throws {k : Nat} (hcap : c.b.capacity = List.replicate k intMax ++ [0]) :
    Throws (getBValue (8 * (k * intMax) : Nat)) c := by
  have hdiv : ((8 * (k * intMax) : Nat) : Int).tdiv 8 = ((k * intMax : Nat) : Int) := by
    rw [Nat.cast_mul]
    exact Int.mul_tdiv_cancel_left _ (by decide)
  apply Throws.check
  rw [hdiv]
  rcases located_last (by decide) hcap with ⟨e, he⟩ | ⟨hok, hk, hcapk⟩
  · exact Throws.seq ⟨e, _, by rw [onB, he]⟩
  · apply Throws.bind
    intro _ _ hloc
    rw [onB, hok] at hloc
    cases hloc
    have hbyte : getByte (k : Nat) ((0 : Nat) : Int) c.b = .error .indexOutOfBoundsException c.b := by
      rw [getByte, if_neg (by omega), if_pos (by rw [Int.toNat_natCast]; omega)]
    exact Throws.seq ⟨_, _, by rw [onB]; erw [hbyte]⟩

/-- A dealer whose bits lack room does not store the pair of some transfer. -/
private theorem setSValue_throws_of_b (h : Constructed .DEALER n size c)
    (hfull : bBytes n % intMax = 0) :
    ∃ i < n, ∀ value, Throws (Ot.setSValue i (0 : Nat) value 0) c := by
  obtain ⟨hne, hcap⟩ := capacity_of_mod_eq_zero (h.b (by decide)) hfull
  have hlt := last_lt (n := bBytes n) Nat.zero_lt_one (Nat.mul_one intMax).symm
    (by rwa [Nat.mul_one])
  rw [Nat.mul_one] at hlt
  refine ⟨8 * ((bBytes n / intMax - 1) * intMax), ?_, fun value ↦ ?_⟩
  · generalize (bBytes n / intMax - 1) * intMax = byte at hlt ⊢
    rw [bBytes] at hlt
    split at hlt <;> omega
  apply Throws.check
  apply Throws.check
  apply Throws.check
  apply Throws.bind
  intro _ _ hget
  cases hget
  apply Throws.bind
  intro _ c₁ hput
  have hb₁ : c₁.b = c.b := by
    rw [Ot.onS] at hput
    split at hput
    · cases hput
      rfl
    · cases hput
  rw [if_pos h.role]
  apply Throws.seq
  apply getBValue_throws
  rw [hb₁]
  exact hcap

/-! ### Every record of every cell -/

section

variable {residueSize : BigInteger → Int} {otCount : Int}

/-- Where all residues are stored there is room for every record. -/
theorem hasRoom_of_storesResidues (hsize : ResidueSize residueSize)
    (h : new residueSize party otCount (some modulus) = .ok c) (hstores : StoresResidues modulus c) :
    HasRoom party otCount.toNat (residueSize modulus).toNat := by
  obtain ⟨h0, hc⟩ := new_ok h
  have hint := two_mul_size_le hsize h0
  have hfits := hsize.fits modulus h0
  have hpos : 0 < c.blobSize := by
    rw [hc.blobSize]
    exact hc.size_pos
  rw [← hc.blobSize] at hfits
  -- zero is a residue
  have hzero : (0 : Int) ≤ BigInteger.ZERO.value := Int.le_refl 0
  obtain ⟨bytes, -, -, heqS, heqU⟩ := set_eq hpos hfits hzero h0
  have hfailS : party ≠ .RECEIVER →
      ¬ ∃ i < otCount.toNat, ∀ value, Throws (Ot.setSValue i (0 : Nat) value 0) c := by
    rintro hp ⟨i, hi, hthrows⟩
    rw [← hc.role] at hp
    rw [← hc.otCount] at hi
    obtain ⟨c', -, hset, -⟩ := hstores.s hp c (.refl c) i hi 0 (by decide) .ZERO hzero h0
    obtain ⟨e, t, he⟩ := hthrows (some bytes)
    rw [heqS, he] at hset
    cases hset
  refine ⟨?_, fun hp hfull ↦ ?_, fun hp hfull ↦ ?_⟩
  · rintro rfl hfull
    exact hfailS (by decide) (setSValue_throws_of_b hc hfull)
  · exact hfailS hp (setSValue_throws hc hp hint hfull)
  · obtain ⟨i, hi, hthrows⟩ := setUValue_throws hc hp (by omega) hfull
    rw [← hc.role] at hp
    rw [← hc.otCount] at hi
    obtain ⟨c', -, hset, -⟩ := hstores.u hp c (.refl c) i hi .ZERO hzero h0
    obtain ⟨e, t, he⟩ := hthrows (some bytes)
    rw [heqU, he] at hset
    cases hset

/-- With room for every record all residues are stored. -/
theorem storesResidues_of_hasRoom (hsize : ResidueSize residueSize)
    (h : new residueSize party otCount (some modulus) = .ok c)
    (hroom : HasRoom party otCount.toNat (residueSize modulus).toNat) :
    StoresResidues modulus c := by
  obtain ⟨h0, hc⟩ := new_ok h
  have hready := Constructed.ready hc (two_mul_size_le hsize h0) hroom
  have hfits := hsize.fits modulus h0
  rw [← hc.blobSize] at hfits
  refine ⟨fun hp c' hshape i hi v hv value hv0 hvlt ↦ ?_,
    fun hp c' hshape i hi value hv0 hvlt ↦ ?_, fun c' hshape draw hdraw freshB o l ↦ ?_⟩
  · rw [← hshape.blobSize] at hfits
    rw [← hshape.party] at hp
    exact setSValue_ok (Ready.of_sameShape hready hshape) hfits hp hi hv hv0 hvlt
  · rw [← hshape.blobSize] at hfits
    rw [← hshape.party] at hp
    exact setUValue_ok (Ready.of_sameShape hready hshape) hfits hp hi hv0 hvlt
  · exact randomize_draws (Ready.of_sameShape hready hshape) hdraw freshB o l

end

/-- **Residues.** For every party, number of transfers and modulus: from whatever contents each
residue that is stored is read again, the other records stay, and `randomize` stores nothing but
residues, exactly when no array requires a multiple of what one buffer holds. -/
theorem storesResidues_iff {residueSize : BigInteger → Int} (hsize : ResidueSize residueSize)
    {party : Party} {otCount : Int} {modulus : BigInteger} {c : BlobOtCell}
    (h : new residueSize party otCount (some modulus) = .ok c) :
    StoresResidues modulus c ↔ HasRoom party otCount.toNat (residueSize modulus).toNat :=
  ⟨hasRoom_of_storesResidues hsize h, storesResidues_of_hasRoom hsize h⟩

/-- The bytes that the greatest residue requires. -/
def leastSize (modulus : BigInteger) : Int := (((modulus.value - 1).toNat.size + 7) / 8 : Nat)

theorem residueSize_leastSize : ResidueSize leastSize where
  fits modulus h0 := by
    have hlt := Nat.lt_size_self (modulus.value - 1).toNat
    have hle : 2 ^ (modulus.value - 1).toNat.size ≤
        (2 : Nat) ^ (8 * (((modulus.value - 1).toNat.size + 7) / 8)) :=
      Nat.pow_le_pow_right (by decide) (by omega)
    have hpow : (256 : Int) ^ (((modulus.value - 1).toNat.size + 7) / 8) =
        ((2 ^ (8 * (((modulus.value - 1).toNat.size + 7) / 8)) : Nat) : Int) := by
      rw [pow_mul]
      push_cast
      rfl
    rw [leastSize, Int.toNat_natCast, hpow]
    omega
  le modulus h0 := by
    have hle : (modulus.value - 1).toNat.size ≤ modulus.bitLength := by
      rw [BigInteger.bitLength, if_neg (by omega)]
      exact Nat.size_le_size (by omega)
    rw [leastSize]
    omega

/-- A modulus of eight bytes. -/
def mersenne61 : BigInteger := ⟨2 ^ 61 - 1, by decide⟩

theorem storesResidues_iff_smallCell :
    StoresResidues ⟨7, by decide⟩ smallCell ↔ HasRoom .DEALER 8 1 := by
  have hsize : (leastSize ⟨7, by decide⟩).toNat = 1 := by decide
  have hiff := @storesResidues_iff leastSize residueSize_leastSize .DEALER 8 ⟨7, by decide⟩
    smallCell (by rfl)
  rwa [hsize] at hiff

/-- The only buffer of a sender's cell of this size is empty. -/
theorem not_storesResidues_mersenne61 :
    ∃ c, new leastSize .SENDER 134217727 (some mersenne61) = .ok c ∧
      ¬ StoresResidues mersenne61 c := by
  have hnew : new leastSize .SENDER 134217727 (some mersenne61) =
      .ok ⟨.SENDER, 134217727, 8, false, null, ⟨[0], fun _ _ ↦ 0⟩, null⟩ := by rfl
  refine ⟨_, hnew, fun hstores ↦ ?_⟩
  exact (hasRoom_of_storesResidues residueSize_leastSize hnew hstores).s (by decide) (by decide)

end ResidueOtCell

end Safrn.Ot
