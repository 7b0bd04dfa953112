import Safrn.Ot.Run

/-!
# The layout of a cell's buffers

Models the constructor `BlobOtCell.java:287-604` for the three parties and the getters of values
`BlobOtCell.java:760-798,916-992,1085-1125`. A getter and the setter of the same value locate its
bits by one division; the bits are those of a range of one buffer. The array of a party that does
not hold it is a null reference, which no operation of that party reads. Buffers that are mapped
from a file have the same capacities.
-/

namespace Safrn.Ot

open Safrn.Base Safrn.Java

namespace BlobOtCell

/-! ### The constructor -/

/-- A null reference. -/
def null : ByteBuffers := ⟨[], fun _ _ ↦ 0⟩

/-- The bytes that the bits of `n` transfers require. -/
def bBytes (n : Nat) : Nat := n / 8 + (if n % 8 = 0 then 0 else 1)

/-- The bytes that a full buffer of pairs holds. -/
def sPerBuffer (size : Nat) : Nat := intMax / (2 * size) * (2 * size)

/-- The bytes that a full buffer of selected values holds. -/
def uPerBuffer (size : Nat) : Nat := intMax / size * size

/-- The constructor: a dealer holds all three arrays, a receiver `b` and `u`, a sender `s`. -/
def new (party : Party) (otCount blobSize : Int) : Except Status BlobOtCell :=
  if otCount < 0 then .error (.negativeArraySize "otCount < 0")
  else if blobSize < 0 then .error (.negativeArraySize "blobSize < 0")
  else if blobSize = 0 then .error (.zeroArraySize "blobSize == 0")
  else
    let n := otCount.toNat
    let size := blobSize.toNat
    match (if party = .SENDER then .ok null else allocate (bBytes n) intMax) with
    | .error e => .error e
    | .ok b =>
      if party ≠ .RECEIVER ∧ intMax < 2 * size then .error .limitExceeded
      else
        match (if party = .RECEIVER then .ok null
            else allocate (n * (2 * size)) (sPerBuffer size)),
          (if party = .SENDER then .ok null else allocate (n * size) (uPerBuffer size)) with
        | .error e, _ => .error e
        | _, .error e => .error e
        | .ok s, .ok u => .ok ⟨party, n, size, false, b, s, u⟩

/-- A dealer's cell is the one of the dealer's constructor. -/
theorem new_dealer (otCount blobSize : Int) :
    new .DEALER otCount blobSize = newDealer otCount blobSize := by
  have hguard (size : Nat) : (Party.DEALER ≠ .RECEIVER ∧ intMax < 2 * size) = (intMax < 2 * size) :=
    propext (and_iff_right Party.noConfusion)
  simp only [new, hguard]
  rfl

end BlobOtCell

/-! ### Getters of values -/

/-- `buffer[i].get(value, valueOffset, n)` where `remaining` bytes are left: the array with the
bytes from offset `j` on. -/
def getBytes (value : Option (List UInt8)) (valueOffset i j : Int) (n : Nat) (remaining : Int) :
    BufferM (List UInt8) := fun B ↦
  match value with
  | none => .error .nullPointerException B
  | some bytes =>
    if valueOffset < 0 ∨ bytes.length - n < valueOffset then .error .indexOutOfBoundsException B
    else if remaining < n then .error .bufferUnderflowException B
    else
      let blob := (List.range n).map fun k ↦ B.data i.toNat (j.toNat + k)
      .ok (bytes.take valueOffset.toNat ++ blob ++ bytes.drop (valueOffset.toNat + n)) B

/-- Load the blob at transfer position `p` of a buffer array. -/
def getBlob (value : Option (List UInt8)) (valueOffset : Int) (blobSize : Nat) (p : Int) :
    BufferM (List UInt8) := do
  let (i, j) ← located p
  let remaining ← position i j
  getBytes value valueOffset i j blobSize remaining

/-- `getSValue`, `BlobOtCell.java:916-992`; the result is the array argument. -/
def getSValue (otIndex pairIndex : Int) (value : Option (List UInt8)) (valueOffset : Int) :
    CellM (List UInt8) := do
  check (indexCheck .RECEIVER "this.party == BlobOtCell.RECEIVER" otIndex)
  check (pairCheck pairIndex)
  check (valueCheck value valueOffset)
  let c ← get
  onS (getBlob value valueOffset c.blobSize ((otIndex * 2 + pairIndex) * c.blobSize))

/-- `getUValue`, `BlobOtCell.java:1085-1125`, which does not check the array argument. -/
def getUValue (otIndex : Int) (value : Option (List UInt8)) (valueOffset : Int) :
    CellM (List UInt8) := do
  check (indexCheck .SENDER "this.party == BlobOtCell.SENDER" otIndex)
  let c ← get
  onU (getBlob value valueOffset c.blobSize (otIndex * c.blobSize))

/-! ### Ranges of bits -/

/-- The bits from `start` up to `stop` of one buffer. -/
structure BitRange where
  buffer : Nat
  start : Nat
  stop : Nat
  deriving DecidableEq

/-- The bits of the `len` bytes from position `p` on. -/
def byteRange (B : ByteBuffers) (p len : Nat) : Except Status BitRange :=
  (locate B p).map fun ij ↦ ⟨ij.1.toNat, 8 * ij.2.toNat, 8 * (ij.2.toNat + len)⟩

namespace BlobOtCell

/-- The bit that `getBValue` and `setBValue` access. -/
def bRange (c : BlobOtCell) (otIndex : Nat) : Except Status BitRange :=
  (locate c.b (otIndex / 8 : Nat)).map fun ij ↦
    ⟨ij.1.toNat, 8 * ij.2.toNat + otIndex % 8, 8 * ij.2.toNat + otIndex % 8 + 1⟩

/-- The bytes that `getSValue` and `setSValue` access. -/
def sRange (c : BlobOtCell) (record : Nat × Nat) : Except Status BitRange :=
  byteRange c.s ((record.1 * 2 + record.2) * c.blobSize) c.blobSize

/-- The bytes that `getUValue` and `setUValue` access. -/
def uRange (c : BlobOtCell) (otIndex : Nat) : Except Status BitRange :=
  byteRange c.u (otIndex * c.blobSize) c.blobSize

end BlobOtCell

/-- Buffers of `nBytes` bytes in all, in which every valid record has a range of its own that
lies in one buffer. -/
structure LaidOut {ι : Type} (B : ByteBuffers) (nBytes : Nat) (valid : ι → Prop)
    (range : ι → Except Status BitRange) : Prop where
  capacity : B.capacity.sum = nBytes
  inside : ∀ r, valid r →
    ∃ x, range r = .ok x ∧ x.buffer < B.capacity.length ∧ x.stop ≤ 8 * B.cap x.buffer
  disjoint : ∀ r r', valid r → valid r' → r ≠ r' → ∀ x x', range r = .ok x →
    range r' = .ok x' → x.buffer = x'.buffer → x.stop ≤ x'.start ∨ x'.stop ≤ x.start

namespace BlobOtCell

/-- Every array that the cell's party holds is laid out for its records. -/
structure LaidOut (c : BlobOtCell) : Prop where
  b : c.party ≠ .SENDER → Ot.LaidOut c.b (bBytes c.otCount) (· < c.otCount) c.bRange
  s : c.party ≠ .RECEIVER → Ot.LaidOut c.s (c.otCount * (2 * c.blobSize))
    (fun record ↦ record.1 < c.otCount ∧ record.2 < 2) c.sRange
  u : c.party ≠ .SENDER → Ot.LaidOut c.u (c.otCount * c.blobSize) (· < c.otCount) c.uRange

/-- No array of the party fills its last buffer exactly: the bytes it requires are not a
multiple of what one buffer holds. -/
structure LeavesRest (party : Party) (n size : Nat) : Prop where
  b : party ≠ .SENDER → bBytes n % intMax ≠ 0
  s : party ≠ .RECEIVER → n * (2 * size) % sPerBuffer size ≠ 0
  u : party ≠ .SENDER → n * size % uPerBuffer size ≠ 0

end BlobOtCell

/-! ### Allocated buffers -/

/-- Allocated buffers have room for all bytes exactly when the last one is not filled up. -/
theorem sum_capacity_iff {n per : Nat} {B : ByteBuffers} (h : allocate n per = .ok B)
    (hper : 0 < per) : B.capacity.sum = n ↔ n % per ≠ 0 := by
  have hdiv := Nat.div_add_mod' n per
  rw [allocate] at h
  generalize hk : n / per + (if n % per = 0 then 0 else 1) = k at h
  split at h
  · cases h
  split at h
  · cases h
  next hk0 =>
  obtain rfl := Except.ok.inj h
  rw [List.sum_append, List.sum_replicate_nat, List.sum_singleton]
  by_cases hrest : n % per = 0
  · -- one full buffer is missing
    rw [if_pos hrest, Nat.add_zero] at hk
    subst hk
    have hmul : (n / per - 1) * per + per = n / per * per := by
      rw [← Nat.succ_mul, Nat.succ_eq_add_one, Nat.sub_add_cancel (Nat.pos_of_ne_zero hk0)]
    constructor
    · intro hsum
      omega
    · intro hne
      exact absurd hrest hne
  · rw [if_neg hrest] at hk
    subst hk
    rw [Nat.add_sub_cancel]
    exact ⟨fun _ ↦ hrest, fun _ ↦ hdiv⟩

/-- Allocated buffers that leave a rest lay out their bytes. -/
theorem allocate_layout {n per : Nat} {B : ByteBuffers} (h : allocate n per = .ok B)
    (hrest : n % per ≠ 0) (hper : 0 < per) : B.Layout n := by
  refine (allocate_ok h).2.1 ?_ hper
  rw [allocate] at h
  generalize n / per + (if n % per = 0 then 0 else 1) = k at h
  split at h
  · cases h
  split at h
  · cases h
  obtain rfl := Except.ok.inj h
  intro hmem
  rcases List.mem_append.mp hmem with hfull | hlast
  · have := List.eq_of_mem_replicate hfull
    omega
  · exact hrest (List.mem_singleton.mp hlast).symm

variable {B : ByteBuffers}

/-- In laid-out buffers a position has its buffer and offset. -/
theorem locate_ok {n : Nat} (h : B.Layout n) (p : Nat) :
    locate B p = .ok (((p / B.chunk : Nat) : Int), ((p % B.chunk : Nat) : Int)) := by
  have hc := h.chunk_pos
  rw [locate, if_neg (by omega), ← Int.ofNat_tdiv, ← Int.ofNat_tmod]

theorem byteRange_ok {n : Nat} (h : B.Layout n) (p len : Nat) :
    byteRange B p len =
      .ok ⟨p / B.chunk, 8 * (p % B.chunk), 8 * (p % B.chunk + len)⟩ := by
  rw [byteRange, locate_ok h]
  rfl

/-- Records of one size that divides the buffers lie in them one after the other. -/
theorem laidOut_slots {ι : Type} {count size : Nat} {valid : ι → Prop} (slot : ι → Nat)
    (h : B.Layout (count * size)) (hsum : B.capacity.sum = count * size) (hsize : 0 < size)
    (hdvd : size ∣ B.chunk) (hslot : ∀ r, valid r → slot r < count)
    (hinj : ∀ r r', valid r → valid r' → slot r = slot r' → r = r') :
    LaidOut B (count * size) valid fun r ↦ byteRange B (slot r * size) size where
  capacity := hsum
  inside r hr := by
    have hend : slot r * size + size ≤ count * size := by
      rw [← Nat.succ_mul]
      exact Nat.mul_le_mul_right size (hslot r hr)
    have hin := SplitBuffer.mod_add_le_of_dvd (k := slot r) h.chunk_pos hdvd
    have hcap := h.window_le_cap hend (by omega) hin
    refine ⟨_, byteRange_ok h _ _, h.div_lt (by omega), ?_⟩
    exact Nat.mul_le_mul_left 8 hcap
  disjoint r r' hr hr' hne x x' hx hx' hbuffer := by
    rw [byteRange_ok h] at hx hx'
    obtain rfl := Except.ok.inj hx
    obtain rfl := Except.ok.inj hx'
    have hp := Nat.div_add_mod (slot r * size) B.chunk
    have hp' := Nat.div_add_mod (slot r' * size) B.chunk
    dsimp only at hbuffer ⊢
    rw [hbuffer] at hp
    -- one slot comes before the other
    rcases Nat.lt_or_gt_of_ne fun he ↦ hne (hinj r r' hr hr' he) with hlt | hgt
    · have hle := Nat.mul_le_mul_right size hlt
      rw [Nat.succ_mul] at hle
      omega
    · have hle := Nat.mul_le_mul_right size hgt
      rw [Nat.succ_mul] at hle
      omega

/-! ### The constructor's cell -/

namespace BlobOtCell

/-- What a constructed cell consists of. -/
structure Constructed (party : Party) (n size : Nat) (c : BlobOtCell) : Prop where
  role : c.party = party
  otCount : c.otCount = n
  blobSize : c.blobSize = size
  isOpen : c.isClosed = false
  size_pos : 0 < size
  pair : party ≠ .RECEIVER → 2 * size ≤ intMax
  b : party ≠ .SENDER → allocate (bBytes n) intMax = .ok c.b
  s : party ≠ .RECEIVER → allocate (n * (2 * size)) (sPerBuffer size) = .ok c.s
  u : party ≠ .SENDER → allocate (n * size) (uPerBuffer size) = .ok c.u

theorem new_ok {party : Party} {otCount blobSize : Int} {c : BlobOtCell}
    (h : new party otCount blobSize = .ok c) :
    Constructed party otCount.toNat blobSize.toNat c := by
  rw [new] at h
  dsimp only at h
  split at h
  · cases h
  split at h
  · cases h
  split at h
  · cases h
  next hn hz hz0 =>
  generalize otCount.toNat = n at h ⊢
  have hsize : 0 < blobSize.toNat := by omega
  generalize blobSize.toNat = size at h hsize ⊢
  split at h
  · cases h
  next b hb =>
  split at h
  · cases h
  next hlim =>
  split at h
  · cases h
  · cases h
  next s u hs hu =>
  obtain rfl := Except.ok.inj h
  refine ⟨rfl, rfl, rfl, rfl, hsize, fun hp ↦ ?_, fun hp ↦ ?_, fun hp ↦ ?_, fun hp ↦ ?_⟩
  · exact Nat.le_of_not_lt fun hlt ↦ hlim ⟨hp, hlt⟩
  · rwa [if_neg hp] at hb
  · rwa [if_neg hp] at hs
  · rwa [if_neg hp] at hu

theorem sPerBuffer_pos {size : Nat} (hsize : 0 < size) (h : 2 * size ≤ intMax) :
    0 < sPerBuffer size :=
  Nat.mul_pos (Nat.div_pos h (by omega)) (by omega)

theorem uPerBuffer_pos {size : Nat} (hsize : 0 < size) (h : size ≤ intMax) :
    0 < uPerBuffer size :=
  Nat.mul_pos (Nat.div_pos h hsize) hsize

variable {party : Party} {n size : Nat} {c : BlobOtCell}

/-- The bits of a receiver or dealer, in buffers that leave a rest. -/
private theorem laidOut_b {B : ByteBuffers} (h : B.Layout (bBytes c.otCount))
    (hb : c.b = B) (hsum : B.capacity.sum = bBytes c.otCount) :
    Ot.LaidOut B (bBytes c.otCount) (· < c.otCount) c.bRange := by
  subst hb
  have hrange : ∀ i : Nat, c.bRange i = .ok ⟨i / 8 / c.b.chunk, 8 * (i / 8 % c.b.chunk) + i % 8,
      8 * (i / 8 % c.b.chunk) + i % 8 + 1⟩ := by
    intro i
    rw [bRange, locate_ok h]
    rfl
  refine ⟨hsum, fun i hi ↦ ?_, fun i i' hi hi' hne x x' hx hx' hbuffer ↦ ?_⟩
  · have hbyte : i / 8 < bBytes c.otCount := byte_lt hi
    have hcap := h.window_le_cap (m := 1) hbyte hbyte (Nat.mod_lt _ h.chunk_pos)
    refine ⟨_, hrange i, h.div_lt hbyte, ?_⟩
    dsimp only
    omega
  · rw [hrange] at hx hx'
    obtain rfl := Except.ok.inj hx
    obtain rfl := Except.ok.inj hx'
    have hp := Nat.div_add_mod (i / 8) c.b.chunk
    have hp' := Nat.div_add_mod (i' / 8) c.b.chunk
    dsimp only at hbuffer ⊢
    rw [hbuffer] at hp
    -- two bits at one place would be one transfer
    omega

/-- **Layout of a constructed cell.** For each party, the buffers have room for all bytes and
every bit or value has a range of its own in one buffer exactly when no array of the party
requires a multiple of the bytes of a full buffer. -/
theorem new_laidOut_iff {otCount blobSize : Int} (hint : blobSize ≤ intMax)
    (h : new party otCount blobSize = .ok c) :
    c.LaidOut ↔ LeavesRest party otCount.toNat blobSize.toNat := by
  have hc := new_ok h
  have hsize : blobSize.toNat ≤ intMax := by omega
  generalize otCount.toNat = n at hc ⊢
  generalize blobSize.toNat = size at hc hsize ⊢
  obtain ⟨rfl, rfl, rfl, -, hpos, hpair, hb, hs, hu⟩ := hc
  constructor
  · intro hl
    refine ⟨fun hp ↦ ?_, fun hp ↦ ?_, fun hp ↦ ?_⟩
    · exact (sum_capacity_iff (hb hp) (by decide)).mp (hl.b hp).capacity
    · exact (sum_capacity_iff (hs hp) (sPerBuffer_pos hpos (hpair hp))).mp (hl.s hp).capacity
    · exact (sum_capacity_iff (hu hp) (uPerBuffer_pos hpos hsize)).mp (hl.u hp).capacity
  · intro hr
    refine ⟨fun hp ↦ ?_, fun hp ↦ ?_, fun hp ↦ ?_⟩
    · have hlayout := allocate_layout (hb hp) (hr.b hp) (by decide)
      exact laidOut_b hlayout rfl ((sum_capacity_iff (hb hp) (by decide)).mpr (hr.b hp))
    · have hper := sPerBuffer_pos hpos (hpair hp)
      have hdvd : c.blobSize ∣ c.s.chunk :=
        (allocate_ok (hs hp)).2.2 _ (Nat.dvd_mul_left_of_dvd (Nat.dvd_mul_left _ 2) _)
          (Nat.dvd_mul_left_of_dvd (Nat.dvd_mul_left _ 2) _)
      have hcount : c.otCount * (2 * c.blobSize) = c.otCount * 2 * c.blobSize :=
        (Nat.mul_assoc _ _ _).symm
      have hlayout := allocate_layout (hs hp) (hr.s hp) hper
      have hsum := (sum_capacity_iff (hs hp) hper).mpr (hr.s hp)
      rw [hcount] at hlayout hsum ⊢
      refine laidOut_slots (fun record : Nat × Nat ↦ record.1 * 2 + record.2) hlayout hsum
        hpos hdvd (fun r hr ↦ ?_) fun r r' hr hr' he ↦ ?_
      · omega
      · exact Prod.ext (by omega) (by omega)
    · have hper := uPerBuffer_pos hpos hsize
      have hdvd : c.blobSize ∣ c.u.chunk :=
        (allocate_ok (hu hp)).2.2 _ (Nat.dvd_mul_left _ _) (Nat.dvd_mul_left _ _)
      exact laidOut_slots id (allocate_layout (hu hp) (hr.u hp) hper)
        ((sum_capacity_iff (hu hp) hper).mpr (hr.u hp)) hpos hdvd (fun _ hr ↦ hr)
        fun _ _ _ _ he ↦ he

theorem new_laidOut_iff_smallCell : smallCell.LaidOut ↔ LeavesRest .DEALER 8 1 :=
  @new_laidOut_iff .DEALER smallCell 8 1 (by decide)
    ((new_dealer 8 1).trans newDealer_smallCell)

/-- The sender's cell of one transfer with the longest blobs: its only buffer is empty. -/
def fullCell : BlobOtCell :=
  ⟨.SENDER, 1, 2 ^ 30 - 1, false, null, ⟨[0], fun _ _ ↦ 0⟩, null⟩

theorem fullCell_not_laidOut :
    new .SENDER 1 (2 ^ 30 - 1) = .ok fullCell ∧ ¬ fullCell.LaidOut := by
  constructor
  · rfl
  · intro h
    have hcap : fullCell.s.capacity.sum = 1 * (2 * (2 ^ 30 - 1)) := (h.s (by decide)).capacity
    simp [fullCell] at hcap

end BlobOtCell

/-! ### The getters read the ranges -/

variable {c : BlobOtCell}

private theorem locate_nat {p : Nat} {ij : Int × Int} (h : locate B p = .ok ij) :
    ij = (((p / B.chunk : Nat) : Int), ((p % B.chunk : Nat) : Int)) := by
  rw [locate] at h
  split at h
  · cases h
  · exact (Except.ok.inj h).symm

private theorem located_of_locate {p : Int} {ij : Int × Int} (h : locate B p = .ok ij) :
    located p B = .ok ij B := by
  rw [located, h]

/-- A range that lies in one buffer is loaded from there. -/
theorem getBlob_range {p size : Nat} {x : BitRange} (hx : byteRange B p size = .ok x)
    (hbuffer : x.buffer < B.capacity.length) (hstop : x.stop ≤ 8 * B.cap x.buffer)
    {bytes : List UInt8} {valueOffset : Nat} (hvalue : valueOffset + size ≤ bytes.length) :
    getBlob (some bytes) valueOffset size p B =
      .ok (bytes.take valueOffset ++
        ((List.range size).map fun k ↦ B.data x.buffer (x.start / 8 + k)) ++
        bytes.drop (valueOffset + size)) B := by
  rw [byteRange] at hx
  cases hloc : locate B p with
  | error e =>
    rw [hloc] at hx
    cases hx
  | ok ij =>
    rw [hloc] at hx
    obtain rfl := locate_nat hloc
    obtain rfl := Except.ok.inj hx
    dsimp only [Int.toNat_natCast] at hbuffer hstop ⊢
    have hpos : position ((p / B.chunk : Nat) : Int) ((p % B.chunk : Nat) : Int) B = .ok _ B :=
      position_ok hbuffer (by omega)
    rw [getBlob, bind_ok (located_of_locate hloc)]
    dsimp only
    rw [bind_ok hpos, getBytes]
    dsimp only
    rw [if_neg (by omega), if_neg (by omega), Nat.mul_div_cancel_left _ (by decide)]
    rfl

/-- `getSValue` loads the range of its value. -/
theorem getSValue_range (h : c.LaidOut) (hp : c.party ≠ .RECEIVER) (ho : c.isClosed = false)
    {i v : Nat} (hi : i < c.otCount) (hv : v < 2) {bytes : List UInt8} {valueOffset : Nat}
    (hvalue : valueOffset + c.blobSize ≤ bytes.length) :
    ∃ x, c.sRange (i, v) = .ok x ∧ getSValue i v (some bytes) valueOffset c =
      .ok (bytes.take valueOffset ++
        ((List.range c.blobSize).map fun k ↦ c.s.data x.buffer (x.start / 8 + k)) ++
        bytes.drop (valueOffset + c.blobSize)) c := by
  obtain ⟨x, hx, hbuffer, hstop⟩ := (h.s hp).inside (i, v) ⟨hi, hv⟩
  have hcheck : indexCheck .RECEIVER "this.party == BlobOtCell.RECEIVER" (i : Int) c = none := by
    rw [indexCheck, if_neg hp, if_neg (by simp [ho]), if_neg (by omega), if_neg (by omega)]
  have hpair : pairCheck (v : Int) c = none := by
    rw [pairCheck, if_neg (by omega), if_neg (by omega)]
  have harray : valueCheck (some bytes) (valueOffset : Int) c = none := by
    rw [valueCheck, if_neg (by omega), if_neg (by omega)]
  refine ⟨x, hx, ?_⟩
  rw [getSValue, bind_ok (check_ok hcheck), bind_ok (check_ok hpair), bind_ok (check_ok harray)]
  have hget : (get : CellM BlobOtCell) c = .ok c c := rfl
  rw [bind_ok hget]
  exact onS_ok (getBlob_range hx hbuffer hstop hvalue)

/-- `getUValue` loads the range of its value. -/
theorem getUValue_range (h : c.LaidOut) (hp : c.party ≠ .SENDER) (ho : c.isClosed = false)
    {i : Nat} (hi : i < c.otCount) {bytes : List UInt8} {valueOffset : Nat}
    (hvalue : valueOffset + c.blobSize ≤ bytes.length) :
    ∃ x, c.uRange i = .ok x ∧ getUValue i (some bytes) valueOffset c =
      .ok (bytes.take valueOffset ++
        ((List.range c.blobSize).map fun k ↦ c.u.data x.buffer (x.start / 8 + k)) ++
        bytes.drop (valueOffset + c.blobSize)) c := by
  obtain ⟨x, hx, hbuffer, hstop⟩ := (h.u hp).inside i hi
  have hcheck : indexCheck .SENDER "this.party == BlobOtCell.SENDER" (i : Int) c = none := by
    rw [indexCheck, if_neg hp, if_neg (by simp [ho]), if_neg (by omega), if_neg (by omega)]
  refine ⟨x, hx, ?_⟩
  have hget : (get : CellM BlobOtCell) c = .ok c c := rfl
  rw [getUValue, bind_ok (check_ok hcheck), bind_ok hget]
  exact onU_ok (getBlob_range hx hbuffer hstop hvalue)

/-- `getBValue` reads the bit of its range. -/
theorem getBValue_range (h : c.LaidOut) (hp : c.party ≠ .SENDER) (ho : c.isClosed = false)
    {i : Nat} (hi : i < c.otCount) :
    ∃ x, c.bRange i = .ok x ∧ getBValue i c =
      .ok ((c.b.data x.buffer (x.start / 8)).toNat >>> (x.start % 8) &&& 1) c := by
  obtain ⟨x, hx, hbuffer, hstop⟩ := (h.b hp).inside i hi
  have hcheck : indexCheck .SENDER "this.party == BlobOtCell.SENDER" (i : Int) c = none := by
    rw [indexCheck, if_neg hp, if_neg (by simp [ho]), if_neg (by omega), if_neg (by omega)]
  refine ⟨x, hx, ?_⟩
  rw [BlobOtCell.bRange] at hx
  cases hloc : locate c.b (i / 8 : Nat) with
  | error e =>
    rw [hloc] at hx
    cases hx
  | ok ij =>
    rw [hloc] at hx
    obtain rfl := locate_nat hloc
    obtain rfl := Except.ok.inj hx
    dsimp only [Int.toNat_natCast] at hbuffer hstop ⊢
    have hdiv : (i : Int).tdiv 8 = ((i / 8 : Nat) : Int) := rfl
    have hmod : ((i : Int).tmod 8).toNat = i % 8 := rfl
    have hstart : (8 * (i / 8 % c.b.chunk) + i % 8) / 8 = i / 8 % c.b.chunk := by omega
    have hshift : (8 * (i / 8 % c.b.chunk) + i % 8) % 8 = i % 8 := by omega
    rw [getBValue, bind_ok (check_ok hcheck), hdiv, bind_ok (onB_ok (located_of_locate hloc))]
    dsimp only
    rw [bind_ok (onB_ok (getByte_ok hbuffer (by omega))), hmod, hstart, hshift]
    rfl

end Safrn.Ot
