import Safrn.Ot.Delivered

/-!
# What the getters of the stored tables return

Models the getters of `ResidueOtCell.java:158-258` and relates a back server's handler to the
front server's tables. The tables are handed on when the handler leaves the state that reads them;
for every way in which the stream is split, that is when all of it has arrived, and every getter
then returns what the dealer's returns.
-/

namespace Safrn.Ot

open Safrn.Base Safrn.Java Resumable BlobOtCell

/-! ### Getters of residues -/

/-- `new BigInteger(x)` for an array `x` that starts with a zero byte. -/
def bigInteger (x : List UInt8) : Nat := x.foldl (fun n byte ↦ 256 * n + byte.toNat) 0

namespace ResidueOtCell

/-- `getSValue`, `ResidueOtCell.java:158-209`. -/
def getSValue (otIndex pairIndex : Int) : CellM Nat := do
  check (indexCheck .RECEIVER "this.party == BlobOtCell.RECEIVER" otIndex)
  check (pairCheck pairIndex)
  let c ← get
  let x ← Ot.getSValue otIndex pairIndex (some (List.replicate (1 + c.blobSize) 0)) 1
  return bigInteger x

/-- `getUValue`, `ResidueOtCell.java:222-258`. -/
def getUValue (otIndex : Int) : CellM Nat := do
  check (indexCheck .SENDER "this.party == BlobOtCell.SENDER" otIndex)
  let c ← get
  let x ← Ot.getUValue otIndex (some (List.replicate (1 + c.blobSize) 0)) 1
  return bigInteger x

end ResidueOtCell

/-! ### Steps that only read -/

/-- What an operation returns or throws. -/
def outcome {σ α : Type} : EStateM.Result Status σ α → Except Status α
  | .ok a _ => .ok a
  | .error e _ => .error e

variable {σ α β : Type}

/-- A step that leaves the state as it is and has the same outcome in related states. -/
structure Reads (R : σ → σ → Prop) (m : EStateM Status σ α) : Prop where
  state : ∀ s, finalState (m s) = s
  same : ∀ s s', R s s' → outcome (m s) = outcome (m s')

namespace Reads

variable {R : σ → σ → Prop}

theorem pure (a : α) : Reads R (pure a) := ⟨fun _ ↦ rfl, fun _ _ _ ↦ rfl⟩

theorem bind {m : EStateM Status σ α} {f : α → EStateM Status σ β} (hm : Reads R m)
    (hf : ∀ a, Reads R (f a)) : Reads R (m >>= f) where
  state s := by
    have hs := hm.state s
    cases hr : m s with
    | ok a t =>
      rw [hr] at hs
      obtain rfl : t = s := hs
      rw [bind_ok hr]
      exact (hf a).state t
    | error e t =>
      rw [bind_error hr]
      rwa [hr] at hs
  same s s' h := by
    have hs := hm.state s
    have hs' := hm.state s'
    have hsame := hm.same s s' h
    cases hr : m s with
    | ok a t =>
      cases hr' : m s' with
      | ok a' t' =>
        rw [hr, hr'] at hsame
        rw [hr] at hs
        rw [hr'] at hs'
        obtain rfl : t = s := hs
        obtain rfl : t' = s' := hs'
        obtain rfl := Except.ok.inj hsame
        rw [bind_ok hr, bind_ok hr']
        exact (hf a).same t t' h
      | error e t' =>
        rw [hr, hr'] at hsame
        cases hsame
    | error e t =>
      cases hr' : m s' with
      | ok a' t' =>
        rw [hr, hr'] at hsame
        cases hsame
      | error e' t' =>
        rw [hr, hr'] at hsame
        rw [bind_error hr, bind_error hr']
        exact congrArg Except.error (Except.error.inj hsame)

end Reads

/-! ### Cells with the same bytes -/

/-- Buffers of the same sizes that hold the same bytes. -/
structure SameBytes (B B' : ByteBuffers) : Prop where
  capacity : B'.capacity = B.capacity
  data : ∀ i, ∀ j < B.cap i, B'.data i j = B.data i j

namespace SameBytes

variable {B B' : ByteBuffers}

theorem cap (h : SameBytes B B') (i : Nat) : B'.cap i = B.cap i := by
  rw [SplitBuffer.cap, SplitBuffer.cap, h.capacity]

/-- Locating a position depends on the sizes only. -/
theorem reads_located (p : Int) : Reads SameBytes (located p) where
  state B := by
    rw [located]
    cases locate B p <;> rfl
  same B B' h := by
    have hlocate : locate B' p = locate B p := by
      rw [locate, locate, SplitBuffer.chunk, SplitBuffer.chunk, h.capacity]
    rw [located, located, hlocate]
    cases locate B p <;> rfl

theorem reads_getByte (i j : Int) : Reads SameBytes (getByte i j) where
  state B := by
    rw [getByte]
    split
    · rfl
    · split <;> rfl
  same B B' h := by
    rw [getByte, getByte, h.capacity, h.cap]
    split
    · rfl
    · split
      · rfl
      · next hj =>
        rw [h.data _ _ (by omega)]
        rfl

/-- Only bytes before the end of a buffer are loaded. -/
theorem reads_getBytes (value : Option (List UInt8)) (valueOffset i j : Int) (n : Nat) :
    Reads SameBytes (position i j >>= getBytes value valueOffset i j n) where
  state B := by
    simp only [bind, EStateM.bind, position, getBytes]
    grind [finalState]
  same B B' h := by
    simp only [bind, EStateM.bind, position, h.capacity, h.cap]
    by_cases hi : i < 0 ∨ B.capacity.length ≤ i
    · rw [if_pos hi, if_pos hi]
      rfl
    rw [if_neg hi, if_neg hi]
    by_cases hj : j < 0 ∨ B.cap i.toNat < j
    · rw [if_pos hj, if_pos hj]
      rfl
    rw [if_neg hj, if_neg hj]
    dsimp only
    cases value with
    | none => rfl
    | some bytes =>
      rw [getBytes, getBytes]
      dsimp only
      by_cases hoffset : valueOffset < 0 ∨ bytes.length - n < valueOffset
      · rw [if_pos hoffset, if_pos hoffset]
        rfl
      rw [if_neg hoffset, if_neg hoffset]
      by_cases hn : (B.cap i.toNat : Int) - j < n
      · rw [if_pos hn, if_pos hn]
        rfl
      rw [if_neg hn, if_neg hn]
      have hblob : ((List.range n).map fun k ↦ B'.data i.toNat (j.toNat + k)) =
          (List.range n).map fun k ↦ B.data i.toNat (j.toNat + k) := by
        apply List.map_congr_left
        intro k hk
        rw [List.mem_range] at hk
        exact h.data _ _ (by omega)
      rw [hblob]
      rfl

theorem reads_getBlob (value : Option (List UInt8)) (valueOffset : Int) (n : Nat) (p : Int) :
    Reads SameBytes (getBlob value valueOffset n p) :=
  (reads_located p).bind fun (i, j) ↦ reads_getBytes value valueOffset i j n

end SameBytes

/-- Cells of parties that hold the array `a`, with the same bytes in it. -/
structure SameRecords (a : CellArray) (forbidden : Party) (c c' : BlobOtCell) : Prop where
  party : c.party ≠ forbidden
  party' : c'.party ≠ forbidden
  otCount : c.otCount = c'.otCount
  blobSize : c.blobSize = c'.blobSize
  isClosed : c.isClosed = c'.isClosed
  bytes : SameBytes (c.buffers a) (c'.buffers a)

section

variable {forbidden : Party}

theorem reads_check {R : BlobOtCell → BlobOtCell → Prop} {f : BlobOtCell → Option Status}
    (hf : ∀ c c', R c c' → f c = f c') : Reads R (check f) where
  state c := by
    rw [check]
    cases f c <;> rfl
  same c c' h := by
    rw [check, check, ← hf c c' h]
    cases f c <;> rfl

theorem reads_indexCheck (a : CellArray) (message : String) (otIndex : Int) :
    Reads (SameRecords a forbidden) (check (indexCheck forbidden message otIndex)) := by
  apply reads_check
  intro c c' h
  rw [indexCheck, indexCheck, if_neg h.party, if_neg h.party', h.isClosed, h.otCount]

/-- Work on the array `a` that only reads it; `onB`, `onS` and `onU` are of this kind. -/
theorem reads_on (a : CellArray) {m : BufferM α} {on : CellM α} (hm : Reads SameBytes m)
    (hon : ∀ c, on c = match m (c.buffers a) with
      | .ok x B => .ok x (c.setBuffers a B)
      | .error e B => .error e (c.setBuffers a B)) :
    Reads (SameRecords a forbidden) on where
  state c := by
    have hs := hm.state (c.buffers a)
    have hself : c.setBuffers a (c.buffers a) = c := by cases a <;> rfl
    rw [hon]
    cases hr : m (c.buffers a) with
    | ok x B =>
      rw [hr] at hs
      obtain rfl : B = c.buffers a := hs
      exact hself
    | error e B =>
      rw [hr] at hs
      obtain rfl : B = c.buffers a := hs
      exact hself
  same c c' h := by
    have hs := hm.same _ _ h.bytes
    rw [hon, hon]
    cases hr : m (c.buffers a) <;> cases hr' : m (c'.buffers a) <;> rw [hr, hr'] at hs <;>
      exact hs

end

theorem reads_pairCheck {R : BlobOtCell → BlobOtCell → Prop} (pairIndex : Int) :
    Reads R (check (pairCheck pairIndex)) :=
  reads_check fun _ _ _ ↦ rfl

/-- Steps that use the size of a blob. -/
theorem reads_blobSize {a : CellArray} {forbidden : Party} {f : Nat → CellM β}
    (hf : ∀ size, Reads (SameRecords a forbidden) (f size)) :
    Reads (SameRecords a forbidden) (get >>= fun c ↦ f c.blobSize) where
  state c := (hf c.blobSize).state c
  same c c' h := by
    have hs := (hf c.blobSize).same c c' h
    have hsize := congrArg (fun size ↦ outcome (f size c')) h.blobSize
    exact hs.trans hsize

/-! ### The getters -/

theorem reads_getBValue (otIndex : Int) :
    Reads (SameRecords .b .SENDER) (getBValue otIndex) := by
  apply (reads_indexCheck _ _ _).bind
  intro _
  apply (reads_on .b (SameBytes.reads_located _) fun _ ↦ rfl).bind
  intro (iB, jB)
  apply (reads_on .b (SameBytes.reads_getByte iB jB) fun _ ↦ rfl).bind
  intro _
  exact Reads.pure _

theorem reads_getSValue (otIndex pairIndex : Int) (value : Option (List UInt8))
    (valueOffset : Int) :
    Reads (SameRecords .s .RECEIVER) (getSValue otIndex pairIndex value valueOffset) := by
  apply (reads_indexCheck _ _ _).bind
  intro _
  apply (reads_pairCheck _).bind
  intro _
  apply Reads.bind
  · apply reads_check
    intro c c' h
    unfold valueCheck
    rw [h.blobSize]
  · intro _
    apply reads_blobSize (f := fun size ↦
      onS (getBlob value valueOffset size ((otIndex * 2 + pairIndex) * size)))
    intro size
    exact reads_on .s (SameBytes.reads_getBlob _ _ _ _) fun _ ↦ rfl

theorem reads_getUValue (otIndex : Int) (value : Option (List UInt8)) (valueOffset : Int) :
    Reads (SameRecords .u .SENDER) (getUValue otIndex value valueOffset) := by
  apply (reads_indexCheck _ _ _).bind
  intro _
  apply reads_blobSize (f := fun size ↦
    onU (getBlob value valueOffset size (otIndex * size)))
  intro size
  exact reads_on .u (SameBytes.reads_getBlob _ _ _ _) fun _ ↦ rfl

namespace ResidueOtCell

theorem reads_getSValue (otIndex pairIndex : Int) :
    Reads (SameRecords .s .RECEIVER) (getSValue otIndex pairIndex) := by
  apply (reads_indexCheck _ _ _).bind
  intro _
  apply (reads_pairCheck _).bind
  intro _
  apply reads_blobSize (f := fun size ↦ do
    let x ← Ot.getSValue otIndex pairIndex (some (List.replicate (1 + size) 0)) 1
    return bigInteger x)
  intro size
  exact (Ot.reads_getSValue _ _ _ _).bind fun _ ↦ Reads.pure _

theorem reads_getUValue (otIndex : Int) :
    Reads (SameRecords .u .SENDER) (getUValue otIndex) := by
  apply (reads_indexCheck _ _ _).bind
  intro _
  apply reads_blobSize (f := fun size ↦ do
    let x ← Ot.getUValue otIndex (some (List.replicate (1 + size) 0)) 1
    return bigInteger x)
  intro size
  exact (Ot.reads_getUValue _ _ _).bind fun _ ↦ Reads.pure _

end ResidueOtCell

/-! ### Split streams -/

/-- The tables that the states after the one that reads them work on. -/
def TableHandler.stored {ι : Type} (h : TableHandler ι) : Option Tables :=
  if h.done then some h.reading.tables else none

/-- What has arrived in pieces, up to now: the handler hands its tables on exactly when the stream
is complete, and leaves what follows it in the input. -/
def Delivers {ι : Type} (stream pieces : List (List UInt8)) (h : TableHandler ι)
    (Same : Tables → Prop) : Prop :=
  match h.stored with
  | none => pieces.flatten.length < stream.flatten.length
  | some tables => stream.flatten ++ h.reading.input = pieces.flatten ∧ Same tables

/-- What is required of the tables may be weakened. -/
theorem Delivers.imp {ι : Type} {stream pieces : List (List UInt8)} {h : TableHandler ι}
    {Same Same' : Tables → Prop} (hd : Delivers stream pieces h Same)
    (himp : ∀ tables, Same tables → Same' tables) : Delivers stream pieces h Same' := by
  rw [Delivers] at hd ⊢
  cases hstored : h.stored with
  | none =>
    rw [hstored] at hd
    exact hd
  | some tables =>
    rw [hstored] at hd
    exact ⟨hd.1, himp tables hd.2⟩

section

variable {ι : Type} {state : Resumable ι Reading} {Start Done At : ι → Prop}
  {items : List Item} {dealt own : Tables} {more rest : List UInt8}

/-- One piece of the stream keeps what is left in step with what is to come. -/
private theorem receive_arriving {At : ι → List Item → Prop} (bytes : List UInt8)
    {h : TableHandler ι} {w : List Item}
    (hworks : ∀ r, Works (Arriving dealt own items more r) (Starved more r) state At Done)
    (hw : Arriving dealt own items more (bytes ++ rest) w h.reading)
    (hat : if h.done then w = [] else At h.counters w) :
    let h' := h.receive state bytes
    ∃ w', Arriving dealt own items more rest w' h'.reading ∧
      (if h'.done then w' = [] else At h'.counters w') ∧
      (h'.done = false → more.length < rest.length) := by
  have hd : Arriving dealt own items more rest w
      { h.reading with input := h.reading.input ++ bytes } :=
    ⟨hw.shape, by rw [List.append_assoc]; exact hw.stream, hw.stored⟩
  rw [TableHandler.receive]
  by_cases hdone : h.done
  · rw [if_pos hdone] at hat ⊢
    exact ⟨w, hd, by rwa [if_pos hdone], fun hnot ↦ by rw [hdone] at hnot; cases hnot⟩
  · rw [if_neg hdone] at hat ⊢
    rw [← List.append_nil w] at hd
    rcases hworks rest h.counters w _ [] hat hd with
      ⟨x', d', hrun, -, hG⟩ | ⟨x', d', w', hrun, hat', hG, hstop⟩
    · rw [hrun]
      exact ⟨[], hG, rfl, fun hnot ↦ nomatch hnot⟩
    · rw [hrun]
      rw [List.append_nil] at hG
      exact ⟨w', hG, hat', fun _ ↦ hstop.2⟩

/-- Once pieces of the stream have arrived, nothing is left exactly when the handler is done. -/
private theorem receiveAll_arriving {At : ι → List Item → Prop} {pieces : List (List UInt8)}
    (hne : pieces ≠ []) {h : TableHandler ι} {w : List Item}
    (hworks : ∀ r, Works (Arriving dealt own items more r) (Starved more r) state At Done)
    (hw : Arriving dealt own items more (pieces.flatten ++ rest) w h.reading)
    (hat : if h.done then w = [] else At h.counters w) :
    let h' := h.receiveAll state pieces
    ∃ w', Arriving dealt own items more rest w' h'.reading ∧ (h'.done = true → w' = []) ∧
      (h'.done = false → more.length < rest.length) := by
  induction pieces generalizing h w with
  | nil => exact absurd rfl hne
  | cons bytes pieces ih =>
    rw [List.flatten_cons, List.append_assoc] at hw
    obtain ⟨w', hw', hat', hstop⟩ := receive_arriving bytes hworks hw hat
    rw [TableHandler.receiveAll, List.foldl_cons]
    cases pieces with
    | nil => exact ⟨w', hw', fun hdone ↦ (if_pos (c := _ = true) hdone).mp hat', hstop⟩
    | cons next pieces => exact ih (List.cons_ne_nil _ _) hw' hat'

/-- The handler hands its tables on exactly when the stream has arrived; then every buffer that
was sent holds the dealer's bytes. -/
private theorem receiveAll_stored (h : ∃ Done, WorksOff (Arriving dealt own items more)
      (Starved more) state Start Done items) {counters : ι} (hstart : Start counters)
    {pieces : List (List UInt8)} (hne : pieces ≠ []) {stream : List (List UInt8)}
    (hitems : items.flatMap (Item.bytes dealt) = stream.flatten)
    (hstream : pieces.flatten ++ rest = stream.flatten ++ more) :
    Delivers stream pieces (TableHandler.receiveAll state ⟨counters, ⟨own, []⟩, false⟩ pieces)
      fun tables ↦ (∀ x, (own x).SameShape (tables x)) ∧
        ∀ t, (t, 0) ∈ items → ∀ q < ((dealt t.cell).buffers t.array).cap t.buffer,
          ((tables t.cell).buffers t.array).data t.buffer q =
            ((dealt t.cell).buffers t.array).data t.buffer q := by
  obtain ⟨Done, At, hworks, hAt⟩ := h
  let h' := TableHandler.receiveAll state ⟨counters, ⟨own, []⟩, false⟩ pieces
  have hbegin : Arriving dealt own items more (pieces.flatten ++ rest) items ⟨own, []⟩ :=
    ⟨fun x ↦ SameShape.refl _, by rw [hitems]; exact hstream,
      fun t ht q _ hleft ↦ absurd (hleft 0 ht) (Nat.not_lt_zero q)⟩
  obtain ⟨w, hw, hdone, hstarved⟩ := receiveAll_arriving (h := ⟨counters, ⟨own, []⟩, false⟩)
    hne hworks hbegin (hAt counters hstart)
  change Arriving dealt own items more rest w h'.reading at hw
  change h'.done = true → w = [] at hdone
  change h'.done = false → more.length < rest.length at hstarved
  change Delivers stream pieces h' _
  rw [Delivers, TableHandler.stored]
  cases hd : h'.done with
  | false =>
    have hlen := congrArg List.length hstream
    have hless := hstarved hd
    rw [List.length_append, List.length_append] at hlen
    simp only [Bool.false_eq_true, if_false]
    omega
  | true =>
    obtain rfl := hdone hd
    simp only [if_true]
    refine ⟨?_, hw.shape, fun t ht q hq ↦ hw.stored t ht q hq fun _ hmem ↦ nomatch hmem⟩
    -- what is still in the input is what follows the tables
    have hinput : h'.reading.input ++ rest = more := hw.stream
    rw [← hinput, ← List.append_assoc] at hstream
    exact (List.append_cancel_right hstream).symm

end

/-! ### The two back servers -/

/-- The getters of the income server's tables return what those of the dealt tables return. -/
def SameSTables (specs : OtKind → TableSpec) (groups : Nat) (dealt tables : Tables) : Prop :=
  ∀ kind, ∀ p < groups, ∀ i < (specs kind).rowCount, ∀ j < (specs kind).columnCount,
    ∀ otIndex pairIndex,
      (∀ value valueOffset,
        outcome (getSValue otIndex pairIndex value valueOffset (tables ⟨kind, p, i, j⟩)) =
          outcome (getSValue otIndex pairIndex value valueOffset (dealt ⟨kind, p, i, j⟩))) ∧
      outcome (ResidueOtCell.getSValue otIndex pairIndex (tables ⟨kind, p, i, j⟩)) =
        outcome (ResidueOtCell.getSValue otIndex pairIndex (dealt ⟨kind, p, i, j⟩))

/-- The getters of a group server's tables return what those of the dealt tables return. -/
def SameBUTables (specs : OtKind → TableSpec) (p : Nat) (dealt tables : Tables) : Prop :=
  ∀ kind, ∀ i < (specs kind).rowCount, ∀ j < (specs kind).columnCount, ∀ otIndex,
    outcome (getBValue otIndex (tables ⟨kind, p, i, j⟩)) =
      outcome (getBValue otIndex (dealt ⟨kind, p, i, j⟩)) ∧
    (∀ value valueOffset,
      outcome (getUValue otIndex value valueOffset (tables ⟨kind, p, i, j⟩)) =
        outcome (getUValue otIndex value valueOffset (dealt ⟨kind, p, i, j⟩))) ∧
    outcome (ResidueOtCell.getUValue otIndex (tables ⟨kind, p, i, j⟩)) =
      outcome (ResidueOtCell.getUValue otIndex (dealt ⟨kind, p, i, j⟩))

/-- The tables that a party allocates for a query. -/
def Allocated (specs : OtKind → TableSpec) (party : Party) (tables : Tables) : Prop :=
  ∀ x, new party (specs x.kind).otCount (specs x.kind).blobSize = .ok (tables x)

/-- The tables that the front server has dealt: allocated and then filled. -/
def Dealt (specs : OtKind → TableSpec) (tables : Tables) : Prop :=
  ∃ fresh, Allocated specs .DEALER fresh ∧ ∀ x, (fresh x).SameShape (tables x)

variable {specs : OtKind → TableSpec} {groups : Nat} {dealt own : Tables}

/-- A party allocates an array that it holds with the sizes of the dealer's. -/
private theorem capacity_eq (hdealt : Dealt specs dealt) {party : Party}
    (hown : Allocated specs party own) {a : CellArray}
    (ha : ∀ {n size : Nat} {c c' : BlobOtCell}, Constructed party n size c →
      Constructed .DEALER n size c' → c.buffers a = c'.buffers a) (x : CellIndex) :
    ((own x).buffers a).capacity = ((dealt x).buffers a).capacity := by
  obtain ⟨fresh, hfresh, hshape⟩ := hdealt
  rw [(hshape x).capacity, ha (new_ok (hown x)) (new_ok (hfresh x))]

/-- Stored bytes make the cells agree. -/
private theorem sameRecords (hdealt : Dealt specs dealt) {party : Party}
    (hown : Allocated specs party own) {a : CellArray} {forbidden : Party}
    (hparty : party ≠ forbidden) (hdealer : Party.DEALER ≠ forbidden)
    (hcap : ∀ x, ((own x).buffers a).capacity = ((dealt x).buffers a).capacity)
    {tables : Tables} {x : CellIndex} (hshape : (own x).SameShape (tables x))
    (hdata : ∀ k < (dealt x).getBufferCount a, ∀ q < ((dealt x).buffers a).cap k,
      ((tables x).buffers a).data k q = ((dealt x).buffers a).data k q) :
    SameRecords a forbidden (tables x) (dealt x) := by
  obtain ⟨fresh, hfresh, hfreshShape⟩ := hdealt
  have ho := new_ok (hown x)
  have hd := new_ok (hfresh x)
  have hs := hfreshShape x
  refine ⟨?_, ?_, ?_, ?_, ?_, ?_, ?_⟩
  · rwa [hshape.party, ho.role]
  · rwa [hs.party, hd.role]
  · rw [hshape.otCount, ho.otCount, hs.otCount, hd.otCount]
  · rw [hshape.blobSize, ho.blobSize, hs.blobSize, hd.blobSize]
  · rw [hshape.isClosed, ho.isOpen, hs.isClosed, hd.isOpen]
  · rw [hshape.capacity, hcap]
  · intro k q hq
    have hcaps : ((tables x).buffers a).cap k = ((dealt x).buffers a).cap k := by
      rw [hshape.cap, SplitBuffer.cap, SplitBuffer.cap, hcap]
    rw [hcaps] at hq
    by_cases hk : k < (dealt x).getBufferCount a
    · exact (hdata k hk q hq).symm
    · -- there is no such buffer
      rw [SplitBuffer.cap, List.getD_eq_default _ _ (Nat.le_of_not_lt hk)] at hq
      omega

private theorem mem_bufferItems {x : CellIndex} {a : CellArray} {k : Nat}
    (hk : k < (dealt x).getBufferCount a) : ((⟨x, a, k⟩, 0) : Item) ∈ bufferItems dealt x a :=
  List.mem_map.mpr ⟨k, List.mem_range.mpr hk, rfl⟩

private theorem mem_sTablesItems {kind : OtKind} {p i j k : Nat} (hp : p < groups)
    (hi : i < (specs kind).rowCount) (hj : j < (specs kind).columnCount)
    (hk : k < (dealt ⟨kind, p, i, j⟩).getBufferCount .s) :
    ((⟨⟨kind, p, i, j⟩, .s, k⟩, 0) : Item) ∈ sTablesItems specs groups dealt kind := by
  apply List.mem_flatMap.mpr ⟨p, List.mem_range.mpr hp, _⟩
  apply List.mem_flatMap.mpr ⟨i, List.mem_range.mpr hi, _⟩
  exact List.mem_flatMap.mpr ⟨j, List.mem_range.mpr hj, mem_bufferItems hk⟩

private theorem mem_buTableItems {kind : OtKind} {p i j k : Nat}
    (hi : i < (specs kind).rowCount) (hj : j < (specs kind).columnCount) {a : CellArray}
    (ha : a = .b ∨ a = .u) (hk : k < (dealt ⟨kind, p, i, j⟩).getBufferCount a) :
    ((⟨⟨kind, p, i, j⟩, a, k⟩, 0) : Item) ∈ buTableItems specs dealt p kind := by
  apply List.mem_flatMap.mpr ⟨i, List.mem_range.mpr hi, _⟩
  apply List.mem_flatMap.mpr ⟨j, List.mem_range.mpr hj, _⟩
  apply List.mem_append.mpr
  rcases ha with rfl | rfl
  · exact .inl (mem_bufferItems hk)
  · exact .inr (mem_bufferItems hk)

private theorem sameSTables_of_stored (hdealt : Dealt specs dealt)
    (hown : Allocated specs .SENDER own) {tables : Tables}
    (hshape : ∀ x, (own x).SameShape (tables x))
    (hdata : ∀ kind t, (t, 0) ∈ sTablesItems specs groups dealt kind →
      ∀ q < ((dealt t.cell).buffers t.array).cap t.buffer,
        ((tables t.cell).buffers t.array).data t.buffer q =
          ((dealt t.cell).buffers t.array).data t.buffer q) :
    SameSTables specs groups dealt tables := by
  intro kind p hp i hi j hj otIndex pairIndex
  have hcap := capacity_eq hdealt hown (a := .s) fun h h' ↦
    Except.ok.inj ((h.s (by decide)).symm.trans (h'.s (by decide)))
  have hsame : SameRecords .s .RECEIVER (tables ⟨kind, p, i, j⟩) (dealt ⟨kind, p, i, j⟩) :=
    sameRecords hdealt hown (by decide) (by decide) hcap (hshape _) fun k hk ↦
      hdata kind _ (mem_sTablesItems hp hi hj hk)
  constructor
  · intro value valueOffset
    exact (reads_getSValue otIndex pairIndex value valueOffset).same _ _ hsame
  · exact (ResidueOtCell.reads_getSValue otIndex pairIndex).same _ _ hsame

private theorem sameBUTables_of_stored (hdealt : Dealt specs dealt) {p : Nat}
    (hown : Allocated specs .RECEIVER own) {tables : Tables}
    (hshape : ∀ x, (own x).SameShape (tables x))
    (hdata : ∀ kind t, (t, 0) ∈ buTableItems specs dealt p kind →
      ∀ q < ((dealt t.cell).buffers t.array).cap t.buffer,
        ((tables t.cell).buffers t.array).data t.buffer q =
          ((dealt t.cell).buffers t.array).data t.buffer q) :
    SameBUTables specs p dealt tables := by
  intro kind i hi j hj otIndex
  have hsame : ∀ a, a = .b ∨ a = .u →
      SameRecords a .SENDER (tables ⟨kind, p, i, j⟩) (dealt ⟨kind, p, i, j⟩) := by
    intro a ha
    have hcap := capacity_eq hdealt hown (a := a) fun h h' ↦ by
      rcases ha with rfl | rfl
      · exact Except.ok.inj ((h.b (by decide)).symm.trans (h'.b (by decide)))
      · exact Except.ok.inj ((h.u (by decide)).symm.trans (h'.u (by decide)))
    exact sameRecords hdealt hown (by decide) (by decide) hcap (hshape _) fun k hk ↦
      hdata kind _ (mem_buTableItems hi hj ha hk)
  refine ⟨?_, fun value valueOffset ↦ ?_, ?_⟩
  · exact (reads_getBValue otIndex).same _ _ (hsame .b (.inl rfl))
  · exact (reads_getUValue otIndex value valueOffset).same _ _ (hsame .u (.inr rfl))
  · exact (ResidueOtCell.reads_getUValue otIndex).same _ _ (hsame .u (.inr rfl))

/-- **Transfer of the tables.** However the streams are split, the income server and each group
server hand their tables on exactly when all of the stream has arrived; the values are then the
dealer's, and what follows the tables is left to the next state. -/
theorem backServers_store_dealt (hdealt : Dealt specs dealt) :
    (∀ own, Allocated specs .SENDER own → ∀ pieces rest more, pieces ≠ [] →
      pieces.flatten ++ rest = (A_I_M_YI_0 specs groups dealt).flatten ++ more →
      Delivers (A_I_M_YI_0 specs groups dealt) pieces
        ((enter_I_A_M_YI_0 own).receiveAll (I_A_M_YI_0 specs groups) pieces)
        (SameSTables specs groups dealt)) ∧
    ∀ p own, Allocated specs .RECEIVER own → ∀ pieces rest more, pieces ≠ [] →
      pieces.flatten ++ rest = (A_G_M_YI_0 specs dealt p).flatten ++ more →
      Delivers (A_G_M_YI_0 specs dealt p) pieces
        ((enter_G_A_M_YI_0 own).receiveAll (G_A_M_YI_0 specs p) pieces)
        (SameBUTables specs p dealt) := by
  constructor
  · intro own hown pieces rest more hne hstream
    have hcap := capacity_eq hdealt hown (a := .s) fun h h' ↦
      Except.ok.inj ((h.s (by decide)).symm.trans (h'.s (by decide)))
    have hstart : IncomeStart (enter_I_A_M_YI_0 own).counters :=
      ⟨⟨rfl, rfl, rfl, rfl, rfl⟩, ⟨rfl, rfl, rfl, rfl, rfl⟩, rfl, rfl, rfl, rfl, rfl⟩
    have hrun := receiveAll_stored (I_A_M_YI_0_worksOff hcap) hstart hne
      (incomeItems_bytes specs groups dealt) hstream
    apply hrun.imp
    intro tables htables
    apply sameSTables_of_stored hdealt hown htables.1
    intro kind t ht
    apply htables.2 t
    cases kind
    · exact List.mem_append_left _ ht
    · exact List.mem_append_right _ (List.mem_append_left _ ht)
    · exact List.mem_append_right _ (List.mem_append_right _ ht)
  · intro p own hown pieces rest more hne hstream
    have hcap : ∀ a, a = .b ∨ a = .u → ∀ x,
        ((own x).buffers a).capacity = ((dealt x).buffers a).capacity := by
      intro a ha
      apply capacity_eq hdealt hown
      intro n size c c' h h'
      rcases ha with rfl | rfl
      · exact Except.ok.inj ((h.b (by decide)).symm.trans (h'.b (by decide)))
      · exact Except.ok.inj ((h.u (by decide)).symm.trans (h'.u (by decide)))
    have hstart : GroupStart (enter_G_A_M_YI_0 own).counters :=
      ⟨⟨rfl, rfl, ⟨rfl, rfl⟩, rfl, rfl⟩, ⟨rfl, rfl, ⟨rfl, rfl⟩, rfl, rfl⟩,
        rfl, rfl, ⟨rfl, rfl⟩, rfl, rfl⟩
    have hrun := receiveAll_stored
      (G_A_M_YI_0_worksOff p (hcap .b (.inl rfl)) (hcap .u (.inr rfl))) hstart hne
      (groupItems_bytes specs dealt p) hstream
    apply hrun.imp
    intro tables htables
    apply sameBUTables_of_stored hdealt hown htables.1
    intro kind t ht
    apply htables.2 t
    cases kind
    · exact List.mem_append_left _ ht
    · exact List.mem_append_right _ (List.mem_append_left _ ht)
    · exact List.mem_append_right _ (List.mem_append_right _ ht)

/-- A query with one row and column and small parameters. -/
def smallSpecs : OtKind → TableSpec := querySpecs 1 1 1 1 251 fun _ ↦ 1

/-- Its tables before they are filled. -/
def smallTables (party : Party) : Tables := fun x ↦
  match new party (smallSpecs x.kind).otCount (smallSpecs x.kind).blobSize with
  | .ok c => c
  | .error _ => fullCell

private theorem allocated_smallTables (party : Party) :
    Allocated smallSpecs party (smallTables party) := by
  intro x
  obtain ⟨c, hc⟩ : ∃ c, new party (smallSpecs x.kind).otCount
      (smallSpecs x.kind).blobSize = .ok c := by
    cases x.kind <;> cases party <;> exact ⟨_, rfl⟩
  rw [smallTables, hc]

theorem smallTables_stored :
    let stream := (A_I_M_YI_0 smallSpecs 1 (smallTables .DEALER)).flatten
    Delivers (A_I_M_YI_0 smallSpecs 1 (smallTables .DEALER)) [stream.take 3, stream.drop 3]
      ((enter_I_A_M_YI_0 (smallTables .SENDER)).receiveAll (I_A_M_YI_0 smallSpecs 1)
        [stream.take 3, stream.drop 3])
      (SameSTables smallSpecs 1 (smallTables .DEALER)) := by
  have hdealt : Dealt smallSpecs (smallTables .DEALER) :=
    ⟨_, allocated_smallTables .DEALER, fun _ ↦ SameShape.refl _⟩
  have hrun := (@backServers_store_dealt _ 1 _ hdealt).1 _ (allocated_smallTables .SENDER)
  generalize (A_I_M_YI_0 smallSpecs 1 (smallTables .DEALER)).flatten = stream at hrun ⊢
  dsimp only
  apply hrun _ [] [] (List.cons_ne_nil _ _)
  simp [List.take_append_drop]

end Safrn.Ot
