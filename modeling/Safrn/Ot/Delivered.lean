import Safrn.Ot.Transfer

/-!
# The stored tables are the dealt ones

What is left to read is a list of buffers with positions. While a certain list is left, the bytes
to come are those of its buffers from the positions on, and all other bytes are stored. Each loop
keeps this, so that a handler is done exactly when the whole stream has arrived, and its getters
then return what the dealer's return.
-/

namespace Safrn.Ot

open Safrn.Base Safrn.Java Resumable BlobOtCell

/-! ### Cells of one shape -/

namespace BlobOtCell

/-- The second cell differs from the first one at most in the contents of its buffers. -/
structure SameShape (c c' : BlobOtCell) : Prop where
  party : c'.party = c.party
  otCount : c'.otCount = c.otCount
  blobSize : c'.blobSize = c.blobSize
  isClosed : c'.isClosed = c.isClosed
  capacity : ∀ a, (c'.buffers a).capacity = (c.buffers a).capacity

theorem SameShape.refl (c : BlobOtCell) : SameShape c c := ⟨rfl, rfl, rfl, rfl, fun _ ↦ rfl⟩

variable {c c' : BlobOtCell}

@[simp] theorem setBuffers_party (a : CellArray) (B : ByteBuffers) :
    (c.setBuffers a B).party = c.party := by cases a <;> rfl

@[simp] theorem setBuffers_otCount (a : CellArray) (B : ByteBuffers) :
    (c.setBuffers a B).otCount = c.otCount := by cases a <;> rfl

@[simp] theorem setBuffers_blobSize (a : CellArray) (B : ByteBuffers) :
    (c.setBuffers a B).blobSize = c.blobSize := by cases a <;> rfl

@[simp] theorem setBuffers_isClosed (a : CellArray) (B : ByteBuffers) :
    (c.setBuffers a B).isClosed = c.isClosed := by cases a <;> rfl

theorem buffers_setBuffers (a a' : CellArray) (B : ByteBuffers) :
    (c.setBuffers a B).buffers a' = if a' = a then B else c.buffers a' := by
  cases a <;> cases a' <;> rfl

theorem SameShape.cap (h : SameShape c c') (a : CellArray) (k : Nat) :
    (c'.buffers a).cap k = (c.buffers a).cap k := by
  rw [SplitBuffer.cap, SplitBuffer.cap, h.capacity]

/-- Overwriting bytes of a buffer keeps the shape. -/
theorem SameShape.write (h : SameShape c c') (a : CellArray) (i j n : Nat) (f : Nat → UInt8) :
    SameShape c (c'.setBuffers a ((c'.buffers a).write i j n f)) where
  party := (setBuffers_party a _).trans h.party
  otCount := (setBuffers_otCount a _).trans h.otCount
  blobSize := (setBuffers_blobSize a _).trans h.blobSize
  isClosed := (setBuffers_isClosed a _).trans h.isClosed
  capacity a' := by
    rw [buffers_setBuffers]
    split
    · next heq =>
      subst heq
      exact h.capacity _
    · exact h.capacity a'

theorem length_getBuffer (a : CellArray) (k : Nat) :
    (c.getBuffer a k).length = (c.buffers a).cap k := by
  rw [getBuffer, List.length_map, List.length_range]

theorem getElem?_getBuffer (a : CellArray) {k q : Nat} (hq : q < (c.buffers a).cap k) :
    (c.getBuffer a k)[q]? = some ((c.buffers a).data k q) := by
  rw [getBuffer, List.getElem?_map, List.getElem?_range hq]
  rfl

end BlobOtCell

/-! ### What is left to read -/

/-- A buffer, and the position from which on it is to be filled. -/
abbrev Item := Slot × Nat

/-- The bytes of an item in the dealt tables. -/
def Item.bytes (dealt : Tables) (item : Item) : List UInt8 :=
  ((dealt item.1.cell).getBuffer item.1.array item.1.buffer).drop item.2

/-- The tables are being filled: their cells are the allocated ones up to contents, the bytes to
come are those of the items that are left and what follows the tables, and each buffer of the
arrays that are sent is stored but for the items that are left. -/
structure Arriving (dealt own : Tables) (all : List Item) (more rest : List UInt8)
    (w : List Item) (d : Reading) : Prop where
  shape : ∀ x, (own x).SameShape (d.tables x)
  stream : d.input ++ rest = w.flatMap (Item.bytes dealt) ++ more
  stored : ∀ t, (t, 0) ∈ all → ∀ q < ((dealt t.cell).buffers t.array).cap t.buffer,
    (∀ position, (t, position) ∈ w → q < position) →
      ((d.tables t.cell).buffers t.array).data t.buffer q =
        ((dealt t.cell).buffers t.array).data t.buffer q

/-- The input is used up, and bytes of the tables are to come. -/
def Starved (more rest : List UInt8) (d : Reading) : Prop :=
  d.input = [] ∧ more.length < rest.length

/-- What is left of one buffer. -/
def BufferAt (dealt : Tables) (t : Slot) (buffer : Option Nat) (w : List Item) : Prop :=
  buffer.getD 0 ≤ ((dealt t.cell).buffers t.array).cap t.buffer ∧ w = [(t, buffer.getD 0)]

variable {dealt own : Tables} {all : List Item} {more rest : List UInt8}

private theorem data_readBytes (d : Reading) (t t' : Slot) (position n q : Nat) :
    (((d.readBytes t position n).tables t'.cell).buffers t'.array).data t'.buffer q =
      if t' = t ∧ position ≤ q ∧ q < position + n then d.input.getD (q - position) 0
      else ((d.tables t'.cell).buffers t'.array).data t'.buffer q := by
  obtain ⟨x, a, k⟩ := t
  obtain ⟨x', a', k'⟩ := t'
  rw [Reading.readBytes]
  dsimp only
  by_cases hx : x' = x
  · subst hx
    rw [Function.update_self, buffers_setBuffers]
    by_cases ha : a' = a
    · subst ha
      rw [if_pos rfl]
      simp [SplitBuffer.write]
    · rw [if_neg ha, if_neg fun h ↦ ha (by injection h.1)]
  · rw [Function.update_of_ne hx, if_neg fun h ↦ hx (by injection h.1)]

/-- Reading bytes of the head item stores them. -/
private theorem arriving_readBytes {t : Slot} {position n : Nat} {w : List Item} {d : Reading}
    (h : Arriving dealt own all more rest ((t, position) :: w) d)
    (hn : position + n ≤ ((dealt t.cell).buffers t.array).cap t.buffer)
    (hlen : n ≤ d.input.length) :
    Arriving dealt own all more rest ((t, position + n) :: w) (d.readBytes t position n) := by
  have hstream := h.stream
  rw [List.flatMap_cons, Item.bytes, List.append_assoc] at hstream
  refine ⟨fun x ↦ ?_, ?_, fun t' ht' q hq hleft ↦ ?_⟩
  · rw [Reading.readBytes]
    dsimp only
    by_cases hx : x = t.cell
    · subst hx
      rw [Function.update_self]
      exact (h.shape _).write _ _ _ _ _
    · rw [Function.update_of_ne hx]
      exact h.shape x
  · rw [List.flatMap_cons, Item.bytes, List.append_assoc]
    dsimp only at hstream ⊢
    have hbuffer : n ≤ (((dealt t.cell).getBuffer t.array t.buffer).drop position).length := by
      rw [List.length_drop, length_getBuffer]
      omega
    have hdrop := congrArg (List.drop n) hstream
    rw [List.drop_append_of_le_length hlen, List.drop_append_of_le_length hbuffer,
      List.drop_drop] at hdrop
    exact hdrop
  · rw [data_readBytes]
    split
    · next hin =>
      obtain ⟨rfl, hlo, hhi⟩ := hin
      -- the byte of the input is the dealt one
      have hget := congrArg (fun l ↦ l[q - position]?) hstream
      have hq' : q - position < d.input.length := by omega
      dsimp only at hget
      rw [List.getElem?_append_left hq', List.getElem?_append_left
        (by rw [List.length_drop, length_getBuffer]; omega), List.getElem?_drop,
        show position + (q - position) = q by omega, getElem?_getBuffer _ hq] at hget
      rw [List.getD_eq_getElem?_getD, hget]
      rfl
    · next hout =>
      refine h.stored t' ht' q hq fun position' hmem ↦ ?_
      rcases List.mem_cons.mp hmem with heq | hmem
      · obtain ⟨rfl, rfl⟩ := Prod.mk.inj heq
        have hlt := hleft _ List.mem_cons_self
        by_contra hge
        exact hout ⟨rfl, by omega, hlt⟩
      · exact hleft position' (List.mem_cons_of_mem _ hmem)

/-- A buffer that has been filled is left out. -/
private theorem arriving_full {t : Slot} {w : List Item} {d : Reading}
    (h : Arriving dealt own all more rest
      ((t, ((dealt t.cell).buffers t.array).cap t.buffer) :: w) d) :
    Arriving dealt own all more rest w d := by
  refine ⟨h.shape, ?_, fun t' ht' q hq hleft ↦ h.stored t' ht' q hq fun position hmem ↦ ?_⟩
  · have hstream := h.stream
    rw [List.flatMap_cons, Item.bytes] at hstream
    dsimp only at hstream
    rwa [List.drop_eq_nil_of_le (Nat.le_of_eq (length_getBuffer _ _)), List.nil_append]
      at hstream
  · rcases List.mem_cons.mp hmem with heq | hmem
    · obtain ⟨rfl, rfl⟩ := Prod.mk.inj heq
      exact hq
    · exact hleft position hmem

/-- The innermost body works off its buffer. -/
theorem readBuffer_works {t : Slot}
    (hcap : ((own t.cell).buffers t.array).capacity =
      ((dealt t.cell).buffers t.array).capacity) :
    Works (Arriving dealt own all more rest) (Starved more rest) (readBuffer t) (BufferAt dealt t)
      (· = none) := by
  intro buffer w d later hat hG
  obtain ⟨hle, rfl⟩ := hat
  have hcap' : ((d.tables t.cell).buffers t.array).cap t.buffer =
      ((dealt t.cell).buffers t.array).cap t.buffer := by
    rw [(hG.shape t.cell).cap, SplitBuffer.cap, SplitBuffer.cap, hcap]
  rw [readBuffer]
  dsimp only
  rw [hcap']
  by_cases hshort : d.input.length <
      ((dealt t.cell).buffers t.array).cap t.buffer - buffer.getD 0
  · rw [if_pos hshort]
    refine .inr ⟨_, _, [(t, buffer.getD 0 + d.input.length)], rfl, ⟨?_, rfl⟩,
      arriving_readBytes hG (by omega) (Nat.le_refl _), ?_, ?_⟩
    · rw [Option.getD_some]
      omega
    · exact List.drop_length
    · -- the buffer needs more than the input has
      have hlen := congrArg List.length hG.stream
      rw [List.flatMap_append, List.length_append, List.length_append, List.length_append,
        List.flatMap_cons, List.length_append, Item.bytes, List.length_drop,
        length_getBuffer] at hlen
      dsimp only at hlen
      omega
  · rw [if_neg hshort]
    refine .inl ⟨none, _, rfl, rfl, arriving_full (t := t) ?_⟩
    have hread := arriving_readBytes hG
      (n := ((dealt t.cell).buffers t.array).cap t.buffer - buffer.getD 0) (by omega) (by omega)
    rwa [show buffer.getD 0 + (((dealt t.cell).buffers t.array).cap t.buffer - buffer.getD 0) =
      ((dealt t.cell).buffers t.array).cap t.buffer by omega] at hread

/-! ### The loops -/

/-- What the loops over one array of a cell are to read. -/
def bufferItems (dealt : Tables) (x : CellIndex) (a : CellArray) : List Item :=
  (List.range ((dealt x).getBufferCount a)).map fun k ↦ (⟨x, a, k⟩, 0)

variable (specs : OtKind → TableSpec) (groups : Nat)

/-- What the loop over `isOts`, `iuOts` or `iwOts` is to read. -/
def sTablesItems (dealt : Tables) (kind : OtKind) : List Item :=
  (List.range groups).flatMap fun p ↦
    (List.range (specs kind).rowCount).flatMap fun i ↦
      (List.range (specs kind).columnCount).flatMap fun j ↦ bufferItems dealt ⟨kind, p, i, j⟩ .s

/-- What the loop over `gsOt`, `guOt` or `gwOt` is to read. -/
def buTableItems (dealt : Tables) (p : Nat) (kind : OtKind) : List Item :=
  (List.range (specs kind).rowCount).flatMap fun i ↦
    (List.range (specs kind).columnCount).flatMap fun j ↦
      bufferItems dealt ⟨kind, p, i, j⟩ .b ++ bufferItems dealt ⟨kind, p, i, j⟩ .u

/-- What the state `I_A_M_YI_0` is to read. -/
def incomeItems (dealt : Tables) : List Item :=
  sTablesItems specs groups dealt .sOt ++
    (sTablesItems specs groups dealt .uOt ++ sTablesItems specs groups dealt .wOt)

/-- What the state `G_A_M_YI_0` of the group server `p` is to read. -/
def groupItems (dealt : Tables) (p : Nat) : List Item :=
  buTableItems specs dealt p .sOt ++
    (buTableItems specs dealt p .uOt ++ buTableItems specs dealt p .wOt)

theorem bufferItems_bytes (dealt : Tables) (x : CellIndex) (a : CellArray) :
    (bufferItems dealt x a).flatMap (Item.bytes dealt) = (writeBuffers dealt x a).flatten := by
  rw [bufferItems, List.flatMap_map, writeBuffers, List.flatMap_def]
  simp only [Item.bytes, List.drop_zero]

theorem sTablesItems_bytes (dealt : Tables) (kind : OtKind) :
    (sTablesItems specs groups dealt kind).flatMap (Item.bytes dealt) =
      (writeSTables specs groups dealt kind).flatten := by
  simp only [sTablesItems, writeSTables, List.flatMap_assoc, bufferItems_bytes,
    List.flatten_eq_flatMap]

theorem buTableItems_bytes (dealt : Tables) (p : Nat) (kind : OtKind) :
    (buTableItems specs dealt p kind).flatMap (Item.bytes dealt) =
      (writeBUTable specs dealt p kind).flatten := by
  simp only [buTableItems, writeBUTable, List.flatMap_assoc, List.flatMap_append,
    bufferItems_bytes, List.flatten_eq_flatMap]

theorem incomeItems_bytes (dealt : Tables) :
    (incomeItems specs groups dealt).flatMap (Item.bytes dealt) =
      (A_I_M_YI_0 specs groups dealt).flatten := by
  rw [incomeItems, A_I_M_YI_0, List.append_assoc, List.flatMap_append, List.flatMap_append,
    List.flatten_append, List.flatten_append, sTablesItems_bytes, sTablesItems_bytes,
    sTablesItems_bytes]

theorem groupItems_bytes (dealt : Tables) (p : Nat) :
    (groupItems specs dealt p).flatMap (Item.bytes dealt) =
      (A_G_M_YI_0 specs dealt p).flatten := by
  rw [groupItems, A_G_M_YI_0, List.append_assoc, List.flatMap_append, List.flatMap_append,
    List.flatten_append, List.flatten_append, buTableItems_bytes, buTableItems_bytes,
    buTableItems_bytes]

variable {specs groups}

theorem restart_start {ι : Type} {Start : ι → Prop} {n : Nat} (x : Nat × ι)
    (hx : LoopDone n Start x) : LoopStart Start (restart x) := ⟨rfl, hx.2⟩

/-- The number of buffers does not change. -/
private theorem getBufferCount_eq {x : CellIndex} {a : CellArray}
    (hcap : ((own x).buffers a).capacity = ((dealt x).buffers a).capacity) (r : List UInt8)
    (w : List Item) (d : Reading) (hG : Arriving dealt own all more r w d) :
    (d.tables x).getBufferCount a = (dealt x).getBufferCount a := by
  rw [getBufferCount, getBufferCount, (hG.shape x).capacity, hcap]

theorem readBuffers_worksOff {x : CellIndex} {a : CellArray}
    (hcap : ((own x).buffers a).capacity = ((dealt x).buffers a).capacity) :
    WorksOff (Arriving dealt own all more) (Starved more) (readBuffers x a) (LoopStart (· = none))
      (LoopDone ((dealt x).getBufferCount a) (· = none)) (bufferItems dealt x a) := by
  rw [bufferItems, List.map_eq_flatMap]
  refine WorksOff.loop (getBufferCount_eq hcap) fun k _ ↦ ?_
  refine ⟨BufferAt dealt ⟨x, a, k⟩, fun r ↦ readBuffer_works hcap, ?_⟩
  rintro _ rfl
  exact ⟨Nat.zero_le _, rfl⟩

/-- The counters of a loop over `isOts`, `iuOts` or `iwOts` at its start. -/
def SStart : SCounters → Prop := LoopStart (LoopStart (LoopStart (LoopStart (· = none))))

theorem readSTables_worksOff (kind : OtKind)
    (hcap : ∀ x, ((own x).buffers .s).capacity = ((dealt x).buffers .s).capacity) :
    WorksOff (Arriving dealt own all more) (Starved more) (readSTables specs groups kind) SStart
      (LoopDone groups (LoopStart (LoopStart (LoopStart (· = none)))))
      (sTablesItems specs groups dealt kind) := by
  refine WorksOff.loop (fun _ _ _ _ ↦ rfl) fun p _ ↦ ?_
  refine (WorksOff.loop (fun _ _ _ _ ↦ rfl) fun i _ ↦ ?_).reset restart_start
  refine (WorksOff.loop (fun _ _ _ _ ↦ rfl) fun j _ ↦ ?_).reset restart_start
  exact (readBuffers_worksOff (hcap _)).reset restart_start

/-- The counters of a loop over `gsOt`, `guOt` or `gwOt` at its start. -/
def BUStart : BUCounters → Prop :=
  LoopStart (LoopStart fun (x, y) ↦ LoopStart (· = none) x ∧ LoopStart (· = none) y)

theorem readBUTable_worksOff (p : Nat) (kind : OtKind)
    (hb : ∀ x, ((own x).buffers .b).capacity = ((dealt x).buffers .b).capacity)
    (hu : ∀ x, ((own x).buffers .u).capacity = ((dealt x).buffers .u).capacity) :
    WorksOff (Arriving dealt own all more) (Starved more) (readBUTable specs p kind) BUStart
      (LoopDone (specs kind).rowCount
        (LoopStart fun (x, y) ↦ LoopStart (· = none) x ∧ LoopStart (· = none) y))
      (buTableItems specs dealt p kind) := by
  refine WorksOff.loop (fun _ _ _ _ ↦ rfl) fun i _ ↦ ?_
  refine (WorksOff.loop (fun _ _ _ _ ↦ rfl) fun j _ ↦ ?_).reset restart_start
  refine WorksOff.reset ((readBuffers_worksOff (hb _)).both (readBuffers_worksOff (hu _)) ?_) ?_
  · exact fun r ↦ loop_idle (getBufferCount_eq (hb _) r)
  · rintro ⟨x, y⟩ ⟨hx, hy⟩
    exact ⟨restart_start x hx, restart_start y hy⟩

/-- The counters of the state `I_A_M_YI_0` at its start. -/
def IncomeStart : SCounters × SCounters × SCounters → Prop := fun (x, y, z) ↦
  SStart x ∧ SStart y ∧ SStart z

/-- The counters of the state `G_A_M_YI_0` at its start. -/
def GroupStart : BUCounters × BUCounters × BUCounters → Prop := fun (x, y, z) ↦
  BUStart x ∧ BUStart y ∧ BUStart z

/-- The state `I_A_M_YI_0` works off the `s` buffers of all tables. -/
theorem I_A_M_YI_0_worksOff
    (hcap : ∀ x, ((own x).buffers .s).capacity = ((dealt x).buffers .s).capacity) :
    ∃ Done, WorksOff (Arriving dealt own all more) (Starved more) (I_A_M_YI_0 specs groups)
      IncomeStart Done (incomeItems specs groups dealt) := by
  refine ⟨_, (readSTables_worksOff .sOt hcap).both
    ((readSTables_worksOff .uOt hcap).both (readSTables_worksOff .wOt hcap) ?_) ?_⟩
  · exact fun r ↦ loop_idle fun _ _ _ ↦ rfl
  · exact fun r ↦ loop_idle fun _ _ _ ↦ rfl

/-- The state `G_A_M_YI_0` works off the `b` and `u` buffers of the server's tables. -/
theorem G_A_M_YI_0_worksOff (p : Nat)
    (hb : ∀ x, ((own x).buffers .b).capacity = ((dealt x).buffers .b).capacity)
    (hu : ∀ x, ((own x).buffers .u).capacity = ((dealt x).buffers .u).capacity) :
    ∃ Done, WorksOff (Arriving dealt own all more) (Starved more) (G_A_M_YI_0 specs p)
      GroupStart Done (groupItems specs dealt p) := by
  refine ⟨_, (readBUTable_worksOff p .sOt hb hu).both
    ((readBUTable_worksOff p .uOt hb hu).both (readBUTable_worksOff p .wOt hb hu) ?_) ?_⟩
  · exact fun r ↦ loop_idle fun _ _ _ ↦ rfl
  · exact fun r ↦ loop_idle fun _ _ _ ↦ rfl

end Safrn.Ot
