import Safrn.Base.BigEndian
import Safrn.Base.Blocks
import Safrn.Java.BigInteger

/-!
# Byte buffers of the Java services

Models what the services use of `io.netty.buffer.ByteBuf`: reading at the reader index, with a mark
to go back to, and writing behind what is there. A buffer holds at most `Integer.MAX_VALUE` bytes.
-/

namespace Safrn.Java

open Safrn.Base

/-- A buffer that is read: what has been written to it, and two positions in that. -/
structure ByteBuf where
  bytes : List (BitVec 8)
  readerIndex : ℕ
  markedReaderIndex : ℕ
  readerIndex_le : readerIndex ≤ bytes.length
  markedReaderIndex_le : markedReaderIndex ≤ bytes.length

/-- Code that reads a buffer. -/
abbrev Reader (α : Type) := StateT ByteBuf (Except Status) α

/-- The next reader goes on from what a reader left. -/
theorem Reader.bind_ok {α β : Type} {m : Reader α} {k : α → Reader β} {buf buf' : ByteBuf} {x : α}
    (h : m buf = .ok (x, buf')) : (m >>= k) buf = k x buf' := by
  change (m buf).bind (fun p ↦ k p.1 p.2) = _
  rw [h]
  rfl

theorem Reader.bind_error {α β : Type} {m : Reader α} {k : α → Reader β} {buf : ByteBuf}
    {e : Status} (h : m buf = .error e) : (m >>= k) buf = .error e := by
  change (m buf).bind (fun p ↦ k p.1 p.2) = _
  rw [h]
  rfl

namespace ByteBuf

/-- The bytes from the reader index on. -/
def readable (buf : ByteBuf) : List (BitVec 8) := buf.bytes.drop buf.readerIndex

/-- A buffer with bytes to read and none before them. -/
def ofBytes (bytes : List (BitVec 8)) : ByteBuf := ⟨bytes, 0, 0, Nat.zero_le _, Nat.zero_le _⟩

/-- More bytes arrive. -/
def append (buf : ByteBuf) (bytes : List (BitVec 8)) : ByteBuf where
  bytes := buf.bytes ++ bytes
  readerIndex := buf.readerIndex
  markedReaderIndex := buf.markedReaderIndex
  readerIndex_le := by
    have h := buf.readerIndex_le
    rw [List.length_append]
    omega
  markedReaderIndex_le := by
    have h := buf.markedReaderIndex_le
    rw [List.length_append]
    omega

/-- `isReadable(size)`. -/
def isReadable (size : ℕ) : Reader Bool := fun buf ↦
  .ok (decide (size ≤ buf.bytes.length - buf.readerIndex), buf)

/-- `readerIndex()`. -/
def getReaderIndex : Reader ℕ := fun buf ↦ .ok (buf.readerIndex, buf)

/-- The buffer with the mark at the reader index. -/
def marked (buf : ByteBuf) : ByteBuf := { buf with
  markedReaderIndex := buf.readerIndex
  markedReaderIndex_le := buf.readerIndex_le }

/-- `markReaderIndex`. -/
def markReaderIndex : Reader Unit := fun buf ↦ .ok ((), buf.marked)

/-- `resetReaderIndex`. -/
def resetReaderIndex : Reader Unit := fun buf ↦
  .ok ((), { buf with
    readerIndex := buf.markedReaderIndex
    readerIndex_le := buf.markedReaderIndex_le })

/-- `getBytes(index, dst)` for an array of `length` bytes. -/
def getBytes (index length : ℕ) : Reader (List (BitVec 8)) := fun buf ↦
  if index + length ≤ buf.bytes.length then .ok ((buf.bytes.drop index).take length, buf)
  else .error .indexOutOfBoundsException

/-- `skipBytes(length)`. -/
def skipBytes (length : ℕ) : Reader Unit := fun buf ↦
  if h : buf.readerIndex + length ≤ buf.bytes.length then
    .ok ((), { buf with readerIndex := buf.readerIndex + length, readerIndex_le := h })
  else .error .indexOutOfBoundsException

/-- `readBytes(dst)` for an array of `length` bytes. -/
def readBytes (length : ℕ) : Reader (List (BitVec 8)) := do
  let bytes ← getBytes (← getReaderIndex) length
  skipBytes length
  return bytes

/-- `readInt`. -/
def readInt : Reader (BitVec 32) := do
  let bytes ← readBytes 4
  return ofBigEndian 4 bytes

/-! ### What reading does -/

/-- What is left to read is `rest`, and the bytes are the same. -/
structure MovesTo (buf buf' : ByteBuf) (rest : List (BitVec 8)) : Prop where
  bytes : buf'.bytes = buf.bytes
  readable : buf'.readable = rest

variable {buf buf' : ByteBuf} {rest : List (BitVec 8)} {n : ℕ}

theorem length_readable (buf : ByteBuf) :
    buf.readable.length = buf.bytes.length - buf.readerIndex := List.length_drop

theorem readable_append (buf : ByteBuf) (bytes : List (BitVec 8)) :
    (buf.append bytes).readable = buf.readable ++ bytes :=
  List.drop_append_of_le_length buf.readerIndex_le

/-- The reader index moves with what is left to read. -/
theorem MovesTo.readerIndex_add (h : buf.MovesTo buf' rest) :
    buf'.readerIndex + rest.length = buf.readerIndex + buf.readable.length := by
  have hle := buf.readerIndex_le
  have hle' := buf'.readerIndex_le
  rw [← h.readable, length_readable, length_readable, h.bytes] at *
  omega

theorem MovesTo.refl (buf : ByteBuf) : buf.MovesTo buf buf.readable := ⟨rfl, rfl⟩

theorem MovesTo.trans {buf₁ buf₂ buf₃ : ByteBuf} {rest₂ rest₃ : List (BitVec 8)}
    (h : buf₁.MovesTo buf₂ rest₂) (h' : buf₂.MovesTo buf₃ rest₃) : buf₁.MovesTo buf₃ rest₃ :=
  ⟨h'.bytes.trans h.bytes, h'.readable⟩

theorem isReadable_eq (size : ℕ) (buf : ByteBuf) :
    isReadable size buf = .ok (decide (size ≤ buf.readable.length), buf) := by
  rw [length_readable]
  rfl

theorem getReaderIndex_eq (buf : ByteBuf) : getReaderIndex buf = .ok (buf.readerIndex, buf) := rfl

private theorem getBytes_readerIndex (h : n ≤ buf.readable.length) :
    getBytes buf.readerIndex n buf = .ok (buf.readable.take n, buf) := by
  have hle := buf.readerIndex_le
  rw [length_readable] at h
  exact if_pos (by omega)

theorem skipBytes_ok (h : n ≤ buf.readable.length) :
    ∃ buf', skipBytes n buf = .ok ((), buf') ∧ buf.MovesTo buf' (buf.readable.drop n) ∧
      buf'.markedReaderIndex = buf.markedReaderIndex := by
  have hle := buf.readerIndex_le
  rw [length_readable] at h
  have hfits : buf.readerIndex + n ≤ buf.bytes.length := by omega
  refine ⟨{ buf with readerIndex := buf.readerIndex + n, readerIndex_le := hfits },
    dif_pos hfits, ⟨rfl, ?_⟩, rfl⟩
  rw [readable, readable, List.drop_drop]

/-- Look at the next bytes, and then skip them. -/
theorem getBytes_skipBytes {α : Type} {k : List (BitVec 8) → Reader α}
    (h : n ≤ buf.readable.length) :
    ∃ buf', buf.MovesTo buf' (buf.readable.drop n) ∧
      buf'.markedReaderIndex = buf.markedReaderIndex ∧
      (do let bytes ← getBytes (← getReaderIndex) n
          skipBytes n
          k bytes : Reader α) buf = k (buf.readable.take n) buf' := by
  obtain ⟨buf', hskip, hmoves, hmarked⟩ := skipBytes_ok h
  refine ⟨buf', hmoves, hmarked, ?_⟩
  rw [Reader.bind_ok (getReaderIndex_eq buf),
    Reader.bind_ok (getBytes_readerIndex h), Reader.bind_ok hskip]

theorem readBytes_ok (h : n ≤ buf.readable.length) :
    ∃ buf', readBytes n buf = .ok (buf.readable.take n, buf') ∧
      buf.MovesTo buf' (buf.readable.drop n) ∧
      buf'.markedReaderIndex = buf.markedReaderIndex := by
  obtain ⟨buf', hmoves, hmarked, heq⟩ := getBytes_skipBytes (k := pure) h
  exact ⟨buf', heq, hmoves, hmarked⟩

/-- The `int` at the front of some bytes. -/
def intAt (bytes : List (BitVec 8)) : BitVec 32 := ofBigEndian 4 (bytes.take 4)

theorem intAt_append (value : BitVec 32) (rest : List (BitVec 8)) :
    intAt (bigEndian 4 value ++ rest) = value := by
  rw [intAt, List.take_left' (bigEndian_length 4 value)]
  exact ofBigEndian_bigEndian 4 value

theorem readInt_ok (h : 4 ≤ buf.readable.length) :
    ∃ buf', readInt buf = .ok (intAt buf.readable, buf') ∧
      buf.MovesTo buf' (buf.readable.drop 4) ∧
      buf'.markedReaderIndex = buf.markedReaderIndex := by
  obtain ⟨buf', hread, hmoves, hmarked⟩ := readBytes_ok h
  exact ⟨buf', Reader.bind_ok hread, hmoves, hmarked⟩

/-- Going back to a mark that was set before an `int` was read. -/
theorem markReaderIndex_readInt {α : Type} {k : BitVec 32 → Reader α}
    (h : 4 ≤ buf.readable.length) :
    ∃ buf', buf.MovesTo buf' (buf.readable.drop 4) ∧
      (∃ buf'', resetReaderIndex buf' = .ok ((), buf'') ∧ buf.MovesTo buf'' buf.readable) ∧
      (do markReaderIndex
          let n ← readInt
          k n : Reader α) buf = k (intAt buf.readable) buf' := by
  have hmark : markReaderIndex buf = .ok ((), buf.marked) := rfl
  have hmarked : 4 ≤ buf.marked.readable.length := h
  obtain ⟨buf', hread, hmoves, hmarked⟩ := readInt_ok hmarked
  refine ⟨buf', ⟨hmoves.bytes, hmoves.readable⟩, ⟨_, rfl, hmoves.bytes, ?_⟩, ?_⟩
  · change buf'.bytes.drop buf'.markedReaderIndex = _
    rw [hmoves.bytes, hmarked]
    rfl
  · rw [Reader.bind_ok hmark, Reader.bind_ok hread]
    rfl

theorem readInt_error (h : buf.readable.length < 4) :
    readInt buf = .error .indexOutOfBoundsException := by
  have hle := buf.readerIndex_le
  rw [length_readable] at h
  have hget : getBytes buf.readerIndex 4 buf = .error .indexOutOfBoundsException :=
    if_neg (by omega)
  apply Reader.bind_error
  rw [readBytes, Reader.bind_ok (getReaderIndex_eq buf)]
  exact Reader.bind_error hget

end ByteBuf

/-! ### Writing -/

/-- Code that writes behind the bytes that are there. -/
abbrev Writer := StateT (List (BitVec 8)) (Except Status) Unit

namespace Writer

/-- `writeBytes(src)`. -/
def writeBytes (src : List (BitVec 8)) : Writer := fun out ↦
  if out.length + src.length ≤ Integer.MAX_VALUE then .ok ((), out ++ src)
  else .error .indexOutOfBoundsException

/-- `writeInt(value)`. -/
def writeInt (value : BitVec 32) : Writer := writeBytes (bigEndian 4 value)

/-- `writeZero(length)`. -/
def writeZero (length : ℕ) : Writer := writeBytes (List.replicate length 0#8)

/-- `writerIndex(index)`, `writeInt(value)` and back to the end. -/
def setInt (index : ℕ) (value : BitVec 32) : Writer := fun out ↦
  .ok ((), overwrite index (bigEndian 4 value) out)

/-- The length of what is written, and then that; the length is put in afterwards. -/
def writeFrame (body : Writer) : Writer := fun out ↦ do
  let i := out.length
  let (_, out) ← StateT.run (do writeZero 4; body) out
  let j := out.length
  setInt i (BitVec.ofInt 32 (j - i - 4)) out

/-- One write for each element. -/
def writeEach {α : Type} (write : α → Writer) : List α → Writer
  | [] => pure ()
  | x :: xs => do
    write x
    writeEach write xs

/-- The code writes the bytes, if they fit in. -/
def Appends (write : Writer) (bytes : List (BitVec 8)) : Prop :=
  ∀ out, out.length ≤ Integer.MAX_VALUE → write out =
    if out.length + bytes.length ≤ Integer.MAX_VALUE then .ok ((), out ++ bytes)
    else .error .indexOutOfBoundsException

/-- Bytes behind their length. -/
def frame (body : List (BitVec 8)) : List (BitVec 8) :=
  bigEndian 4 (BitVec.ofNat 32 body.length) ++ body

@[simp] theorem length_frame (body : List (BitVec 8)) : (frame body).length = 4 + body.length := by
  rw [frame, List.length_append, bigEndian_length]

variable {write write' : Writer} {bytes bytes' : List (BitVec 8)}

theorem appends_writeBytes (src : List (BitVec 8)) : Appends (writeBytes src) src := fun _ _ ↦ rfl

theorem appends_writeInt (value : BitVec 32) : Appends (writeInt value) (bigEndian 4 value) :=
  appends_writeBytes _

theorem Appends.andThen (h : Appends write bytes) (h' : Appends write' bytes') :
    Appends (do write; write') (bytes ++ bytes') := by
  intro out hout
  change (write out).bind (fun p ↦ write' p.2) = _
  rw [h out hout]
  by_cases hfits : out.length + bytes.length ≤ Integer.MAX_VALUE
  · rw [if_pos hfits]
    change write' (out ++ bytes) = _
    rw [h' _ (by rwa [List.length_append]), List.length_append, List.length_append, Nat.add_assoc,
      List.append_assoc]
  · rw [if_neg hfits, if_neg (by rw [List.length_append]; omega)]
    rfl

theorem appends_writeEach {α : Type} {write : α → Writer} {bytes : α → List (BitVec 8)}
    (h : ∀ x, Appends (write x) (bytes x)) (xs : List α) :
    Appends (writeEach write xs) (xs.flatMap bytes) := by
  induction xs with
  | nil =>
    intro out hout
    rw [List.flatMap_nil, List.append_nil, List.length_nil, Nat.add_zero, if_pos hout]
    rfl
  | cons x xs ih => exact (h x).andThen ih

/-- The length is put in front of what is written. -/
theorem Appends.writeFrame (h : Appends write bytes) :
    Appends (writeFrame write) (frame bytes) := by
  intro out hout
  have hzeros := (appends_writeBytes (List.replicate 4 0#8)).andThen h out hout
  rw [List.length_append, List.length_replicate, ← List.append_assoc] at hzeros
  rw [Writer.writeFrame, StateT.run, writeZero, hzeros, length_frame]
  by_cases hfits : out.length + (4 + bytes.length) ≤ Integer.MAX_VALUE
  · have hlength : ((out ++ List.replicate 4 0#8 ++ bytes).length - out.length - 4 : ℤ) =
        bytes.length := by
      simp only [List.length_append, List.length_replicate]
      omega
    have hdrop : (out ++ List.replicate 4 0#8 ++ bytes).drop (out.length + 4) = bytes := by
      apply List.drop_left'
      rw [List.length_append, List.length_replicate]
    rw [if_pos hfits, if_pos hfits, ok_bind]
    dsimp only
    rw [hlength, BitVec.ofInt_natCast, setInt, overwrite, bigEndian_length, hdrop,
      List.append_assoc out, List.take_left, frame, List.append_assoc]
  · rw [if_neg hfits, if_neg hfits, error_bind]

/-- What was written to an empty buffer. -/
theorem Appends.eq_of_ok (h : Appends write bytes) {out : List (BitVec 8)}
    (hwrite : write [] = .ok ((), out)) : out = bytes ∧ bytes.length ≤ Integer.MAX_VALUE := by
  rw [h [] (Nat.zero_le _), List.length_nil, Nat.zero_add, List.nil_append] at hwrite
  split at hwrite
  · next hfits =>
    cases hwrite
    exact ⟨rfl, hfits⟩
  · cases hwrite

end Writer

end Safrn.Java
