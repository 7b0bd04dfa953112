import Safrn.Base.SplitBuffer
import Safrn.Java.Status

/-!
# Cells of oblivious transfers

Models `BlobOtCell.java:310-616,760-811,1156-1579`; `ResidueOtCell.java:271-446` is the same
`randomize` with another generator, and its setters pass a fixed-width encoding of a residue to
the ones here. The bytes a generator delivers are a parameter, so both cells are covered. An
exception keeps what was written before it. Sizes are checked by the constructor so that no
`long` below overflows. A buffer's limit is its capacity between operations.
-/

namespace Safrn.Ot

open Safrn.Base Safrn.Java

/-- The party that holds a cell. -/
inductive Party
  | DEALER
  | RECEIVER
  | SENDER
  deriving DecidableEq

/-- A `ByteBuffer[]`. -/
abbrev ByteBuffers := SplitBuffer UInt8

/-- A cell: bits `b`, pairs `s` and selected values `u` of `otCount` transfers. -/
structure BlobOtCell where
  party : Party
  otCount : Nat
  blobSize : Nat
  isClosed : Bool
  b : ByteBuffers
  s : ByteBuffers
  u : ByteBuffers

/-- `Integer.MAX_VALUE`. -/
def intMax : Nat := 2 ^ 31 - 1

/-- Allocate zeroed buffers for `nBytes` bytes. Without any buffer the last store of the
source is to index `-1`. -/
def allocate (nBytes nBytesPerBuffer : Nat) : Except Status ByteBuffers :=
  let nBuffers := nBytes / nBytesPerBuffer + (if nBytes % nBytesPerBuffer = 0 then 0 else 1)
  if intMax < nBuffers then .error .limitExceeded
  else if nBuffers = 0 then .error .indexOutOfBoundsException
  else .ok ⟨List.replicate (nBuffers - 1) nBytesPerBuffer ++ [nBytes % nBytesPerBuffer],
    fun _ _ ↦ 0⟩

namespace BlobOtCell

/-- The dealer's constructor: every buffer array is present. -/
def newDealer (otCount blobSize : Int) : Except Status BlobOtCell :=
  if otCount < 0 then .error (.negativeArraySize "otCount < 0")
  else if blobSize < 0 then .error (.negativeArraySize "blobSize < 0")
  else if blobSize = 0 then .error (.zeroArraySize "blobSize == 0")
  else
    let n := otCount.toNat
    let size := blobSize.toNat
    match allocate (n / 8 + (if n % 8 = 0 then 0 else 1)) intMax with
    | .error e => .error e
    | .ok b =>
      if intMax < 2 * size then .error .limitExceeded
      else match allocate (n * (2 * size)) (intMax / (2 * size) * (2 * size)),
          allocate (n * size) (intMax / size * size) with
        | .error e, _ => .error e
        | _, .error e => .error e
        | .ok s, .ok u => .ok ⟨.DEALER, n, size, false, b, s, u⟩

end BlobOtCell

/-! ### Access to the buffers -/

/-- Work on one buffer array; an exception keeps the array as it then is. -/
abbrev BufferM := EStateM Status ByteBuffers

/-- `(p / capacity, p % capacity)` for the capacity of the first buffer, with Java's
division towards zero. -/
def locate (B : ByteBuffers) (p : Int) : Except Status (Int × Int) :=
  if B.chunk = 0 then .error .arithmeticException
  else .ok (p.tdiv B.chunk, p.tmod B.chunk)

/-- `locate` as a step of `BufferM`. -/
def located (p : Int) : BufferM (Int × Int) := fun B ↦
  match locate B p with
  | .ok ij => .ok ij B
  | .error e => .error e B

/-- `buffer[i].position(j)` and the capacity that remains. -/
def position (i j : Int) : BufferM Int := fun B ↦
  if i < 0 ∨ B.capacity.length ≤ i then .error .indexOutOfBoundsException B
  else if j < 0 ∨ B.cap i.toNat < j then .error .illegalArgumentException B
  else .ok (B.cap i.toNat - j) B

/-- Put `n` bytes at the position `j` of buffer `i`, where `remaining` bytes fit. -/
def putBytes (f : Nat → UInt8) (i j n remaining : Int) : BufferM Unit := fun B ↦
  if n < 0 then .error .illegalArgumentException B
  else if remaining < n then .error .bufferOverflowException B
  else .ok () (B.write i.toNat j.toNat n.toNat f)

/-- `buffer[i].position(j)` and then `n` bytes of the generator; `fresh i j` is the byte it
delivers for offset `j` of buffer `i`. -/
def fill (fresh : Nat → Nat → UInt8) (i j n : Int) : BufferM Unit := do
  let remaining ← position i j
  putBytes (fresh i.toNat) i j n remaining

/-- `buffer[i].position(j)` and then all remaining bytes. -/
def fillRest (fresh : Nat → Nat → UInt8) (i j : Int) : BufferM Unit := do
  let remaining ← position i j
  putBytes (fresh i.toNat) i j remaining remaining

/-- `for (; i != iEnd; ++i)` fill buffer `i`; the first argument bounds the rounds, which the
array bound ends before. -/
def fillBetween (fresh : Nat → Nat → UInt8) (iEnd : Int) : Nat → Int → BufferM Unit
  | 0, _ => throw .indexOutOfBoundsException
  | n + 1, i =>
    if i = iEnd then pure ()
    else do
      fillRest fresh i 0
      fillBetween fresh iEnd n (i + 1)

/-- Fill the positions from `p0` to `p1` with the bytes of the generator. -/
def fillRange (fresh : Nat → Nat → UInt8) (p0 p1 : Int) : BufferM Unit := do
  let (i0, j0) ← located p0
  let (i1, j1) ← located p1
  if i0 = i1 then fill fresh i0 j0 (j1 - j0 + 1)
  else do
    fillRest fresh i0 j0
    let B ← get
    fillBetween fresh i1 (B.capacity.length + 1) (i0 + 1)
    fill fresh i1 0 (j1 + 1)

/-! ### Operations of a cell -/

/-- Work on a cell; an exception keeps the cell as it then is. -/
abbrev CellM := EStateM Status BlobOtCell

/-- Work on the buffers `b`. -/
def onB {α : Type} (m : BufferM α) : CellM α := fun c ↦
  match m c.b with
  | .ok a B => .ok a { c with b := B }
  | .error e B => .error e { c with b := B }

/-- Work on the buffers `s`. -/
def onS {α : Type} (m : BufferM α) : CellM α := fun c ↦
  match m c.s with
  | .ok a B => .ok a { c with s := B }
  | .error e B => .error e { c with s := B }

/-- Work on the buffers `u`. -/
def onU {α : Type} (m : BufferM α) : CellM α := fun c ↦
  match m c.u with
  | .ok a B => .ok a { c with u := B }
  | .error e B => .error e { c with u := B }

/-- Throw when an argument check finds something. -/
def check (f : BlobOtCell → Option Status) : CellM Unit := fun c ↦
  match f c with
  | some e => .error e c
  | none => .ok () c

/-- The checks that every operation on one transfer starts with. -/
def indexCheck (forbidden : Party) (message : String) (otIndex : Int) (c : BlobOtCell) :
    Option Status :=
  if c.party = forbidden then some (.invalidOperation message)
  else if c.isClosed then some (.invalidOperation "this.isClosed")
  else if otIndex < 0 then some (.negativeArrayIndex "otIndex < 0")
  else if c.otCount ≤ otIndex then some (.oversizeArrayIndex "otIndex >= this.otCount")
  else none

/-- The checks of the index within a pair. -/
def pairCheck (pairIndex : Int) (_ : BlobOtCell) : Option Status :=
  if pairIndex < 0 then some (.negativeArrayIndex "pairIndex < 0")
  else if 1 < pairIndex then some (.oversizeArrayIndex "pairIndex > 1")
  else none

/-- The checks of an array argument that a blob is read from. -/
def valueCheck (value : Option (List UInt8)) (valueOffset : Int) (c : BlobOtCell) :
    Option Status :=
  match value with
  | none => some (.nullPointer "value == null")
  | some bytes =>
    if valueOffset < 0 then some (.negativeArrayIndex "valueOffset < 0")
    else if bytes.length - c.blobSize < valueOffset then
      some (.oversizeArrayIndex "valueOffset > value.length - this.blobSize")
    else none

/-- Byte `k` of the array argument. -/
def valueAt (value : Option (List UInt8)) (k : Nat) : UInt8 := (value.getD []).getD k 0

/-- The byte at `(i, j)`, which an array index and the buffer's own index check guard. -/
def getByte (i j : Int) : BufferM UInt8 := fun B ↦
  if i < 0 ∨ B.capacity.length ≤ i then .error .indexOutOfBoundsException B
  else if j < 0 ∨ B.cap i.toNat ≤ j then .error .indexOutOfBoundsException B
  else .ok (B.data i.toNat j.toNat) B

/-- `getBValue`, `BlobOtCell.java:760-798`. -/
def getBValue (otIndex : Int) : CellM Nat := do
  check (indexCheck .SENDER "this.party == BlobOtCell.SENDER" otIndex)
  let (iB, jB) ← onB (located (otIndex.tdiv 8))
  let kB := (otIndex.tmod 8).toNat
  let byte ← onB (getByte iB jB)
  return (byte.toNat >>> kB) &&& 1

/-- Copy value `pairIndex` of transfer `i` from `s` to `u`: the limit set on the buffer of `s`
must lie in it, and as many bytes must remain in the buffer of `u`. -/
def selectU (i : Int) (pairIndex : Nat) : CellM Unit := do
  let c ← get
  let (iS, jS) ← onS (located ((i * 2 + pairIndex) * c.blobSize))
  let (iU, jU) ← onU (located (i * c.blobSize))
  let remaining ← onS (position iS jS)
  if remaining < c.blobSize then throw .illegalArgumentException
  let room ← onU (position iU jU)
  let shift (q : Nat) : UInt8 := c.s.data iS.toNat (jS.toNat + (q - jU.toNat))
  onU (putBytes shift iU jU c.blobSize room)

/-- Store the blob at `value[valueOffset..]` at transfer position `p` of a buffer array. -/
def putBlob (value : Option (List UInt8)) (valueOffset : Int) (blobSize : Nat) (p : Int) :
    BufferM Unit := do
  let (i, j) ← located p
  let room ← position i j
  putBytes (fun q ↦ valueAt value (valueOffset.toNat + (q - j.toNat))) i j blobSize room

/-- `for (i = otOffset; i != otOffset + otLength; ++i)` select again; `n` transfers from `i`. -/
def selectRange : Nat → Int → CellM Unit
  | 0, _ => pure ()
  | n + 1, i => do
    let bit ← getBValue i
    selectU i bit
    selectRange n (i + 1)

/-- The checks of `randomize`. -/
def randomizeCheck (otOffset otLength : Int) (c : BlobOtCell) : Option Status :=
  if c.party ≠ .DEALER then some (.invalidOperation "this.party != BlobOtCell.DEALER")
  else if c.isClosed then some (.invalidOperation "this.isClosed")
  else if otOffset < 0 then some (.negativeArrayIndex "otOffset < 0")
  else if otLength < 0 then some (.negativeArraySize "otLength < 0")
  else if c.otCount - otLength < otOffset then
    some (.oversizeArrayIndex "otOffset > this.otCount - otLength")
  else if otOffset.tmod 8 ≠ 0 then some (.invalidArgument "otOffset % 8 != 0")
  else if otLength.tmod 8 ≠ 0 ∧ otLength ≠ c.otCount - otOffset then
    some (.invalidArgument "otLength % 8 != 0 && otLength != this.otCount - otOffset")
  else none

/-- `randomize`, `BlobOtCell.java:1156-1326`; `freshB` and `freshS` are the generator's bytes
for the two buffer arrays. -/
def randomize (freshB freshS : Nat → Nat → UInt8) (otOffset otLength : Int) : CellM Unit := do
  check (randomizeCheck otOffset otLength)
  let c ← get
  onB (fillRange freshB (otOffset.tdiv 8) ((otOffset + otLength - 1).tdiv 8))
  onS (fillRange freshS (otOffset * 2 * c.blobSize)
    ((otOffset + otLength) * 2 * c.blobSize - 1))
  selectRange otLength.toNat otOffset

/-- Set or clear bit `kB` of one byte. -/
def setBit (byte : UInt8) (kB value : Nat) : UInt8 :=
  if value = 0 then byte &&& ~~~ (1 <<< UInt8.ofNat kB) else byte ||| (1 <<< UInt8.ofNat kB)

/-- `setBValue`, `BlobOtCell.java:1339-1402`; any value but 0 and 1 counts as 1. -/
def setBValue (otIndex value : Int) : CellM Unit := do
  check (indexCheck .SENDER "this.party == BlobOtCell.SENDER" otIndex)
  let value : Nat := if value = 0 then 0 else 1
  let (iB, jB) ← onB (located (otIndex.tdiv 8))
  let kB := (otIndex.tmod 8).toNat
  let byte ← onB (getByte iB jB)
  onB (putBytes (fun _ ↦ setBit byte kB value) iB jB 1 1)
  let c ← get
  if c.party = .DEALER then selectU otIndex value

/-- `setSValue`, `BlobOtCell.java:1415-1497`. -/
def setSValue (otIndex pairIndex : Int) (value : Option (List UInt8)) (valueOffset : Int) :
    CellM Unit := do
  check (indexCheck .RECEIVER "this.party == BlobOtCell.RECEIVER" otIndex)
  check (pairCheck pairIndex)
  check (valueCheck value valueOffset)
  let c ← get
  onS (putBlob value valueOffset c.blobSize ((otIndex * 2 + pairIndex) * c.blobSize))
  if c.party = .DEALER then
    let bit ← getBValue otIndex
    if pairIndex = bit then onU (putBlob value valueOffset c.blobSize (otIndex * c.blobSize))

/-- `setUValue`, `BlobOtCell.java:1510-1579`. -/
def setUValue (otIndex : Int) (value : Option (List UInt8)) (valueOffset : Int) :
    CellM Unit := do
  check (indexCheck .SENDER "this.party == BlobOtCell.SENDER" otIndex)
  check (valueCheck value valueOffset)
  let c ← get
  onU (putBlob value valueOffset c.blobSize (otIndex * c.blobSize))
  if c.party = .DEALER then
    let bit ← getBValue otIndex
    onS (putBlob value valueOffset c.blobSize ((otIndex * 2 + bit) * c.blobSize))

end Safrn.Ot
