import Safrn.Base.Resume
import Safrn.Ot.Layout

/-!
# The transfer of the dealt tables

Models `FrontServerRawHandler.java:594-658,721-818`, which writes the buffers of the tables that
the front server has dealt, and `BackServerRawHandler.java:2472-2540,3345-3457`, which fill the
buffers of the tables that a back server has allocated. The income server reads the `s` buffers of
the tables for all group servers, a group server the `b` and `u` buffers of its own tables. A read
that ends inside a buffer keeps the buffer and its position; all counters are fields.
-/

namespace Safrn.Ot

open Safrn.Base Safrn.Java

/-! ### Buffers of cells -/

/-- The buffer arrays of a cell. -/
inductive CellArray
  | b
  | s
  | u
  deriving DecidableEq

namespace BlobOtCell

/-- A buffer array of the cell. -/
def buffers (c : BlobOtCell) : CellArray → ByteBuffers
  | .b => c.b
  | .s => c.s
  | .u => c.u

/-- Replace a buffer array. -/
def setBuffers (c : BlobOtCell) (a : CellArray) (B : ByteBuffers) : BlobOtCell :=
  match a with
  | .b => { c with b := B }
  | .s => { c with s := B }
  | .u => { c with u := B }

/-- `getBBufferCount`, `getSBufferCount` and `getUBufferCount`. The tables of a handler are open
and of the right party, so that their checks and those of `getBuffer` pass. -/
def getBufferCount (c : BlobOtCell) (a : CellArray) : Nat := (c.buffers a).capacity.length

/-- The content of `getBBuffer`, `getSBuffer` and `getUBuffer`: a duplicate at position 0. -/
def getBuffer (c : BlobOtCell) (a : CellArray) (k : Nat) : List UInt8 :=
  (List.range ((c.buffers a).cap k)).map ((c.buffers a).data k)

end BlobOtCell

/-! ### Tables -/

/-- The tables of one kind: `isOts` and `gsOt`, `iuOts` and `guOt`, `iwOts` and `gwOt`. -/
inductive OtKind
  | sOt
  | uOt
  | wOt
  deriving DecidableEq

/-- What the cells of one kind of table are constructed with. -/
structure TableSpec where
  rowCount : Nat
  columnCount : Nat
  otCount : Int
  blobSize : Int

/-- The tables of a query, as the front server deals them (`FrontServerHttpHandler.java:866-909`)
and as a back server allocates them (`BackServerRawHandler.java:2323-2364,3184-3219`), from the
query's number of rows and columns, the parameters of the cuckoo tables, and the size of a residue
for a modulus (`Rand.residueSize`). -/
def querySpecs (rowCount columnCount : Nat) (subtableSize rightBits modulus : Int)
    (residueSize : Int → Int) : OtKind → TableSpec
  | .sOt => ⟨rowCount, 1, 4 * subtableSize * rightBits, residueSize 32⟩
  | .uOt => ⟨rowCount, 1, 4 * subtableSize * 5, 1⟩
  | .wOt => ⟨rowCount, columnCount, 4 * subtableSize, residueSize modulus⟩

/-- Where a cell is: in the table of its kind for one group server. -/
structure CellIndex where
  kind : OtKind
  party : Nat
  row : Nat
  column : Nat
  deriving DecidableEq

/-- The cells of all tables. -/
abbrev Tables := CellIndex → BlobOtCell

/-- One buffer. -/
structure Slot where
  cell : CellIndex
  array : CellArray
  buffer : Nat
  deriving DecidableEq

/-! ### The front server -/

/-- The buffers of one array of a cell, in the order in which they are written. -/
def writeBuffers (dealt : Tables) (x : CellIndex) (a : CellArray) : List (List UInt8) :=
  (List.range ((dealt x).getBufferCount a)).map fun k ↦ (dealt x).getBuffer a k

variable (specs : OtKind → TableSpec) (groups : Nat)

/-- The loop over `isOts`, `iuOts` or `iwOts`. -/
def writeSTables (dealt : Tables) (kind : OtKind) : List (List UInt8) :=
  (List.range groups).flatMap fun p ↦
    (List.range (specs kind).rowCount).flatMap fun i ↦
      (List.range (specs kind).columnCount).flatMap fun j ↦
        writeBuffers dealt ⟨kind, p, i, j⟩ .s

/-- What the state `A_I_M_YI_0` writes to the income server. -/
def A_I_M_YI_0 (dealt : Tables) : List (List UInt8) :=
  writeSTables specs groups dealt .sOt ++ writeSTables specs groups dealt .uOt ++
    writeSTables specs groups dealt .wOt

/-- The loop over `gsOt`, `guOt` or `gwOt`. -/
def writeBUTable (dealt : Tables) (p : Nat) (kind : OtKind) : List (List UInt8) :=
  (List.range (specs kind).rowCount).flatMap fun i ↦
    (List.range (specs kind).columnCount).flatMap fun j ↦
      writeBuffers dealt ⟨kind, p, i, j⟩ .b ++ writeBuffers dealt ⟨kind, p, i, j⟩ .u

/-- What the state `A_G_M_YI_0` writes to the group server `p`. -/
def A_G_M_YI_0 (dealt : Tables) (p : Nat) : List (List UInt8) :=
  writeBUTable specs dealt p .sOt ++ writeBUTable specs dealt p .uOt ++
    writeBUTable specs dealt p .wOt

/-! ### The back servers -/

/-- The tables that are being filled and the bytes that can be read. -/
structure Reading where
  tables : Tables
  input : List UInt8

/-- `in.readBytes` of `n` bytes to a position of a buffer. -/
def Reading.readBytes (d : Reading) (t : Slot) (position n : Nat) : Reading where
  tables :=
    let c := d.tables t.cell
    Function.update d.tables t.cell (c.setBuffers t.array
      ((c.buffers t.array).write t.buffer position n fun q ↦ d.input.getD (q - position) 0))
  input := d.input.drop n

open Resumable

/-- The body of the innermost loops. The counter is the position of the buffer that an earlier
read has left in the middle; the limit that a short read sets is taken back before it returns. -/
def readBuffer (t : Slot) : Resumable (Option Nat) Reading := fun buffer d ↦
  let position := buffer.getD 0
  let remaining := ((d.tables t.cell).buffers t.array).cap t.buffer - position
  if d.input.length < remaining then
    .suspended (some (position + d.input.length)) (d.readBytes t position d.input.length)
  else .finished none (d.readBytes t position remaining)

/-- The loop over the buffers of one array of a cell. -/
def readBuffers (x : CellIndex) (a : CellArray) : Resumable (Nat × Option Nat) Reading :=
  loop (fun d ↦ (d.tables x).getBufferCount a) fun k ↦ readBuffer ⟨x, a, k⟩

/-- Set a loop's counter back to 0. -/
def restart {ι : Type} : Nat × ι → Nat × ι := fun (_, x) ↦ (0, x)

/-- The counters of the loop over `isOts`, `iuOts` or `iwOts`: the party, row, column and buffer,
and the position in the buffer. -/
abbrev SCounters := Nat × Nat × Nat × Nat × Option Nat

/-- The loop over `isOts`, `iuOts` or `iwOts`. -/
def readSTables (kind : OtKind) : Resumable SCounters Reading :=
  loop (fun _ ↦ groups) fun p ↦
    reset restart <| loop (fun _ ↦ (specs kind).rowCount) fun i ↦
      reset restart <| loop (fun _ ↦ (specs kind).columnCount) fun j ↦
        reset restart <| readBuffers ⟨kind, p, i, j⟩ .s

/-- The state `I_A_M_YI_0`. -/
def I_A_M_YI_0 : Resumable (SCounters × SCounters × SCounters) Reading :=
  both (readSTables specs groups .sOt)
    (both (readSTables specs groups .uOt) (readSTables specs groups .wOt))

/-- The counters of the loop over `gsOt`, `guOt` or `gwOt`: the row and column, and for each of
`b` and `u` the buffer and the position in it. -/
abbrev BUCounters := Nat × Nat × (Nat × Option Nat) × (Nat × Option Nat)

/-- The loop over `gsOt`, `guOt` or `gwOt`. -/
def readBUTable (p : Nat) (kind : OtKind) : Resumable BUCounters Reading :=
  loop (fun _ ↦ (specs kind).rowCount) fun i ↦
    reset restart <| loop (fun _ ↦ (specs kind).columnCount) fun j ↦
      reset (Prod.map restart restart) <|
        both (readBuffers ⟨kind, p, i, j⟩ .b) (readBuffers ⟨kind, p, i, j⟩ .u)

/-- The state `G_A_M_YI_0` of the group server `p`. -/
def G_A_M_YI_0 (p : Nat) : Resumable (BUCounters × BUCounters × BUCounters) Reading :=
  both (readBUTable specs p .sOt) (both (readBUTable specs p .uOt) (readBUTable specs p .wOt))

/-- A back server's handler; `done` once it has left the state that reads the tables. Only then
are the tables handed on. -/
structure TableHandler (ι : Type) where
  counters : ι
  reading : Reading
  done : Bool

/-- Bytes arrive; what a later state is to read stays in the input. -/
def TableHandler.receive {ι : Type} (state : Resumable ι Reading) (h : TableHandler ι)
    (bytes : List UInt8) : TableHandler ι :=
  let d := { h.reading with input := h.reading.input ++ bytes }
  if h.done then { h with reading := d }
  else
    match state h.counters d with
    | .finished x d => ⟨x, d, true⟩
    | .suspended x d => ⟨x, d, false⟩

/-- The bytes of the stream in pieces; the first one is what has arrived with the query. -/
def TableHandler.receiveAll {ι : Type} (state : Resumable ι Reading) (h : TableHandler ι)
    (pieces : List (List UInt8)) : TableHandler ι :=
  pieces.foldl (receive state) h

/-- The handler when it enters the state `I_A_M_YI_0`. -/
def enter_I_A_M_YI_0 (own : Tables) : TableHandler (SCounters × SCounters × SCounters) :=
  let zero : SCounters := (0, 0, 0, 0, none)
  ⟨(zero, zero, zero), ⟨own, []⟩, false⟩

/-- The handler when it enters the state `G_A_M_YI_0`. -/
def enter_G_A_M_YI_0 (own : Tables) : TableHandler (BUCounters × BUCounters × BUCounters) :=
  let zero : BUCounters := (0, 0, (0, none), (0, none))
  ⟨(zero, zero, zero), ⟨own, []⟩, false⟩

end Safrn.Ot
