import Safrn.Base.Machine
import Safrn.Garbled.Circuit
import Safrn.Psi.BigArray
import Safrn.Psi.Equality
import Safrn.Psi.Shares

/-!
# The private set intersection of two servers

Models the states `I_G_M_YI_0` to `I_G_M_YI_3` and `G_I_M_YI_1` to `G_I_M_YI_4` of
`BackServerRawHandler.java:2653-3124,3552-3960`: the server S with the dependent values and the
server U with one group of identifiers for each row. The two take turns; a message is a sequence
of buffers that arrives in pieces, and the receiver goes on when its arrays are full. An
exception is `none`. The loops over rows and columns whose rounds do not depend on each other
are functions of the row and the column.
-/

namespace Safrn.Psi

open Safrn.Base Safrn.Cuckoo Safrn.Garbled

/-- The receiver's side of the transfers of one cell. -/
structure Receiver (α : Type) where
  b : Nat → Nat
  u : Nat → α

/-- What the receiver gets of the dealer's material. -/
def OtCell.receiver {α : Type} (cell : OtCell α) : Receiver α := { b := cell.b, u := cell.u }

/-- What one execution starts from: the configuration, the dealer's material for each row and
column, the results of the two queries, and the values that S draws. -/
structure Session where
  globals : Globals
  bigBitArray : BigArray fun v : Nat ↦ v < 2
  bigByteArray : BigArray fun v : Nat ↦ v < 256
  bigResidueArray : BigArray globals.IsResidue
  sOt : Nat → OtCell Nat
  uOt : Nat → OtCell Nat
  wOt : Nat → Nat → OtCell Int
  rows : List AliceRow
  groups : Nat → List (BitVec 32)
  aBytes : Nat → Nat → Nat → UInt8
  randbuf : Nat → Nat → Nat → UInt8
  r : Nat → Nat → Nat → Int
  sOt_dealt : ∀ row < globals.rowCount,
    (sOt row).Dealt (globals.cellCount * globals.rightBits) (· < 32)
  uOt_dealt : ∀ row < globals.rowCount, (uOt row).Dealt (globals.cellCount * 5) (· < 256)
  wOt_dealt : ∀ row < globals.rowCount, ∀ col < globals.wColumnCount,
    (wOt row col).Dealt globals.cellCount globals.IsResidue
  rows_nonneg : ∀ row ∈ rows, 0 ≤ row.id.toInt
  groups_nonneg : ∀ row < globals.rowCount, ∀ id ∈ groups row, 0 ≤ id.toInt

/-- The fields of the handler at S. -/
structure ServerS where
  isOt : Nat → Nat → Nat → Nat
  iuOt : Nat → Nat → Nat → Nat
  iwOt : Nat → Nat → Nat → Nat → Int
  cuckooTable : CuckooTable
  dvMaps : DvMaps
  sendsec : Nat → Nat → Nat
  C_S : Nat → Nat → Nat
  PSIShare_S : Nat → Nat → Nat
  csendsec : Nat → Nat → Nat
  maskedv : Nat → Nat → Nat → Int

/-- The fields of the handler at U. -/
structure ServerU where
  gsOt : Nat → Receiver Nat
  guOt : Nat → Receiver Nat
  gwOt : Nat → Nat → Receiver Int
  cuckooTable : Nat → CuckooTable
  selbits : Nat → Nat → Nat
  C_U : Nat → Nat → Nat
  cselbits : Nat → Nat → Nat
  PSIShare_U : Nat → Nat → Nat
  yselbits : Nat → Nat → Nat → Nat

/-- The two servers. -/
inductive Party
  | S
  | U
  deriving DecidableEq

/-- What is being sent. -/
inductive Stage
  | selbits
  | sendsec
  | cselbits
  | csendsec
  | yselbits
  | maskedv
  | finished
  deriving DecidableEq

/-- Who reads what is being sent. -/
def Stage.receiver : Stage → Party
  | .selbits => .S
  | .sendsec => .U
  | .cselbits => .S
  | .csendsec => .U
  | .yselbits => .S
  | .maskedv => .U
  | .finished => .S

/-- The two servers, the bytes on the way to each of them, and what the receiver has read. -/
structure Config where
  s : ServerS
  u : ServerU
  stage : Stage
  filling : Filling UInt8
  wires : Party → List UInt8

/-- `a[row][col] = v`. -/
def set₂ {α : Type} (a : Nat → Nat → α) (row col : Nat) (v : α) : Nat → Nat → α :=
  Function.update a row (Function.update (a row) col v)

/-- The locals of `makeFullEqualityCircuits` and its new arrays. -/
def newMaker : Maker :=
  { randbuf := fun _ ↦ 0, offset := 0, equalitytable := fun _ _ ↦ 0, outflip := fun _ ↦ 0
    stufftosend := fun _ ↦ 0 }

/-- The locals of `evaluateFullEqualityCircuits` and its new array. -/
def newEvaluator : Evaluator := { equalitytable := fun _ ↦ 0, output := fun _ ↦ 0 }

namespace Session

variable (P : Session)

/-- The result of U's query: for each row a `NULL` and then the identifiers of the group. -/
def sqlResult : List (Option (BitVec 32)) :=
  (List.range P.globals.rowCount).flatMap fun row ↦ none :: (P.groups row).map some

/-- S before its table is built. -/
def newServerS : ServerS where
  isOt row := (P.sOt row).s
  iuOt row := (P.uOt row).s
  iwOt row col := (P.wOt row col).s
  cuckooTable := P.globals.newCuckooTable
  dvMaps _ _ := none
  sendsec _ _ := 0
  C_S _ _ := 0
  PSIShare_S _ _ := 0
  csendsec _ _ := 0
  maskedv _ _ _ := 0

/-- U before its tables are built. -/
def newServerU : ServerU where
  gsOt row := (P.sOt row).receiver
  guOt row := (P.uOt row).receiver
  gwOt row col := (P.wOt row col).receiver
  cuckooTable _ := P.globals.newCuckooTable
  selbits _ _ := 0
  C_U _ _ := 0
  cselbits _ _ := 0
  PSIShare_U _ _ := 0
  yselbits _ _ _ := 0

/-! ## The handlers -/

/-- `I_G_M_YI_0`, with the result of the query. -/
def I_G_M_YI_0 (s : ServerS) : Option ServerS :=
  let (table, result) :=
    P.globals.newCuckooTable.buildAliceResultSet P.globals.wColumnCount P.rows 100
  match result with
  | .ok dvMaps => some { s with cuckooTable := table, dvMaps }
  | .error _ => none

/-- `G_I_M_YI_1`: build the table of each row from its group, and send `selbits`. -/
def G_I_M_YI_1 (u : ServerU) : Option ServerU :=
  let g := P.globals
  (forRangeM (fun (u, xs) row ↦
    let (table, result) := g.newCuckooTable.buildBobResultSet xs 100
    match result with
    | .ok xs => some
        ({ u with
          cuckooTable := Function.update u.cuckooTable row table
          selbits := Function.update u.selbits row (g.selbits table (u.gsOt row).b) }, xs)
    | .error _ => none) g.rowCount (u, P.sqlResult.tail)).map Prod.fst

/-- `I_G_M_YI_1` with `selbits`: send `sendsec`, and make the circuits of each row. -/
def I_G_M_YI_1 (s : ServerS) (selbits : Nat → Nat → Nat) : Option ServerS :=
  let g := P.globals
  let blinded row := g.blind s.cuckooTable (P.aBytes row) (s.isOt row) (selbits row)
  forRangeM (fun s row ↦
    (makeFullEqualityCircuits (P.randbuf row) g.cellCount newMaker).map fun mk ↦
      { s with
        PSIShare_S := Function.update s.PSIShare_S row mk.outflip
        csendsec := Function.update s.csendsec row mk.stufftosend }) g.rowCount
    { s with sendsec := fun row ↦ (blinded row).sendsec, C_S := fun row ↦ (blinded row).C_S }

/-- `G_I_M_YI_2` with `sendsec`: send `cselbits`. -/
def G_I_M_YI_2 (u : ServerU) (sendsec : Nat → Nat → Nat) : ServerU :=
  let g := P.globals
  let C_U row := g.unblind (u.cuckooTable row) (sendsec row) (u.gsOt row).u
  { u with C_U, cselbits := fun row ↦ g.cselbits (C_U row) (u.guOt row).b }

/-- `I_G_M_YI_2` with `cselbits`: send `csendsec`. -/
def I_G_M_YI_2 (s : ServerS) (cselbits : Nat → Nat → Nat) : ServerS :=
  { s with
    csendsec := fun row ↦
      P.globals.maskLabels (s.C_S row) (cselbits row) (s.iuOt row) (s.csendsec row) }

/-- The loop over the rows of `G_I_M_YI_3`; the rows share one `insec`. -/
def evaluateRows (u : ServerU) (csendsec : Nat → Nat → Nat) :
    (Nat → Nat) × (Nat → Nat → Nat) :=
  let g := P.globals
  forRange (fun (insec, PSIShare_U) row ↦
    let insec := g.insec (u.C_U row) (csendsec row) (u.guOt row).u insec
    (insec, Function.update PSIShare_U row
      (evaluateFullEqualityCircuits insec g.cellCount newEvaluator).output)) g.rowCount
    (fun _ ↦ 0, u.PSIShare_U)

/-- `G_I_M_YI_3` with `csendsec`: send `yselbits`. -/
def G_I_M_YI_3 (u : ServerU) (csendsec : Nat → Nat → Nat) : ServerU :=
  let PSIShare_U := (P.evaluateRows u csendsec).2
  { u with
    PSIShare_U
    yselbits := fun row col ↦ P.globals.yselbits (PSIShare_U row) (u.gwOt row col).b }

/-- `I_G_M_YI_3` with `yselbits`: send `maskedv`, and keep the share in the transfer's cell. -/
def I_G_M_YI_3 (s : ServerS) (yselbits : Nat → Nat → Nat → Nat) : Option ServerS :=
  let g := P.globals
  forGridM (fun s row col ↦
    (g.mask s.cuckooTable (s.dvMaps col) (s.PSIShare_S row) (yselbits row col)
      (s.iwOt row col) (P.r row col)).map fun masked ↦
      { s with
        maskedv := set₂ s.maskedv row col masked.maskedv
        iwOt := set₂ s.iwOt row col (set₂ (s.iwOt row col) 0 0 (masked.out_S % g.modulus)) })
    g.rowCount g.wColumnCount s

/-- `G_I_M_YI_4` with `maskedv`: keep the share in the transfer's cell. -/
def G_I_M_YI_4 (u : ServerU) (maskedv : Nat → Nat → Nat → Int) : ServerU :=
  let g := P.globals
  { u with
    gwOt := fun row col ↦
      { u.gwOt row col with
        u := Function.update (u.gwOt row col).u 0
          (g.unmask (u.PSIShare_U row) (maskedv row col) (u.gwOt row col).u % g.modulus) } }

/-! ## The wire -/

/-- Arrays by row and column as one sequence. -/
def flat {α : Type} (a : Nat → Nat → Nat → α) (i : Nat) : Nat → α :=
  a (i / P.globals.wColumnCount) (i % P.globals.wColumnCount)

/-- A sequence of arrays by row and column. -/
def byColumn {α : Type} (a : Nat → Nat → α) (row col : Nat) : Nat → α :=
  a (row * P.globals.wColumnCount + col)

/-- The number of arrays by row and column. -/
def arrayCount : Nat := P.globals.rowCount * P.globals.wColumnCount

/-- The buffers that the sender writes. -/
def message (s : ServerS) (u : ServerU) : Stage → List (List UInt8)
  | .selbits =>
    P.bigBitArray.sent P.globals.rowCount (P.globals.cellCount * P.globals.rightBits) u.selbits
  | .sendsec =>
    P.bigByteArray.sent P.globals.rowCount (P.globals.cellCount * P.globals.rightBits * 2)
      s.sendsec
  | .cselbits => P.bigBitArray.sent P.globals.rowCount (P.globals.cellCount * 5) u.cselbits
  | .csendsec => P.bigByteArray.sent P.globals.rowCount (P.globals.cellCount * 5 * 2) s.csendsec
  | .yselbits => P.bigBitArray.sent P.arrayCount P.globals.cellCount (P.flat u.yselbits)
  | .maskedv => P.bigResidueArray.sent P.arrayCount (P.globals.cellCount * 2) (P.flat s.maskedv)
  | .finished => []

/-- The capacities of the buffers that the receiver has allocated. -/
def capacities : Stage → List Nat
  | .selbits =>
    P.bigBitArray.allocated P.globals.rowCount (P.globals.cellCount * P.globals.rightBits)
  | .sendsec =>
    P.bigByteArray.allocated P.globals.rowCount (P.globals.cellCount * P.globals.rightBits * 2)
  | .cselbits => P.bigBitArray.allocated P.globals.rowCount (P.globals.cellCount * 5)
  | .csendsec => P.bigByteArray.allocated P.globals.rowCount (P.globals.cellCount * 5 * 2)
  | .yselbits => P.bigBitArray.allocated P.arrayCount P.globals.cellCount
  | .maskedv => P.bigResidueArray.allocated P.arrayCount (P.globals.cellCount * 2)
  | .finished => []

/-- The sender of a stage has written its message, and the receiver has new arrays. -/
def send (s : ServerS) (u : ServerU) (wires : Party → List UInt8) (stage : Stage) : Config where
  s := s
  u := u
  stage := stage
  filling := Filling.start (P.capacities stage)
  wires := Function.update wires stage.receiver
    (wires stage.receiver ++ (P.message s u stage).flatten)

/-- The receiver's arrays are full: it handles them, and sends its own. -/
def handle (c : Config) : Option Config :=
  let g := P.globals
  let full := c.filling.full
  match c.stage with
  | .selbits =>
    (P.I_G_M_YI_1 c.s (P.bigBitArray.received (g.cellCount * g.rightBits) full)).map fun s ↦
      P.send s c.u c.wires .sendsec
  | .sendsec =>
    let sendsec := P.bigByteArray.received (g.cellCount * g.rightBits * 2) full
    some (P.send c.s (P.G_I_M_YI_2 c.u sendsec) c.wires .cselbits)
  | .cselbits =>
    let cselbits := P.bigBitArray.received (g.cellCount * 5) full
    some (P.send (P.I_G_M_YI_2 c.s cselbits) c.u c.wires .csendsec)
  | .csendsec =>
    let csendsec := P.bigByteArray.received (g.cellCount * 5 * 2) full
    some (P.send c.s (P.G_I_M_YI_3 c.u csendsec) c.wires .yselbits)
  | .yselbits =>
    (P.I_G_M_YI_3 c.s (P.byColumn (P.bigBitArray.received g.cellCount full))).map fun s ↦
      P.send s c.u c.wires .maskedv
  | .maskedv =>
    let maskedv := P.byColumn (P.bigResidueArray.received (g.cellCount * 2) full)
    some (P.send c.s (P.G_I_M_YI_4 c.u maskedv) c.wires .finished)
  | .finished => none

/-- The next `n` bytes arrive at the receiver. What no buffer takes stays on its wire. -/
def step (c : Config) (n : Nat) : Option Config :=
  let wire := c.wires c.stage.receiver
  let (filling, left) := c.filling.read (wire.take n)
  let wires := Function.update c.wires c.stage.receiver (left ++ wire.drop n)
  if filling.todo = [] then P.handle { c with filling, wires } else some { c with filling, wires }

/-- Both tables are built, and U has sent `selbits`. -/
def Init (c : Config) : Prop :=
  ∃ s u, P.I_G_M_YI_0 P.newServerS = some s ∧ P.G_I_M_YI_1 P.newServerU = some u ∧
    c = P.send s u (fun _ ↦ []) .selbits

/-- The two servers and the wires. -/
def machine : Machine Config Nat := .ofStep P.Init P.step

/-- The share of S for a row and a column. -/
def out_S (c : Config) (row col : Nat) : Int := c.s.iwOt row col 0 0

/-- The share of U for a row and a column. -/
def out_U (c : Config) (row col : Nat) : Int := (c.u.gwOt row col).u 0

/-- The sum over the identifiers that S has in common with the row's group. -/
def commonSum (row col : Nat) : Int :=
  ((P.rows.filter fun a ↦ a.id ∈ P.groups row).map fun a ↦ 1 + a.dv col * 2 ^ 32).sum

/-- The rows of S whose identifiers are in the group. -/
def matched (row : Nat) : List AliceRow := P.rows.filter fun a ↦ a.id ∈ P.groups row

end Session
end Safrn.Psi
