import Safrn.Cuckoo.Table
import Safrn.Java.Status

/-!
# Building a cuckoo table

Models `CuckooTable.java:334-818`: reading the identifiers, the two eviction loops and the
publication of the subtables. Alice stores an element in both subtables of one half `w`; Bob
stores it in one subtable of each half. The two loops differ only in the subtables an element
of side `w` occupies, so both are instances of one loop over that list.
A queue that the source has not allocated yet is read as the empty queue.
-/

namespace Safrn.Cuckoo

open Safrn.Java

/-- A table: its parameters, whether it is closed, and its four published subtables. -/
structure CuckooTable extends HashParams where
  isClosed : Bool
  subtables : Nat → Nat → Nat

/-- The work queues `U[wa][hwax]` of a build. -/
abbrev Queues := Nat → Nat → List Nat

namespace Queues

/-- No queue holds an element. -/
def empty : Queues := fun _ _ ↦ []

/-- Replace one queue. -/
def set (U : Queues) (vc h : Nat) (q : List Nat) : Queues := fun vc' h' ↦
  if vc' = vc ∧ h' = h then q else U vc' h'

end Queues

/-- One pass over the queues: the queues, and the evicted elements `S` in eviction order. -/
structure Pass where
  U : Queues
  S : List Nat

namespace HashParams

variable (p : HashParams)

/-- Add one element to its queue in each of the listed subtables. -/
def insertAt (vcs : List Nat) (U : Queues) (x : Nat) : Queues :=
  vcs.foldl (fun U vc ↦ U.set vc (p.cell vc x) (U vc (p.cell vc x) ++ [p.splitR x])) U

/-- Take the element `x`, stored as `xR`, out of its queue in subtable `vb`. -/
def remove (x xR : Nat) (U : Queues) (vb : Nat) : Queues :=
  U.set vb (p.hash vb (p.splitL x) xR) ((U vb (p.hash vb (p.splitL x) xR)).erase xR)

/-- Evict the head of one queue, and take the same element out of the other subtables that
hold it. -/
def evict (others : List Nat) (vc h : Nat) (st : Pass) : Pass :=
  match st.U vc h with
  | [] => st
  | xR :: rest =>
    let x := p.unhash vc h xR
    ⟨others.foldl (p.remove x xR) (st.U.set vc h rest), st.S ++ [x]⟩

/-- `while (U[vc][h].size() > 1)` evict; the first argument bounds the number of rounds. -/
def drain (others : List Nat) (vc h : Nat) : Nat → Pass → Pass
  | 0, st => st
  | n + 1, st =>
    if 1 < (st.U vc h).length then drain others vc h n (p.evict others vc h st) else st

/-- Drain every queue of one subtable. -/
def scanSubtable (others : List Nat) (vc : Nat) (st : Pass) : Pass :=
  (List.range p.subtableSize).foldl
    (fun st h ↦ p.drain others vc h (st.U vc h).length st) st

/-- Drain every queue of the subtables that an element of one side occupies. -/
def scan (vcs : List Nat) (st : Pass) : Pass :=
  vcs.foldl (fun st vc ↦ p.scanSubtable (vcs.erase vc) vc st) st

/-- The eviction loop, where `sub w` lists the subtables of side `w`: drain side `w`, stop when
nothing was evicted, and otherwise insert what was evicted on the other side. -/
def evictionLoop (sub : Nat → List Nat) : Nat → Nat → Queues → Except Status Queues
  | 0, _, _ => .error (.failure "maxDepth exceeded")
  | depth + 1, w, U =>
    let st := p.scan (sub w) ⟨U, []⟩
    if st.S.isEmpty then .ok st.U
    else evictionLoop sub depth (1 - w) (st.S.foldl (p.insertAt (sub (1 - w))) st.U)

/-- Alice's subtables of side `w`: `wa = w * 2 + a` for both `a`. -/
def aliceSub (w : Nat) : List Nat := [w * 2 + 0, w * 2 + 1]

/-- Bob's subtable of side `w` in round `a`: `aw = a * 2 + w`. -/
def bobSub (a w : Nat) : List Nat := [a * 2 + w]

/-- The content that a build publishes: the head of each queue, or the empty cell. -/
def publish (U : Queues) (sub : Nat → Nat → Nat) : Nat → Nat → Nat := fun vc h ↦
  if vc < 4 ∧ h < p.subtableSize then (U vc h).headD NULL_XR else sub vc h

/-- The element of an identifier: `x = id * 2` in Java's 32-bit arithmetic. -/
def element (id : BitVec 32) : Nat := (id * 2).toNat

/-- The range check of an identifier's element and the check that it was not seen before. -/
def admitElement (seen : List Nat) (id : BitVec 32) : Except Status Nat :=
  let x := element id
  if p.inRange x = false then .error (.invalidArgument "")
  else if x ∈ seen then .error (.invalidArgument "")
  else .ok x

/-- Read the identifiers in order, adding each element to the queues. -/
def load (insert : Queues → Nat → Queues) :
    List (BitVec 32) → List Nat → Queues → Except Status Queues
  | [], _, U => .ok U
  | id :: ids, seen, U =>
    match p.admitElement seen id with
    | .error e => .error e
    | .ok x => load insert ids (x :: seen) (insert U x)

end HashParams

namespace CuckooTable

/-- The checks both builds start with. -/
def precheck (t : CuckooTable) (maxDepth : Int) : Except Status Unit :=
  if t.isClosed then .error (.invalidOperation "this.isClosed")
  else if maxDepth < 1 then .error (.invalidArgument "")
  else .ok ()

/-- Publish the queues of a successful build; a failed build leaves the table as it was. -/
def finish (t : CuckooTable) : Except Status Queues → CuckooTable × Except Status Unit
  | .error e => (t, .error e)
  | .ok U => ({ t with subtables := t.publish U t.subtables }, .ok ())

/-- `CuckooTable.java:514-579`. -/
def buildAliceMain (t : CuckooTable) (U : Queues) (maxDepth : Nat) :
    CuckooTable × Except Status Unit :=
  t.finish (t.evictionLoop HashParams.aliceSub maxDepth 0 U)

/-- `CuckooTable.java:754-818`: one eviction loop for each `a`. -/
def buildBobMain (t : CuckooTable) (U : Queues) (maxDepth : Nat) :
    CuckooTable × Except Status Unit :=
  t.finish ((t.evictionLoop (HashParams.bobSub 0) maxDepth 0 U).bind
    (t.evictionLoop (HashParams.bobSub 1) maxDepth 0))

/-- A table without identifiers: every cell is empty. -/
def clear (t : CuckooTable) : CuckooTable × Except Status Unit :=
  t.finish (.ok Queues.empty)

/-- `buildAlice(int[], int)`, `CuckooTable.java:437-500`; `none` is the null array. -/
def buildAlice (t : CuckooTable) (xs : Option (List (BitVec 32))) (maxDepth : Int) :
    CuckooTable × Except Status Unit :=
  match t.precheck maxDepth, xs with
  | .error e, _ => (t, .error e)
  | .ok (), none => t.clear
  | .ok (), some ids =>
    match t.load (t.insertAt (HashParams.aliceSub 0)) ids [] Queues.empty with
    | .error e => (t, .error e)
    | .ok U => t.buildAliceMain U maxDepth.toNat

/-- `buildBob(int[], int)`, `CuckooTable.java:677-740`; an element is added for `a = 0` and
for `a = 1` on side `w = 0`. -/
def buildBob (t : CuckooTable) (xs : Option (List (BitVec 32))) (maxDepth : Int) :
    CuckooTable × Except Status Unit :=
  match t.precheck maxDepth, xs with
  | .error e, _ => (t, .error e)
  | .ok (), none => t.clear
  | .ok (), some ids =>
    match t.load (t.insertAt (HashParams.bobSub 0 0 ++ HashParams.bobSub 1 0)) ids []
        Queues.empty with
    | .error e => (t, .error e)
    | .ok U => t.buildBobMain U maxDepth.toNat

end CuckooTable
end Safrn.Cuckoo
