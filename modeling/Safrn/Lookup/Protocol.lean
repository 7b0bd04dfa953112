import Safrn.Base.Machine
import Safrn.Lookup.Table
import Mathlib.Logic.Function.Basic

/-!
# The table lookup protocol

Models `dataowner/Lookup.cpp` for one lookup. Every data owner first runs `Compare` and then
`TypeCastFromBit` as child fronctocols; their completions come as `handleComplete`, and what
they leave at each party is a parameter. Then every party but the revealer sends its index share
to the revealer, who adds them up and sends the opened value back.

Messages between two parties arrive in the order of sending; nothing else is ordered. A message
is one number, so `Message` records what the sender meant and the handler does not see it.
-/

namespace Safrn.Lookup

open Safrn.Base

/-- What one lookup fixes: the parties, the public table, and each party's shares before and
after the children. -/
structure Session where
  nParties : Nat
  revealer : Nat
  revealer_lt : revealer < nParties
  info : RandomTableLookupInfo
  tableValueByteLength : Nat
  tableData : Fin info.tableSize → Fin tableValueByteLength → Byte
  locationShare : Nat → Nat
  randomTable : Nat → info.RandomTableLookup
  compareShare : Nat → BitVec 1
  typeCastShare : Nat → Nat
  output_p_value_shares : Nat → List Byte

/-- `LookupState`, and that both children have completed. -/
inductive LookupState
  | awaitingCompare
  | awaitingTypeCastFromBit
  | childrenComplete
deriving DecidableEq

/-- One number on its way. -/
inductive Message
  | share (val : Nat)
  | opened (val : Nat)
deriving DecidableEq

/-- What the receiver reads. -/
def Message.val : Message → Nat
  | .share val | .opened val => val

/-- The sender sent its index share. -/
def Message.isShare : Message → Bool
  | .share _ => true
  | .opened _ => false

/-- The fields of one party's `Lookup`; `result` is the output once `complete` was called. -/
structure Party (tableValueByteLength : Nat) where
  state : LookupState
  revealedValue : Nat
  numPartiesAwaiting : Nat
  result : Option (Fin tableValueByteLength → Byte)

/-- The parties, the messages from one party to another in the order of sending, and the
history: whose shares were added, how often a value was opened, and whether a message was taken
for the other kind. -/
structure State (tableValueByteLength : Nat) where
  parties : Nat → Party tableValueByteLength
  channel : Nat → Nat → List Message
  added : Nat → Bool
  opens : Nat
  shareAsOpened : Bool
  openedAsShare : Bool

/-- A child of a party completes, or the first message between two parties arrives. -/
inductive Action
  | complete (p : Nat)
  | deliver (sender receiver : Nat)

namespace Session

variable (L : Session)

/-- A message becomes the last one of its channel. -/
def enqueue (channel : Nat → Nat → List Message) (a b : Nat) (msg : Message) :
    Nat → Nat → List Message :=
  Function.update channel a (Function.update (channel a) b (channel a b ++ [msg]))

/-- The first message of a channel is gone. -/
def dequeue (channel : Nat → Nat → List Message) (a b : Nat) : Nat → Nat → List Message :=
  Function.update channel a (Function.update (channel a) b (channel a b).tail)

/-- A message to every data owner but the revealer. -/
def enqueueOthers (channel : Nat → Nat → List Message) (a : Nat) (msg : Message) :
    Nat → Nat → List Message :=
  Function.update channel a fun b ↦
    if b < L.nParties ∧ b ≠ L.revealer then channel a b ++ [msg] else channel a b

/-- The operand of `Compare` in `init`. -/
def compareOperand (p : Nat) : Nat :=
  RandomTableLookupInfo.modSub (L.locationShare p) (L.randomTable p).r L.info.rModulus

/-- The argument of `sendIndexShare`. -/
def indexShare (p : Nat) : Nat :=
  (L.info.rModulus + L.locationShare p - (L.randomTable p).r +
    L.typeCastShare p * L.info.tableSize) % L.info.rModulus

/-- `computeFinalShare`: the table, rotated by the revealed value, times the party's share of
the unit vector. -/
def computeFinalShare (p revealedValue : Nat) : Fin L.tableValueByteLength → Byte :=
  let revealedValueDownsized := revealedValue % 2 ^ 64
  Fin.foldl L.info.tableSize (fun output i ↦
    if (L.randomTable p).u i = 0x01 then
      fun j ↦ output j ^^^
        L.tableData ⟨(revealedValueDownsized + i) % L.info.tableSize, Nat.mod_lt _ i.pos⟩ j
    else output) fun j ↦ (L.output_p_value_shares p).getD j 0x00

/-- Replace one party. -/
def setParty (s : State L.tableValueByteLength) (p : Nat)
    (party : Party L.tableValueByteLength) : State L.tableValueByteLength :=
  { s with parties := Function.update s.parties p party }

/-- `sendIndexShare`. -/
def sendIndexShare (s : State L.tableValueByteLength) (p val : Nat) :
    State L.tableValueByteLength :=
  let party := { s.parties p with state := .childrenComplete }
  if p ≠ L.revealer then
    L.setParty { s with channel := enqueue s.channel p L.revealer (.share val) } p
      { party with numPartiesAwaiting := 0 }
  else
    L.setParty s p { party with
      numPartiesAwaiting := party.numPartiesAwaiting + (L.nParties - 1)
      revealedValue := val }

/-- `handleComplete`. -/
def handleComplete (s : State L.tableValueByteLength) (p : Nat) :
    Option (State L.tableValueByteLength) :=
  match (s.parties p).state with
  | .awaitingCompare =>
    some (L.setParty s p { s.parties p with state := .awaitingTypeCastFromBit })
  | .awaitingTypeCastFromBit => some (L.sendIndexShare s p (L.indexShare p))
  | .childrenComplete => none

/-- `handleReceive`. -/
def handleReceive (s : State L.tableValueByteLength) (sender p : Nat) (msg : Message) :
    State L.tableValueByteLength :=
  let party := s.parties p
  if party.numPartiesAwaiting = 0 then
    L.setParty { s with shareAsOpened := s.shareAsOpened || msg.isShare } p
      { party with
        revealedValue := msg.val
        result := some (L.computeFinalShare p msg.val) }
  else
    let revealedValue := (party.revealedValue + msg.val) % L.info.rModulus
    let party := { party with
      revealedValue := revealedValue
      numPartiesAwaiting := party.numPartiesAwaiting - 1 }
    let s := { s with
      added := Function.update s.added sender true
      openedAsShare := s.openedAsShare || !msg.isShare }
    if party.numPartiesAwaiting = 0 then
      L.setParty { s with
          channel := L.enqueueOthers s.channel p (.opened revealedValue)
          opens := s.opens + 1 } p
        { party with result := some (L.computeFinalShare p revealedValue) }
    else L.setParty s p party

/-- The next state, if the action can happen; a completed fronctocol handles nothing more. -/
def step (s : State L.tableValueByteLength) : Action → Option (State L.tableValueByteLength)
  | .complete p =>
    if p < L.nParties ∧ (s.parties p).result = none then L.handleComplete s p else none
  | .deliver a b =>
    if b < L.nParties ∧ (s.parties b).result = none then
      match s.channel a b with
      | [] => none
      | msg :: _ => some (L.handleReceive { s with channel := dequeue s.channel a b } a b msg)
    else none

/-- Every party has invoked `Compare`. -/
def start : State L.tableValueByteLength where
  parties _ := ⟨.awaitingCompare, 0, 0, none⟩
  channel _ _ := []
  added _ := false
  opens := 0
  shareAsOpened := false
  openedAsShare := false

/-- The protocol of one lookup. -/
def protocol : Machine (State L.tableValueByteLength) Action := .ofStep (· = L.start) L.step

/-- What a step can do, read off the handlers. -/
inductive StepCase (s : State L.tableValueByteLength) :
    Action → State L.tableValueByteLength → Prop
  | compare (p) (hp : p < L.nParties) (hr : (s.parties p).result = none)
      (hs : (s.parties p).state = .awaitingCompare) :
    StepCase s (.complete p)
      (L.setParty s p { s.parties p with state := .awaitingTypeCastFromBit })
  | share (p) (hp : p < L.nParties) (hr : (s.parties p).result = none)
      (hs : (s.parties p).state = .awaitingTypeCastFromBit) (hne : p ≠ L.revealer) :
    StepCase s (.complete p)
      (L.setParty { s with
          channel := enqueue s.channel p L.revealer (.share (L.indexShare p)) } p
        { s.parties p with state := .childrenComplete, numPartiesAwaiting := 0 })
  | await (hr : (s.parties L.revealer).result = none)
      (hs : (s.parties L.revealer).state = .awaitingTypeCastFromBit) :
    StepCase s (.complete L.revealer)
      (L.setParty s L.revealer { s.parties L.revealer with
        state := .childrenComplete
        numPartiesAwaiting :=
          (s.parties L.revealer).numPartiesAwaiting + (L.nParties - 1)
        revealedValue := L.indexShare L.revealer })
  | finish (a b msg rest) (hb : b < L.nParties) (hr : (s.parties b).result = none)
      (hc : s.channel a b = msg :: rest) (hz : (s.parties b).numPartiesAwaiting = 0) :
    StepCase s (.deliver a b)
      (L.setParty { s with
          channel := dequeue s.channel a b
          shareAsOpened := s.shareAsOpened || msg.isShare } b
        { s.parties b with
          revealedValue := msg.val
          result := some (L.computeFinalShare b msg.val) })
  | add (a b msg rest) (hb : b < L.nParties) (hr : (s.parties b).result = none)
      (hc : s.channel a b = msg :: rest) (h1 : 1 < (s.parties b).numPartiesAwaiting) :
    StepCase s (.deliver a b)
      (L.setParty { s with
          channel := dequeue s.channel a b
          added := Function.update s.added a true
          openedAsShare := s.openedAsShare || !msg.isShare } b
        { s.parties b with
          revealedValue := ((s.parties b).revealedValue + msg.val) % L.info.rModulus
          numPartiesAwaiting := (s.parties b).numPartiesAwaiting - 1 })
  | reveal (a b msg rest) (hb : b < L.nParties) (hr : (s.parties b).result = none)
      (hc : s.channel a b = msg :: rest) (h1 : (s.parties b).numPartiesAwaiting = 1) :
    StepCase s (.deliver a b)
      (L.setParty { s with
          channel := L.enqueueOthers (dequeue s.channel a b) b
            (.opened (((s.parties b).revealedValue + msg.val) % L.info.rModulus))
          added := Function.update s.added a true
          opens := s.opens + 1
          openedAsShare := s.openedAsShare || !msg.isShare } b
        { s.parties b with
          revealedValue := ((s.parties b).revealedValue + msg.val) % L.info.rModulus
          numPartiesAwaiting := 0
          result := some (L.computeFinalShare b
            (((s.parties b).revealedValue + msg.val) % L.info.rModulus)) })

variable {L}

/-- Every step is one of the cases. -/
theorem step_cases {s t : State L.tableValueByteLength} {a : Action}
    (h : L.step s a = some t) : L.StepCase s a t := by
  cases a with
  | complete p =>
    obtain ⟨⟨hp, hr⟩, ht⟩ := Option.ite_none_right_eq_some.mp h
    unfold handleComplete at ht
    split at ht
    · next hs => exact Option.some.inj ht ▸ .compare p hp hr hs
    · next hs =>
      have hshare := Option.some.inj ht
      unfold sendIndexShare at hshare
      split at hshare
      · next hne => exact hshare ▸ .share p hp hr hs hne
      · next heq =>
        have heq : p = L.revealer := Decidable.of_not_not heq
        subst heq
        exact hshare ▸ .await hr hs
    · cases ht
  | deliver a b =>
    obtain ⟨⟨hb, hr⟩, ht⟩ := Option.ite_none_right_eq_some.mp h
    split at ht
    · cases ht
    · next msg rest hc =>
      have hrecv := Option.some.inj ht
      unfold handleReceive at hrecv
      dsimp only at hrecv
      split at hrecv
      · next hz => exact hrecv ▸ .finish a b msg rest hb hr hc hz
      · next hz =>
        split at hrecv
        · next h1 =>
          have h1 : (s.parties b).numPartiesAwaiting = 1 := by omega
          rw [h1] at hrecv
          exact hrecv ▸ .reveal a b msg rest hb hr hc h1
        · exact hrecv ▸ .add a b msg rest hb hr hc (by omega)

end Session
end Safrn.Lookup
