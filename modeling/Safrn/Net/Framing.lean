import Mathlib.Data.List.Basic
import Safrn.Base.BigEndian
import Safrn.Net.Study

/-!
# The framing of messages between two servers

Models `EvBufferWrapper::write`, `remove` and `read` (`EventWrapper/EvBufferWrapper.h:109-172`),
`QueryHandler::sendOutgoingMessages` (`framework/QueryHandler.cpp:144-171`) and the reader
`readEntireHeader`, `condFinishEvent` and `readEventHandler` (`network/EventHandler.cpp:32-179`).
-/

namespace Safrn.Net

open Safrn.Base

/-- The bytes of an `evbuffer`. -/
abbrev Buffer := List (BitVec 8)

/-- `EvBufferWrapper::write` of an integer of `n` bytes. -/
def write (n : Nat) (value : BitVec (8 * n)) (out : Buffer) : Buffer := out ++ bigEndian n value

/-- `EvBufferWrapper::remove`, which asserts that the bytes are there. -/
def remove (len : Nat) (inBuf : Buffer) : Option (Buffer × Buffer) :=
  if len ≤ inBuf.length then some (inBuf.take len, inBuf.drop len) else none

/-- `EvBufferWrapper::read` of an integer of `n` bytes. -/
def read (n : Nat) (inBuf : Buffer) : Option (BitVec (8 * n) × Buffer) :=
  (remove n inBuf).map fun (bytes, inBuf) ↦ (ofBigEndian n bytes, inBuf)

/-- `OutgoingMessageCache`, with the message it points to. -/
structure OutgoingMessageCache where
  peer : Dbuid
  peerRole : Role
  payload : Buffer
  myRole : Role
  id : BitVec 64
  control : BitVec 8

/-- The message and the arguments of a call of `QueryHandler::update`. -/
structure Update where
  peer : Dbuid
  peerRole : Role
  payload : Buffer
  fronctocolId : BitVec 64
  myRole : Role
  controlBlock : BitVec 8
deriving DecidableEq

/-- A query's connections as the sender sees them: the bytes added to the output of each, and
the messages handed to its own `update`. -/
structure Sender where
  orgId : Dbuid
  peers : List Dbuid
  output : Dbuid → Buffer
  updates : List Update

namespace Sender

/-- Nothing sent yet. -/
def start (orgId : Dbuid) (peers : List Dbuid) : Sender :=
  { orgId, peers, output := fun _ ↦ [], updates := [] }

/-- One round of the loop of `sendOutgoingMessages`. -/
def send (s : Sender) (omc : OutgoingMessageCache) : Sender :=
  if omc.peer = s.orgId then
    { s with
      updates := s.updates ++
        [{ peer := omc.peer, peerRole := omc.peerRole, payload := omc.payload,
           fronctocolId := omc.id, myRole := omc.myRole, controlBlock := omc.control }] }
  else if omc.peer ∈ s.peers then
    let out := s.output omc.peer
    let out := write 1 omc.control out
    let out := write 1 omc.myRole out
    let out := write 8 omc.id out
    let out := write 1 omc.peerRole out
    let out := write 4 (BitVec.ofNat 32 omc.payload.length) out
    { s with output := Function.update s.output omc.peer (out ++ omc.payload) }
  else s -- a disconnected peer is only logged

/-- `QueryHandler::sendOutgoingMessages`. -/
def sendOutgoingMessages (s : Sender) (msgs : List OutgoingMessageCache) : Sender :=
  msgs.foldl send s

end Sender

/-- `cachedHeader`. -/
structure Header where
  controlBlock : BitVec 8
  senderRole : Role
  id : BitVec 64
  receiverRole : Role
  length : BitVec 32
deriving DecidableEq

/-- `HEADER_LEN`. -/
def headerLen : Nat := 8 + 3 * 1 + 4

/-- `EventHandler`, with the bytes in its input, the calls of `update` it has made, and whether
it has been freed together with its query. -/
structure EventHandler where
  senderOrg : Dbuid
  cachedHeader : Option Header
  inBuf : Buffer
  updates : List Update
  erased : Bool
deriving DecidableEq

/-- The five reads of `readEntireHeader`. -/
def readHeader (inBuf : Buffer) : Option (Header × Buffer) := do
  let (controlBlock, inBuf) ← read 1 inBuf
  let (senderRole, inBuf) ← read 1 inBuf
  let (id, inBuf) ← read 8 inBuf
  let (receiverRole, inBuf) ← read 1 inBuf
  let (length, inBuf) ← read 4 inBuf
  some ({ controlBlock, senderRole, id, receiverRole, length }, inBuf)

namespace EventHandler

/-- A new connection. -/
def start (senderOrg : Dbuid) : EventHandler :=
  { senderOrg, cachedHeader := none, inBuf := [], updates := [], erased := false }

/-- `readEntireHeader`; its result is whether a header is cached afterwards. -/
def readEntireHeader (eh : EventHandler) : Option EventHandler :=
  match eh.cachedHeader with
  | some _ => some eh
  | none =>
    if headerLen ≤ eh.inBuf.length then
      (readHeader eh.inBuf).map fun (header, inBuf) ↦
        { eh with cachedHeader := some header, inBuf }
    else some eh

section

-- The constructor of `IncomingMessage`: the content of the message, and the buffer it leaves.
variable (incomingMessage : Buffer → Nat → Buffer × Buffer)

-- `QueryHandler::isClosed`, by the calls of `update` that this connection has made.
variable (isClosed : List Update → Bool)

/-- The body of `readEventHandler`, and whether it calls itself again. A query that is closed
takes its connections with it. -/
def readMessage (eh : EventHandler) : Option (Bool × EventHandler) := do
  let eh ← eh.readEntireHeader
  match eh.cachedHeader with
  | none => some (false, eh)
  | some header =>
    let lenWant := header.length.toNat
    if eh.inBuf.length < lenWant then some (false, eh)
    else
      let (payload, inBuf) := incomingMessage eh.inBuf lenWant
      let updates := eh.updates ++
        [{ peer := eh.senderOrg, peerRole := header.senderRole, payload,
           fronctocolId := header.id, myRole := header.receiverRole,
           controlBlock := header.controlBlock }]
      let erased := isClosed updates
      some (!erased && !inBuf.isEmpty, { eh with cachedHeader := none, inBuf, updates, erased })

/-- `readEventHandler`; `none` when an assertion fails or the calls never end. -/
def readEventHandler : Nat → EventHandler → Option EventHandler
  | 0, _ => none
  | fuel + 1, eh => do
    let (again, eh) ← eh.readMessage incomingMessage isClosed
    if again then readEventHandler fuel eh else some eh

/-- Bytes arrive. Each call but the last takes a whole message, header included, so there are
no more calls than bytes. -/
def receive (eh : EventHandler) (bytes : Buffer) : Option EventHandler :=
  if eh.erased then some eh
  else
    readEventHandler incomingMessage isClosed (headerLen + (eh.inBuf ++ bytes).length + 1)
      { eh with inBuf := eh.inBuf ++ bytes }

/-- One arrival after the other. -/
def receiveAll (eh : EventHandler) (arrivals : List Buffer) : Option EventHandler :=
  arrivals.foldlM (receive incomingMessage isClosed) eh

end

end EventHandler
end Safrn.Net
