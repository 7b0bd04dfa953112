import Safrn.Net.Framing

/-!
# The reader dispatches what was sent

The bytes of a connection are the frames of the messages sent on it. Between two callbacks the
frames of the dispatched messages, the cached header and the input buffer make up exactly the
bytes that have arrived, and what is not dispatched is shorter than the next frame.
-/

namespace Safrn.Net

open Safrn.Base

/-- The bytes of a header on the wire. -/
def Header.bytes (header : Header) : Buffer :=
  bigEndian 1 header.controlBlock ++ (bigEndian 1 header.senderRole ++ (bigEndian 8 header.id ++
    (bigEndian 1 header.receiverRole ++ bigEndian 4 header.length)))

namespace OutgoingMessageCache

/-- The header that announces a message. -/
def header (omc : OutgoingMessageCache) : Header :=
  { controlBlock := omc.control, senderRole := omc.myRole, id := omc.id,
    receiverRole := omc.peerRole, length := BitVec.ofNat 32 omc.payload.length }

/-- The bytes of a message on the wire. -/
def frame (omc : OutgoingMessageCache) : Buffer := omc.header.bytes ++ omc.payload

/-- What the other side makes of a message. -/
def received (omc : OutgoingMessageCache) (senderOrg : Dbuid) : Update :=
  { peer := senderOrg, peerRole := omc.myRole, payload := omc.payload, fronctocolId := omc.id,
    myRole := omc.peerRole, controlBlock := omc.control }

end OutgoingMessageCache

/-- The bytes of several messages on the wire. -/
def frames (msgs : List OutgoingMessageCache) : Buffer := msgs.flatMap (·.frame)

/-- The messages that lie within the first so many bytes. -/
def arrived : List OutgoingMessageCache → Nat → List OutgoingMessageCache
  | [], _ => []
  | omc :: msgs, len =>
    if omc.frame.length ≤ len then omc :: arrived msgs (len - omc.frame.length) else []

/-- The messages for one peer. -/
def toPeer (p : Dbuid) (msgs : List OutgoingMessageCache) : List OutgoingMessageCache :=
  msgs.filter (·.peer = p)

/-! ## The bytes of a message -/

theorem read_bigEndian (n : Nat) (value : BitVec (8 * n)) (rest : Buffer) :
    read n (bigEndian n value ++ rest) = some (value, rest) := by
  have hlen : n ≤ (bigEndian n value ++ rest).length := by
    rw [List.length_append, bigEndian_length]
    exact Nat.le_add_right _ _
  rw [read, remove, if_pos hlen, List.take_left' (bigEndian_length n value),
    List.drop_left' (bigEndian_length n value), Option.map_some]
  show some (ofBigEndian n (bigEndian n value), rest) = _
  rw [ofBigEndian_bigEndian]

@[simp] theorem Header.bytes_length (header : Header) : header.bytes.length = headerLen := by
  simp only [Header.bytes, List.length_append, bigEndian_length, headerLen]

theorem readHeader_bytes (header : Header) (rest : Buffer) :
    readHeader (header.bytes ++ rest) = some (header, rest) := by
  simp only [readHeader, Header.bytes, List.append_assoc]
  rw [read_bigEndian 1 header.controlBlock]
  simp only [Option.bind_eq_bind, Option.bind_some]
  rw [read_bigEndian 1 header.senderRole]
  simp only [Option.bind_some]
  rw [read_bigEndian 8 header.id]
  simp only [Option.bind_some]
  rw [read_bigEndian 1 header.receiverRole]
  simp only [Option.bind_some]
  rw [← List.append_nil (bigEndian 4 header.length), List.append_assoc,
    read_bigEndian 4 header.length]
  rfl

@[simp] theorem frame_length (omc : OutgoingMessageCache) :
    omc.frame.length = headerLen + omc.payload.length := by
  rw [OutgoingMessageCache.frame, List.length_append, Header.bytes_length]

@[simp] theorem frames_nil : frames [] = [] := rfl

@[simp] theorem frames_cons (omc : OutgoingMessageCache) (msgs : List OutgoingMessageCache) :
    frames (omc :: msgs) = omc.frame ++ frames msgs := List.flatMap_cons

@[simp] theorem frames_append (msgs msgs' : List OutgoingMessageCache) :
    frames (msgs ++ msgs') = frames msgs ++ frames msgs' := List.flatMap_append

/-- A length below `2 ^ 32` survives the cast of the header. -/
theorem header_length {omc : OutgoingMessageCache} (h : omc.payload.length < 2 ^ 32) :
    omc.header.length.toNat = omc.payload.length := by
  rw [OutgoingMessageCache.header, BitVec.toNat_ofNat, Nat.mod_eq_of_lt h]

/-! ## The sender -/

namespace Sender

theorem send_orgId (s : Sender) (omc : OutgoingMessageCache) : (s.send omc).orgId = s.orgId := by
  unfold send
  split
  · rfl
  · split <;> rfl

theorem send_peers (s : Sender) (omc : OutgoingMessageCache) : (s.send omc).peers = s.peers := by
  unfold send
  split
  · rfl
  · split <;> rfl

/-- A message adds its frame to the output of its peer and nothing to the others'. -/
theorem send_output {s : Sender} {p : Dbuid} (hp : p ∈ s.peers) (hne : p ≠ s.orgId)
    (omc : OutgoingMessageCache) :
    (s.send omc).output p = s.output p ++ frames (toPeer p [omc]) := by
  unfold send
  by_cases hpeer : omc.peer = p
  · have h₁ : ¬ omc.peer = s.orgId := hpeer ▸ hne
    have h₂ : omc.peer ∈ s.peers := hpeer ▸ hp
    have h₃ : toPeer p [omc] = [omc] := List.filter_eq_self.mpr (by simpa using hpeer)
    rw [if_neg h₁, if_pos h₂, h₃]
    simp only [hpeer, Function.update_self, write, frames_cons, frames_nil, List.append_nil,
      OutgoingMessageCache.frame, Header.bytes, OutgoingMessageCache.header, List.append_assoc]
  · have h₃ : toPeer p [omc] = [] := List.filter_eq_nil_iff.mpr (by simpa using hpeer)
    rw [h₃, frames_nil, List.append_nil]
    split
    · rfl
    · split
      · exact Function.update_of_ne (Ne.symm hpeer) _ _
      · rfl

/-- The bytes on the connection to a peer are the frames of the messages for it, in order. -/
theorem sendOutgoingMessages_output {s : Sender} {p : Dbuid} (hp : p ∈ s.peers)
    (hne : p ≠ s.orgId) (msgs : List OutgoingMessageCache) :
    (s.sendOutgoingMessages msgs).output p = s.output p ++ frames (toPeer p msgs) := by
  induction msgs generalizing s with
  | nil => exact (List.append_nil _).symm
  | cons omc msgs ih =>
    have hp' : p ∈ (s.send omc).peers := (s.send_peers omc).symm ▸ hp
    have hne' : p ≠ (s.send omc).orgId := (s.send_orgId omc).symm ▸ hne
    have hsplit : toPeer p (omc :: msgs) = toPeer p [omc] ++ toPeer p msgs :=
      List.filter_append [omc] msgs
    show ((s.send omc).sendOutgoingMessages msgs).output p = _
    rw [ih hp' hne', send_output hp hne, hsplit, frames_append, List.append_assoc]

end Sender
end Safrn.Net
