import Safrn.Net.Reader

/-!
# The framing round trip

However the bytes of a connection are split into arrivals, `readEventHandler` dispatches the
messages that have arrived whole, in order, and keeps the bytes of the next one.
-/

namespace Safrn.Net

open Safrn.Base

/-- The constructor of `IncomingMessage` moves the announced bytes out of the buffer. -/
def IncomingMessageMoves (incomingMessage : Buffer → Nat → Buffer × Buffer) : Prop :=
  ∀ inBuf dataLength, dataLength ≤ inBuf.length →
    incomingMessage inBuf dataLength = (inBuf.take dataLength, inBuf.drop dataLength)

namespace EventHandler

variable {incomingMessage : Buffer → Nat → Buffer × Buffer} {isClosed : List Update → Bool}
  {msgs done rest : List OutgoingMessageCache} {omc : OutgoingMessageCache}
  {eh : EventHandler} {org : Dbuid} {bytes : Buffer}

/-- The bytes that have arrived behind the dispatched messages. -/
def pending (eh : EventHandler) : Buffer := eh.cachedHeader.elim [] Header.bytes ++ eh.inBuf

/-! ## One call -/

/-- A header at the front of the frames is that of the first message. -/
private theorem header_of_prefix {header : Header} {inBuf : Buffer}
    (h : header.bytes ++ inBuf <+: frames (omc :: rest)) : header = omc.header := by
  obtain ⟨t, ht⟩ := h
  have hread : readHeader (header.bytes ++ (inBuf ++ t)) =
      readHeader (omc.header.bytes ++ (omc.payload ++ frames rest)) := by
    rw [← List.append_assoc, ht, frames_cons, OutgoingMessageCache.frame, List.append_assoc]
  rw [readHeader_bytes, readHeader_bytes] at hread
  exact (Prod.mk.inj (Option.some.inj hread)).1

/-- Either the next header is cached, or too few bytes for it are there. -/
private theorem readEntireHeader_spec (hp : eh.pending <+: frames (omc :: rest)) :
    (∃ inBuf, eh.readEntireHeader = some { eh with cachedHeader := some omc.header, inBuf } ∧
        eh.pending = omc.header.bytes ++ inBuf) ∨
      (eh.readEntireHeader = some eh ∧ eh.cachedHeader = none ∧ eh.pending.length < headerLen) := by
  obtain ⟨senderOrg, cachedHeader, inBuf, updates, erased⟩ := eh
  cases cachedHeader with
  | some header =>
    have heq : header = omc.header := header_of_prefix hp
    subst heq
    exact .inl ⟨inBuf, rfl, rfl⟩
  | none =>
    by_cases hlen : headerLen ≤ inBuf.length
    · have hheader : omc.header.bytes <+: inBuf := by
        refine List.prefix_of_prefix_length_le ?_ hp ?_
        · rw [frames_cons, OutgoingMessageCache.frame, List.append_assoc]
          exact List.prefix_append _ _
        · rw [Header.bytes_length]
          exact hlen
      obtain ⟨inBuf', rfl⟩ := hheader
      refine .inl ⟨inBuf', ?_, rfl⟩
      simp only [readEntireHeader]
      rw [if_pos hlen, readHeader_bytes]
      rfl
    · refine .inr ⟨?_, rfl, Nat.lt_of_not_le hlen⟩
      simp only [readEntireHeader]
      rw [if_neg hlen]

/-- Nothing is read where nothing has arrived. -/
private theorem readMessage_nil (hp : eh.pending = []) :
    eh.readMessage incomingMessage isClosed = some (false, eh) := by
  obtain ⟨senderOrg, cachedHeader, inBuf, updates, erased⟩ := eh
  obtain ⟨hcached, hbuf⟩ := List.append_eq_nil_iff.mp hp
  cases cachedHeader with
  | some header =>
    have hlen := header.bytes_length
    rw [show header.bytes = [] from hcached] at hlen
    cases hlen
  | none =>
    have hbuf' : inBuf = [] := hbuf
    subst hbuf'
    rfl

/-- A call waits for the rest of the next message, or dispatches it. -/
private theorem readMessage_spec (isClosed : List Update → Bool)
    (hmoves : IncomingMessageMoves incomingMessage) (hlen : omc.payload.length < 2 ^ 32)
    (hp : eh.pending <+: frames (omc :: rest)) :
    (∃ cachedHeader inBuf, eh.readMessage incomingMessage isClosed =
          some (false, { eh with cachedHeader, inBuf }) ∧
        pending { eh with cachedHeader, inBuf } = eh.pending ∧
        eh.pending.length < omc.frame.length) ∨
      (∃ inBuf, eh.pending = omc.frame ++ inBuf ∧ eh.readMessage incomingMessage isClosed =
        some (!isClosed (eh.updates ++ [omc.received eh.senderOrg]) && !inBuf.isEmpty,
          { eh with
            cachedHeader := none, inBuf
            updates := eh.updates ++ [omc.received eh.senderOrg]
            erased := isClosed (eh.updates ++ [omc.received eh.senderOrg]) })) := by
  rcases readEntireHeader_spec hp with ⟨inBuf, hread, hpend⟩ | ⟨hread, hnone, hshort⟩
  · have hwant : omc.header.length.toNat = omc.payload.length := header_length hlen
    have hbuf : inBuf <+: omc.payload ++ frames rest := by
      rw [hpend, frames_cons, OutgoingMessageCache.frame, List.append_assoc] at hp
      exact (List.prefix_append_right_inj _).mp hp
    by_cases hshort : inBuf.length < omc.payload.length
    · refine .inl ⟨some omc.header, inBuf, ?_, hpend.symm, ?_⟩
      · simp only [readMessage, hread, Option.bind_eq_bind, Option.bind_some]
        rw [if_pos (hwant.symm ▸ hshort)]
      · rw [hpend, List.length_append, frame_length, Header.bytes_length]
        omega
    · -- the payload is there: the constructor takes exactly its bytes
      have hle : omc.payload.length ≤ inBuf.length := Nat.le_of_not_lt hshort
      have hpay : omc.payload <+: inBuf :=
        List.prefix_of_prefix_length_le (List.prefix_append _ _) hbuf hle
      obtain ⟨inBuf', rfl⟩ := hpay
      refine .inr ⟨inBuf', by rw [hpend, OutgoingMessageCache.frame, List.append_assoc], ?_⟩
      have hmsg : incomingMessage (omc.payload ++ inBuf') omc.header.length.toNat =
          (omc.payload, inBuf') := by
        rw [hwant, hmoves _ _ hle, List.take_left, List.drop_left]
      simp only [readMessage, hread, Option.bind_eq_bind, Option.bind_some]
      rw [if_neg (hwant.symm ▸ hshort), hmsg]
      rfl
  · refine .inl ⟨eh.cachedHeader, eh.inBuf, ?_, rfl, ?_⟩
    · simp only [readMessage, hread, Option.bind_eq_bind, Option.bind_some, hnone]
      obtain ⟨senderOrg, cachedHeader, inBuf, updates, erased⟩ := eh
      cases hnone
      rfl
    · rw [frame_length]
      omega

/-! ## The calls of one callback -/

/-- The messages `done` are dispatched, and what has arrived besides them is pending. -/
structure Reads (isClosed : List Update → Bool) (org : Dbuid)
    (done rest : List OutgoingMessageCache) (bytes : Buffer) (eh : EventHandler) : Prop where
  senderOrg : eh.senderOrg = org
  updates : eh.updates = done.map (·.received org)
  pending : eh.pending <+: frames rest
  bytes : eh.erased = false → bytes = frames done ++ eh.pending
  closed : eh.erased = true → isClosed eh.updates = true

/-- Less than the next frame is pending. -/
def Waits (eh : EventHandler) (rest : List OutgoingMessageCache) : Prop :=
  ∀ omc msgs, rest = omc :: msgs → eh.pending.length < omc.frame.length

/-- A callback dispatches the messages that are there, and then waits. -/
private theorem readEventHandler_reads (hmoves : IncomingMessageMoves incomingMessage)
    (hlen : ∀ omc ∈ rest, omc.payload.length < 2 ^ 32) {fuel : Nat}
    (hfuel : eh.pending.length < fuel) (hopen : eh.erased = false)
    (h : Reads isClosed org done rest bytes eh) :
    ∃ eh' now rest', readEventHandler incomingMessage isClosed fuel eh = some eh' ∧
      rest = now ++ rest' ∧ Reads isClosed org (done ++ now) rest' bytes eh' ∧
      (eh'.erased = false → eh'.Waits rest') := by
  induction fuel generalizing eh done rest with
  | zero => exact absurd hfuel (Nat.not_lt_zero _)
  | succ fuel ih =>
    cases rest with
    | nil =>
      refine ⟨eh, [], [], ?_, rfl, (List.append_nil done).symm ▸ h, fun _ _ _ h ↦ by cases h⟩
      rw [readEventHandler, readMessage_nil (List.prefix_nil.mp h.pending)]
      rfl
    | cons omc rest =>
      have hspec := readMessage_spec isClosed hmoves (hlen omc (List.mem_cons_self ..)) h.pending
      rcases hspec with ⟨cachedHeader, inBuf, hread, hpend, hshort⟩ | ⟨inBuf, hpend, hread⟩
      · refine ⟨{ eh with cachedHeader, inBuf }, [], omc :: rest, ?_, rfl, ?_, ?_⟩
        · rw [readEventHandler, hread]
          rfl
        · rw [List.append_nil]
          exact ⟨h.senderOrg, h.updates, hpend.symm ▸ h.pending, hpend.symm ▸ h.bytes, h.closed⟩
        · rintro - _ _ ⟨rfl, rfl⟩
          exact hpend.symm ▸ hshort
      · -- the message is dispatched; the calls that follow start behind it
        let eh' : EventHandler := { eh with
          cachedHeader := none, inBuf
          updates := eh.updates ++ [omc.received eh.senderOrg]
          erased := isClosed (eh.updates ++ [omc.received eh.senderOrg]) }
        have hpend' : eh'.pending = inBuf := rfl
        have hreads : Reads isClosed org (done ++ [omc]) rest bytes eh' := by
          refine ⟨h.senderOrg, ?_, ?_, fun _ ↦ ?_, fun hclosed ↦ hclosed⟩
          · show eh.updates ++ [omc.received eh.senderOrg] = _
            rw [h.updates, h.senderOrg, List.map_append, List.map_singleton]
          · have hp := h.pending
            rw [hpend, frames_cons] at hp
            exact (List.prefix_append_right_inj _).mp hp
          · rw [h.bytes hopen, hpend, hpend', frames_append, frames_cons, frames_nil,
              List.append_nil, List.append_assoc]
        by_cases hagain : (!eh'.erased && !inBuf.isEmpty) = true
        · have hfuel' : eh'.pending.length < fuel := by
            rw [hpend, List.length_append, frame_length, headerLen] at hfuel
            rw [hpend']
            omega
          have hopen' : eh'.erased = false := by simpa using (Bool.and_eq_true_iff.mp hagain).1
          obtain ⟨eh'', now, rest', hrun, hrest, hreads', hwaits⟩ :=
            ih (fun m hm ↦ hlen m (List.mem_cons_of_mem _ hm)) hfuel' hopen' hreads
          refine ⟨eh'', omc :: now, rest', ?_, by rw [hrest, List.cons_append], ?_, hwaits⟩
          · rw [readEventHandler, hread]
            show (if (!eh'.erased && !inBuf.isEmpty) = true then _ else _) = _
            rw [if_pos hagain]
            exact hrun
          · rwa [List.append_assoc] at hreads'
        · refine ⟨eh', [omc], rest, ?_, rfl, hreads, fun hopen' m _ _ ↦ ?_⟩
          · rw [readEventHandler, hread]
            show (if (!eh'.erased && !inBuf.isEmpty) = true then _ else _) = _
            rw [if_neg hagain]
          · have hempty : inBuf = [] := by simpa [hopen'] using hagain
            rw [hpend', hempty, frame_length, headerLen, List.length_nil]
            omega

/-! ## Any sequence of arrivals -/

/-- The dispatched messages are a first part of `msgs`, and those that are whole. -/
def Between (isClosed : List Update → Bool) (org : Dbuid) (msgs : List OutgoingMessageCache)
    (bytes : Buffer) (eh : EventHandler) : Prop :=
  ∃ done rest, msgs = done ++ rest ∧ Reads isClosed org done rest bytes eh ∧
    (eh.erased = false → eh.Waits rest)

private theorem receive_between (hmoves : IncomingMessageMoves incomingMessage)
    (hlen : ∀ omc ∈ msgs, omc.payload.length < 2 ^ 32) {arrival : Buffer}
    (harr : bytes ++ arrival <+: frames msgs) (h : Between isClosed org msgs bytes eh) :
    ∃ eh', receive incomingMessage isClosed eh arrival = some eh' ∧
      Between isClosed org msgs (bytes ++ arrival) eh' := by
  obtain ⟨done, rest, rfl, hreads, hwaits⟩ := h
  cases herased : eh.erased with
  | true =>
    refine ⟨eh, by rw [receive, if_pos herased], done, rest, rfl, ?_, hwaits⟩
    exact ⟨hreads.senderOrg, hreads.updates, hreads.pending,
      fun hopen ↦ absurd (herased.symm.trans hopen) (by decide), hreads.closed⟩
  | false =>
    let eh₀ : EventHandler := { eh with inBuf := eh.inBuf ++ arrival }
    have hpend : eh₀.pending = eh.pending ++ arrival := (List.append_assoc ..).symm
    have hstart : Reads isClosed org done rest (bytes ++ arrival) eh₀ := by
      refine ⟨hreads.senderOrg, hreads.updates, ?_, fun _ ↦ ?_, hreads.closed⟩
      · rw [hreads.bytes herased, List.append_assoc, frames_append] at harr
        rw [hpend]
        exact (List.prefix_append_right_inj _).mp harr
      · rw [hreads.bytes herased, hpend, List.append_assoc]
    have hfuel : eh₀.pending.length < headerLen + (eh.inBuf ++ arrival).length + 1 := by
      have hcached : (eh.cachedHeader.elim [] Header.bytes).length ≤ headerLen := by
        cases eh.cachedHeader with
        | none => exact Nat.zero_le _
        | some header => exact Nat.le_of_eq (Header.bytes_length header)
      show (eh.cachedHeader.elim [] Header.bytes ++ (eh.inBuf ++ arrival)).length < _
      rw [List.length_append]
      omega
    obtain ⟨eh', now, rest', hrun, rfl, hreads', hwaits'⟩ :=
      readEventHandler_reads hmoves (fun m hm ↦ hlen m (List.mem_append_right _ hm)) hfuel
        herased hstart
    refine ⟨eh', ?_, done ++ now, rest', (List.append_assoc ..).symm, hreads', hwaits'⟩
    have hnot : ¬ eh.erased = true := by rw [herased]; decide
    rw [receive, if_neg hnot]
    exact hrun

private theorem receiveAll_between (hmoves : IncomingMessageMoves incomingMessage)
    (hlen : ∀ omc ∈ msgs, omc.payload.length < 2 ^ 32) {arrivals : List Buffer}
    (harr : bytes ++ arrivals.flatten <+: frames msgs) (h : Between isClosed org msgs bytes eh) :
    ∃ eh', receiveAll incomingMessage isClosed eh arrivals = some eh' ∧
      Between isClosed org msgs (bytes ++ arrivals.flatten) eh' := by
  induction arrivals generalizing eh bytes with
  | nil => exact ⟨eh, rfl, by rwa [List.flatten_nil, List.append_nil]⟩
  | cons arrival arrivals ih =>
    rw [List.flatten_cons, ← List.append_assoc] at harr ⊢
    obtain ⟨eh₁, hrun, hbetween⟩ :=
      receive_between hmoves hlen ((List.prefix_append _ _).trans harr) h
    obtain ⟨eh₂, hrun', hbetween'⟩ := ih harr hbetween
    refine ⟨eh₂, ?_, hbetween'⟩
    rw [receiveAll, List.foldlM_cons, hrun]
    exact hrun'

private theorem between_start (isClosed : List Update → Bool) (org : Dbuid)
    (msgs : List OutgoingMessageCache) : Between isClosed org msgs [] (start org) := by
  refine ⟨[], msgs, rfl, ⟨rfl, rfl, List.nil_prefix, fun _ ↦ rfl, fun h ↦ by cases h⟩, ?_⟩
  intro _ omc _ _
  have hpos : 0 < headerLen := by decide
  rw [frame_length]
  exact Nat.add_pos_left hpos _

/-- The dispatched messages are those that lie within the bytes that have arrived. -/
private theorem arrived_eq {eh : EventHandler} (h : eh.Waits rest) :
    arrived (done ++ rest) (frames done ++ eh.pending).length = done := by
  induction done with
  | nil =>
    cases rest with
    | nil => rfl
    | cons omc rest =>
      have hshort := Nat.not_le_of_lt (h omc rest rfl)
      rw [List.nil_append, frames_nil, List.nil_append, arrived, if_neg hshort]
  | cons omc done ih =>
    have hlen : (frames (omc :: done) ++ eh.pending).length =
        omc.frame.length + (frames done ++ eh.pending).length := by
      rw [frames_cons, List.append_assoc, List.length_append]
    rw [List.cons_append, arrived, hlen, if_pos (Nat.le_add_right _ _), Nat.add_sub_cancel_left,
      ih]

private theorem pending_eq_nil (h : eh.pending = []) :
    eh.inBuf = [] ∧ eh.cachedHeader = none := by
  obtain ⟨hcached, hbuf⟩ := List.append_eq_nil_iff.mp h
  refine ⟨hbuf, ?_⟩
  cases hheader : eh.cachedHeader with
  | none => rfl
  | some header =>
    rw [hheader] at hcached
    have hlen := header.bytes_length
    rw [show header.bytes = [] from hcached] at hlen
    cases hlen

end EventHandler

/-- The calls of `update` that a sequence of messages should cause at one of the peers. -/
def expected (orgId p : Dbuid) (msgs : List OutgoingMessageCache) : List Update :=
  (toPeer p msgs).map (·.received orgId)

end Safrn.Net
