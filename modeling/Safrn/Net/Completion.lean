import Mathlib.Data.List.Induction
import Safrn.Net.RoundTrip

/-!
# What a read callback does after its query was erased

Models `finishEvent`, `condFinishEvent` and `readEventHandler` of
`network/EventHandler.cpp:77-179` with the accesses to the state of the handler. When the query is
closed after a message, `condFinishEvent` erases it together with the `EventHandler` of the
connection; the callback then goes on, and calls itself again if the input holds further bytes. The
input itself stays until libevent has left the callback.
-/

namespace Safrn.Net

open Safrn.Base

/-- An access of a read callback to the state of its `EventHandler`, a call of the query's
`update`, or the erasure of both. -/
inductive Access
  | read
  | dispatch (update : Update)
  | erase
  | write
deriving DecidableEq

/-- An `EventHandler` and the accesses of its callbacks. -/
structure Reading where
  eh : EventHandler
  log : List Access
deriving DecidableEq

/-- Bytes arrive. Whether the query is closed depends on the messages of this connection, and on
all that happened to the query elsewhere before; where tests run, and all of them have finished,
a closed query ends the event loop. -/
structure Reception where
  bytes : Buffer
  isClosed : List Update → Bool
  testsFinished : List Update → Bool

/-- `condFinishEvent` erases the query. -/
def Reception.erases (a : Reception) (updates : List Update) : Bool :=
  a.isClosed updates && !a.testsFinished updates

namespace Reading

/-- A new connection. -/
def start (senderOrg : Dbuid) : Reading := ⟨.start senderOrg, []⟩

section

variable (incomingMessage : Buffer → Nat → Buffer × Buffer)

/-- The body of `readEventHandler`, and whether it calls itself again. -/
def readMessage (a : Reception) (s : Reading) : Option (Bool × Reading) := do
  let eh ← s.eh.readEntireHeader
  let log := s.log ++ [.read]
  match eh.cachedHeader with
  | none => some (false, ⟨eh, log⟩)
  | some header =>
    let lenWant := header.length.toNat
    if eh.inBuf.length < lenWant then some (false, ⟨eh, log⟩)
    else
      let (payload, inBuf) := incomingMessage eh.inBuf lenWant
      let update : Update :=
        { peer := eh.senderOrg, peerRole := header.senderRole, payload,
          fronctocolId := header.id, myRole := header.receiverRole,
          controlBlock := header.controlBlock }
      let updates := eh.updates ++ [update]
      let erased := a.erases updates
      let log := log ++ [.dispatch update] ++ (if erased then [.erase] else [])
      -- `hasCachedHeader` is reset in any case
      some (!inBuf.isEmpty,
        ⟨{ eh with cachedHeader := none, inBuf, updates, erased }, log ++ [.write]⟩)

/-- `readEventHandler`; `none` when an assertion fails or the calls never end. The first read of
an erased handler is the last access that is followed. -/
def readEventHandler (a : Reception) : Nat → Reading → Option Reading
  | 0, _ => none
  | fuel + 1, s => do
    let (again, s) ← s.readMessage incomingMessage a
    if !again then some s
    else if s.eh.erased then some { s with log := s.log ++ [.read] }
    else readEventHandler a fuel s

/-- One callback; an erased handler has no further ones. -/
def receive (s : Reading) (a : Reception) : Option Reading :=
  if s.eh.erased then some s
  else
    let eh := { s.eh with inBuf := s.eh.inBuf ++ a.bytes }
    readEventHandler incomingMessage a (headerLen + eh.inBuf.length + 1) { s with eh }

/-- One callback after the other. -/
def receiveAll (s : Reading) (arrivals : List Reception) : Option Reading :=
  arrivals.foldlM (receive incomingMessage) s

end

/-- What is logged after the handler was erased. -/
def afterErase (log : List Access) : List Access := (log.dropWhile (· != .erase)).tail

/-- No message is dispatched and no state is read after the handler was erased. -/
def Clean (log : List Access) : Prop :=
  ∀ a ∈ afterErase log, a ≠ .read ∧ ∀ update, a ≠ .dispatch update

end Reading

/-- A whole message on the wire. -/
structure Message where
  header : Header
  payload : Buffer
  length_eq : payload.length = header.length.toNat

namespace Message

/-- The bytes of a message. -/
def bytes (m : Message) : Buffer := m.header.bytes ++ m.payload

/-- What the reader makes of a message. -/
def update (m : Message) (senderOrg : Dbuid) : Update :=
  { peer := senderOrg, peerRole := m.header.senderRole, payload := m.payload,
    fronctocolId := m.header.id, myRole := m.header.receiverRole,
    controlBlock := m.header.controlBlock }

end Message

/-- When the handler is erased after some of the messages that the buffer begins with, and not
before, no bytes follow them. -/
def Reception.LastMessage (a : Reception) (senderOrg : Dbuid) (updates : List Update)
    (buffer : Buffer) : Prop :=
  ∀ (msgs : List Message) (rest : Buffer), buffer = msgs.flatMap (·.bytes) ++ rest → msgs ≠ [] →
    a.erases (updates ++ msgs.map (·.update senderOrg)) = true →
    (∀ before, before <+: msgs → before ≠ [] → before ≠ msgs →
      a.erases (updates ++ before.map (·.update senderOrg)) = false) →
    rest = []

/-! ## Messages in a buffer -/

/-- A buffer that is long enough begins with the bytes of an integer. -/
private theorem exists_bigEndian (n : Nat) (inBuf : Buffer) (h : n ≤ inBuf.length) :
    ∃ (value : BitVec (8 * n)) (rest : Buffer), inBuf = bigEndian n value ++ rest := by
  refine ⟨ofBigEndian n (inBuf.take n), inBuf.drop n, ?_⟩
  rw [bigEndian_ofBigEndian (List.length_take_of_le h), List.take_append_drop]

/-- A buffer that is long enough begins with a header. -/
theorem exists_header_bytes {inBuf : Buffer} (h : headerLen ≤ inBuf.length) :
    ∃ (header : Header) (rest : Buffer), inBuf = header.bytes ++ rest := by
  unfold headerLen at h
  obtain ⟨controlBlock, inBuf, rfl⟩ := exists_bigEndian 1 inBuf (by omega)
  rw [List.length_append, bigEndian_length] at h
  obtain ⟨senderRole, inBuf, rfl⟩ := exists_bigEndian 1 inBuf (by omega)
  rw [List.length_append, bigEndian_length] at h
  obtain ⟨id, inBuf, rfl⟩ := exists_bigEndian 8 inBuf (by omega)
  rw [List.length_append, bigEndian_length] at h
  obtain ⟨receiverRole, inBuf, rfl⟩ := exists_bigEndian 1 inBuf (by omega)
  rw [List.length_append, bigEndian_length] at h
  obtain ⟨length, inBuf, rfl⟩ := exists_bigEndian 4 inBuf (by omega)
  exact ⟨⟨controlBlock, senderRole, id, receiverRole, length⟩, inBuf, by simp [Header.bytes]⟩

/-- The headers that two equal buffers begin with are equal. -/
private theorem header_bytes_append_inj {header header' : Header} {rest rest' : Buffer}
    (h : header.bytes ++ rest = header'.bytes ++ rest') : header = header' ∧ rest = rest' := by
  have hread := congrArg readHeader h
  rw [readHeader_bytes, readHeader_bytes] at hread
  simpa using hread

@[simp] theorem Message.bytes_length (m : Message) :
    m.bytes.length = headerLen + m.payload.length := by
  simp [Message.bytes]

/-- The messages that two equal buffers begin with are equal. -/
private theorem message_bytes_append_inj {m m' : Message} {rest rest' : Buffer}
    (h : m.bytes ++ rest = m'.bytes ++ rest') : m = m' ∧ rest = rest' := by
  simp only [Message.bytes, List.append_assoc] at h
  obtain ⟨hheader, h⟩ := header_bytes_append_inj h
  have hlen : m.payload.length = m'.payload.length := by
    rw [m.length_eq, m'.length_eq, hheader]
  obtain ⟨hpayload, hrest⟩ := List.append_inj h hlen
  cases m
  cases m'
  simp_all

/-! ## One call -/

namespace Reading

variable {incomingMessage : Buffer → Nat → Buffer × Buffer} {a : Reception} {s : Reading}

/-- Either the next header is cached, or too few bytes for it are there. -/
private theorem readEntireHeader_cases (eh : EventHandler) :
    (∃ header inBuf, eh.readEntireHeader = some { eh with cachedHeader := some header, inBuf } ∧
        eh.pending = header.bytes ++ inBuf) ∨
      (eh.readEntireHeader = some eh ∧ eh.cachedHeader = none ∧ eh.pending.length < headerLen) := by
  obtain ⟨senderOrg, cachedHeader, inBuf, updates, erased⟩ := eh
  cases cachedHeader with
  | some header => exact .inl ⟨header, inBuf, rfl, rfl⟩
  | none =>
    by_cases hlen : headerLen ≤ inBuf.length
    · left
      obtain ⟨header, rest, rfl⟩ := exists_header_bytes hlen
      refine ⟨header, rest, ?_, rfl⟩
      simp only [EventHandler.readEntireHeader, hlen, ↓reduceIte]
      rw [readHeader_bytes]
      rfl
    · right
      refine ⟨?_, rfl, Nat.lt_of_not_le hlen⟩
      simp only [EventHandler.readEntireHeader, hlen, ↓reduceIte]

/-- A call waits for the rest of a message, or dispatches one. -/
private theorem readMessage_cases (hmoves : IncomingMessageMoves incomingMessage) :
    (∃ eh, s.readMessage incomingMessage a = some (false, ⟨eh, s.log ++ [.read]⟩) ∧
        eh.erased = s.eh.erased ∧ ∀ (m : Message) rest, s.eh.pending ≠ m.bytes ++ rest) ∨
      (∃ (m : Message) (inBuf : Buffer), s.eh.pending = m.bytes ++ inBuf ∧
        s.readMessage incomingMessage a = some (!inBuf.isEmpty,
          let updates := s.eh.updates ++ [m.update s.eh.senderOrg]
          ⟨{ s.eh with cachedHeader := none, inBuf, updates, erased := a.erases updates },
            s.log ++ [.read] ++ [.dispatch (m.update s.eh.senderOrg)] ++
              (if a.erases updates then [.erase] else []) ++ [.write]⟩)) := by
  rcases readEntireHeader_cases s.eh with ⟨header, inBuf, hread, hpend⟩ | ⟨hread, hnone, hshort⟩
  · by_cases hlt : inBuf.length < header.length.toNat
    · left
      refine ⟨{ s.eh with cachedHeader := some header, inBuf }, ?_, rfl, ?_⟩
      · simp [readMessage, hread, hlt]
      · intro m rest h
        rw [hpend, Message.bytes, List.append_assoc] at h
        obtain ⟨hheader, hbuf⟩ := header_bytes_append_inj h
        have hlen := congrArg List.length hbuf
        rw [List.length_append, m.length_eq, ← hheader] at hlen
        omega
    · right
      have hle : header.length.toNat ≤ inBuf.length := Nat.le_of_not_lt hlt
      let m : Message :=
        { header, payload := inBuf.take header.length.toNat
          length_eq := List.length_take_of_le hle }
      refine ⟨m, inBuf.drop header.length.toNat, ?_, ?_⟩
      · rw [hpend, Message.bytes, List.append_assoc, List.take_append_drop]
      · simp only [readMessage, hread, Option.bind_eq_bind, Option.bind_some, hlt, ↓reduceIte]
        rw [hmoves inBuf _ hle]
        rfl
  · left
    refine ⟨s.eh, ?_, rfl, ?_⟩
    · simp [readMessage, hread, hnone]
    · intro m rest h
      rw [h, List.length_append, Message.bytes_length] at hshort
      omega
/-! ## The calls of one callback -/

/-- What is logged before the erasure does not count. -/
private theorem afterErase_append {log log' : List Access} (h : Access.erase ∉ log) :
    afterErase (log ++ log') = afterErase log' := by
  unfold afterErase
  rw [List.dropWhile_append_of_pos]
  intro access hm
  have hne : access ≠ .erase := by
    rintro rfl
    exact h hm
  simpa using hne

/-- A log with an erasure is clean when what follows is. -/
private theorem clean_erase {log log' : List Access} (h : Access.erase ∉ log) :
    Clean (log ++ [.erase] ++ log') ↔ ∀ a ∈ log', a ≠ .read ∧ ∀ update, a ≠ .dispatch update := by
  unfold Clean
  rw [List.append_assoc, afterErase_append h]
  rfl

/-- Nothing is wrong with a log without an erasure. -/
private theorem clean_of_notMem {log : List Access} (h : Access.erase ∉ log) : Clean log := by
  have hnil : afterErase (log ++ []) = afterErase [] := afterErase_append h
  rw [List.append_nil] at hnil
  unfold Clean
  rw [hnil]
  exact nofun

section

variable {eh : EventHandler} {buffer rest : Buffer} {m : Message}

/-- Without a whole message there is nothing to erase the handler after. -/
private theorem lastMessage_incomplete {senderOrg : Dbuid} {updates : List Update}
    (h : ∀ (m : Message) rest, buffer ≠ m.bytes ++ rest) :
    a.LastMessage senderOrg updates buffer := by
  intro msgs rest hbuf hne
  cases msgs with
  | nil => exact absurd rfl hne
  | cons m msgs =>
    rw [List.flatMap_cons, List.append_assoc] at hbuf
    exact absurd hbuf (h m _)

/-- The handler is erased after the first message. -/
private theorem lastMessage_erased {senderOrg : Dbuid} {updates : List Update}
    (he : a.erases (updates ++ [m.update senderOrg]) = true) :
    a.LastMessage senderOrg updates (m.bytes ++ rest) ↔ rest = [] := by
  constructor
  · intro h
    apply h [m] rest (by simp) (by simp) (by simpa using he)
    intro before hbefore hnil hne
    rcases List.prefix_cons_iff.mp hbefore with rfl | ⟨t, rfl, ht⟩
    · exact absurd rfl hnil
    · rw [List.prefix_nil.mp ht] at hne
      exact absurd rfl hne
  · rintro rfl msgs rest hbuf hne herase hfirst
    cases msgs with
    | nil => exact absurd rfl hne
    | cons m' msgs =>
      rw [List.flatMap_cons, List.append_assoc] at hbuf
      obtain ⟨rfl, hrest⟩ := message_bytes_append_inj hbuf
      exact (List.append_eq_nil_iff.mp hrest.symm).2

/-- The handler is not erased after the first message. -/
private theorem lastMessage_kept {senderOrg : Dbuid} {updates : List Update}
    (he : a.erases (updates ++ [m.update senderOrg]) = false) :
    a.LastMessage senderOrg updates (m.bytes ++ rest) ↔
      a.LastMessage senderOrg (updates ++ [m.update senderOrg]) rest := by
  constructor
  · intro h msgs rest' hbuf hne herase hfirst
    apply h (m :: msgs) rest'
    · rw [List.flatMap_cons, List.append_assoc, ← hbuf]
    · simp
    · simpa using herase
    · intro before hbefore hnil hne'
      rcases List.prefix_cons_iff.mp hbefore with rfl | ⟨t, rfl, ht⟩
      · exact absurd rfl hnil
      · cases t with
        | nil => simpa using he
        | cons m' t =>
          have hfirst' := hfirst (m' :: t) ht (by simp) (fun heq ↦ hne' (heq ▸ rfl))
          simpa using hfirst'
  · intro h msgs rest' hbuf hne herase hfirst
    cases msgs with
    | nil => exact absurd rfl hne
    | cons m' msgs =>
      rw [List.flatMap_cons, List.append_assoc] at hbuf
      obtain ⟨rfl, hrest⟩ := message_bytes_append_inj hbuf
      apply h msgs rest' hrest
      · rintro rfl
        simp [he] at herase
      · simpa using herase
      · intro before hbefore hnil hne'
        have hfirst' := hfirst (m :: before) (List.cons_prefix_cons.mpr ⟨rfl, hbefore⟩) (by simp)
          (by simpa using hne')
        simpa using hfirst'

end

/-- The calls of a callback end, and the log stays clean exactly when the handler is erased, if at
all, after the last bytes. -/
private theorem readEventHandler_clean (hmoves : IncomingMessageMoves incomingMessage) (fuel : Nat)
    (s : Reading) (hfuel : s.eh.pending.length < fuel) (hlive : s.eh.erased = false)
    (hlog : Access.erase ∉ s.log) :
    ∃ t, readEventHandler incomingMessage a fuel s = some t ∧
      (t.eh.erased = false → Access.erase ∉ t.log) ∧
      (Clean t.log ↔ a.LastMessage s.eh.senderOrg s.eh.updates s.eh.pending) := by
  induction fuel generalizing s with
  | zero => exact absurd hfuel (Nat.not_lt_zero _)
  | succ fuel ih =>
    have hread : Access.erase ∉ s.log ++ [.read] := by simpa using hlog
    rcases readMessage_cases (a := a) (s := s) hmoves with
      ⟨eh, hmsg, -, hnone⟩ | ⟨m, inBuf, hpend, hmsg⟩
    · refine ⟨⟨eh, s.log ++ [.read]⟩, ?_, fun _ ↦ hread, ?_⟩
      · simp [readEventHandler, hmsg]
      · exact iff_of_true (clean_of_notMem hread) (lastMessage_incomplete hnone)
    · rw [hpend]
      have hfuel' : inBuf.length < fuel := by
        rw [hpend, List.length_append, Message.bytes_length, headerLen] at hfuel
        omega
      cases herase : a.erases (s.eh.updates ++ [m.update s.eh.senderOrg]) with
      | true =>
        rw [lastMessage_erased herase]
        have hdispatch : Access.erase ∉ s.log ++ [.read] ++ [.dispatch (m.update s.eh.senderOrg)] :=
          by simpa using hlog
        simp only [herase, ↓reduceIte] at hmsg
        simp only [readEventHandler, hmsg, Option.bind_eq_bind, Option.bind_some]
        cases inBuf with
        | nil =>
          refine ⟨_, rfl, (fun hkept ↦ by cases hkept), ?_⟩
          apply (clean_erase hdispatch).trans
          simp
        | cons b inBuf =>
          refine ⟨_, rfl, (fun hkept ↦ by cases hkept), ?_⟩
          dsimp only
          rw [List.append_assoc _ [Access.write], clean_erase hdispatch]
          simp
      | false =>
        rw [lastMessage_kept herase]
        have hlog' : Access.erase ∉
            s.log ++ [.read] ++ [.dispatch (m.update s.eh.senderOrg)] ++ [] ++ [.write] := by
          simpa using hlog
        simp only [herase, Bool.false_eq_true, ↓reduceIte] at hmsg
        simp only [readEventHandler, hmsg, Option.bind_eq_bind, Option.bind_some]
        cases inBuf with
        | nil =>
          refine ⟨_, rfl, fun _ ↦ hlog', ?_⟩
          apply iff_of_true (clean_of_notMem hlog')
          apply lastMessage_incomplete
          intro m' rest h
          have hlen := congrArg List.length h
          rw [List.length_append, Message.bytes_length, List.length_nil] at hlen
          exact absurd hlen (by unfold headerLen; omega)
        | cons b inBuf => exact ih _ hfuel' rfl hlog'

/-! ## The calls are those of the reader -/

private theorem readMessage_eh (s : Reading) (a : Reception) :
    s.eh.readMessage incomingMessage a.erases =
      (s.readMessage incomingMessage a).map fun p ↦ (!p.2.eh.erased && p.1, p.2.eh) := by
  unfold readMessage EventHandler.readMessage
  cases s.eh.readEntireHeader with
  | none => rfl
  | some eh =>
    simp only [Option.bind_eq_bind, Option.bind_some]
    cases eh.cachedHeader with
    | none => simp
    | some header =>
      dsimp only
      split <;> simp

/-- Up to the erasure the calls do what `EventHandler.readEventHandler` does. -/
theorem readEventHandler_eh (a : Reception) (fuel : Nat) (s : Reading) :
    s.eh.readEventHandler incomingMessage a.erases fuel =
      (readEventHandler incomingMessage a fuel s).map (·.eh) := by
  induction fuel generalizing s with
  | zero => rfl
  | succ fuel ih =>
    unfold readEventHandler EventHandler.readEventHandler
    rw [readMessage_eh]
    cases s.readMessage incomingMessage a with
    | none => rfl
    | some p =>
      obtain ⟨again, t⟩ := p
      simp only [Option.map_some, Option.bind_eq_bind, Option.bind_some]
      cases again with
      | false => simp
      | true =>
        cases herased : t.eh.erased with
        | true => simp
        | false => simp [ih t]

theorem receive_eh (s : Reading) (a : Reception) :
    s.eh.receive incomingMessage a.erases a.bytes =
      (s.receive incomingMessage a).map (·.eh) := by
  obtain ⟨⟨senderOrg, cachedHeader, inBuf, updates, erased⟩, log⟩ := s
  cases erased with
  | true => rfl
  | false =>
    exact readEventHandler_eh a (headerLen + (inBuf ++ a.bytes).length + 1)
      ⟨⟨senderOrg, cachedHeader, inBuf ++ a.bytes, updates, false⟩, log⟩

/-! ## All callbacks of a connection -/

private theorem receive_clean (hmoves : IncomingMessageMoves incomingMessage) (s : Reading)
    (a : Reception) (hlive : s.eh.erased = false) (hlog : Access.erase ∉ s.log) :
    ∃ t, s.receive incomingMessage a = some t ∧ (t.eh.erased = false → Access.erase ∉ t.log) ∧
      (Clean t.log ↔ a.LastMessage s.eh.senderOrg s.eh.updates (s.eh.pending ++ a.bytes)) := by
  obtain ⟨⟨senderOrg, cachedHeader, inBuf, updates, erased⟩, log⟩ := s
  cases hlive
  let s' : Reading := ⟨⟨senderOrg, cachedHeader, inBuf ++ a.bytes, updates, false⟩, log⟩
  have hpend : s'.eh.pending =
      EventHandler.pending ⟨senderOrg, cachedHeader, inBuf, updates, false⟩ ++ a.bytes := by
    simp [s', EventHandler.pending]
  have hfuel : s'.eh.pending.length < headerLen + (inBuf ++ a.bytes).length + 1 := by
    cases cachedHeader with
    | none =>
      simp only [s', EventHandler.pending, Option.elim_none, List.nil_append]
      omega
    | some header => simp [s', EventHandler.pending]
  rw [← hpend]
  exact readEventHandler_clean hmoves _ s' hfuel rfl hlog

/-- Every callback of a connection comes to its end; and after the erasure no message is
dispatched and no state read exactly when in each callback on a live handler no bytes follow the
message after which the query is erased. -/
theorem receiveAll_clean_iff (incomingMessage : Buffer → Nat → Buffer × Buffer)
    (hmoves : IncomingMessageMoves incomingMessage) (senderOrg : Dbuid)
    (arrivals : List Reception) :
    ∃ t, (start senderOrg).receiveAll incomingMessage arrivals = some t ∧
      (Clean t.log ↔ ∀ before a, before ++ [a] <+: arrivals → ∀ s,
        (start senderOrg).receiveAll incomingMessage before = some s → s.eh.erased = false →
          a.LastMessage s.eh.senderOrg s.eh.updates (s.eh.pending ++ a.bytes)) := by
  suffices h : ∃ t, (start senderOrg).receiveAll incomingMessage arrivals = some t ∧
      (t.eh.erased = false → Access.erase ∉ t.log) ∧
      (Clean t.log ↔ ∀ before a, before ++ [a] <+: arrivals → ∀ s,
        (start senderOrg).receiveAll incomingMessage before = some s → s.eh.erased = false →
          a.LastMessage s.eh.senderOrg s.eh.updates (s.eh.pending ++ a.bytes)) by
    obtain ⟨t, ht, -, hclean⟩ := h
    exact ⟨t, ht, hclean⟩
  induction arrivals using List.reverseRecOn with
  | nil =>
    refine ⟨start senderOrg, rfl, fun _ ↦ nofun, iff_of_true (clean_of_notMem nofun) ?_⟩
    intro before a hbegin
    simp at hbegin
  | append_singleton arrivals a ih =>
    obtain ⟨s, hs, hlog, hclean⟩ := ih
    have hreceive : (start senderOrg).receiveAll incomingMessage (arrivals ++ [a]) =
        s.receive incomingMessage a := by
      unfold receiveAll at hs ⊢
      simp [List.foldlM_append, hs]
    rw [hreceive]
    cases hlive : s.eh.erased with
    | true =>
      refine ⟨s, by simp [receive, hlive], by simp [hlive], hclean.trans ?_⟩
      constructor
      · intro h before a' hbegin s' hs' hlive'
        rcases List.prefix_concat_iff.mp hbegin with heq | hbegin
        · obtain ⟨rfl, -⟩ := List.append_inj' heq rfl
          rw [hs] at hs'
          cases hs'
          rw [hlive] at hlive'
          cases hlive'
        · exact h before a' hbegin s' hs' hlive'
      · intro h before a' hbegin
        exact h before a' (hbegin.trans (List.prefix_append _ _))
    | false =>
      obtain ⟨t, ht, hlog', hclean'⟩ := receive_clean (a := a) hmoves s hlive (hlog hlive)
      refine ⟨t, ht, hlog', hclean'.trans ?_⟩
      constructor
      · intro h before a' hbegin s' hs' hlive'
        rcases List.prefix_concat_iff.mp hbegin with heq | hbegin
        · obtain ⟨rfl, ha⟩ := List.append_inj' heq rfl
          rw [hs] at hs'
          cases hs'
          cases ha
          exact h
        · -- no earlier callback erased the handler
          exact hclean.mp (clean_of_notMem (hlog hlive)) before a' hbegin s' hs' hlive'
      · intro h
        exact h arrivals a (List.prefix_refl _) s hs hlive

/-- The bytes that an announced message leaves in the buffer. -/
def moveBytes (inBuf : Buffer) (dataLength : Nat) : Buffer × Buffer :=
  (inBuf.take dataLength, inBuf.drop dataLength)

/-- Two empty messages arrive at once, and the query is closed after the first. -/
def twoCompletions : Reception where
  bytes := (Header.bytes ⟨2, 1, 0, 1, 0⟩) ++ Header.bytes ⟨2, 1, 0, 1, 0⟩
  isClosed updates := !updates.isEmpty
  testsFinished _ := false

theorem receiveAll_clean_iff_twoCompletions :
    ∃ t, (start 1).receiveAll moveBytes [twoCompletions] = some t ∧
      (Clean t.log ↔ ∀ before a, before ++ [a] <+: [twoCompletions] → ∀ s,
        (start 1).receiveAll moveBytes before = some s → s.eh.erased = false →
          a.LastMessage s.eh.senderOrg s.eh.updates (s.eh.pending ++ a.bytes)) :=
  receiveAll_clean_iff moveBytes (fun _ _ _ ↦ rfl) 1 [twoCompletions]

/-- The erased handler is read for the second message. -/
theorem twoCompletions_readErased :
    let update : Update := ⟨1, 1, [], 0, 1, 2⟩
    ((start 1).receiveAll moveBytes [twoCompletions]).map (·.log) =
        some [.read, .dispatch update, .erase, .write, .read] ∧
      ¬ ∀ t, (start 1).receiveAll moveBytes [twoCompletions] = some t → Clean t.log := by
  intro update
  have hlog : ((start 1).receiveAll moveBytes [twoCompletions]).map (·.log) =
      some [.read, .dispatch update, .erase, .write, .read] := by decide
  refine ⟨hlog, ?_⟩
  intro h
  obtain ⟨t, ht, hlog⟩ := Option.map_eq_some_iff.mp hlog
  have hclean := h t ht .read
  simp [hlog, afterErase] at hclean

end Reading
end Safrn.Net
