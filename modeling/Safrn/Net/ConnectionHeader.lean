import Mathlib.Data.List.Induction
import Safrn.Net.Framing
import Safrn.Net.QueryId
import Safrn.Net.Startup

/-!
# Reading the header of a new connection

Models `readConnectionHeaderHandler` of `network/NewConnectionHandler.cpp:153-367` with the
constants of `NewConnectionHandler.h:68-80`, and `readQueryJsonHandler` and
`changeToEventHandlerCallback`, to which it hands the connection. The bytes of a connection arrive
in any pieces, and between two pieces the server may do anything.
-/

namespace Safrn.Net

open Safrn.Base

/-- The constant of a connection header; it is unset at first (`CONNHDR_CONST_UNINIT`). -/
inductive ConnHdr
  | delivery
  | distribution
  | greeting
deriving DecidableEq

namespace ConnHdr

/-- `CONNHDR_CONST_DELIVERY`, `CONNHDR_CONST_DISTRIBUTION` and `CONNHDR_CONST_GREETING`. -/
def byte : ConnHdr → BitVec 8
  | .delivery => 0x00
  | .distribution => 0x01
  | .greeting => 0x02

/-- The constant that a byte stands for. -/
def ofByte (b : BitVec 8) : Option ConnHdr :=
  if b = delivery.byte then some .delivery
  else if b = distribution.byte then some .distribution
  else if b = greeting.byte then some .greeting
  else none

/-- The length of the header behind the constant. -/
def remainder : ConnHdr → Nat
  | .delivery => 16 * 2 + 4 + 8
  | .distribution => 16 * 3 + 4 + 8
  | .greeting => 16 * 3 + 8

theorem ofByte_byte (hdr : ConnHdr) : ofByte hdr.byte = some hdr := by
  cases hdr <;> rfl

theorem byte_of_ofByte {b : BitVec 8} {hdr : ConnHdr} (h : ofByte b = some hdr) :
    hdr.byte = b := by
  unfold ofByte at h
  split at h
  · next hb => rw [← Option.some.inj h, hb]
  · split at h
    · next hb => rw [← Option.some.inj h, hb]
    · split at h
      · next hb => rw [← Option.some.inj h, hb]
      · cases h

end ConnHdr

/-- The fields of a connection header; a greeting has no query. -/
structure ConnectionHeader where
  queryId : QueryId
  sender : Dbuid
  queryLen : Nat

/-- Step 3: parse the header. -/
def parseHeader (hdr : ConnHdr) (inBuf : Buffer) : Option (ConnectionHeader × Buffer) := do
  let (studyId, inBuf) ← read 16 inBuf
  let (analyst, inBuf) ← read 16 inBuf
  let (queryId, inBuf) ← read 8 inBuf
  let queryId : QueryId := { studyId, analyst, queryId }
  match hdr with
  | .delivery =>
    let (queryLen, inBuf) ← read 4 inBuf
    some ({ queryId, sender := analyst, queryLen := queryLen.toNat }, inBuf)
  | .distribution =>
    let (sender, inBuf) ← read 16 inBuf
    let (queryLen, inBuf) ← read 4 inBuf
    some ({ queryId, sender, queryLen := queryLen.toNat }, inBuf)
  | .greeting =>
    let (sender, inBuf) ← read 16 inBuf
    some ({ queryId, sender, queryLen := 0 }, inBuf)

/-- The peer of an organization. -/
def Study.find? (study : Study) (orgId : Dbuid) : Option Peer :=
  study.peers.find? fun peer ↦ peer.organizationId = orgId

/-- `Peer::isAnalyst`. -/
def Peer.isAnalyst (peer : Peer) : Bool := peer.hasRole roleAnalyst

/-- The context of a query handler: its study, and how far its startup is. -/
structure QueryContext where
  study : Study
  startup : StartupState

/-- The queries of a server, with the contexts of all handlers created. -/
structure Server where
  queries : Queries
  contexts : Nat → QueryContext

namespace Server

/-- Step 6: the handler of a query, which is created for the study if there is none. -/
def assure (s : Server) (id : QueryId) (study : Study) : QueryHandlerRef × Server :=
  match s.queries.handler id with
  | some qh => (qh, s)
  | none => (⟨id, s.queries.created⟩,
      { queries := s.queries.assure id
        contexts := Function.update s.contexts s.queries.created ⟨study, StartupQuery.start⟩ })

/-- The context in which a query is going to be handled. -/
def context (s : Server) (id : QueryId) (study : Study) : QueryContext :=
  match s.queries.handler id with
  | some qh => s.contexts qh.address
  | none => ⟨study, StartupQuery.start⟩

end Server

/-- Who reads from a connection after a callback. -/
inductive Connection
  /-- `readConnectionHeaderHandler`, for more of the header. -/
  | header (hdr : Option ConnHdr)
  /-- `readQueryJsonHandler`, for more of the query. -/
  | query (sendQueries : Bool) (length : Nat) (sender : Dbuid)
  /-- `readEventHandler`. -/
  | events (sender : Dbuid)
  /-- Nobody: the query was read and distributed, and the connection is closed. -/
  | delivered
  /-- Nobody: the connection was turned away and closed. -/
  | rejected
  /-- Nobody: the query was erased, and the connection stays open. -/
  | abandoned
  /-- An exception left the callback, or it read a peer that is not there. -/
  | escaped
deriving DecidableEq

/-- A connection, its input and its server after a callback. -/
structure Callback where
  connection : Connection
  inBuf : Buffer
  server : Server

/-- `NewConnectionHandler`, and what a callback gets from elsewhere: whether the connection's
certificate is that of a peer, the verticals of a query's JSON if it is valid and allowed by the
study, and whether a socket for a peer can be started. -/
structure NewConnectionHandler where
  orgId : Dbuid
  studies : Dbuid → Option Study
  certified : Peer → Bool
  readQuery : Study → Buffer → Option (List Nat)
  startClientSocket : Dbuid → Bool

namespace NewConnectionHandler

variable (M : NewConnectionHandler)

/-- A query of the study, as its startup sees it. -/
def startupQuery (study : Study) (verticals : List Nat) : StartupQuery where
  study
  orgId := M.orgId
  verticals
  allowable := true

/-- `changeToEventHandlerCallback`: of two connections of a peer the second is closed. -/
def changeToEventHandlerCallback (s : Server) (qh : QueryHandlerRef) (sender : Dbuid)
    (inBuf : Buffer) : Callback :=
  let ctx := s.contexts qh.address
  let startup := (M.startupQuery ctx.study []).changeToEventHandlerCallback ctx.startup sender
  { connection := if sender ∈ ctx.startup.peers then .rejected else .events sender
    inBuf
    server := { s with contexts := Function.update s.contexts qh.address { ctx with startup } } }

/-- `readQueryJsonHandler`, when the whole query is there. -/
def readQueryJsonHandler (s : Server) (qh : QueryHandlerRef) (header : ConnectionHeader)
    (sendQueries : Bool) (inBuf : Buffer) : Callback :=
  let ctx := s.contexts qh.address
  let inStr := inBuf.take header.queryLen
  let inBuf := inBuf.drop header.queryLen
  match M.readQuery ctx.study inStr with
  | none => ⟨.abandoned, inBuf, { s with queries := s.queries.erase qh.queryId }⟩
  | some verticals =>
    let query := M.startupQuery ctx.study verticals
    -- `init_connection` throws for a peer that is connected
    if (query.contacts sendQueries).any fun peer ↦
        ctx.startup.peers.contains peer || !M.startClientSocket peer then
      ⟨.escaped, inBuf, s⟩
    else
      let startup := query.readQueryJsonHandler ctx.startup header.sender sendQueries
      { connection :=
          if sendQueries then .delivered
          else if header.sender ∈ ctx.startup.peers then .rejected
          else .events header.sender
        inBuf
        server :=
          { s with contexts := Function.update s.contexts qh.address { ctx with startup } } }

/-- Steps 6 and 7: find or create the query's handler and hand the connection over. -/
def accept (s : Server) (study : Study) (hdr : ConnHdr) (header : ConnectionHeader)
    (inBuf : Buffer) : Callback :=
  let (qh, s) := s.assure header.queryId study
  -- the log line reads the sender's name from the study of the handler
  match (s.contexts qh.address).study.find? header.sender with
  | none => ⟨.escaped, inBuf, s⟩
  | some _ =>
    if hdr = .greeting then M.changeToEventHandlerCallback s qh header.sender inBuf
    else if header.queryLen ≤ inBuf.length then
      M.readQueryJsonHandler s qh header (hdr == .delivery) inBuf
    else ⟨.query (hdr == .delivery) header.queryLen header.sender, inBuf, s⟩

/-- Steps 4 and 5: verify the ids of the header and the certificate of the sender. -/
def verify (s : Server) (hdr : ConnHdr) (header : ConnectionHeader) (inBuf : Buffer) : Callback :=
  match M.studies header.queryId.studyId with
  | none => ⟨.rejected, inBuf, s⟩
  | some study =>
    match study.find? header.queryId.analyst with
    | none => ⟨.escaped, inBuf, s⟩ -- `peers.at` throws
    | some analyst =>
      if analyst.isAnalyst = false then ⟨.rejected, inBuf, s⟩
      else
        match study.find? header.sender with
        | none => ⟨.rejected, inBuf, s⟩
        | some peer =>
          if M.certified peer then M.accept s study hdr header inBuf else ⟨.rejected, inBuf, s⟩

/-- Steps 2 and 3: wait for the remainder of the header and parse it. -/
def readRemainder (s : Server) (hdr : ConnHdr) (inBuf : Buffer) : Callback :=
  if inBuf.length < hdr.remainder then ⟨.header (some hdr), inBuf, s⟩
  else
    match parseHeader hdr inBuf with
    | none => ⟨.escaped, inBuf, s⟩
    | some (header, inBuf) => M.verify s hdr header inBuf

/-- `readConnectionHeaderHandler`, which reads the header constant once a further byte is
there. -/
def readConnectionHeaderHandler (s : Server) (hdr : Option ConnHdr) (inBuf : Buffer) : Callback :=
  match hdr, inBuf with
  | some hdr, inBuf => M.readRemainder s hdr inBuf
  | none, constant :: next :: inBuf =>
    match ConnHdr.ofByte constant with
    | some hdr => M.readRemainder s hdr (next :: inBuf)
    | none => ⟨.rejected, next :: inBuf, s⟩
  | none, inBuf => ⟨.header none, inBuf, s⟩

/-- The bytes of a connection that its reader has taken or is going to take. -/
def pending (hdr : Option ConnHdr) (inBuf : Buffer) : Buffer :=
  hdr.elim [] (fun hdr ↦ [hdr.byte]) ++ inBuf

/-- What a callback has to do with the bytes sent so far: keep them all and wait, accept, or
reject and leave the queries as they were. -/
def Handled (sent : Buffer) (s : Server) (r : Callback) : Prop :=
  match r.connection with
  | .header hdr => pending hdr r.inBuf = sent ∧ r.server = s
  | .query _ _ _ => True
  | .events _ => True
  | .delivered => True
  | .rejected => r.server.queries = s.queries
  | .abandoned => False
  | .escaped => False

/-- Bytes arrive while the server is in some state. -/
structure Arrival where
  server : Server
  bytes : Buffer

/-- All bytes that have arrived. -/
def sent (arrivals : List Arrival) : Buffer := arrivals.flatMap (·.bytes)

/-- The next callback, while the header is read. -/
def receive (c : Connection × Buffer) (a : Arrival) : Connection × Buffer :=
  match c.1 with
  | .header hdr =>
    let r := M.readConnectionHeaderHandler a.server hdr (c.2 ++ a.bytes)
    (r.connection, r.inBuf)
  | _ => c

/-- A new connection after some arrivals. -/
def after (arrivals : List Arrival) : Connection × Buffer :=
  arrivals.foldl M.receive (.header none, [])

/-- Every callback handles what was sent so far. -/
def Total (arrivals : List Arrival) : Prop :=
  ∀ before a, before ++ [a] <+: arrivals → ∀ hdr inBuf, M.after before = (.header hdr, inBuf) →
    Handled (sent (before ++ [a])) a.server
      (M.readConnectionHeaderHandler a.server hdr (inBuf ++ a.bytes))

/-- The bytes are the beginning of a header. -/
def Incomplete : Buffer → Prop
  | constant :: next :: inBuf =>
    ∃ hdr, ConnHdr.ofByte constant = some hdr ∧ (next :: inBuf).length < hdr.remainder
  | _ => True

/-- The header that the bytes begin with, and what follows it. -/
def firstHeader : Buffer → Option (ConnHdr × ConnectionHeader × Buffer)
  | constant :: next :: inBuf => do
    let hdr ← ConnHdr.ofByte constant
    let (header, inBuf) ← parseHeader hdr (next :: inBuf)
    some (hdr, header, inBuf)
  | _ => none

/-- The header passes the checks of steps 4 and 5. -/
def Verified (study : Study) (header : ConnectionHeader) : Prop :=
  (∃ analyst, study.find? header.queryId.analyst = some analyst ∧ analyst.isAnalyst = true) ∧
    ∃ peer, study.find? header.sender = some peer ∧ M.certified peer = true

/-- The query is valid and allowed, and its peers can be dialled. -/
def Deliverable (ctx : QueryContext) (sendQueries : Bool) (inStr : Buffer) : Prop :=
  ∃ verticals, M.readQuery ctx.study inStr = some verticals ∧
    ∀ peer ∈ (M.startupQuery ctx.study verticals).contacts sendQueries,
      peer ∉ ctx.startup.peers ∧ M.startClientSocket peer = true

/-- A whole header that names a known study names an analyst that the study has; and if the
header is verified, the study of the query's handler has the sender, and a query that is there
can be delivered. -/
def Safe (s : Server) (sent : Buffer) : Prop :=
  ∀ hdr header inBuf study, firstHeader sent = some (hdr, header, inBuf) →
    M.studies header.queryId.studyId = some study →
      (study.find? header.queryId.analyst).isSome ∧
        (M.Verified study header →
          ((s.context header.queryId study).study.find? header.sender).isSome ∧
            (hdr ≠ .greeting → header.queryLen ≤ inBuf.length →
              M.Deliverable (s.context header.queryId study) (hdr == .delivery)
                (inBuf.take header.queryLen)))

variable {M} {s : Server}

section

variable {sent inBuf : Buffer} {t : Server} {hdr : Option ConnHdr} {sendQueries : Bool}
  {length : Nat} {sender : Dbuid}

@[simp] theorem handled_header :
    Handled sent s ⟨.header hdr, inBuf, t⟩ ↔ pending hdr inBuf = sent ∧ t = s := Iff.rfl

@[simp] theorem handled_query : Handled sent s ⟨.query sendQueries length sender, inBuf, t⟩ :=
  trivial

@[simp] theorem handled_events : Handled sent s ⟨.events sender, inBuf, t⟩ := trivial

@[simp] theorem handled_delivered : Handled sent s ⟨.delivered, inBuf, t⟩ := trivial

@[simp] theorem handled_rejected :
    Handled sent s ⟨.rejected, inBuf, t⟩ ↔ t.queries = s.queries := Iff.rfl

@[simp] theorem not_handled_abandoned : ¬ Handled sent s ⟨.abandoned, inBuf, t⟩ := id

@[simp] theorem not_handled_escaped : ¬ Handled sent s ⟨.escaped, inBuf, t⟩ := id

end

/-- A parser that begins with an integer needs its bytes, and those for the rest. -/
private theorem isSome_read_bind {α : Type} {n m : Nat} {f : BitVec (8 * n) × Buffer → Option α}
    (hf : ∀ value inBuf, (f (value, inBuf)).isSome = true ↔ m ≤ inBuf.length) (inBuf : Buffer) :
    ((read n inBuf).bind f).isSome = true ↔ n + m ≤ inBuf.length := by
  unfold read remove
  split
  · next h =>
    simp only [Option.map_some, Option.bind_some, hf, List.length_drop]
    omega
  · next h =>
    simp only [Option.map_none, Option.bind_none, Option.isSome_none, Bool.false_eq_true,
      false_iff]
    omega

/-- A header can be parsed when all of it is there. -/
private theorem parseHeader_isSome (hdr : ConnHdr) (inBuf : Buffer) :
    (parseHeader hdr inBuf).isSome = true ↔ hdr.remainder ≤ inBuf.length := by
  cases hdr with
  | delivery =>
    apply isSome_read_bind (n := 16) (m := 16 + (8 + (4 + 0)))
    intro studyId
    apply isSome_read_bind
    intro analyst
    apply isSome_read_bind
    intro queryId
    apply isSome_read_bind
    intro queryLen inBuf
    simp
  | distribution =>
    apply isSome_read_bind (n := 16) (m := 16 + (8 + (16 + (4 + 0))))
    intro studyId
    apply isSome_read_bind
    intro analyst
    apply isSome_read_bind
    intro queryId
    apply isSome_read_bind
    intro sender
    apply isSome_read_bind
    intro queryLen inBuf
    simp
  | greeting =>
    apply isSome_read_bind (n := 16) (m := 16 + (8 + (16 + 0)))
    intro studyId
    apply isSome_read_bind
    intro analyst
    apply isSome_read_bind
    intro queryId
    apply isSome_read_bind
    intro sender inBuf
    simp

theorem assure_context (s : Server) (id : QueryId) (study : Study) :
    (s.assure id study).2.contexts (s.assure id study).1.address = s.context id study := by
  unfold Server.assure Server.context
  split <;> simp

/-- A handler with a connected peer is not a new one. -/
theorem assure_queries {id : QueryId} {study : Study} {peer : Dbuid}
    (h : peer ∈ (s.context id study).startup.peers) :
    (s.assure id study).2.queries = s.queries := by
  unfold Server.assure
  unfold Server.context at h
  split
  · rfl
  · next hnone =>
    simp [hnone, StartupQuery.start] at h

/-- A second connection of a peer is closed, and its handler was there before. -/
private theorem handled_changeToEventHandlerCallback {sent : Buffer} {s' : Server}
    {qh : QueryHandlerRef} {sender : Dbuid}
    (hqueries : sender ∈ (s'.contexts qh.address).startup.peers → s'.queries = s.queries)
    (inBuf : Buffer) : Handled sent s (M.changeToEventHandlerCallback s' qh sender inBuf) := by
  unfold changeToEventHandlerCallback
  by_cases hmem : sender ∈ (s'.contexts qh.address).startup.peers
  · simp [hmem, hqueries hmem]
  · simp [hmem]

/-- Reading a query ends well when it can be delivered. -/
private theorem handled_readQueryJsonHandler {sent : Buffer} {s' : Server}
    {qh : QueryHandlerRef} {header : ConnectionHeader}
    (hqueries : header.sender ∈ (s'.contexts qh.address).startup.peers → s'.queries = s.queries)
    (sendQueries : Bool) (inBuf : Buffer) :
    Handled sent s (M.readQueryJsonHandler s' qh header sendQueries inBuf) ↔
      M.Deliverable (s'.contexts qh.address) sendQueries (inBuf.take header.queryLen) := by
  unfold readQueryJsonHandler Deliverable
  dsimp only
  split
  · next hread => simp [hread]
  · next verticals hread =>
    simp only [hread, Option.some.injEq, exists_eq_left']
    split
    · next hany =>
      obtain ⟨peer, hpeer, hbad⟩ := List.any_eq_true.mp hany
      simp only [not_handled_escaped, false_iff]
      intro h
      have hgood := h peer hpeer
      simp [hgood.1, hgood.2] at hbad
    · next hany =>
      have hgood : ∀ peer ∈ (M.startupQuery (s'.contexts qh.address).study verticals).contacts
          sendQueries,
          peer ∉ (s'.contexts qh.address).startup.peers ∧ M.startClientSocket peer = true := by
        intro peer hpeer
        simpa using fun h ↦ hany (List.any_eq_true.mpr ⟨peer, hpeer, h⟩)
      apply iff_of_true _ hgood
      cases sendQueries with
      | true => simp
      | false =>
        by_cases hmem : header.sender ∈ (s'.contexts qh.address).startup.peers
        · simp [hmem, hqueries hmem]
        · simp [hmem]

/-- Accepting ends well when the handler's study has the sender, and a query that is there can be
delivered. -/
private theorem handled_accept (sent : Buffer) (study : Study) (hdr : ConnHdr)
    (header : ConnectionHeader) (inBuf : Buffer) :
    Handled sent s (M.accept s study hdr header inBuf) ↔
      ((s.context header.queryId study).study.find? header.sender).isSome ∧
        (hdr ≠ .greeting → header.queryLen ≤ inBuf.length →
          M.Deliverable (s.context header.queryId study) (hdr == .delivery)
            (inBuf.take header.queryLen)) := by
  have hctx := assure_context s header.queryId study
  have hqueries : header.sender ∈ (s.context header.queryId study).startup.peers →
      (s.assure header.queryId study).2.queries = s.queries := assure_queries
  rw [← hctx] at hqueries ⊢
  unfold accept
  generalize s.assure header.queryId study = p at hqueries ⊢
  obtain ⟨qh, s'⟩ := p
  dsimp only
  split
  · next hfind => simp [hfind]
  · next hfind =>
    simp only [hfind, Option.isSome_some, true_and]
    by_cases hgreet : hdr = .greeting
    · simp only [hgreet, ↓reduceIte, ne_eq, not_true_eq_false, false_implies, iff_true]
      exact handled_changeToEventHandlerCallback hqueries inBuf
    · simp only [hgreet, ↓reduceIte, ne_eq, not_false_eq_true, true_implies]
      by_cases hlen : header.queryLen ≤ inBuf.length
      · simp only [hlen, ↓reduceIte, true_implies]
        exact handled_readQueryJsonHandler hqueries (hdr == .delivery) inBuf
      · simp [hlen]

/-- The header is verified without an exception when the study has the analyst. -/
private theorem handled_verify (sent : Buffer) (hdr : ConnHdr) (header : ConnectionHeader)
    (inBuf : Buffer) :
    Handled sent s (M.verify s hdr header inBuf) ↔
      ∀ study, M.studies header.queryId.studyId = some study →
        (study.find? header.queryId.analyst).isSome ∧
          (M.Verified study header →
            ((s.context header.queryId study).study.find? header.sender).isSome ∧
              (hdr ≠ .greeting → header.queryLen ≤ inBuf.length →
                M.Deliverable (s.context header.queryId study) (hdr == .delivery)
                  (inBuf.take header.queryLen))) := by
  unfold verify
  cases hstudy : M.studies header.queryId.studyId with
  | none => simp
  | some study =>
    simp only [Option.some.injEq, forall_eq']
    unfold Verified
    cases hanalyst : study.find? header.queryId.analyst with
    | none => simp
    | some analyst =>
      simp only [Option.isSome_some, true_and, Option.some.injEq, exists_eq_left']
      cases hrole : analyst.isAnalyst with
      | false => simp
      | true =>
        cases hpeer : study.find? header.sender with
        | none => simp
        | some peer =>
          cases hcert : M.certified peer with
          | false => simp [hcert]
          | true => simpa [hcert] using handled_accept sent study hdr header inBuf

/-- With all bytes still in the input, a callback handles them exactly when they are safe. -/
private theorem handled_iff (s : Server) (sent : Buffer) :
    Handled sent s (M.readConnectionHeaderHandler s none sent) ↔ M.Safe s sent := by
  unfold readConnectionHeaderHandler Safe
  match sent with
  | [] => simp [pending, firstHeader]
  | [constant] => simp [pending, firstHeader]
  | constant :: next :: inBuf =>
    cases hbyte : ConnHdr.ofByte constant with
    | none => simp [firstHeader, hbyte]
    | some hdr =>
      simp only [firstHeader, hbyte, readRemainder]
      have hsome := parseHeader_isSome hdr (next :: inBuf)
      cases hparse : parseHeader hdr (next :: inBuf) with
      | none =>
        rw [hparse] at hsome
        have hlt : (next :: inBuf).length < hdr.remainder := by simpa using hsome
        simp only [hlt, ↓reduceIte]
        simp [hparse, pending, ConnHdr.byte_of_ofByte hbyte]
      | some p =>
        obtain ⟨header, rest⟩ := p
        rw [hparse] at hsome
        have hle : ¬ (next :: inBuf).length < hdr.remainder := by simpa using hsome
        simp only [hle, ↓reduceIte]
        rw [handled_verify]
        simp only [hparse, Option.bind_eq_bind, Option.bind_some, Option.some.injEq,
          Prod.mk.injEq]
        constructor
        · rintro h hdr' header' rest' study ⟨rfl, rfl, rfl⟩
          exact h study
        · intro h study
          exact h hdr header rest study ⟨rfl, rfl, rfl⟩

/-- A reader that waits: it has taken the constant or nothing, and the header is incomplete. -/
structure Waits (sent : Buffer) (hdr : Option ConnHdr) (inBuf : Buffer) : Prop where
  kept : pending hdr inBuf = sent
  incomplete : Incomplete sent
  next : hdr.isSome → inBuf ≠ []

/-- A callback takes its bytes the way it takes them all at once. -/
private theorem Waits.handler {sent inBuf : Buffer} {hdr : Option ConnHdr}
    (h : Waits sent hdr inBuf) (s : Server) (bytes : Buffer) :
    M.readConnectionHeaderHandler s hdr (inBuf ++ bytes) =
      M.readConnectionHeaderHandler s none (sent ++ bytes) := by
  rw [← h.kept]
  cases hdr with
  | none => simp [pending]
  | some hdr =>
    cases inBuf with
    | nil => exact absurd rfl (h.next rfl)
    | cons next inBuf => simp [pending, readConnectionHeaderHandler, ConnHdr.ofByte_byte]

/-- A part of an incomplete header is incomplete. -/
private theorem Incomplete.of_append {sent bytes : Buffer} (h : Incomplete (sent ++ bytes)) :
    Incomplete sent := by
  match sent with
  | [] => trivial
  | [constant] => trivial
  | constant :: next :: inBuf =>
    obtain ⟨hdr, hbyte, hlt⟩ := h
    refine ⟨hdr, hbyte, ?_⟩
    have hle : (next :: inBuf ++ bytes).length = (next :: inBuf).length + bytes.length :=
      List.length_append
    exact Nat.lt_of_le_of_lt (hle ▸ Nat.le_add_right _ _) hlt

/-- Whatever becomes of a header that is accepted, nobody waits for it any more. -/
private theorem accept_ne_header (study : Study) (hdr : ConnHdr) (header : ConnectionHeader)
    (inBuf : Buffer) (hdr' : Option ConnHdr) :
    (M.accept s study hdr header inBuf).connection ≠ .header hdr' := by
  unfold accept
  dsimp only
  split
  · simp
  · split
    · unfold changeToEventHandlerCallback
      dsimp only
      split <;> simp
    · split
      · unfold readQueryJsonHandler
        dsimp only
        split
        · simp
        · split
          · simp
          · dsimp only
            split
            · simp
            · split <;> simp
      · simp

private theorem verify_ne_header (hdr : ConnHdr) (header : ConnectionHeader) (inBuf : Buffer)
    (hdr' : Option ConnHdr) : (M.verify s hdr header inBuf).connection ≠ .header hdr' := by
  unfold verify
  split
  · simp
  · split
    · simp
    · split
      · simp
      · split
        · simp
        · split
          · exact accept_ne_header _ hdr header inBuf hdr'
          · simp

/-- The reader waits after a callback while the header is incomplete, and no longer. -/
private theorem waits_callback (s : Server) (sent : Buffer) :
    let r := M.readConnectionHeaderHandler s none sent
    (Incomplete sent → ∃ hdr, r.connection = .header hdr ∧ Waits sent hdr r.inBuf) ∧
      (¬ Incomplete sent → ∀ hdr, r.connection ≠ .header hdr) := by
  match sent with
  | [] => exact ⟨fun h ↦ ⟨none, rfl, rfl, h, nofun⟩, fun h ↦ absurd trivial h⟩
  | [constant] => exact ⟨fun h ↦ ⟨none, rfl, rfl, h, nofun⟩, fun h ↦ absurd trivial h⟩
  | constant :: next :: inBuf =>
    dsimp only [readConnectionHeaderHandler]
    cases hbyte : ConnHdr.ofByte constant with
    | none =>
      constructor
      · rintro ⟨hdr, hsome, -⟩
        rw [hbyte] at hsome
        cases hsome
      · intro _ hdr
        simp
    | some hdr =>
      by_cases hlt : (next :: inBuf).length < hdr.remainder
      · have hincomplete : Incomplete (constant :: next :: inBuf) := ⟨hdr, hbyte, hlt⟩
        simp only [readRemainder, hlt, ↓reduceIte]
        constructor
        · intro _
          refine ⟨some hdr, rfl, ?_, hincomplete, nofun⟩
          simp [pending, ConnHdr.byte_of_ofByte hbyte]
        · intro h
          exact absurd hincomplete h
      · simp only [readRemainder, hlt, ↓reduceIte]
        constructor
        · rintro ⟨hdr', hsome, hlt'⟩
          rw [hbyte] at hsome
          cases hsome
          exact absurd hlt' hlt
        · intro _ hdr'
          split
          · simp
          · next header rest _ => exact verify_ne_header hdr header rest hdr'

private theorem sent_append (arrivals : List Arrival) (a : Arrival) :
    sent (arrivals ++ [a]) = sent arrivals ++ a.bytes := by
  simp [sent]

private theorem after_append (arrivals : List Arrival) (a : Arrival) :
    M.after (arrivals ++ [a]) = M.receive (M.after arrivals) a := by
  simp [after]

/-- However the bytes arrive, the connection waits exactly while the header is incomplete. -/
theorem after_waits (arrivals : List Arrival) :
    (Incomplete (sent arrivals) → ∃ hdr, (M.after arrivals).1 = .header hdr ∧
        Waits (sent arrivals) hdr (M.after arrivals).2) ∧
      (¬ Incomplete (sent arrivals) → ∀ hdr, (M.after arrivals).1 ≠ .header hdr) := by
  induction arrivals using List.reverseRecOn with
  | nil => exact ⟨fun h ↦ ⟨none, rfl, rfl, h, nofun⟩, fun h ↦ absurd trivial h⟩
  | append_singleton arrivals a ih =>
    rw [after_append, sent_append]
    by_cases hincomplete : Incomplete (sent arrivals)
    · obtain ⟨hdr, hheader, hwaits⟩ := ih.1 hincomplete
      simp only [receive, hheader]
      rw [hwaits.handler]
      exact waits_callback a.server (sent arrivals ++ a.bytes)
    · constructor
      · intro h
        exact absurd h.of_append hincomplete
      · intro _ hdr
        have hne := ih.2 hincomplete
        unfold receive
        split
        · next hdr' hheader => exact absurd hheader (hne hdr')
        · exact hne hdr

/-- A study with one recipient. -/
def recipientOnly : NewConnectionHandler where
  orgId := 2
  studies id := if id = 1 then some ⟨[⟨1, roleRecipient, 0⟩], List.pairwise_singleton _ _⟩ else none
  certified _ := true
  readQuery _ _ := none
  startClientSocket _ := true

/-- The recipient's greeting names an analyst that the study does not have. -/
def strangeGreeting : Arrival where
  server := ⟨Queries.start, fun _ ↦ ⟨⟨[], List.Pairwise.nil⟩, StartupQuery.start⟩⟩
  bytes := ConnHdr.greeting.byte ::
    (bigEndian 16 1 ++ bigEndian 16 7 ++ bigEndian 8 0 ++ bigEndian 16 1)

end NewConnectionHandler
end Safrn.Net
