import Safrn.Base.Machine
import Safrn.Net.Study

/-!
# The startup of a query at one server

Models `queryReady`, `changeToEventHandlerCallback`, `init_connection` and
`readQueryJsonHandler` of `network/NewConnectionHandler.cpp:38-108,414-476,527-556` for one
query at one server. Connections come in with a greeting or with the query, and those that the
server dialled are established, in any order. `QueryHandler::init` is recorded with what is
stored when it is called.
-/

namespace Safrn.Net

open Safrn.Base

/-- What the query fixes at the server: the study, its own id, the verticals that the query's
JSON names, and whether the JSON is valid and allowed. -/
structure StartupQuery where
  study : Study
  orgId : Dbuid
  verticals : List Nat
  allowable : Bool

/-- A call of `QueryHandler::init`: whether the query was stored, and the connected peers. -/
structure InitCall where
  stored : Bool
  peers : List Dbuid
deriving DecidableEq

/-- `context.query` and `context.peers`, the dialled connections that are not established, the
calls of `init`, and whether the handler was erased or an exception left its callback. -/
structure StartupState where
  query : Option (List Nat)
  peers : List Dbuid
  dialled : List Dbuid
  inits : List InitCall
  halted : Bool
deriving DecidableEq

/-- A greeting arrives, the query's JSON is read from a connection (of the analyst, or of the
proxy), or a dialled connection is established. -/
inductive StartupAction
  | greeting (sender : Dbuid)
  | readQuery (sender : Dbuid) (sendQueries : Bool)
  | connected (peer : Dbuid)

namespace StartupQuery

variable (M : StartupQuery)

/-- `queryReady` returns because of the peer. -/
def missing (s : StartupState) (peer : Peer) : Bool :=
  if peer.organizationId = M.orgId then false
  else
    peer.isRecipient && !s.peers.contains peer.organizationId ||
      (peer.isDealer && !s.peers.contains peer.organizationId ||
        peer.isDataowner && (s.query.getD []).any fun verticalIdx ↦
          peer.verticalIdx == verticalIdx && !s.peers.contains peer.organizationId)

/-- `queryReady`. -/
def queryReady (s : StartupState) : StartupState :=
  if M.study.peers.any (M.missing s) then s
  else { s with inits := s.inits ++ [⟨s.query.isSome, s.peers⟩] }

/-- `changeToEventHandlerCallback`. -/
def changeToEventHandlerCallback (s : StartupState) (sender : Dbuid) : StartupState :=
  if sender ∈ s.peers then s else M.queryReady { s with peers := s.peers ++ [sender] }

/-- Whom the server dials on reading the query. -/
def contacts (sendQueries : Bool) : List Dbuid :=
  if sendQueries then M.study.sendQueryToPeers M.verticals M.orgId
  else M.study.sendConnectionsToPeers M.verticals M.orgId

/-- `readQueryJsonHandler`; dialling a peer that is connected throws. -/
def readQueryJsonHandler (s : StartupState) (sender : Dbuid) (sendQueries : Bool) :
    StartupState :=
  if M.allowable = false then { s with halted := true }
  else
    let s := { s with query := some M.verticals }
    if (M.contacts sendQueries).any (s.peers.contains ·) then { s with halted := true }
    else
      let s := { s with dialled := s.dialled ++ M.contacts sendQueries }
      if sendQueries then s else M.changeToEventHandlerCallback s sender

/-- The next state, if the action can happen; other senders than the study's peers are turned
away. -/
def step (s : StartupState) (a : StartupAction) : Option StartupState :=
  if s.halted then none
  else match a with
    | .greeting sender =>
      if sender ∈ M.study.peers.map (·.organizationId) then
        some (M.changeToEventHandlerCallback s sender)
      else none
    | .readQuery sender sendQueries =>
      if sender ∈ M.study.peers.map (·.organizationId) then
        some (M.readQueryJsonHandler s sender sendQueries)
      else none
    | .connected peer =>
      if peer ∈ s.dialled then
        some (M.changeToEventHandlerCallback { s with dialled := s.dialled.erase peer } peer)
      else none

/-- The handler is new. -/
def start : StartupState := ⟨none, [], [], [], false⟩

/-- The startup of the query. -/
def startup : Machine StartupState StartupAction := .ofStep (· = start) M.step

/-- The peers that the query needs. -/
def Required (q : Dbuid) : Prop :=
  ∃ peer ∈ M.study.peers, peer.organizationId = q ∧ q ≠ M.orgId ∧
    (peer.isRecipient = true ∨ peer.isDealer = true ∨
      peer.isDataowner = true ∧ peer.verticalIdx ∈ M.verticals)

/-- `init` was called at most once, with the query stored and every required peer connected. -/
structure InitOk (s : StartupState) : Prop where
  once : s.inits.length ≤ 1
  stored : ∀ call ∈ s.inits, call.stored = true
  connected : ∀ call ∈ s.inits, ∀ q, M.Required q → q ∈ call.peers

/-- The peer whose connection the action registers. -/
def registers (s : StartupState) : StartupAction → Option Dbuid
  | .greeting sender => some sender
  | .readQuery sender sendQueries =>
    if M.allowable = false ∨ (M.contacts sendQueries).any (s.peers.contains ·) ∨ sendQueries
    then none else some sender
  | .connected peer => some peer

/-- The query is stored before the action registers a connection. -/
def storedFor (s : StartupState) : StartupAction → Bool
  | .readQuery _ _ => true
  | _ => s.query.isSome

/-- A new peer is registered before `init` was called, and while the query is not stored some
other recipient or dealer is still unconnected. -/
def Orderly (s : StartupState) (a : StartupAction) : Prop :=
  ∀ q, M.registers s a = some q → q ∉ s.peers →
    s.inits = [] ∧ (storedFor s a = false → ∃ peer ∈ M.study.peers,
      peer.organizationId ≠ M.orgId ∧ peer.organizationId ≠ q ∧
        peer.organizationId ∉ s.peers ∧ (peer.isRecipient = true ∨ peer.isDealer = true))

instance (s : StartupState) (a : StartupAction) : Decidable (M.Orderly s a) :=
  match h : M.registers s a with
  | none => .isTrue fun q hq ↦ nomatch h.symm.trans hq
  | some sender => decidable_of_iff
    (sender ∉ s.peers → s.inits = [] ∧ (storedFor s a = false → ∃ peer ∈ M.study.peers,
      peer.organizationId ≠ M.orgId ∧ peer.organizationId ≠ sender ∧
        peer.organizationId ∉ s.peers ∧ (peer.isRecipient = true ∨ peer.isDealer = true)))
    ⟨fun hs q hq ↦ by rwa [Option.some.inj (hq.symm.trans h)], fun hs ↦ hs sender h⟩

/-- The startup under orderly schedules. -/
def orderly : Machine StartupState StartupAction := M.startup.restrict M.Orderly

/-- The stored query is the query's, and the only call of `init` found everything in place. -/
structure Inv (s : StartupState) : Prop where
  query : s.query = none ∨ s.query = some M.verticals
  inits : s.inits = [] ∨ s.query.isSome = true ∧
    ∃ peers, s.inits = [⟨true, peers⟩] ∧ (∀ q, M.Required q → q ∈ peers) ∧
      ∀ q ∈ peers, q ∈ s.peers

variable {M}

theorem Inv.initOk {s : StartupState} (h : M.Inv s) : M.InitOk s := by
  rcases h.inits with hnil | ⟨-, peers, hone, hreq, -⟩
  · exact {
      once := by rw [hnil]; exact Nat.zero_le 1
      stored := by rw [hnil]; exact nofun
      connected := by rw [hnil]; exact nofun }
  · have hcall : ∀ call ∈ s.inits, call = ⟨true, peers⟩ := by
      rw [hone]
      exact fun call hc ↦ List.mem_singleton.mp hc
    exact {
      once := by rw [hone]; exact Nat.le_refl 1
      stored := fun call hc ↦ by rw [hcall call hc]
      connected := fun call hc ↦ by rw [hcall call hc]; exact hreq }

private theorem missing_eq_false {s : StartupState} {peer : Peer} :
    M.missing s peer = false ↔ (peer.organizationId ≠ M.orgId →
      (peer.isRecipient = true ∨ peer.isDealer = true ∨
        peer.isDataowner = true ∧ peer.verticalIdx ∈ s.query.getD []) →
      peer.organizationId ∈ s.peers) := by
  unfold missing
  split
  · next h => exact iff_of_true rfl fun hne ↦ absurd h hne
  · next h =>
    by_cases hc : peer.organizationId ∈ s.peers
    · simp [hc]
    · have hany : ((s.query.getD []).any fun verticalIdx ↦ peer.verticalIdx == verticalIdx) =
          decide (peer.verticalIdx ∈ s.query.getD []) := by
        rw [Bool.eq_iff_iff, List.any_eq_true, decide_eq_true_iff]
        exact ⟨fun ⟨v, hv, he⟩ ↦ beq_iff_eq.mp he ▸ hv, fun hv ↦ ⟨_, hv, beq_self_eq_true _⟩⟩
      simp only [List.contains_eq_mem, hc, decide_false, Bool.not_false, Bool.and_true, hany]
      cases peer.isRecipient <;> cases peer.isDealer <;> cases peer.isDataowner <;> simp [h]

/-- `queryReady` calls `init` exactly when no peer that the stored query needs is missing. -/
theorem not_any_missing {s : StartupState} :
    M.study.peers.any (M.missing s) = false ↔ ∀ peer ∈ M.study.peers,
      peer.organizationId ≠ M.orgId →
        (peer.isRecipient = true ∨ peer.isDealer = true ∨
          peer.isDataowner = true ∧ peer.verticalIdx ∈ s.query.getD []) →
        peer.organizationId ∈ s.peers := by
  rw [List.any_eq_false]
  exact forall₂_congr fun peer _ ↦ (Bool.not_eq_true _).to_iff.trans missing_eq_false

private theorem Inv.verticals {s : StartupState} (h : M.Inv s) (hq : s.query.isSome = true) :
    s.query.getD [] = M.verticals := by
  rcases h.query with hnone | hsome
  · rw [hnone] at hq
    cases hq
  · rw [hsome, Option.getD_some]

/-- While some needed peer stays missing, a new connection changes nothing else. -/
private theorem Inv.register_missing {s : StartupState} (h : M.Inv s) {sender : Dbuid}
    (hany : M.study.peers.any (M.missing { s with peers := s.peers ++ [sender] }) = true) :
    M.Inv { s with peers := s.peers ++ [sender] } ∧ s.inits = [] ∧
      (s.query.isSome = false → ∃ peer ∈ M.study.peers,
        peer.organizationId ≠ M.orgId ∧ peer.organizationId ≠ sender ∧
          peer.organizationId ∉ s.peers ∧
          (peer.isRecipient = true ∨ peer.isDealer = true)) := by
  have hmissing : ¬ M.study.peers.any
      (M.missing { s with peers := s.peers ++ [sender] }) = false := by
    rw [hany]
    exact nofun
  rw [not_any_missing] at hmissing
  refine ⟨⟨h.query, ?_⟩, ?_, ?_⟩
  · rcases h.inits with hnil | ⟨hq, peers, hone, hreq, hsub⟩
    · exact .inl hnil
    · exact .inr ⟨hq, peers, hone, hreq, fun q hq ↦ List.mem_append_left _ (hsub q hq)⟩
  · rcases h.inits with hnil | ⟨hq, peers, -, hreq, hsub⟩
    · exact hnil
    · -- everybody was there when `init` was called
      refine absurd (fun peer hpeer hne hrole ↦ ?_) hmissing
      have hrole : peer.isRecipient = true ∨ peer.isDealer = true ∨
          peer.isDataowner = true ∧ peer.verticalIdx ∈ M.verticals := h.verticals hq ▸ hrole
      exact List.mem_append_left _ (hsub _ (hreq _ ⟨peer, hpeer, rfl, hne, hrole⟩))
  · intro hq
    rw [Option.isSome_eq_false_iff, Option.isNone_iff_eq_none] at hq
    by_contra hno
    refine hmissing fun peer hpeer hne hrole ↦ ?_
    have hrole : peer.isRecipient = true ∨ peer.isDealer = true := by
      rcases hrole with hr | hd | ⟨-, hv⟩
      · exact .inl hr
      · exact .inr hd
      · have hv : peer.verticalIdx ∈ s.query.getD [] := hv
        rw [hq] at hv
        cases hv
    by_contra hnot
    have hnot := not_or.mp (mt List.mem_append.mpr hnot)
    exact hno ⟨peer, hpeer, hne, fun he ↦ hnot.2 (List.mem_singleton.mpr he), hnot.1, hrole⟩

/-- Where nobody is missing, `init` is in order exactly when it is the first call and the query is
stored. -/
private theorem Inv.register_ready {s : StartupState} (h : M.Inv s) {sender : Dbuid}
    (hany : M.study.peers.any (M.missing { s with peers := s.peers ++ [sender] }) = false)
    {t : StartupState} (ht : t = { s with
      peers := s.peers ++ [sender]
      inits := s.inits ++ [⟨s.query.isSome, s.peers ++ [sender]⟩] }) :
    (M.InitOk t ↔ s.inits = [] ∧ s.query.isSome = true) ∧ (M.InitOk t → M.Inv t) := by
  have hinits : t.inits = s.inits ++ [⟨s.query.isSome, s.peers ++ [sender]⟩] := by rw [ht]
  have hfirst : M.InitOk t → s.inits = [] ∧ s.query.isSome = true := by
    intro hok
    have hlen := hok.once
    rw [hinits, List.length_append, List.length_singleton] at hlen
    refine ⟨List.eq_nil_of_length_eq_zero (by omega), ?_⟩
    exact hok.stored ⟨s.query.isSome, s.peers ++ [sender]⟩
      (hinits ▸ List.mem_append_right _ (List.mem_singleton_self _))
  have hinv : s.inits = [] ∧ s.query.isSome = true → M.Inv t := by
    rintro ⟨hnil, hq⟩
    refine ⟨ht ▸ h.query, .inr ⟨ht ▸ hq, s.peers ++ [sender], ?_, ?_, fun q hq ↦ ht ▸ hq⟩⟩
    · rw [hinits, hnil, hq, List.nil_append]
    · rintro q ⟨peer, hpeer, rfl, hne, hrole⟩
      exact not_any_missing.mp hany peer hpeer hne (h.verticals hq ▸ hrole)
  exact ⟨⟨hfirst, fun hc ↦ (hinv hc).initOk⟩, fun hok ↦ hinv (hfirst hok)⟩

/-- Registering a connection keeps `init` in order exactly when the peer is connected already, or
`init` was not called and, while no query is stored, a recipient or dealer stays missing. -/
private theorem Inv.register {s : StartupState} (h : M.Inv s) (sender : Dbuid) :
    (M.InitOk (M.changeToEventHandlerCallback s sender) ↔
      (sender ∉ s.peers → s.inits = [] ∧ (s.query.isSome = false → ∃ peer ∈ M.study.peers,
        peer.organizationId ≠ M.orgId ∧ peer.organizationId ≠ sender ∧
          peer.organizationId ∉ s.peers ∧
          (peer.isRecipient = true ∨ peer.isDealer = true)))) ∧
      (M.InitOk (M.changeToEventHandlerCallback s sender) →
        M.Inv (M.changeToEventHandlerCallback s sender)) := by
  unfold changeToEventHandlerCallback
  by_cases hmem : sender ∈ s.peers
  · rw [if_pos hmem]
    exact ⟨iff_of_true h.initOk fun hne ↦ absurd hmem hne, fun _ ↦ h⟩
  rw [if_neg hmem]
  unfold queryReady
  cases hany : M.study.peers.any (M.missing { s with peers := s.peers ++ [sender] }) with
  | true =>
    obtain ⟨hinv, hmissing⟩ := h.register_missing hany
    rw [if_pos rfl]
    exact ⟨iff_of_true hinv.initOk fun _ ↦ hmissing, fun _ ↦ hinv⟩
  | false =>
    obtain ⟨hiff, hinv⟩ := h.register_ready hany rfl
    rw [if_neg Bool.false_ne_true]
    refine ⟨hiff.trans ⟨fun hc _ ↦ ⟨hc.1, fun hq ↦ ?_⟩, fun hc ↦ ⟨(hc hmem).1, ?_⟩⟩, hinv⟩
    · rw [hc.2] at hq
      cases hq
    · -- a recipient or dealer that stays missing would have made `queryReady` return
      by_contra hq
      obtain ⟨peer, hpeer, hne, hns, hnp, hrole⟩ := (hc hmem).2 (Bool.not_eq_true _ ▸ hq)
      have hin := not_any_missing.mp hany peer hpeer hne (hrole.imp_right .inl)
      rcases List.mem_append.mp hin with hin | hin
      · exact hnp hin
      · exact hns (List.mem_singleton.mp hin)

/-- What a step does: it registers a connection, or leaves the calls of `init` as they are. -/
private theorem step_cases {s t : StartupState} {a : StartupAction} (h : M.Inv s)
    (hst : M.step s a = some t) :
    (M.registers s a = none ∧ M.Inv t) ∨
      ∃ s' sender, M.registers s a = some sender ∧ M.Inv s' ∧ s'.peers = s.peers ∧
        s'.inits = s.inits ∧ s'.query.isSome = storedFor s a ∧
        t = M.changeToEventHandlerCallback s' sender := by
  unfold step at hst
  obtain ⟨-, hst⟩ := Option.ite_none_left_eq_some.mp hst
  cases a with
  | greeting sender =>
    obtain ⟨-, ht⟩ := Option.ite_none_right_eq_some.mp hst
    exact .inr ⟨s, sender, rfl, h, rfl, rfl, rfl, (Option.some.inj ht).symm⟩
  | connected peer =>
    obtain ⟨-, ht⟩ := Option.ite_none_right_eq_some.mp hst
    exact .inr ⟨{ s with dialled := s.dialled.erase peer }, peer, rfl, ⟨h.query, h.inits⟩, rfl,
      rfl, rfl, (Option.some.inj ht).symm⟩
  | readQuery sender sendQueries =>
    obtain ⟨-, ht⟩ := Option.ite_none_right_eq_some.mp hst
    rw [← Option.some.inj ht]
    -- the stored query is the query's in any case
    have hinits : s.inits = [] ∨ true = true ∧ ∃ peers, s.inits = [⟨true, peers⟩] ∧
        (∀ q, M.Required q → q ∈ peers) ∧ ∀ q ∈ peers, q ∈ s.peers :=
      h.inits.imp_right fun hi ↦ ⟨rfl, hi.2⟩
    unfold readQueryJsonHandler
    simp only [registers]
    by_cases ha : M.allowable = false
    · rw [if_pos ha, if_pos (.inl ha)]
      exact .inl ⟨rfl, h.query, h.inits⟩
    rw [if_neg ha]
    by_cases hd : (M.contacts sendQueries).any (s.peers.contains ·) = true
    · rw [if_pos hd, if_pos (.inr (.inl hd))]
      exact .inl ⟨rfl, .inr rfl, hinits⟩
    rw [if_neg hd]
    cases sendQueries with
    | true =>
      rw [if_pos (.inr (.inr rfl)), if_pos rfl]
      exact .inl ⟨rfl, .inr rfl, hinits⟩
    | false =>
      rw [if_neg (not_or.mpr ⟨ha, not_or.mpr ⟨hd, Bool.false_ne_true⟩⟩),
        if_neg Bool.false_ne_true]
      exact .inr ⟨{ s with
        query := some M.verticals
        dialled := s.dialled ++ M.contacts false }, sender, rfl, ⟨.inr rfl, hinits⟩, rfl, rfl,
        rfl, rfl⟩

/-- A step from a state of the invariant keeps `init` in order exactly when it is orderly, and
then it keeps the invariant. -/
theorem Inv.step {s t : StartupState} {a : StartupAction} (h : M.Inv s)
    (hst : M.step s a = some t) : (M.InitOk t ↔ M.Orderly s a) ∧ (M.InitOk t → M.Inv t) := by
  rcases step_cases h hst with ⟨hnone, hinv⟩ | ⟨s', sender, hreg, hinv, hpeers, hinits, hq, rfl⟩
  · refine ⟨iff_of_true hinv.initOk fun q hq ↦ ?_, fun _ ↦ hinv⟩
    rw [hnone] at hq
    cases hq
  · obtain ⟨hiff, hkeep⟩ := hinv.register sender
    refine ⟨hiff.trans ?_, hkeep⟩
    rw [hpeers, hinits, hq]
    constructor
    · intro hc q hsome
      rw [hreg] at hsome
      obtain rfl := Option.some.inj hsome
      exact hc
    · intro hc
      exact hc sender hreg

/-- In every state that an orderly schedule reaches, `init` was called at most once, with the
query stored and every required peer connected, and a next step keeps it so if and only if it is
orderly. -/
theorem init_orderly (M : StartupQuery) {s : StartupState} (h : M.orderly.Reachable s) :
    M.InitOk s ∧ ∀ a t, M.step s a = some t → (M.InitOk t ↔ M.Orderly s a) := by
  have hinv : M.Inv s := by
    refine h.invariant ?_ fun _ _ _ hi hs ↦ (hi.step hs.1).2 ((hi.step hs.1).1.mpr hs.2)
    rintro t rfl
    exact ⟨.inl rfl, .inl rfl⟩
  exact ⟨hinv.initOk, fun a t hst ↦ (hinv.step hst).1⟩

end StartupQuery

/-- The startup at organization `3`. Organization `1` is recipient and dealer, and the data of
vertical `0` is with organizations `3`, `4` and the proxy `5`. -/
def smallStartup : StartupQuery where
  study := ⟨[⟨1, roleRecipient ||| roleDealer, 0⟩, ⟨3, roleDataowner, 0⟩, ⟨4, roleDataowner, 0⟩,
    ⟨5, roleDataowner, 0⟩], by decide⟩
  orgId := 3
  verticals := [0]
  allowable := true

/-- With the query first, `init` is called once, for the last connection. -/
theorem init_orderly_smallStartup :
    ∃ s, smallStartup.orderly.Run StartupQuery.start
        [.readQuery 5 false, .greeting 1, .connected 4] s ∧
      s.inits = [⟨true, [5, 1, 4]⟩] ∧ smallStartup.InitOk s := by
  refine ⟨⟨some [0], [5, 1, 4], [5], [⟨true, [5, 1, 4]⟩], false⟩, ?_, rfl, ?_⟩
  · exact Machine.run_restrict_of_execute (by decide)
  · exact (smallStartup.init_orderly ⟨_, _, rfl, Machine.run_restrict_of_execute
      (show Machine.execute _ StartupQuery.start
        [.readQuery 5 false, .greeting 1, .connected 4] = some _ by decide)⟩).1

/-- The greeting of organization `1` overtakes the query: `init` is called without a query, and
again once everybody is connected. -/
theorem initOk_not_invariant :
    ¬ ∀ (M : StartupQuery) (s : StartupState), M.startup.Reachable s → M.InitOk s := by
  intro h
  have hok := h smallStartup
    ⟨some [0], [1, 5, 4], [5], [⟨false, [1]⟩, ⟨true, [1, 5, 4]⟩], false⟩
    ⟨_, _, rfl, Machine.run_of_execute (show Machine.execute smallStartup.step StartupQuery.start
      [.greeting 1, .readQuery 5 false, .connected 4] = some _ by decide)⟩
  exact absurd hok.once (by decide)

end Safrn.Net
