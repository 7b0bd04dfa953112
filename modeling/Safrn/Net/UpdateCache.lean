import Mathlib.Data.List.Basic
import Safrn.Base.Machine
import Safrn.Net.Framing

/-!
# The cache of messages that arrive before a query is initialized

Models `QueryHandler::init`, `chooseRole`, `handleSync`, `handlePayload`, `handleComplete`, `update`
and `sendOutgoingMessages` of `framework/QueryHandler.cpp:32-171`. Handling a message may send
messages, and those for the server itself are handled at once, inside of the call; so the calls
under way are kept on a stack, and the machine takes one of their steps at a time. The fronctocol
managers of the three roles are a parameter.
-/

namespace Safrn.Net

open Safrn.Base

/-- The fronctocol managers, over their states, with the constants of the control block; `none`
stands for an exception. -/
structure Managers (ρ : Type) where
  ctrlblkSync : BitVec 8
  ctrlblkPayload : BitVec 8
  ctrlblkComplete : BitVec 8
  init : Role → ρ → Option (ρ × List OutgoingMessageCache)
  handleSyncMsg : Role → Update → ρ → Option (ρ × List OutgoingMessageCache)
  handlePayloadMsg : Role → Update → ρ → Option (ρ × List OutgoingMessageCache)
  handleCompleteMsg : Role → Update → ρ → Option ρ

/-- A call under way: `sendOutgoingMessages` with the messages that it has still to send, or `init`
before it sets `initialized`, or its loop afterwards. -/
inductive Call
  | sending (msgs : List OutgoingMessageCache)
  | initializing
  | replaying

/-- The message that a server gets from itself. -/
def OutgoingMessageCache.toSelf (omc : OutgoingMessageCache) : Update :=
  { peer := omc.peer, peerRole := omc.peerRole, payload := omc.payload, fronctocolId := omc.id,
    myRole := omc.myRole, controlBlock := omc.control }

/-- A `QueryHandler` with the calls under way and the messages given to `update` and dispatched to
the managers so far. A message may end the process because its role is not a single one, and a
message may be handled while an earlier one of its sender is still cached. -/
structure HandlerState (ρ : Type) where
  managers : ρ
  initialized : Bool
  messageCache : List Update
  calls : List Call
  halted : Bool
  given : List Update
  dispatched : List Update
  fatal : List Update
  overtaken : Bool

namespace Managers

variable {ρ : Type} (R : Managers ρ) (orgId : Dbuid)

/-- The control block is one of the three that `update` knows. -/
def known (u : Update) : Bool :=
  u.controlBlock == R.ctrlblkSync || u.controlBlock == R.ctrlblkPayload ||
    u.controlBlock == R.ctrlblkComplete

/-- `chooseRole`. -/
def chooseRole (myRole : Role) : Option Role :=
  if myRole = roleDealer then some roleDealer
  else if myRole = roleRecipient then some roleRecipient
  else if myRole = roleDataowner then some roleDataowner
  else none -- `log_fatal`

/-- `handleSync` and `handlePayload`. -/
def handle (handler : Role → Update → ρ → Option (ρ × List OutgoingMessageCache))
    (s : HandlerState ρ) (u : Update) : HandlerState ρ :=
  match chooseRole u.myRole with
  | none => { s with halted := true, fatal := s.fatal ++ [u] }
  | some role =>
    let s := { s with dispatched := s.dispatched ++ [u] }
    match handler role u s.managers with
    | none => { s with halted := true }
    | some (managers, msgs) => { s with managers, calls := .sending msgs :: s.calls }

/-- `handleComplete`. -/
def handleComplete (s : HandlerState ρ) (u : Update) : HandlerState ρ :=
  match chooseRole u.myRole with
  | none => { s with halted := true, fatal := s.fatal ++ [u] }
  | some role =>
    let s := { s with dispatched := s.dispatched ++ [u] }
    match R.handleCompleteMsg role u s.managers with
    | none => { s with halted := true }
    | some managers => { s with managers }

/-- `update`. -/
def update (s : HandlerState ρ) (u : Update) : HandlerState ρ :=
  if !s.initialized then { s with messageCache := s.messageCache ++ [u] }
  else if u.controlBlock = R.ctrlblkSync then handle R.handleSyncMsg s u
  else if u.controlBlock = R.ctrlblkPayload then handle R.handlePayloadMsg s u
  else if u.controlBlock = R.ctrlblkComplete then R.handleComplete s u
  else s -- `log_error`

/-- A call of `update` other than those that replay the cache. -/
def give (s : HandlerState ρ) (u : Update) : HandlerState ρ :=
  R.update
    { s with
      given := s.given ++ [u]
      overtaken := s.overtaken || s.initialized && s.messageCache.any (·.peer = u.peer) } u

/-- The managers of all roles are initialized one after the other. -/
def initManagers (managers : ρ) : Option (ρ × List OutgoingMessageCache) := do
  let (managers, dealer) ← R.init roleDealer managers
  let (managers, recipient) ← R.init roleRecipient managers
  let (managers, dataowner) ← R.init roleDataowner managers
  some (managers, dealer ++ recipient ++ dataowner)

/-- The beginning of `init`. -/
def beginInit (s : HandlerState ρ) : HandlerState ρ :=
  match R.initManagers s.managers with
  | none => { s with halted := true }
  | some (managers, msgs) => { s with managers, calls := [.sending msgs, .initializing] }

/-- The next step of the innermost call. -/
def runCall (s : HandlerState ρ) : Option (HandlerState ρ) :=
  match s.calls with
  | [] => none
  | .sending [] :: calls => some { s with calls }
  | .sending (omc :: msgs) :: calls =>
    let s := { s with calls := .sending msgs :: calls }
    -- the messages for others leave the server
    some (if omc.peer = orgId then R.give s omc.toSelf else s)
  | .initializing :: calls => some { s with initialized := true, calls := .replaying :: calls }
  | .replaying :: calls =>
    match s.messageCache with
    | [] => some { s with calls }
    | u :: messageCache => some (R.update { s with messageCache } u)

end Managers

/-- `init` is called, a message arrives, or a call under way goes on. -/
inductive HandlerAction
  | init
  | update (u : Update)
  | run

namespace Managers

variable {ρ : Type} (R : Managers ρ) (orgId : Dbuid)

/-- The next state, if the action can happen: one thread runs all calls, so that `init` and
messages from elsewhere come between them. -/
def step (s : HandlerState ρ) (a : HandlerAction) : Option (HandlerState ρ) :=
  if s.halted then none
  else
    match a with
    | .init => if s.calls.isEmpty && !s.initialized then some (R.beginInit s) else none
    | .update u => if s.calls.isEmpty then some (R.give s u) else none
    | .run => R.runCall orgId s

/-- A new `QueryHandler`. -/
def start (managers : ρ) : HandlerState ρ :=
  { managers, initialized := false, messageCache := [], calls := [], halted := false,
    given := [], dispatched := [], fatal := [], overtaken := false }

/-- All interleavings of `init` with messages. -/
def handler : Machine (HandlerState ρ) HandlerAction :=
  .ofStep (fun s ↦ ∃ managers, s = start managers) (R.step orgId)

/-- The messages given that `update` knows what to do with, in order. -/
def accepted (s : HandlerState ρ) : List Update := s.given.filter R.known

/-- The messages that have left the cache for good. -/
def handled (s : HandlerState ρ) : List Update := s.dispatched ++ s.fatal

/-- The messages of a list that come from one sender. -/
def sentBy (p : Dbuid) (l : List Update) : List Update := l.filter (·.peer = p)

/-- Before `init` all messages are in the cache, and afterwards those that are left in it are
going to be replayed; none is lost or doubled, and no sender's are reordered. -/
structure Inv (s : HandlerState ρ) : Prop where
  early : s.initialized = false → handled s = [] ∧ s.messageCache = s.given ∧
    s.overtaken = false ∧ (s.calls = [] ∨ s.calls = [.initializing] ∨
      ∃ msgs, s.calls = [.sending msgs, .initializing])
  late : s.initialized = true → .initializing ∉ s.calls ∧
    (s.messageCache = [] ∨ .replaying ∈ s.calls)
  running : s.halted = false → s.fatal = []
  once : (R.accepted s).Perm (handled s ++ s.messageCache.filter R.known)
  order : ∀ p, p ≠ orgId ∨ s.overtaken = false →
    sentBy p (R.accepted s) = sentBy p (handled s ++ s.messageCache.filter R.known)

variable {R} {orgId : Dbuid} {s t : HandlerState ρ}

theorem inv_start (managers : ρ) : Inv R orgId (start managers) where
  early _ := ⟨rfl, rfl, rfl, .inl rfl⟩
  late := nofun
  running _ := rfl
  once := List.Perm.refl _
  order _ _ := rfl

/-- All that `update` does with a message once the handler is initialized. -/
private theorem update_initialized (u : Update) (hinit : s.initialized = true)
    (hfatal : s.fatal = []) :
    let t := R.update s u
    t.initialized = true ∧ t.messageCache = s.messageCache ∧ t.given = s.given ∧
      t.overtaken = s.overtaken ∧ (t.halted = false → t.fatal = []) ∧
      (t.calls = s.calls ∨ ∃ msgs, t.calls = .sending msgs :: s.calls) ∧
      handled t = handled s ++ [u].filter R.known := by
  have hhandle : ∀ handler, R.known u = true → let t := handle handler s u
      t.initialized = true ∧ t.messageCache = s.messageCache ∧ t.given = s.given ∧
        t.overtaken = s.overtaken ∧ (t.halted = false → t.fatal = []) ∧
        (t.calls = s.calls ∨ ∃ msgs, t.calls = .sending msgs :: s.calls) ∧
        handled t = handled s ++ [u].filter R.known := by
    intro handler hknown
    unfold handle
    cases chooseRole u.myRole with
    | none => simp [hinit, hknown, handled]
    | some role =>
      dsimp only
      split <;> simp [hinit, hknown, handled, hfatal]
  unfold update
  rw [hinit, Bool.not_true, if_neg Bool.false_ne_true]
  split
  · next hsync => exact hhandle _ (by simp [known, hsync])
  · split
    · next hpayload => exact hhandle _ (by simp [known, hpayload])
    · split
      · next hcomplete =>
        have hknown : R.known u = true := by simp [known, hcomplete]
        unfold handleComplete
        cases chooseRole u.myRole with
        | none => simp [hinit, hknown, handled]
        | some role =>
          dsimp only
          split <;> simp [hinit, hknown, handled, hfatal]
      · next hsync hpayload hcomplete =>
        have hknown : R.known u = false := by simp [known, hsync, hpayload, hcomplete]
        simp [hinit, hknown, hfatal]

@[simp] theorem sentBy_append (p : Dbuid) (l l' : List Update) :
    sentBy p (l ++ l') = sentBy p l ++ sentBy p l' := List.filter_append l l'

/-- A message between those handled and those cached is handled. -/
private theorem inv_update {u : Update} (hinit : s.initialized = true) (hfatal : s.fatal = [])
    (hcalls : .initializing ∉ s.calls) (hcache : s.messageCache = [] ∨ .replaying ∈ s.calls)
    (honce : (R.accepted s).Perm
      (handled s ++ [u].filter R.known ++ s.messageCache.filter R.known))
    (horder : ∀ p, p ≠ orgId ∨ s.overtaken = false → sentBy p (R.accepted s) =
      sentBy p (handled s ++ [u].filter R.known ++ s.messageCache.filter R.known)) :
    Inv R orgId (R.update s u) := by
  obtain ⟨hinit', hcache', hgiven', hovertaken', hrunning', hcalls', hhandled'⟩ :=
    update_initialized (R := R) u hinit hfatal
  constructor
  · intro h
    rw [hinit'] at h
    cases h
  · intro _
    rw [hcache']
    rcases hcalls' with h | ⟨msgs, h⟩
    · rw [h]
      exact ⟨hcalls, hcache⟩
    · rw [h]
      constructor
      · simpa using hcalls
      · rcases hcache with hnil | hmem
        · exact .inl hnil
        · exact .inr (List.mem_cons_of_mem _ hmem)
  · exact hrunning'
  · rw [accepted, hgiven', hhandled', hcache']
    exact honce
  · intro p hp
    rw [hovertaken'] at hp
    rw [accepted, hgiven', hhandled', hcache']
    exact horder p hp

/-- A message that is given while calls are under way comes from the server itself. -/
private theorem Inv.give (h : Inv R orgId s) (hrun : s.halted = false) (u : Update)
    (hpeer : s.calls = [] ∨ u.peer = orgId) : Inv R orgId (R.give s u) := by
  let t : HandlerState ρ :=
    { s with
      given := s.given ++ [u]
      overtaken := s.overtaken || s.initialized && s.messageCache.any (·.peer = u.peer) }
  show Inv R orgId (R.update t u)
  by_cases hinit : s.initialized = true
  · have hlate := h.late hinit
    have hgiven : R.accepted t = R.accepted s ++ [u].filter R.known := List.filter_append _ _
    apply inv_update (s := t) hinit (h.running hrun) hlate.1 hlate.2
    · -- the new message is behind all the others given, but handled before the cached ones
      rw [hgiven]
      apply (h.once.append_right ([u].filter R.known)).trans
      rw [List.append_assoc, List.append_assoc]
      exact List.perm_append_comm.append_left (handled s)
    · intro p hp
      have hold : p ≠ orgId ∨ s.overtaken = false := by
        rcases hp with hp | hp
        · exact .inl hp
        · exact .inr (Bool.or_eq_false_iff.mp hp).1
      have horder := h.order p hold
      have hapart : sentBy p ([u].filter R.known) = [] ∨
          sentBy p (s.messageCache.filter R.known) = [] := by
        by_cases hup : u.peer = p
        · right
          rcases hp with hne | hovertaken
          · have hcalls : s.calls = [] := hpeer.resolve_right fun he ↦ hne (hup ▸ he)
            have hnil : s.messageCache = [] := hlate.2.resolve_right (by simp [hcalls])
            simp [hnil, sentBy]
          · have hany := (Bool.or_eq_false_iff.mp hovertaken).2
            simp only [hinit, Bool.true_and, List.any_eq_false, decide_eq_true_eq] at hany
            simp only [sentBy, List.filter_eq_nil_iff, List.mem_filter, decide_eq_true_eq]
            intro m hm
            rw [← hup]
            exact hany m hm.1
        · left
          simp only [sentBy, List.filter_eq_nil_iff, List.mem_filter, decide_eq_true_eq]
          rintro m ⟨hm, -⟩
          rw [List.mem_singleton.mp hm]
          exact hup
      rw [hgiven, sentBy_append, horder]
      show _ = sentBy p (handled s ++ [u].filter R.known ++ s.messageCache.filter R.known)
      simp only [sentBy_append]
      rcases hapart with hnil | hnil
      · rw [hnil, List.append_nil, List.append_nil]
      · rw [hnil, List.append_nil, List.append_nil]
  · rw [Bool.not_eq_true] at hinit
    obtain ⟨hhandled, hcache, hovertaken, hcalls⟩ := h.early hinit
    have hcached : R.update t u = { t with messageCache := s.messageCache ++ [u] } := by
      simp [Managers.update, t, hinit]
    rw [hcached]
    constructor
    · intro _
      exact ⟨hhandled, by simp [t, hcache], by simp [t, hinit, hovertaken], hcalls⟩
    · intro hinit'
      cases hinit.symm.trans hinit'
    · exact h.running
    · show (R.accepted t).Perm (handled s ++ _)
      simp [accepted, t, hhandled, hcache]
    · intro p _
      show sentBy p (R.accepted t) = sentBy p (handled s ++ _)
      simp [accepted, t, hhandled, hcache]

private theorem Inv.beginInit (h : Inv R orgId s) (hinit : s.initialized = false) :
    Inv R orgId (R.beginInit s) := by
  obtain ⟨hhandled, hcache, hovertaken, hcalls⟩ := h.early hinit
  have hno : ¬ s.initialized = true := by simp [hinit]
  unfold Managers.beginInit
  split
  · exact {
      early := fun _ ↦ ⟨hhandled, hcache, hovertaken, hcalls⟩
      late := fun ht ↦ absurd ht hno
      running := nofun
      once := h.once
      order := h.order }
  · next msgs _ => exact {
      early := fun _ ↦ ⟨hhandled, hcache, hovertaken, .inr (.inr ⟨msgs, rfl⟩)⟩
      late := fun ht ↦ absurd ht hno
      running := h.running
      once := h.once
      order := h.order }

/-- Popping a call that has done all it has to do keeps the invariant. -/
private theorem Inv.setCalls (h : Inv R orgId s) {calls : List Call}
    (hearly : s.initialized = false → calls = [] ∨ calls = [.initializing] ∨
      ∃ msgs, calls = [.sending msgs, .initializing])
    (hlate : s.initialized = true → .initializing ∉ calls ∧
      (s.messageCache = [] ∨ .replaying ∈ calls)) : Inv R orgId { s with calls } where
  early hinit :=
    have hs := h.early hinit
    ⟨hs.1, hs.2.1, hs.2.2.1, hearly hinit⟩
  late := hlate
  running := h.running
  once := h.once
  order := h.order

/-- `sendOutgoingMessages` has sent a message, or has no more to send. -/
private theorem Inv.sent (h : Inv R orgId s) {msgs : List OutgoingMessageCache}
    {calls calls' : List Call} (hcalls : s.calls = .sending msgs :: calls)
    (hcalls' : calls' = calls ∨ ∃ msgs, calls' = .sending msgs :: calls) :
    Inv R orgId { s with calls := calls' } := by
  apply h.setCalls
  · intro hinit
    have hcalls : calls = [.initializing] := by
      have hc := (h.early hinit).2.2.2
      rw [hcalls] at hc
      simpa using hc
    rcases hcalls' with rfl | ⟨msgs, rfl⟩
    · exact .inr (.inl hcalls)
    · exact .inr (.inr ⟨msgs, by rw [hcalls]⟩)
  · intro hinit
    have hl := h.late hinit
    rw [hcalls] at hl
    rcases hcalls' with rfl | ⟨msgs, rfl⟩
    · simpa using hl
    · simpa using hl

private theorem Inv.runCall (h : Inv R orgId s) (hrun : s.halted = false)
    (ht : R.runCall orgId s = some t) : Inv R orgId t := by
  unfold Managers.runCall at ht
  split at ht
  · cases ht
  · next calls hcalls =>
    cases ht
    exact h.sent hcalls (.inl rfl)
  · next omc msgs calls hcalls =>
    have hset : Inv R orgId { s with calls := .sending msgs :: calls } :=
      h.sent hcalls (.inr ⟨msgs, rfl⟩)
    cases ht
    split
    · next horg => exact hset.give hrun omc.toSelf (.inr horg)
    · exact hset
  · next calls hcalls =>
    cases ht
    cases hinit : s.initialized with
    | true =>
      have hl := (h.late hinit).1
      simp [hcalls] at hl
    | false =>
      obtain ⟨hhandled, hcache, hovertaken, hc⟩ := h.early hinit
      have hnil : calls = [] := by
        rw [hcalls] at hc
        simpa using hc
      subst hnil
      exact {
        early := nofun
        late := fun _ ↦ ⟨by simp, .inr (by simp)⟩
        running := h.running
        once := h.once
        order := h.order }
  · next calls hcalls =>
    have hinit : s.initialized = true := by
      by_contra hno
      rw [Bool.not_eq_true] at hno
      have hc := (h.early hno).2.2.2
      simp [hcalls] at hc
    split at ht
    · next hnil =>
      cases ht
      apply h.setCalls
      · intro hno
        cases hno.symm.trans hinit
      · intro _
        have hl := (h.late hinit).1
        rw [hcalls] at hl
        exact ⟨fun hm ↦ hl (List.mem_cons_of_mem _ hm), .inl hnil⟩
    · next u messageCache hcons =>
      cases ht
      have hsplit : handled s ++ [u].filter R.known ++ messageCache.filter R.known =
          handled s ++ s.messageCache.filter R.known := by
        rw [hcons, List.append_assoc, ← List.filter_append, List.singleton_append]
      apply inv_update (s := { s with messageCache }) hinit (h.running hrun) (h.late hinit).1
      · right
        show _ ∈ s.calls
        rw [hcalls]
        exact List.mem_cons_self
      · show (R.accepted s).Perm (handled s ++ _ ++ _)
        rw [hsplit]
        exact h.once
      · intro p hp
        show sentBy p (R.accepted s) = sentBy p (handled s ++ _ ++ _)
        rw [hsplit]
        exact h.order p hp

theorem Inv.step {a : HandlerAction} (h : Inv R orgId s)
    (hst : (R.handler orgId).step s a t) : Inv R orgId t := by
  have hst : R.step orgId s a = some t := hst
  unfold Managers.step at hst
  split at hst
  · cases hst
  · next hrun =>
    rw [Bool.not_eq_true] at hrun
    cases a with
    | init =>
      dsimp only at hst
      split at hst
      · next hc =>
        cases hst
        apply h.beginInit
        simpa using (Bool.and_eq_true_iff.mp hc).2
      · cases hst
    | update u =>
      dsimp only at hst
      split at hst
      · next hc =>
        cases hst
        exact h.give hrun u (.inl (List.isEmpty_iff.mp hc))
      · cases hst
    | run => exact h.runCall hrun hst

theorem Inv.of_reachable (h : (R.handler orgId).Reachable s) : Inv R orgId s := by
  apply h.invariant
  · rintro s ⟨managers, rfl⟩
    exact inv_start managers
  · intro s a t
    exact Inv.step

/-- Nothing is dispatched before `init`. Every message with a known control block is dispatched at
most once, and the messages of each sender in the order in which they were given, unless the
server's own have overtaken one another. While the process lives, calls under way go on, and
between them all such messages have been dispatched. -/
theorem update_cache (R : Managers ρ) (orgId : Dbuid) {s : HandlerState ρ}
    (h : (R.handler orgId).Reachable s) :
    (s.initialized = false → s.dispatched = []) ∧
      (∃ rest, (R.accepted s).Perm (s.dispatched ++ rest)) ∧
      (∀ p, p ≠ orgId ∨ s.overtaken = false →
        sentBy p s.dispatched <+: sentBy p (R.accepted s)) ∧
      (s.halted = false →
        (s.calls ≠ [] → ∃ t, (R.handler orgId).step s .run t) ∧
        (s.initialized = true → s.calls = [] → (R.accepted s).Perm s.dispatched ∧
          ∀ p, p ≠ orgId ∨ s.overtaken = false →
            sentBy p s.dispatched = sentBy p (R.accepted s))) := by
  have hinv := Inv.of_reachable h
  refine ⟨?_, ?_, ?_, ?_⟩
  · intro hinit
    exact (List.append_eq_nil_iff.mp (hinv.early hinit).1).1
  · refine ⟨s.fatal ++ s.messageCache.filter R.known, ?_⟩
    rw [← List.append_assoc]
    exact hinv.once
  · intro p hp
    rw [hinv.order p hp, handled, List.append_assoc, sentBy_append]
    exact List.prefix_append _ _
  · intro hrun
    constructor
    · intro hcalls
      have hsome : (R.runCall orgId s).isSome = true := by
        unfold runCall
        split
        · next hnil => exact absurd hnil hcalls
        · rfl
        · rfl
        · rfl
        · split <;> rfl
      obtain ⟨t, ht⟩ := Option.isSome_iff_exists.mp hsome
      refine ⟨t, ?_⟩
      show R.step orgId s .run = some t
      simp [step, hrun, ht]
    · intro hinit hcalls
      have hcache : s.messageCache = [] :=
        (hinv.late hinit).2.resolve_right (by simp [hcalls])
      have hhandled : handled s ++ s.messageCache.filter R.known = s.dispatched := by
        simp [handled, hinv.running hrun, hcache]
      constructor
      · rw [← hhandled]
        exact hinv.once
      · intro p hp
        rw [hinv.order p hp, hhandled]

/-- The dealer sends a message to itself when it is initialized and another one when it handles
that of a peer. -/
def selfSending : Managers Unit where
  ctrlblkSync := 0
  ctrlblkPayload := 1
  ctrlblkComplete := 2
  init role _ := some ((), if role = roleDealer then [⟨1, roleDealer, [1], roleDealer, 0, 1⟩] else [])
  handleSyncMsg _ u _ :=
    some ((), if u.peer = 2 then [⟨1, roleDealer, [2], roleDealer, 0, 1⟩] else [])
  handlePayloadMsg _ _ _ := some ((), [])
  handleCompleteMsg _ _ _ := some ()

/-- A peer's message arrives before `init`, and afterwards one with an unknown control block. -/
def selfSendingRun : List HandlerAction :=
  [.update ⟨2, roleDealer, [], 0, roleDealer, 0⟩, .init, .run, .run, .run, .run, .run, .run, .run,
    .run, .run, .run, .update ⟨2, roleDealer, [], 0, roleDealer, 9⟩]

/-- After that run the second message of the server to itself has overtaken the first. -/
def selfSendingEnd : HandlerState Unit where
  managers := ()
  initialized := true
  messageCache := []
  calls := []
  halted := false
  given := [⟨2, roleDealer, [], 0, roleDealer, 0⟩, ⟨1, roleDealer, [1], 0, roleDealer, 1⟩,
    ⟨1, roleDealer, [2], 0, roleDealer, 1⟩, ⟨2, roleDealer, [], 0, roleDealer, 9⟩]
  dispatched := [⟨2, roleDealer, [], 0, roleDealer, 0⟩, ⟨1, roleDealer, [2], 0, roleDealer, 1⟩,
    ⟨1, roleDealer, [1], 0, roleDealer, 1⟩]
  fatal := []
  overtaken := true

private theorem selfSendingEnd_reachable : (selfSending.handler 1).Reachable selfSendingEnd :=
  ⟨start (), selfSendingRun, ⟨(), rfl⟩, Machine.run_of_execute rfl⟩

theorem update_cache_selfSending :
    (selfSending.accepted selfSendingEnd).Perm selfSendingEnd.dispatched ∧
      sentBy 2 selfSendingEnd.dispatched = sentBy 2 (selfSending.accepted selfSendingEnd) := by
  have h := (update_cache selfSending 1 selfSendingEnd_reachable).2.2.2 rfl
  have hdone := h.2 rfl rfl
  exact ⟨hdone.1, hdone.2 2 (.inl (by decide))⟩

/-- A message with an unknown control block is not dispatched, and the server's own messages are
dispatched out of order. -/
theorem selfSendingEnd_unordered :
    (selfSending.handler 1).Reachable selfSendingEnd ∧ selfSendingEnd.initialized = true ∧
      selfSendingEnd.calls = [] ∧ selfSendingEnd.halted = false ∧
      ¬ selfSendingEnd.given.Perm selfSendingEnd.dispatched ∧
      sentBy 1 selfSendingEnd.dispatched ≠ sentBy 1 selfSendingEnd.given := by
  refine ⟨selfSendingEnd_reachable, rfl, rfl, rfl, ?_, by decide⟩
  intro h
  cases h.length_eq

end Managers
end Safrn.Net
