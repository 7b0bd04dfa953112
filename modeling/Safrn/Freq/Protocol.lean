import Mathlib.Algebra.Ring.Int.Defs
import Mathlib.Data.Fintype.Basic
import Mathlib.Logic.Function.Basic
import Safrn.Base.Machine

/-!
# The frequency protocol

Models `BackServerRawHandler.java:2193-2213,3214-3344,3961-3983,4099-4221` and the aggregation
of `FrontServerHttpHandler.java:1122-1215` for one query. The front server asks every back
server from party `2` on. Each back server `G` but the last draws random summands, answers its
masked frequencies and sends the summands to the last back server `W`, which answers its own
frequencies plus the negated summands once all of them are there.

Handlers of different connections interleave at their accesses of the shared `WfShare`.
`getWfShare` is one such access: whichever handler puts the entry of the query first, every
handler works on the entry of the map. A wake-up that is fired at a pipeline is handled by that
connection when its handler is not running.
-/

namespace Safrn.Freq

open Safrn.Base

/-- One summand for each row. -/
abbrev Column (rowCount : Nat) := Fin rowCount → Int

/-- What one query fixes: the parties, the modulus and the frequency tables. -/
structure Query (rowCount : Nat) where
  partyCount : Nat
  modulus : Int
  freq : Nat → Column rowCount
  three_le : 3 ≤ partyCount
  modulus_pos : 0 < modulus

variable {rowCount : Nat}

/-- The answer of a back server `G` to the front server. -/
inductive Answer (rowCount : Nat)
  | pending
  | sent (out : Column rowCount)
  | received

/-- The summands of a back server `G` on their way into the `WfShare`. -/
inductive Summands (rowCount : Nat)
  | pending
  | sent (out : Column rowCount)
  | read (wgColumn : Column rowCount)
  | set
  | counted

/-- A back server `G`: the request is in flight, or its `GfShare` is drawn. -/
inductive Peer (rowCount : Nat)
  | asked
  | active (gfShare : Column rowCount) (answer : Answer rowCount)
      (summands : Summands rowCount)

/-- The request handler of `W`, states `W_A_F_0` and `W_A_F_1`; `failed` is an exception. -/
inductive WaState (rowCount : Nat)
  | asked
  | opened
  | set
  | counted
  | waiting
  | sent (out : Column rowCount)
  | received
  | failed

/-- `WfShare`: `results` and `countdown` of its `TaskResultList`, and whether `waPipeline` is
set. -/
structure WfShare (rowCount : Nat) where
  results : Nat → Option (Column rowCount)
  countdown : Int
  waPipeline : Bool

/-- The state of one query. `answers` counts the answers that `W` has written. -/
structure State (rowCount : Nat) where
  peers : Nat → Peer rowCount
  wa : WaState rowCount
  wfShare : Option (WfShare rowCount)
  wakeUps : Nat
  answers : Nat
  sums : Column rowCount
  countdown : Int
  response : Option (Column rowCount)

/-- What can happen next; `p` is a back server `G`. -/
inductive Action (rowCount : Nat)
  | gRequest (p : Nat) (summands : Column rowCount)
  | gAnswer (p : Nat)
  | gSend (p : Nat)
  | wgRead (p : Nat)
  | wgSet (p : Nat)
  | wgCount (p : Nat)
  | waOpen
  | waSet
  | waCount
  | waCheck
  | waWakeUp
  | frontReceive (p : Nat)
  | frontReceiveLast

namespace Query

variable (q : Query rowCount)

/-- The last back server. -/
def localParty : Nat := q.partyCount - 1

/-- The other back servers that the front server asks. -/
def IsG (p : Nat) : Prop := 2 ≤ p ∧ p < q.localParty

instance (p : Nat) : Decidable (q.IsG p) := inferInstanceAs (Decidable (_ ∧ _))

/-- `new WfShare(partyCount - 2, getRowCount())`. -/
def newWfShare : WfShare rowCount := ⟨fun _ ↦ none, (q.partyCount : Int) - 2, false⟩

/-- `getWfShare`: the entry of the query, made when it is absent. -/
def getWfShare (s : State rowCount) : WfShare rowCount := s.wfShare.getD q.newWfShare

/-- The sum of the first `taskCount` results; `none` when one is missing. -/
def sumResults (share : WfShare rowCount) : Nat → Option (Column rowCount)
  | 0 => some 0
  | j + 1 => do
    let sum ← sumResults share j
    let summand ← share.results j
    return sum + summand

/-- `W_A_F_1`: leave when tasks are missing, and otherwise answer the sum of the results. -/
def check (s : State rowCount) (share : WfShare rowCount) : State rowCount :=
  if share.countdown ≠ 0 then { s with wa := .waiting }
  else match sumResults share (q.partyCount - 2) with
    | none => { s with wa := .failed }
    | some out => { s with wa := .sent out, answers := s.answers + 1 }

/-- `FrontServerQueryDone`: add one party's summands, and respond after the last party. -/
def queryDone (s : State rowCount) (out : Column rowCount) : State rowCount :=
  let s := { s with sums := s.sums + out, countdown := s.countdown - 1 }
  if s.countdown = 0 then { s with response := some fun i ↦ s.sums i % q.modulus } else s

/-- Replace the state of one back server. -/
def setPeer (s : State rowCount) (p : Nat) (peer : Peer rowCount) : State rowCount :=
  { s with peers := Function.update s.peers p peer }

/-- The next state of a back server `G` and of what its action touches. -/
def stepG (s : State rowCount) (p : Nat) : Action rowCount → Peer rowCount →
    Option (State rowCount)
  | .gRequest _ x, .asked =>
    if ∀ i, 0 ≤ x i ∧ x i < q.modulus then some (setPeer s p (.active x .pending .pending))
    else none
  | .gAnswer _, .active x .pending w =>
    some (setPeer s p (.active x (.sent (x + q.freq p)) w))
  | .gSend _, .active x f .pending => some (setPeer s p (.active x f (.sent x)))
  | .wgRead _, .active x f (.sent out) =>
    some (setPeer { s with wfShare := some (q.getWfShare s) } p
      (.active x f (.read fun i ↦ q.modulus - out i)))
  | .wgSet _, .active x f (.read wgColumn) => do
    let share ← s.wfShare
    let results := Function.update share.results (p - 2) (some wgColumn)
    return setPeer { s with wfShare := some { share with results := results } } p
      (.active x f .set)
  | .wgCount _, .active x f .set => do
    let share ← s.wfShare
    let share := { share with countdown := share.countdown - 1 }
    let wakeUps := if share.countdown = 0 ∧ share.waPipeline then s.wakeUps + 1 else s.wakeUps
    return setPeer { s with wfShare := some share, wakeUps := wakeUps } p
      (.active x f .counted)
  | .frontReceive _, .active x (.sent out) w =>
    some (setPeer (q.queryDone s out) p (.active x .received w))
  | _, _ => none

/-- The next state of the last back server. -/
def stepW (s : State rowCount) : Action rowCount → WaState rowCount → Option (State rowCount)
  | .waOpen, .asked =>
    some { s with wfShare := some { q.getWfShare s with waPipeline := true }, wa := .opened }
  | .waSet, .opened => do
    let share ← s.wfShare
    let results :=
      Function.update share.results (q.localParty - 2) (some (q.freq q.localParty))
    return { s with wfShare := some { share with results := results }, wa := .set }
  | .waCount, .set => do
    let share ← s.wfShare
    let share := { share with countdown := share.countdown - 1 }
    return { s with wfShare := some share, wa := .counted }
  | .waCheck, .counted => s.wfShare.map (q.check s)
  | .waWakeUp, .waiting =>
    if s.wakeUps = 0 then none
    else s.wfShare.map (q.check { s with wakeUps := s.wakeUps - 1 })
  | .waWakeUp, .sent _ | .waWakeUp, .received =>
    -- the handler is back in `W_A_0`, where an empty input changes nothing
    if s.wakeUps = 0 then none else some { s with wakeUps := s.wakeUps - 1 }
  | .frontReceiveLast, .sent out => some { q.queryDone s out with wa := .received }
  | _, _ => none

/-- The party of an action of a back server `G`. -/
def party : Action rowCount → Option Nat
  | .gRequest p _ | .gAnswer p | .gSend p | .wgRead p | .wgSet p | .wgCount p
  | .frontReceive p => some p
  | _ => none

/-- The next state, if the action can happen. -/
def step (s : State rowCount) (a : Action rowCount) : Option (State rowCount) :=
  match party a with
  | some p => if q.IsG p then q.stepG s p a (s.peers p) else none
  | none => q.stepW s a s.wa

/-- All requests are in flight. -/
def start : State rowCount where
  peers _ := .asked
  wa := .asked
  wfShare := none
  wakeUps := 0
  answers := 0
  sums := 0
  countdown := (q.partyCount : Int) - 2
  response := none

/-- The protocol of one query. -/
def protocol : Machine (State rowCount) (Action rowCount) := .ofStep (· = q.start) q.step

/-- What a step of a back server `G` can do, read off `stepG`. -/
inductive GStep (s : State rowCount) (p : Nat) : Peer rowCount → State rowCount → Prop
  | request (x) (hx : ∀ i, 0 ≤ x i ∧ x i < q.modulus) :
    GStep s p .asked (setPeer s p (.active x .pending .pending))
  | answer (x w) :
    GStep s p (.active x .pending w) (setPeer s p (.active x (.sent (x + q.freq p)) w))
  | send (x f) : GStep s p (.active x f .pending) (setPeer s p (.active x f (.sent x)))
  | read (x f out) : GStep s p (.active x f (.sent out))
    (setPeer { s with wfShare := some (q.getWfShare s) } p
      (.active x f (.read fun i ↦ q.modulus - out i)))
  | set (x f wgColumn share) (hs : s.wfShare = some share) :
    GStep s p (.active x f (.read wgColumn))
      (setPeer { s with wfShare := some { share with
          results := Function.update share.results (p - 2) (some wgColumn) } } p
        (.active x f .set))
  | count (x f share) (hs : s.wfShare = some share) : GStep s p (.active x f .set)
    (setPeer { s with
        wfShare := some { share with countdown := share.countdown - 1 }
        wakeUps := if share.countdown - 1 = 0 ∧ share.waPipeline then s.wakeUps + 1
          else s.wakeUps } p
      (.active x f .counted))
  | receive (x out w) : GStep s p (.active x (.sent out) w)
    (setPeer (q.queryDone s out) p (.active x .received w))

/-- What a step of the last back server can do, read off `stepW`. -/
inductive WStep (s : State rowCount) : WaState rowCount → State rowCount → Prop
  | openShare : WStep s .asked
    { s with wfShare := some { q.getWfShare s with waPipeline := true }, wa := .opened }
  | set (share) (hs : s.wfShare = some share) : WStep s .opened
    { s with
      wfShare := some { share with
        results := Function.update share.results (q.localParty - 2) (some (q.freq q.localParty)) }
      wa := .set }
  | count (share) (hs : s.wfShare = some share) : WStep s .set
    { s with wfShare := some { share with countdown := share.countdown - 1 }, wa := .counted }
  | check (share) (hs : s.wfShare = some share) : WStep s .counted (q.check s share)
  | wakeUp (share) (hs : s.wfShare = some share) (hw : s.wakeUps ≠ 0) : WStep s .waiting
    (q.check { s with wakeUps := s.wakeUps - 1 } share)
  | idle (wa) (ha : wa = .received ∨ ∃ out, wa = .sent out) (hw : s.wakeUps ≠ 0) : WStep s wa
    { s with wakeUps := s.wakeUps - 1 }
  | receive (out) : WStep s (.sent out) { q.queryDone s out with wa := .received }

variable {q}

theorem gStep_of_stepG {s t : State rowCount} {p : Nat} {a : Action rowCount}
    {peer : Peer rowCount} (h : q.stepG s p a peer = some t) : q.GStep s p peer t := by
  unfold stepG at h
  split at h
  · split at h
    · next x hx => exact Option.some.inj h ▸ .request x hx
    · cases h
  · exact Option.some.inj h ▸ .answer _ _
  · exact Option.some.inj h ▸ .send _ _
  · exact Option.some.inj h ▸ .read _ _ _
  · obtain ⟨share, hs, ht⟩ := Option.bind_eq_some_iff.mp h
    exact Option.some.inj ht ▸ .set _ _ _ share hs
  · obtain ⟨share, hs, ht⟩ := Option.bind_eq_some_iff.mp h
    exact Option.some.inj ht ▸ .count _ _ share hs
  · exact Option.some.inj h ▸ .receive _ _ _
  · cases h

theorem wStep_of_stepW {s t : State rowCount} {a : Action rowCount} {wa : WaState rowCount}
    (h : q.stepW s a wa = some t) : q.WStep s wa t := by
  unfold stepW at h
  split at h
  · exact Option.some.inj h ▸ .openShare
  · obtain ⟨share, hs, ht⟩ := Option.bind_eq_some_iff.mp h
    exact Option.some.inj ht ▸ .set share hs
  · obtain ⟨share, hs, ht⟩ := Option.bind_eq_some_iff.mp h
    exact Option.some.inj ht ▸ .count share hs
  · obtain ⟨share, hs, ht⟩ := Option.map_eq_some_iff.mp h
    exact ht ▸ .check share hs
  · split at h
    · cases h
    · next hw =>
      obtain ⟨share, hs, ht⟩ := Option.map_eq_some_iff.mp h
      exact ht ▸ .wakeUp share hs hw
  · split at h
    · cases h
    · next out hw => exact Option.some.inj h ▸ .idle _ (.inr ⟨_, rfl⟩) hw
  · split at h
    · cases h
    · next hw => exact Option.some.inj h ▸ .idle _ (.inl rfl) hw
  · exact Option.some.inj h ▸ .receive _
  · cases h

/-- Every step is one of a back server `G` or one of the last back server. -/
theorem step_cases {s t : State rowCount} {a : Action rowCount} (h : q.step s a = some t) :
    (∃ p, q.IsG p ∧ q.GStep s p (s.peers p) t) ∨ q.WStep s s.wa t := by
  unfold step at h
  split at h
  · next p _ =>
    split at h
    · next hp => exact .inl ⟨p, hp, gStep_of_stepG h⟩
    · cases h
  · exact .inr (wStep_of_stepW h)

end Query
end Safrn.Freq
