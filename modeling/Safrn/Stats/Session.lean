import Mathlib.Algebra.Group.Nat.Defs
import Mathlib.Data.Finset.Card
import Mathlib.Logic.Function.Basic
import Safrn.Base.Loop
import Safrn.Base.Machine

/-!
# The states of a statistic up to the merged lists

`Regression` and `Moments` share the first states of their machines
(`dataowner/Regression.cpp:415-511`, `dataowner/Moments.cpp:355-436`): the shares of the other
parties arrive, the shared lists are sorted and the randomness is fetched, in any order, and then
the sorted lists are zipped. What follows differs and is a parameter here.
-/

namespace Safrn.Stats

open Safrn.Base

/-- The states; those after `awaitingZipAdjacent` belong to the statistic. -/
inductive State (Stage : Type)
  | awaitingRandomnessAndSISOSort
  | awaitingRandomnessOnly
  | awaitingSISOSort
  | awaitingZipAdjacent
  | later (stage : Stage)
  deriving DecidableEq

/-- The fronctocols that are invoked: the patron, those for the cross party `i`, and those that a
later state awaits. A batch has `size` children. -/
inductive Child (Stage : Type)
  | randomnessPatron
  | sisoSort (i : Nat)
  | zipAdjacent (i : Nat)
  | later (stage : Stage) (i size : Nat)
  deriving DecidableEq

/-- What happens: the half of the cross party `i` is set, a state is entered, a fronctocol is
invoked or completes, the statistic itself completes. -/
inductive Entry (Stage : Type)
  | received (i : Nat)
  | enter (state : State Stage)
  | invoked (f : Child Stage)
  | completed (f : Child Stage)
  | finished
  deriving DecidableEq

instance Entry.lawfulBEq {Stage : Type} [DecidableEq Stage] : LawfulBEq (Entry Stage) :=
  inferInstance

/-- The fields that decide about the stages, the number of items drawn from each dispenser, and what
has happened, the latest first. -/
structure Session (Stage Dispenser : Type) where
  state : State Stage
  randomnessDone : Bool
  numPartiesAwaiting : Nat
  drawn : Dispenser → Nat
  log : List (Entry Stage)

/-- `n - 1` of a `size_t`. -/
def sizePred (n : Nat) : Nat := if n = 0 then 2 ^ 64 - 1 else n - 1

variable {Stage Dispenser : Type}

namespace Session

variable (s : Session Stage Dispenser)

@[simp] def received (i : Nat) : Session Stage Dispenser := { s with log := .received i :: s.log }

@[simp] def goto (state : State Stage) : Session Stage Dispenser :=
  { s with state, log := .enter state :: s.log }

@[simp] def invoke (f : Child Stage) : Session Stage Dispenser :=
  { s with log := .invoked f :: s.log }

@[simp] def completes (f : Child Stage) : Session Stage Dispenser :=
  { s with log := .completed f :: s.log }

@[simp] def finish : Session Stage Dispenser := { s with log := .finished :: s.log }

@[simp] def await (n : Nat) : Session Stage Dispenser := { s with numPartiesAwaiting := n }

/-- `numPartiesAwaiting--`. -/
@[simp] def decrement : Session Stage Dispenser := s.await (sizePred s.numPartiesAwaiting)

/-- `get` of a dispenser that the patron has filled. -/
def get [DecidableEq Dispenser] (requested : Dispenser → Nat) (d : Dispenser) :
    Option (Session Stage Dispenser) :=
  if s.randomnessDone = true ∧ s.drawn d < requested d then
    some { s with drawn := Function.update s.drawn d (s.drawn d + 1) }
  else none

/-- A fronctocol runs from its invocation to its completion. -/
def Runs (f : Child Stage) : Prop := .invoked f ∈ s.log ∧ .completed f ∉ s.log

instance [DecidableEq Stage] (f : Child Stage) : Decidable (s.Runs f) :=
  inferInstanceAs (Decidable (_ ∧ _))

end Session

/-- A statistic: what its patron requests of each dispenser, the dispensers of the cross parties for
`ZipAdjacent`, what follows the last `ZipAdjacent`, and the later cases of `handleComplete`. -/
structure Program (Stage Dispenser : Type) where
  numCrossParties : Nat
  requested : Dispenser → Nat
  zipAdjacentDispenser : Nat → Dispenser
  zipped : Session Stage Dispenser → Option (Session Stage Dispenser)
  handleComplete : Stage → Child Stage → Session Stage Dispenser →
    Option (Session Stage Dispenser)

namespace Program

variable [DecidableEq Stage] [DecidableEq Dispenser] (prog : Program Stage Dispenser)

/-- `handleReceive` of the shares of the cross party `i`. -/
def handleReceive (s : Session Stage Dispenser) (i : Nat) : Session Stage Dispenser :=
  let s := (s.received i).decrement
  if s.numPartiesAwaiting = 0 then
    let s := forRange (fun s j ↦ s.invoke (.sisoSort j)) prog.numCrossParties s
    (s.await prog.numCrossParties).goto .awaitingSISOSort
  else s

/-- The loop over the cross parties that starts the zipping. -/
def zipAll (s : Session Stage Dispenser) : Option (Session Stage Dispenser) := do
  let s ← forRangeM (fun s i ↦ do
    let s ← s.get prog.requested (prog.zipAdjacentDispenser i)
    some (s.invoke (.zipAdjacent i))) prog.numCrossParties s
  some ((s.await prog.numCrossParties).goto .awaitingZipAdjacent)

/-- The cases of `handleComplete`. -/
def handleState (s : Session Stage Dispenser) (f : Child Stage) :
    Option (Session Stage Dispenser) :=
  match s.state with
  | .awaitingSISOSort =>
    let s := s.decrement
    if s.numPartiesAwaiting = 0 then prog.zipAll s else some s
  | .awaitingZipAdjacent =>
    let s := s.decrement
    if s.numPartiesAwaiting = 0 then prog.zipped s else some s
  | .later stage => prog.handleComplete stage f s
  | _ => some s

/-- `handleComplete`. -/
def handleCompletion (s : Session Stage Dispenser) (f : Child Stage) :
    Option (Session Stage Dispenser) :=
  if s.randomnessDone = false then
    if f ≠ .randomnessPatron then
      let s := s.decrement
      if s.numPartiesAwaiting = 0 then some (s.goto .awaitingRandomnessOnly) else some s
    else
      let s := { s with randomnessDone := true }
      if s.state = .awaitingRandomnessOnly then
        prog.handleState ((s.await 1).goto .awaitingSISOSort) f
      else some (s.goto .awaitingSISOSort)
  else prog.handleState s f

section

variable {prog} {s : Session Stage Dispenser} {f : Child Stage}

theorem handleCompletion_sort (hr : s.randomnessDone = false) (hf : f ≠ .randomnessPatron) :
    prog.handleCompletion s f = if s.decrement.numPartiesAwaiting = 0 then
      some (s.decrement.goto .awaitingRandomnessOnly) else some s.decrement := by
  rw [handleCompletion, if_pos hr, if_pos hf]

theorem handleCompletion_patron (hr : s.randomnessDone = false) :
    prog.handleCompletion s .randomnessPatron = if s.state = .awaitingRandomnessOnly then
      prog.handleState (({ s with randomnessDone := true }.await 1).goto .awaitingSISOSort)
        .randomnessPatron
      else some ({ s with randomnessDone := true }.goto .awaitingSISOSort) := by
  rw [handleCompletion, if_pos hr, if_neg (not_not_intro rfl)]

theorem handleCompletion_done (hr : s.randomnessDone = true) :
    prog.handleCompletion s f = prog.handleState s f := by
  rw [handleCompletion, hr]
  rfl

omit [DecidableEq Stage] in
theorem handleState_sort (hs : s.state = .awaitingSISOSort) :
    prog.handleState s f = if s.decrement.numPartiesAwaiting = 0 then prog.zipAll s.decrement
      else some s.decrement := by
  rw [handleState, hs]

omit [DecidableEq Stage] in
theorem handleState_zip (hs : s.state = .awaitingZipAdjacent) :
    prog.handleState s f = if s.decrement.numPartiesAwaiting = 0 then prog.zipped s.decrement
      else some s.decrement := by
  rw [handleState, hs]

omit [DecidableEq Stage] in
theorem handleState_later {stage : Stage} (hs : s.state = .later stage) :
    prog.handleState s f = prog.handleComplete stage f s := by
  rw [handleState, hs]

end

/-- The shares of a cross party arrive, or a fronctocol completes. -/
inductive Event (Stage : Type)
  | receive (i : Nat)
  | complete (f : Child Stage)

/-- The events that can happen: each cross party sends its shares once. -/
def Enabled (s : Session Stage Dispenser) : Event Stage → Prop
  | .receive i => i < prog.numCrossParties ∧ .received i ∉ s.log
  | .complete f => s.Runs f

instance (s : Session Stage Dispenser) (a : Event Stage) : Decidable (prog.Enabled s a) := by
  cases a <;> unfold Enabled <;> infer_instance

def step (s : Session Stage Dispenser) (a : Event Stage) : Option (Session Stage Dispenser) :=
  if prog.Enabled s a then
    match a with
    | .receive i => some (prog.handleReceive s i)
    | .complete f => prog.handleCompletion (s.completes f) f
  else none

theorem enabled_of_step {prog : Program Stage Dispenser} {s t : Session Stage Dispenser}
    {a : Event Stage} (h : prog.step s a = some t) : prog.Enabled s a := by
  by_contra hnot
  unfold step at h
  rw [if_neg hnot] at h
  cases h

/-- After `init`. -/
def start : Session Stage Dispenser where
  state := .awaitingRandomnessAndSISOSort
  randomnessDone := false
  numPartiesAwaiting := prog.numCrossParties
  drawn := fun _ ↦ 0
  log := [.invoked .randomnessPatron]

def machine : Machine (Session Stage Dispenser) (Event Stage) :=
  .ofStep (· = prog.start) prog.step

end Program
end Safrn.Stats
