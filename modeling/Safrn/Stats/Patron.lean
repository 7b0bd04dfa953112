import Safrn.Stats.House

/-!
# The patrons of the data owners

Models `init` and `handleComplete` of `RegressionRandomnessPatron`
(`dataowner/RegressionPatron.cpp:84-393`) and of `MomentsRandomnessPatron`
(`dataowner/MomentsPatron.cpp:33-150`): what they invoke, for which peers and when. The dispensers
that the completed fronctocols hand over are left out.
-/

namespace Safrn.Stats

open Safrn.Base

/-- The fields of a patron that decide about its stages. -/
structure Patron (St : Type) where
  state : St
  numCrossParties : Nat
  numPartiesAwaiting : Nat
  children : Children
  complete : Bool
  deriving DecidableEq

namespace Patron

variable {St : Type}

/-- `this->invoke(patron, ps)`. -/
def invoke (p : Patron St) (kind : Kind) (ps : PeerSet) : Patron St :=
  { p with children := p.children.invoke ⟨kind, ps⟩ }

def goto (p : Patron St) (state : St) : Patron St := { p with state }

def await (p : Patron St) (n : Nat) : Patron St := { p with numPartiesAwaiting := n }

/-- `numPartiesAwaiting--`. -/
def decrement (p : Patron St) : Patron St := p.await (sizePred p.numPartiesAwaiting)

/-- The loops over the data owners of the other verticals. -/
def invokeCross (dealer : Nat) (self : Identity) (peers : PeerSet) (kind : Kind) (p : Patron St) :
    Option (Patron St) :=
  peers.eachDataowner.foldlM (fun p other ↦
    if other.vertical ≠ self.vertical then do
      let ps ← PeerSet.empty.add (.dataowner self)
      let ps ← ps.add (.dataowner other)
      let ps ← ps.add (.dealer dealer)
      some (p.invoke kind ps)
    else some p) p

/-- The child at the place `k` completes. -/
def step (handleComplete : Patron St → Option (Patron St)) (p : Patron St) (k : Nat) :
    Option (Patron St) :=
  if k ∈ p.children.running then handleComplete { p with children := p.children.completes k }
  else none

def machine (init : Patron St) (handleComplete : Patron St → Option (Patron St)) :
    Machine (Patron St) Nat :=
  .ofStep (· = init) (step handleComplete)

end Patron

/-! ## Regression -/

inductive RegressionPatronState
  | awaitingModConvUp
  | awaitingDivide
  | awaitingConditionalEvaluate
  | awaitingBeaverTripleForFactory
  | awaitingBeaverTripleForMatrixMultiply
  | awaitingRandomSquareMatrix
  | awaitingBeaverTripleForFinalMultiply
  | awaitingCompareEndModulus
  | awaitingCompare
  | awaitingTypeCastFromBit
  | awaitingFLookup
  | awaitingTLookup
  deriving DecidableEq

/-- `init`. -/
def regressionPatronInit (self : Identity) (peers : PeerSet) : Patron RegressionPatronState :=
  Patron.invoke ⟨.awaitingModConvUp, (crossParties peers.eachDataowner self).length, 0, .none, false⟩
    .modConvUp peers

/-- `handleComplete`. -/
def regressionPatronHandleComplete (dealer : Nat) (self : Identity) (peers : PeerSet)
    (p : Patron RegressionPatronState) : Option (Patron RegressionPatronState) :=
  match p.state with
  | .awaitingModConvUp => some ((p.invoke .divide peers).goto .awaitingDivide)
  | .awaitingDivide => do
    let p ← p.invokeCross dealer self peers .zipAdjacent
    some ((p.await p.numCrossParties).goto .awaitingConditionalEvaluate)
  | .awaitingConditionalEvaluate =>
    let p := p.decrement
    if p.numPartiesAwaiting = 0 then do
      let p ← p.invokeCross dealer self peers .beaverTriple
      some ((p.await p.numCrossParties).goto .awaitingBeaverTripleForFactory)
    else some p
  | .awaitingBeaverTripleForFactory =>
    let p := p.decrement
    if p.numPartiesAwaiting = 0 then
      some ((p.invoke .beaverTriple peers).goto .awaitingBeaverTripleForMatrixMultiply)
    else some p
  | .awaitingBeaverTripleForMatrixMultiply =>
    some ((p.invoke .randomSquareMatrix peers).goto .awaitingRandomSquareMatrix)
  | .awaitingRandomSquareMatrix =>
    some ((p.invoke .beaverTriple peers).goto .awaitingBeaverTripleForFinalMultiply)
  | .awaitingBeaverTripleForFinalMultiply =>
    some ((p.invoke .compareEndModulus peers).goto .awaitingCompareEndModulus)
  | .awaitingCompareEndModulus => some ((p.invoke .compare peers).goto .awaitingCompare)
  | .awaitingCompare => some ((p.invoke .typeCastFromBit peers).goto .awaitingTypeCastFromBit)
  | .awaitingTypeCastFromBit => some ((p.invoke .lookup peers).goto .awaitingFLookup)
  | .awaitingFLookup => some ((p.invoke .lookup peers).goto .awaitingTLookup)
  | .awaitingTLookup => some { p with complete := true }

/-! ## Moments -/

inductive MomentsPatronState
  | awaitingModConvUp
  | awaitingDivide
  | awaitingConditionalEvaluate
  deriving DecidableEq

/-- `init`. -/
def momentsPatronInit (self : Identity) (peers : PeerSet) : Patron MomentsPatronState :=
  Patron.invoke ⟨.awaitingModConvUp, (crossParties peers.eachDataowner self).length, 0, .none, false⟩
    .modConvUp peers

/-- `handleComplete`. -/
def momentsPatronHandleComplete (dealer : Nat) (self : Identity) (peers : PeerSet)
    (p : Patron MomentsPatronState) : Option (Patron MomentsPatronState) :=
  match p.state with
  | .awaitingModConvUp => some ((p.invoke .divide peers).goto .awaitingDivide)
  | .awaitingDivide => do
    let p ← p.invokeCross dealer self peers .zipAdjacent
    some ((p.await p.numCrossParties).goto .awaitingConditionalEvaluate)
  | .awaitingConditionalEvaluate =>
    let p := p.decrement
    if p.numPartiesAwaiting = 0 then some { p with complete := true } else some p

/-! ## What the patrons invoke -/

/-- What a patron invokes for the cross parties. -/
def crossInvocations (dealer : Nat) (self : Identity) (peers : PeerSet) (kind : Kind) :
    List Invocation :=
  (crossParties peers.eachDataowner self).map fun other ↦ ⟨kind, pairPeers dealer self other⟩

namespace Patron

variable {St : Type}

theorem invokeCross_eq (dealer : Nat) (self : Identity) (peers : PeerSet) (kind : Kind)
    (p : Patron St) : p.invokeCross dealer self peers kind =
      some { p with children := p.children.invokes (crossInvocations dealer self peers kind) } := by
  rw [invokeCross, crossInvocations, crossParties]
  generalize peers.eachDataowner = dataowners
  induction dataowners generalizing p with
  | nil => rfl
  | cons other rest ih =>
    rw [List.foldlM_cons]
    by_cases hother : other.vertical ≠ self.vertical
    · rw [if_pos hother]
      show rest.foldlM _ (p.invoke kind (pairPeers dealer self other)) = _
      rw [ih]
      simp [hother, invoke, Children.invokes]
    · rw [if_neg hother]
      show rest.foldlM _ p = _
      rw [ih]
      simp [hother]

/-- A patron goes through stages: in each it awaits the fronctocols that it has invoked on entry,
with the counter where there may be more than one. -/
structure Follows (after : St → List St) (batch : St → List Invocation) (counts : St → Bool)
    (handleComplete : Patron St → Option (Patron St)) : Prop where
  after_cons : ∀ st st' rest, after st = st' :: rest → after st' = rest
  single : ∀ st, counts st = false → (batch st).length = 1
  wait : ∀ p, counts p.state = true → sizePred p.numPartiesAwaiting ≠ 0 →
    handleComplete p = some p.decrement
  move : ∀ p st' rest, after p.state = st' :: rest →
    (counts p.state = true → sizePred p.numPartiesAwaiting = 0) →
    ∃ q, handleComplete p = some q ∧ q.state = st' ∧ q.numCrossParties = p.numCrossParties ∧
      q.children = p.children.invokes (batch st') ∧ q.complete = p.complete ∧
      (counts st' = true → q.numPartiesAwaiting = p.numCrossParties)
  finish : ∀ p, after p.state = [] →
    (counts p.state = true → sizePred p.numPartiesAwaiting = 0) →
    ∃ q, handleComplete p = some q ∧ q.state = p.state ∧ q.numCrossParties = p.numCrossParties ∧
      q.children = p.children ∧ q.complete = true

section

variable {after : St → List St} {batch : St → List Invocation} {counts : St → Bool}
  {handleComplete : Patron St → Option (Patron St)} {N : Nat} {plan : List Invocation}
  {p : Patron St}

/-- Some of the fronctocols of the current stage run, or the patron has completed. -/
structure InStage (after : St → List St) (batch : St → List Invocation) (counts : St → Bool)
    (N : Nat) (plan : List Invocation) (p : Patron St) : Prop where
  numCrossParties : p.numCrossParties = N
  invoked : p.children.invoked ++ (after p.state).flatMap batch = plan
  running : (p.complete = false ∧ 0 < p.children.running.length ∧
      if counts p.state = true then p.numPartiesAwaiting = p.children.running.length
      else p.children.running.length = 1) ∨
    (p.complete = true ∧ p.children.running = [] ∧ after p.state = [])

/-- Others of the stage run: only the counter changes. -/
private theorem Follows.more (hf : Follows after batch counts handleComplete)
    (h : p.InStage after batch counts N plan) {k : Nat} (hk : k ∈ p.children.running)
    (hcomplete : p.complete = false) (hcounts : counts p.state = true)
    (hcount : p.numPartiesAwaiting = p.children.running.length)
    (hpred : sizePred p.numPartiesAwaiting ≠ 0) :
    ∃ q, handleComplete { p with children := p.children.completes k } = some q ∧
      q.InStage after batch counts N plan := by
  let t : Patron St := { p with children := p.children.completes k }
  have hawaiting : sizePred t.numPartiesAwaiting = t.children.running.length := by
    have hlength : t.children.running.length = p.children.running.length - 1 :=
      List.length_erase_of_mem hk
    rw [hlength, ← hcount, sizePred,
      if_neg (by rw [hcount]; exact Nat.ne_of_gt (List.length_pos_of_mem hk))]
  refine ⟨_, hf.wait t hcounts hpred, h.numCrossParties, h.invoked, .inl ⟨hcomplete, ?_, ?_⟩⟩
  · show 0 < t.children.running.length
    rw [← hawaiting]
    exact Nat.pos_of_ne_zero hpred
  · exact (if_pos hcounts).mpr hawaiting

/-- It was the last of the stage: the next stage starts, or the patron completes. -/
private theorem Follows.last (hf : Follows after batch counts handleComplete)
    (hN : ∀ st, counts st = true → (batch st).length = N) (hpos : 0 < N) {t : Patron St}
    (hcross : t.numCrossParties = N)
    (hinvoked : t.children.invoked ++ (after t.state).flatMap batch = plan)
    (hcomplete : t.complete = false) (hempty : t.children.running = [])
    (hlast : counts t.state = true → sizePred t.numPartiesAwaiting = 0) :
    ∃ q, handleComplete t = some q ∧ q.InStage after batch counts N plan := by
  cases hafter : after t.state with
  | cons st' rest =>
    obtain ⟨q, hq, hstate, hqcross, hchildren, hqcomplete, hawaiting⟩ :=
      hf.move t st' rest hafter hlast
    have hsize : q.children.running.length = (batch st').length := by
      rw [hchildren, Children.length_running_invokes, hempty, List.length_nil, Nat.zero_add]
    refine ⟨q, hq, hqcross.trans hcross, ?_, .inl ⟨hqcomplete.trans hcomplete, ?_⟩⟩
    · rw [hstate, hchildren, Children.invoked_invokes, hf.after_cons _ _ _ hafter, ← hinvoked,
        hafter, List.flatMap_cons, List.append_assoc]
    · rw [hstate, hsize]
      cases hcounts : counts st' with
      | true =>
        rw [if_pos rfl, hawaiting hcounts, hN st' hcounts]
        exact ⟨hpos, hcross⟩
      | false =>
        rw [if_neg Bool.false_ne_true, hf.single st' hcounts]
        exact ⟨Nat.one_pos, rfl⟩
  | nil =>
    obtain ⟨q, hq, hstate, hqcross, hchildren, hqcomplete⟩ := hf.finish t hafter hlast
    refine ⟨q, hq, hqcross.trans hcross, ?_, .inr ⟨hqcomplete, ?_, ?_⟩⟩
    · rw [hstate, hchildren]
      exact hinvoked
    · rw [hchildren]
      exact hempty
    · rw [hstate, hafter]

/-- A child of the current stage completes. -/
theorem Follows.step (hf : Follows after batch counts handleComplete)
    (hN : ∀ st, counts st = true → (batch st).length = N) (hpos : 0 < N)
    (h : p.InStage after batch counts N plan) {k : Nat} (hk : k ∈ p.children.running) :
    ∃ q, p.step handleComplete k = some q ∧ q.InStage after batch counts N plan := by
  rw [Patron.step, if_pos hk]
  obtain ⟨hcomplete, hrun, hcount⟩ | ⟨-, hrunning, -⟩ := h.running
  · have hlength : (p.children.running.erase k).length = p.children.running.length - 1 :=
      List.length_erase_of_mem hk
    by_cases hcounts : counts p.state = true
    · rw [if_pos hcounts] at hcount
      by_cases hpred : sizePred p.numPartiesAwaiting = 0
      · have hone : p.children.running.length - 1 = 0 := by
          rwa [hcount, sizePred, if_neg (Nat.ne_of_gt hrun)] at hpred
        exact hf.last hN hpos h.numCrossParties h.invoked hcomplete
          (List.length_eq_zero_iff.mp (hlength.trans hone)) fun _ ↦ hpred
      · exact hf.more h hk hcomplete hcounts hcount hpred
    · rw [if_neg hcounts] at hcount
      have hone : p.children.running.length - 1 = 0 := by rw [hcount]
      exact hf.last hN hpos h.numCrossParties h.invoked hcomplete
        (List.length_eq_zero_iff.mp (hlength.trans hone)) fun hcounts' ↦ absurd hcounts' hcounts
  · rw [hrunning] at hk
    cases hk

/-- What holds of a patron in every state that it can reach: it has invoked the beginning of the
plan, all of it when nothing runs any more, it has completed when nothing runs any more, and every
child that completes is handled. -/
structure Executes (handleComplete : Patron St → Option (Patron St)) (plan : List Invocation)
    (p : Patron St) : Prop where
  begun : p.children.invoked <+: plan
  all : p.children.running = [] → p.children.invoked = plan
  complete : p.complete = true ↔ p.children.running = []
  handled : ∀ k ∈ p.children.running, (p.step handleComplete k).isSome

theorem Follows.reachable (hf : Follows after batch counts handleComplete)
    (hN : ∀ st, counts st = true → (batch st).length = N) (hpos : 0 < N) {init : Patron St}
    (hinit : init.InStage after batch counts N plan)
    (hp : (machine init handleComplete).Reachable p) : p.Executes handleComplete plan := by
  have hstage : p.InStage after batch counts N plan := by
    apply hp.invariant
    · rintro _ rfl
      exact hinit
    · intro p k q h hstep
      have hk : k ∈ p.children.running := by
        by_contra hnot
        have hnone : p.step handleComplete k = none := if_neg hnot
        rw [show p.step handleComplete k = some q from hstep] at hnone
        cases hnone
      obtain ⟨q', hstep', hq'⟩ := hf.step hN hpos h hk
      obtain rfl := Option.some.inj (hstep.symm.trans hstep')
      exact hq'
  constructor
  · exact ⟨_, hstage.invoked⟩
  · intro hrunning
    obtain ⟨-, hpos, -⟩ | ⟨-, -, hafter⟩ := hstage.running
    · simp [hrunning] at hpos
    · simpa [hafter] using hstage.invoked
  · obtain ⟨hcomplete, hpos, -⟩ | ⟨hcomplete, hrunning, -⟩ := hstage.running
    · simp [hcomplete, List.length_pos_iff.mp hpos]
    · simp [hcomplete, hrunning]
  · intro k hk
    obtain ⟨q, hstep, -⟩ := hf.step hN hpos hstage hk
    exact Option.isSome_of_eq_some hstep

end

end Patron

/-! ## The stages of the regression -/

section

variable (dealer : Nat) (self : Identity) (peers : PeerSet)

/-- The states after a state. -/
def RegressionPatronState.after (state : RegressionPatronState) : List RegressionPatronState :=
  ([.awaitingModConvUp, .awaitingDivide, .awaitingConditionalEvaluate,
    .awaitingBeaverTripleForFactory, .awaitingBeaverTripleForMatrixMultiply,
    .awaitingRandomSquareMatrix, .awaitingBeaverTripleForFinalMultiply, .awaitingCompareEndModulus,
    .awaitingCompare, .awaitingTypeCastFromBit, .awaitingFLookup,
    .awaitingTLookup].dropWhile (· ≠ state)).tail

/-- What is invoked on entry of a state. -/
def regressionPatronBatch : RegressionPatronState → List Invocation
  | .awaitingModConvUp => [⟨.modConvUp, peers⟩]
  | .awaitingDivide => [⟨.divide, peers⟩]
  | .awaitingConditionalEvaluate => crossInvocations dealer self peers .zipAdjacent
  | .awaitingBeaverTripleForFactory => crossInvocations dealer self peers .beaverTriple
  | .awaitingBeaverTripleForMatrixMultiply => [⟨.beaverTriple, peers⟩]
  | .awaitingRandomSquareMatrix => [⟨.randomSquareMatrix, peers⟩]
  | .awaitingBeaverTripleForFinalMultiply => [⟨.beaverTriple, peers⟩]
  | .awaitingCompareEndModulus => [⟨.compareEndModulus, peers⟩]
  | .awaitingCompare => [⟨.compare, peers⟩]
  | .awaitingTypeCastFromBit => [⟨.typeCastFromBit, peers⟩]
  | .awaitingFLookup => [⟨.lookup, peers⟩]
  | .awaitingTLookup => [⟨.lookup, peers⟩]

/-- The states that await the cross parties. -/
def RegressionPatronState.counts : RegressionPatronState → Bool
  | .awaitingConditionalEvaluate | .awaitingBeaverTripleForFactory => true
  | _ => false

def regressionPatronPlan : List Invocation :=
  [⟨.modConvUp, peers⟩, ⟨.divide, peers⟩] ++ crossInvocations dealer self peers .zipAdjacent ++
    crossInvocations dealer self peers .beaverTriple ++
    [⟨.beaverTriple, peers⟩, ⟨.randomSquareMatrix, peers⟩, ⟨.beaverTriple, peers⟩,
      ⟨.compareEndModulus, peers⟩, ⟨.compare, peers⟩, ⟨.typeCastFromBit, peers⟩,
      ⟨.lookup, peers⟩, ⟨.lookup, peers⟩]

theorem regressionPatron_follows : Patron.Follows RegressionPatronState.after
    (regressionPatronBatch dealer self peers) RegressionPatronState.counts
    (regressionPatronHandleComplete dealer self peers) := by
  constructor
  · intro st st' rest hafter
    cases st <;> cases hafter <;> rfl
  · intro st hst
    cases st <;> first | rfl | cases hst
  · intro p hcounts hpred
    obtain ⟨state, n, awaiting, children, complete⟩ := p
    cases state <;> first | exact if_neg hpred | cases hcounts
  · intro p st' rest hafter hpred
    obtain ⟨state, n, awaiting, children, complete⟩ := p
    cases state with
    | awaitingDivide =>
      cases hafter
      refine ⟨⟨.awaitingConditionalEvaluate, n, n, children.invokes
        (crossInvocations dealer self peers .zipAdjacent), complete⟩, ?_, rfl, rfl, rfl, rfl,
        fun _ ↦ rfl⟩
      simp only [regressionPatronHandleComplete, Patron.invokeCross_eq]
      rfl
    | awaitingConditionalEvaluate =>
      cases hafter
      refine ⟨⟨.awaitingBeaverTripleForFactory, n, n, children.invokes
        (crossInvocations dealer self peers .beaverTriple), complete⟩, ?_, rfl, rfl, rfl, rfl,
        fun _ ↦ rfl⟩
      refine (if_pos (hpred rfl)).trans ?_
      simp only [Patron.invokeCross_eq]
      rfl
    | awaitingBeaverTripleForFactory =>
      cases hafter
      exact ⟨_, if_pos (hpred rfl), rfl, rfl, rfl, rfl, fun hcounts ↦ by cases hcounts⟩
    | awaitingTLookup => cases hafter
    | _ =>
      cases hafter
      exact ⟨_, rfl, rfl, rfl, rfl, rfl, fun hcounts ↦ by cases hcounts⟩
  · intro p hafter hpred
    obtain ⟨state, n, awaiting, children, complete⟩ := p
    cases state <;> cases hafter
    exact ⟨_, rfl, rfl, rfl, rfl, rfl⟩

/-- The first stage of a patron. -/
private theorem inStage_init {St : Type} {after : St → List St} {batch : St → List Invocation}
    {counts : St → Bool} {plan : List Invocation} {state : St}
    (hbatch : [⟨.modConvUp, peers⟩] ++ (after state).flatMap batch = plan)
    (hcounts : counts state = false) :
    (Patron.invoke ⟨state, (crossParties peers.eachDataowner self).length, 0, .none, false⟩
      .modConvUp peers).InStage after batch counts
      (crossParties peers.eachDataowner self).length plan := by
  refine ⟨rfl, hbatch, .inl ⟨rfl, Nat.one_pos, ?_⟩⟩
  show if counts state = true then _ else _
  rw [if_neg (by simp [hcounts])]
  rfl

theorem regressionPatron_executes (hcross : crossParties peers.eachDataowner self ≠ [])
    {p : Patron RegressionPatronState} (hp : (Patron.machine (regressionPatronInit self peers)
      (regressionPatronHandleComplete dealer self peers)).Reachable p) :
    p.Executes (regressionPatronHandleComplete dealer self peers)
      (regressionPatronPlan dealer self peers) := by
  refine (regressionPatron_follows dealer self peers).reachable ?_
    (List.length_pos_iff.mpr hcross) (inStage_init self peers ?_ rfl) hp
  · intro st hcounts
    cases st <;> first | cases hcounts; done | exact List.length_map _
  · simp [RegressionPatronState.after, regressionPatronBatch, regressionPatronPlan]

/-! ## The stages of the moments -/

def MomentsPatronState.after : MomentsPatronState → List MomentsPatronState
  | .awaitingModConvUp => [.awaitingDivide, .awaitingConditionalEvaluate]
  | .awaitingDivide => [.awaitingConditionalEvaluate]
  | .awaitingConditionalEvaluate => []

def momentsPatronBatch : MomentsPatronState → List Invocation
  | .awaitingModConvUp => [⟨.modConvUp, peers⟩]
  | .awaitingDivide => [⟨.divide, peers⟩]
  | .awaitingConditionalEvaluate => crossInvocations dealer self peers .zipAdjacent

def MomentsPatronState.counts : MomentsPatronState → Bool
  | .awaitingConditionalEvaluate => true
  | _ => false

def momentsPatronPlan : List Invocation :=
  [⟨.modConvUp, peers⟩, ⟨.divide, peers⟩] ++ crossInvocations dealer self peers .zipAdjacent

theorem momentsPatron_follows : Patron.Follows MomentsPatronState.after
    (momentsPatronBatch dealer self peers) MomentsPatronState.counts
    (momentsPatronHandleComplete dealer self peers) := by
  constructor
  · intro st st' rest hafter
    cases st <;> cases hafter <;> rfl
  · intro st hst
    cases st <;> first | rfl | cases hst
  · intro p hcounts hpred
    obtain ⟨state, n, awaiting, children, complete⟩ := p
    cases state <;> first | exact if_neg hpred | cases hcounts
  · intro p st' rest hafter hpred
    obtain ⟨state, n, awaiting, children, complete⟩ := p
    cases state with
    | awaitingModConvUp =>
      cases hafter
      exact ⟨_, rfl, rfl, rfl, rfl, rfl, fun hcounts ↦ by cases hcounts⟩
    | awaitingDivide =>
      cases hafter
      refine ⟨⟨.awaitingConditionalEvaluate, n, n, children.invokes
        (crossInvocations dealer self peers .zipAdjacent), complete⟩, ?_, rfl, rfl, rfl, rfl,
        fun _ ↦ rfl⟩
      simp only [momentsPatronHandleComplete, Patron.invokeCross_eq]
      rfl
    | awaitingConditionalEvaluate => cases hafter
  · intro p hafter hpred
    obtain ⟨state, n, awaiting, children, complete⟩ := p
    cases state <;> cases hafter
    exact ⟨_, if_pos (hpred rfl), rfl, rfl, rfl, rfl⟩

theorem momentsPatron_executes (hcross : crossParties peers.eachDataowner self ≠ [])
    {p : Patron MomentsPatronState} (hp : (Patron.machine (momentsPatronInit self peers)
      (momentsPatronHandleComplete dealer self peers)).Reachable p) :
    p.Executes (momentsPatronHandleComplete dealer self peers)
      (momentsPatronPlan dealer self peers) := by
  refine (momentsPatron_follows dealer self peers).reachable ?_
    (List.length_pos_iff.mpr hcross) (inStage_init self peers ?_ rfl) hp
  · intro st hcounts
    cases st <;> first | cases hcounts; done | exact List.length_map _
  · simp [MomentsPatronState.after, momentsPatronBatch, momentsPatronPlan]

end
end Safrn.Stats
