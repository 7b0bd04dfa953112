import Safrn.Stats.PeerSet
import Safrn.Stats.Session

/-!
# The houses of the dealer

Models `init` and `handleComplete` of `RegressionRandomnessHouse`, `RegressionRandomnessBasement`
(`dealer/RegressionHouse.cpp:18-226`) and of their counterparts for the moments
(`dealer/MomentsHouse.cpp:18-137`). A fronctocol is told apart from others with the same peers by
the order in which they are invoked.
-/

namespace Safrn.Stats

open Safrn.Base

/-- The fronctocols that houses and patrons invoke. -/
inductive Kind
  | basement
  | sisoSort
  | modConvUp
  | divide
  | zipAdjacent
  | beaverTriple
  | randomSquareMatrix
  | compareEndModulus
  | compare
  | typeCastFromBit
  | lookup
  deriving DecidableEq

structure Invocation where
  kind : Kind
  peers : PeerSet
  deriving DecidableEq

/-- What a fronctocol has invoked, and the places in it of those that have not completed. -/
structure Children where
  invoked : List Invocation
  running : List Nat
  deriving DecidableEq

namespace Children

def none : Children := ⟨[], []⟩

def invoke (c : Children) (f : Invocation) : Children :=
  ⟨c.invoked ++ [f], c.running ++ [c.invoked.length]⟩

def completes (c : Children) (k : Nat) : Children := { c with running := c.running.erase k }

/-- A sequence of invocations. -/
def invokes (c : Children) (fs : List Invocation) : Children := fs.foldl invoke c

@[simp] theorem invokes_nil (c : Children) : c.invokes [] = c := rfl

theorem invokes_append (c : Children) (fs gs : List Invocation) :
    c.invokes (fs ++ gs) = (c.invokes fs).invokes gs :=
  List.foldl_append

@[simp] theorem invoked_invokes (c : Children) (fs : List Invocation) :
    (c.invokes fs).invoked = c.invoked ++ fs := by
  induction fs generalizing c with
  | nil => simp
  | cons f fs ih =>
    rw [invokes, List.foldl_cons, ← invokes, ih]
    simp [invoke]

@[simp] theorem length_running_invokes (c : Children) (fs : List Invocation) :
    (c.invokes fs).running.length = c.running.length + fs.length := by
  induction fs generalizing c with
  | nil => simp
  | cons f fs ih =>
    rw [invokes, List.foldl_cons, ← invokes, ih]
    simp [invoke, Nat.add_assoc, Nat.add_comm 1]

end Children

/-- A house with its counter. -/
structure House where
  numDealersRemaining : Nat
  children : Children
  complete : Bool
  deriving DecidableEq

namespace House

/-- `this->invoke(rd, ps)`. -/
def invoke (h : House) (kind : Kind) (ps : PeerSet) : House :=
  { h with children := h.children.invoke ⟨kind, ps⟩ }

/-- The body of the loops over the pairs: the peers are the dealer and the pair. -/
def invokePair (self : Nat) (kind : Kind) (h : House) (other other_two : Identity) :
    Option House := do
  let ps ← PeerSet.empty.add (.dealer self)
  let ps ← ps.add (.dataowner other)
  let ps ← ps.add (.dataowner other_two)
  let h := h.invoke kind ps
  some { h with numDealersRemaining := h.numDealersRemaining + 1 }

/-- The loops over the pairs of data owners of two verticals. -/
def forEachPair (peers : PeerSet) (body : House → Identity → Identity → Option House) (h : House) :
    Option House :=
  peers.eachDataowner.foldlM (fun h other ↦
    peers.eachDataowner.foldlM (fun h other_two ↦
      if other.vertical < other_two.vertical then body h other other_two else some h) h) h

/-- `handleComplete`. -/
def handleComplete (h : House) : House :=
  let h := { h with numDealersRemaining := sizePred h.numDealersRemaining }
  if h.numDealersRemaining = 0 then { h with complete := true } else h

/-- The child at the place `k` completes. -/
def step (h : House) (k : Nat) : Option House :=
  if k ∈ h.children.running then
    some { h with children := h.children.completes k }.handleComplete
  else none

def machine (init : Option House) : Machine House Nat := .ofStep (fun h ↦ init = some h) step

end House

/-- `RegressionRandomnessHouse::init` and `MomentsRandomnessHouse::init`. -/
def houseInit (self : Nat) (peers : PeerSet) : Option House := do
  let h : House := ⟨1, .none, false⟩
  let ps := peers.copy.removeRecipients
  let h := h.invoke .basement ps
  House.forEachPair peers (House.invokePair self .sisoSort) h

/-- `RegressionRandomnessBasement::init`. -/
def regressionBasementInit (self : Nat) (peers : PeerSet) : Option House := do
  let h : House := ⟨10, .none, false⟩
  let h := h.invoke .modConvUp peers
  let h := h.invoke .divide peers
  let h ← House.forEachPair peers (House.invokePair self .zipAdjacent) h
  let h ← House.forEachPair peers (House.invokePair self .beaverTriple) h
  let h := h.invoke .beaverTriple peers
  let h := h.invoke .randomSquareMatrix peers
  let h := h.invoke .beaverTriple peers
  let h := h.invoke .compareEndModulus peers
  let h := h.invoke .compare peers
  let h := h.invoke .typeCastFromBit peers
  let h := h.invoke .lookup peers
  some (h.invoke .lookup peers)

/-- `MomentsRandomnessBasement::init`. -/
def momentsBasementInit (self : Nat) (peers : PeerSet) : Option House := do
  let h : House := ⟨2, .none, false⟩
  let h := h.invoke .modConvUp peers
  let h := h.invoke .divide peers
  House.forEachPair peers (House.invokePair self .zipAdjacent) h

/-! ## What the houses invoke -/

/-- The peers of a pair of data owners. -/
def pairPeers (dealer : Nat) (a b : Identity) : PeerSet :=
  ⟨some dealer, [], addDataowner b (addDataowner a [])⟩

/-- The pairs in the order of the loops. -/
def eachPair (dataowners : List Identity) : List (Identity × Identity) :=
  dataowners.flatMap fun other ↦
    (dataowners.filter fun other_two ↦ other.vertical < other_two.vertical).map (other, ·)

def pairInvocations (self : Nat) (peers : PeerSet) (kind : Kind) : List Invocation :=
  (eachPair peers.eachDataowner).map fun pair ↦ ⟨kind, pairPeers self pair.1 pair.2⟩

def regressionBasementPlan (self : Nat) (peers : PeerSet) : List Invocation :=
  [⟨.modConvUp, peers⟩, ⟨.divide, peers⟩] ++ pairInvocations self peers .zipAdjacent ++
    pairInvocations self peers .beaverTriple ++
    [⟨.beaverTriple, peers⟩, ⟨.randomSquareMatrix, peers⟩, ⟨.beaverTriple, peers⟩,
      ⟨.compareEndModulus, peers⟩, ⟨.compare, peers⟩, ⟨.typeCastFromBit, peers⟩,
      ⟨.lookup, peers⟩, ⟨.lookup, peers⟩]

def momentsBasementPlan (self : Nat) (peers : PeerSet) : List Invocation :=
  [⟨.modConvUp, peers⟩, ⟨.divide, peers⟩] ++ pairInvocations self peers .zipAdjacent

/-- A house that has invoked these and counts all of them. -/
def House.counting (fs : List Invocation) : House :=
  ⟨fs.length, Children.none.invokes fs, false⟩

/-- The house invokes and counts these. -/
def House.all (h : House) (fs : List Invocation) : House :=
  { h with
    numDealersRemaining := h.numDealersRemaining + fs.length
    children := h.children.invokes fs }

theorem House.all_append (h : House) (fs gs : List Invocation) :
    h.all (fs ++ gs) = (h.all fs).all gs := by
  simp [all, Children.invokes_append, Nat.add_assoc]

theorem House.invokePair_eq (self : Nat) (kind : Kind) (h : House) (a b : Identity) :
    House.invokePair self kind h a b = some (h.all [⟨kind, pairPeers self a b⟩]) :=
  rfl

theorem House.forEachPair_eq (self : Nat) (kind : Kind) (peers : PeerSet) (h : House) :
    House.forEachPair peers (House.invokePair self kind) h =
      some (h.all (pairInvocations self peers kind)) := by
  have hinner : ∀ (other : Identity) (rest : List Identity) (h : House),
      rest.foldlM (fun h other_two ↦ if other.vertical < other_two.vertical then
        House.invokePair self kind h other other_two else some h) h =
      some (h.all ((rest.filter fun other_two ↦ other.vertical < other_two.vertical).map
        fun other_two ↦ ⟨kind, pairPeers self other other_two⟩)) := by
    intro other rest
    induction rest with
    | nil => exact fun h ↦ rfl
    | cons other_two rest ih =>
      intro h
      rw [List.foldlM_cons]
      by_cases hlt : other.vertical < other_two.vertical
      · rw [if_pos hlt, invokePair_eq]
        simp [ih, hlt, ← all_append]
      · rw [if_neg hlt]
        simp [ih, hlt]
  have houter : ∀ (rest : List Identity) (h : House),
      rest.foldlM (fun h other ↦ peers.eachDataowner.foldlM (fun h other_two ↦
        if other.vertical < other_two.vertical then
          House.invokePair self kind h other other_two else some h) h) h =
      some (h.all (rest.flatMap fun other ↦ (peers.eachDataowner.filter fun other_two ↦
        other.vertical < other_two.vertical).map fun other_two ↦
          ⟨kind, pairPeers self other other_two⟩)) := by
    intro rest
    induction rest with
    | nil => exact fun h ↦ rfl
    | cons other rest ih =>
      intro h
      rw [List.foldlM_cons, hinner]
      simp [ih, ← all_append]
  rw [forEachPair, houter, pairInvocations, eachPair, List.map_flatMap]
  simp [Function.comp_def]

theorem regressionBasementInit_eq (self : Nat) (peers : PeerSet) :
    regressionBasementInit self peers =
      some (.counting (regressionBasementPlan self peers)) := by
  simp only [regressionBasementInit, House.forEachPair_eq, Option.bind_eq_bind, Option.bind_some,
    Option.some.injEq, House.counting, regressionBasementPlan, Children.invokes_append, House.invoke,
    House.all, House.mk.injEq]
  refine ⟨?_, rfl, trivial⟩
  simp only [List.length_append, List.length_cons, List.length_nil]
  omega

theorem momentsBasementInit_eq (self : Nat) (peers : PeerSet) :
    momentsBasementInit self peers = some (.counting (momentsBasementPlan self peers)) := by
  simp only [momentsBasementInit, House.forEachPair_eq, Option.some.injEq, House.counting,
    momentsBasementPlan, Children.invokes_append, House.invoke, House.all, House.mk.injEq]
  refine ⟨?_, rfl, trivial⟩
  simp only [List.length_append, List.length_cons, List.length_nil]

theorem houseInit_eq (self : Nat) (peers : PeerSet) :
    houseInit self peers = some (.counting (⟨.basement, peers.copy.removeRecipients⟩ ::
      pairInvocations self peers .sisoSort)) := by
  simp only [houseInit, House.forEachPair_eq, Option.some.injEq, House.counting, House.invoke,
    House.all, House.mk.injEq]
  refine ⟨?_, rfl, trivial⟩
  rw [List.length_cons, Nat.add_comm]

/-! ## The counter -/

/-- The counter counts those that run, and the house has completed when it has reached zero. -/
structure House.Counts (h : House) : Prop where
  remaining : h.numDealersRemaining = h.children.running.length
  complete : h.complete = true ↔ h.numDealersRemaining = 0

theorem House.counts_counting {fs : List Invocation} (h : fs ≠ []) :
    (House.counting fs).Counts := by
  constructor
  · simp [counting, Children.none]
  · simp [counting, h]

/-- A child completes. -/
theorem House.Counts.step {h t : House} {k : Nat} (hc : h.Counts) (hstep : h.step k = some t) :
    t.Counts := by
  unfold House.step at hstep
  split at hstep
  case isFalse => cases hstep
  next hk =>
  obtain rfl := Option.some.inj hstep
  have hlength : sizePred h.numDealersRemaining = (h.children.running.erase k).length := by
    rw [hc.remaining, List.length_erase_of_mem hk, sizePred,
      if_neg (Nat.ne_of_gt (List.length_pos_of_mem hk))]
  have hrunning : h.complete = false := by
    have hpos : h.numDealersRemaining ≠ 0 := by
      rw [hc.remaining]
      exact Nat.ne_of_gt (List.length_pos_of_mem hk)
    simpa [hpos] using hc.complete
  unfold handleComplete
  simp only
  split
  · next hzero => exact ⟨hlength, by simpa using hzero⟩
  · next hzero => exact ⟨hlength, by simpa [hrunning] using hzero⟩

/-- In every state of a house the counter is zero, and the house has completed, exactly when all
that it has invoked have completed. -/
theorem House.reachable_counts {init : Option House} {fs : List Invocation} {h : House}
    (hinit : init = some (.counting fs)) (hfs : fs ≠ [])
    (hh : (House.machine init).Reachable h) :
    (h.numDealersRemaining = 0 ↔ h.children.running = []) ∧
      (h.complete = true ↔ h.children.running = []) := by
  have hcounts : h.Counts := by
    apply hh.invariant
    · intro h hstart
      obtain rfl := Option.some.inj (hinit.symm.trans hstart)
      exact counts_counting hfs
    · intro h k t hc hstep
      exact hc.step hstep
  have hzero : h.numDealersRemaining = 0 ↔ h.children.running = [] := by
    rw [hcounts.remaining, List.length_eq_zero_iff]
  exact ⟨hzero, hcounts.complete.trans hzero⟩

end Safrn.Stats
