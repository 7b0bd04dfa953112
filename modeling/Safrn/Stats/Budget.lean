import Mathlib.Tactic.Ring
import Safrn.Stats.Costs

/-!
# The randomness of a regression suffices

From its entry on, each later state still needs what the remaining states draw, and the dispensers
hold at least that. So no dispenser is read when it is empty
(`dataowner/RegressionPatron.cpp:41-76`, `dataowner/Regression.cpp:430-1782`).
-/

namespace Safrn.Stats

open Safrn.Base

/-- The later states in their order. -/
def RegressionStage.order : List RegressionStage :=
  [.awaitingZipReduce, .awaitingBatchedModConvUp, .awaitingMatrixMultiply, .awaitingMatrixReveal,
    .awaitingRegressionMultiply, .awaitingFirstCompare, .awaitingFirstTypeCastFromBit,
    .awaitingNegativeCorrectionMultiply, .awaitingDivision, .awaitingNegativeRecorrectionMultiply,
    .awaitingFirstMultiplyForErrorTerms, .awaitingSecondMultiplyForErrorTerms,
    .awaitingThirdMultiplyForErrorTerms, .awaitingFourthMultiplyForErrorTerms,
    .awaitingDivisionForErrorTerms, .awaitingCompareForFtStatistics,
    .awaitingBatchedTypeCastFromBit, .awaitingCompareForFtStatisticsEndModulus,
    .awaitingBatchedTypeCastFromBitLast, .awaitingFifthMultiplyForErrorTerms,
    .awaitingBatchedLookup]

/-- The state and those after it. -/
def RegressionStage.remaining (stage : RegressionStage) : List RegressionStage :=
  order.dropWhile (· ≠ stage)

namespace RegressionRun

variable (r : RegressionRun)

/-- What is drawn from the state on. -/
def demand (stage : RegressionStage) (d : RegressionDispenser) : Nat :=
  (stage.remaining.map fun t ↦ r.cost t (r.batchSize t) d).sum

theorem nextSize_batchSize (stage : RegressionStage) :
    r.nextSize stage (r.batchSize stage) = r.batchSize stage.follows := by
  cases stage <;> rfl

theorem demand_follows {stage : RegressionStage} (h : stage ≠ .awaitingBatchedLookup)
    (d : RegressionDispenser) :
    r.demand stage d = r.cost stage (r.batchSize stage) d + r.demand stage.follows d := by
  have hremaining : stage.remaining = stage :: stage.follows.remaining := by
    cases stage <;> first | rfl | exact absurd rfl h
  rw [demand, hremaining, List.map_cons, List.sum_cons]
  rfl

/-- The library stays within what the patron counts for it: one combination less than there are rows
to reduce, and a triple for each product of entries. -/
structure LibraryCounts : Prop where
  zipReduce : ∀ n, r.zipReduceFronctocols n ≤ n - 1
  matrixMult : ∀ a b c, r.matrixMultTriples a b c ≤ a * b * c

theorem pred_le_sizePred (n : Nat) : n - 1 ≤ sizePred n := by
  unfold sizePred
  split <;> omega

/-- What is drawn before the first later state. -/
def zipCost (d : RegressionDispenser) : Nat :=
  match d with
  | .zipAdjacent i => if i < r.numCrossParties then 1 else 0
  | .beaverTripleForFactory i => if i < r.numCrossParties then
      r.zipReduceFronctocols (2 * r.maxListSize) * r.payloadComputeTriples else 0
  | _ => 0

/-- What the patron requests is enough for the whole run. -/
theorem demand_le_requested (hF : 1 ≤ r.fRows) (ht : 1 ≤ r.tRows) (hlib : r.LibraryCounts)
    (d : RegressionDispenser) :
    r.zipCost d + r.demand .awaitingZipReduce d ≤ r.requested d := by
  have hF' : sizePred r.fRows = r.fRows - 1 := if_neg (Nat.ne_of_gt hF)
  have ht' : sizePred r.tRows = r.tRows - 1 := if_neg (Nat.ne_of_gt ht)
  have hsum : r.demand .awaitingZipReduce d =
      (RegressionStage.order.map fun t ↦ r.cost t (r.batchSize t) d).sum := rfl
  rw [hsum]
  simp only [RegressionStage.order, List.map_cons, List.map_nil, List.sum_cons, List.sum_nil, cost,
    batchSize, RegressionStage.follows, hF', ht']
  cases d with
  | modConvUp => simp [zipCost, requested]
  | divide =>
    simp [zipCost, requested]
    omega
  | zipAdjacent i => simp [zipCost, requested]
  | beaverTripleForFactory i =>
    have htriples : r.zipReduceFronctocols (2 * r.maxListSize) * r.payloadComputeTriples ≤
        sizePred (2 * r.maxListSize) * r.payloadComputeTriples :=
      Nat.mul_le_mul_right _ ((hlib.zipReduce _).trans (pred_le_sizePred _))
    simp only [zipCost, requested]
    split
    · simpa using htriples
    · simp
  | beaverTripleForMatrixMultiply => simpa [zipCost, requested] using hlib.matrixMult _ _ _
  | randomMatrixAndDetInverse => simp [zipCost, requested]
  | beaverTripleForFinalMultiply =>
    simp [zipCost, requested, Nat.mul_add]
    omega
  | compareEndModulus =>
    simp [zipCost, requested]
    omega
  | compare =>
    simp [zipCost, requested]
    omega
  | typeCastFromBit =>
    simp [zipCost, requested]
    omega
  | fLookup => simp [zipCost, requested]
  | tLookup => simp [zipCost, requested]
  | lookupTable k => simp [zipCost, requested, Pi.single_apply]
  | lookupCompare k => simp [zipCost, requested, Pi.single_apply]
  | lookupTypeCastFromBit k => simp [zipCost, requested, Pi.single_apply]

/-! ## The later states -/

/-- A session in a later state awaits the batch of that state alone and can pay for the rest. -/
structure Awaits (stage : RegressionStage)
    (s : Session RegressionStage RegressionDispenser) : Prop where
  randomnessDone : s.randomnessDone = true
  runs : ∀ f, s.Runs f → if stage = .awaitingZipReduce then
      ∃ i < r.numCrossParties, f = .later .awaitingZipReduce i 0
    else f = .later stage 0 (r.batchSize stage)
  count : stage = .awaitingZipReduce → s.numPartiesAwaiting = (missing r.numCrossParties
    (fun i ↦ .completed (.later .awaitingZipReduce i 0)) s.log).card
  demand : ∀ d, s.drawn d + r.demand stage d ≤ r.requested d

variable {r} {s : Session RegressionStage RegressionDispenser}

theorem Awaits.affords {stage : RegressionStage} (h : r.Awaits stage s)
    (hlast : stage ≠ .awaitingBatchedLookup) (d : RegressionDispenser) :
    s.drawn d + r.cost stage (r.batchSize stage) d ≤ r.requested d := by
  have hdemand := h.demand d
  rw [r.demand_follows hlast] at hdemand
  omega

/-- The only fronctocol that runs completes, and the next batch starts. -/
private theorem Awaits.next {stage : RegressionStage} {f : Child RegressionStage}
    {t : Session RegressionStage RegressionDispenser} (h : r.Awaits stage s)
    (hlast : stage ≠ .awaitingBatchedLookup) (hruns : ∀ g, s.Runs g → g = f)
    (hlog : t.log = .completed f :: s.log) (hr : t.randomnessDone = s.randomnessDone)
    (hdrawn : t.drawn = s.drawn) :
    r.Awaits stage.follows ((t.spend (r.cost stage (r.batchSize stage))).next stage.follows
      (r.batchSize stage.follows)) := by
  have hfollows : stage.follows ≠ .awaitingZipReduce := by
    cases stage <;> simp [RegressionStage.follows]
  constructor
  · exact hr.trans h.randomnessDone
  · intro g hg
    rw [if_neg hfollows]
    by_contra hother
    have hmem : .invoked g ∈ s.log := by
      have hinvoked := hg.1
      simp only [Session.next, Session.spend, Session.goto, Session.invoke, hlog, List.mem_cons,
        reduceCtorEq, Entry.invoked.injEq, hother, false_or] at hinvoked
      exact hinvoked
    have hnot : g ≠ f ∧ .completed g ∉ s.log := by
      have hcompleted := hg.2
      simp only [Session.next, Session.spend, Session.goto, Session.invoke, hlog, List.mem_cons,
        reduceCtorEq, Entry.completed.injEq, false_or, not_or] at hcompleted
      exact hcompleted
    exact hnot.1 (hruns g ⟨hmem, hnot.2⟩)
  · intro hzip
    exact absurd hzip hfollows
  · intro d
    have hdemand := h.demand d
    rw [r.demand_follows hlast] at hdemand
    show t.drawn d + _ + _ ≤ _
    rw [hdrawn, Nat.add_assoc]
    exact hdemand

theorem runs_completes {f g : Child RegressionStage} :
    (s.completes f).Runs g ↔ s.Runs g ∧ g ≠ f := by
  simp [Session.Runs]
  tauto

/-- A `ZipReduce` completes: others run, or it was the last. -/
private theorem Awaits.zipReduce (h : r.Awaits .awaitingZipReduce s)
    (hs : s.state = .later .awaitingZipReduce) {f : Child RegressionStage} (hf : s.Runs f) :
    ∃ t stage, r.handleComplete .awaitingZipReduce f (s.completes f) = some t ∧
      t.state = .later stage ∧ r.Awaits stage t := by
  obtain ⟨i, hi, rfl⟩ := h.runs f hf
  have hcount := count_completes (fun j k heq ↦ by cases heq; rfl) (h.count rfl) hi hf
  rw [handleComplete_zipReduce]
  by_cases hzero :
      (s.completes (.later .awaitingZipReduce i 0)).decrement.numPartiesAwaiting = 0
  · rw [if_pos hzero]
    have hall := missing_eq_zero (hcount.symm.trans hzero)
    have hruns : ∀ g, s.Runs g → g = .later .awaitingZipReduce i 0 := by
      intro g hg
      obtain ⟨j, hj, rfl⟩ := h.runs g hg
      rcases List.mem_cons.mp (hall j hj) with heq | hmem
      · cases heq
        rfl
      · exact absurd hmem hg.2
    exact ⟨_, _, r.zipReduced_spends.run _ h.randomnessDone (h.affords (by simp)), rfl,
      h.next (by simp) hruns rfl rfl rfl⟩
  · rw [if_neg hzero]
    refine ⟨_, _, rfl, hs, h.randomnessDone, ?_, fun _ ↦ hcount, h.demand⟩
    intro g hg
    exact h.runs g (runs_completes.mp hg).1

/-- A batch completes in a later state. -/
theorem Awaits.handled {stage : RegressionStage} (h : r.Awaits stage s)
    (hs : s.state = .later stage) {f : Child RegressionStage} (hf : s.Runs f) :
    ∃ t stage', r.handleComplete stage f (s.completes f) = some t ∧
      t.state = .later stage' ∧ r.Awaits stage' t := by
  by_cases hfirst : stage = .awaitingZipReduce
  · subst hfirst
    exact h.zipReduce hs hf
  have hruns : ∀ g, s.Runs g → g = .later stage 0 (r.batchSize stage) := by
    intro g hg
    simpa [hfirst] using h.runs g hg
  obtain rfl := hruns f hf
  by_cases hlast : stage = .awaitingBatchedLookup
  · subst hlast
    refine ⟨_, _, rfl, hs, h.randomnessDone, ?_, ?_, h.demand⟩
    · intro g hg
      exact h.runs g (runs_completes.mp (by simpa [Session.Runs] using hg)).1
    · simp
  · let f := Child.later stage 0 (r.batchSize stage)
    have hrun := (r.handleComplete_spends f hfirst hlast).run (s.completes f) h.randomnessDone
      (h.affords hlast)
    rw [show f.size = r.batchSize stage from rfl, nextSize_batchSize] at hrun
    exact ⟨_, _, hrun, rfl, h.next hlast hruns rfl rfl rfl⟩

/-- The zipping and the factories have dispensers of their own. -/
private theorem drawn_add_zipReduceCost (h : Zipping r.program s) (d : RegressionDispenser) :
    s.drawn d + r.zipReduceCost d = r.zipCost d := by
  have hother : ∀ d, (∀ j, d ≠ .zipAdjacent j) → s.drawn d = 0 :=
    fun d hd ↦ h.drawn_other d fun j _ ↦ hd j
  rw [zipReduceCost, Finset.sum_apply]
  cases d with
  | zipAdjacent j =>
    by_cases hj : j < r.numCrossParties
    · simp [zipCost, hj, show s.drawn (.zipAdjacent j) = 1 from h.drawn_zip j hj]
    · have hdrawn : s.drawn (.zipAdjacent j) = 0 := by
        apply h.drawn_other
        rintro k hk heq
        cases heq
        exact hj hk
      simp [zipCost, hj, hdrawn]
  | beaverTripleForFactory j =>
    rw [hother _ (by simp)]
    simp [zipCost, Pi.single_apply]
  | _ =>
    rw [hother _ (by simp)]
    simp [zipCost]

/-- The last list is zipped, and all `ZipReduce` start. -/
private theorem zipped_awaits (hsuffices : ∀ d,
      r.zipCost d + r.demand .awaitingZipReduce d ≤ r.requested d)
    (hc : Common r.program s) (h : Zipping r.program s) {i : Nat} (hi : i < r.numCrossParties)
    (hf : s.Runs (.zipAdjacent i))
    (hzero : (s.completes (.zipAdjacent i)).decrement.numPartiesAwaiting = 0) :
    ∃ t, r.zipped (s.completes (.zipAdjacent i)).decrement = some t ∧
      t.state = .later .awaitingZipReduce ∧ r.Awaits .awaitingZipReduce t := by
  have hcount := count_completes (fun _ _ heq ↦ Child.zipAdjacent.inj heq) h.count hi hf
  have hall := missing_eq_zero (hcount.symm.trans hzero)
  have hrun := r.zipped_spends.run (s.completes (.zipAdjacent i)).decrement h.randomnessDone
    fun d ↦ (drawn_add_zipReduceCost h d).trans_le (le_trans (Nat.le_add_right _ _) (hsuffices d))
  rw [forRange_invoke] at hrun
  refine ⟨_, hrun, rfl, h.randomnessDone, ?_, ?_, ?_⟩
  · rintro g ⟨hinvoked, hnot⟩
    rw [if_pos rfl]
    simp only [Session.goto, Session.await, Session.spend, Session.decrement, Session.completes,
      List.mem_cons, reduceCtorEq, false_or] at hinvoked hnot
    rcases mem_invocations.mp hinvoked with ⟨j, hj, heq⟩ | hinvoked
    · cases heq
      exact ⟨j, hj, rfl⟩
    have hcompleted : .completed g ∉ .completed (.zipAdjacent i) :: s.log :=
      fun hmem ↦ hnot (mem_invocations.mpr (.inr hmem))
    have hcompletedBefore : .completed g ∉ s.log :=
      fun hmem ↦ hcompleted (List.mem_cons_of_mem _ hmem)
    rcases h.invoked g (by simpa using hinvoked) with rfl | ⟨j, hj, rfl | rfl⟩
    · exact absurd (hc.randomness.mpr h.randomnessDone) hcompletedBefore
    · exact absurd (h.sorted j hj) hcompletedBefore
    · exact absurd (hall j hj) hcompleted
  · intro _
    refine (card_missing_fresh ?_).symm
    intro j _ hmem
    have hmem : .completed (.later .awaitingZipReduce j 0) ∈ s.log := by
      simpa [Session.spend] using hmem
    rcases h.invoked _ (hc.completed _ hmem) with heq | ⟨k, _, heq | heq⟩
    · cases heq
    · cases heq
    · cases heq
  · intro d
    show s.drawn d + _ + _ ≤ _
    rw [drawn_add_zipReduceCost h]
    exact hsuffices d

variable (r s) in
/-- What a session owes once it is in a later state. -/
def Solvent : Prop := ∀ stage, s.state = .later stage → r.Awaits stage s

private theorem notLater_handleState {f : Child RegressionStage}
    {t : Session RegressionStage RegressionDispenser} (hlater : ∀ stage, s.state ≠ .later stage)
    (hzip : s.state ≠ .awaitingZipAdjacent) (hstep : r.program.handleState s f = some t) :
    ∀ stage, t.state ≠ .later stage := by
  unfold Program.handleState at hstep
  split at hstep
  · next hstate =>
    simp only at hstep
    split at hstep
    · obtain ⟨u, -, hu⟩ := Option.bind_eq_some_iff.mp hstep
      obtain rfl := Option.some.inj hu
      simp
    · obtain rfl := Option.some.inj hstep
      exact hlater
  · next hstate => exact absurd hstate hzip
  · next stage hstate => exact absurd hstate (hlater stage)
  · obtain rfl := Option.some.inj hstep
    exact hlater

/-- A step from before the zipping does not reach a later state. -/
private theorem notLater_step {a : Program.Event RegressionStage}
    {t : Session RegressionStage RegressionDispenser} (hlater : ∀ stage, s.state ≠ .later stage)
    (hzip : s.state ≠ .awaitingZipAdjacent) (hstep : r.program.step s a = some t) :
    ∀ stage, t.state ≠ .later stage := by
  unfold Program.step at hstep
  split at hstep
  case isFalse => cases hstep
  cases a with
  | receive i =>
    obtain rfl := Option.some.inj hstep
    by_cases hzero : (s.received i).decrement.numPartiesAwaiting = 0
    · rw [Program.handleReceive, if_pos hzero]
      simp
    · rw [Program.handleReceive, if_neg hzero]
      exact hlater
  | complete f =>
    simp only at hstep
    unfold Program.handleCompletion at hstep
    split at hstep
    case isFalse => exact notLater_handleState (s := s.completes f) hlater hzip hstep
    split at hstep
    · simp only at hstep
      split at hstep
      · obtain rfl := Option.some.inj hstep
        simp
      · obtain rfl := Option.some.inj hstep
        exact hlater
    · simp only at hstep
      split at hstep
      · exact notLater_handleState (by simp) (by simp) hstep
      · obtain rfl := Option.some.inj hstep
        simp

/-- Every event that can happen is handled, and the session stays solvent. -/
theorem Solvent.progress (hsuffices : ∀ d,
      r.zipCost d + r.demand .awaitingZipReduce d ≤ r.requested d)
    (hN : 0 < r.numCrossParties) (hinv : Inv r.program s) (h : r.Solvent s)
    {a : Program.Event RegressionStage} (ha : r.program.Enabled s a) :
    ∃ t, r.program.step s a = some t ∧ r.Solvent t := by
  have hbefore : .enter .awaitingZipAdjacent ∉ s.log → (∀ stage, s.state ≠ .later stage) →
      s.state ≠ .awaitingZipAdjacent → ∃ t, r.program.step s a = some t ∧ r.Solvent t := by
    intro henter hlater hzip
    obtain ⟨t, hstep, -⟩ := hinv.progress r.sound hN henter ha
    refine ⟨t, hstep, ?_⟩
    intro stage hstage
    exact absurd hstage (notLater_step hlater hzip hstep stage)
  obtain ⟨hc, hphase⟩ := hinv
  cases hphase with
  | sharing h' =>
    have hstate := h'.state
    apply hbefore h'.enter <;> split at hstate <;> simp [hstate]
  | sorting h' => exact hbefore h'.enter (by simp [h'.state]) (by simp [h'.state])
  | sorted h' _ hstate => exact hbefore h'.enter (by simp [hstate]) (by simp [hstate])
  | zipping h' =>
    cases a with
    | receive i => exact absurd (h'.received i ha.1) ha.2
    | complete f =>
      unfold Program.step
      rw [if_pos ha]
      show ∃ t, r.program.handleCompletion (s.completes f) f = some t ∧ r.Solvent t
      rw [Program.handleCompletion_done (s := s.completes _) h'.randomnessDone,
        Program.handleState_zip (s := s.completes _) h'.state]
      rcases h'.invoked f ha.1 with rfl | ⟨i, hi, rfl | rfl⟩
      · exact absurd (hc.randomness.mpr h'.randomnessDone) ha.2
      · exact absurd (h'.sorted i hi) ha.2
      by_cases hzero : (s.completes (.zipAdjacent i)).decrement.numPartiesAwaiting = 0
      · rw [if_pos hzero]
        obtain ⟨t, hrun, hstate, hawaits⟩ := zipped_awaits hsuffices hc h' hi ha hzero
        refine ⟨t, hrun, ?_⟩
        intro stage hstage
        rw [hstate] at hstage
        cases hstage
        exact hawaits
      · rw [if_neg hzero]
        refine ⟨_, rfl, ?_⟩
        intro stage hstage
        have hstage : s.state = .later stage := hstage
        rw [h'.state] at hstage
        cases hstage
  | later h' hstate =>
    obtain ⟨stage, hstate⟩ := hstate
    cases a with
    | receive i => exact absurd (h'.received i ha.1) ha.2
    | complete f =>
      unfold Program.step
      rw [if_pos ha]
      show ∃ t, r.program.handleCompletion (s.completes f) f = some t ∧ r.Solvent t
      rw [Program.handleCompletion_done (s := s.completes _) h'.randomnessDone,
        Program.handleState_later (s := s.completes _) hstate]
      obtain ⟨t, stage', hrun, hstate', hawaits⟩ := (h stage hstate).handled hstate ha
      refine ⟨t, hrun, ?_⟩
      intro stage hstage
      rw [hstate'] at hstage
      cases hstage
      exact hawaits

/-! ## No cross parties -/

variable (s) in
/-- Without cross parties only the patron runs. -/
structure Alone : Prop where
  invoked : ∀ f, .invoked f ∈ s.log → f = .randomnessPatron
  drawn : ∀ d, s.drawn d = 0
  randomness : .completed .randomnessPatron ∉ s.log → s.randomnessDone = false
  state : s.randomnessDone = false → s.state = .awaitingRandomnessAndSISOSort

private theorem Alone.progress (hN : r.numCrossParties = 0) (h : Alone s)
    {a : Program.Event RegressionStage} (ha : r.program.Enabled s a) :
    ∃ t, r.program.step s a = some t ∧ Alone t := by
  cases a with
  | receive i => exact absurd (hN ▸ ha.1) (Nat.not_lt_zero i)
  | complete f =>
    obtain rfl := h.invoked f ha.1
    have hr := h.randomness ha.2
    refine ⟨{ s.completes .randomnessPatron with randomnessDone := true }.goto .awaitingSISOSort,
      ?_, ?_, h.drawn, ?_, ?_⟩
    · unfold Program.step
      rw [if_pos ha]
      exact (Program.handleCompletion_patron (s := s.completes _) hr).trans
        (if_neg (by simp [h.state hr]))
    · intro f hf
      exact h.invoked f (by simpa using hf)
    · simp
    · simp

/-! ## Whole runs -/

/-- A session that stays solvent has drawn no more than was requested. -/
private theorem Solvent.drawn_le (hinv : Inv r.program s) (h : r.Solvent s)
    (d : RegressionDispenser) : s.drawn d ≤ r.requested d := by
  cases hinv.phase with
  | sharing h' => exact (h'.drawn d).trans_le (Nat.zero_le _)
  | sorting h' => exact (h'.drawn d).trans_le (Nat.zero_le _)
  | sorted h' _ _ => exact (h'.drawn d).trans_le (Nat.zero_le _)
  | zipping h' =>
    by_cases hzip : ∃ i < r.numCrossParties, d = .zipAdjacent i
    · obtain ⟨i, hi, rfl⟩ := hzip
      exact (h'.drawn_zip i hi).trans_le (r.sound.requested i hi)
    · have hdrawn : s.drawn d = 0 := h'.drawn_other d fun i hi heq ↦ hzip ⟨i, hi, heq⟩
      exact hdrawn.trans_le (Nat.zero_le _)
  | later _ hstate =>
    obtain ⟨stage, hstate⟩ := hstate
    exact le_trans (Nat.le_add_right _ _) ((h stage hstate).demand d)

/-- In every session that a regression can reach no dispenser has been read more often than the
patron has filled it, and every event that can happen is handled. -/
theorem drawn_le_requested (r : RegressionRun) (hF : 1 ≤ r.fRows) (ht : 1 ≤ r.tRows)
    (hlib : r.LibraryCounts) {s : Session RegressionStage RegressionDispenser}
    (hs : r.program.machine.Reachable s) :
    (∀ d, s.drawn d ≤ r.requested d) ∧
      ∀ a, r.program.Enabled s a → (r.program.step s a).isSome := by
  have hsuffices := r.demand_le_requested hF ht hlib
  rcases Nat.eq_zero_or_pos r.numCrossParties with hN | hN
  · have halone : Alone s := by
      refine hs.invariant ?_ ?_
      · rintro _ rfl
        exact ⟨by simp [Program.start], fun _ ↦ rfl, fun _ ↦ rfl, fun _ ↦ rfl⟩
      · intro s a t h hstep
        obtain ⟨t', hstep', ht'⟩ := h.progress hN (Program.enabled_of_step hstep)
        obtain rfl := Option.some.inj (hstep.symm.trans hstep')
        exact ht'
    constructor
    · intro d
      exact (halone.drawn d).trans_le (Nat.zero_le _)
    · intro a ha
      obtain ⟨t, hstep, -⟩ := halone.progress hN ha
      exact Option.isSome_of_eq_some hstep
  · have hsolvent : Inv r.program s ∧ r.Solvent s := by
      apply hs.invariant (P := fun s ↦ Inv r.program s ∧ r.Solvent s)
      · rintro _ rfl
        exact ⟨inv_start hN, fun stage hstage ↦ by cases hstage⟩
      · rintro s a t ⟨hinv, h⟩ hstep
        obtain ⟨t', hstep', ht'⟩ := h.progress hsuffices hN hinv (Program.enabled_of_step hstep)
        obtain rfl := Option.some.inj (hstep.symm.trans hstep')
        exact ⟨hinv.step r.sound hN hstep, ht'⟩
    constructor
    · exact hsolvent.2.drawn_le hsolvent.1
    · intro a ha
      obtain ⟨t, hstep, -⟩ := hsolvent.2.progress hsuffices hN hsolvent.1 ha
      exact Option.isSome_of_eq_some hstep

/-- A whole run of a regression of one cross party. -/
def wholeRun : List (Program.Event RegressionStage) :=
  [.complete .randomnessPatron, .receive 0, .complete (.sisoSort 0), .complete (.zipAdjacent 0)] ++
    RegressionStage.order.map fun stage ↦
      .complete (.later stage 0 (oneCrossParty.batchSize stage))

theorem drawn_le_requested_wholeRun :
    ∃ s, oneCrossParty.program.machine.Run oneCrossParty.program.start wholeRun s ∧
      .finished ∈ s.log ∧ s.drawn .beaverTripleForFinalMultiply = 35 ∧
      (∀ d, s.drawn d ≤ oneCrossParty.requested d) ∧
      ∀ a, oneCrossParty.program.Enabled s a → (oneCrossParty.program.step s a).isSome := by
  have hsome : ∃ s, Machine.execute oneCrossParty.program.step oneCrossParty.program.start
      wholeRun = some s ∧ .finished ∈ s.log ∧ s.drawn .beaverTripleForFinalMultiply = 35 :=
    ⟨_, rfl, by decide, by decide⟩
  obtain ⟨s, hs, hfinished, hdrawn⟩ := hsome
  have hrun : oneCrossParty.program.machine.Run oneCrossParty.program.start wholeRun s :=
    Machine.run_of_execute hs
  have hlib : oneCrossParty.LibraryCounts := ⟨fun _ ↦ Nat.le_refl _, fun _ _ _ ↦ Nat.le_refl _⟩
  exact ⟨s, hrun, hfinished, hdrawn, drawn_le_requested oneCrossParty (Nat.le_refl 1)
    (Nat.le_refl 1) hlib ⟨_, wholeRun, rfl, hrun⟩⟩

end RegressionRun
end Safrn.Stats
