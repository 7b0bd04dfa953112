import Mathlib.Algebra.BigOperators.Group.Finset.Basic
import Mathlib.Algebra.BigOperators.Pi
import Safrn.Base.Triangle
import Safrn.Stats.Stages

/-!
# What the later states draw

Each later case of `handleComplete` draws a number of items of each dispenser that depends on the
run alone, and then invokes one batch. Costs add up along a chain of draws and along a loop.
-/

namespace Safrn.Stats

open Safrn.Base

variable {Stage Dispenser : Type}

private theorem sum_triangle (n : Nat) : ∑ i ∈ Finset.range n, (n - i) = n * (n + 1) / 2 := by
  induction n with
  | zero => rfl
  | succ n ih =>
    rw [Finset.sum_range_succ', half_succ, ← ih]
    simp

/-- The session after the cost. -/
def Session.spend (cost : Dispenser → Nat) (s : Session Stage Dispenser) :
    Session Stage Dispenser :=
  { s with drawn := s.drawn + cost }

/-- A change that neither reads nor writes what has been drawn. -/
structure Neutral (next : Session Stage Dispenser → Session Stage Dispenser) : Prop where
  randomnessDone : ∀ s, (next s).randomnessDone = s.randomnessDone
  drawn : ∀ s, (next s).drawn = s.drawn
  spend : ∀ cost s, next (s.spend cost) = (next s).spend cost

theorem neutral_id : Neutral (id : Session Stage Dispenser → Session Stage Dispenser) :=
  ⟨fun _ ↦ rfl, fun _ ↦ rfl, fun _ _ ↦ rfl⟩

theorem neutral_invoke (f : Child Stage) :
    Neutral fun s : Session Stage Dispenser ↦ s.invoke f :=
  ⟨fun _ ↦ rfl, fun _ ↦ rfl, fun _ _ ↦ rfl⟩

theorem neutral_forRange {next : Nat → Session Stage Dispenser → Session Stage Dispenser}
    (h : ∀ i, Neutral (next i)) (n : Nat) : Neutral (forRange (fun s i ↦ next i s) n) := by
  induction n with
  | zero => exact neutral_id
  | succ n ih =>
    constructor
    · intro s
      exact ((h n).randomnessDone _).trans (ih.randomnessDone s)
    · intro s
      exact ((h n).drawn _).trans (ih.drawn s)
    · intro cost s
      rw [forRange, ih.spend, (h n).spend]
      rfl

/-- When the dispensers suffice the action succeeds, and when it succeeds it has drawn the cost and
done what comes next. -/
structure Spends (requested : Dispenser → Nat)
    (act : Session Stage Dispenser → Option (Session Stage Dispenser)) (cost : Dispenser → Nat)
    (next : Session Stage Dispenser → Session Stage Dispenser) : Prop where
  run : ∀ s, s.randomnessDone = true → (∀ d, s.drawn d + cost d ≤ requested d) →
    act s = some (next (s.spend cost))
  only : ∀ s t, act s = some t → t = next (s.spend cost)

namespace Spends

variable {requested : Dispenser → Nat}
  {act act' : Session Stage Dispenser → Option (Session Stage Dispenser)}
  {cost cost' : Dispenser → Nat} {next next' : Session Stage Dispenser → Session Stage Dispenser}

theorem congr (h : Spends requested act cost next) (hcost : cost = cost') :
    Spends requested act cost' next :=
  hcost ▸ h

theorem none : Spends requested (fun s ↦ some (next s)) 0 next := by
  constructor
  · intro s _ _
    rfl
  · intro s t ht
    exact (Option.some.inj ht).symm

/-- One action after the other. -/
theorem seq (h : Spends requested act cost next) (hnext : Neutral next)
    (h' : Spends requested act' cost' next') :
    Spends requested (fun s ↦ (act s).bind act') (cost + cost') fun s ↦ next' (next s) := by
  have hspend : ∀ s : Session Stage Dispenser,
      (next (s.spend cost)).spend cost' = next (s.spend (cost + cost')) := by
    intro s
    rw [← hnext.spend]
    simp [Session.spend, add_assoc]
  constructor
  · intro s hr hd
    have hfirst : act s = some (next (s.spend cost)) := by
      apply h.run s hr
      intro d
      exact le_trans (Nat.add_le_add_left (Nat.le_add_right _ _) _) (hd d)
    have hsecond : act' (next (s.spend cost)) =
        some (next' ((next (s.spend cost)).spend cost')) := by
      apply h'.run
      · exact (hnext.randomnessDone _).trans hr
      · intro d
        rw [hnext.drawn]
        exact (Nat.add_assoc _ _ _).trans_le (hd d)
    rw [hfirst, Option.bind_some, hsecond, hspend]
  · intro s t ht
    obtain ⟨u, hu, ht⟩ := Option.bind_eq_some_iff.mp ht
    rw [h.only s u hu] at ht
    rw [h'.only _ t ht, hspend]

/-- Draw and go on. -/
theorem bind (h : Spends requested act cost id) (h' : Spends requested act' cost' next) :
    Spends requested (fun s ↦ (act s).bind act') (cost + cost') next :=
  h.seq neutral_id h'

/-- Draw and do what comes next. -/
theorem last (h : Spends requested act cost id) :
    Spends requested (fun s ↦ (act s).bind fun t ↦ some (next t)) cost next :=
  (h.bind none).congr (add_zero cost)

/-- The costs of the rounds of a loop add up. -/
theorem loop {body : Session Stage Dispenser → Nat → Option (Session Stage Dispenser)}
    {cost : Nat → Dispenser → Nat} {next : Nat → Session Stage Dispenser → Session Stage Dispenser}
    (h : ∀ i, Spends requested (fun s ↦ body s i) (cost i) (next i)) (hnext : ∀ i, Neutral (next i))
    (n : Nat) : Spends requested (forRangeM body n) (∑ i ∈ Finset.range n, cost i)
      (forRange (fun s i ↦ next i s) n) := by
  induction n with
  | zero => exact none
  | succ n ih =>
    rw [Finset.sum_range_succ]
    exact ih.seq (neutral_forRange hnext n) (h n)

/-- A loop that only draws. -/
theorem repeated {body : Session Stage Dispenser → Nat → Option (Session Stage Dispenser)}
    {cost : Nat → Dispenser → Nat} (h : ∀ i, Spends requested (fun s ↦ body s i) (cost i) id)
    (n : Nat) : Spends requested (forRangeM body n) (∑ i ∈ Finset.range n, cost i) id := by
  induction n with
  | zero => exact none
  | succ n ih =>
    rw [Finset.sum_range_succ]
    exact ih.bind (h n)

section

variable [DecidableEq Dispenser] (d : Dispenser)

theorem get : Spends requested (fun s : Session Stage Dispenser ↦ s.get requested d)
    (Pi.single d 1) id := by
  have hspend : ∀ s : Session Stage Dispenser,
      { s with drawn := Function.update s.drawn d (s.drawn d + 1) } =
        s.spend (Pi.single d 1) := by
    intro s
    rw [Session.spend]
    congr 1
    funext e
    by_cases he : e = d
    · subst he
      simp
    · simp [he]
  constructor
  · intro s hr hd
    have hpos : s.drawn d < requested d := Nat.lt_of_succ_le (by simpa using hd d)
    rw [Session.get, if_pos ⟨hr, hpos⟩, hspend]
    rfl
  · intro s t ht
    rw [Session.get] at ht
    split at ht
    · rw [← Option.some.inj ht, hspend]
      rfl
    · cases ht

theorem gets (n : Nat) : Spends requested (fun s : Session Stage Dispenser ↦ s.gets requested d n)
    (Pi.single d n) id := by
  apply (repeated (fun _ ↦ get d) n).congr
  ext e
  by_cases he : e = d
  · subst he
    simp
  · simp [he]

theorem getsTriangle (n : Nat) :
    Spends requested (fun s : Session Stage Dispenser ↦ s.getsTriangle requested d n)
      (Pi.single d (n * (n + 1) / 2)) id := by
  apply (repeated (fun i ↦ gets d (n - i)) n).congr
  ext e
  by_cases he : e = d
  · subst he
    simp [sum_triangle]
  · simp [he]

end

end Spends

theorem Session.continues_next (stage : Stage) (size : Nat) (cost : Dispenser → Nat)
    (s : Session Stage Dispenser) : s.Continues ((s.spend cost).next stage size) :=
  ⟨rfl, ⟨stage, rfl⟩, [.enter (.later stage), .invoked (.later stage 0 size)], rfl,
    by simp [Entry.Late]⟩

theorem Session.continues_finish {stage : Stage} {s : Session Stage Dispenser}
    (hs : s.state = .later stage) : s.Continues s.finish :=
  ⟨rfl, ⟨stage, hs⟩, [.finished], rfl, by simp [Entry.Late]⟩

/-! ## Regression -/

/-- The state that comes next. -/
def RegressionStage.follows : RegressionStage → RegressionStage
  | .awaitingZipReduce => .awaitingBatchedModConvUp
  | .awaitingBatchedModConvUp => .awaitingMatrixMultiply
  | .awaitingMatrixMultiply => .awaitingMatrixReveal
  | .awaitingMatrixReveal => .awaitingRegressionMultiply
  | .awaitingRegressionMultiply => .awaitingFirstCompare
  | .awaitingFirstCompare => .awaitingFirstTypeCastFromBit
  | .awaitingFirstTypeCastFromBit => .awaitingNegativeCorrectionMultiply
  | .awaitingNegativeCorrectionMultiply => .awaitingDivision
  | .awaitingDivision => .awaitingNegativeRecorrectionMultiply
  | .awaitingNegativeRecorrectionMultiply => .awaitingFirstMultiplyForErrorTerms
  | .awaitingFirstMultiplyForErrorTerms => .awaitingSecondMultiplyForErrorTerms
  | .awaitingSecondMultiplyForErrorTerms => .awaitingThirdMultiplyForErrorTerms
  | .awaitingThirdMultiplyForErrorTerms => .awaitingFourthMultiplyForErrorTerms
  | .awaitingFourthMultiplyForErrorTerms => .awaitingDivisionForErrorTerms
  | .awaitingDivisionForErrorTerms => .awaitingCompareForFtStatistics
  | .awaitingCompareForFtStatistics => .awaitingBatchedTypeCastFromBit
  | .awaitingBatchedTypeCastFromBit => .awaitingCompareForFtStatisticsEndModulus
  | .awaitingCompareForFtStatisticsEndModulus => .awaitingBatchedTypeCastFromBitLast
  | .awaitingBatchedTypeCastFromBitLast => .awaitingFifthMultiplyForErrorTerms
  | .awaitingFifthMultiplyForErrorTerms => .awaitingBatchedLookup
  | .awaitingBatchedLookup => .awaitingBatchedLookup

namespace RegressionRun

variable (r : RegressionRun)

/-- The size of the batch that a state awaits. -/
def batchSize : RegressionStage → Nat
  | .awaitingZipReduce => 0
  | .awaitingBatchedModConvUp => r.info.numIvs * r.info.numIvs + r.info.numIvs + 3
  | .awaitingMatrixMultiply => 0
  | .awaitingMatrixReveal => r.info.numIvs * r.info.numIvs
  | .awaitingRegressionMultiply => r.info.numIvs
  | .awaitingFirstCompare => r.info.numIvs
  | .awaitingFirstTypeCastFromBit => r.info.numIvs
  | .awaitingNegativeCorrectionMultiply => r.info.numIvs
  | .awaitingDivision => r.info.numIvs
  | .awaitingNegativeRecorrectionMultiply => r.info.numIvs
  | .awaitingFirstMultiplyForErrorTerms => r.info.numIvs * (r.info.numIvs + 1) + r.info.numIvs + 2
  | .awaitingSecondMultiplyForErrorTerms =>
    r.info.numIvs * (r.info.numIvs + 1) + r.info.numIvs + r.info.numIvs
  | .awaitingThirdMultiplyForErrorTerms => r.info.numIvs + 2
  | .awaitingFourthMultiplyForErrorTerms => r.info.numIvs
  | .awaitingDivisionForErrorTerms => 2 + r.info.numIvs + 1 + r.info.numIvs
  | .awaitingCompareForFtStatistics => sizePred r.fRows + sizePred r.tRows
  | .awaitingBatchedTypeCastFromBit => sizePred r.fRows + sizePred r.tRows
  | .awaitingCompareForFtStatisticsEndModulus => 1 + r.info.numIvs
  | .awaitingBatchedTypeCastFromBitLast => 1 + r.info.numIvs
  | .awaitingFifthMultiplyForErrorTerms => 1 + r.info.numIvs
  | .awaitingBatchedLookup => 1 + r.info.numIvs

/-- The size of the batch that is invoked when one of that size completes. -/
def nextSize (stage : RegressionStage) (size : Nat) : Nat :=
  match stage with
  | .awaitingFirstCompare | .awaitingCompareForFtStatistics
  | .awaitingCompareForFtStatisticsEndModulus => size
  | stage => r.batchSize stage.follows

/-- What is drawn when the batch of that size that the state awaits completes. -/
def cost (stage : RegressionStage) (size : Nat) : RegressionDispenser → Nat :=
  match stage with
  | .awaitingZipReduce => Pi.single .modConvUp (r.batchSize .awaitingBatchedModConvUp)
  | .awaitingBatchedModConvUp => Pi.single .randomMatrixAndDetInverse 1 +
      Pi.single .beaverTripleForMatrixMultiply
        (r.matrixMultTriples r.info.numIvs r.info.numIvs (r.info.numIvs + 1))
  | .awaitingMatrixReveal | .awaitingFirstTypeCastFromBit | .awaitingDivision
  | .awaitingNegativeRecorrectionMultiply | .awaitingFirstMultiplyForErrorTerms
  | .awaitingSecondMultiplyForErrorTerms | .awaitingThirdMultiplyForErrorTerms
  | .awaitingBatchedTypeCastFromBitLast =>
    Pi.single .beaverTripleForFinalMultiply (r.batchSize stage.follows)
  | .awaitingRegressionMultiply | .awaitingBatchedTypeCastFromBit =>
    Pi.single .compareEndModulus (r.batchSize stage.follows)
  | .awaitingFirstCompare | .awaitingCompareForFtStatistics
  | .awaitingCompareForFtStatisticsEndModulus => Pi.single .typeCastFromBit size
  | .awaitingNegativeCorrectionMultiply | .awaitingFourthMultiplyForErrorTerms =>
    Pi.single .divide (r.batchSize stage.follows)
  | .awaitingDivisionForErrorTerms => Pi.single .compare (r.batchSize stage.follows)
  | .awaitingFifthMultiplyForErrorTerms => Pi.single .fLookup 1 +
      (Pi.single .tLookup r.info.numIvs +
        ∑ k ∈ Finset.range (1 + r.info.numIvs), (Pi.single (.lookupTable k) 1 +
          (Pi.single (.lookupCompare k) 1 + Pi.single (.lookupTypeCastFromBit k) 1)))
  | .awaitingMatrixMultiply | .awaitingBatchedLookup => 0

/-- Two triangles make a rectangle. -/
private theorem triangles (n : Nat) : n * (n + 1) / 2 + n * (n + 1) / 2 = n * (n + 1) := by
  have heven : 2 * (n * (n + 1) / 2) = n * (n + 1) :=
    Nat.mul_div_cancel' (Nat.even_mul_succ_self n).two_dvd
  omega

/-- The spending of the lookup `k`. -/
theorem lookup_spends (k : Nat) : Spends r.requested (r.lookup k)
    (Pi.single (.lookupTable k) 1 +
      (Pi.single (.lookupCompare k) 1 + Pi.single (.lookupTypeCastFromBit k) 1)) id :=
  .bind (.get _) (.bind (.get _) (.get _))

/-- What each state but the first and the last does. -/
theorem handleComplete_spends {stage : RegressionStage} (f : Child RegressionStage)
    (hfirst : stage ≠ .awaitingZipReduce) (hlast : stage ≠ .awaitingBatchedLookup) :
    Spends r.requested (r.handleComplete stage f) (r.cost stage f.size)
      (Session.next stage.follows (r.nextSize stage f.size)) := by
  cases stage with
  | awaitingZipReduce => exact absurd rfl hfirst
  | awaitingBatchedModConvUp => exact .bind (.get _) (.last (.gets _ _))
  | awaitingMatrixMultiply => exact .none
  | awaitingMatrixReveal => exact .last (.gets _ _)
  | awaitingRegressionMultiply => exact .last (.gets _ _)
  | awaitingFirstCompare => exact .last (.gets _ _)
  | awaitingFirstTypeCastFromBit => exact .last (.gets _ _)
  | awaitingNegativeCorrectionMultiply => exact .last (.gets _ _)
  | awaitingDivision => exact .last (.gets _ _)
  | awaitingNegativeRecorrectionMultiply =>
    apply Spends.congr (.bind (.getsTriangle _ _) (.bind (.getsTriangle _ _) (.bind (.gets _ _)
      (.bind (.get _) (.last (.get _))))))
    simp only [← Pi.single_add, ← Nat.add_assoc, triangles]
    rfl
  | awaitingFirstMultiplyForErrorTerms =>
    apply Spends.congr (.bind (.getsTriangle _ _) (.bind (.getsTriangle _ _) (.bind (.gets _ _)
      (.last (.gets _ _)))))
    simp only [← Pi.single_add, ← Nat.add_assoc, triangles]
    rfl
  | awaitingSecondMultiplyForErrorTerms =>
    apply Spends.congr (.bind (.gets _ _) (.bind (.get _) (.last (.get _))))
    simp only [← Pi.single_add]
    rfl
  | awaitingThirdMultiplyForErrorTerms => exact .last (.gets _ _)
  | awaitingFourthMultiplyForErrorTerms =>
    apply Spends.congr (.bind (.get _) (.bind (.get _) (.bind (.gets _ _) (.bind (.get _)
      (.last (.gets _ _))))))
    simp only [← Pi.single_add, ← Nat.add_assoc]
    rfl
  | awaitingDivisionForErrorTerms =>
    apply Spends.congr (.bind (.gets _ _) (.last (.gets _ _)))
    simp only [← Pi.single_add]
    rfl
  | awaitingCompareForFtStatistics => exact .last (.gets _ _)
  | awaitingBatchedTypeCastFromBit =>
    apply Spends.congr (.bind (.get _) (.last (.gets _ _)))
    simp only [← Pi.single_add]
    rfl
  | awaitingCompareForFtStatisticsEndModulus => exact .last (.gets _ _)
  | awaitingBatchedTypeCastFromBitLast =>
    apply Spends.congr (.bind (.get _) (.last (.gets _ _)))
    simp only [← Pi.single_add]
    rfl
  | awaitingFifthMultiplyForErrorTerms =>
    exact .bind (.get _) (.bind (.gets _ _) (.last (.repeated (r.lookup_spends) _)))
  | awaitingBatchedLookup => exact absurd rfl hlast

/-- What follows the last `ZipReduce`. -/
def zipReduced (s : Session RegressionStage RegressionDispenser) :
    Option (Session RegressionStage RegressionDispenser) :=
  (s.gets r.requested .modConvUp (r.batchSize .awaitingBatchedModConvUp)).bind fun s ↦
    some (s.next .awaitingBatchedModConvUp (r.batchSize .awaitingBatchedModConvUp))

theorem handleComplete_zipReduce (f : Child RegressionStage)
    (s : Session RegressionStage RegressionDispenser) :
    r.handleComplete .awaitingZipReduce f s = if s.decrement.numPartiesAwaiting = 0 then
      r.zipReduced s.decrement else some s.decrement :=
  rfl

theorem zipReduced_spends : Spends r.requested r.zipReduced (r.cost .awaitingZipReduce 0)
    (Session.next .awaitingBatchedModConvUp (r.batchSize .awaitingBatchedModConvUp)) :=
  .last (.gets _ _)

/-- What all `ZipReduce` draw. -/
def zipReduceCost : RegressionDispenser → Nat :=
  ∑ i ∈ Finset.range r.numCrossParties, Pi.single (.beaverTripleForFactory i)
    (r.zipReduceFronctocols (2 * r.maxListSize) * r.payloadComputeTriples)

/-- The start of all `ZipReduce`. -/
theorem zipped_spends : Spends r.requested r.zipped r.zipReduceCost
    fun s ↦ ((forRange (fun s i ↦ s.invoke (.later .awaitingZipReduce i 0))
      r.numCrossParties s).await r.numCrossParties).goto (.later .awaitingZipReduce) := by
  have hinvoke : ∀ i, Neutral fun s : Session RegressionStage RegressionDispenser ↦
      s.invoke (.later .awaitingZipReduce i 0) :=
    fun i ↦ neutral_invoke _
  exact (Spends.loop (fun _ ↦ .last (.gets _ _)) hinvoke _).seq (neutral_forRange hinvoke _) .none

theorem sound : r.program.Sound := by
  constructor
  · intro i j hij
    cases hij
    rfl
  · intro i hi
    exact Nat.le_of_eq (if_pos hi).symm
  · intro s t ht
    rw [r.zipped_spends.only s t ht, forRange_invoke]
    refine ⟨rfl, ⟨_, rfl⟩, .enter (.later .awaitingZipReduce) ::
      ((List.range r.numCrossParties).map fun i ↦
        .invoked (.later .awaitingZipReduce i 0)).reverse, rfl, ?_⟩
    intro entry hentry
    simp only [List.mem_cons, List.mem_reverse, List.mem_map] at hentry
    rcases hentry with rfl | ⟨i, -, rfl⟩
    · trivial
    · trivial
  · intro stage f s t hs ht
    by_cases hfirst : stage = .awaitingZipReduce
    · subst hfirst
      change r.handleComplete .awaitingZipReduce f s = some t at ht
      rw [handleComplete_zipReduce] at ht
      split at ht
      · rw [r.zipReduced_spends.only _ t ht]
        have hnext := Session.continues_next .awaitingBatchedModConvUp
          (r.batchSize .awaitingBatchedModConvUp) (r.cost .awaitingZipReduce 0) s.decrement
        exact ⟨hnext.randomnessDone, hnext.state, hnext.log⟩
      · obtain rfl := Option.some.inj ht
        exact ⟨rfl, ⟨_, hs⟩, [], rfl, by simp⟩
    by_cases hlast : stage = .awaitingBatchedLookup
    · subst hlast
      obtain rfl := Option.some.inj ht
      exact Session.continues_finish hs
    rw [(r.handleComplete_spends f hfirst hlast).only s t ht]
    exact Session.continues_next _ _ _ _

end RegressionRun

/-! ## Moments -/

namespace MomentsRun

variable (m : MomentsRun)

theorem sound : m.program.Sound := by
  constructor
  · intro i j hij
    cases hij
    rfl
  · intro i hi
    exact Nat.le_of_eq (if_pos hi).symm
  · intro s t ht
    have hspends : Spends m.requested m.zipped _ _ := .last (.gets _ _)
    rw [hspends.only s t ht]
    exact Session.continues_next _ _ _ _
  · intro stage f s t hs ht
    cases stage with
    | awaitingBatchedModConvUp =>
      have hspends : Spends m.requested (m.handleComplete .awaitingBatchedModConvUp f) _ _ :=
        .last (.gets _ _)
      rw [hspends.only s t ht]
      exact Session.continues_next _ _ _ _
    | awaitingDivision =>
      obtain rfl := Option.some.inj ht
      exact Session.continues_finish hs

end MomentsRun

/-- In every session that a regression or the moments can reach, the sorts are started once each and
after both halves are set, and the zipping is entered once and after all sorts and the randomness. -/
theorem stageOrder (N : Nat) (hN : 1 ≤ N) :
    (∀ r : RegressionRun, r.numCrossParties = N → ∀ s, r.program.machine.Reachable s →
      StageOrder r.program s) ∧
    (∀ m : MomentsRun, m.numCrossParties = N → ∀ s, m.program.machine.Reachable s →
      StageOrder m.program s) := by
  constructor
  · rintro r rfl s hs
    exact reachable_stageOrder r.sound hN hs
  · rintro m rfl s hs
    exact reachable_stageOrder m.sound hN hs

/-- A regression of one cross party. -/
def oneCrossParty : RegressionRun where
  info := ⟨1, 1, 7⟩
  maxListSize := 1
  numCrossParties := 1
  fRows := 1
  tRows := 1
  zipReduceFronctocols := fun n ↦ n - 1
  matrixMultTriples := fun a b c ↦ a * b * c

/-- The randomness comes last. -/
theorem stageOrder_one :
    ∃ s, oneCrossParty.program.machine.Run oneCrossParty.program.start
      [.receive 0, .complete (.sisoSort 0), .complete .randomnessPatron] s ∧
      .enter .awaitingZipAdjacent ∈ s.log ∧ StageOrder oneCrossParty.program s := by
  have hsome : ∃ s, Machine.execute oneCrossParty.program.step oneCrossParty.program.start
      [.receive 0, .complete (.sisoSort 0), .complete .randomnessPatron] = some s ∧
      .enter .awaitingZipAdjacent ∈ s.log :=
    ⟨_, rfl, by decide⟩
  obtain ⟨s, hs, henter⟩ := hsome
  have hrun : oneCrossParty.program.machine.Run oneCrossParty.program.start
      [.receive 0, .complete (.sisoSort 0), .complete .randomnessPatron] s :=
    Machine.run_of_execute hs
  exact ⟨s, hrun, henter, (stageOrder 1 (Nat.le_refl 1)).1 oneCrossParty rfl s
    ⟨_, _, rfl, hrun⟩⟩

end Safrn.Stats
