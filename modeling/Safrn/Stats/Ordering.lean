import Safrn.Stats.Session

/-!
# The order of the stages

In whatever order the shares arrive, the sorts complete and the randomness is there, each sort is
started once and after both halves of its list are set, and the zipping is entered once and after
all sorts and the randomness.
-/

namespace Safrn.Stats

open Safrn.Base

variable {Stage Dispenser : Type}

/-- What has to have happened before the entry. -/
def Entry.Ok (numCrossParties : Nat) : Entry Stage → List (Entry Stage) → Prop
  | .invoked (.sisoSort i), past =>
    i < numCrossParties ∧ .received i ∈ past ∧ .invoked (.sisoSort i) ∉ past
  | .invoked (.zipAdjacent i), past =>
    i < numCrossParties ∧ (∀ j < numCrossParties, .completed (.sisoSort j) ∈ past) ∧
      .completed .randomnessPatron ∈ past ∧ .invoked (.zipAdjacent i) ∉ past
  | .enter .awaitingZipAdjacent, past =>
    (∀ j < numCrossParties, .completed (.sisoSort j) ∈ past ∧ .invoked (.zipAdjacent j) ∈ past) ∧
      .completed .randomnessPatron ∈ past ∧ .enter .awaitingZipAdjacent ∉ past
  | _, _ => True

/-- Every entry of the log stands after what it needs. -/
def Ordered (numCrossParties : Nat) : List (Entry Stage) → Prop
  | [] => True
  | entry :: past => entry.Ok numCrossParties past ∧ Ordered numCrossParties past

/-- An entry of the later states. -/
def Entry.Late : Entry Stage → Prop
  | .enter (.later _) | .invoked (.later _ _ _) | .finished => True
  | _ => False

/-- The session goes on in the later states. -/
structure Session.Continues (s t : Session Stage Dispenser) : Prop where
  randomnessDone : t.randomnessDone = s.randomnessDone
  state : ∃ stage, t.state = .later stage
  log : ∃ new, t.log = new ++ s.log ∧ ∀ entry ∈ new, entry.Late

/-- The parameters of the statistic stay within the later states, and the randomness suffices for
the zipping. -/
structure Program.Sound (prog : Program Stage Dispenser) : Prop where
  zipAdjacentDispenser : Function.Injective prog.zipAdjacentDispenser
  requested : ∀ i < prog.numCrossParties, 1 ≤ prog.requested (prog.zipAdjacentDispenser i)
  zipped : ∀ s t, prog.zipped s = some t → s.Continues t
  handleComplete : ∀ stage f s t, s.state = .later stage →
    prog.handleComplete stage f s = some t → s.Continues t

theorem Ordered.append {n : Nat} {new past : List (Entry Stage)} (h : Ordered n past)
    (hnew : ∀ entry ∈ new, entry.Late) : Ordered n (new ++ past) := by
  induction new with
  | nil => exact h
  | cons entry new ih =>
    refine ⟨?_, ih fun e he ↦ hnew e (List.mem_cons_of_mem _ he)⟩
    have hlate := hnew entry List.mem_cons_self
    match entry with
    | .enter (.later _) => trivial
    | .invoked (.later _ _ _) => trivial
    | .finished => trivial

/-! ## The loops that invoke -/

theorem forRange_invoke (g : Nat → Child Stage) (n : Nat) (s : Session Stage Dispenser) :
    forRange (fun s j ↦ s.invoke (g j)) n s =
      { s with log := ((List.range n).map fun j ↦ .invoked (g j)).reverse ++ s.log } := by
  induction n with
  | zero => rfl
  | succ n ih =>
    rw [forRange, ih]
    simp [Session.invoke, List.range_succ]

/-- The invocations of a loop that are each in order. -/
private theorem ordered_invocations {N n : Nat} {g : Nat → Child Stage}
    {log : List (Entry Stage)} (h : Ordered N log)
    (hok : ∀ j < n, Entry.Ok N (.invoked (g j))
      (((List.range j).map fun j ↦ .invoked (g j)).reverse ++ log)) :
    Ordered N (((List.range n).map fun j ↦ .invoked (g j)).reverse ++ log) := by
  induction n with
  | zero => exact h
  | succ n ih =>
    rw [List.range_succ, List.map_append, List.reverse_append]
    exact ⟨hok n (Nat.lt_succ_self n), ih fun j hj ↦ hok j (Nat.lt_succ_of_lt hj)⟩

theorem mem_invocations {n : Nat} {g : Nat → Child Stage} {log : List (Entry Stage)}
    {entry : Entry Stage} :
    entry ∈ ((List.range n).map fun j ↦ Entry.invoked (g j)).reverse ++ log ↔
      (∃ j < n, entry = .invoked (g j)) ∨ entry ∈ log := by
  simp [eq_comm]

/-! ## The phases -/

variable (prog : Program Stage Dispenser) (s : Session Stage Dispenser)

/-- What holds in all phases. -/
structure Common : Prop where
  ordered : Ordered prog.numCrossParties s.log
  patron : .invoked .randomnessPatron ∈ s.log
  randomness : .completed .randomnessPatron ∈ s.log ↔ s.randomnessDone = true
  completed : ∀ f, .completed f ∈ s.log → .invoked f ∈ s.log

/-- Nothing has been drawn yet. -/
structure Unzipped : Prop where
  enter : .enter .awaitingZipAdjacent ∉ s.log
  drawn : ∀ d, s.drawn d = 0

/-- All shares have arrived, and all sorts have been started. -/
structure Sorts : Prop extends Unzipped s where
  received : ∀ i < prog.numCrossParties, .received i ∈ s.log
  invoked : ∀ f, .invoked f ∈ s.log ↔
    f = .randomnessPatron ∨ ∃ i < prog.numCrossParties, f = .sisoSort i

/-- All sorts have completed. -/
structure Sorted : Prop extends Sorts prog s where
  sorted : ∀ i < prog.numCrossParties, .completed (.sisoSort i) ∈ s.log

/-- The zipping has been entered. -/
structure Zipped : Prop where
  received : ∀ i < prog.numCrossParties, .received i ∈ s.log
  sorted : ∀ i < prog.numCrossParties, .completed (.sisoSort i) ∈ s.log
  randomnessDone : s.randomnessDone = true
  enter : .enter .awaitingZipAdjacent ∈ s.log
  zips : ∀ i < prog.numCrossParties, .invoked (.zipAdjacent i) ∈ s.log

variable {prog s}

/-- A sort completes. -/
private theorem Common.completes (hc : Common prog s) {f : Child Stage} (hf : s.Runs f)
    (hpatron : f ≠ .randomnessPatron) : Common prog (s.completes f) := by
  constructor
  · exact ⟨trivial, hc.ordered⟩
  · exact List.mem_cons_of_mem _ hc.patron
  · simpa [hpatron.symm] using hc.randomness
  · intro g hg
    rcases List.mem_cons.mp hg with heq | hg
    · cases heq
      exact List.mem_cons_of_mem _ hf.1
    · exact List.mem_cons_of_mem _ (hc.completed g hg)

/-- The patron completes. -/
private theorem Common.patronCompletes (hc : Common prog s) :
    Common prog { s.completes .randomnessPatron with randomnessDone := true } := by
  constructor
  · exact ⟨trivial, hc.ordered⟩
  · exact List.mem_cons_of_mem _ hc.patron
  · simp
  · intro g hg
    rcases List.mem_cons.mp hg with heq | hg
    · cases heq
      exact List.mem_cons_of_mem _ hc.patron
    · exact List.mem_cons_of_mem _ (hc.completed g hg)

private theorem Common.goto (hc : Common prog s) (state : State Stage)
    (hstate : state ≠ .awaitingZipAdjacent) : Common prog (s.goto state) := by
  constructor
  · refine ⟨?_, hc.ordered⟩
    cases state with
    | awaitingZipAdjacent => exact absurd rfl hstate
    | _ => trivial
  · exact List.mem_cons_of_mem _ hc.patron
  · simpa using hc.randomness
  · intro g hg
    exact List.mem_cons_of_mem _ (hc.completed g (by simpa using hg))

private theorem Common.decrement (hc : Common prog s) : Common prog s.decrement :=
  ⟨hc.ordered, hc.patron, hc.randomness, hc.completed⟩

private theorem Zipped.completes (h : Zipped prog s) (f : Child Stage) :
    Zipped prog (s.completes f) := by
  refine ⟨?_, ?_, h.randomnessDone, List.mem_cons_of_mem _ h.enter, ?_⟩
  · intro j hj
    exact List.mem_cons_of_mem _ (h.received j hj)
  · intro j hj
    exact List.mem_cons_of_mem _ (h.sorted j hj)
  · intro j hj
    exact List.mem_cons_of_mem _ (h.zips j hj)

private theorem Sorts.completes (h : Sorts prog s) (f : Child Stage) :
    Sorts prog (s.completes f) := by
  refine ⟨⟨?_, h.drawn⟩, ?_, ?_⟩
  · simpa using h.enter
  · intro j hj
    exact List.mem_cons_of_mem _ (h.received j hj)
  · intro g
    simpa using h.invoked g

private theorem Sorts.goto (h : Sorts prog s) (state : State Stage)
    (hstate : state ≠ .awaitingZipAdjacent) : Sorts prog (s.goto state) := by
  refine ⟨⟨?_, h.drawn⟩, ?_, ?_⟩
  · simpa [hstate.symm] using h.enter
  · intro j hj
    exact List.mem_cons_of_mem _ (h.received j hj)
  · intro g
    simpa using h.invoked g

section

variable [DecidableEq Stage]

/-- The cross parties below `n` with no such entry in the log. -/
def missing (n : Nat) (entry : Nat → Entry Stage) (log : List (Entry Stage)) : Finset Nat :=
  (Finset.range n).filter fun i ↦ entry i ∉ log

theorem mem_missing {n i : Nat} {entry : Nat → Entry Stage} {log : List (Entry Stage)} :
    i ∈ missing n entry log ↔ i < n ∧ entry i ∉ log := by
  simp [missing]

/-- A new entry leaves one party less. -/
theorem card_missing_cons {n i : Nat} {entry : Nat → Entry Stage} {log : List (Entry Stage)}
    (hinj : Function.Injective entry) (hi : i < n) (hnew : entry i ∉ log) :
    sizePred (missing n entry log).card = (missing n entry (entry i :: log)).card := by
  have hmem : i ∈ missing n entry log := mem_missing.mpr ⟨hi, hnew⟩
  have herase : missing n entry (entry i :: log) = (missing n entry log).erase i := by
    ext j
    rw [Finset.mem_erase, mem_missing, mem_missing, List.mem_cons, not_or, hinj.eq_iff]
    tauto
  rw [herase, Finset.card_erase_of_mem hmem, sizePred,
    if_neg (Nat.ne_of_gt (Finset.card_pos.mpr ⟨i, hmem⟩))]

/-- Other entries leave the count. -/
theorem missing_cons {n : Nat} {entry : Nat → Entry Stage} {other : Entry Stage}
    {log : List (Entry Stage)} (h : ∀ i, entry i ≠ other) :
    missing n entry (other :: log) = missing n entry log := by
  ext j
  simp [mem_missing, h j]

theorem missing_eq_zero {n : Nat} {entry : Nat → Entry Stage} {log : List (Entry Stage)}
    (h : (missing n entry log).card = 0) : ∀ i < n, entry i ∈ log := by
  intro i hi
  have hempty := Finset.card_eq_zero.mp h
  by_contra hnot
  have hmem : i ∈ missing n entry log := mem_missing.mpr ⟨hi, hnot⟩
  rw [hempty] at hmem
  exact absurd hmem (Finset.notMem_empty i)

theorem card_missing_all {n : Nat} {entry : Nat → Entry Stage} {log : List (Entry Stage)}
    (h : ∀ i < n, entry i ∈ log) : (missing n entry log).card = 0 := by
  rw [missing, Finset.filter_false_of_mem fun i hi ↦ not_not_intro (h i (Finset.mem_range.mp hi)),
    Finset.card_empty]

theorem card_missing_fresh {n : Nat} {entry : Nat → Entry Stage} {log : List (Entry Stage)}
    (h : ∀ i < n, entry i ∉ log) : (missing n entry log).card = n := by
  rw [missing, Finset.filter_true_of_mem fun i hi ↦ h i (Finset.mem_range.mp hi),
    Finset.card_range]

/-- When the counter counts those that have not completed, it still does after a completion. -/
theorem count_completes {n i : Nat} {g : Nat → Child Stage} (hinj : Function.Injective g)
    {s : Session Stage Dispenser}
    (hcount : s.numPartiesAwaiting = (missing n (fun i ↦ .completed (g i)) s.log).card)
    (hi : i < n) (hrun : s.Runs (g i)) :
    (s.completes (g i)).decrement.numPartiesAwaiting =
      (missing n (fun j ↦ .completed (g j)) (s.completes (g i)).decrement.log).card := by
  show sizePred s.numPartiesAwaiting = _
  rw [hcount]
  exact card_missing_cons (fun j k heq ↦ hinj (Entry.completed.inj heq)) hi hrun.2

/-! ## The phases with a count -/

variable (prog s)

/-- Some shares have not arrived. -/
structure Sharing : Prop extends Unzipped s where
  count : s.numPartiesAwaiting = (missing prog.numCrossParties .received s.log).card
  pos : 0 < s.numPartiesAwaiting
  state : s.state =
    if s.randomnessDone = true then .awaitingSISOSort else .awaitingRandomnessAndSISOSort
  invoked : ∀ f, .invoked f ∈ s.log → f = .randomnessPatron

/-- Some sorts run. -/
structure Sorting : Prop extends Sorts prog s where
  count : s.numPartiesAwaiting =
    (missing prog.numCrossParties (fun i ↦ .completed (.sisoSort i)) s.log).card
  pos : 0 < s.numPartiesAwaiting
  state : s.state = .awaitingSISOSort

/-- Some lists are still being zipped, and only the dispensers of the zipping have been read. -/
structure Zipping : Prop extends Zipped prog s where
  count : s.numPartiesAwaiting =
    (missing prog.numCrossParties (fun i ↦ .completed (.zipAdjacent i)) s.log).card
  pos : 0 < s.numPartiesAwaiting
  state : s.state = .awaitingZipAdjacent
  invoked : ∀ f, .invoked f ∈ s.log → f = .randomnessPatron ∨
    ∃ i < prog.numCrossParties, f = .sisoSort i ∨ f = .zipAdjacent i
  drawn_zip : ∀ i < prog.numCrossParties, s.drawn (prog.zipAdjacentDispenser i) = 1
  drawn_other : ∀ d, (∀ i < prog.numCrossParties, d ≠ prog.zipAdjacentDispenser i) →
    s.drawn d = 0

/-- Where a session is. -/
inductive Phase : Prop
  | sharing (h : Sharing prog s)
  | sorting (h : Sorting prog s)
  | sorted (h : Sorted prog s) (randomness : s.randomnessDone = false)
    (state : s.state = .awaitingRandomnessOnly)
  | zipping (h : Zipping prog s)
  | later (h : Zipped prog s) (state : ∃ stage, s.state = .later stage)

variable {prog s}

/-! ## The steps -/

/-- The shares of another party arrive. -/
private theorem Sharing.handleReceive (hc : Common prog s) (h : Sharing prog s) {i : Nat}
    (hi : i < prog.numCrossParties) (hnew : .received i ∉ s.log) :
    Common prog (prog.handleReceive s i) ∧ Phase prog (prog.handleReceive s i) := by
  have hcount : (s.received i).decrement.numPartiesAwaiting =
      (missing prog.numCrossParties .received (.received i :: s.log)).card := by
    show sizePred s.numPartiesAwaiting = _
    rw [h.count]
    exact card_missing_cons (fun _ _ heq ↦ Entry.received.inj heq) hi hnew
  have hnosort : ∀ j, .invoked (.sisoSort j) ∉ s.log := by
    intro j hj
    cases h.invoked _ hj
  by_cases hzero : (s.received i).decrement.numPartiesAwaiting = 0
  · have hall : ∀ j < prog.numCrossParties, .received j ∈ .received i :: s.log :=
      missing_eq_zero (hcount.symm.trans hzero)
    have hlast : prog.handleReceive s i = { s with
        state := .awaitingSISOSort
        numPartiesAwaiting := prog.numCrossParties
        log := .enter .awaitingSISOSort :: (((List.range prog.numCrossParties).map
          fun j ↦ .invoked (.sisoSort j)).reverse ++ .received i :: s.log) } := by
      rw [Program.handleReceive, if_pos hzero, forRange_invoke]
      rfl
    rw [hlast]
    constructor
    · constructor
      · refine ⟨trivial, ordered_invocations ⟨trivial, hc.ordered⟩ ?_⟩
        intro j hj
        refine ⟨hj, mem_invocations.mpr (.inr (hall j hj)), ?_⟩
        intro hmem
        rcases mem_invocations.mp hmem with ⟨k, hk, heq⟩ | hmem
        · cases heq
          exact absurd hk (Nat.lt_irrefl j)
        · simp [hnosort j] at hmem
      · simp [hc.patron]
      · simpa using hc.randomness
      · intro f hf
        have hf : .completed f ∈ s.log := by simpa using hf
        simp [hc.completed f hf]
    · refine .sorting ⟨⟨⟨?_, h.drawn⟩, ?_, ?_⟩, ?_, ?_, rfl⟩
      · simpa using h.enter
      · intro j hj
        exact List.mem_cons_of_mem _ (mem_invocations.mpr (.inr (hall j hj)))
      · intro f
        simp only [List.mem_cons, reduceCtorEq, false_or]
        rw [mem_invocations]
        simp only [Entry.invoked.injEq, List.mem_cons, reduceCtorEq, false_or]
        constructor
        · rintro (⟨j, hj, rfl⟩ | hf)
          · exact .inr ⟨j, hj, rfl⟩
          · exact .inl (h.invoked f hf)
        · rintro (rfl | ⟨j, hj, rfl⟩)
          · exact .inr hc.patron
          · exact .inl ⟨j, hj, rfl⟩
      · refine (card_missing_fresh ?_).symm
        intro j _ hmem
        have hmem : .completed (.sisoSort j) ∈ s.log := by simpa using hmem
        exact hnosort j (hc.completed _ hmem)
      · exact Nat.lt_of_le_of_lt (Nat.zero_le i) hi
  · rw [Program.handleReceive, if_neg hzero]
    constructor
    · constructor
      · exact ⟨trivial, hc.ordered⟩
      · exact List.mem_cons_of_mem _ hc.patron
      · simpa using hc.randomness
      · intro f hf
        have hf : .completed f ∈ s.log := by simpa using hf
        exact List.mem_cons_of_mem _ (hc.completed f hf)
    · refine .sharing ⟨⟨?_, h.drawn⟩, hcount, Nat.pos_of_ne_zero hzero, h.state, ?_⟩
      · simpa using h.enter
      · intro f hf
        exact h.invoked f (by simpa using hf)

/-- A sort completes: others run, or it was the last. -/
private theorem Sorting.completes (h : Sorting prog s) {i : Nat} (hi : i < prog.numCrossParties)
    (hrun : s.Runs (.sisoSort i)) :
    ((s.completes (.sisoSort i)).decrement.numPartiesAwaiting = 0 →
      Sorted prog (s.completes (.sisoSort i)).decrement) ∧
    ((s.completes (.sisoSort i)).decrement.numPartiesAwaiting ≠ 0 →
      Sorting prog (s.completes (.sisoSort i)).decrement) := by
  have hcount := count_completes (fun _ _ heq ↦ Child.sisoSort.inj heq) h.count hi hrun
  have hsorts := h.toSorts.completes (.sisoSort i)
  have hdecrement : Sorts prog (s.completes (.sisoSort i)).decrement :=
    ⟨⟨hsorts.enter, hsorts.drawn⟩, hsorts.received, hsorts.invoked⟩
  constructor
  · intro hzero
    exact ⟨hdecrement, missing_eq_zero (hcount.symm.trans hzero)⟩
  · intro hpos
    exact ⟨hdecrement, hcount, Nat.pos_of_ne_zero hpos, h.state⟩

end

section

variable [DecidableEq Stage] [DecidableEq Dispenser] {prog : Program Stage Dispenser}
  {s : Session Stage Dispenser}

/-- The zipping has been started for the first `k` parties. -/
private structure ZipsStarted (prog : Program Stage Dispenser) (s : Session Stage Dispenser)
    (k : Nat) (t : Session Stage Dispenser) : Prop where
  rest : t = { s with
    drawn := t.drawn
    log := ((List.range k).map fun i ↦ .invoked (.zipAdjacent i)).reverse ++ s.log }
  drawn_zip : ∀ i < k, t.drawn (prog.zipAdjacentDispenser i) = 1
  drawn_other : ∀ d, (∀ i < k, d ≠ prog.zipAdjacentDispenser i) → t.drawn d = 0

omit [DecidableEq Stage] in
/-- The loop that starts the zipping finds an item in each dispenser. -/
private theorem forRangeM_zip (hsound : prog.Sound) (hr : s.randomnessDone = true)
    (hdrawn : ∀ d, s.drawn d = 0) :
    ∃ t, forRangeM (fun s i ↦ do
        let s ← Session.get s prog.requested (prog.zipAdjacentDispenser i)
        some (s.invoke (.zipAdjacent i))) prog.numCrossParties s = some t ∧
      ZipsStarted prog s prog.numCrossParties t := by
  apply forRangeM_invariant (ZipsStarted prog s)
  · exact ⟨rfl, by simp, fun d _ ↦ hdrawn d⟩
  · intro k hk t ht
    have hne : ∀ i < k, prog.zipAdjacentDispenser k ≠ prog.zipAdjacentDispenser i := by
      intro i hi heq
      exact absurd (hsound.zipAdjacentDispenser heq) (by omega)
    have hzero := ht.drawn_other _ hne
    have hdone : t.randomnessDone = true := by rw [ht.rest, hr]
    have hitem : t.drawn (prog.zipAdjacentDispenser k) <
        prog.requested (prog.zipAdjacentDispenser k) := by
      rw [hzero]
      exact hsound.requested k hk
    refine ⟨_, by rw [Session.get, if_pos ⟨hdone, hitem⟩]; rfl, ?_, ?_, ?_⟩
    · rw [ht.rest]
      simp [List.range_succ]
    · intro i hi
      rcases Nat.lt_succ_iff_lt_or_eq.mp hi with hi | rfl
      · simp [Function.update_of_ne (hne i hi).symm, ht.drawn_zip i hi]
      · simp [hzero]
    · intro d hd
      simp [Function.update_of_ne (hd k (Nat.lt_succ_self k)),
        ht.drawn_other d fun i hi ↦ hd i (Nat.lt_succ_of_lt hi)]

/-- The zipping is entered when the sorts and the randomness are there. -/
private theorem Sorted.zipAll (hsound : prog.Sound) (hN : 0 < prog.numCrossParties)
    (hc : Common prog s) (h : Sorted prog s) (hr : s.randomnessDone = true) :
    ∃ t, prog.zipAll s = some t ∧ Common prog t ∧ Zipping prog t := by
  obtain ⟨t, hrun, ht⟩ := forRangeM_zip hsound hr h.drawn
  have hlog : t.log = ((List.range prog.numCrossParties).map
      fun i ↦ .invoked (.zipAdjacent i)).reverse ++ s.log := by rw [ht.rest]
  have hdone : t.randomnessDone = true := by rw [ht.rest, hr]
  have hpatron : .completed .randomnessPatron ∈ s.log := hc.randomness.mpr hr
  have hnozip : ∀ i, .invoked (.zipAdjacent i) ∉ s.log := by
    intro i hi
    rcases (h.invoked _).mp hi with heq | ⟨j, -, heq⟩ <;> cases heq
  refine ⟨(t.await prog.numCrossParties).goto .awaitingZipAdjacent, ?_, ?_, ?_⟩
  · rw [Program.zipAll, hrun]
    rfl
  · constructor
    · show Ordered _ (.enter .awaitingZipAdjacent :: t.log)
      rw [hlog]
      refine ⟨⟨?_, ?_, ?_⟩, ordered_invocations hc.ordered ?_⟩
      · intro j hj
        exact ⟨mem_invocations.mpr (.inr (h.sorted j hj)),
          mem_invocations.mpr (.inl ⟨j, hj, rfl⟩)⟩
      · exact mem_invocations.mpr (.inr hpatron)
      · intro hmem
        rcases mem_invocations.mp hmem with ⟨j, -, heq⟩ | hmem
        · cases heq
        · exact h.enter hmem
      · intro j hj
        refine ⟨hj, ?_, mem_invocations.mpr (.inr hpatron), ?_⟩
        · intro k hk
          exact mem_invocations.mpr (.inr (h.sorted k hk))
        · intro hmem
          rcases mem_invocations.mp hmem with ⟨k, hk, heq⟩ | hmem
          · cases heq
            exact absurd hk (Nat.lt_irrefl j)
          · exact hnozip j hmem
    · simp [hlog, hc.patron]
    · simp [hlog, hdone, hpatron]
    · intro f hf
      have hf : .completed f ∈ s.log := by simpa [hlog] using hf
      simp [hlog, hc.completed f hf]
  · refine ⟨⟨?_, ?_, hdone, List.mem_cons_self, ?_⟩, ?_, hN, rfl, ?_, ht.drawn_zip,
      ht.drawn_other⟩
    · intro i hi
      simp [hlog, h.received i hi]
    · intro i hi
      simp [hlog, h.sorted i hi]
    · intro i hi
      simp [hlog, hi]
    · refine (card_missing_fresh ?_).symm
      intro i _ hmem
      have hmem : .completed (.zipAdjacent i) ∈ s.log := by simpa [hlog] using hmem
      exact hnozip i (hc.completed _ hmem)
    · intro f hf
      simp only [Session.goto, Session.await, hlog, List.mem_cons, reduceCtorEq, false_or] at hf
      rcases mem_invocations.mp hf with ⟨i, hi, heq⟩ | hf
      · cases heq
        exact .inr ⟨i, hi, .inr rfl⟩
      · rcases (h.invoked f).mp hf with rfl | ⟨i, hi, rfl⟩
        · exact .inl rfl
        · exact .inr ⟨i, hi, .inl rfl⟩

variable (prog s) in
/-- The invariant of a session. -/
structure Inv : Prop where
  common : Common prog s
  phase : Phase prog s

private theorem Sharing.complete (hc : Common prog s) (h : Sharing prog s) {f : Child Stage}
    (hf : s.Runs f) : ∃ t, prog.handleCompletion (s.completes f) f = some t ∧ Inv prog t := by
  obtain rfl := h.invoked f hf.1
  have hr : s.randomnessDone = false := by simpa [hc.randomness] using hf.2
  have hstate := h.state
  simp only [hr, Bool.false_eq_true, if_false] at hstate
  refine ⟨{ s.completes .randomnessPatron with randomnessDone := true }.goto .awaitingSISOSort,
    ?_, hc.patronCompletes.goto _ (by simp), ?_⟩
  · rw [Program.handleCompletion_patron (s := s.completes _) hr, if_neg (by simp [hstate])]
  · refine .sharing ⟨⟨?_, h.drawn⟩, ?_, h.pos, rfl, ?_⟩
    · simpa using h.enter
    · simp only [Session.goto, Session.completes]
      rw [missing_cons (by simp), missing_cons (by simp)]
      exact h.count
    · intro g hg
      exact h.invoked g (by simpa using hg)

/-- A sort completes in any phase before the zipping. -/
private theorem Sorting.complete (hsound : prog.Sound) (hN : 0 < prog.numCrossParties)
    (hc : Common prog s) (h : Sorting prog s) {f : Child Stage} (hf : s.Runs f) :
    ∃ t, prog.handleCompletion (s.completes f) f = some t ∧ Inv prog t := by
  rcases (h.invoked f).mp hf.1 with rfl | ⟨i, hi, rfl⟩
  · have hr : s.randomnessDone = false := by simpa [hc.randomness] using hf.2
    refine ⟨{ s.completes .randomnessPatron with randomnessDone := true }.goto .awaitingSISOSort,
      ?_, hc.patronCompletes.goto _ (by simp), ?_⟩
    · rw [Program.handleCompletion_patron (s := s.completes _) hr, if_neg (by simp [h.state])]
    · have hsorts := (h.toSorts.completes .randomnessPatron).goto .awaitingSISOSort (by simp)
      refine .sorting ⟨⟨⟨hsorts.enter, hsorts.drawn⟩, hsorts.received, hsorts.invoked⟩, ?_, h.pos,
        rfl⟩
      simp only [Session.goto, Session.completes]
      rw [missing_cons (by simp), missing_cons (by simp)]
      exact h.count
  · have hcommon := (hc.completes hf (by simp)).decrement
    obtain ⟨hlast, hmore⟩ := h.completes hi hf
    by_cases hzero : (s.completes (.sisoSort i)).decrement.numPartiesAwaiting = 0
    · have hsorted := hlast hzero
      cases hr : s.randomnessDone with
      | false =>
        refine ⟨(s.completes (.sisoSort i)).decrement.goto .awaitingRandomnessOnly, ?_,
          hcommon.goto _ (by simp), ?_⟩
        · rw [Program.handleCompletion_sort (s := s.completes _) hr (by simp), if_pos hzero]
        · have hsorts := hsorted.toSorts.goto .awaitingRandomnessOnly (by simp)
          refine .sorted ⟨hsorts, ?_⟩ hr rfl
          intro j hj
          exact List.mem_cons_of_mem _ (hsorted.sorted j hj)
      | true =>
        obtain ⟨t, hrun, ht, hzipping⟩ := hsorted.zipAll hsound hN hcommon hr
        refine ⟨t, ?_, ht, .zipping hzipping⟩
        rw [Program.handleCompletion_done (s := s.completes _) hr,
          Program.handleState_sort (s := s.completes _) h.state, if_pos hzero, hrun]
    · refine ⟨(s.completes (.sisoSort i)).decrement, ?_, hcommon, .sorting (hmore hzero)⟩
      cases hr : s.randomnessDone with
      | false =>
        rw [Program.handleCompletion_sort (s := s.completes _) hr (by simp), if_neg hzero]
      | true =>
        rw [Program.handleCompletion_done (s := s.completes _) hr,
          Program.handleState_sort (s := s.completes _) h.state, if_neg hzero]

/-- The randomness comes last. -/
private theorem Sorted.complete (hsound : prog.Sound) (hN : 0 < prog.numCrossParties)
    (hc : Common prog s) (h : Sorted prog s) (hr : s.randomnessDone = false)
    (hstate : s.state = .awaitingRandomnessOnly) {f : Child Stage} (hf : s.Runs f) :
    ∃ t, prog.handleCompletion (s.completes f) f = some t ∧ Inv prog t := by
  rcases (h.invoked f).mp hf.1 with rfl | ⟨i, hi, rfl⟩
  · have hcompletes := hc.patronCompletes.goto .awaitingSISOSort (by simp)
    have hsorts := (h.toSorts.completes .randomnessPatron).goto .awaitingSISOSort (by simp)
    let ready : Session Stage Dispenser :=
      (({ s.completes .randomnessPatron with randomnessDone := true }.await 1).goto
        .awaitingSISOSort).decrement
    have hcommon : Common prog ready :=
      ⟨hcompletes.ordered, hcompletes.patron, hcompletes.randomness, hcompletes.completed⟩
    have hsorted : Sorted prog ready := by
      refine ⟨⟨⟨hsorts.enter, hsorts.drawn⟩, hsorts.received, hsorts.invoked⟩, ?_⟩
      intro j hj
      exact List.mem_cons_of_mem _ (List.mem_cons_of_mem _ (h.sorted j hj))
    obtain ⟨t, hrun, ht, hzipping⟩ := hsorted.zipAll hsound hN hcommon rfl
    refine ⟨t, ?_, ht, .zipping hzipping⟩
    rw [Program.handleCompletion_patron (s := s.completes _) hr,
      if_pos (show (s.completes _).state = _ from hstate), Program.handleState_sort rfl]
    exact (if_pos (show ready.numPartiesAwaiting = 0 from rfl)).trans hrun
  · exact absurd (h.sorted i hi) hf.2

omit [DecidableEq Dispenser] in
/-- What follows the zipping changes nothing of what came before. -/
private theorem Zipped.continues (hc : Common prog s) (h : Zipped prog s)
    {t : Session Stage Dispenser} (ht : s.Continues t) : Inv prog t := by
  obtain ⟨new, hlog, hlate⟩ := ht.log
  have hdone : t.randomnessDone = true := ht.randomnessDone.trans h.randomnessDone
  have hmem : ∀ {entry}, entry ∈ s.log → entry ∈ t.log := by
    intro entry hentry
    rw [hlog]
    exact List.mem_append_right _ hentry
  constructor
  · constructor
    · rw [hlog]
      exact hc.ordered.append hlate
    · exact hmem hc.patron
    · exact iff_of_true (hmem (hc.randomness.mpr h.randomnessDone)) hdone
    · intro f hf
      rw [hlog] at hf
      rcases List.mem_append.mp hf with hf | hf
      · exact (hlate _ hf).elim
      · exact hmem (hc.completed f hf)
  · refine .later ⟨?_, ?_, hdone, hmem h.enter, ?_⟩ ht.state
    · intro i hi
      exact hmem (h.received i hi)
    · intro i hi
      exact hmem (h.sorted i hi)
    · intro i hi
      exact hmem (h.zips i hi)

/-- A list has been zipped: others are being zipped, or the statistic goes on. -/
private theorem Zipping.complete (hsound : prog.Sound) (hc : Common prog s) (h : Zipping prog s)
    {f : Child Stage} (hf : s.Runs f) {t : Session Stage Dispenser}
    (hstep : prog.handleCompletion (s.completes f) f = some t) : Inv prog t := by
  rcases h.invoked f hf.1 with rfl | ⟨i, hi, rfl | rfl⟩
  · exact absurd (hc.randomness.mpr h.randomnessDone) hf.2
  · exact absurd (h.sorted i hi) hf.2
  rw [Program.handleCompletion_done (s := s.completes _) h.randomnessDone,
    Program.handleState_zip (s := s.completes _) h.state] at hstep
  have hcount := count_completes (fun _ _ heq ↦ Child.zipAdjacent.inj heq) h.count hi hf
  have hcommon := (hc.completes hf (by simp)).decrement
  have hcompletes := h.toZipped.completes (.zipAdjacent i)
  have hzipped : Zipped prog (s.completes (.zipAdjacent i)).decrement :=
    ⟨hcompletes.received, hcompletes.sorted, hcompletes.randomnessDone, hcompletes.enter,
      hcompletes.zips⟩
  split at hstep
  · exact hzipped.continues hcommon (hsound.zipped _ _ hstep)
  · next hpos =>
    obtain rfl := Option.some.inj hstep
    refine ⟨hcommon, .zipping ⟨hzipped, hcount, Nat.pos_of_ne_zero hpos, h.state, ?_, h.drawn_zip,
      h.drawn_other⟩⟩
    intro g hg
    exact h.invoked g (by simpa using hg)

private theorem Zipped.complete (hsound : prog.Sound) (hc : Common prog s) (h : Zipped prog s)
    {stage : Stage} (hstate : s.state = .later stage) {f : Child Stage} (hf : s.Runs f)
    {t : Session Stage Dispenser} (hstep : prog.handleCompletion (s.completes f) f = some t) :
    Inv prog t := by
  have hpatron : f ≠ .randomnessPatron := by
    rintro rfl
    exact hf.2 (hc.randomness.mpr h.randomnessDone)
  rw [Program.handleCompletion_done (s := s.completes _) h.randomnessDone,
    Program.handleState_later (s := s.completes _) hstate] at hstep
  exact (h.completes f).continues (hc.completes hf hpatron)
    (hsound.handleComplete stage f (s.completes f) t hstate hstep)

/-- Before the zipping every event that can happen is handled. -/
theorem Inv.progress (hsound : prog.Sound) (hN : 0 < prog.numCrossParties) (h : Inv prog s)
    (hunzipped : .enter .awaitingZipAdjacent ∉ s.log) {a : Program.Event Stage}
    (ha : prog.Enabled s a) : ∃ t, prog.step s a = some t ∧ Inv prog t := by
  obtain ⟨hc, hphase⟩ := h
  unfold Program.step
  rw [if_pos ha]
  cases a with
  | receive i =>
    obtain ⟨hi, hnew⟩ := ha
    cases hphase with
    | sharing h =>
      obtain ⟨hc', hphase'⟩ := h.handleReceive hc hi hnew
      exact ⟨_, rfl, hc', hphase'⟩
    | sorting h => exact absurd (h.received i hi) hnew
    | sorted h _ _ => exact absurd (h.received i hi) hnew
    | zipping h => exact absurd (h.received i hi) hnew
    | later h _ => exact absurd (h.received i hi) hnew
  | complete f =>
    cases hphase with
    | sharing h => exact h.complete hc ha
    | sorting h => exact h.complete hsound hN hc ha
    | sorted h hr hstate => exact h.complete hsound hN hc hr hstate ha
    | zipping h => exact absurd h.enter hunzipped
    | later h _ => exact absurd h.enter hunzipped

/-- Every step keeps the invariant. -/
theorem Inv.step (hsound : prog.Sound) (hN : 0 < prog.numCrossParties) (h : Inv prog s)
    {a : Program.Event Stage} {t : Session Stage Dispenser} (hstep : prog.step s a = some t) :
    Inv prog t := by
  have ha : prog.Enabled s a := Program.enabled_of_step hstep
  by_cases hunzipped : .enter .awaitingZipAdjacent ∈ s.log
  · obtain ⟨hc, hphase⟩ := h
    unfold Program.step at hstep
    rw [if_pos ha] at hstep
    cases hphase with
    | sharing h => exact absurd hunzipped h.enter
    | sorting h => exact absurd hunzipped h.enter
    | sorted h _ _ => exact absurd hunzipped h.enter
    | zipping h =>
      cases a with
      | receive i => exact absurd (h.received i ha.1) ha.2
      | complete f => exact h.complete hsound hc ha hstep
    | later h hstate =>
      obtain ⟨stage, hstate⟩ := hstate
      cases a with
      | receive i => exact absurd (h.received i ha.1) ha.2
      | complete f => exact h.complete hsound hc hstate ha hstep
  · obtain ⟨t', hstep', ht'⟩ := h.progress hsound hN hunzipped ha
    rw [hstep] at hstep'
    cases hstep'
    exact ht'

omit [DecidableEq Dispenser] in
theorem inv_start (hN : 0 < prog.numCrossParties) : Inv prog prog.start := by
  constructor
  · constructor
    · exact ⟨trivial, trivial⟩
    · exact List.mem_cons_self
    · simp [Program.start]
    · simp [Program.start]
  · refine .sharing ⟨⟨?_, fun _ ↦ rfl⟩, ?_, hN, rfl, ?_⟩
    · simp [Program.start]
    · exact (card_missing_fresh (by simp [Program.start])).symm
    · intro f hf
      simpa [Program.start] using hf

theorem reachable_inv (hsound : prog.Sound) (hN : 0 < prog.numCrossParties)
    (hs : prog.machine.Reachable s) : Inv prog s := by
  apply hs.invariant
  · rintro _ rfl
    exact inv_start hN
  · intro s a t h hstep
    exact h.step hsound hN hstep

/-- All entries are in order, the sorts are started as soon as all shares have arrived, the zipping
as soon as all sorts and the patron have completed, and until then every event is handled. -/
structure StageOrder (prog : Program Stage Dispenser) (s : Session Stage Dispenser) : Prop where
  ordered : Ordered prog.numCrossParties s.log
  sorts : (∀ i < prog.numCrossParties, .received i ∈ s.log) →
    ∀ i < prog.numCrossParties, .invoked (.sisoSort i) ∈ s.log
  zips : (∀ i < prog.numCrossParties, .completed (.sisoSort i) ∈ s.log) →
    .completed .randomnessPatron ∈ s.log → .enter .awaitingZipAdjacent ∈ s.log ∧
      ∀ i < prog.numCrossParties, .invoked (.zipAdjacent i) ∈ s.log
  handled : .enter .awaitingZipAdjacent ∉ s.log →
    ∀ a, prog.Enabled s a → (prog.step s a).isSome

theorem reachable_stageOrder (hsound : prog.Sound) (hN : 0 < prog.numCrossParties)
    (hs : prog.machine.Reachable s) : StageOrder prog s := by
  have hinv := reachable_inv hsound hN hs
  obtain ⟨hc, hphase⟩ := hinv
  constructor
  · exact hc.ordered
  · intro hall i hi
    cases hphase with
    | sharing h => exact absurd (h.count.trans (card_missing_all hall)) (Nat.ne_of_gt h.pos)
    | sorting h => exact (h.invoked _).mpr (.inr ⟨i, hi, rfl⟩)
    | sorted h _ _ => exact (h.invoked _).mpr (.inr ⟨i, hi, rfl⟩)
    | zipping h => exact hc.completed _ (h.sorted i hi)
    | later h _ => exact hc.completed _ (h.sorted i hi)
  · intro hall hpatron
    cases hphase with
    | sharing h => cases h.invoked _ (hc.completed _ (hall 0 hN))
    | sorting h => exact absurd (h.count.trans (card_missing_all hall)) (Nat.ne_of_gt h.pos)
    | sorted h hr _ => simp [hc.randomness, hr] at hpatron
    | zipping h => exact ⟨h.enter, h.zips⟩
    | later h _ => exact ⟨h.enter, h.zips⟩
  · intro hunzipped a ha
    obtain ⟨t, hstep, -⟩ := Inv.progress hsound hN ⟨hc, hphase⟩ hunzipped ha
    rw [hstep]
    rfl

end

end Safrn.Stats
