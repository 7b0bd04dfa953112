import Mathlib.Data.List.Nodup
import Safrn.Stats.Patron

/-!
# The patrons and the houses agree

For each set of peers that a data owner shares with the dealer, its patron invokes the same kinds of
fronctocols in the same order as the house, provided that the data owners are of at least two
verticals, as `dataowner/GlobalInfo.cpp:25-26` assumes.
-/

namespace Safrn.Stats

open Safrn.Base

/-- The kinds that are invoked for a set of peers, in their order. -/
def invokedFor (ps : PeerSet) (fs : List Invocation) : List Kind :=
  (fs.filter fun f ↦ f.peers = ps).map Invocation.kind

theorem invokedFor_append (ps : PeerSet) (fs gs : List Invocation) :
    invokedFor ps (fs ++ gs) = invokedFor ps fs ++ invokedFor ps gs := by
  simp [invokedFor]

/-- What begins a list begins it for each set of peers. -/
theorem invokedFor_prefix {ps : PeerSet} {fs gs : List Invocation} (h : fs <+: gs) :
    invokedFor ps fs <+: invokedFor ps gs :=
  (h.filter _).map _

/-! ## Pairs of data owners -/

variable {dealer : Nat} {self : Identity}

theorem mem_pairPeers {a b x : Identity} :
    x ∈ (pairPeers dealer a b).eachDataowner ↔ x = b ∨ x = a := by
  rw [PeerSet.eachDataowner, pairPeers, mem_addDataowner, mem_addDataowner]
  simp

theorem pairPeers_comm {a b : Identity} (h : a.vertical ≠ b.vertical) :
    pairPeers dealer a b = pairPeers dealer b a := by
  rw [pairPeers, pairPeers, addDataowner_comm h.symm]

theorem mem_eachPair {dataowners : List Identity} {pair : Identity × Identity} :
    pair ∈ eachPair dataowners ↔
      pair.1 ∈ dataowners ∧ pair.2 ∈ dataowners ∧ pair.1.vertical < pair.2.vertical := by
  obtain ⟨a, b⟩ := pair
  simp [eachPair]

theorem nodup_eachPair {dataowners : List Identity} (h : dataowners.Nodup) :
    (eachPair dataowners).Nodup := by
  rw [eachPair, List.nodup_flatMap]
  constructor
  · intro a _
    exact (h.filter _).map fun b c heq ↦ (Prod.mk.inj heq).2
  · apply h.imp
    intro a b hab pair ha hb
    obtain ⟨c, -, rfl⟩ := List.mem_map.mp ha
    obtain ⟨d, -, heq⟩ := List.mem_map.mp hb
    exact hab (Prod.mk.inj heq).1.symm

private theorem invokedFor_map {α : Type} (ps : PeerSet) (kind : Kind) (g : α → PeerSet)
    (l : List α) : invokedFor ps (l.map fun x ↦ ⟨kind, g x⟩) =
      List.replicate (l.countP fun x ↦ g x = ps) kind := by
  induction l with
  | nil => rfl
  | cons x l ih =>
    rw [List.map_cons, ← List.singleton_append, invokedFor_append, ih, List.countP_cons]
    by_cases hx : g x = ps
    · simp [invokedFor, hx, List.replicate_succ]
    · simp [invokedFor, hx]

/-- One element alone passes. -/
private theorem countP_eq_one {α : Type} [DecidableEq α] {l : List α} (hl : l.Nodup) {x : α}
    (hx : x ∈ l) {q : α → Bool} (hq : ∀ y ∈ l, q y = true ↔ y = x) : l.countP q = 1 := by
  rw [← List.count_eq_one_of_mem hl hx, List.count]
  apply List.countP_congr
  intro y hy
  rw [hq y hy, beq_iff_eq]

/-- Each pair that the loops go through has peers of its own. -/
private theorem countP_eachPair {dataowners : List Identity} (hnodup : dataowners.Nodup)
    {a b : Identity} (hmem : (a, b) ∈ eachPair dataowners) :
    ((eachPair dataowners).countP fun pair ↦
      pairPeers dealer pair.1 pair.2 = pairPeers dealer a b) = 1 := by
  apply countP_eq_one (nodup_eachPair hnodup) hmem
  rintro ⟨c, d⟩ hcd
  rw [decide_eq_true_iff, Prod.mk.injEq]
  constructor
  · intro heq
    have hab : a.vertical < b.vertical := (mem_eachPair.mp hmem).2.2
    have hcd : c.vertical < d.vertical := (mem_eachPair.mp hcd).2.2
    have hsame : ∀ x, x = d ∨ x = c ↔ x = b ∨ x = a := by
      intro x
      have hx : x ∈ (pairPeers dealer c d).eachDataowner ↔
          x ∈ (pairPeers dealer a b).eachDataowner := by
        rw [heq]
      rwa [mem_pairPeers, mem_pairPeers] at hx
    rcases (hsame c).mp (.inr rfl) with rfl | rfl
    · rcases (hsame d).mp (.inl rfl) with rfl | rfl
      · exact absurd hcd (Nat.lt_irrefl _)
      · exact absurd hcd (Nat.lt_asymm hab)
    · rcases (hsame d).mp (.inl rfl) with rfl | rfl
      · exact ⟨rfl, rfl⟩
      · exact absurd hcd (Nat.lt_irrefl _)
  · rintro ⟨rfl, rfl⟩
    rfl

/-- A data owner invokes for a cross party what the dealer invokes for the pair. -/
theorem invokedFor_cross {peers : PeerSet} (hnodup : peers.eachDataowner.Nodup)
    (hself : self ∈ peers.eachDataowner) {ps : PeerSet} (hps : self ∈ ps.eachDataowner)
    (kind : Kind) : invokedFor ps (crossInvocations dealer self peers kind) =
      invokedFor ps (pairInvocations dealer peers kind) := by
  rw [crossInvocations, invokedFor_map, pairInvocations,
    invokedFor_map ps kind fun pair : Identity × Identity ↦ pairPeers dealer pair.1 pair.2]
  congr 1
  by_cases hex : ∃ other ∈ crossParties peers.eachDataowner self, pairPeers dealer self other = ps
  · obtain ⟨other, hcross, rfl⟩ := hex
    obtain ⟨hother, hvertical⟩ := mem_crossParties.mp hcross
    have hpair : ((eachPair peers.eachDataowner).countP fun pair ↦
        pairPeers dealer pair.1 pair.2 = pairPeers dealer self other) = 1 := by
      rcases Nat.lt_or_gt_of_ne hvertical with hlt | hlt
      · rw [pairPeers_comm hvertical.symm]
        exact countP_eachPair hnodup (mem_eachPair.mpr ⟨hother, hself, hlt⟩)
      · exact countP_eachPair hnodup (mem_eachPair.mpr ⟨hself, hother, hlt⟩)
    rw [hpair]
    apply countP_eq_one (hnodup.filter _) hcross
    intro y hy
    rw [decide_eq_true_iff]
    constructor
    · intro heq
      have hmem : other ∈ (pairPeers dealer self y).eachDataowner := by
        rw [heq]
        exact mem_pairPeers.mpr (.inl rfl)
      rcases mem_pairPeers.mp hmem with rfl | rfl
      · rfl
      · exact absurd rfl hvertical
    · rintro rfl
      rfl
  · have hcross : ∀ other ∈ crossParties peers.eachDataowner self,
        pairPeers dealer self other ≠ ps := fun other hother heq ↦ hex ⟨other, hother, heq⟩
    have hpairs : ∀ pair ∈ eachPair peers.eachDataowner,
        pairPeers dealer pair.1 pair.2 ≠ ps := by
      rintro ⟨a, b⟩ hmem rfl
      obtain ⟨ha, hb, hlt⟩ := mem_eachPair.mp hmem
      rcases mem_pairPeers.mp hps with rfl | rfl
      · exact hcross a (mem_crossParties.mpr ⟨ha, Nat.ne_of_lt hlt⟩)
          (pairPeers_comm (Nat.ne_of_gt hlt))
      · exact hcross b (mem_crossParties.mpr ⟨hb, Nat.ne_of_gt hlt⟩) rfl
    rw [List.countP_eq_zero.mpr fun other hother ↦ by simpa using hcross other hother,
      List.countP_eq_zero.mpr fun pair hpair ↦ by simpa using hpairs pair hpair]

/-! ## Patron and house -/

/-- The patron of a data owner and the house agree: in every state of the patron it has begun, for
each set of peers that includes the data owner, with what the house invokes for it, and when nothing
of the patron runs any more it has invoked all of that. Every completion is handled, and both
complete, and the counter of the house is zero, exactly when nothing runs any more. -/
structure Agrees {St : Type} (owner : Identity) (house : Option House) (init : Patron St)
    (handleComplete : Patron St → Option (Patron St)) : Prop where
  invoked : ∃ h, house = some h ∧ ∀ p, (Patron.machine init handleComplete).Reachable p →
    ∀ ps : PeerSet, owner ∈ ps.eachDataowner →
      invokedFor ps p.children.invoked <+: invokedFor ps h.children.invoked ∧
      (p.children.running = [] →
        invokedFor ps p.children.invoked = invokedFor ps h.children.invoked)
  patron : ∀ p, (Patron.machine init handleComplete).Reachable p →
    (p.complete = true ↔ p.children.running = []) ∧
      ∀ k ∈ p.children.running, (p.step handleComplete k).isSome
  house : ∀ h, (House.machine house).Reachable h →
    (h.numDealersRemaining = 0 ↔ h.children.running = []) ∧
      (h.complete = true ↔ h.children.running = [])

/-- Plans that are the same for each set of peers. -/
private theorem agrees_of_plans {St : Type} {house : Option House} {init : Patron St}
    {handleComplete : Patron St → Option (Patron St)} {housePlan patronPlan : List Invocation}
    (hhouse : house = some (.counting housePlan)) (hne : housePlan ≠ [])
    (hpatron : ∀ p, (Patron.machine init handleComplete).Reachable p →
      p.Executes handleComplete patronPlan)
    (hplans : ∀ ps : PeerSet, self ∈ ps.eachDataowner →
      invokedFor ps patronPlan = invokedFor ps housePlan) :
    Agrees self house init handleComplete := by
  constructor
  · refine ⟨_, hhouse, ?_⟩
    intro p hp ps hps
    have hinvoked : (House.counting housePlan).children.invoked = housePlan := by
      simp [House.counting, Children.none]
    rw [hinvoked, ← hplans ps hps]
    constructor
    · exact invokedFor_prefix (hpatron p hp).begun
    · intro hrunning
      rw [(hpatron p hp).all hrunning]
  · intro p hp
    exact ⟨(hpatron p hp).complete, (hpatron p hp).handled⟩
  · intro h hh
    exact House.reachable_counts hhouse hne hh

section

variable {peers : PeerSet} (hnodup : peers.eachDataowner.Nodup)
  (hself : self ∈ peers.eachDataowner) (hcross : crossParties peers.eachDataowner self ≠ [])

include hnodup hself hcross

theorem regression_agrees : Agrees self (regressionBasementInit dealer peers)
    (regressionPatronInit self peers) (regressionPatronHandleComplete dealer self peers) := by
  apply agrees_of_plans (regressionBasementInit_eq dealer peers)
  · simp [regressionBasementPlan]
  · intro p hp
    exact regressionPatron_executes dealer self peers hcross hp
  · intro ps hps
    simp only [regressionPatronPlan, regressionBasementPlan, invokedFor_append,
      invokedFor_cross hnodup hself hps]

theorem moments_agrees : Agrees self (momentsBasementInit dealer peers)
    (momentsPatronInit self peers) (momentsPatronHandleComplete dealer self peers) := by
  apply agrees_of_plans (momentsBasementInit_eq dealer peers)
  · simp [momentsBasementPlan]
  · intro p hp
    exact momentsPatron_executes dealer self peers hcross hp
  · intro ps hps
    simp only [momentsPatronPlan, momentsBasementPlan, invokedFor_append,
      invokedFor_cross hnodup hself hps]

end

/-- For any data owners of at least two verticals, the patrons of each agree with the houses that the
outer houses invoke, and the counters of the outer houses count what these invoke. -/
theorem patrons_agree (peers : PeerSet) (dealer : Nat) (self : Identity)
    (hnodup : peers.eachDataowner.Nodup) (hself : self ∈ peers.eachDataowner)
    (htwo : ∃ a ∈ peers.eachDataowner, ∃ b ∈ peers.eachDataowner, a.vertical ≠ b.vertical) :
    let ps := peers.copy.removeRecipients
    Agrees self (regressionBasementInit dealer ps) (regressionPatronInit self ps)
      (regressionPatronHandleComplete dealer self ps) ∧
    Agrees self (momentsBasementInit dealer ps) (momentsPatronInit self ps)
      (momentsPatronHandleComplete dealer self ps) ∧
    (∃ h, houseInit dealer peers = some h ∧ h.children.invoked.head? = some ⟨.basement, ps⟩) ∧
    ∀ h, (House.machine (houseInit dealer peers)).Reachable h →
      (h.numDealersRemaining = 0 ↔ h.children.running = []) ∧
        (h.complete = true ↔ h.children.running = []) := by
  intro ps
  have hperm : ps.eachDataowner.Perm peers.eachDataowner := peers.eachDataowner_copy
  have hnodup' := hperm.nodup_iff.mpr hnodup
  have hself' := hperm.mem_iff.mpr hself
  have hcross : crossParties ps.eachDataowner self ≠ [] := by
    obtain ⟨a, ha, b, hb, hab⟩ := htwo
    by_cases hvertical : a.vertical = self.vertical
    · exact List.ne_nil_of_mem
        (mem_crossParties.mpr ⟨hperm.mem_iff.mpr hb, hvertical ▸ hab.symm⟩)
    · exact List.ne_nil_of_mem (mem_crossParties.mpr ⟨hperm.mem_iff.mpr ha, hvertical⟩)
  refine ⟨regression_agrees hnodup' hself' hcross, moments_agrees hnodup' hself' hcross, ?_, ?_⟩
  · refine ⟨_, houseInit_eq dealer peers, ?_⟩
    simp [House.counting, Children.none, ps]
  · intro h hh
    exact House.reachable_counts (houseInit_eq dealer peers) (List.cons_ne_nil _ _) hh

/-- A data owner of one vertical and two of another. -/
def threeDataowners : PeerSet := ⟨some 9, [5], [[⟨1, 0⟩], [⟨2, 1⟩, ⟨3, 1⟩]]⟩

theorem patrons_agree_threeDataowners :
    let self : Identity := ⟨2, 1⟩
    let ps := threeDataowners.copy.removeRecipients
    Agrees self (regressionBasementInit 9 ps) (regressionPatronInit self ps)
      (regressionPatronHandleComplete 9 self ps) ∧
    Agrees self (momentsBasementInit 9 ps) (momentsPatronInit self ps)
      (momentsPatronHandleComplete 9 self ps) ∧
    (∃ h, houseInit 9 threeDataowners = some h ∧
      h.children.invoked.head? = some ⟨.basement, ps⟩) ∧
    ∀ h, (House.machine (houseInit 9 threeDataowners)).Reachable h →
      (h.numDealersRemaining = 0 ↔ h.children.running = []) ∧
        (h.complete = true ↔ h.children.running = []) :=
  patrons_agree threeDataowners 9 ⟨2, 1⟩ (by decide) (by decide) (by decide)

/-- Two data owners of one vertical. -/
def oneVertical : PeerSet := ⟨some 9, [5], [[⟨1, 0⟩, ⟨2, 0⟩]]⟩

/-- Without cross parties the patrons await completions that never come, and the dealer goes on to
invoke the rest. -/
theorem patrons_disagree_oneVertical :
    let self : Identity := ⟨1, 0⟩
    let ps := oneVertical.copy.removeRecipients
    ¬ Agrees self (regressionBasementInit 9 ps) (regressionPatronInit self ps)
      (regressionPatronHandleComplete 9 self ps) ∧
    ¬ Agrees self (momentsBasementInit 9 ps) (momentsPatronInit self ps)
      (momentsPatronHandleComplete 9 self ps) := by
  intro self ps
  let whole : PeerSet := ⟨some 9, [], [[⟨1, 0⟩, ⟨2, 0⟩]]⟩
  have hps : ps = whole := by
    simp [ps, whole, oneVertical, PeerSet.copy, PeerSet.removeRecipients, List.mergeSort, Identity.lt]
  clear_value ps
  subst hps
  let two : Children := ⟨[⟨.modConvUp, whole⟩, ⟨.divide, whole⟩], []⟩
  constructor
  · intro hagrees
    let p : Patron RegressionPatronState := ⟨.awaitingConditionalEvaluate, 0, 0, two, false⟩
    have hp : Machine.execute (Patron.step (regressionPatronHandleComplete 9 self whole))
        (regressionPatronInit self whole) [0, 1] = some p := rfl
    obtain ⟨h, hh, hinvoked⟩ := hagrees.invoked
    have hsame := (hinvoked p ⟨_, _, rfl, Machine.run_of_execute hp⟩ whole List.mem_cons_self).2 rfl
    have hlength : (invokedFor whole h.children.invoked).length = 10 := by
      obtain rfl := Option.some.inj hh
      decide
    rw [← hsame] at hlength
    exact absurd hlength (by decide)
  · intro hagrees
    let p : Patron MomentsPatronState := ⟨.awaitingConditionalEvaluate, 0, 0, two, false⟩
    have hp : Machine.execute (Patron.step (momentsPatronHandleComplete 9 self whole))
        (momentsPatronInit self whole) [0, 1] = some p := rfl
    have hdone := (hagrees.patron p ⟨_, _, rfl, Machine.run_of_execute hp⟩).1.mpr rfl
    cases hdone

end Safrn.Stats
