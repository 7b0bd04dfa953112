import Mathlib.Data.List.Induction
import Mathlib.Data.List.Sort
import Safrn.Base.Machine
import Safrn.Stats.PeerSet

/-!
# Runs of the operations on sets of peers

Models the removals, `enforceSort` and `operator==` of `PeerSet`
(`shared/src/main/cpp/PeerSet.cpp:101-183, 250-283`) and what holds after every sequence of
operations.
-/

namespace Safrn.Stats

namespace PeerSet

/-- The loop that erases the trailing empty verticals; it reads the last vertical of the vector
also when none is left. -/
def dropTrailing (dataowners : List (List Identity)) : Option (List (List Identity)) :=
  match _h : dataowners.getLast? with
  | none => none
  | some [] => dropTrailing dataowners.dropLast
  | some (_ :: _) => some dataowners
termination_by dataowners.length
decreasing_by
  have hne : dataowners ≠ [] := by
    rintro rfl
    contradiction
  have hpos := List.length_pos_iff.mpr hne
  simp only [List.length_dropLast]
  omega

/-- `enforceSort`, which is all that the copy constructor does to the copied members. -/
def enforceSort (ps : PeerSet) : Option PeerSet :=
  (dropTrailing (ps.dataowners.map fun vert ↦ vert.mergeSort fun a b ↦ !b.lt a)).map
    fun dataowners ↦ { ps with recipients := ps.recipients.mergeSort, dataowners }

/-- `remove`. -/
def remove (ps : PeerSet) : Peer → Option PeerSet
  | .dealer _ => if ps.dealer.isSome then some { ps with dealer := none } else none
  | .recipient orgId =>
    if orgId ∈ ps.recipients then some { ps with recipients := ps.recipients.erase orgId } else none
  | .dataowner peer =>
    if peer ∈ ps.dataowners.getD peer.vertical [] then
      some { ps with dataowners := ps.dataowners.modify peer.vertical (List.erase · peer) }
    else none

/-- `removeDealer`. -/
def removeDealer (ps : PeerSet) : Option PeerSet :=
  match ps.dealer with
  | none => none
  | some orgId => ps.remove (.dealer orgId)

/-- `removeDataowners`. -/
def removeDataowners (ps : PeerSet) : PeerSet := { ps with dataowners := [] }

/-- `removeVertical`. -/
def removeVertical (ps : PeerSet) (vertical : Nat) : Option PeerSet :=
  if vertical < ps.dataowners.length then
    some { ps with dataowners := ps.dataowners.modify vertical fun _ ↦ [] }
  else none

/-- The loop over two vectors of the same size. -/
def sameElements {α : Type} (eqv : α → α → Bool) (as bs : List α) : Bool :=
  as.length == bs.length && (as.zip bs).all fun p ↦ eqv p.1 p.2

/-- `operator==`. -/
def eq (a b : PeerSet) : Bool :=
  a.dealer == b.dealer && sameElements (· == ·) a.recipients b.recipients &&
    sameElements (sameElements (· == ·)) a.dataowners b.dataowners

/-- The operations. An analyst can be removed, to no effect, but not added. -/
inductive Op
  | add (peer : Peer)
  | remove (peer : Peer)
  | removeAnalyst
  | removeDealer
  | removeRecipients
  | removeDataowners
  | removeVertical (vertical : Nat)
  | enforceSort

/-- One operation, where its assertions hold. -/
def step (ps : PeerSet) : Op → Option PeerSet
  | .add peer => ps.add peer
  | .remove peer => ps.remove peer
  | .removeAnalyst => some ps
  | .removeDealer => ps.removeDealer
  | .removeRecipients => some ps.removeRecipients
  | .removeDataowners => some ps.removeDataowners
  | .removeVertical vertical => ps.removeVertical vertical
  | .enforceSort => ps.enforceSort

/-- The operations on a set that starts out empty. -/
def machine : Base.Machine PeerSet Op := .ofStep (· = empty) step

end PeerSet

/-! ## Sorted vectors -/

section SortedBy

variable {α : Type} {lt : α → α → Bool} {x peer : α} {peers : List α}

/-- No member is less than one before it. -/
def SortedBy (lt : α → α → Bool) (peers : List α) : Prop :=
  peers.Pairwise fun a b ↦ lt b a = false

theorem insertSorted_concat :
    insertSorted lt peer (peers ++ [x]) =
      if lt peer x then insertSorted lt peer peers ++ [x] else (peers ++ [x]) ++ [peer] := by
  simp only [insertSorted, List.rdropWhile_concat, List.rtakeWhile_concat]
  split <;> simp

theorem insertSorted_perm : (insertSorted lt peer peers).Perm (peer :: peers) := by
  conv_rhs => rw [← List.rdropWhile_append_rtakeWhile (p := lt peer) (l := peers)]
  exact List.perm_middle

/-- Inserting keeps a vector sorted. -/
theorem SortedBy.insertSorted (hasymm : ∀ a b, lt a b = true → lt b a = false)
    (htrans : ∀ a b c, lt b a = false → lt c b = false → lt c a = false)
    (h : SortedBy lt peers) : SortedBy lt (insertSorted lt peer peers) := by
  induction peers using List.reverseRecOn with
  | nil => exact List.pairwise_singleton _ _
  | append_singleton peers x ih =>
    obtain ⟨hpeers, -, hx⟩ := List.pairwise_append.mp h
    rw [insertSorted_concat]
    split
    · next hlt =>
      apply List.pairwise_append.mpr
      refine ⟨ih hpeers, List.pairwise_singleton _ _, ?_⟩
      intro a ha b hb
      obtain rfl := List.mem_singleton.mp hb
      rcases mem_insertSorted.mp ha with rfl | ha
      · exact hasymm _ _ hlt
      · exact hx a ha b hb
    · next hlt =>
      have hlt : lt peer x = false := by simpa using hlt
      apply List.pairwise_append.mpr
      refine ⟨h, List.pairwise_singleton _ _, ?_⟩
      intro a ha b hb
      obtain rfl := List.mem_singleton.mp hb
      rcases List.mem_append.mp ha with ha | ha
      · exact htrans _ _ _ (hx a ha x (List.mem_singleton.mpr rfl)) hlt
      · obtain rfl := List.mem_singleton.mp ha
        exact hlt

end SortedBy

/-! ## Order and equality of members -/

theorem Identity.lt_asymm (a b : Identity) (h : a.lt b = true) : b.lt a = false := by
  simp only [Identity.lt] at h ⊢
  grind

theorem Identity.lt_trans (a b c : Identity) (hab : b.lt a = false) (hbc : c.lt b = false) :
    c.lt a = false := by
  simp only [Identity.lt] at hab hbc ⊢
  grind

theorem Identity.eq_of_not_lt (a b : Identity) (hab : b.lt a = false) (hba : a.lt b = false) :
    a = b := by
  obtain ⟨aId, aVertical⟩ := a
  obtain ⟨bId, bVertical⟩ := b
  simp only [Identity.lt] at hab hba
  grind

namespace PeerSet

theorem sameElements_iff {α : Type} {eqv : α → α → Bool} (heqv : ∀ a b, eqv a b = true ↔ a = b)
    (as bs : List α) : sameElements eqv as bs = true ↔ as = bs := by
  induction as generalizing bs with
  | nil => cases bs <;> simp [sameElements]
  | cons a as ih =>
    cases bs with
    | nil => simp [sameElements]
    | cons b bs =>
      have hstep : sameElements eqv (a :: as) (b :: bs) = (eqv a b && sameElements eqv as bs) := by
        simp only [sameElements, List.length_cons, List.zip_cons_cons, List.all_cons]
        rw [Bool.and_left_comm]
        congr 1
        simp
      rw [hstep, Bool.and_eq_true, heqv, ih, List.cons.injEq]

theorem eq_iff (a b : PeerSet) : a.eq b = true ↔ a = b := by
  have hsame := sameElements_iff (sameElements_iff (fun a b : Identity ↦ beq_iff_eq))
  obtain ⟨aDealer, aRecipients, aDataowners⟩ := a
  obtain ⟨bDealer, bRecipients, bDataowners⟩ := b
  simp only [eq, Bool.and_eq_true, beq_iff_eq, hsame,
    sameElements_iff (fun a b : Nat ↦ beq_iff_eq), PeerSet.mk.injEq, and_assoc]

/-- The erasing loop is defined when some vertical has data owners. -/
theorem dropTrailing_eq (dataowners : List (List Identity)) :
    dropTrailing dataowners =
      if dataowners.all List.isEmpty then none else some (dataowners.rdropWhile List.isEmpty) := by
  induction dataowners using List.reverseRecOn with
  | nil => rw [dropTrailing]; rfl
  | append_singleton dataowners vert ih =>
    rw [dropTrailing]
    split
    · next hlast => simp at hlast
    · next hlast =>
      obtain rfl : vert = [] := by simpa using hlast
      simp [ih]
    · next peer rest hlast =>
      obtain rfl : vert = peer :: rest := by simpa using hlast
      simp

theorem enforceSort_eq (ps : PeerSet) :
    ps.enforceSort = if ps.eachDataowner = [] then none else some ps.copy := by
  have hall : (ps.dataowners.map fun vert ↦ vert.mergeSort fun a b ↦ !b.lt a).all List.isEmpty =
      decide (ps.eachDataowner = []) := by
    rw [Bool.eq_iff_iff]
    simp only [eachDataowner, List.all_map, List.all_eq_true, Function.comp, List.isEmpty_iff,
      decide_eq_true_eq, List.flatten_eq_nil_iff]
    refine forall₂_congr fun vert _ ↦ ?_
    rw [← List.length_eq_zero_iff, List.length_mergeSort, List.length_eq_zero_iff]
  rw [enforceSort, dropTrailing_eq, hall]
  by_cases h : ps.eachDataowner = []
  · simp [h]
  · simp [h, copy]

/-! ## Verticals -/

theorem getD_rdropWhile (dataowners : List (List Identity)) (v : Nat) :
    (dataowners.rdropWhile List.isEmpty).getD v [] = dataowners.getD v [] := by
  induction dataowners using List.reverseRecOn with
  | nil => rfl
  | append_singleton dataowners vert ih =>
    rw [List.rdropWhile_concat]
    split
    · next hvert =>
      obtain rfl := List.isEmpty_iff.mp hvert
      rw [ih]
      by_cases hv : v < dataowners.length
      · rw [List.getD_append _ _ _ _ hv]
      · have hv := Nat.le_of_not_lt hv
        rw [List.getD_append_right _ _ _ _ hv, List.getD_eq_default _ _ hv]
        cases v - dataowners.length <;> simp
    · rfl

theorem getD_modify (f : List Identity → List Identity) (hf : f [] = [])
    (dataowners : List (List Identity)) (vertical v : Nat) :
    (dataowners.modify vertical f).getD v [] =
      if v = vertical then f (dataowners.getD v []) else dataowners.getD v [] := by
  simp only [List.getD, List.getElem?_modify]
  by_cases h : v = vertical
  · subst h
    cases dataowners[v]? <;> simp [hf]
  · simp [h, Ne.symm h]

/-- The vectors are sorted and each data owner stands in its vertical. -/
structure Sorted (ps : PeerSet) : Prop where
  recipients : SortedBy (fun a b ↦ decide (a < b)) ps.recipients
  dataowners : ∀ v, SortedBy Identity.lt (ps.dataowners.getD v [])
  vertical : ∀ v, ∀ peer ∈ ps.dataowners.getD v [], peer.vertical = v

/-- Verticals that keep some of their data owners stay sorted. -/
theorem Sorted.of_sublist {ps ps' : PeerSet} (h : ps.Sorted)
    (hrecipients : ps'.recipients.Sublist ps.recipients)
    (hdataowners : ∀ v, (ps'.dataowners.getD v []).Sublist (ps.dataowners.getD v [])) :
    ps'.Sorted where
  recipients := h.recipients.sublist hrecipients
  dataowners v := (h.dataowners v).sublist (hdataowners v)
  vertical v peer hpeer := h.vertical v peer ((hdataowners v).subset hpeer)

/-- Sorting a sorted set drops its trailing empty verticals only. -/
theorem Sorted.copy_eq {ps : PeerSet} (h : ps.Sorted) :
    ps.copy = { ps with dataowners := ps.dataowners.rdropWhile List.isEmpty } := by
  have hrecipients : ps.recipients.mergeSort = ps.recipients := by
    apply List.mergeSort_of_pairwise
    apply h.recipients.imp
    intro a b hab
    simpa using hab
  have hdataowners : ∀ vert ∈ ps.dataowners,
      vert.mergeSort (fun a b ↦ !b.lt a) = id vert := by
    intro vert hvert
    obtain ⟨v, hv⟩ := List.getElem?_of_mem hvert
    have hsorted := h.dataowners v
    rw [List.getD, hv] at hsorted
    apply List.mergeSort_of_pairwise
    apply hsorted.imp
    intro a b hab
    simpa using hab
  rw [copy, hrecipients, List.map_congr_left hdataowners, List.map_id]

/-! ## What an operation keeps -/

/-- A removal keeps sublists. -/
theorem sublist_of_remove {ps ps' : PeerSet} {peer : Peer} (hs : ps.remove peer = some ps') :
    ps'.recipients.Sublist ps.recipients ∧
      ∀ v, (ps'.dataowners.getD v []).Sublist (ps.dataowners.getD v []) := by
  cases peer with
  | dealer orgId =>
    obtain ⟨-, hs⟩ := Option.ite_none_right_eq_some.mp hs
    obtain rfl := Option.some.inj hs
    exact ⟨.refl _, fun v ↦ .refl _⟩
  | recipient orgId =>
    obtain ⟨-, hs⟩ := Option.ite_none_right_eq_some.mp hs
    obtain rfl := Option.some.inj hs
    exact ⟨List.erase_sublist, fun v ↦ .refl _⟩
  | dataowner peer =>
    obtain ⟨-, hs⟩ := Option.ite_none_right_eq_some.mp hs
    obtain rfl := Option.some.inj hs
    refine ⟨.refl _, fun v ↦ ?_⟩
    rw [getD_modify _ rfl]
    split
    · exact List.erase_sublist
    · exact .refl _

/-- An operation that adds no peer keeps sublists. -/
theorem sublist_of_step {ps ps' : PeerSet} {op : Op} (h : ps.Sorted) (hs : ps.step op = some ps')
    (hop : ∀ peer, op ≠ .add peer) : ps'.recipients.Sublist ps.recipients ∧
      ∀ v, (ps'.dataowners.getD v []).Sublist (ps.dataowners.getD v []) := by
  cases op with
  | add peer => exact absurd rfl (hop peer)
  | remove peer => exact sublist_of_remove hs
  | removeAnalyst =>
    obtain rfl := Option.some.inj hs
    exact ⟨.refl _, fun v ↦ .refl _⟩
  | removeDealer =>
    rw [step, removeDealer] at hs
    split at hs
    · cases hs
    · exact sublist_of_remove hs
  | removeRecipients =>
    obtain rfl := Option.some.inj hs
    exact ⟨List.nil_sublist _, fun v ↦ .refl _⟩
  | removeDataowners =>
    obtain rfl := Option.some.inj hs
    exact ⟨.refl _, fun v ↦ List.nil_sublist _⟩
  | removeVertical vertical =>
    obtain ⟨-, hs⟩ := Option.ite_none_right_eq_some.mp hs
    obtain rfl := Option.some.inj hs
    refine ⟨.refl _, fun v ↦ ?_⟩
    rw [getD_modify _ rfl]
    split
    · exact List.nil_sublist _
    · exact .refl _
  | enforceSort =>
    rw [step, enforceSort_eq] at hs
    obtain ⟨-, hs⟩ := Option.ite_none_left_eq_some.mp hs
    obtain rfl := Option.some.inj hs
    rw [h.copy_eq]
    refine ⟨.refl _, fun v ↦ ?_⟩
    rw [getD_rdropWhile]

theorem Sorted.add {ps ps' : PeerSet} {peer : Peer} (h : ps.Sorted)
    (hs : ps.add peer = some ps') : ps'.Sorted := by
  cases peer with
  | dealer orgId =>
    obtain ⟨-, hs⟩ := Option.ite_none_left_eq_some.mp hs
    obtain rfl := Option.some.inj hs
    exact ⟨h.recipients, h.dataowners, h.vertical⟩
  | recipient orgId =>
    obtain rfl := Option.some.inj hs
    refine ⟨?_, h.dataowners, h.vertical⟩
    apply h.recipients.insertSorted
    · intro a b hab
      simp only [decide_eq_true_eq, decide_eq_false_iff_not] at hab ⊢
      omega
    · intro a b c hab hbc
      simp only [decide_eq_false_iff_not] at hab hbc ⊢
      omega
  | dataowner peer =>
    obtain rfl := Option.some.inj hs
    refine ⟨h.recipients, fun v ↦ ?_, fun v other hother ↦ ?_⟩
    · rw [getD_addDataowner]
      split
      · exact (h.dataowners v).insertSorted Identity.lt_asymm Identity.lt_trans
      · exact h.dataowners v
    · rw [getD_addDataowner] at hother
      split at hother
      · next hv =>
        rcases mem_insertSorted.mp hother with rfl | hother
        · exact hv.symm
        · exact h.vertical v other hother
      · exact h.vertical v other hother

theorem Sorted.step {ps ps' : PeerSet} {op : Op} (h : ps.Sorted)
    (hs : ps.step op = some ps') : ps'.Sorted := by
  by_cases hop : ∃ peer, op = .add peer
  · obtain ⟨peer, rfl⟩ := hop
    exact h.add hs
  · push Not at hop
    obtain ⟨hrecipients, hdataowners⟩ := sublist_of_step h hs hop
    exact h.of_sublist hrecipients hdataowners

theorem sorted_empty : empty.Sorted where
  recipients := List.Pairwise.nil
  dataowners v := by
    simp [empty, SortedBy]
  vertical v := by
    simp [empty]

/-- After every sequence of operations the vectors are sorted. -/
theorem sorted_of_reachable {ps : PeerSet} (h : machine.Reachable ps) : ps.Sorted := by
  apply h.invariant
  · rintro _ rfl
    exact sorted_empty
  · intro ps op ps' hps hstep
    exact hps.step hstep

/-! ## Equality -/

/-- The set has the member. -/
def Member (ps : PeerSet) : Peer → Prop
  | .dealer orgId => ps.dealer = some orgId
  | .recipient orgId => orgId ∈ ps.recipients
  | .dataowner peer => peer ∈ ps.dataowners.getD peer.vertical []

/-- Two sets have the same members. -/
def SameMembers (a b : PeerSet) : Prop := ∀ peer, a.Member peer ↔ b.Member peer

/-- Two sets have each member as many times. -/
structure SameCounts (a b : PeerSet) : Prop where
  dealer : a.dealer = b.dealer
  recipients : a.recipients.Perm b.recipients
  dataowners : ∀ v, (a.dataowners.getD v []).Perm (b.dataowners.getD v [])

/-- No member stands in the set twice. -/
structure Distinct (ps : PeerSet) : Prop where
  recipients : ps.recipients.Nodup
  dataowners : ∀ v, (ps.dataowners.getD v []).Nodup

/-- The last vertical has data owners. -/
def Trimmed (ps : PeerSet) : Prop :=
  ∀ v, v + 1 = ps.dataowners.length → ps.dataowners.getD v [] ≠ []

variable {a b ps ps' : PeerSet} {op : Op}

private theorem dataowners_eq (hlength : a.dataowners.length = b.dataowners.length)
    (h : ∀ v, a.dataowners.getD v [] = b.dataowners.getD v []) : a.dataowners = b.dataowners := by
  apply List.ext_getElem hlength
  intro v ha hb
  rw [← List.getD_eq_getElem _ [] ha, ← List.getD_eq_getElem _ [] hb, h]

/-- Sorted sets are equal when they have the same members and as many verticals. -/
theorem eq_iff_sameCounts (ha : a.Sorted) (hb : b.Sorted) :
    a.eq b = true ↔ SameCounts a b ∧ a.dataowners.length = b.dataowners.length := by
  rw [eq_iff]
  constructor
  · rintro rfl
    exact ⟨⟨rfl, .refl _, fun v ↦ .refl _⟩, rfl⟩
  · rintro ⟨hcounts, hlength⟩
    have hrecipients : a.recipients = b.recipients := by
      apply hcounts.recipients.eq_of_pairwise _ ha.recipients hb.recipients
      intro x y _ _ hxy hyx
      simp only [decide_eq_false_iff_not] at hxy hyx
      omega
    have hdataowners : a.dataowners = b.dataowners := by
      apply dataowners_eq hlength
      intro v
      apply (hcounts.dataowners v).eq_of_pairwise _ (ha.dataowners v) (hb.dataowners v)
      intro x y _ _
      exact Identity.eq_of_not_lt x y
    have hdealer := hcounts.dealer
    cases a
    cases b
    simp only [PeerSet.mk.injEq]
    exact ⟨hdealer, hrecipients, hdataowners⟩

/-- Sets without empty trailing verticals have as many verticals when they have the same data
owners. -/
private theorem length_eq_of_trimmed (ha : a.Trimmed) (hb : b.Trimmed)
    (h : ∀ v, (a.dataowners.getD v []).Perm (b.dataowners.getD v [])) :
    a.dataowners.length = b.dataowners.length := by
  rcases Nat.lt_trichotomy a.dataowners.length b.dataowners.length with hlt | heq | hlt
  · have hperm := h (b.dataowners.length - 1)
    rw [List.getD_eq_default a.dataowners _ (by omega)] at hperm
    exact absurd hperm.nil_eq.symm (hb _ (by omega))
  · exact heq
  · have hperm := h (a.dataowners.length - 1)
    rw [List.getD_eq_default b.dataowners _ (by omega)] at hperm
    exact absurd hperm.eq_nil (ha _ (by omega))

theorem SameMembers.sameCounts (ha : a.Sorted) (hb : b.Sorted) (hda : a.Distinct)
    (hdb : b.Distinct) (h : SameMembers a b) : SameCounts a b where
  dealer := Option.ext fun orgId ↦ h (.dealer orgId)
  recipients := (List.perm_ext_iff_of_nodup hda.recipients hdb.recipients).mpr
    fun orgId ↦ h (.recipient orgId)
  dataowners v := by
    apply (List.perm_ext_iff_of_nodup (hda.dataowners v) (hdb.dataowners v)).mpr
    intro peer
    constructor
    · intro hpeer
      obtain rfl := ha.vertical v peer hpeer
      exact (h (.dataowner peer)).mp hpeer
    · intro hpeer
      obtain rfl := hb.vertical v peer hpeer
      exact (h (.dataowner peer)).mpr hpeer

theorem SameCounts.sameMembers (h : SameCounts a b) : SameMembers a b := by
  intro peer
  cases peer with
  | dealer orgId => simp only [Member, h.dealer]
  | recipient orgId => exact h.recipients.mem_iff
  | dataowner peer => exact (h.dataowners _).mem_iff

/-- Sets that repeat no member and have no empty trailing vertical are equal when they have the
same members. -/
theorem eq_iff_sameMembers (ha : a.Sorted) (hb : b.Sorted) (hda : a.Distinct) (hdb : b.Distinct)
    (hta : a.Trimmed) (htb : b.Trimmed) : a.eq b = true ↔ SameMembers a b := by
  rw [eq_iff_sameCounts ha hb]
  constructor
  · rintro ⟨hcounts, -⟩
    exact hcounts.sameMembers
  · intro h
    have hcounts := h.sameCounts ha hb hda hdb
    exact ⟨hcounts, length_eq_of_trimmed hta htb hcounts.dataowners⟩

/-! ## Copies -/

theorem isSome_enforceSort : ps.enforceSort.isSome = true ↔ ps.eachDataowner ≠ [] := by
  rw [enforceSort_eq]
  split <;> simp_all

/-- Dropping the trailing empty verticals changes nothing when there are none. -/
private theorem rdropWhile_eq_self : ps.dataowners.rdropWhile List.isEmpty = ps.dataowners ↔
    ps.Trimmed := by
  rw [List.rdropWhile_eq_self_iff]
  constructor
  · intro h v hv
    have hne : ps.dataowners ≠ [] := List.ne_nil_of_length_pos (by omega)
    have hlast := h hne
    rw [List.getLast_eq_getElem, ← List.getD_eq_getElem _ []] at hlast
    obtain rfl : v = ps.dataowners.length - 1 := by omega
    simpa using hlast
  · intro h hne
    have hpos := List.length_pos_iff.mpr hne
    have hlast := h (ps.dataowners.length - 1) (by omega)
    rw [List.getLast_eq_getElem, ← List.getD_eq_getElem _ []]
    simpa using hlast

/-- A copy of a sorted set is made and is equal to it just when the last vertical has data
owners. -/
theorem copy_eq_iff (h : ps.Sorted) : (∃ ps', ps.enforceSort = some ps' ∧ ps'.eq ps = true) ↔
    ps.eachDataowner ≠ [] ∧ ps.Trimmed := by
  rw [← rdropWhile_eq_self, enforceSort_eq]
  by_cases hps : ps.eachDataowner = []
  · simp [hps]
  · simp only [if_neg hps, Option.some.injEq, exists_eq_left', eq_iff, h.copy_eq]
    constructor
    · intro hcopy
      exact ⟨hps, congrArg PeerSet.dataowners hcopy⟩
    · rintro ⟨-, hdrop⟩
      rw [hdrop]

/-! ## Runs that empty no last vertical and add no member twice -/

/-- The operation adds no member twice and does not take the last vertical its data owners. -/
def Keeps (ps : PeerSet) : Op → Prop
  | .add peer => ¬ ps.Member peer
  | .remove (.dataowner peer) =>
    ps.dataowners.getD peer.vertical [] = [peer] → peer.vertical + 1 ≠ ps.dataowners.length
  | .removeVertical vertical => vertical + 1 ≠ ps.dataowners.length
  | _ => True

theorem Distinct.add {peer : Peer} (h : ps.Distinct) (hpeer : ¬ ps.Member peer)
    (hs : ps.add peer = some ps') : ps'.Distinct := by
  cases peer with
  | dealer orgId =>
    obtain ⟨-, hs⟩ := Option.ite_none_left_eq_some.mp hs
    obtain rfl := Option.some.inj hs
    exact ⟨h.recipients, h.dataowners⟩
  | recipient orgId =>
    obtain rfl := Option.some.inj hs
    refine ⟨?_, h.dataowners⟩
    have hperm : (insertSorted (fun a b ↦ decide (a < b)) orgId ps.recipients).Perm
        (orgId :: ps.recipients) := insertSorted_perm
    exact hperm.nodup_iff.mpr (h.recipients.cons hpeer)
  | dataowner peer =>
    obtain rfl := Option.some.inj hs
    refine ⟨h.recipients, fun v ↦ ?_⟩
    rw [getD_addDataowner]
    split
    · next hv =>
      subst hv
      exact insertSorted_perm.nodup_iff.mpr ((h.dataowners _).cons hpeer)
    · exact h.dataowners v

theorem Distinct.step (hps : ps.Sorted) (h : ps.Distinct) (hs : ps.step op = some ps')
    (hop : ps.Keeps op) : ps'.Distinct := by
  by_cases hadd : ∃ peer, op = .add peer
  · obtain ⟨peer, rfl⟩ := hadd
    exact h.add hop hs
  · push Not at hadd
    obtain ⟨hrecipients, hdataowners⟩ := sublist_of_step hps hs hadd
    exact ⟨h.recipients.sublist hrecipients, fun v ↦ (h.dataowners v).sublist (hdataowners v)⟩

private theorem length_addDataowner {peer : Identity} {dataowners : List (List Identity)} :
    (addDataowner peer dataowners).length = max dataowners.length (peer.vertical + 1) := by
  simp only [addDataowner, List.length_modify, List.length_append, List.length_replicate]
  omega

theorem Trimmed.add {peer : Peer} (h : ps.Trimmed) (hs : ps.add peer = some ps') :
    ps'.Trimmed := by
  cases peer with
  | dealer orgId =>
    obtain ⟨-, hs⟩ := Option.ite_none_left_eq_some.mp hs
    obtain rfl := Option.some.inj hs
    exact h
  | recipient orgId =>
    obtain rfl := Option.some.inj hs
    exact h
  | dataowner peer =>
    obtain rfl := Option.some.inj hs
    intro v hv
    rw [length_addDataowner] at hv
    rw [getD_addDataowner]
    split
    · simp [insertSorted]
    · exact h v (by omega)

/-- Emptying or thinning out a vertical leaves the last one with data owners. -/
private theorem Trimmed.modify {f : List Identity → List Identity} {vertical : Nat}
    (h : ps.Trimmed) (hf : f [] = [])
    (hlast : vertical + 1 = ps.dataowners.length → f (ps.dataowners.getD vertical []) ≠ []) :
    Trimmed { ps with dataowners := ps.dataowners.modify vertical f } := by
  intro v hv
  rw [List.length_modify] at hv
  rw [getD_modify f hf]
  split
  · next heq =>
    subst heq
    exact hlast hv
  · exact h v hv

theorem Trimmed.remove {peer : Peer} (h : ps.Trimmed) (hs : ps.remove peer = some ps')
    (hop : ps.Keeps (.remove peer)) : ps'.Trimmed := by
  cases peer with
  | dealer orgId =>
    obtain ⟨-, hs⟩ := Option.ite_none_right_eq_some.mp hs
    obtain rfl := Option.some.inj hs
    exact h
  | recipient orgId =>
    obtain ⟨-, hs⟩ := Option.ite_none_right_eq_some.mp hs
    obtain rfl := Option.some.inj hs
    exact h
  | dataowner peer =>
    obtain ⟨-, hs⟩ := Option.ite_none_right_eq_some.mp hs
    obtain rfl := Option.some.inj hs
    apply h.modify rfl
    intro hlast herase
    rcases List.erase_eq_nil_iff.mp herase with hnil | hone
    · exact h _ hlast hnil
    · exact hop hone hlast

theorem Trimmed.step (h : ps.Trimmed) (hps : ps.Sorted) (hs : ps.step op = some ps')
    (hop : ps.Keeps op) : ps'.Trimmed := by
  cases op with
  | add peer => exact h.add hs
  | remove peer => exact h.remove hs hop
  | removeAnalyst =>
    obtain rfl := Option.some.inj hs
    exact h
  | removeDealer =>
    rw [PeerSet.step, removeDealer] at hs
    split at hs
    · cases hs
    · exact h.remove hs trivial
  | removeRecipients =>
    obtain rfl := Option.some.inj hs
    exact h
  | removeDataowners =>
    obtain rfl := Option.some.inj hs
    intro v hv
    simp [removeDataowners] at hv
  | removeVertical vertical =>
    obtain ⟨-, hs⟩ := Option.ite_none_right_eq_some.mp hs
    obtain rfl := Option.some.inj hs
    apply h.modify rfl
    intro hlast
    exact absurd hlast hop
  | enforceSort =>
    rw [PeerSet.step, enforceSort_eq] at hs
    obtain ⟨-, hs⟩ := Option.ite_none_left_eq_some.mp hs
    obtain rfl := Option.some.inj hs
    rw [hps.copy_eq, rdropWhile_eq_self.mpr h]
    exact h

/-- What holds after every run that empties no last vertical and adds no member twice. -/
theorem invariant_of_reachable (h : (machine.restrict Keeps).Reachable ps) :
    ps.Sorted ∧ ps.Distinct ∧ ps.Trimmed := by
  apply h.invariant (P := fun ps ↦ ps.Sorted ∧ ps.Distinct ∧ ps.Trimmed)
  · rintro _ rfl
    refine ⟨sorted_empty, ⟨List.nodup_nil, fun v ↦ by simp [empty]⟩, ?_⟩
    intro v hv
    simp [empty] at hv
  · rintro ps op ps' ⟨hsorted, hdistinct, htrimmed⟩ ⟨hstep, hop⟩
    exact ⟨hsorted.step hstep, hdistinct.step hsorted hstep hop, htrimmed.step hsorted hstep hop⟩

/-- The vectors are sorted after every sequence of operations. A copy is made of just the sets with
data owners, and is equal to its original just when the last vertical has some; two sets are equal
when they have the same members as many times and the same number of verticals. In runs that empty
no last vertical and add no member twice, a set with data owners has an equal copy and two sets are
equal just when they have the same members. -/
theorem runs_spec (a b : PeerSet) :
    (machine.Reachable a → a.Sorted ∧
      (a.enforceSort.isSome = true ↔ a.eachDataowner ≠ []) ∧
      ((∃ a', a.enforceSort = some a' ∧ a'.eq a = true) ↔
        a.eachDataowner ≠ [] ∧ a.Trimmed)) ∧
    (machine.Reachable a → machine.Reachable b →
      (a.eq b = true ↔ SameCounts a b ∧ a.dataowners.length = b.dataowners.length)) ∧
    ((machine.restrict Keeps).Reachable a → (machine.restrict Keeps).Reachable b →
      (a.eachDataowner ≠ [] → ∃ a', a.enforceSort = some a' ∧ a'.eq a = true) ∧
      (a.eq b = true ↔ SameMembers a b)) := by
  refine ⟨fun ha ↦ ?_, fun ha hb ↦ ?_, fun ha hb ↦ ?_⟩
  · have hsorted := sorted_of_reachable ha
    exact ⟨hsorted, isSome_enforceSort, copy_eq_iff hsorted⟩
  · exact eq_iff_sameCounts (sorted_of_reachable ha) (sorted_of_reachable hb)
  · obtain ⟨hsa, hda, hta⟩ := invariant_of_reachable ha
    obtain ⟨hsb, hdb, htb⟩ := invariant_of_reachable hb
    exact ⟨fun hne ↦ (copy_eq_iff hsa).mpr ⟨hne, hta⟩,
      eq_iff_sameMembers hsa hsb hda hdb hta htb⟩

/-- The empty set has no copy, and the copy of a set whose second vertical lost its data owner has
the same members and differs. -/
theorem empty_and_emptied_copy : empty.enforceSort = none ∧
    ∃ a b, machine.Reachable a ∧ machine.Reachable b ∧ a.enforceSort = some b ∧
      SameMembers a b ∧ b.eq a = false := by
  refine ⟨by rw [enforceSort_eq]; rfl, ⟨none, [], [[⟨1, 0⟩], []]⟩, ⟨none, [], [[⟨1, 0⟩]]⟩, ?_⟩
  have hreachable : machine.Reachable ⟨none, [], [[⟨1, 0⟩], []]⟩ :=
    ⟨empty, [.add (.dataowner ⟨1, 0⟩), .add (.dataowner ⟨2, 1⟩), .remove (.dataowner ⟨2, 1⟩)],
      rfl, Base.Machine.run_of_execute rfl⟩
  have hcopy : enforceSort ⟨none, [], [[⟨1, 0⟩], []]⟩ = some ⟨none, [], [[⟨1, 0⟩]]⟩ := by
    rw [enforceSort_eq, (sorted_of_reachable hreachable).copy_eq]
    rfl
  refine ⟨hreachable, hreachable.step (a := .enforceSort) hcopy, hcopy, ?_, rfl⟩
  apply SameCounts.sameMembers
  refine ⟨rfl, .refl _, fun v ↦ ?_⟩
  rcases v with _ | _ | v <;> exact .refl _

end PeerSet

end Safrn.Stats
