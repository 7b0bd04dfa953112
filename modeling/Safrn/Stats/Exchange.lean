import Mathlib.Data.List.Nodup
import Safrn.Stats.SharedLists

/-!
# The exchange of shares between the verticals

Every data owner of a statistic shares its padded list with each party of the other verticals and
receives theirs, in any order (`init` and `handleReceive` of `dataowner/Regression.cpp` and
`dataowner/Moments.cpp`). The lists that two parties share are then the kept halves and the masks
of both, and reconstruct to the lists of both as far as the masks are canonical.
-/

namespace Safrn.Stats

open Safrn.Base

/-- The data owners of a statistic. Each has the rows that it has read, its draws, and receives one
message from each party of the other verticals, in some order. -/
structure Exchange (info : ListInfo) (keyMaskModulus : Nat) where
  dataowners : List Identity
  rows : Identity → List Observation
  draws : Identity → Draws info keyMaskModulus
  arrivals : Identity → List Identity
  nodup : dataowners.Nodup
  arrivals_perm : ∀ self, (arrivals self).Perm (crossParties dataowners self)

namespace Exchange

-- `compute` is `computePayloadVectorAndPadList`, in which the statistics differ.
variable (modSub : Nat → Nat → Nat → Nat) {info : ListInfo} {keyMaskModulus : Nat}
  (compute : Draws info keyMaskModulus → Nat → List Observation → Option (List Observation))
  (x : Exchange info keyMaskModulus)

/-- The constructor of one party: the shared and outgoing lists for all its cross parties. -/
def setup (self : Identity) : Option (List (List Observation × List Observation)) := do
  let ownList ← compute (x.draws self) self.vertical (x.rows self)
  setupCrossVerticalShares modSub info (x.draws self) self.vertical ownList
    (crossParties x.dataowners self).length

/-- The message of `shareWithCrossVerticalParties` for `other`. -/
def messageTo (self other : Identity) : Option (List Cell) := do
  let lists ← x.setup modSub compute self
  let (_, outgoing) ← lists[indexOfCrossParties x.dataowners self other]?
  message info outgoing

/-- `handleReceive`. -/
def handleReceive (self : Identity) (sharedLists : List (List Observation)) (sender : Identity) :
    Option (List (List Observation)) := do
  let msg ← x.messageTo modSub compute sender self
  let index := indexOfCrossParties x.dataowners self sender
  let sharedList ← sharedLists[index]?
  let sharedList ← receiveShare info self.vertical sharedList msg
  some (sharedLists.set index sharedList)

/-- The shared lists of one party when all messages have arrived. -/
def sharedLists (self : Identity) : Option (List (List Observation)) := do
  let lists ← x.setup modSub compute self
  (x.arrivals self).foldlM (x.handleReceive modSub compute self) (lists.map Prod.fst)

/-! ## The lists at the end -/

/-- What two parties hold of each other's lists: the own half is what is left of the own list, the
other half the masks of the other party. -/
def held (lists : Identity → List Observation) (self other : Identity) : List Observation :=
  let own := kept modSub info (x.draws self) (indexOfCrossParties x.dataowners self other)
    (lists self)
  let theirs := masks info (x.draws other) (indexOfCrossParties x.dataowners other self)
  if self.vertical = info.dataVertical then own ++ theirs else theirs ++ own

/-- The lists that the data owners have padded. -/
structure Padded (lists : Identity → List Observation) : Prop where
  computed : ∀ self ∈ x.dataowners,
    compute (x.draws self) self.vertical (x.rows self) = some (lists self)
  length : ∀ self ∈ x.dataowners, info.maxListSize ≤ (lists self).length
  wellFormed : ∀ self ∈ x.dataowners, ∀ row ∈ lists self, WellFormed info row

variable {modSub compute x} {lists : Identity → List Observation}

/-- The shared list before the message of `other`. -/
private def start (modSub : Nat → Nat → Nat → Nat) (x : Exchange info keyMaskModulus)
    (lists : Identity → List Observation) (self : Identity) (i : Nat) : List Observation :=
  if self.vertical ≠ info.dataVertical then
    List.replicate info.maxListSize default ++ kept modSub info (x.draws self) i (lists self)
  else kept modSub info (x.draws self) i (lists self) ++ List.replicate info.maxListSize default

private theorem setup_eq (h : x.Padded compute lists) {self : Identity}
    (hself : self ∈ x.dataowners) :
    x.setup modSub compute self =
      some ((List.range (crossParties x.dataowners self).length).map fun i ↦
        (start modSub x lists self i, masks info (x.draws self) i)) := by
  rw [setup, h.computed self hself]
  apply collect_eq
  intro i _
  exact setupCrossVerticalShare_eq (h.length self hself) (h.wellFormed self hself) _ i

private theorem messageTo_eq (h : x.Padded compute lists) {self other : Identity}
    (hself : self ∈ x.dataowners) (hother : other ∈ crossParties x.dataowners self) :
    x.messageTo modSub compute self other =
      message info (masks info (x.draws self) (indexOfCrossParties x.dataowners self other)) := by
  have hlt := indexOfCrossParties_lt hother
  simp only [messageTo, setup_eq h hself, Option.bind_eq_bind, Option.bind_some]
  simp [hlt]

/-- Cross parties see each other. -/
private theorem crossParties_symm {self other : Identity} (hself : self ∈ x.dataowners)
    (hother : other ∈ crossParties x.dataowners self) :
    self ∈ crossParties x.dataowners other := by
  obtain ⟨-, hne⟩ := mem_crossParties.mp hother
  exact mem_crossParties.mpr ⟨hself, hne.symm⟩

/-- One receipt completes the list shared with the sender. -/
private theorem handleReceive_eq (h : x.Padded compute lists) {self sender : Identity}
    (hself : self ∈ x.dataowners) (hsender : sender ∈ crossParties x.dataowners self)
    {sharedLists : List (List Observation)}
    (hget : sharedLists[indexOfCrossParties x.dataowners self sender]? =
      some (start modSub x lists self (indexOfCrossParties x.dataowners self sender))) :
    x.handleReceive modSub compute self sharedLists sender =
      some (sharedLists.set (indexOfCrossParties x.dataowners self sender)
        (x.held modSub lists self sender)) := by
  have hmem := (mem_crossParties.mp hsender).1
  have hreceive : (x.messageTo modSub compute sender self).bind
      (receiveShare info self.vertical
        (start modSub x lists self (indexOfCrossParties x.dataowners self sender))) =
        some (x.held modSub lists self sender) := by
    rw [messageTo_eq h hmem (crossParties_symm hself hsender)]
    unfold start held
    by_cases hv : self.vertical = info.dataVertical
    · rw [if_neg (not_not_intro hv), receiveShare_masks (length_kept _ _) List.length_replicate,
        if_pos hv, if_pos hv]
    · rw [if_pos hv, receiveShare_masks List.length_replicate (length_kept _ _), if_neg hv,
        if_neg hv]
  cases hmsg : x.messageTo modSub compute sender self with
  | none => simp [hmsg] at hreceive
  | some msg =>
    rw [hmsg, Option.bind_some] at hreceive
    simp only [handleReceive, hmsg, hget, hreceive, Option.bind_eq_bind, Option.bind_some]

/-- The receipts complete the lists shared with their senders and leave the others. -/
private theorem foldlM_handleReceive (h : x.Padded compute lists) {self : Identity}
    (hself : self ∈ x.dataowners) {senders : List Identity} (hnodup : senders.Nodup)
    (hsenders : ∀ q ∈ senders, q ∈ crossParties x.dataowners self)
    (sharedLists : List (List Observation))
    (hstart : ∀ q ∈ senders, sharedLists[indexOfCrossParties x.dataowners self q]? =
      some (start modSub x lists self (indexOfCrossParties x.dataowners self q))) :
    ∃ final, senders.foldlM (x.handleReceive modSub compute self) sharedLists = some final ∧
      (∀ q ∈ senders, final[indexOfCrossParties x.dataowners self q]? =
        some (x.held modSub lists self q)) ∧
      ∀ i, (∀ q ∈ senders, indexOfCrossParties x.dataowners self q ≠ i) →
        final[i]? = sharedLists[i]? := by
  induction senders generalizing sharedLists with
  | nil => exact ⟨sharedLists, rfl, by simp, fun _ _ ↦ rfl⟩
  | cons sender senders ih =>
    obtain ⟨hnew, hnodup⟩ := List.nodup_cons.mp hnodup
    have hsender := hsenders sender List.mem_cons_self
    have hget := hstart sender List.mem_cons_self
    have hother : ∀ q ∈ senders, indexOfCrossParties x.dataowners self sender ≠
        indexOfCrossParties x.dataowners self q := by
      intro q hq heq
      have heq := indexOfCrossParties_inj hsender (hsenders q (List.mem_cons_of_mem _ hq)) heq
      exact hnew (heq ▸ hq)
    obtain ⟨final, hrun, hheld, hframe⟩ := ih hnodup
      (fun q hq ↦ hsenders q (List.mem_cons_of_mem _ hq))
      (sharedLists.set (indexOfCrossParties x.dataowners self sender)
        (x.held modSub lists self sender)) (by
        intro q hq
        rw [List.getElem?_set_ne (hother q hq)]
        exact hstart q (List.mem_cons_of_mem _ hq))
    refine ⟨final, ?_, ?_, ?_⟩
    · rw [List.foldlM_cons, handleReceive_eq h hself hsender hget]
      exact hrun
    · intro q hq
      rcases List.mem_cons.mp hq with rfl | hq
      · obtain ⟨hlt, -⟩ := List.getElem?_eq_some_iff.mp hget
        rw [hframe _ fun q' hq' ↦ (hother q' hq').symm, List.getElem?_set_self hlt]
      · exact hheld q hq
    · intro i hi
      rw [hframe i fun q hq ↦ hi q (List.mem_cons_of_mem _ hq),
        List.getElem?_set_ne (hi sender List.mem_cons_self)]

/-- Whatever the order of the receipts, each shared list ends with both halves. -/
theorem sharedLists_eq (h : x.Padded compute lists) {self : Identity}
    (hself : self ∈ x.dataowners) :
    ∃ final, x.sharedLists modSub compute self = some final ∧
      ∀ other ∈ crossParties x.dataowners self,
        final[indexOfCrossParties x.dataowners self other]? =
          some (x.held modSub lists self other) := by
  have hperm := x.arrivals_perm self
  have hnodup : (x.arrivals self).Nodup :=
    hperm.nodup_iff.mpr (List.Nodup.filter _ x.nodup)
  have hstart : ∀ q ∈ x.arrivals self,
      ((List.range (crossParties x.dataowners self).length).map
        (start modSub x lists self))[indexOfCrossParties x.dataowners self q]? =
        some (start modSub x lists self (indexOfCrossParties x.dataowners self q)) := by
    intro q hq
    have hlt := indexOfCrossParties_lt (hperm.mem_iff.mp hq)
    simp [hlt]
  obtain ⟨final, hrun, hheld, -⟩ := foldlM_handleReceive h hself hnodup
    (fun q hq ↦ hperm.mem_iff.mp hq) _ hstart
  refine ⟨final, ?_, fun other hother ↦ hheld other (hperm.mem_iff.mpr hother)⟩
  simp only [sharedLists, setup_eq h hself, Option.bind_eq_bind, Option.bind_some, List.map_map,
    Function.comp_def]
  exact hrun

end Exchange
end Safrn.Stats
