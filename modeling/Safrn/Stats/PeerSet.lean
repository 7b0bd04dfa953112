import Mathlib.Data.List.DropRight
import Mathlib.Data.List.GetD
import Mathlib.Data.List.Perm.Basic
import Safrn.Stats.Peers

/-!
# Sets of peers

Models `PeerSet` (`shared/src/main/cpp/PeerSet.h:45-120`, `PeerSet.cpp:52-147, 207-217`): the peers
of a fronctocol by their role, the data owners by their vertical and sorted within it.
-/

namespace Safrn.Stats

/-- The identity of a peer by its role. -/
inductive Peer
  | dealer (orgId : Nat)
  | recipient (orgId : Nat)
  | dataowner (identity : Identity)
  deriving DecidableEq

/-- `operator<` of two data owners. -/
def Identity.lt (a b : Identity) : Bool :=
  if a.orgId ≠ b.orgId then a.orgId < b.orgId else a.vertical < b.vertical

structure PeerSet where
  dealer : Option Nat
  recipients : List Nat
  dataowners : List (List Identity)
  deriving DecidableEq

/-- Insert in front of the last peers that are greater. -/
def insertSorted {α : Type} (lt : α → α → Bool) (peer : α) (peers : List α) : List α :=
  peers.rdropWhile (lt peer) ++ peer :: peers.rtakeWhile (lt peer)

theorem mem_insertSorted {α : Type} {lt : α → α → Bool} {x peer : α} {peers : List α} :
    x ∈ insertSorted lt peer peers ↔ x = peer ∨ x ∈ peers := by
  conv_rhs => rw [← List.rdropWhile_append_rtakeWhile (p := lt peer) (l := peers)]
  simp only [insertSorted, List.mem_append, List.mem_cons]
  tauto

/-- Add a data owner to the lists of its vertical. -/
def addDataowner (peer : Identity) (dataowners : List (List Identity)) : List (List Identity) :=
  (dataowners ++ List.replicate (peer.vertical + 1 - dataowners.length) []).modify peer.vertical
    (insertSorted Identity.lt peer)

namespace PeerSet

def empty : PeerSet := ⟨none, [], []⟩

/-- `add`. -/
def add (ps : PeerSet) : Peer → Option PeerSet
  | .dealer orgId => if ps.dealer.isSome then none else some { ps with dealer := some orgId }
  | .recipient orgId =>
    some { ps with recipients := insertSorted (fun a b ↦ a < b) orgId ps.recipients }
  | .dataowner peer => some { ps with dataowners := addDataowner peer ps.dataowners }

/-- The copy constructor, which sorts and drops the trailing verticals without data owners. -/
def copy (ps : PeerSet) : PeerSet where
  dealer := ps.dealer
  recipients := ps.recipients.mergeSort
  dataowners :=
    (ps.dataowners.map fun vert ↦ vert.mergeSort fun a b ↦ !b.lt a).rdropWhile List.isEmpty

def removeRecipients (ps : PeerSet) : PeerSet := { ps with recipients := [] }

/-- The data owners in the order of `forEachDataowner`. -/
def eachDataowner (ps : PeerSet) : List Identity := ps.dataowners.flatten

end PeerSet

/-! ## Adding data owners -/

/-- The lists with room for a vertical. -/
private theorem getElem?_padded {dataowners : List (List Identity)} {v i : Nat} :
    (dataowners ++ List.replicate (v + 1 - dataowners.length) [])[i]? =
      if i ≤ v then some (dataowners.getD i []) else dataowners[i]? := by
  by_cases hi : i < dataowners.length
  · rw [List.getElem?_append_left hi, List.getD_eq_getElem _ _ hi, List.getElem?_eq_getElem hi]
    simp
  · have hnone : dataowners[i]? = none := List.getElem?_eq_none (Nat.le_of_not_lt hi)
    rw [List.getElem?_append_right (Nat.le_of_not_lt hi), List.getElem?_replicate, List.getD,
      hnone]
    split <;> split <;> first | rfl | omega

/-- What stands in a vertical when a data owner has been added. -/
theorem getElem?_addDataowner {peer : Identity} {dataowners : List (List Identity)} {i : Nat} :
    (addDataowner peer dataowners)[i]? =
      if i = peer.vertical then some (insertSorted Identity.lt peer (dataowners.getD i []))
      else if i < peer.vertical then some (dataowners.getD i [])
      else dataowners[i]? := by
  rw [addDataowner, List.getElem?_modify, getElem?_padded]
  by_cases heq : i = peer.vertical
  · simp [heq]
  · rw [if_neg heq]
    by_cases hlt : i < peer.vertical
    · simp [hlt, Nat.le_of_lt hlt, Ne.symm heq]
    · have hle : ¬ i ≤ peer.vertical := fun hle ↦ hlt (Nat.lt_of_le_of_ne hle heq)
      simp [hlt, hle, Ne.symm heq]

theorem getD_addDataowner {peer : Identity} {dataowners : List (List Identity)} {i : Nat} :
    (addDataowner peer dataowners).getD i [] =
      if i = peer.vertical then insertSorted Identity.lt peer (dataowners.getD i [])
      else dataowners.getD i [] := by
  rw [List.getD, getElem?_addDataowner]
  split
  · rfl
  · split
    · rfl
    · rfl

private theorem mem_flatten_iff {x : Identity} {dataowners : List (List Identity)} :
    x ∈ dataowners.flatten ↔ ∃ i, x ∈ dataowners.getD i [] := by
  rw [List.mem_flatten]
  constructor
  · rintro ⟨vert, hvert, hx⟩
    obtain ⟨i, hi⟩ := List.getElem?_of_mem hvert
    refine ⟨i, ?_⟩
    rwa [List.getD, hi]
  · rintro ⟨i, hx⟩
    by_cases hi : i < dataowners.length
    · rw [List.getD_eq_getElem _ _ hi] at hx
      exact ⟨_, List.getElem_mem hi, hx⟩
    · rw [List.getD_eq_default _ _ (Nat.le_of_not_lt hi)] at hx
      cases hx

theorem mem_addDataowner {x peer : Identity} {dataowners : List (List Identity)} :
    x ∈ (addDataowner peer dataowners).flatten ↔ x = peer ∨ x ∈ dataowners.flatten := by
  simp only [mem_flatten_iff, getD_addDataowner]
  constructor
  · rintro ⟨i, hx⟩
    split at hx
    · exact (mem_insertSorted.mp hx).imp_right fun hx ↦ ⟨i, hx⟩
    · exact .inr ⟨i, hx⟩
  · rintro (rfl | ⟨i, hx⟩)
    · refine ⟨x.vertical, ?_⟩
      rw [if_pos rfl]
      exact mem_insertSorted.mpr (.inl rfl)
    · refine ⟨i, ?_⟩
      split
      · exact mem_insertSorted.mpr (.inr hx)
      · exact hx

/-- Data owners of different verticals are added in any order. -/
theorem addDataowner_comm {a b : Identity} (h : a.vertical ≠ b.vertical)
    (dataowners : List (List Identity)) :
    addDataowner a (addDataowner b dataowners) = addDataowner b (addDataowner a dataowners) := by
  apply List.ext_getElem?
  intro i
  simp only [getElem?_addDataowner, getD_addDataowner]
  by_cases ha : i = a.vertical
  · subst ha
    simp [h]
  · by_cases hb : i = b.vertical
    · subst hb
      simp [h.symm]
    · simp only [if_neg ha, if_neg hb]
      split <;> split <;> rfl

/-- A copy has the same data owners. -/
theorem PeerSet.eachDataowner_copy (ps : PeerSet) :
    ps.copy.eachDataowner.Perm ps.eachDataowner := by
  have hdrop : ∀ dataowners : List (List Identity),
      (dataowners.rdropWhile List.isEmpty).flatten = dataowners.flatten := by
    intro dataowners
    conv_rhs => rw [← List.rdropWhile_append_rtakeWhile (p := List.isEmpty) (l := dataowners)]
    rw [List.flatten_append, List.self_eq_append_right, List.flatten_eq_nil_iff]
    intro vert hvert
    exact List.isEmpty_iff.mp (List.mem_rtakeWhile_imp hvert)
  rw [eachDataowner, copy, hdrop, eachDataowner]
  generalize ps.dataowners = dataowners
  induction dataowners with
  | nil => rfl
  | cons vert rest ih => exact (List.mergeSort_perm _ _).append ih

end Safrn.Stats
