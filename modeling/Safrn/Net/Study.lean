import Mathlib.Algebra.Group.Nat.Defs
import Mathlib.Data.List.Basic

/-!
# The peers of a study and whom a server contacts

Models `Peer` and `StudyConfig::peers` of `JSON/Config/StudyConfig.h:49-153`, the roles of
`Identity.h:24-29`, and the contact loops of `network/NewConnectionHandler.cpp:584-604,627-648`.
-/

namespace Safrn.Net

/-- `dbuid_t`; the order of the sixteen bytes is that of the number they make up. -/
abbrev Dbuid := BitVec 128

instance Dbuid.lawfulBEq : LawfulBEq Dbuid := inferInstance

/-- `role_t`. -/
abbrev Role := BitVec 8

/-- `ROLE_ANALYST`. -/
def roleAnalyst : Role := 0x01

/-- `ROLE_DATAOWNER`. -/
def roleDataowner : Role := 0x02

/-- `ROLE_DEALER`. -/
def roleDealer : Role := 0x04

/-- `ROLE_RECIPIENT`. -/
def roleRecipient : Role := 0x08

/-- The fields of `Peer` that the connections depend on. -/
structure Peer where
  organizationId : Dbuid
  role : Role
  verticalIdx : Nat

namespace Peer

variable (peer : Peer)

/-- `Peer::hasRole`. -/
def hasRole (r : Role) : Bool := peer.role &&& r == r

/-- `Peer::isDataowner`. -/
def isDataowner : Bool := peer.hasRole roleDataowner

/-- `Peer::isDealer`. -/
def isDealer : Bool := peer.hasRole roleDealer

/-- `Peer::isRecipient`. -/
def isRecipient : Bool := peer.hasRole roleRecipient

/-- How often a contact loop dials the peer: once as a recipient, and as a data owner once for
each time the query names its vertical. -/
def contacts (verticals : List Nat) : List Dbuid :=
  (if peer.isRecipient then [peer.organizationId] else []) ++
    if peer.isDataowner then
      verticals.flatMap fun verticalIdx ↦
        if verticalIdx = peer.verticalIdx then [peer.organizationId] else []
    else []

/-- Whether the peer is a recipient, and how often the query names its vertical. -/
def roleCount (verticals : List Nat) : Nat :=
  (if peer.isRecipient then 1 else 0) +
    if peer.isDataowner then verticals.count peer.verticalIdx else 0

end Peer

/-- `StudyConfig::peers`, in the order of the map. -/
structure Study where
  peers : List Peer
  sorted : peers.Pairwise (·.organizationId < ·.organizationId)

namespace Study

variable (study : Study) (verticals : List Nat)

/-- Whom `sendQueryToPeers` dials: everybody else. -/
def sendQueryToPeers (orgId : Dbuid) : List Dbuid :=
  study.peers.flatMap fun peer ↦
    if peer.organizationId ≠ orgId then peer.contacts verticals else []

/-- Whom `sendConnectionsToPeers` dials: those with a greater organization id. -/
def sendConnectionsToPeers (orgId : Dbuid) : List Dbuid :=
  study.peers.flatMap fun peer ↦
    if orgId < peer.organizationId then peer.contacts verticals else []

/-- How often a contact loop over all peers dials an organization. -/
def contactCount (orgId : Dbuid) : Nat :=
  (study.peers.flatMap fun peer ↦ peer.contacts verticals).count orgId

variable {study verticals}

theorem eq_of_mem_contacts {peer : Peer} {q : Dbuid} (h : q ∈ peer.contacts verticals) :
    q = peer.organizationId := by
  unfold Peer.contacts at h
  rcases List.mem_append.mp h with h | h
  · split at h
    · exact List.mem_singleton.mp h
    · cases h
  · split at h
    · obtain ⟨v, -, hv⟩ := List.mem_flatMap.mp h
      split at hv
      · exact List.mem_singleton.mp hv
      · cases hv
    · cases h

/-- A loop over the peers whose id meets a condition reaches them as often as any loop does. -/
private theorem count_filtered (peers : List Peer) (c : Dbuid → Prop) [DecidablePred c]
    (q : Dbuid) :
    (peers.flatMap fun peer ↦
        if c peer.organizationId then peer.contacts verticals else []).count q =
      if c q then (peers.flatMap fun peer ↦ peer.contacts verticals).count q else 0 := by
  induction peers with
  | nil => exact (ite_self 0).symm
  | cons peer peers ih =>
    rw [List.flatMap_cons, List.flatMap_cons, List.count_append, List.count_append, ih]
    by_cases hq : q = peer.organizationId
    · subst hq
      by_cases hc : c peer.organizationId
      · rw [if_pos hc, if_pos hc, if_pos hc]
      · rw [if_neg hc, if_neg hc, if_neg hc]
        rfl
    · have hzero : (peer.contacts verticals).count q = 0 :=
        List.count_eq_zero.mpr fun hm ↦ hq (eq_of_mem_contacts hm)
      rw [hzero, Nat.zero_add]
      split
      · rw [hzero, Nat.zero_add]
      · rw [List.count_nil, Nat.zero_add]

theorem count_sendQueryToPeers (orgId q : Dbuid) :
    (study.sendQueryToPeers verticals orgId).count q =
      if q ≠ orgId then study.contactCount verticals q else 0 :=
  count_filtered study.peers (· ≠ orgId) q

theorem count_sendConnectionsToPeers (orgId q : Dbuid) :
    (study.sendConnectionsToPeers verticals orgId).count q =
      if orgId < q then study.contactCount verticals q else 0 :=
  count_filtered study.peers (orgId < ·) q

private theorem count_contacts (peer : Peer) :
    (peer.contacts verticals).count peer.organizationId = peer.roleCount verticals := by
  unfold Peer.contacts Peer.roleCount
  rw [List.count_append]
  congr 1
  · split
    · exact List.count_singleton_self
    · rfl
  · split
    · induction verticals with
      | nil => rfl
      | cons v vs ih =>
        rw [List.flatMap_cons, List.count_append, ih, List.count_cons]
        by_cases hv : v = peer.verticalIdx
        · rw [if_pos hv, List.count_singleton_self, if_pos (beq_iff_eq.mpr hv), Nat.add_comm]
        · rw [if_neg hv, if_neg (fun h ↦ hv (beq_iff_eq.mp h)), List.count_nil, Nat.zero_add,
            Nat.add_zero]
    · rfl

/-- Of peers with different ids only one contributes to the count of an id. -/
private theorem count_of_sorted {peers : List Peer}
    (hs : peers.Pairwise (·.organizationId < ·.organizationId)) {peer : Peer}
    (hm : peer ∈ peers) :
    (peers.flatMap fun peer ↦ peer.contacts verticals).count peer.organizationId =
      peer.roleCount verticals := by
  induction peers with
  | nil => cases hm
  | cons first rest ih =>
    obtain ⟨hfirst, hrest⟩ := List.pairwise_cons.mp hs
    rw [List.flatMap_cons, List.count_append]
    rcases List.mem_cons.mp hm with rfl | hm
    · have hzero : (rest.flatMap fun peer ↦ peer.contacts verticals).count
          peer.organizationId = 0 := by
        refine List.count_eq_zero.mpr fun hq ↦ ?_
        obtain ⟨other, hother, hq⟩ := List.mem_flatMap.mp hq
        exact absurd (hfirst other hother) (by rw [eq_of_mem_contacts hq]; exact BitVec.lt_irrefl _)
      rw [hzero, Nat.add_zero, count_contacts]
    · have hzero : (first.contacts verticals).count peer.organizationId = 0 := by
        refine List.count_eq_zero.mpr fun hq ↦ ?_
        exact absurd (hfirst peer hm) (by rw [eq_of_mem_contacts hq]; exact BitVec.lt_irrefl _)
      rw [hzero, Nat.zero_add]
      exact ih hrest hm

/-- A peer is dialled once for each of its parts in the query. -/
theorem contactCount_eq {peer : Peer} (hm : peer ∈ study.peers) :
    study.contactCount verticals peer.organizationId = peer.roleCount verticals :=
  count_of_sorted study.sorted hm

/-- Only peers of the study are dialled. -/
theorem contactCount_eq_zero {q : Dbuid}
    (h : ∀ peer ∈ study.peers, peer.organizationId ≠ q) : study.contactCount verticals q = 0 := by
  refine List.count_eq_zero.mpr fun hq ↦ ?_
  obtain ⟨peer, hpeer, hq⟩ := List.mem_flatMap.mp hq
  exact h peer hpeer (eq_of_mem_contacts hq).symm

end Study
end Safrn.Net
