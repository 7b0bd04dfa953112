import Safrn.Base.Machine
import Safrn.Net.Study
import Mathlib.Data.List.Count

/-!
# The connection mesh of a query

The proxy dials the other servers with the query, and every server that reads the query dials
further servers. Connections are counted as dialled. A server that reads the query twice runs
its contact loop twice.
-/

namespace Safrn.Net

open Safrn.Base

/-- A query: the study, the verticals that it names, and the analyst's proxy. -/
structure MeshQuery where
  study : Study
  verticals : List Nat
  proxy : Dbuid

/-- The dialled connections, and the servers whose query connection is not read yet. -/
structure MeshState where
  distributed : Bool
  unread : List Dbuid
  connections : List (Dbuid × Dbuid)
deriving DecidableEq

/-- The proxy distributes the query, or a server reads it and runs its contact loop. -/
inductive MeshAction
  | sendQueryToPeers
  | readQuery (orgId : Dbuid)

namespace MeshQuery

variable (M : MeshQuery)

/-- Whom the proxy dials. -/
def distribution : List Dbuid := M.study.sendQueryToPeers M.verticals M.proxy

/-- Whom a server dials on reading the query. -/
def greetings (orgId : Dbuid) : List Dbuid := M.study.sendConnectionsToPeers M.verticals orgId

/-- The next state, if the action can happen. -/
def step (s : MeshState) : MeshAction → Option MeshState
  | .sendQueryToPeers =>
    if s.distributed then none
    else some ⟨true, M.distribution, M.distribution.map (M.proxy, ·)⟩
  | .readQuery orgId =>
    if orgId ∈ s.unread then
      some { s with
        unread := s.unread.erase orgId
        connections := s.connections ++ (M.greetings orgId).map (orgId, ·) }
    else none

/-- Nothing is dialled. -/
def start : MeshState := ⟨false, [], []⟩

/-- The startup of one query. -/
def mesh : Machine MeshState MeshAction := .ofStep (· = start) M.step

/-- How many connections two servers share. -/
def connectionCount (s : MeshState) (p q : Dbuid) : Nat :=
  s.connections.count (p, q) + s.connections.count (q, p)

/-- An organization takes part as the proxy, a recipient, a dealer or an owner of data of a
vertical that the query names. -/
def Participates (q : Dbuid) : Prop :=
  q = M.proxy ∨ ∃ peer ∈ M.study.peers, peer.organizationId = q ∧
    (peer.isRecipient = true ∨ peer.isDealer = true ∨
      peer.isDataowner = true ∧ peer.verticalIdx ∈ M.verticals)

/-- Every other participant has one part as a recipient or data owner, and the proxy has none if
another participant has a smaller id. -/
def OnePartEach : Prop :=
  ∀ peer ∈ M.study.peers, M.Participates peer.organizationId →
    peer.organizationId ≠ M.proxy → peer.roleCount M.verticals = 1 ∧
      (peer.organizationId < M.proxy → ∀ proxy ∈ M.study.peers,
        proxy.organizationId = M.proxy → proxy.roleCount M.verticals = 0)

/-- Every two participants share one connection. -/
def Complete (s : MeshState) : Prop :=
  ∀ p q, M.Participates p → M.Participates q → p ≠ q → connectionCount s p q = 1

/-- The dialled connections and those that the unread queries will bring are those of the proxy
and of all servers that the proxy dials. -/
structure Inv (s : MeshState) : Prop where
  start : s.distributed = false → s = start
  connections : s.distributed = true → ∀ a b,
    s.connections.count (a, b) + s.unread.count a * (M.greetings a).count b =
      (if a = M.proxy then M.distribution.count b else 0) +
        M.distribution.count a * (M.greetings a).count b

variable {M}

theorem count_map_pair (l : List Dbuid) (a a' b : Dbuid) :
    (l.map (a, ·)).count (a', b) = if a' = a then l.count b else 0 := by
  by_cases h : a' = a
  · subst h
    rw [if_pos rfl]
    exact List.count_map_of_injective l _ (fun _ _ hxy ↦ (Prod.mk.inj hxy).2) b
  · rw [if_neg h]
    refine List.count_eq_zero.mpr fun hm ↦ ?_
    obtain ⟨c, -, hc⟩ := List.mem_map.mp hm
    exact h (Prod.mk.inj hc).1.symm

/-- Every step keeps the account of connections. -/
theorem Inv.step {s t : MeshState} {a : MeshAction} (h : M.Inv s) (hst : M.step s a = some t) :
    M.Inv t := by
  cases a with
  | sendQueryToPeers =>
    obtain ⟨-, ht⟩ := Option.ite_none_left_eq_some.mp hst
    obtain rfl := Option.some.inj ht
    refine ⟨nofun, fun _ a b ↦ ?_⟩
    rw [count_map_pair]
  | readQuery orgId =>
    obtain ⟨hm, ht⟩ := Option.ite_none_right_eq_some.mp hst
    obtain rfl := Option.some.inj ht
    refine ⟨fun hd ↦ ?_, fun hd a b ↦ ?_⟩
    · rw [h.start hd] at hm
      cases hm
    · have hinv := h.connections hd a b
      rw [List.count_append, count_map_pair]
      by_cases ha : a = orgId
      · subst ha
        obtain ⟨k, hk⟩ := Nat.exists_eq_succ_of_ne_zero
          (Nat.ne_of_gt (List.count_pos_iff.mpr hm))
        rw [hk, Nat.succ_mul] at hinv
        rw [if_pos rfl, List.count_erase_self, hk, Nat.succ_sub_one, ← hinv]
        omega
      · rw [if_neg ha, List.count_erase_of_ne ha, Nat.add_zero]
        exact hinv

/-- No step is left exactly where the query is distributed and read everywhere. -/
theorem stuck_iff {s : MeshState} :
    M.mesh.Stuck s ↔ s.distributed = true ∧ s.unread = [] := by
  constructor
  · intro hs
    have hnone := Machine.stuck_ofStep.mp hs
    constructor
    · cases hd : s.distributed with
      | true => rfl
      | false =>
        have hn := hnone .sendQueryToPeers
        simp only [MeshQuery.step, hd] at hn
        cases hn
    · cases hu : s.unread with
      | nil => rfl
      | cons q rest =>
        have hn := hnone (.readQuery q)
        simp only [MeshQuery.step] at hn
        rw [if_pos (hu ▸ List.mem_cons_self)] at hn
        cases hn
  · rintro ⟨hd, hu⟩
    refine Machine.stuck_ofStep.mpr fun a ↦ ?_
    cases a with
    | sendQueryToPeers => exact if_pos hd
    | readQuery q => exact if_neg (by rw [hu]; exact List.not_mem_nil)

/-- The connections between the proxy and another server. -/
private theorem connectionCount_proxy {s : MeshState} (h : M.Inv s)
    (hd : s.distributed = true) (hu : s.unread = []) {q : Dbuid} (hq : q ≠ M.proxy) :
    connectionCount s M.proxy q = M.study.contactCount M.verticals q +
      M.study.contactCount M.verticals q *
        if q < M.proxy then M.study.contactCount M.verticals M.proxy else 0 := by
  have h₁ := h.connections hd M.proxy q
  have h₂ := h.connections hd q M.proxy
  simp only [hu, List.count_nil, Nat.zero_mul, Nat.add_zero, distribution, greetings,
    Study.count_sendQueryToPeers, Study.count_sendConnectionsToPeers] at h₁ h₂
  rw [connectionCount, h₁, h₂, if_pos trivial, if_pos hq, if_neg (fun hne ↦ hne rfl), if_neg hq,
    Nat.zero_mul, Nat.zero_add, Nat.add_zero]

/-- The connections between two other servers. -/
private theorem connectionCount_of_lt {s : MeshState} (h : M.Inv s)
    (hd : s.distributed = true) (hu : s.unread = []) {p q : Dbuid} (hp : p ≠ M.proxy)
    (hq : q ≠ M.proxy) (hpq : p < q) :
    connectionCount s p q =
      M.study.contactCount M.verticals p * M.study.contactCount M.verticals q := by
  have h₁ := h.connections hd p q
  have h₂ := h.connections hd q p
  simp only [hu, List.count_nil, Nat.zero_mul, Nat.add_zero, distribution, greetings,
    Study.count_sendQueryToPeers, Study.count_sendConnectionsToPeers] at h₁ h₂
  rw [connectionCount, h₁, h₂, if_neg hp, if_pos hp, if_pos hpq, if_neg hq,
    if_neg (BitVec.not_lt.mpr (BitVec.le_of_lt hpq)), Nat.mul_zero, Nat.zero_add, Nat.add_zero]

/-- A participant other than the proxy is a peer of the study. -/
private theorem Participates.exists_peer {q : Dbuid} (h : M.Participates q) (hq : q ≠ M.proxy) :
    ∃ peer ∈ M.study.peers, peer.organizationId = q := by
  rcases h with rfl | ⟨peer, hpeer, hid, -⟩
  · exact absurd rfl hq
  · exact ⟨peer, hpeer, hid⟩

private theorem connectionCount_comm (s : MeshState) (p q : Dbuid) :
    connectionCount s p q = connectionCount s q p := Nat.add_comm _ _

/-- In whatever order the servers read the query, once all have run their contact loops every
two participants share one connection if and only if every other participant has one part in the
query, and the proxy none as soon as another participant has a smaller id. -/
theorem mesh_complete_iff (M : MeshQuery) {s : MeshState} (h : M.mesh.Reachable s)
    (hs : M.mesh.Stuck s) : M.Complete s ↔ M.OnePartEach := by
  have hinv : M.Inv s := by
    refine h.invariant ?_ fun _ _ _ hi hst ↦ hi.step hst
    rintro t rfl
    exact ⟨fun _ ↦ rfl, nofun⟩
  obtain ⟨hd, hu⟩ := stuck_iff.mp hs
  constructor
  · intro hc peer hpeer hpart hne
    have hone := hc _ _ (.inl rfl) hpart (Ne.symm hne)
    rw [connectionCount_proxy hinv hd hu hne, Study.contactCount_eq hpeer] at hone
    have hrole : peer.roleCount M.verticals = 1 := by
      refine Nat.eq_one_of_mul_eq_one_right (n := 1 + if peer.organizationId < M.proxy then
        M.study.contactCount M.verticals M.proxy else 0) ?_
      rw [Nat.mul_add, Nat.mul_one, hone]
    refine ⟨hrole, fun hlt proxy hproxy hid ↦ ?_⟩
    rw [hrole, if_pos hlt, ← hid, Study.contactCount_eq hproxy, Nat.one_mul] at hone
    omega
  · intro hone p q hp hq hpq
    have hcount : ∀ q, M.Participates q → q ≠ M.proxy →
        M.study.contactCount M.verticals q = 1 := by
      intro q hq hne
      obtain ⟨peer, hpeer, rfl⟩ := hq.exists_peer hne
      rw [Study.contactCount_eq hpeer]
      exact (hone peer hpeer hq hne).1
    have hproxy : ∀ q, M.Participates q → q ≠ M.proxy → connectionCount s M.proxy q = 1 := by
      intro q hq hne
      rw [connectionCount_proxy hinv hd hu hne, hcount q hq hne, Nat.one_mul]
      split
      · next hlt =>
        obtain ⟨peer, hpeer, rfl⟩ := hq.exists_peer hne
        by_cases hex : ∃ proxy ∈ M.study.peers, proxy.organizationId = M.proxy
        · obtain ⟨proxy, hmem, hid⟩ := hex
          rw [← hid, Study.contactCount_eq hmem, (hone peer hpeer hq hne).2 hlt proxy hmem hid]
        · rw [Study.contactCount_eq_zero fun proxy hmem hid ↦ hex ⟨proxy, hmem, hid⟩]
      · rfl
    by_cases hpp : p = M.proxy
    · subst hpp
      exact hproxy q hq (Ne.symm hpq)
    by_cases hqp : q = M.proxy
    · subst hqp
      rw [connectionCount_comm]
      exact hproxy p hp hpp
    rcases Nat.lt_or_gt_of_ne (mt BitVec.eq_of_toNat_eq hpq) with hlt | hlt
    · rw [connectionCount_of_lt hinv hd hu hpp hqp hlt, hcount p hp hpp, hcount q hq hqp]
    · rw [connectionCount_comm, connectionCount_of_lt hinv hd hu hqp hpp hlt,
        hcount p hp hpp, hcount q hq hqp]

end MeshQuery

/-- Organization `1` is the dealer and the proxy, `2` a recipient, and `3` owns the data of
vertical `0`. -/
def smallMesh : MeshQuery where
  study := ⟨[⟨1, roleDealer, 0⟩, ⟨2, roleRecipient, 0⟩, ⟨3, roleDataowner, 0⟩], by decide⟩
  verticals := [0]
  proxy := 1

/-- The servers of the small mesh are connected pairwise. -/
theorem mesh_complete_iff_smallMesh :
    ∃ s, Machine.execute smallMesh.step MeshQuery.start
        [.sendQueryToPeers, .readQuery 3, .readQuery 2] = some s ∧ smallMesh.Complete s := by
  refine ⟨⟨true, [], [(1, 2), (1, 3), (2, 3)]⟩, by decide, ?_⟩
  refine (smallMesh.mesh_complete_iff ⟨_, _, rfl, Machine.run_of_execute
    (show Machine.execute smallMesh.step MeshQuery.start
      [.sendQueryToPeers, .readQuery 3, .readQuery 2] = some _ by decide)⟩
    (MeshQuery.stuck_iff.mpr ⟨rfl, rfl⟩)).mpr ?_
  intro peer hpeer _ hne
  have hcases : peer = ⟨1, roleDealer, 0⟩ ∨ peer = ⟨2, roleRecipient, 0⟩ ∨
      peer = ⟨3, roleDataowner, 0⟩ := by
    simpa [smallMesh] using hpeer
  rcases hcases with rfl | rfl | rfl
  · exact absurd rfl hne
  · exact ⟨by decide, fun hlt ↦ absurd hlt (by decide)⟩
  · exact ⟨by decide, fun hlt ↦ absurd hlt (by decide)⟩

/-- Organization `2` is the recipient and owns the data of vertical `0` as well. -/
def overlapMesh : MeshQuery where
  study := ⟨[⟨1, roleDealer, 0⟩, ⟨2, roleRecipient ||| roleDataowner, 0⟩], by decide⟩
  verticals := [0]
  proxy := 1

/-- The proxy dials organization `2` once for each of its roles. -/
theorem overlapMesh_not_complete :
    ¬ ∀ (M : MeshQuery) (s : MeshState), M.mesh.Reachable s → M.mesh.Stuck s → M.Complete s := by
  intro h
  have hc := h overlapMesh ⟨true, [], [(1, 2), (1, 2)]⟩
    ⟨_, _, rfl, Machine.run_of_execute (show Machine.execute overlapMesh.step MeshQuery.start
      [.sendQueryToPeers, .readQuery 2, .readQuery 2] = some _ by decide)⟩
    (MeshQuery.stuck_iff.mpr ⟨rfl, rfl⟩) 1 2 (.inl rfl)
    (.inr ⟨⟨2, roleRecipient ||| roleDataowner, 0⟩, by simp [overlapMesh], rfl, .inl (by decide)⟩)
    (by decide)
  exact absurd hc (by decide)

end Safrn.Net
