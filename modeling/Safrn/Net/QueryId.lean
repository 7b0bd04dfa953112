import Safrn.Base.Machine
import Safrn.Base.OrderedMap
import Safrn.Net.Study

/-!
# The order of query ids and the map of queries

Models `QueryId` of `framework/QueryContext.cpp:20-45` and the map `queries` of
`network/NewConnectionHandler.h:44-50` as `NewConnectionHandler.cpp:294-308` looks up and inserts
and `EventHandler.cpp:77-85` erases. The order compares the three fields one by one and all at
once, so it orders two ids only when all three fields do.
-/

namespace Safrn.Net

open Safrn.Base

/-- `QueryId`. -/
structure QueryId where
  studyId : Dbuid
  analyst : Dbuid
  queryId : BitVec 64
deriving DecidableEq

namespace QueryId

/-- `operator<`. -/
def lt (a b : QueryId) : Bool :=
  a.studyId < b.studyId && a.analyst < b.analyst && a.queryId < b.queryId

/-- `operator>`. -/
def gt (a b : QueryId) : Bool :=
  a.studyId > b.studyId && a.analyst > b.analyst && a.queryId > b.queryId

/-- `operator<=`. -/
def le (a b : QueryId) : Bool := !a.gt b

/-- `operator>=`. -/
def ge (a b : QueryId) : Bool := !a.lt b

/-- `operator==`. -/
def eq (a b : QueryId) : Bool :=
  a.studyId == b.studyId && a.analyst == b.analyst && a.queryId == b.queryId

theorem lt_iff {a b : QueryId} : a.lt b = true ↔
    a.studyId < b.studyId ∧ a.analyst < b.analyst ∧ a.queryId < b.queryId := by
  simp [lt, and_assoc]

theorem gt_eq (a b : QueryId) : a.gt b = b.lt a := rfl

theorem eq_iff {a b : QueryId} : a.eq b = true ↔ a = b := by
  cases a
  cases b
  simp [eq, and_assoc]

theorem lt_irrefl (a : QueryId) : a.lt a = false := by simp [lt]

theorem lt_trans {a b c : QueryId} (hab : a.lt b = true) (hbc : b.lt c = true) :
    a.lt c = true := by
  rw [lt_iff] at *
  exact ⟨BitVec.lt_trans hab.1 hbc.1, BitVec.lt_trans hab.2.1 hbc.2.1,
    BitVec.lt_trans hab.2.2 hbc.2.2⟩

theorem lt_asymm {a b : QueryId} (hab : a.lt b = true) : b.lt a = false := by
  cases hba : b.lt a with
  | false => rfl
  | true => simpa [lt_irrefl] using lt_trans hab hba

/-- Of any two different ids one is smaller in all three fields. -/
def Aligned (S : QueryId → Prop) : Prop :=
  ∀ a b, S a → S b → a ≠ b →
    (a.studyId < b.studyId ∧ a.analyst < b.analyst ∧ a.queryId < b.queryId) ∨
      (b.studyId < a.studyId ∧ b.analyst < a.analyst ∧ b.queryId < a.queryId)

end QueryId

/-- A `QueryHandler`: its `context.queryId`, and the number of handlers created before it. -/
structure QueryHandlerRef where
  queryId : QueryId
  address : Nat
deriving DecidableEq

/-- The map `queries`, and the number of handlers created. -/
structure Queries where
  entries : List (QueryId × QueryHandlerRef)
  created : Nat

namespace Queries

/-- No queries. -/
def start : Queries := ⟨[], 0⟩

/-- `queries[queryId].get()`, where the map contains the id. -/
def handler (s : Queries) (id : QueryId) : Option QueryHandlerRef :=
  OrderedMap.find? QueryId.lt s.entries id

/-- Step 6 of `readConnectionHeaderHandler`: assure that a handler exists for the id. -/
def assure (s : Queries) (id : QueryId) : Queries :=
  if (s.handler id).isSome then s
  else ⟨OrderedMap.insert QueryId.lt s.entries id ⟨id, s.created⟩, s.created + 1⟩

/-- `queries.erase`. -/
def erase (s : Queries) (id : QueryId) : Queries :=
  { s with entries := OrderedMap.erase QueryId.lt s.entries id }

/-- A connection for an id comes in, or a query is erased. -/
inductive Action
  | assure (id : QueryId)
  | erase (id : QueryId)

/-- The id that an action is about. -/
def Action.id : Action → QueryId
  | .assure id => id
  | .erase id => id

/-- The next state. -/
def step (s : Queries) : Action → Queries
  | .assure id => s.assure id
  | .erase id => s.erase id

/-- All sequences of insertions and erasures of some ids. -/
def machine (S : QueryId → Prop) : Machine Queries Action where
  init s := s = start
  step s a t := S a.id ∧ t = s.step a

/-- Every id that finds a handler is the key of that handler, which is its own, and no other id
finds it. -/
structure Distinct (S : QueryId → Prop) (s : Queries) : Prop where
  own : ∀ a, S a → ∀ h, s.handler a = some h → (a, h) ∈ s.entries ∧ h.queryId = a
  unshared : ∀ a b, S a → S b → a ≠ b → ∀ h, s.handler a = some h → s.handler b ≠ some h

/-- The order is a strict total order with `operator==` as its equality, the other relations are
derived from it, and the map keeps the queries apart. -/
structure OrderLaw (S : QueryId → Prop) : Prop where
  trichotomy : ∀ a b, S a → S b →
    (a.lt b = true ∧ a.eq b = false ∧ b.lt a = false) ∨
      (a.lt b = false ∧ a.eq b = true ∧ b.lt a = false) ∨
        (a.lt b = false ∧ a.eq b = false ∧ b.lt a = true)
  trans : ∀ a b c, S a → S b → S c → a.lt b = true → b.lt c = true → a.lt c = true
  derived : ∀ a b, S a → S b →
    a.le b = (a.lt b || a.eq b) ∧ a.gt b = b.lt a ∧ a.ge b = (b.lt a || a.eq b)
  distinct : ∀ s, (machine S).Reachable s → Distinct S s

variable {S : QueryId → Prop}

theorem ordersOn (h : QueryId.Aligned S) : OrderedMap.OrdersOn QueryId.lt S where
  irrefl a _ := QueryId.lt_irrefl a
  trans _ _ _ _ _ _ := QueryId.lt_trans
  total a b ha hb hab := by
    rw [QueryId.lt_iff, QueryId.lt_iff]
    exact h a b ha hb hab

/-- The entries ascend, and each handler is its key's. -/
structure Inv (S : QueryId → Prop) (s : Queries) : Prop where
  wf : OrderedMap.WF QueryId.lt S s.entries
  own : ∀ e ∈ s.entries, e.2.queryId = e.1

theorem inv_start : Inv S start := ⟨OrderedMap.wf_nil, nofun⟩

theorem Inv.assure {s : Queries} {id : QueryId} (hs : QueryId.Aligned S) (h : Inv S s)
    (hid : S id) : Inv S (s.assure id) := by
  unfold Queries.assure
  split
  · exact h
  · next hnone =>
    have hfind : OrderedMap.find? QueryId.lt s.entries id = none := by
      simpa [handler] using hnone
    constructor
    · exact OrderedMap.wf_insert (ordersOn hs) h.wf hid
    · intro e he
      rcases (OrderedMap.mem_insert hfind e).mp he with rfl | he
      · rfl
      · exact h.own e he

theorem Inv.erase {s : Queries} (h : Inv S s) (id : QueryId) : Inv S (s.erase id) :=
  ⟨OrderedMap.wf_erase h.wf id,
    fun e he ↦ h.own e ((OrderedMap.erase_sublist s.entries id).subset he)⟩

theorem Inv.step {s t : Queries} {a : Action} (hs : QueryId.Aligned S) (h : Inv S s)
    (hst : (machine S).step s a t) : Inv S t := by
  obtain ⟨hid, rfl⟩ := hst
  cases a with
  | assure id => exact h.assure hs hid
  | erase id => exact h.erase id

theorem Inv.distinct {s : Queries} (hs : QueryId.Aligned S) (h : Inv S s) : Distinct S s := by
  have hown : ∀ a, S a → ∀ r, s.handler a = some r → (a, r) ∈ s.entries ∧ r.queryId = a := by
    intro a ha r hr
    have hm := (OrderedMap.find?_eq_some_iff (ordersOn hs) h.wf ha).mp hr
    exact ⟨hm, h.own _ hm⟩
  constructor
  · exact hown
  · intro a b ha hb hab r hr hr'
    apply hab
    rw [← (hown a ha r hr).2, ← (hown b hb r hr').2]

/-- The order and the map keep queries apart exactly when of any two different ids in use one is
smaller in all three fields. -/
theorem orderLaw_iff (S : QueryId → Prop) : OrderLaw S ↔ QueryId.Aligned S := by
  constructor
  · intro h a b ha hb hab
    have heq : a.eq b ≠ true := fun he ↦ hab (QueryId.eq_iff.mp he)
    rw [← QueryId.lt_iff, ← QueryId.lt_iff]
    rcases h.trichotomy a b ha hb with ⟨hlt, -, -⟩ | ⟨-, he, -⟩ | ⟨-, -, hgt⟩
    · exact .inl hlt
    · exact absurd he heq
    · exact .inr hgt
  · intro h
    have htri : ∀ a b, S a → S b →
        (a.lt b = true ∧ a.eq b = false ∧ b.lt a = false) ∨
          (a.lt b = false ∧ a.eq b = true ∧ b.lt a = false) ∨
            (a.lt b = false ∧ a.eq b = false ∧ b.lt a = true) := by
      intro a b ha hb
      by_cases hab : a = b
      · subst hab
        simp [QueryId.lt_irrefl, QueryId.eq_iff.mpr]
      · have heq : a.eq b = false := by
          simpa using fun he ↦ hab (QueryId.eq_iff.mp he)
        have hlt := h a b ha hb hab
        rw [← QueryId.lt_iff, ← QueryId.lt_iff] at hlt
        rcases hlt with hlt | hgt
        · simp [hlt, heq, QueryId.lt_asymm hlt]
        · simp [hgt, heq, QueryId.lt_asymm hgt]
    constructor
    · exact htri
    · intro a b c _ _ _
      exact QueryId.lt_trans
    · intro a b ha hb
      rcases htri a b ha hb with ⟨hlt, heq, hgt⟩ | ⟨hlt, heq, hgt⟩ | ⟨hlt, heq, hgt⟩
      all_goals simp [QueryId.le, QueryId.ge, QueryId.gt_eq, hlt, heq, hgt]
    · intro s hs
      have hinv : Inv S s := hs.invariant (fun t ht ↦ ht ▸ inv_start) fun _ _ _ ↦ Inv.step h
      exact hinv.distinct h

/-- Two queries of one analyst are not ordered, and the second is given the handler of the
first. -/
theorem secondQuery_shares :
    let a : QueryId := ⟨1, 1, 1⟩
    let b : QueryId := ⟨1, 1, 2⟩
    a ≠ b ∧ a.lt b = false ∧ b.lt a = false ∧
      ((start.assure a).assure b).handler b = some ⟨a, 0⟩ ∧ ¬ OrderLaw fun _ ↦ True := by
  refine ⟨by decide, by decide, by decide, by decide, ?_⟩
  intro h
  rcases h.trichotomy ⟨1, 1, 1⟩ ⟨1, 1, 2⟩ trivial trivial with hc | hc | hc
  all_goals revert hc; decide

end Queries
end Safrn.Net
