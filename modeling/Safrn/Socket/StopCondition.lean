import Mathlib.Data.Finset.Basic
import Mathlib.Data.Finset.Lattice.Lemmas
import Mathlib.Data.Finset.Union
import Mathlib.Logic.Function.Basic

/-!
# Conditions to stop listening

Models `StopListeningCondition` (`Util/socket.h:965-1200`) with the functions of `Util/socket.cpp`
that evaluate and extend it: `ShouldKeepListening` (`:460-669`) and `SetListenTimeout`
(`:382-410`). The fields of a condition are one function of the counter that each is compared with.
-/

namespace Safrn.Socket

/-- `ListenReturnCode`. -/
inductive ListenReturnCode
  | unknown
  | ok
  | badInitializationError
  | bindError
  | listenError
  | connectError
  | disconnectError
  | selectError
  | serverSocketErrorEvent
  | clientSocketErrorEvent
  | errorEvent
  | receiveError
  | receivedUnexpectedBytes
  | sendError
  | tooManyErrors
  | tooManyConnections
  | cumulativeConnectionsThreshold
  | cumulativeBytesSent
  | cumulativeBytesReceived
  | cumulativeSendTransactions
  | cumulativeReceiveTransactions
  | cumulativeReceiveNullChars
  | noActivity
  | newConnection
  | receive
deriving DecidableEq

/-- `ListenType`. -/
inductive ListenType
  | unknown
  | handleNewConnections
  | handleReceive
  | handleAllEvents
  | useStopCondition
deriving DecidableEq

inductive ConditionOperation
  | none
  | identity
  | not
  | and
  | or
  | xor
deriving DecidableEq

/-- The counters that a leaf can have a threshold for. -/
inductive Counter
  | errors
  | clientErrors
  | serverErrors
  | selectErrors
  | eventErrors
  | sendErrors
  | receiveErrors
  | connectionErrors
  | disconnectErrors
  | msecSinceLastEvent
  | currentConnections
  | distinctConnections
  | sentBytes
  | sentTransactions
  | receivedBytes
  | receivedTransactions
  | receivedNullCharacters
deriving DecidableEq

namespace Counter

/-- The counters in the order in which a leaf is searched for its field. -/
def ladder : List Counter :=
  [errors, clientErrors, serverErrors, selectErrors, eventErrors, sendErrors, receiveErrors,
    connectionErrors, disconnectErrors, msecSinceLastEvent, currentConnections,
    distinctConnections, sentBytes, sentTransactions, receivedBytes, receivedTransactions,
    receivedNullCharacters]

/-- The counters whose threshold is an `unsigned int`. -/
def isError : Counter → Bool
  | errors | clientErrors | serverErrors | selectErrors | eventErrors | sendErrors
  | receiveErrors | connectionErrors | disconnectErrors => true
  | _ => false

/-- The code that a leaf adds. -/
def code : Counter → ListenReturnCode
  | errors => .tooManyErrors
  | clientErrors => .clientSocketErrorEvent
  | serverErrors => .serverSocketErrorEvent
  | selectErrors => .selectError
  | eventErrors => .errorEvent
  | sendErrors => .sendError
  | receiveErrors => .receiveError
  | connectionErrors => .connectError
  | disconnectErrors => .disconnectError
  | msecSinceLastEvent => .noActivity
  | currentConnections => .tooManyConnections
  | distinctConnections => .cumulativeConnectionsThreshold
  | sentBytes => .cumulativeBytesSent
  | sentTransactions => .cumulativeSendTransactions
  | receivedBytes => .cumulativeBytesReceived
  | receivedTransactions => .cumulativeReceiveTransactions
  | receivedNullCharacters => .cumulativeReceiveNullChars

/-- Whether a field has been set: unsigned fields start at zero, the others at minus one. -/
def IsSet (c : Counter) (threshold : ℤ) : Prop :=
  if c.isError ∨ c = msecSinceLastEvent then 0 < threshold else 0 ≤ threshold

instance (c : Counter) (threshold : ℤ) : Decidable (c.IsSet threshold) :=
  inferInstanceAs
    (Decidable (if c.isError ∨ c = msecSinceLastEvent then 0 < threshold else 0 ≤ threshold))

theorem mem_ladder (c : Counter) : c ∈ ladder := by
  cases c <;> decide

end Counter

/-- The counters of `SocketStats` that conditions are about. They only grow from zero between two
resets, except that the number of current connections also goes down. -/
structure SocketStats where
  count : Counter → ℤ
  numPeakConnections : ℤ
  abortListeningWithCode : Finset ListenReturnCode
  nonneg : ∀ c, c ≠ .currentConnections → 0 ≤ count c
  peak_nonneg : 0 ≤ numPeakConnections
  errors_lt : ∀ c, c.isError → count c < 2 ^ 31

/-- The fields of a condition. -/
abbrev Thresholds := Counter → ℤ

/-- A condition or, for a child, a null pointer. -/
inductive StopListeningCondition
  | null
  | node (op : ConditionOperation) (thresholds : Thresholds)
      (left right : StopListeningCondition)

namespace StopListeningCondition

def isNull : StopListeningCondition → Bool
  | null => true
  | node .. => false

end StopListeningCondition

/-- The fields after `Reset`. -/
def resetThresholds (numErrors : ℤ) : Thresholds
  | .errors => numErrors
  | .clientErrors | .serverErrors | .selectErrors | .eventErrors | .sendErrors | .receiveErrors
  | .connectionErrors | .disconnectErrors | .msecSinceLastEvent => 0
  | _ => -1

/-- `StopListeningCondition()`. -/
def defaultStopListeningCondition : StopListeningCondition :=
  .node .identity (resetThresholds 1) .null .null

/-! ### Evaluation -/

section

variable (stats : SocketStats)

/-- The comparison in a leaf: an `int` becomes an `unsigned int` next to one. -/
def exceeds (c : Counter) (threshold : ℤ) : Bool :=
  if c.isError then decide (threshold ≤ stats.count c % 2 ^ 32)
  else decide (threshold ≤ stats.count c) ||
    (decide (c = .currentConnections) && decide (threshold ≤ stats.numPeakConnections))

/-- A leaf: the first field that is set decides. -/
def keepsLeaf (thresholds : Thresholds) (codes : Finset ListenReturnCode) :
    Except String (Bool × Finset ListenReturnCode) :=
  match Counter.ladder.find? fun c => decide (c.IsSet (thresholds c)) with
  | none => .error ("Unable to ShouldKeepListening: All fields of leaf " ++
      "stopping condition have default values.")
  | some c => if exceeds stats c (thresholds c) then .ok (false, insert c.code codes)
      else .ok (true, codes)

/-- `ShouldKeepListening`: whether to go on, and the codes collected; `log_fatal` is an error. -/
def shouldKeepListening : StopListeningCondition → Finset ListenReturnCode →
    Except String (Bool × Finset ListenReturnCode)
  | .null, _ => .error "a reference is never null"
  | .node op thresholds left right, codes =>
    if stats.abortListeningWithCode ≠ ∅ then .ok (false, stats.abortListeningWithCode)
    else if op = .none then .ok (true, codes)
    else if op = .identity then keepsLeaf stats thresholds codes
    else if left.isNull || (decide (op ≠ .not) && right.isNull) then
      .error "Parent StopListeningCondition has null leaf."
    else do
      let (keep, codes) ← shouldKeepListening left codes
      match op with
      | .not => .ok (!keep, codes)
      | .and => if keep then .ok (true, codes) else shouldKeepListening right codes
      | .or => if keep then shouldKeepListening right codes else .ok (false, codes)
      | _ =>
        let (keep', codes) ← shouldKeepListening right codes
        .ok (keep != keep', codes)

end

/-- The listen parameters that conditions are about. -/
structure ListenParams where
  type : Finset ListenType
  stopParams : StopListeningCondition

/-- The condition that is evaluated for the parameters. -/
def ListenParams.condition (params : ListenParams) : StopListeningCondition :=
  if .useStopCondition ∈ params.type then params.stopParams else defaultStopListeningCondition

/-- The fields of a leaf that `SetListenTimeout` makes of an object. -/
def timeoutThresholds (thresholds : Thresholds) (ms : ℕ) : Thresholds :=
  Function.update (Function.update thresholds .msecSinceLastEvent ms) .errors 0

@[simp] theorem timeoutThresholds_errors (thresholds : Thresholds) (ms : ℕ) :
    timeoutThresholds thresholds ms .errors = 0 := rfl

@[simp] theorem timeoutThresholds_msec (thresholds : Thresholds) (ms : ℕ) :
    timeoutThresholds thresholds ms .msecSinceLastEvent = ms := rfl

theorem timeoutThresholds_of_ne {c : Counter} (h : c ≠ .errors) (h' : c ≠ .msecSinceLastEvent)
    (thresholds : Thresholds) (ms : ℕ) : timeoutThresholds thresholds ms c = thresholds c := by
  rw [timeoutThresholds, Function.update_of_ne h, Function.update_of_ne h']

/-- `SetListenTimeout`. -/
def setListenTimeout (params : ListenParams) (ms : ℕ) : ListenParams :=
  if .useStopCondition ∈ params.type then
    { type := params.type
      stopParams :=
        .node .or (resetThresholds 0) params.stopParams
          (.node .identity (timeoutThresholds (resetThresholds 1) ms) .null .null) }
  else
    { type := insert .useStopCondition params.type
      stopParams :=
        match params.stopParams with
        | .null => .null
        | .node _ thresholds left right =>
          .node .identity (timeoutThresholds thresholds ms) left right }

/-! ### Boolean conditions -/

/-- What a condition says: a Boolean expression over thresholds. -/
inductive Condition
  | leaf (c : Counter) (threshold : ℤ)
  | not (a : Condition)
  | and (a b : Condition)
  | or (a b : Condition)
  | xor (a b : Condition)

/-- Whether a counter has reached a threshold, connections at any time. -/
def reached (stats : SocketStats) (c : Counter) (threshold : ℤ) : Bool :=
  decide (threshold ≤ stats.count c) ||
    (decide (c = .currentConnections) && decide (threshold ≤ stats.numPeakConnections))

namespace Condition

section

variable (stats : SocketStats)

def value : Condition → Bool
  | leaf c threshold => reached stats c threshold
  | not a => !a.value
  | and a b => a.value && b.value
  | or a b => a.value || b.value
  | xor a b => a.value != b.value

/-- The value with every exclusive or read as its negation. -/
def evenValue : Condition → Bool
  | leaf c threshold => reached stats c threshold
  | not a => !a.evenValue
  | and a b => a.evenValue && b.evenValue
  | or a b => a.evenValue || b.evenValue
  | xor a b => a.evenValue == b.evenValue

/-- The leaves, each with its threshold. -/
def leaves : Condition → List (Counter × ℤ)
  | leaf c threshold => [(c, threshold)]
  | not a => a.leaves
  | and a b | or a b | xor a b => a.leaves ++ b.leaves

/-- The leaves that are looked at when the second operand is left out where the first decides. -/
def visited : Condition → List (Counter × ℤ)
  | leaf c threshold => [(c, threshold)]
  | not a => a.visited
  | and a b => if a.evenValue stats then a.visited ++ b.visited else a.visited
  | or a b => if a.evenValue stats then a.visited else a.visited ++ b.visited
  | xor a b => a.visited ++ b.visited

end

end Condition

/-- The condition of an object that follows the comment on `StopListeningCondition`: a leaf has
exactly one field set. -/
def StopListeningCondition.read : StopListeningCondition → Option Condition
  | .null => none
  | .node op thresholds left right =>
    match op with
    | .none => none
    | .identity =>
      match Counter.ladder.filter fun c => decide (c.IsSet (thresholds c)) with
      | [c] => some (.leaf c (thresholds c))
      | _ => none
    | .not => left.read.map .not
    | .and => left.read.bind fun a => right.read.map a.and
    | .or => left.read.bind fun a => right.read.map a.or
    | .xor => left.read.bind fun a => right.read.map a.xor

theorem StopListeningCondition.isNull_of_read {cond : StopListeningCondition} {a : Condition}
    (h : cond.read = some a) : cond.isNull = false := by
  cases cond with
  | null => cases h
  | node => rfl

theorem filter_ladder_iff {p : Counter → Bool} {c : Counter} :
    Counter.ladder.filter p = [c] ↔ ∀ c', p c' = true ↔ c' = c := by
  constructor
  · intro h c'
    have hmem : c' ∈ Counter.ladder.filter p ↔ c' = c := by rw [h, List.mem_singleton]
    rw [← hmem, List.mem_filter, and_iff_right (Counter.mem_ladder c')]
  · intro h
    have hp : p = fun c' => decide (c' = c) := by
      funext c'
      rw [Bool.eq_iff_iff, h c', decide_eq_true_iff]
    subst hp
    cases c <;> rfl

theorem read_identity_iff {thresholds : Thresholds} {left right : StopListeningCondition}
    {a : Condition} :
    (StopListeningCondition.node .identity thresholds left right).read = some a ↔
      ∃ c, (∀ c', c'.IsSet (thresholds c') ↔ c' = c) ∧ a = .leaf c (thresholds c) := by
  have hfilter : ∀ c, (∀ c', c'.IsSet (thresholds c') ↔ c' = c) ↔
      Counter.ladder.filter (fun c => decide (c.IsSet (thresholds c))) = [c] := by
    intro c
    simp only [filter_ladder_iff, decide_eq_true_iff]
  simp only [StopListeningCondition.read, hfilter]
  split
  next c hc => simp [hc, eq_comm]
  next hne =>
    constructor
    · intro h
      cases h
    · rintro ⟨c, hc, -⟩
      exact absurd hc (hne c)

section

variable {stats : SocketStats}

theorem exceeds_eq (c : Counter) (threshold : ℤ) :
    exceeds stats c threshold = reached stats c threshold := by
  unfold exceeds reached
  split
  next herror =>
    have hne : c ≠ .currentConnections := by
      rintro rfl
      cases herror
    have hmod : stats.count c % 2 ^ 32 = stats.count c := by
      have h0 := stats.nonneg c hne
      have h1 := stats.errors_lt c herror
      omega
    rw [hmod]
    simp [hne]
  next => rfl

/-- The codes of the leaves that are looked at and have been reached. -/
def Condition.reported (stats : SocketStats) (a : Condition) : Finset ListenReturnCode :=
  (((a.visited stats).filter fun l => reached stats l.1 l.2).map fun l => l.1.code).toFinset

theorem Condition.mem_reported_iff {a : Condition} {code : ListenReturnCode} :
    code ∈ a.reported stats ↔
      ∃ l ∈ a.visited stats, reached stats l.1 l.2 = true ∧ l.1.code = code := by
  simp only [reported, List.mem_toFinset, List.mem_map, List.mem_filter, and_assoc]

theorem keepsLeaf_eq {thresholds : Thresholds} {c : Counter}
    (h : ∀ c', c'.IsSet (thresholds c') ↔ c' = c)
    (codes : Finset ListenReturnCode) :
    keepsLeaf stats thresholds codes = .ok (!reached stats c (thresholds c),
      codes ∪ (Condition.leaf c (thresholds c)).reported stats) := by
  have hfind : Counter.ladder.find? (fun c => decide (c.IsSet (thresholds c))) = some c := by
    rw [← List.head?_filter, filter_ladder_iff.mpr fun c' => decide_eq_true_iff.trans (h c')]
    rfl
  simp only [keepsLeaf, hfind, exceeds_eq, Condition.reported, Condition.visited]
  cases hr : reached stats c (thresholds c) with
  | false => simp [hr]
  | true =>
    simp only [List.filter_cons, hr, if_true, List.filter_nil, List.map_cons, List.map_nil,
      List.toFinset_cons, List.toFinset_nil, Bool.not_true]
    rw [Finset.union_insert, Finset.union_empty]

/-- The evaluation of a condition: an exclusive or counts as its negation, and every leaf that is
looked at and has been reached leaves its code. -/
theorem shouldKeepListening_eq (habort : stats.abortListeningWithCode = ∅)
    {cond : StopListeningCondition} {a : Condition} (h : cond.read = some a)
    (codes : Finset ListenReturnCode) :
    shouldKeepListening stats cond codes =
      .ok (!a.evenValue stats, codes ∪ a.reported stats) := by
  induction cond generalizing a codes with
  | null => cases h
  | node op thresholds left right ihl ihr =>
    cases op with
    | none => cases h
    | identity =>
      obtain ⟨c, hc, rfl⟩ := read_identity_iff.mp h
      simp only [shouldKeepListening, habort, keepsLeaf_eq hc]
      rfl
    | not =>
      obtain ⟨a, ha, rfl⟩ := Option.map_eq_some_iff.mp h
      have hnull := StopListeningCondition.isNull_of_read ha
      simp [shouldKeepListening, habort, hnull, ihl ha, bind, Except.bind,
        Condition.evenValue, Condition.reported, Condition.visited]
    | and =>
      obtain ⟨a, ha, hab⟩ := Option.bind_eq_some_iff.mp h
      obtain ⟨b, hb, rfl⟩ := Option.map_eq_some_iff.mp hab
      have hnull := StopListeningCondition.isNull_of_read ha
      have hnull' := StopListeningCondition.isNull_of_read hb
      cases hv : a.evenValue stats <;>
        simp [shouldKeepListening, habort, hnull, hnull', ihl ha, ihr hb, bind, Except.bind,
          Condition.evenValue, Condition.reported, Condition.visited, hv]
    | or =>
      obtain ⟨a, ha, hab⟩ := Option.bind_eq_some_iff.mp h
      obtain ⟨b, hb, rfl⟩ := Option.map_eq_some_iff.mp hab
      have hnull := StopListeningCondition.isNull_of_read ha
      have hnull' := StopListeningCondition.isNull_of_read hb
      cases hv : a.evenValue stats <;>
        simp [shouldKeepListening, habort, hnull, hnull', ihl ha, ihr hb, bind, Except.bind,
          Condition.evenValue, Condition.reported, Condition.visited, hv]
    | xor =>
      obtain ⟨a, ha, hab⟩ := Option.bind_eq_some_iff.mp h
      obtain ⟨b, hb, rfl⟩ := Option.map_eq_some_iff.mp hab
      have hnull := StopListeningCondition.isNull_of_read ha
      have hnull' := StopListeningCondition.isNull_of_read hb
      simp [shouldKeepListening, habort, hnull, hnull', ihl ha, ihr hb, bind, Except.bind,
        Condition.evenValue, Condition.reported, Condition.visited]
      cases a.evenValue stats <;> cases b.evenValue stats <;> rfl

theorem Condition.visited_subset (a : Condition) : a.visited stats ⊆ a.leaves := by
  induction a with
  | leaf c threshold => exact List.Subset.refl _
  | not a ih => exact ih
  | and a b iha ihb =>
    simp only [visited, leaves]
    split
    · exact List.append_subset.mpr
        ⟨List.subset_append_of_subset_left _ iha, List.subset_append_of_subset_right _ ihb⟩
    · exact List.subset_append_of_subset_left _ iha
  | or a b iha ihb =>
    simp only [visited, leaves]
    split
    · exact List.subset_append_of_subset_left _ iha
    · exact List.append_subset.mpr
        ⟨List.subset_append_of_subset_left _ iha, List.subset_append_of_subset_right _ ihb⟩
  | xor a b iha ihb =>
    exact List.append_subset.mpr
      ⟨List.subset_append_of_subset_left _ iha, List.subset_append_of_subset_right _ ihb⟩

/-- The evaluation of `cond`, which says `a`, is right: listening ends when `a` holds, `codes` are
kept while it does not, and at the end there are new ones, all of leaves that have been reached. -/
def Decides (stats : SocketStats) (cond : StopListeningCondition) (a : Condition)
    (codes : Finset ListenReturnCode) : Prop :=
  ∃ keep codes', shouldKeepListening stats cond codes = .ok (keep, codes') ∧
    (keep = false ↔ a.value stats = true) ∧
    (keep = true → codes' = codes) ∧
    (keep = false → codes ⊂ codes' ∧ ∀ code ∈ codes', code ∉ codes →
      ∃ l ∈ a.leaves, reached stats l.1 l.2 = true ∧ l.1.code = code)

/-- Exclusive ors do not matter for the value, and it holds if and only if some leaf that is looked
at has been reached with a new code. -/
def Condition.Plain (stats : SocketStats) (a : Condition)
    (codes : Finset ListenReturnCode) : Prop :=
  a.evenValue stats = a.value stats ∧
    (a.value stats = true ↔
      ∃ l ∈ a.visited stats, reached stats l.1 l.2 = true ∧ l.1.code ∉ codes)

theorem Condition.reported_subset_iff {a : Condition} {codes : Finset ListenReturnCode} :
    a.reported stats ⊆ codes ↔
      ¬∃ l ∈ a.visited stats, reached stats l.1 l.2 = true ∧ l.1.code ∉ codes := by
  constructor
  · rintro h ⟨l, hl, hr, hc⟩
    exact hc (h (mem_reported_iff.mpr ⟨l, hl, hr, rfl⟩))
  · intro h code hcode
    obtain ⟨l, hl, hr, rfl⟩ := mem_reported_iff.mp hcode
    by_contra hc
    exact h ⟨l, hl, hr, hc⟩

theorem decides_iff (habort : stats.abortListeningWithCode = ∅) {cond : StopListeningCondition}
    {a : Condition} (h : cond.read = some a) (codes : Finset ListenReturnCode) :
    Decides stats cond a codes ↔ a.Plain stats codes := by
  have hrun := shouldKeepListening_eq habort h codes
  have honly : ∀ code ∈ codes ∪ a.reported stats, code ∉ codes →
      ∃ l ∈ a.leaves, reached stats l.1 l.2 = true ∧ l.1.code = code := by
    intro code hcode hnot
    obtain ⟨l, hl, hr⟩ := Condition.mem_reported_iff.mp
      ((Finset.mem_union.mp hcode).resolve_left hnot)
    exact ⟨l, a.visited_subset hl, hr⟩
  have hsame : codes ∪ a.reported stats = codes ↔ a.reported stats ⊆ codes :=
    Finset.union_eq_left
  have hstrict : codes ⊂ codes ∪ a.reported stats ↔ ¬a.reported stats ⊆ codes := by
    rw [Finset.ssubset_iff_subset_ne, ← hsame, ne_comm]
    exact and_iff_right Finset.subset_union_left
  have hnew : a.reported stats ⊆ codes ↔ _ := Condition.reported_subset_iff
  unfold Decides Condition.Plain
  constructor
  · rintro ⟨keep, codes', hok, hvalue, hkeep, hstop⟩
    obtain ⟨rfl, rfl⟩ := Prod.mk.inj (Except.ok.inj (hrun.symm.trans hok))
    have heq : a.evenValue stats = a.value stats := by
      cases hv : a.evenValue stats <;> cases hw : a.value stats <;> simp_all
    refine ⟨heq, fun hv => ?_, fun hex => ?_⟩
    · by_contra hnone
      exact hstrict.mp (hstop (by simp [heq, hv])).1 (hnew.mpr hnone)
    · by_contra hv
      exact hnew.mp (hsame.mp (hkeep (by simpa [heq] using hv))) hex
  · rintro ⟨heq, hiff⟩
    refine ⟨_, _, hrun, by simp [heq], fun hkeep => ?_, fun hstop => ⟨?_, honly⟩⟩
    · exact hsame.mpr (hnew.mpr fun hex => by simp [heq, hiff.mpr hex] at hkeep)
    · exact hstrict.mpr fun hsub => hnew.mp hsub (hiff.mp (by simpa [heq] using hstop))

end

/-! ### The timeout -/

/-- The new parameters stop where the old condition, which says `a`, does and after `ms`
milliseconds without an event. -/
def JoinsTimeout (params : ListenParams) (a : Condition) (ms : ℕ) : Prop :=
  ∃ b, (setListenTimeout params ms).condition.read = some b ∧
    ∀ stats : SocketStats,
      b.value stats = (a.value stats || decide ((ms : ℤ) ≤ stats.count .msecSinceLastEvent))

/-- The one field that is set where the condition has not been in use, without those that
`SetListenTimeout` writes. -/
def ListenParams.leftOver (params : ListenParams) (c : Counter) : Prop :=
  match params.stopParams with
  | .null => False
  | .node _ thresholds _ _ =>
    c ≠ .errors ∧ c ≠ .msecSinceLastEvent ∧ thresholds c = 0 ∧
      ∀ c', c' ≠ .errors → c' ≠ .msecSinceLastEvent → (c'.IsSet (thresholds c') ↔ c' = c)

/-- A record with one counter. -/
def SocketStats.single (c : Counter) (n : Fin 2) : SocketStats where
  count c' := if c' = c then n else 0
  numPeakConnections := 0
  abortListeningWithCode := ∅
  nonneg c' _ := by split <;> simp
  peak_nonneg := le_rfl
  errors_lt c' _ := by split <;> omega

theorem reached_zero (stats : SocketStats) (c : Counter) : reached stats c 0 = true := by
  by_cases hc : c = .currentConnections
  · simp [reached, hc, stats.peak_nonneg]
  · simp [reached, stats.nonneg c hc]

theorem read_default :
    defaultStopListeningCondition.read = some (.leaf .errors 1) := by
  refine read_identity_iff.mpr ⟨.errors, fun c' => ?_, rfl⟩
  cases c' <;> decide

/-- The right operand that `SetListenTimeout` adds. -/
theorem read_timeout_iff {ms : ℕ} {b : Condition} :
    (StopListeningCondition.node .identity
      (timeoutThresholds (resetThresholds 1) ms) .null .null).read = some b ↔
      0 < ms ∧ b = .leaf .msecSinceLastEvent ms := by
  rw [read_identity_iff]
  constructor
  · rintro ⟨c, hset, rfl⟩
    have hms := (hset c).mpr rfl
    cases c <;> simp [Counter.IsSet, Counter.isError, timeoutThresholds, resetThresholds] at hms ⊢
    exact hms
  · rintro ⟨hms, rfl⟩
    refine ⟨.msecSinceLastEvent, fun c' => ?_, by simp⟩
    cases c' <;> simp [Counter.IsSet, Counter.isError, timeoutThresholds, resetThresholds, hms]

theorem joinsTimeout_used_iff {params : ListenParams} {a : Condition} {ms : ℕ}
    (huse : .useStopCondition ∈ params.type) (ha : params.condition.read = some a) :
    JoinsTimeout params a ms ↔ 0 < ms := by
  have hold : params.stopParams.read = some a := by
    rwa [ListenParams.condition, if_pos huse] at ha
  have hnew : (setListenTimeout params ms).condition.read =
      ((StopListeningCondition.node .identity
        (timeoutThresholds (resetThresholds 1) ms) .null .null).read).map a.or := by
    simp only [setListenTimeout, huse, if_true, ListenParams.condition]
    change params.stopParams.read.bind _ = _
    rw [hold]
    rfl
  unfold JoinsTimeout
  rw [hnew]
  constructor
  · rintro ⟨b, hb, -⟩
    obtain ⟨b, hb, -⟩ := Option.map_eq_some_iff.mp hb
    exact (read_timeout_iff.mp hb).1
  · intro hms
    refine ⟨_, Option.map_eq_some_iff.mpr ⟨_, read_timeout_iff.mpr ⟨hms, rfl⟩, rfl⟩, ?_⟩
    intro stats
    simp [Condition.value, reached]

theorem joinsTimeout_unused_iff {params : ListenParams} {a : Condition} {ms : ℕ}
    (huse : .useStopCondition ∉ params.type) (ha : params.condition.read = some a) :
    JoinsTimeout params a ms ↔ ms = 0 ∧ ∃ c, params.leftOver c := by
  obtain ⟨type, stopParams⟩ := params
  have ha : a = .leaf .errors 1 := by
    rw [ListenParams.condition, if_neg huse, read_default] at ha
    exact (Option.some.inj ha).symm
  subst ha
  cases stopParams with
  | null =>
    simp [JoinsTimeout, setListenTimeout, ListenParams.condition, huse, ListenParams.leftOver,
      StopListeningCondition.read]
  | node op thresholds left right =>
    simp only [JoinsTimeout, setListenTimeout, huse, if_false, ListenParams.condition,
      Finset.mem_insert_self, if_true, read_identity_iff, ListenParams.leftOver]
    constructor
    · rintro ⟨b, ⟨c, hset, rfl⟩, hvalue⟩
      have hms : ms = 0 := by
        by_contra hms
        have hc : c = .msecSinceLastEvent := by
          refine ((hset .msecSinceLastEvent).mp ?_).symm
          simp [Counter.IsSet, Nat.pos_of_ne_zero hms]
        subst hc
        have hone := hvalue (.single .errors 1)
        simp [Condition.value, reached, SocketStats.single] at hone
        omega
      subst hms
      have hzero := hvalue (.single .errors 0)
      have hle := (hset c).mpr rfl
      have hne : c ≠ .errors := by
        rintro rfl
        simp [Counter.IsSet, Counter.isError] at hle
      have hne' : c ≠ .msecSinceLastEvent := by
        rintro rfl
        simp [Counter.IsSet, Counter.isError] at hle
      refine ⟨rfl, c, hne, hne', ?_, fun c' h h' => ?_⟩
      · simp [Condition.value, reached, SocketStats.single] at hzero
        simp only [timeoutThresholds_of_ne hne hne', Counter.IsSet] at hle hzero
        split at hle <;> omega
      · simpa [timeoutThresholds_of_ne h h'] using hset c'
    · rintro ⟨rfl, c, hne, hne', hzero, hset⟩
      refine ⟨_, ⟨c, fun c' => ?_, rfl⟩, fun stats => ?_⟩
      · by_cases h : c' = .errors
        · subst h
          simp [Counter.IsSet, Counter.isError, hne.symm]
        · by_cases h' : c' = .msecSinceLastEvent
          · subst h'
            simp [Counter.IsSet, Counter.isError, hne'.symm]
          · simpa [timeoutThresholds_of_ne h h'] using hset c' h h'
      · have hmsec := stats.nonneg .msecSinceLastEvent (by decide)
        simp [Condition.value, timeoutThresholds_of_ne hne hne', hzero, reached_zero, hmsec]

theorem joinsTimeout_iff {params : ListenParams} {a : Condition}
    (ha : params.condition.read = some a) (ms : ℕ) :
    JoinsTimeout params a ms ↔
      (.useStopCondition ∈ params.type ∧ 0 < ms) ∨
        (.useStopCondition ∉ params.type ∧ ms = 0 ∧ ∃ c, params.leftOver c) := by
  by_cases huse : .useStopCondition ∈ params.type
  · simp [joinsTimeout_used_iff huse ha, huse]
  · simp [joinsTimeout_unused_iff huse ha, huse]

/-- A condition is evaluated rightly if and only if its exclusive ors do not matter and what is
reported of the leaves that are looked at agrees with its value; a timeout is added to a condition
in use. -/
theorem stop_conditions_iff {stats : SocketStats} (habort : stats.abortListeningWithCode = ∅)
    {cond : StopListeningCondition} {a : Condition} (hcond : cond.read = some a)
    (codes : Finset ListenReturnCode) {params : ListenParams} {old : Condition}
    (hold : params.condition.read = some old) (ms : ℕ) :
    (Decides stats cond a codes ↔ a.Plain stats codes) ∧
      (JoinsTimeout params old ms ↔
        (.useStopCondition ∈ params.type ∧ 0 < ms) ∨
          (.useStopCondition ∉ params.type ∧ ms = 0 ∧ ∃ c, params.leftOver c)) :=
  ⟨decides_iff habort hcond codes, joinsTimeout_iff hold ms⟩

theorem stop_conditions_iff_default :
    Decides (.single .errors 1) defaultStopListeningCondition (.leaf .errors 1) ∅ ∧
      JoinsTimeout ⟨{.useStopCondition}, defaultStopListeningCondition⟩ (.leaf .errors 1) 5 := by
  have hparams : (⟨{.useStopCondition}, defaultStopListeningCondition⟩ :
      ListenParams).condition.read = some (.leaf .errors 1) := by
    rw [ListenParams.condition, if_pos (Finset.mem_singleton_self _)]
    exact read_default
  obtain ⟨hdecides, hjoins⟩ :=
    @stop_conditions_iff (.single .errors 1) rfl _ _ read_default ∅ _ _ hparams 5
  refine ⟨hdecides.mpr ⟨rfl, ?_⟩, hjoins.mpr (.inl ⟨by simp, by decide⟩)⟩
  simp [Condition.value, Condition.visited, reached, SocketStats.single]

/-- One of two exclusive errors. -/
def exclusiveErrors : StopListeningCondition :=
  .node .xor (resetThresholds 0) defaultStopListeningCondition
    (.node .identity (Function.update (resetThresholds 0) .serverErrors 1) .null .null)

/-- With one error on the client side, one of two exclusive errors has been seen, but listening
goes on. -/
theorem not_decides_exclusive :
    exclusiveErrors.read = some (.xor (.leaf .errors 1) (.leaf .serverErrors 1)) ∧
      ¬Decides (.single .errors 1) exclusiveErrors
        (.xor (.leaf .errors 1) (.leaf .serverErrors 1)) ∅ := by
  have hread : exclusiveErrors.read = some (.xor (.leaf .errors 1) (.leaf .serverErrors 1)) := rfl
  refine ⟨hread, fun hdecides => ?_⟩
  obtain ⟨heven, -⟩ := (decides_iff rfl hread ∅).mp hdecides
  exact absurd heven (by decide)

end Safrn.Socket
