import Mathlib.Data.Finset.Basic
import Mathlib.Data.List.Nodup

/-!
# The list of connections

Models how `Socket` keeps its list of connections (`Util/socket.cpp`): `HandleSelectEvents`
(`:2129-2202`) with `HandleGeneralSocketError` (`:2809-2819`), and the functions that open and close
connections (`RemoveConnection`, `ShutdownConnection` and `ShutdownAllConnections`, `:772-841`,
`CloseServerSocket`, `:924-986`, `HandleNewConnection` and `OpenNewConnection`, `:2029-2127`). What
the operating system answers is given for each connection: identifiers of open sockets differ, and
none is received from or shut down twice.
-/

namespace Safrn.Socket

/-- The fields of `SocketStats` that are counted here. -/
structure ConnectionStats where
  numErrorsSeen : ℕ
  numEventErrors : ℕ
  numReceiveErrors : ℕ
  numConnectionErrors : ℕ
  numDisconnectErrors : ℕ
  numDistinctConnectionsSeen : ℕ
  numCurrentConnections : ℤ
  numPeakConnections : ℤ

/-- `ShutdownConnection`, given whether the socket can be shut down. -/
def shutdownConnection (closes : Bool) (stats : ConnectionStats) : Bool × ConnectionStats :=
  if closes then
    (true, { stats with numCurrentConnections := stats.numCurrentConnections - 1 })
  else
    (false, { stats with
      numErrorsSeen := stats.numErrorsSeen + 1
      numDisconnectErrors := stats.numDisconnectErrors + 1 })

/-! ### The events of `select` -/

/-- What `HandleSelectEvents` reads and writes besides the list. The connections that the iterator
has pointed to and those that `ReceiveData` has been called for are recorded. -/
structure Selected (α : Type) where
  readSockets : Finset α
  errorSockets : Finset α
  stats : ConnectionStats
  result : Bool
  visited : List α
  received : List α

section

variable {α : Type} [DecidableEq α] (receiveData closes : α → Bool)

/-- What one round of the loop does to the list and the iterator. -/
inductive Move
  /-- The iterator goes on to the next connection. -/
  | next
  /-- The connection is erased, which leaves the iterator at the next one. -/
  | erased
  /-- The connection is erased, and then the iterator goes on. -/
  | erasedNext
deriving DecidableEq

/-- One round of the loop, for the connection that the iterator points to. -/
def handleConnection (c : α) (s : Selected α) : Move × Selected α :=
  let s := { s with visited := s.visited ++ [c] }
  if c ∈ s.errorSockets then
    let (closed, stats) := shutdownConnection (closes c)
      { s.stats with numErrorsSeen := s.stats.numErrorsSeen + 1 }
    let s := { s with errorSockets := s.errorSockets.erase c, stats := stats }
    if closed then (.erasedNext, s)
    else
      (.erased, { s with
        stats := { s.stats with numEventErrors := s.stats.numEventErrors + 1 }
        result := false })
  else if c ∉ s.readSockets then (.next, s)
  else
    let s := { s with
      readSockets := s.readSockets.erase c
      received := s.received ++ [c] }
    if receiveData c then (.next, s)
    else
      let stats := (shutdownConnection (closes c) s.stats).2
      (.erased, { s with
        stats := { stats with
          numErrorsSeen := stats.numErrorsSeen + 1
          numReceiveErrors := stats.numReceiveErrors + 1 }
        result := false })

/-- The loop of `HandleSelectEvents`. The iterator points to the first connection of the second
list, in front of it are those of the first; `none` when it is moved past the end. -/
def selectLoop : List α → List α → Selected α → Option (List α × Selected α)
  | kept, [], s => some (kept, s)
  | kept, c :: rest, s =>
    match handleConnection receiveData closes c s with
    | (.next, s) => selectLoop (kept ++ [c]) rest s
    | (.erased, s) => selectLoop kept rest s
    | (.erasedNext, s) =>
      match rest with
      | [] => none
      | next :: rest => selectLoop (kept ++ [next]) rest s

/-- `HandleSelectEvents`. -/
def handleSelectEvents (connections : List α) (readSockets errorSockets : Finset α)
    (stats : ConnectionStats) : Option (List α × Selected α) :=
  selectLoop receiveData closes [] connections
    { readSockets := readSockets
      errorSockets := errorSockets
      stats := stats
      result := true
      visited := []
      received := [] }

/-- Every connection is visited once; those with an error go, those that can be read from are
received from and stay if that succeeds, the others stay. -/
def EachHandled (connections : List α) (readSockets errorSockets : Finset α)
    (stats : ConnectionStats) : Prop :=
  ∃ s, handleSelectEvents receiveData closes connections readSockets errorSockets stats =
      some (connections.filter fun c =>
        decide (c ∉ errorSockets ∧ (c ∈ readSockets → receiveData c = true)), s) ∧
    s.visited = connections ∧
    s.received = connections.filter fun c => decide (c ∉ errorSockets ∧ c ∈ readSockets)

/-- The round for a connection, given which sets it is in. -/
structure Round (c : α) (s : Selected α) (move : Move) (s' : Selected α) : Prop where
  visited : s'.visited = s.visited ++ [c]
  received : s'.received =
    s.received ++ if c ∉ s.errorSockets ∧ c ∈ s.readSockets then [c] else []
  sets : ∀ d, d ≠ c → (d ∈ s'.errorSockets ↔ d ∈ s.errorSockets) ∧
    (d ∈ s'.readSockets ↔ d ∈ s.readSockets)
  next_iff : move = .next ↔ c ∉ s.errorSockets ∧ (c ∈ s.readSockets → receiveData c = true)
  erasedNext_iff : move = .erasedNext ↔ c ∈ s.errorSockets ∧ closes c = true

variable {receiveData closes}

theorem round_handleConnection (c : α) (s : Selected α) :
    Round receiveData closes c s (handleConnection receiveData closes c s).1
      (handleConnection receiveData closes c s).2 := by
  by_cases herror : c ∈ s.errorSockets
  · cases hcloses : closes c <;> constructor <;>
      simp +contextual [handleConnection, shutdownConnection, herror, hcloses]
  · by_cases hread : c ∈ s.readSockets
    · cases hreceives : receiveData c <;> constructor <;>
        simp +contextual [handleConnection, herror, hread, hreceives]
    · constructor <;> simp [handleConnection, herror, hread]

/-- When no connection with an error can be shut down, none is skipped. The two sets are those at
the start: of what the loop has erased nothing comes up again. -/
theorem selectLoop_eq {readSockets errorSockets : Finset α} {rest : List α}
    (hnodup : rest.Nodup) {s : Selected α}
    (hsets : ∀ c ∈ rest, (c ∈ s.errorSockets ↔ c ∈ errorSockets) ∧
      (c ∈ s.readSockets ↔ c ∈ readSockets))
    (hopen : ∀ c ∈ rest, c ∈ errorSockets → closes c = false) (kept : List α) :
    ∃ t, selectLoop receiveData closes kept rest s =
        some (kept ++ rest.filter fun c =>
          decide (c ∉ errorSockets ∧ (c ∈ readSockets → receiveData c = true)), t) ∧
      t.visited = s.visited ++ rest ∧
      t.received = s.received ++
        rest.filter fun c => decide (c ∉ errorSockets ∧ c ∈ readSockets) := by
  induction rest generalizing kept s with
  | nil => exact ⟨s, by simp [selectLoop]⟩
  | cons c rest ih =>
    obtain ⟨hc, hnodup⟩ := List.nodup_cons.mp hnodup
    obtain ⟨herror_iff, hread_iff⟩ := hsets c List.mem_cons_self
    have hround := @round_handleConnection α _ receiveData closes c s
    rw [selectLoop]
    generalize handleConnection receiveData closes c s = result at hround
    obtain ⟨move, s'⟩ := result
    obtain ⟨hvisited, hreceived, hothers, hnext, hskip⟩ := hround
    simp only [herror_iff, hread_iff] at hvisited hreceived hnext hskip
    have hsets' : ∀ d ∈ rest, (d ∈ s'.errorSockets ↔ d ∈ errorSockets) ∧
        (d ∈ s'.readSockets ↔ d ∈ readSockets) := by
      intro d hd
      obtain ⟨he, hr⟩ := hothers d fun hdc => hc (hdc ▸ hd)
      obtain ⟨he', hr'⟩ := hsets d (List.mem_cons_of_mem c hd)
      exact ⟨he.trans he', hr.trans hr'⟩
    have hopen' : ∀ d ∈ rest, d ∈ errorSockets → closes d = false :=
      fun d hd => hopen d (List.mem_cons_of_mem c hd)
    have hloop : ∀ kept', ∃ t, selectLoop receiveData closes kept' rest s' =
          some (kept' ++ rest.filter fun c =>
            decide (c ∉ errorSockets ∧ (c ∈ readSockets → receiveData c = true)), t) ∧
        t.visited = s.visited ++ c :: rest ∧
        t.received = s.received ++
          (c :: rest).filter fun c => decide (c ∉ errorSockets ∧ c ∈ readSockets) := by
      intro kept'
      obtain ⟨t, ht, htv, htr⟩ := ih hnodup hsets' hopen' kept'
      refine ⟨t, ht, by simp [htv, hvisited], ?_⟩
      rw [htr, hreceived, List.filter_cons]
      split <;> simp_all
    cases move with
    | next =>
      obtain ⟨t, ht, hrest⟩ := hloop (kept ++ [c])
      have hkeeps := hnext.mp rfl
      rw [List.filter_cons, if_pos (decide_eq_true hkeeps)]
      exact ⟨t, by simpa using ht, hrest⟩
    | erased =>
      obtain ⟨t, ht, hrest⟩ := hloop kept
      have hgoes := mt hnext.mpr (by decide)
      rw [List.filter_cons, if_neg (mt of_decide_eq_true hgoes)]
      exact ⟨t, ht, hrest⟩
    | erasedNext =>
      obtain ⟨herror, hclosed⟩ := hskip.mp rfl
      rw [hopen c List.mem_cons_self herror] at hclosed
      cases hclosed

theorem Round.length {c : α} {s : Selected α} {move : Move} {s' : Selected α}
    (h : Round receiveData closes c s move s') : s'.visited.length = s.visited.length + 1 := by
  rw [h.visited, List.length_append, List.length_singleton]

theorem Round.error_of_cons {c : α} {s : Selected α} {move : Move} {s' : Selected α}
    (h : Round receiveData closes c s move s') (hmove : move ≠ .erasedNext) {rest : List α}
    (hc : c ∉ rest) (herror : ∃ d ∈ c :: rest, d ∈ s.errorSockets ∧ closes d = true) :
    ∃ d ∈ rest, d ∈ s'.errorSockets ∧ closes d = true := by
  obtain ⟨d, hd, hde, hdc⟩ := herror
  obtain rfl | hd := List.mem_cons.mp hd
  · exact absurd (h.erasedNext_iff.mpr ⟨hde, hdc⟩) hmove
  · exact ⟨d, hd, (h.sets d fun hdc' => hc (hdc' ▸ hd)).1.mpr hde, hdc⟩

theorem Round.count {c : α} {s : Selected α} {move : Move} {s' : Selected α}
    (h : Round receiveData closes c s move s') (hmove : move ≠ .erasedNext) {rest : List α}
    (hc : c ∉ rest) {n : ℕ}
    (hrest : n ≤ s'.visited.length + rest.length ∧
      ((∃ d ∈ rest, d ∈ s'.errorSockets ∧ closes d = true) →
        n < s'.visited.length + rest.length)) :
    n ≤ s.visited.length + (c :: rest).length ∧
      ((∃ d ∈ c :: rest, d ∈ s.errorSockets ∧ closes d = true) →
        n < s.visited.length + (c :: rest).length) := by
  obtain ⟨hle, hlt⟩ := hrest
  have hlength := h.length
  rw [List.length_cons]
  constructor
  · omega
  · intro herror
    have := hlt (h.error_of_cons hmove hc herror)
    omega

/-- No connection is visited twice, and one is left out when one with an error is shut down. -/
theorem length_visited {kept rest : List α} (hnodup : rest.Nodup) {s : Selected α}
    {connections : List α} {t : Selected α}
    (h : selectLoop receiveData closes kept rest s = some (connections, t)) :
    t.visited.length ≤ s.visited.length + rest.length ∧
      ((∃ c ∈ rest, c ∈ s.errorSockets ∧ closes c = true) →
        t.visited.length < s.visited.length + rest.length) := by
  fun_induction selectLoop receiveData closes kept rest s with
  | case1 kept s =>
    obtain ⟨-, rfl⟩ := Prod.mk.inj (Option.some.inj h)
    simp
  | case2 kept c rest s s' hmove ih =>
    have hround := @round_handleConnection α _ receiveData closes c s
    rw [hmove] at hround
    obtain ⟨hc, hnodup⟩ := List.nodup_cons.mp hnodup
    exact hround.count nofun hc (ih hnodup h)
  | case3 kept c rest s s' hmove ih =>
    have hround := @round_handleConnection α _ receiveData closes c s
    rw [hmove] at hround
    obtain ⟨hc, hnodup⟩ := List.nodup_cons.mp hnodup
    exact hround.count nofun hc (ih hnodup h)
  | case4 => cases h
  | case5 kept c s s' hmove next rest ih =>
    -- the next connection is not visited
    have hround := @round_handleConnection α _ receiveData closes c s
    rw [hmove] at hround
    obtain ⟨hle, -⟩ := ih (List.nodup_cons.mp (List.nodup_cons.mp hnodup).2).2 h
    have hlength : s'.visited.length = s.visited.length + 1 := hround.length
    simp only [List.length_cons]
    exact ⟨by omega, fun _ => by omega⟩

theorem eachHandled_iff {connections : List α} (hnodup : connections.Nodup)
    (readSockets errorSockets : Finset α) (stats : ConnectionStats) :
    EachHandled receiveData closes connections readSockets errorSockets stats ↔
      ∀ c ∈ connections, c ∈ errorSockets → closes c = false := by
  constructor
  · rintro ⟨t, ht, hvisited, -⟩ c hc herror
    by_contra hcloses
    have hlt := (length_visited hnodup ht).2 ⟨c, hc, herror, by simpa using hcloses⟩
    simp [hvisited] at hlt
  · intro hopen
    obtain ⟨t, ht, hvisited, hreceived⟩ :=
      @selectLoop_eq α _ receiveData closes readSockets errorSockets connections hnodup
        ⟨readSockets, errorSockets, stats, true, [], []⟩ (fun c _ => ⟨Iff.rfl, Iff.rfl⟩) hopen []
    exact ⟨t, by simpa [handleSelectEvents] using ht, by simpa using hvisited,
      by simpa using hreceived⟩

end

/-! ### The number of connections -/

/-- A server with its connections. -/
structure Server (α : Type) where
  connections : List α
  stats : ConnectionStats

namespace Server

variable {α : Type} [DecidableEq α]

/-- What happens to the connections of a server. The arguments say what the operating system and
the caller's function answer. -/
inductive Event (α : Type)
  /-- `HandleNewConnection` by the function that the caller has provided. -/
  | provided (succeeds : Bool)
  /-- `HandleNewConnection` by `OpenNewConnection`. -/
  | opened (connection : Option α)
  /-- `RemoveConnection`. -/
  | removed (connection : α) (closes : Bool)
  /-- `CloseServerSocket`; `unclosed` are the connections that cannot be shut down. -/
  | closed (unclosed : α → Bool) (closes : Bool)

/-- A connection has been accepted: the statistics of `HandleNewConnection`. -/
def accepted (stats : ConnectionStats) : ConnectionStats :=
  { stats with
    numDistinctConnectionsSeen := stats.numDistinctConnectionsSeen + 1
    numCurrentConnections := stats.numCurrentConnections + 1
    numPeakConnections := max stats.numPeakConnections (stats.numCurrentConnections + 1) }

/-- A connection has not been accepted. -/
def refused (stats : ConnectionStats) : ConnectionStats :=
  { stats with
    numErrorsSeen := stats.numErrorsSeen + 1
    numConnectionErrors := stats.numConnectionErrors + 1 }

/-- `HandleNewConnection` where the socket has to handle it. -/
def handleNewConnection (provided : Option Bool) (opened : Option α) (s : Server α) : Server α :=
  match provided, opened with
  | some true, _ => { s with stats := accepted s.stats }
  | some false, _ => { s with stats := refused s.stats }
  | none, some c => { connections := s.connections ++ [c], stats := accepted s.stats }
  | none, none => { s with stats := refused s.stats }

/-- `RemoveConnection`. -/
def removeConnection (c : α) (closes : Bool) (s : Server α) : Server α :=
  { connections := s.connections.erase c
    stats := (shutdownConnection closes s.stats).2 }

/-- `ShutdownAllConnections`: whether every connection could be shut down. -/
def shutdownAllConnections (unclosed : α → Bool) (s : Server α) : Bool × Server α :=
  (!s.connections.any unclosed, { s with connections := [] })

/-- `CloseServerSocket`; only at its end are the statistics reset (`ResetSocketStatsLight`). -/
def closeServerSocket (unclosed : α → Bool) (closes : Bool) (s : Server α) : Server α :=
  let (shutdown, s) := shutdownAllConnections unclosed s
  if shutdown && closes then
    { s with stats := { s.stats with
        numEventErrors := 0
        numDistinctConnectionsSeen := 0
        numCurrentConnections := 0
        numPeakConnections := 0 } }
  else s

/-- One event. Only connections of the list are removed. -/
def step (s : Server α) : Event α → Server α
  | .provided succeeds => s.handleNewConnection (some succeeds) none
  | .opened connection => s.handleNewConnection none connection
  | .removed c closes => if c ∈ s.connections then s.removeConnection c closes else s
  | .closed unclosed closes => s.closeServerSocket unclosed closes

/-- The number of connections is right. -/
def Counted (s : Server α) : Prop := s.stats.numCurrentConnections = s.connections.length

/-- An event that changes the number as it changes the list: no connection is accepted by the
caller's function or removed without being shut down, and with connections the server is closed
completely. -/
def Balanced (s : Server α) : Event α → Prop
  | .provided succeeds => succeeds = false
  | .opened _ => True
  | .removed c closes => c ∈ s.connections → closes = true
  | .closed unclosed closes =>
    s.connections = [] ∨ ((∀ c ∈ s.connections, unclosed c = false) ∧ closes = true)

/-- The states in which the events are balanced. -/
def AllBalanced : Server α → List (Event α) → Prop
  | _, [] => True
  | s, event :: events => s.Balanced event ∧ AllBalanced (s.step event) events

theorem counted_step_iff {s : Server α} (h : s.Counted) (event : Event α) :
    (s.step event).Counted ↔ s.Balanced event := by
  unfold Counted at h ⊢
  cases event with
  | provided succeeds =>
    cases succeeds with
    | false => simp [step, handleNewConnection, refused, Balanced, h]
    | true =>
      simp only [step, handleNewConnection, accepted, Balanced, h, Bool.true_eq_false, iff_false]
      omega
  | opened connection =>
    cases connection <;>
      simp [step, handleNewConnection, accepted, refused, Balanced, h]
  | removed c closes =>
    by_cases hc : c ∈ s.connections
    · have hpos := List.length_pos_of_mem hc
      have hlength := List.length_erase_of_mem hc
      cases closes <;>
        simp [step, hc, removeConnection, shutdownConnection, Balanced, h] <;> omega
    · simp [step, hc, Balanced, h]
  | closed unclosed closes =>
    have hany : s.connections.any unclosed = false ↔ ∀ c ∈ s.connections, unclosed c = false := by
      simp
    simp only [step, closeServerSocket, shutdownAllConnections, Balanced, ← hany]
    by_cases hall : s.connections.any unclosed = true <;> cases closes <;> simp [hall, h]

/-- Over a run of a server the number of connections stays right if and only if every event is
balanced. -/
theorem counted_run_iff {s : Server α} (h : s.Counted) (events : List (Event α)) :
    (∀ t ∈ events.scanl step s, t.Counted) ↔ s.AllBalanced events := by
  induction events generalizing s with
  | nil => simpa [AllBalanced] using h
  | cons event events ih =>
    rw [List.scanl_cons, List.forall_mem_cons, AllBalanced, and_iff_right h]
    constructor
    · intro hrun
      have hstep : (s.step event).Counted := by
        cases events with
        | nil => exact hrun _ (by simp)
        | cons => exact hrun _ (by simp)
      exact ⟨(counted_step_iff h event).mp hstep, (ih hstep).mp hrun⟩
    · rintro ⟨hbalanced, hrun⟩
      exact (ih ((counted_step_iff h event).mpr hbalanced)).mpr hrun

end Server

/-- Events are handled for each connection if and only if no connection with an error can be shut
down, and the number of connections stays right over a run if and only if every event is
balanced. -/
theorem connections_iff {α : Type} [DecidableEq α] (receiveData closes : α → Bool)
    {connections : List α} (hnodup : connections.Nodup) (readSockets errorSockets : Finset α)
    (stats : ConnectionStats) {s : Server α} (hs : s.Counted) (events : List (Server.Event α)) :
    (EachHandled receiveData closes connections readSockets errorSockets stats ↔
      ∀ c ∈ connections, c ∈ errorSockets → closes c = false) ∧
    ((∀ t ∈ events.scanl Server.step s, t.Counted) ↔ s.AllBalanced events) :=
  ⟨eachHandled_iff hnodup readSockets errorSockets stats, Server.counted_run_iff hs events⟩

/-- Statistics at the start. -/
def ConnectionStats.start : ConnectionStats := ⟨0, 0, 0, 0, 0, 0, 0, 0⟩

theorem connections_iff_accept :
    EachHandled (fun _ => true) (fun _ => true) [0, 1] {1} ∅ .start ∧
      ∀ t ∈ [Server.Event.opened (some 0), .removed 0 true].scanl Server.step ⟨[], .start⟩,
        t.Counted := by
  obtain ⟨hhandled, hcounted⟩ := @connections_iff ℕ _ (fun _ => true) (fun _ => true) [0, 1]
    (by decide) {1} ∅ .start ⟨[], .start⟩ rfl [.opened (some 0), .removed 0 true]
  exact ⟨hhandled.mpr (by decide), hcounted.mpr ⟨trivial, fun _ => rfl, trivial⟩⟩

/-- The last connection has an error and is shut down: the iterator is moved past the end. -/
theorem not_eachHandled_last :
    handleSelectEvents (fun _ => true) (fun _ => true) [0] ∅ {0} .start = none ∧
      ¬EachHandled (fun _ => true) (fun _ => true) [0] ∅ {0} .start := by
  have hnone : handleSelectEvents (fun _ : ℕ => true) (fun _ => true) [0] ∅ {0} .start = none :=
    rfl
  refine ⟨hnone, ?_⟩
  rintro ⟨s, hs, -⟩
  rw [hnone] at hs
  cases hs

end Safrn.Socket
