import Safrn.Base.BigEndian
import Safrn.Base.Numerals
import Safrn.Socket.Sending
import Safrn.Socket.StopCondition

/-!
# Delivery of a query

Models how the client sends a query (`send_query_main.cpp:57-80`) and the server receives it
(`receive_query_main.cpp:36-60`): the callback `ReceiveBigEndianInt64Bytes`
(`Util/socket.cpp:235-280`), `ReceiveData` (`:2204-2331`) and the loop of `ThreadListen` around it,
for one client. `reserves` says for which sizes the buffer of a connection can be reserved; the
standard library throws where it cannot.
-/

namespace Safrn.Socket

open Safrn.Base

abbrev Byte := BitVec 8

/-- The bytes that `SendQuery` gives to `SendData`: the size, the most significant byte first, and
the query. -/
def queryBytes (query : List Byte) : List Byte :=
  bigEndian 8 (BitVec.ofNat 64 query.length) ++ query

/-- `kMaxBytesTransferrable`. -/
def maxBytesTransferrable : ℕ := 5 * 1024 * 1024 * 1024

/-- The number of bytes that have been declared, with those of the declaration, as a `uint64_t`. -/
def declaredSize (buffer : List Byte) : ℕ :=
  (8 + (ofBigEndian 8 (buffer.take 8)).toNat) % 2 ^ 64

section

variable (reserves : ℕ → Bool)

/-- `ReceiveBigEndianInt64Bytes`: the codes that it inserts, or nothing when it throws. -/
def receiveBigEndianInt64Bytes (buffer : List Byte) : Option (Finset ListenReturnCode) :=
  if buffer.length < 8 then some ∅
  else if buffer.length < declaredSize buffer then
    if reserves (declaredSize buffer) then some ∅ else none
  else if declaredSize buffer < buffer.length then some {.receivedUnexpectedBytes}
  else some {.ok}

/-- Where listening stands. -/
inductive Listening
  | waiting (buffer : List Byte)
  | stopped (codes : Finset ListenReturnCode) (buffer : List Byte)
  /-- An exception of the standard library ends the program. -/
  | thrown
  /-- A signed addition overflows. -/
  | undefined

/-- The statistics after a round of the loop; the default condition looks at the errors. -/
def roundStats (errors : Fin 2) (codes : Finset ListenReturnCode) : SocketStats :=
  { SocketStats.single .errors errors with abortListeningWithCode := codes }

/-- `ShouldKeepListening` after a round. -/
def afterRound (errors : Fin 2) (codes : Finset ListenReturnCode) (buffer : List Byte) :
    Listening :=
  match shouldKeepListening (roundStats errors codes) defaultStopListeningCondition ∅ with
  | .ok (true, _) => .waiting buffer
  | .ok (false, codes) => .stopped codes buffer
  | .error _ => .thrown

open Numerals in
/-- `ReceiveData` for a fragment that arrives, with the end of the round. The size of the buffer
becomes an `int`, which is compared with a `uint64_t`. -/
def receiveFragment (buffer fragment : List Byte) : Listening :=
  let preReceiveSize := int32.wrap buffer.length
  if (maxBytesTransferrable : ℤ) ≤ preReceiveSize % 2 ^ 64 then
    -- "Receive Buffer is full.", and the connection is removed
    afterRound 1 ∅ buffer
  else if 2 ^ 31 ≤ preReceiveSize + fragment.length then .undefined
  else if fragment.length = 0 then
    -- "Zero bytes received.", and the connection is removed
    afterRound 1 ∅ buffer
  else
    match receiveBigEndianInt64Bytes reserves (buffer ++ fragment) with
    | none => .thrown
    | some codes => afterRound 0 codes (buffer ++ fragment)

/-- The loop goes on while it has not been stopped. -/
def Listening.andThen (result : Listening) (next : List Byte → Listening) : Listening :=
  match result with
  | .waiting buffer => next buffer
  | result => result

/-- The loop of `ThreadListen` over the fragments that arrive. -/
def listen : List Byte → List (List Byte) → Listening
  | buffer, [] => .waiting buffer
  | buffer, fragment :: fragments =>
    (receiveFragment reserves buffer fragment).andThen fun buffer => listen buffer fragments

/-- `ReceiveQuery`, which ends the program unless the code is `OK`. -/
def receiveQuery : Listening → Option (List Byte)
  | .stopped codes buffer => if codes = {.ok} then some (buffer.drop 8) else none
  | _ => none

/-! ### Framing -/

/-- The bytes of a query that a vector can hold. -/
def IsQuery (bytes : List Byte) : Prop :=
  ∃ query : List Byte, query.length < 2 ^ 63 ∧ bytes = queryBytes query

/-- What listening comes to when `bytes` have arrived: `OK` for a query, waiting for the start of
one, and else waiting or an error. -/
def Framed (bytes : List Byte) (result : Listening) : Prop :=
  (IsQuery bytes → result = .stopped {.ok} bytes) ∧
  (¬IsQuery bytes → (∃ more, IsQuery (bytes ++ more)) → result = .waiting bytes) ∧
  (¬IsQuery bytes → result = .waiting bytes ∨ result = .stopped {.receivedUnexpectedBytes} bytes)

/-- Each round of the loop is right. -/
def AllFramed : List Byte → List (List Byte) → Prop
  | _, [] => True
  | buffer, fragment :: fragments =>
    Framed (buffer ++ fragment) (receiveFragment reserves buffer fragment) ∧
      (receiveFragment reserves buffer fragment = .waiting (buffer ++ fragment) →
        AllFramed (buffer ++ fragment) fragments)

/-- More bytes have been declared than have arrived. -/
def Pending (bytes : List Byte) : Prop := bytes.length < 8 ∨ bytes.length < declaredSize bytes

instance (bytes : List Byte) : Decidable (Pending bytes) := inferInstanceAs (Decidable (_ ∨ _))

/-- While bytes are waited for, some arrive, an `int` holds their number, and what has been declared
can be reserved. -/
def AllHeld : List Byte → List (List Byte) → Prop
  | _, [] => True
  | buffer, fragment :: fragments =>
    fragment ≠ [] ∧ (buffer ++ fragment).length < 2 ^ 31 ∧
      (Pending (buffer ++ fragment) →
        (8 ≤ (buffer ++ fragment).length → reserves (declaredSize (buffer ++ fragment)) = true) ∧
          AllHeld (buffer ++ fragment) fragments)

end

/-! ### The declared size -/

theorem declaredSize_queryBytes (query more : List Byte) (h : query.length < 2 ^ 63) :
    declaredSize (queryBytes query ++ more) = 8 + query.length := by
  have htake : (queryBytes query ++ more).take 8 = bigEndian 8 (BitVec.ofNat 64 query.length) := by
    rw [queryBytes, List.append_assoc]
    exact List.take_left' (bigEndian_length 8 _)
  have hvalue : (BitVec.ofNat 64 query.length).toNat = query.length :=
    (BitVec.toNat_ofNat _ _).trans (Nat.mod_eq_of_lt (by omega))
  rw [declaredSize, htake, ofBigEndian_bigEndian, hvalue, Nat.mod_eq_of_lt (by omega)]

theorem length_queryBytes (query : List Byte) : (queryBytes query).length = 8 + query.length := by
  rw [queryBytes, List.length_append, bigEndian_length]

/-- Bytes that are as many as they declare are a query. -/
theorem isQuery_iff {bytes : List Byte} (hlt : bytes.length < 2 ^ 63) :
    IsQuery bytes ↔ 8 ≤ bytes.length ∧ declaredSize bytes = bytes.length := by
  constructor
  · rintro ⟨query, hquery, rfl⟩
    have hsize := declaredSize_queryBytes query [] hquery
    rw [List.append_nil] at hsize
    rw [length_queryBytes]
    exact ⟨by omega, hsize⟩
  · rintro ⟨hle, hsize⟩
    have hread := (ofBigEndian 8 (bytes.take 8)).isLt
    have hvalue : (ofBigEndian 8 (bytes.take 8)).toNat = (bytes.drop 8).length := by
      rw [declaredSize] at hsize
      rw [List.length_drop]
      omega
    have hcode : bigEndian 8 (BitVec.ofNat 64 (bytes.drop 8).length) = bytes.take 8 := by
      rw [← hvalue, BitVec.ofNat_toNat, BitVec.setWidth_eq]
      exact bigEndian_ofBigEndian (by rw [List.length_take, Nat.min_eq_left hle])
    refine ⟨bytes.drop 8, by rw [List.length_drop]; omega, ?_⟩
    rw [queryBytes, hcode, List.take_append_drop]

/-- Bytes that a query starts with are waited for. -/
theorem pending_of_isQuery_append {bytes more : List Byte} (hlt : bytes.length < 2 ^ 63)
    (h : IsQuery (bytes ++ more)) (hnot : ¬IsQuery bytes) : Pending bytes := by
  by_contra hpending
  obtain ⟨hle, hge⟩ := not_or.mp hpending
  obtain ⟨query, hquery, heq⟩ := h
  have hdeclared : declaredSize bytes = 8 + query.length := by
    have htake : bytes.take 8 = (queryBytes query ++ []).take 8 := by
      rw [List.append_nil, ← heq, List.take_append_of_le_length (by omega)]
    rw [← declaredSize_queryBytes query [] hquery, declaredSize, declaredSize, htake]
  have hlength := congrArg List.length heq
  rw [length_queryBytes, List.length_append] at hlength
  exact hnot ((isQuery_iff hlt).mpr ⟨by omega, by omega⟩)

/-! ### One round -/

theorem afterRound_waiting (buffer : List Byte) : afterRound 0 ∅ buffer = .waiting buffer := rfl

theorem afterRound_failed (buffer : List Byte) :
    afterRound 1 ∅ buffer = .stopped {.tooManyErrors} buffer := rfl

theorem afterRound_stopped {codes : Finset ListenReturnCode} (h : codes ≠ ∅)
    (buffer : List Byte) : afterRound 0 codes buffer = .stopped codes buffer := by
  simp only [afterRound, shouldKeepListening, defaultStopListeningCondition, roundStats, ne_eq, h,
    not_false_eq_true, if_true]

section

variable {reserves : ℕ → Bool} {buffer fragment : List Byte}

/-- A round in which bytes arrive whose number is an `int`. -/
theorem receiveFragment_eq (hne : fragment ≠ [])
    (hlt : (buffer ++ fragment).length < 2 ^ 31) :
    receiveFragment reserves buffer fragment =
      if Pending (buffer ++ fragment) then
        if 8 ≤ (buffer ++ fragment).length ∧ reserves (declaredSize (buffer ++ fragment)) = false
        then .thrown else .waiting (buffer ++ fragment)
      else if declaredSize (buffer ++ fragment) < (buffer ++ fragment).length then
        .stopped {.receivedUnexpectedBytes} (buffer ++ fragment)
      else .stopped {.ok} (buffer ++ fragment) := by
  have hlength : (buffer ++ fragment).length = buffer.length + fragment.length :=
    List.length_append
  have hpos := List.length_pos_iff.mpr hne
  have hwrap : int32.wrap buffer.length = buffer.length := int32_wrap_of_lt (by omega)
  rw [receiveFragment, hwrap, if_neg (by rw [maxBytesTransferrable]; omega), if_neg (by omega),
    if_neg (by omega)]
  generalize buffer ++ fragment = bytes
  unfold receiveBigEndianInt64Bytes Pending
  by_cases hshort : bytes.length < 8
  · simp [hshort, afterRound_waiting, Nat.not_le_of_lt hshort]
  · by_cases hless : bytes.length < declaredSize bytes
    · cases reserves (declaredSize bytes) with
      | false => simp [hshort, hless, Nat.le_of_not_lt hshort]
      | true => simp [hshort, hless, afterRound_waiting]
    · by_cases hmore : declaredSize bytes < bytes.length
      · simp [hshort, hless, hmore, afterRound_stopped]
      · simp [hshort, hless, hmore, afterRound_stopped]

theorem Framed.cases {bytes : List Byte} {result : Listening} (h : Framed bytes result) :
    result = .stopped {.ok} bytes ∨ result = .waiting bytes ∨
      result = .stopped {.receivedUnexpectedBytes} bytes := by
  by_cases hquery : IsQuery bytes
  · exact .inl (h.1 hquery)
  · exact .inr (h.2.2 hquery)

/-- What a round comes to that receives nothing or too much. -/
theorem not_framed_of_not_held (hbuffer : buffer.length < 2 ^ 31)
    (h : fragment = [] ∨ 2 ^ 31 ≤ (buffer ++ fragment).length) :
    ¬Framed (buffer ++ fragment) (receiveFragment reserves buffer fragment) := by
  have hlength : (buffer ++ fragment).length = buffer.length + fragment.length :=
    List.length_append
  have hwrap : int32.wrap buffer.length = buffer.length := int32_wrap_of_lt hbuffer
  have hroom : ¬(maxBytesTransferrable : ℤ) ≤ (buffer.length : ℤ) % 2 ^ 64 := by
    rw [maxBytesTransferrable]
    omega
  intro hframed
  rw [receiveFragment, hwrap, if_neg hroom] at hframed
  split at hframed
  next => obtain h | h | h := hframed.cases <;> cases h
  next hsmall =>
    obtain rfl : fragment = [] := by
      obtain h | h := h
      · exact h
      · omega
    rw [if_pos List.length_nil, afterRound_failed] at hframed
    obtain h | h | h := hframed.cases
    · exact absurd (Listening.stopped.inj h).1 (by decide)
    · cases h
    · exact absurd (Listening.stopped.inj h).1 (by decide)

theorem framed_of_held (hne : fragment ≠ []) (hlt : (buffer ++ fragment).length < 2 ^ 31)
    (hreserves : Pending (buffer ++ fragment) → 8 ≤ (buffer ++ fragment).length →
      reserves (declaredSize (buffer ++ fragment)) = true) :
    Framed (buffer ++ fragment) (receiveFragment reserves buffer fragment) := by
  rw [receiveFragment_eq hne hlt]
  have hquery := @isQuery_iff (buffer ++ fragment) (by omega)
  have hstart := fun more => @pending_of_isQuery_append (buffer ++ fragment) more (by omega)
  generalize buffer ++ fragment = bytes at *
  by_cases hpending : Pending bytes
  · have hnot : ¬IsQuery bytes := by
      rw [hquery]
      rintro ⟨hle, hsize⟩
      obtain h | h := hpending <;> omega
    have hresult : ¬(8 ≤ bytes.length ∧ reserves (declaredSize bytes) = false) := by
      rintro ⟨hle, hfalse⟩
      rw [hreserves hpending hle] at hfalse
      cases hfalse
    rw [if_pos hpending, if_neg hresult]
    exact ⟨fun h => absurd h hnot, fun _ _ => rfl, fun _ => .inl rfl⟩
  · obtain ⟨hle, hge⟩ := not_or.mp hpending
    rw [if_neg hpending]
    split
    next hmore =>
      have hnot : ¬IsQuery bytes := by
        rw [hquery]
        omega
      refine ⟨fun h => absurd h hnot, ?_, fun _ => .inr rfl⟩
      rintro - ⟨more, hmore'⟩
      exact absurd (hstart more hmore' hnot) hpending
    next hmore =>
      have hyes : IsQuery bytes := hquery.mpr ⟨by omega, by omega⟩
      exact ⟨fun _ => rfl, fun h => absurd hyes h, fun h => absurd hyes h⟩

/-- **One round.** It is right if and only if bytes arrive, an `int` holds the number of bytes and
what has been declared can be reserved where it is waited for. -/
theorem framed_iff (hbuffer : buffer.length < 2 ^ 31) :
    Framed (buffer ++ fragment) (receiveFragment reserves buffer fragment) ↔
      fragment ≠ [] ∧ (buffer ++ fragment).length < 2 ^ 31 ∧
        (Pending (buffer ++ fragment) → 8 ≤ (buffer ++ fragment).length →
          reserves (declaredSize (buffer ++ fragment)) = true) := by
  constructor
  · intro hframed
    have hne : fragment ≠ [] :=
      fun hnil => not_framed_of_not_held hbuffer (.inl hnil) hframed
    have hlt : (buffer ++ fragment).length < 2 ^ 31 := by
      by_contra hge
      exact not_framed_of_not_held hbuffer (.inr (by omega)) hframed
    refine ⟨hne, hlt, fun hpending hle => ?_⟩
    by_contra hfalse
    rw [receiveFragment_eq hne hlt, if_pos hpending,
      if_pos ⟨hle, by simpa using hfalse⟩] at hframed
    obtain h | h | h := hframed.cases <;> cases h
  · rintro ⟨hne, hlt, hreserves⟩
    exact framed_of_held hne hlt hreserves

/-- Listening goes on while bytes are waited for. -/
theorem receiveFragment_waiting_iff (hne : fragment ≠ [])
    (hlt : (buffer ++ fragment).length < 2 ^ 31)
    (hreserves : Pending (buffer ++ fragment) → 8 ≤ (buffer ++ fragment).length →
      reserves (declaredSize (buffer ++ fragment)) = true) :
    receiveFragment reserves buffer fragment = .waiting (buffer ++ fragment) ↔
      Pending (buffer ++ fragment) := by
  rw [receiveFragment_eq hne hlt]
  by_cases hpending : Pending (buffer ++ fragment)
  · rw [if_pos hpending, if_neg]
    · simp [hpending]
    · rintro ⟨hle, hfalse⟩
      rw [hreserves hpending hle] at hfalse
      cases hfalse
  · rw [if_neg hpending]
    split <;> simp [hpending]

/-- **A run.** Every round is right if and only if what is waited for can be held. -/
theorem allFramed_iff (hbuffer : buffer.length < 2 ^ 31) (fragments : List (List Byte)) :
    AllFramed reserves buffer fragments ↔ AllHeld reserves buffer fragments := by
  induction fragments generalizing buffer with
  | nil => exact Iff.rfl
  | cons fragment fragments ih =>
    rw [AllFramed, AllHeld, framed_iff hbuffer]
    constructor
    · rintro ⟨⟨hne, hlt, hreserves⟩, hrest⟩
      have hwaiting := receiveFragment_waiting_iff hne hlt hreserves
      exact ⟨hne, hlt, fun hpending =>
        ⟨hreserves hpending, (ih hlt).mp (hrest (hwaiting.mpr hpending))⟩⟩
    · rintro ⟨hne, hlt, hheld⟩
      have hreserves := fun hpending => (hheld hpending).1
      have hwaiting := receiveFragment_waiting_iff hne hlt hreserves
      exact ⟨⟨hne, hlt, hreserves⟩, fun h => (ih hlt).mpr (hheld (hwaiting.mp h)).2⟩

theorem listen_of_waiting {buffer' : List Byte} (fragments : List (List Byte))
    (h : receiveFragment reserves buffer fragment = .waiting buffer') :
    listen reserves buffer (fragment :: fragments) = listen reserves buffer' fragments := by
  rw [listen, h, Listening.andThen]

theorem listen_of_stopped {codes : Finset ListenReturnCode} {buffer' : List Byte}
    (fragments : List (List Byte))
    (h : receiveFragment reserves buffer fragment = .stopped codes buffer') :
    listen reserves buffer (fragment :: fragments) = .stopped codes buffer' := by
  rw [listen, h]
  rfl

/-- Bytes behind a query do not make another one. -/
theorem eq_nil_of_isQuery_append {bytes more : List Byte} (h : IsQuery bytes)
    (hmore : IsQuery (bytes ++ more)) : more = [] := by
  obtain ⟨query, hquery, rfl⟩ := h
  obtain ⟨query', hquery', heq⟩ := hmore
  have hsize := declaredSize_queryBytes query more hquery
  have hsize' := declaredSize_queryBytes query' [] hquery'
  have hlength := congrArg List.length heq
  rw [List.append_nil, ← heq, hsize] at hsize'
  rw [List.length_append, length_queryBytes, length_queryBytes] at hlength
  exact List.eq_nil_of_length_eq_zero (by omega)

/-- While a query is on its way the loop waits; when it is complete the code is `OK`. -/
theorem listen_query {fragments : List (List Byte)} {query : List Byte}
    (hquery : query.length < 2 ^ 63) (hbytes : buffer ++ fragments.flatten = queryBytes query)
    (hnot : ¬IsQuery buffer) (h : AllFramed reserves buffer fragments) :
    listen reserves buffer fragments = .stopped {.ok} (queryBytes query) ∧
      ∀ first second, first ++ second = fragments → second.flatten ≠ [] →
        listen reserves buffer first = .waiting (buffer ++ first.flatten) := by
  induction fragments generalizing buffer with
  | nil =>
    rw [List.flatten_nil, List.append_nil] at hbytes
    exact absurd ⟨query, hquery, hbytes⟩ hnot
  | cons fragment fragments ih =>
    obtain ⟨⟨hok, hwaits, -⟩, hrest⟩ := h
    rw [List.flatten_cons, ← List.append_assoc] at hbytes
    have hall : IsQuery (buffer ++ fragment ++ fragments.flatten) := ⟨query, hquery, hbytes⟩
    by_cases hcomplete : IsQuery (buffer ++ fragment)
    · have hnil := eq_nil_of_isQuery_append hcomplete hall
      rw [hnil, List.append_nil] at hbytes
      refine ⟨by rw [listen_of_stopped fragments (hok hcomplete), hbytes], ?_⟩
      intro first second hsplit hsecond
      cases first with
      | nil => rw [List.flatten_nil, List.append_nil, listen]
      | cons fragment' first =>
        obtain ⟨-, hsplit⟩ := List.cons.inj hsplit
        rw [← hsplit, List.append_eq, List.flatten_append, List.append_eq_nil_iff] at hnil
        exact absurd hnil.2 hsecond
    · have hwaiting := hwaits hcomplete ⟨_, hall⟩
      obtain ⟨hend, hbefore⟩ := ih hbytes hcomplete (hrest hwaiting)
      refine ⟨by rw [listen_of_waiting fragments hwaiting, hend], ?_⟩
      intro first second hsplit hsecond
      cases first with
      | nil => rw [List.flatten_nil, List.append_nil, listen]
      | cons fragment' first =>
        obtain ⟨rfl, htail⟩ := List.cons.inj hsplit
        rw [listen_of_waiting first hwaiting, hbefore first second htail hsecond,
          List.flatten_cons, List.append_assoc]

end

theorem not_isQuery_nil : ¬IsQuery [] := by
  rintro ⟨query, -, heq⟩
  have hlength := congrArg List.length heq
  rw [length_queryBytes, List.length_nil] at hlength
  omega

/-- Every round of the loop is right if and only if what is waited for can be held; then a query
is waited for until it is complete, and `ReceiveQuery` returns it. -/
theorem query_delivery_iff (reserves : ℕ → Bool) (fragments : List (List Byte)) :
    (AllFramed reserves [] fragments ↔ AllHeld reserves [] fragments) ∧
      ∀ query : List Byte, query.length < 2 ^ 63 → fragments.flatten = queryBytes query →
        AllHeld reserves [] fragments →
        receiveQuery (listen reserves [] fragments) = some query ∧
          ∀ first second, first ++ second = fragments → second.flatten ≠ [] →
            listen reserves [] first = .waiting first.flatten := by
  have hiff : AllFramed reserves [] fragments ↔ AllHeld reserves [] fragments :=
    allFramed_iff (by decide) fragments
  refine ⟨hiff, fun query hquery hbytes hheld => ?_⟩
  obtain ⟨hend, hbefore⟩ := listen_query hquery hbytes not_isQuery_nil (hiff.mpr hheld)
  refine ⟨?_, hbefore⟩
  rw [hend, receiveQuery, if_pos rfl, queryBytes, List.drop_left' (bigEndian_length 8 _)]

/-- Two bytes in three fragments. -/
theorem query_delivery_iff_twoBytes :
    receiveQuery (listen (fun _ => true) []
      [[0, 0, 0, 0, 0], [0, 0, 2, 7], [9]]) = some [7, 9] := by
  refine ((query_delivery_iff (fun _ => true) [[0, 0, 0, 0, 0], [0, 0, 2, 7], [9]]).2 [7, 9]
    (by decide) (by decide) ?_).1
  exact ⟨by decide, by decide, fun _ => ⟨fun _ => rfl, by decide, by decide, fun _ =>
    ⟨fun _ => rfl, by decide, by decide, fun _ => ⟨fun _ => rfl, trivial⟩⟩⟩⟩

/-- Eight bytes declare a size of `2 ^ 63`, which no vector can reserve: the program ends. -/
theorem not_allFramed_thrown :
    receiveFragment (fun n => decide (n < 2 ^ 63)) [] [0x80, 0, 0, 0, 0, 0, 0, 0] = .thrown ∧
      ¬AllFramed (fun n => decide (n < 2 ^ 63)) [] [[0x80, 0, 0, 0, 0, 0, 0, 0]] := by
  have hsize : declaredSize ([] ++ [0x80, 0, 0, 0, 0, 0, 0, 0]) = 8 + 2 ^ 63 := by decide
  have hpending : Pending ([] ++ [0x80, 0, 0, 0, 0, 0, 0, 0]) := .inr (by rw [hsize]; decide)
  have hthrown : receiveFragment (fun n => decide (n < 2 ^ 63)) []
      [0x80, 0, 0, 0, 0, 0, 0, 0] = .thrown := by
    rw [receiveFragment_eq (by decide) (by decide), if_pos hpending, hsize,
      if_pos ⟨by decide, by decide⟩]
  refine ⟨hthrown, fun h => ?_⟩
  have hframed := h.1
  rw [hthrown] at hframed
  obtain h | h | h := hframed.cases <;> cases h

end Safrn.Socket
