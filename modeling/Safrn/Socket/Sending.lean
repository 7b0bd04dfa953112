import Safrn.Base.IntFormat

/-!
# Sending on a connection

Models the sending side of `Socket` for one connection that is established
(`Util/socket.cpp`): `SendData` and `SendDataNow` (`:2360-2421`), `SendBlob` and `SendBlobNow`
(`:2423-2627`), `SendDataNoFlush` (`:2629-2667`), `FlushSendBuffer` and `FlushSendBuffers`
(`:2719-2807`). Counters and timers of the statistics are left out.
-/

namespace Safrn.Socket

open Safrn.Base

/-- `SendReturnCode`. -/
inductive SendReturnCode
  | success
  | badSocket
  | socketNotReady
  | socketError
  | unknownError
  | unknownSocket
  | selectError
  | sendError
  | enqueueError
  | badRole
  | cannotConnect
deriving DecidableEq

/-- What the operating system answers when something is to be sent. -/
inductive Answer
  /-- The socket cannot be set up. -/
  | notSetUp
  /-- `select` fails. -/
  | selectFails
  /-- `select` says that the socket is not ready; whether it may. -/
  | notReady (polls : Bool)
  /-- `select` reports an error on a socket. -/
  | socketFails
  /-- `select` reports anything else than the socket. -/
  | unexpected
  /-- `send` returns a number: how many bytes have been sent, or no positive number. -/
  | sent (n : ℤ)

/-- The numbers of `int`. -/
def int32 : IntFormat := ⟨32, true, IntFormat.thirtyTwo_pos⟩

/-- What an answer comes to in `SendBlob`: an error, or a positive number of bytes sent. -/
def Answer.outcome : Answer → Except SendReturnCode ℕ
  | .notSetUp => .error .badSocket
  | .selectFails => .error .selectError
  | .notReady polls => .error (if polls then .socketNotReady else .unknownError)
  | .socketFails => .error .socketError
  | .unexpected => .error .unknownError
  | .sent n => if n ≤ 0 then .error .sendError else .ok n.toNat

section

variable {α : Type}

/-- `SendBlob`: its code, the bytes that have been sent and the answers left. The recursion ends
with the answers: without one the socket is not ready. -/
def sendBlob : List α → List Answer → SendReturnCode × List α × List Answer
  | [], answers => (.success, [], answers)
  | _ :: _, [] => (.socketNotReady, [], [])
  | buffer@(_ :: _), answer :: answers =>
    match answer.outcome with
    | .error code => (code, [], answers)
    | .ok n =>
      if n < buffer.length then
        let (code, bytes, answers) := sendBlob (buffer.drop n) answers
        (code, buffer.take n ++ bytes, answers)
      else (.success, buffer, answers)

/-- The loop of `SendDataNow`, with what has been sent; there are no more rounds than bytes. -/
def sendLoop (data : List α) : ℕ → ℤ → ℕ → List Answer → SendReturnCode × List α
  | 0, _, _, _ => (.success, [])
  | rounds + 1, remaining, next, answers =>
    if 0 < remaining then
      let (code, bytes, answers) := sendBlob ((data.drop next).take remaining.toNat) answers
      if code ≠ .success then (code, bytes)
      else
        let (code, bytes') :=
          sendLoop data rounds (remaining - bytes.length) (next + bytes.length) answers
        (code, bytes ++ bytes')
    else (.success, [])

/-- `SendDataNow`: its code and the bytes that have been sent. The size becomes an `int`. -/
def sendDataNow (data : List α) (answers : List Answer) : SendReturnCode × List α :=
  sendLoop data (data.length + 1) (int32.wrap data.length) 0 answers

/-- The sending side of a connection: the buffer of its entry in `bytes_to_send_per_socket_`, what
has been handed to the peer, and what has been given to be sent. -/
structure Sender (α : Type) where
  buffer : Option (List α)
  handed : List α
  enqueued : List α

namespace Sender

/-- `SendDataNoFlush`. -/
def sendDataNoFlush (s : Sender α) (data : List α) : Sender α :=
  if data.length = 0 then s
  else
    { buffer := some (s.buffer.getD [] ++ data)
      handed := s.handed
      enqueued := s.enqueued ++ data }

/-- `FlushSendBuffer` for the connection. -/
def flushSendBuffer (s : Sender α) (answers : List Answer) : SendReturnCode × Sender α :=
  match s.buffer with
  | none => (.unknownSocket, s)
  | some buffer =>
    if buffer.isEmpty then (.success, { s with buffer := some [] })
    else
      let result := sendDataNow buffer answers
      let s := { s with handed := s.handed ++ result.2 }
      if result.1 ≠ .success then (result.1, s)
      else (.success, { s with buffer := some [] })

/-- `FlushSendBuffers`; a server passes over empty buffers and buffers that there are not. -/
def flushSendBuffers (s : Sender α) (isServer : Bool) (answers : List Answer) :
    SendReturnCode × Sender α :=
  if isServer && (s.buffer.getD []).isEmpty then (.success, s)
  else s.flushSendBuffer answers

/-- The calls for a connection, with the answers that they meet. -/
inductive Call (α : Type)
  | sendData (data : List α) (answers : List Answer)
  | sendDataNoFlush (data : List α)
  | flushSendBuffer (answers : List Answer)
  | flushSendBuffers (isServer : Bool) (answers : List Answer)

/-- A call; `SendDataNoFlush` returns no code. -/
def call (s : Sender α) : Call α → Option SendReturnCode × Sender α
  | .sendData data answers => ((s.sendDataNoFlush data).flushSendBuffer answers).map some id
  | .sendDataNoFlush data => (none, s.sendDataNoFlush data)
  | .flushSendBuffer answers => (s.flushSendBuffer answers).map some id
  | .flushSendBuffers isServer answers => (s.flushSendBuffers isServer answers).map some id

/-! ### The stream -/

/-- What has been handed over are the first of the bytes given, and the buffer has the others. -/
def Intact (s : Sender α) : Prop := s.handed ++ s.buffer.getD [] = s.enqueued

/-- The result of a call: the stream is intact, and with success all of it has been handed over. -/
def Delivered (result : Option SendReturnCode × Sender α) : Prop :=
  result.2.Intact ∧ (result.1 = some .success → result.2.handed = result.2.enqueued)

/-- Every call of a run leaves the stream so. -/
def AllDelivered : Sender α → List (Call α) → Prop
  | _, [] => True
  | s, c :: calls => Delivered (s.call c) ∧ AllDelivered (s.call c).2 calls

end Sender

/-- No byte is sent with the first answer. -/
def FailsFirst : List Answer → Prop
  | [] => True
  | answer :: _ => ∃ code, answer.outcome = .error code

/-- The answers are enough to send `n` bytes. -/
def Covers : ℕ → List Answer → Prop
  | _, [] => False
  | n, answer :: answers => ∃ k, answer.outcome = .ok k ∧ (k < n → Covers (n - k) answers)

/-- A buffer that is sent as a whole or not at all: it is empty, or its size as an `int` is positive
and the first answer is an error, or the size is right and the answers are enough for it. -/
def FlushMet (buffer : List α) (answers : List Answer) : Prop :=
  buffer = [] ∨ (0 < int32.wrap buffer.length ∧ FailsFirst answers) ∨
    (buffer.length < 2 ^ 31 ∧ Covers buffer.length answers)

namespace Sender

/-- A call that sends the buffer as a whole or not at all. -/
def Met (s : Sender α) : Call α → Prop
  | .sendData data answers => FlushMet (s.buffer.getD [] ++ data) answers
  | .sendDataNoFlush _ => True
  | .flushSendBuffer answers | .flushSendBuffers _ answers => FlushMet (s.buffer.getD []) answers

/-- Every call of a run is so. -/
def AllMet : Sender α → List (Call α) → Prop
  | _, [] => True
  | s, c :: calls => s.Met c ∧ AllMet (s.call c).2 calls

end Sender

/-! ### One flush -/

theorem outcome_pos {answer : Answer} {k : ℕ} (h : answer.outcome = .ok k) : 0 < k := by
  cases answer with
  | sent n =>
    simp only [Answer.outcome] at h
    split at h
    · cases h
    · obtain rfl := Except.ok.inj h
      omega
  | _ => cases h

theorem outcome_ne_success {answer : Answer} {code : SendReturnCode}
    (h : answer.outcome = .error code) : code ≠ .success := by
  rintro rfl
  cases answer with
  | sent n =>
    simp only [Answer.outcome] at h
    split at h <;> cases h
  | notReady polls => cases polls <;> cases h
  | _ => cases h

theorem not_failsFirst_of_covers {n : ℕ} {answers : List Answer} (h : Covers n answers) :
    ¬FailsFirst answers := by
  cases answers with
  | nil => exact h.elim
  | cons answer answers =>
    obtain ⟨k, hk, -⟩ := h
    rintro ⟨code, hcode⟩
    rw [hk] at hcode
    cases hcode

/-- Enough answers send everything. -/
theorem sendBlob_of_covers {buffer : List α} {answers : List Answer} (hne : buffer ≠ [])
    (h : Covers buffer.length answers) :
    ∃ rest, sendBlob buffer answers = (.success, buffer, rest) := by
  induction answers generalizing buffer with
  | nil => exact h.elim
  | cons answer answers ih =>
    obtain ⟨k, hk, hrest⟩ := h
    obtain ⟨b, buffer, rfl⟩ := List.exists_cons_of_ne_nil hne
    simp only [sendBlob, hk]
    split
    next hlt =>
      have hdrop : (b :: buffer).drop k ≠ [] := by simpa using hlt
      obtain ⟨rest, hsend⟩ := ih hdrop (by rw [List.length_drop]; exact hrest hlt)
      rw [hsend, List.take_append_drop]
      exact ⟨rest, rfl⟩
    next => exact ⟨answers, rfl⟩

/-- Too few answers end in an error; nothing has been sent only if the first is one. -/
theorem sendBlob_of_not_covers {buffer : List α} {answers : List Answer} (hne : buffer ≠ [])
    (h : ¬Covers buffer.length answers) :
    (sendBlob buffer answers).1 ≠ .success ∧
      ((sendBlob buffer answers).2.1 = [] ↔ FailsFirst answers) := by
  induction answers generalizing buffer with
  | nil =>
    obtain ⟨b, buffer, rfl⟩ := List.exists_cons_of_ne_nil hne
    simp [sendBlob, FailsFirst]
  | cons answer answers ih =>
    obtain ⟨b, buffer, rfl⟩ := List.exists_cons_of_ne_nil hne
    simp only [sendBlob, FailsFirst]
    cases houtcome : answer.outcome with
    | error code => exact ⟨outcome_ne_success houtcome, by simp⟩
    | ok k =>
      have hk := outcome_pos houtcome
      have hlt : k < (b :: buffer).length := by
        by_contra hge
        exact h ⟨k, houtcome, fun hlt => absurd hlt hge⟩
      have hdrop : (b :: buffer).drop k ≠ [] := by simpa using hlt
      have hrest : ¬Covers ((b :: buffer).drop k).length answers := by
        rw [List.length_drop]
        exact fun hcovers => h ⟨k, houtcome, fun _ => hcovers⟩
      simp only [hlt, if_true]
      refine ⟨(ih hdrop hrest).1, ?_⟩
      simp [hk.ne']

theorem sendLoop_zero (data : List α) (rounds next : ℕ) (answers : List Answer) :
    sendLoop data rounds 0 next answers = (.success, []) := by
  cases rounds <;> rfl

/-- A size that is no positive `int` sends nothing. -/
theorem sendDataNow_of_nonpos {data : List α} (h : int32.wrap data.length ≤ 0)
    (answers : List Answer) : sendDataNow data answers = (.success, []) := by
  rw [sendDataNow, sendLoop, if_neg (by omega)]

theorem int32_wrap_lt (n : ℕ) : int32.wrap n < 2 ^ 31 := (int32.holds_wrap n).2

theorem int32_wrap_of_lt {n : ℕ} (h : n < 2 ^ 31) : int32.wrap n = n :=
  IntFormat.wrap_of_holds ⟨int32.lower_nonpos.trans (by positivity), by
    show (n : ℤ) < 2 ^ 31
    exact_mod_cast h⟩

theorem toNat_int32_wrap_le (n : ℕ) : (int32.wrap n).toNat ≤ n := by
  by_cases h : n < 2 ^ 31
  · rw [int32_wrap_of_lt h, Int.toNat_natCast]
  · have := int32_wrap_lt n
    omega

/-- The bytes that `SendDataNow` gets to. -/
theorem length_take_wrap (data : List α) :
    (data.take (int32.wrap data.length).toNat).length = (int32.wrap data.length).toNat := by
  rw [List.length_take, Nat.min_eq_left (toNat_int32_wrap_le _)]

theorem take_wrap_ne_nil {data : List α} (h : 0 < int32.wrap data.length) :
    data.take (int32.wrap data.length).toNat ≠ [] := by
  have hlength := length_take_wrap data
  intro hnil
  rw [hnil, List.length_nil] at hlength
  omega

/-- The loop has one round: it ends with an error or when everything has been sent. -/
theorem sendDataNow_of_pos {data : List α} (h : 0 < int32.wrap data.length)
    (answers : List Answer) :
    sendDataNow data answers =
      ((sendBlob (data.take (int32.wrap data.length).toNat) answers).1,
        (sendBlob (data.take (int32.wrap data.length).toNat) answers).2.1) := by
  have hlength := length_take_wrap data
  have hne := take_wrap_ne_nil h
  rw [sendDataNow, sendLoop, if_pos h, List.drop_zero]
  by_cases hcovers : Covers (data.take (int32.wrap data.length).toNat).length answers
  · obtain ⟨rest, hsend⟩ := sendBlob_of_covers hne hcovers
    have hzero : int32.wrap data.length -
        ((data.take (int32.wrap data.length).toNat).length : ℤ) = 0 := by
      rw [hlength]
      omega
    simp only [hsend, ne_eq, not_true, if_false, hzero, sendLoop_zero, List.append_nil]
  · have hcode := (sendBlob_of_not_covers hne hcovers).1
    simp only [hcode, ne_eq, not_false_eq_true, if_true]

namespace Sender

/-- A flush with an error may not have sent anything, one without may not have left anything. -/
theorem delivered_flush_some_iff {data handed : List α} (hne : data ≠ [])
    (answers : List Answer) :
    Delivered ((flushSendBuffer ⟨some data, handed, handed ++ data⟩ answers).map some id) ↔
      if (sendDataNow data answers).1 = .success then (sendDataNow data answers).2 = data
      else (sendDataNow data answers).2 = [] := by
  have hempty : data.isEmpty = false := by simpa using hne
  simp only [flushSendBuffer, hempty, Bool.false_eq_true, if_false]
  by_cases hcode : (sendDataNow data answers).1 = .success
  · rw [if_neg (not_not.mpr hcode), if_pos hcode]
    simp [Delivered, Intact]
  · rw [if_pos hcode, if_neg hcode]
    simp [Delivered, Intact, hcode]

theorem flushMet_iff {data : List α} (hne : data ≠ []) (answers : List Answer) :
    FlushMet data answers ↔
      if (sendDataNow data answers).1 = .success then (sendDataNow data answers).2 = data
      else (sendDataNow data answers).2 = [] := by
  unfold FlushMet
  rw [or_iff_right hne]
  have hle := toNat_int32_wrap_le data.length
  have hwrap := int32_wrap_lt data.length
  by_cases hpos : 0 < int32.wrap data.length
  · have htake := take_wrap_ne_nil hpos
    have hwhole : data.take (int32.wrap data.length).toNat = data ↔ data.length < 2 ^ 31 := by
      rw [List.take_eq_self_iff]
      constructor
      · intro hle
        omega
      · intro hlt
        rw [int32_wrap_of_lt hlt, Int.toNat_natCast]
    rw [sendDataNow_of_pos hpos, and_iff_right hpos]
    by_cases hcovers : Covers (data.take (int32.wrap data.length).toNat).length answers
    · obtain ⟨rest, hsend⟩ := sendBlob_of_covers htake hcovers
      simp only [hsend, if_true]
      rw [or_iff_right (not_failsFirst_of_covers hcovers)]
      constructor
      · rintro ⟨hlt, -⟩
        exact hwhole.mpr hlt
      · intro heq
        rw [heq] at hcovers
        exact ⟨hwhole.mp heq, hcovers⟩
    · obtain ⟨hcode, hnil⟩ := sendBlob_of_not_covers htake hcovers
      rw [if_neg hcode, hnil, or_iff_left]
      rintro ⟨hlt, hcovers'⟩
      rw [hwhole.mpr hlt] at hcovers
      exact hcovers hcovers'
  · -- nothing is sent, and the buffer is lost
    rw [sendDataNow_of_nonpos (by omega)]
    have hlarge : ¬data.length < 2 ^ 31 := by
      intro hlt
      rw [int32_wrap_of_lt hlt] at hpos
      have := List.length_pos_iff.mpr hne
      omega
    simp only [hpos, hlarge, false_and, or_self, if_true, false_iff]
    exact hne.symm

/-- **One flush.** It keeps the stream intact if and only if it sends the buffer as a whole or not
at all. -/
theorem delivered_flush_iff {s : Sender α} (hs : s.Intact) (answers : List Answer) :
    Delivered ((s.flushSendBuffer answers).map some id) ↔
      FlushMet (s.buffer.getD []) answers := by
  obtain ⟨buffer, handed, enqueued⟩ := s
  obtain rfl : handed ++ buffer.getD [] = enqueued := hs
  match buffer with
  | none => simp [flushSendBuffer, Delivered, Intact, FlushMet]
  | some [] => simp [flushSendBuffer, Delivered, Intact, FlushMet]
  | some (b :: buffer) =>
    rw [Option.getD_some, delivered_flush_some_iff (List.cons_ne_nil b buffer),
      flushMet_iff (List.cons_ne_nil b buffer)]

theorem intact_sendDataNoFlush {s : Sender α} (hs : s.Intact) (data : List α) :
    (s.sendDataNoFlush data).Intact := by
  unfold sendDataNoFlush
  split
  next => exact hs
  next => rw [Intact, Option.getD_some, ← List.append_assoc, hs]

theorem getD_sendDataNoFlush (s : Sender α) (data : List α) :
    (s.sendDataNoFlush data).buffer.getD [] = s.buffer.getD [] ++ data := by
  unfold sendDataNoFlush
  split
  next h => rw [List.eq_nil_of_length_eq_zero h, List.append_nil]
  next => rfl

theorem delivered_call_iff {s : Sender α} (hs : s.Intact) (c : Call α) :
    Delivered (s.call c) ↔ s.Met c := by
  cases c with
  | sendData data answers =>
    have hbuffer := getD_sendDataNoFlush s data
    rw [call, Met, delivered_flush_iff (intact_sendDataNoFlush hs data), hbuffer]
  | sendDataNoFlush data =>
    simp [call, Met, Delivered, intact_sendDataNoFlush hs data]
  | flushSendBuffer answers => exact delivered_flush_iff hs answers
  | flushSendBuffers isServer answers =>
    rw [call, Met, flushSendBuffers]
    split
    next h =>
      -- a server passes over what has been sent
      have hnil : s.buffer.getD [] = [] := by
        rw [Bool.and_eq_true] at h
        exact List.isEmpty_iff.mp h.2
      have hall : s.handed = s.enqueued := by
        rw [Intact, hnil, List.append_nil] at hs
        exact hs
      rw [hnil]
      exact iff_of_true ⟨hs, fun _ => hall⟩ (.inl rfl)
    next => exact delivered_flush_iff hs answers

/-- **Sending on a connection.** In a run of calls each of them leaves the stream intact, and with
success all of it handed over, if and only if each sends the buffer as a whole or not at all. -/
theorem send_stream_iff {s : Sender α} (hs : s.Intact) (calls : List (Call α)) :
    s.AllDelivered calls ↔ s.AllMet calls := by
  induction calls generalizing s with
  | nil => exact Iff.rfl
  | cons c calls ih =>
    rw [AllDelivered, AllMet, delivered_call_iff hs c]
    refine and_congr_right fun hmet => ih ?_
    exact ((delivered_call_iff hs c).mpr hmet).1

/-- A connection that nothing has been sent on. -/
def start : Sender α := ⟨none, [], []⟩

theorem send_stream_iff_start :
    (start : Sender ℕ).AllDelivered
      [.sendDataNoFlush [1], .sendData [2, 3] [.sent 2, .sent 1], .flushSendBuffer []] := by
  refine (@send_stream_iff ℕ start rfl _).mpr ⟨trivial, .inr (.inr ⟨by decide, 2, rfl, fun _ => ?_⟩),
    .inl rfl, trivial⟩
  exact ⟨1, rfl, fun h => absurd h (by decide)⟩

/-- After one byte of two `select` fails; the flush that follows sends that byte again. -/
theorem not_allDelivered_resent :
    ((((start : Sender ℕ).call (.sendData [1, 2] [.sent 1, .selectFails])).2.call
      (.flushSendBuffer [.sent 2])).2.handed = [1, 1, 2]) ∧
    ¬(start : Sender ℕ).AllDelivered
      [.sendData [1, 2] [.sent 1, .selectFails], .flushSendBuffer [.sent 2]] := by
  refine ⟨rfl, fun h => ?_⟩
  have hintact : [1] ++ [1, 2] = [1, 2] := h.1.1
  exact absurd hintact (by decide)

end Sender

end

end Safrn.Socket
