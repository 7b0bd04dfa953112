import Mathlib.Data.List.TakeDrop
import Safrn.Http.Handler

/-!
# Responses in the order of the requests

Every request gets one entry of `responses`, when its last content or its headers are handled. The
entries that have been written are the first ones, up to the first that is not done. The handler
closes the connection when nothing is queued, also while a query is being read, because it takes
the end of each burst of bytes for the end of the requests.
-/

namespace Safrn.Http

open Safrn.Base

namespace HttpHandler

variable (h : HttpHandler)

/-- The headers of a request have been read that has no response yet. -/
def Reading : Prop := h.responses.length < h.requests

/-- All responses are done once a back server has answered the response `index`. -/
def Completes (index : Nat) : Prop := ∀ j response, h.responses[j]? = some response →
  if j = index then response.countdown = 1 else response.done = true

end HttpHandler

/-- What is asked of a connection: the responses are written in the order of the requests, one
for each; the connection is not closed before; and a response waits only for the rest of its
request or for its computation. -/
structure Answered (c : Connection) : Prop where
  order : c.handler.written.map (·.request) = List.range c.handler.written.length
  closed : c.handler.closed = true → c.handler.written.length = c.handler.requests
  waits : c.handler.written.length < c.handler.requests →
    c.inRequest = true ∧ c.handler.written.length + 1 = c.handler.requests ∨
      ∃ response, c.handler.responses[c.handler.written.length]? = some response ∧
        response.done = false
  bound : c.handler.written.length ≤ c.handler.requests

/-- The condition on an event: headers arrive on a connection that is open and is to be kept, with
a target that has a path; a query does not end in an exception; and neither the end of a burst nor
the last summands for all pending responses come while a query is being read. -/
def Meets (c : Connection) : Event → Prop
  | .channelRead object outcome =>
    (∀ request, object.request? = some request → c.handler.keepAlive = true ∧
      c.handler.closed = false ∧ request.target ≠ .path none) ∧
    (object = .lastContent → c.handler.Reading → outcome ≠ .threw)
  | .channelReadComplete =>
    ¬ (c.handler.Reading ∧ c.handler.responsesSent = c.handler.responses.length)
  | .userEventTriggered index =>
    ¬ (c.handler.Reading ∧ c.handler.doneReading = true ∧ c.handler.Completes index)

/-! ### The queue -/

/-- The responses that have been written are the first ones, and they are done. -/
structure Sent (h : HttpHandler) : Prop where
  le : h.responsesSent ≤ h.responses.length
  written : h.written = h.responses.take h.responsesSent
  done : ∀ response ∈ h.responses.take h.responsesSent, response.done = true
  countdown : ∀ response ∈ h.responses, response.done = false ↔ 0 < response.countdown

/-- The next response to be written is not done. -/
def Waiting (h : HttpHandler) : Prop :=
  ∀ response, h.responses[h.responsesSent]? = some response → response.done = false

variable {h : HttpHandler}

private theorem take_succ {α : Type} {xs : List α} {n : Nat} {x : α} (hx : xs[n]? = some x) :
    xs.take (n + 1) = xs.take n ++ [x] := by
  rw [List.take_add_one, hx]
  rfl

private theorem writeAndFlush_open (hopen : h.closed = false) (response : Response) :
    h.writeAndFlush response = { h with written := h.written ++ [response] } :=
  if_neg (by rw [hopen]; decide)

/-- What the loop does to an open connection. -/
private theorem sendLoop_ok (n : Nat) {h : HttpHandler} (hs : Sent h) (hopen : h.closed = false)
    (hn : h.responses.length - h.responsesSent = n) :
    ∃ b sent written, HttpHandler.sendLoop n h = (b, { h with responsesSent := sent, written }) ∧
      Sent { h with responsesSent := sent, written } ∧
      Waiting { h with responsesSent := sent, written } ∧
      (b = true ↔ sent = h.responses.length) := by
  induction n generalizing h with
  | zero =>
    have hle := hs.le
    have hall : h.responsesSent = h.responses.length := by omega
    refine ⟨true, h.responsesSent, h.written, rfl, hs, ?_, by simp [hall]⟩
    intro response hr
    dsimp only at hr
    rw [hall, List.getElem?_eq_none (Nat.le_refl _)] at hr
    cases hr
  | succ n ih =>
    have hlt : h.responsesSent < h.responses.length := by omega
    have hget := List.getElem?_eq_getElem hlt
    rw [HttpHandler.sendLoop, hget]
    dsimp only
    cases hdone : h.responses[h.responsesSent].done with
    | false =>
      refine ⟨false, h.responsesSent, h.written, rfl, hs, ?_, by simp; omega⟩
      intro response hr
      dsimp only at hr
      rw [hget] at hr
      obtain rfl := Option.some.inj hr
      exact hdone
    | true =>
      rw [writeAndFlush_open hopen]
      have hnext : Sent { h with
          responsesSent := h.responsesSent + 1
          written := h.written ++ [h.responses[h.responsesSent]] } := by
        refine ⟨hlt, ?_, ?_, hs.countdown⟩
        · dsimp only
          rw [take_succ hget, hs.written]
        · dsimp only
          rw [take_succ hget]
          intro response hmem
          rcases List.mem_append.mp hmem with hmem | hmem
          · exact hs.done response hmem
          · rw [List.mem_singleton.mp hmem]
            exact hdone
      exact ih hnext hopen (by dsimp only; omega)

/-- What `sendResponses` does to an open connection: it writes all responses up to the first one
that is not done, and closes the connection behind the last one unless more can be read. -/
theorem sendResponses_ok (hs : Sent h) (hopen : h.closed = false) :
    ∃ sent written closed, h.sendResponses = { h with responsesSent := sent, written, closed } ∧
      Sent { h with responsesSent := sent, written, closed } ∧
      Waiting { h with responsesSent := sent, written, closed } ∧
      (closed = true ↔ sent = h.responses.length ∧ (h.keepAlive = true → h.doneReading = true)) := by
  obtain ⟨b, sent, written, hrun, hs', hw, hb⟩ := sendLoop_ok _ hs hopen rfl
  rw [HttpHandler.sendResponses, hrun]
  dsimp only
  cases b with
  | false =>
    have hne : sent ≠ h.responses.length := fun heq ↦ by
      have := hb.mpr heq
      cases this
    refine ⟨sent, written, h.closed, rfl, ⟨hs'.le, hs'.written, hs'.done, hs'.countdown⟩, hw, ?_⟩
    rw [hopen]
    simp [hne]
  | true =>
    have heq := hb.mp rfl
    refine ⟨sent, written, !h.keepAlive || h.doneReading, ?_,
      ⟨hs'.le, hs'.written, hs'.done, hs'.countdown⟩, hw, ?_⟩
    · cases h.keepAlive <;> cases h.doneReading <;> simp [HttpHandler.close, hopen]
    · cases hk : h.keepAlive <;> cases hd : h.doneReading <;> simp [heq]

/-! ### The invariant -/

/-- The responses are those of the first requests, in order. -/
def Numbered (h : HttpHandler) : Prop :=
  h.responses.map (·.request) = List.range h.responses.length

/-- What holds of a connection between events: every request has a response, but for a query that
is being read. -/
structure Inv (c : Connection) : Prop where
  sent : Sent c.handler
  waiting : Waiting c.handler
  numbered : Numbered c.handler
  queued : c.handler.responses.length = c.handler.requests ∨
    c.handler.responses.length + 1 = c.handler.requests ∧ c.inRequest = true ∧
      c.handler.ignoreContents = false ∧ c.handler.requestPath = some "/query" ∧
      c.handler.closed = false
  ignored : c.inRequest = true → c.handler.responses.length = c.handler.requests →
    c.handler.ignoreContents = true
  current : c.inRequest = true → c.handler.keepAlive = true ∧
    ∃ request, c.handler.request = some (c.handler.requests - 1, request)
  closed : c.handler.closed = true → c.handler.responsesSent = c.handler.responses.length ∧
    c.handler.responses.length = c.handler.requests

theorem inv_new : Inv ⟨.new, false⟩ where
  sent := ⟨Nat.le_refl _, rfl, fun _ h ↦ (nomatch h), fun _ h ↦ (nomatch h)⟩
  waiting _ h := nomatch h
  numbered := rfl
  queued := .inl rfl
  ignored h := nomatch h
  current h := nomatch h
  closed h := nomatch h

/-- What the invariant says about the connection. -/
theorem Inv.answered {c : Connection} (hI : Inv c) : Answered c := by
  have hlen : c.handler.written.length = c.handler.responsesSent := by
    rw [hI.sent.written, List.length_take, Nat.min_eq_left hI.sent.le]
  have hle := hI.sent.le
  refine ⟨?_, fun hclosed ↦ ?_, fun hlt ↦ ?_, ?_⟩
  · rw [hlen, hI.sent.written, List.map_take, hI.numbered, List.take_range, Nat.min_eq_left hle]
  · obtain ⟨hall, hqueued⟩ := hI.closed hclosed
    rw [hlen, hall, hqueued]
  · rw [hlen] at hlt ⊢
    by_cases hall : c.handler.responsesSent < c.handler.responses.length
    · have hget := List.getElem?_eq_getElem hall
      exact .inr ⟨_, hget, hI.waiting _ hget⟩
    · rcases hI.queued with hqueued | ⟨hqueued, hin, -⟩
      · omega
      · exact .inl ⟨hin, by omega⟩
  · rw [hlen]
    rcases hI.queued with hqueued | ⟨hqueued, -⟩ <;> omega

/-! ### Responses are queued -/

/-- A request that is being answered: it is the current one, and it is the only one without a
response. -/
structure Answering (h : HttpHandler) : Prop where
  sent : Sent h
  numbered : Numbered h
  isOpen : h.closed = false
  queued : h.responses.length + 1 = h.requests
  request : ∃ request, h.request = some (h.requests - 1, request)

/-- The response that is queued is the current request's. -/
private theorem addResponse_eq (ha : Answering h) (status : Nat) (done : Bool) (countdown : Nat) :
    h.addResponse status done countdown =
      { h with responses := h.responses ++ [⟨h.responses.length, status, done, countdown⟩] } := by
  obtain ⟨request, hrequest⟩ := ha.request
  have hnumber : h.requests - 1 = h.responses.length := by
    have := ha.queued
    omega
  rw [HttpHandler.addResponse, hrequest, hnumber]
  rfl

private theorem addResponse_ok (ha : Answering h) (status : Nat) {done : Bool} {countdown : Nat}
    (hdone : done = false ↔ 0 < countdown) :
    Sent (h.addResponse status done countdown) ∧ Numbered (h.addResponse status done countdown) ∧
      (h.addResponse status done countdown).responses.length = h.requests := by
  rw [addResponse_eq ha]
  have hle := ha.sent.le
  have htake (response : Response) :
      (h.responses ++ [response]).take h.responsesSent = h.responses.take h.responsesSent :=
    List.take_append_of_le_length hle
  refine ⟨⟨?_, ?_, ?_, ?_⟩, ?_, ?_⟩
  · rw [List.length_append]
    exact Nat.le_add_right_of_le hle
  · dsimp only
    rw [htake, ha.sent.written]
  · dsimp only
    rw [htake]
    exact ha.sent.done
  · intro response hmem
    rcases List.mem_append.mp hmem with hmem | hmem
    · exact ha.sent.countdown response hmem
    · rw [List.mem_singleton.mp hmem]
      exact hdone
  · have hnumbered := ha.numbered
    rw [Numbered] at hnumbered ⊢
    rw [List.map_append, List.length_append, hnumbered, List.length_singleton, List.range_succ]
    rfl
  · rw [List.length_append]
    exact ha.queued

/-- An answer that is queued and sent. -/
private theorem answer_inv (ha : Answering h) (status : Nat) (inRequest : Bool)
    (hkeep : inRequest = true → h.keepAlive = true) :
    Inv ⟨h.respond status, inRequest⟩ ∧
      Inv ⟨(h.addResponse status true 0).sendResponses, false⟩ := by
  have hdone : true = false ↔ 0 < 0 := by simp
  obtain ⟨hsent, hnumbered, hlen⟩ := addResponse_ok ha status hdone
  have hopen : (h.addResponse status true 0).closed = false := ha.isOpen
  obtain ⟨sent, written, closed, hsend, hs, hw, hclosed⟩ := sendResponses_ok hsent hopen
  rw [HttpHandler.respond, hsend]
  constructor
  · exact ⟨⟨hs.le, hs.written, hs.done, hs.countdown⟩, hw, hnumbered, .inl hlen, fun _ _ ↦ rfl,
      fun hin ↦ ⟨hkeep hin, ha.request⟩, fun h ↦ ⟨(hclosed.mp h).1, hlen⟩⟩
  · exact ⟨hs, hw, hnumbered, .inl hlen, fun hin ↦ (nomatch hin), fun hin ↦ (nomatch hin),
      fun h ↦ ⟨(hclosed.mp h).1, hlen⟩⟩

/-- A query that is sent to back servers. -/
private theorem started_inv (ha : Answering h) (hw : Waiting h) {countdown : Nat}
    (hpos : 0 < countdown) : Inv ⟨h.addResponse 200 false countdown, false⟩ := by
  obtain ⟨hsent, hnumbered, hlen⟩ := addResponse_ok ha 200
    (show false = false ↔ 0 < countdown by simp [hpos])
  have hopen : (h.addResponse 200 false countdown).closed = false := ha.isOpen
  refine ⟨hsent, ?_, hnumbered, .inl hlen, fun hin ↦ (nomatch hin), fun hin ↦ (nomatch hin), ?_⟩
  · intro response hr
    rw [addResponse_eq ha] at hr
    rcases List.mem_append.mp (List.mem_of_getElem? hr) with hmem | hmem
    · by_cases hlt : h.responsesSent < h.responses.length
      · dsimp only at hr
        rw [List.getElem?_append_left hlt] at hr
        exact hw _ hr
      · have hall : h.responsesSent = h.responses.length := Nat.le_antisymm ha.sent.le (by omega)
        dsimp only at hr
        rw [hall, List.getElem?_concat_length] at hr
        rw [← Option.some.inj hr]
    · rw [List.mem_singleton.mp hmem]
  · intro hclosed
    dsimp only at hclosed
    rw [hopen] at hclosed
    cases hclosed

/-! ### Each event keeps the invariant -/

variable {g : Globals} {inRequest : Bool}

/-- The headers of a request have been read, and nothing else has been done. -/
private def headers (h : HttpHandler) (request : HttpRequest) : HttpHandler :=
  { h with requests := h.requests + 1, request := some (h.requests, request),
           ignoreContents := false }

private theorem headers_answering (hI : Inv ⟨h, false⟩) (hopen : h.closed = false)
    (request : HttpRequest) : Answering (headers h request) := by
  have hqueued : h.responses.length = h.requests := by
    rcases hI.queued with hqueued | ⟨-, hin, -⟩
    · exact hqueued
    · cases hin
  refine ⟨⟨hI.sent.le, hI.sent.written, hI.sent.done, hI.sent.countdown⟩, hI.numbered, hopen, ?_,
    request, rfl⟩
  exact congrArg (· + 1) hqueued

/-- Every other path is answered at once. -/
private theorem notFound_inv {h : HttpHandler} (ha : Answering h) {requestPath : String}
    (hkeep : inRequest = true → h.keepAlive = true) :
    Inv ⟨HttpHandler.handlePathNotFound { h with requestPath := some requestPath }, inRequest⟩ :=
  have ha' : Answering { h with requestPath := some requestPath } :=
    ⟨⟨ha.sent.le, ha.sent.written, ha.sent.done, ha.sent.countdown⟩, ha.numbered, ha.isOpen,
      ha.queued, ha.request⟩
  (answer_inv ha' 404 inRequest hkeep).1

/-- Headers are handled on a connection that is to be kept. -/
private theorem channelRead_headers (hkeep : h.keepAlive = true) (request : HttpRequest)
    (outcome : QueryOutcome) : h.channelRead g (.request request) outcome =
      match request.target with
      | .malformed => (headers h request).handleMalformedUri
      | .path requestPath => HttpHandler.handleContent g
          { headers h request with requestPath } (.request request) outcome :=
  if_neg (by simp [hkeep])

/-- What follows the headers is handled on a connection that is to be kept. -/
private theorem channelRead_content (hkeep : h.keepAlive = true) {object : HttpObject}
    (hobject : object.request? = none) (outcome : QueryOutcome) :
    h.channelRead g object outcome = HttpHandler.handleContent g h object outcome := by
  rw [HttpHandler.channelRead, HttpHandler.handle, hobject]
  exact if_neg (by simp [hkeep])

private theorem request_inv (hI : Inv ⟨h, false⟩) {request : HttpRequest}
    (hkeep : h.keepAlive = true) (hopen : h.closed = false) (hpath : request.target ≠ .path none)
    (outcome : QueryOutcome) : Inv ⟨h.channelRead g (.request request) outcome, true⟩ := by
  have ha := headers_answering hI hopen request
  rw [channelRead_headers hkeep]
  obtain ⟨target, keep⟩ := request
  cases target with
  | malformed => exact (answer_inv ha 400 true fun _ ↦ hkeep).1
  | path requestPath =>
    cases requestPath with
    | none => exact absurd rfl hpath
    | some requestPath =>
      by_cases hquery : requestPath = "/query"
      · -- The contents of a query have to be read before it is answered.
        subst hquery
        refine ⟨⟨hI.sent.le, hI.sent.written, hI.sent.done, hI.sent.countdown⟩, hI.waiting,
          hI.numbered, .inr ⟨ha.queued, rfl, rfl, rfl, hopen⟩, fun _ heq ↦ ?_,
          fun _ ↦ ⟨hkeep, _, rfl⟩, fun hclosed ↦ ?_⟩
        · have hqueued : h.responses.length + 1 = h.requests + 1 := ha.queued
          have heq : h.responses.length = h.requests + 1 := heq
          omega
        · exact absurd (hopen.symm.trans hclosed) (by decide)
      · have hcontent : HttpHandler.handleContent g
            { headers h ⟨.path (some requestPath), keep⟩ with requestPath := some requestPath }
            (.request ⟨.path (some requestPath), keep⟩) outcome =
            HttpHandler.handlePathNotFound
              { headers h ⟨.path (some requestPath), keep⟩ with
                requestPath := some requestPath } := by
          simp [HttpHandler.handleContent, HttpObject.last, headers, hquery]
        dsimp only
        rw [hcontent]
        exact notFound_inv ha fun _ ↦ hkeep

/-- What the codec cannot decode is answered like an unknown path. -/
private theorem badRequest_inv (hI : Inv ⟨h, false⟩) (hkeep : h.keepAlive = true)
    (hopen : h.closed = false) (outcome : QueryOutcome) :
    Inv ⟨h.channelRead g .badRequest outcome, false⟩ := by
  have ha := headers_answering hI hopen ⟨.path (some "/bad-request"), false⟩
  have hrun : h.channelRead g .badRequest outcome = HttpHandler.handlePathNotFound
      { { headers h ⟨.path (some "/bad-request"), false⟩ with keepAlive := false } with
        requestPath := some "/bad-request" } := if_neg (by simp [hkeep])
  have ha' : Answering { headers h ⟨.path (some "/bad-request"), false⟩ with keepAlive := false } :=
    ⟨⟨ha.sent.le, ha.sent.written, ha.sent.done, ha.sent.countdown⟩, ha.numbered, ha.isOpen,
      ha.queued, ha.request⟩
  rw [hrun]
  exact notFound_inv ha' fun hin ↦ nomatch hin

/-- A content before the last one changes nothing. -/
private theorem content_eq (hI : Inv ⟨h, true⟩) (outcome : QueryOutcome) :
    h.channelRead g .content outcome = h := by
  have hkeep := (hI.current rfl).1
  dsimp only at hkeep
  rw [channelRead_content hkeep rfl, HttpHandler.handleContent]
  rcases hI.queued with hqueued | ⟨-, -, hignore, hpath, -⟩
  · have hignore := hI.ignored rfl hqueued
    dsimp only at hignore
    simp [HttpObject.last, hignore]
  · dsimp only at hignore hpath
    simp [HttpHandler.handleQuery, HttpObject.request?, HttpObject.last, hignore, hpath]

private theorem lastContent_inv (hI : Inv ⟨h, true⟩) {outcome : QueryOutcome}
    (hoc : h.Reading → outcome ≠ .threw) :
    Inv ⟨h.channelRead g .lastContent outcome, false⟩ := by
  obtain ⟨hkeep, request, hrequest⟩ := hI.current rfl
  dsimp only at hkeep hrequest
  rw [channelRead_content hkeep rfl]
  rcases hI.queued with hqueued | ⟨hqueued, -, hignore, hpath, hopen⟩
  · -- The request has been answered before.
    have hignore := hI.ignored rfl hqueued
    dsimp only at hignore
    have hrun : HttpHandler.handleContent g h .lastContent outcome =
        { h with keepAlive := request.keepAlive } := by
      rw [HttpHandler.handleContent, hrequest]
      exact if_pos hignore
    rw [hrun]
    exact ⟨⟨hI.sent.le, hI.sent.written, hI.sent.done, hI.sent.countdown⟩, hI.waiting,
      hI.numbered, .inl hqueued, fun hin ↦ (nomatch hin), fun hin ↦ (nomatch hin), hI.closed⟩
  · dsimp only at hignore hpath hopen
    have ha : Answering { h with keepAlive := request.keepAlive } :=
      ⟨⟨hI.sent.le, hI.sent.written, hI.sent.done, hI.sent.countdown⟩, hI.numbered, hopen,
        hqueued, request, hrequest⟩
    have hrun : HttpHandler.handleContent g h .lastContent outcome = HttpHandler.handleQuery g
        { h with keepAlive := request.keepAlive } .lastContent outcome := by
      rw [HttpHandler.handleContent, hrequest]
      simp [HttpObject.last, hignore, hpath]
    rw [hrun]
    cases outcome with
    | started freq ivIsEmpty =>
      apply started_inv ha hI.waiting
      have hparties := g.five_le
      rw [remoteParties]
      split
      · decide
      · split <;> omega
    | rejected => exact (answer_inv ha 200 false fun hin ↦ nomatch hin).2
    | threw =>
      have hreading : h.Reading := by
        rw [HttpHandler.Reading]
        have : h.responses.length + 1 = h.requests := hqueued
        omega
      exact absurd rfl (hoc hreading)

private theorem channelReadComplete_inv (hI : Inv ⟨h, inRequest⟩)
    (hreading : ¬ (h.Reading ∧ h.responsesSent = h.responses.length)) :
    Inv ⟨h.channelReadComplete, inRequest⟩ := by
  have hdone : Inv ⟨{ h with doneReading := true }, inRequest⟩ :=
    ⟨⟨hI.sent.le, hI.sent.written, hI.sent.done, hI.sent.countdown⟩, hI.waiting, hI.numbered,
      hI.queued, hI.ignored, hI.current, hI.closed⟩
  unfold HttpHandler.channelReadComplete
  dsimp only
  split
  · split
    · next hall =>
      -- The queue is empty, and nothing is being read.
      have hqueued : h.responses.length = h.requests := by
        rcases hI.queued with hqueued | ⟨hqueued, -⟩
        · exact hqueued
        · have hqueued : h.responses.length + 1 = h.requests := hqueued
          exact absurd ⟨show h.responses.length < h.requests by omega, hall⟩ hreading
      exact ⟨⟨hI.sent.le, hI.sent.written, hI.sent.done, hI.sent.countdown⟩, hI.waiting,
        hI.numbered, .inl hqueued, hI.ignored, hI.current, fun _ ↦ ⟨hall, hqueued⟩⟩
    · exact hdone
  · exact hdone

/-- A response that waits for back servers has not been sent. -/
private theorem pending_le (hs : Sent h) {index : Nat} {response : Response}
    (hget : h.responses[index]? = some response) (hpos : 0 < response.countdown) :
    h.responsesSent ≤ index := by
  by_contra hlt
  have hmem : response ∈ h.responses.take h.responsesSent := by
    apply List.mem_of_getElem? (i := index)
    rw [List.getElem?_take_of_lt (by omega), hget]
  have hpending := (hs.countdown response (List.mem_of_getElem? hget)).mpr hpos
  rw [hs.done response hmem] at hpending
  cases hpending

/-- What is kept when a response that has not been sent is replaced. -/
private theorem sent_set (hs : Sent h) (hn : Numbered h) {index : Nat} {response : Response}
    (hget : h.responses[index]? = some response) (hle : h.responsesSent ≤ index)
    (new : Response) (hrequest : new.request = response.request)
    (hnew : new.done = false ↔ 0 < new.countdown) :
    Sent { h with responses := h.responses.set index new } ∧
      Numbered { h with responses := h.responses.set index new } := by
  have htake : (h.responses.set index new).take h.responsesSent =
      h.responses.take h.responsesSent := List.take_set_of_le hle
  constructor
  · refine ⟨?_, ?_, ?_, ?_⟩
    · rw [List.length_set]
      exact hs.le
    · dsimp only
      rw [htake, hs.written]
    · dsimp only
      rw [htake]
      exact hs.done
    · intro r hmem
      rcases List.mem_or_eq_of_mem_set hmem with hmem | rfl
      · exact hs.countdown r hmem
      · exact hnew
  · rw [Numbered] at hn ⊢
    obtain ⟨hlt, rfl⟩ := List.getElem?_eq_some_iff.mp hget
    rw [List.map_set, List.length_set, ← hn, hrequest, ← List.map_set, List.set_getElem_self]

/-- The connection is closed after the last response, when nothing is being read. -/
private theorem closed_not_reading (hI : Inv ⟨h, inRequest⟩) {index : Nat} {response : Response}
    (hget : h.responses[index]? = some response) (hone : response.countdown = 1)
    (hmeets : ¬ (h.Reading ∧ h.doneReading = true ∧ h.Completes index)) (new : Response)
    (hdone : ∀ r ∈ h.responses.set index new, r.done = true)
    (hkeep : h.keepAlive = true → h.doneReading = true) :
    h.responses.length = h.requests := by
  rcases hI.queued with hqueued | ⟨hqueued, hin, -⟩
  · exact hqueued
  · have hqueued : h.responses.length + 1 = h.requests := hqueued
    have hcompletes : h.Completes index := by
      intro j r hr
      split
      · next hj =>
        rw [hj, hget] at hr
        rw [← Option.some.inj hr, hone]
      · next hj =>
        apply hdone r
        apply List.mem_of_getElem? (i := j)
        rw [List.getElem?_set_ne (Ne.symm hj), hr]
    have hreading : h.responses.length < h.requests := by omega
    exact absurd ⟨hreading, hkeep (hI.current hin).1, hcompletes⟩ hmeets

private theorem userEventTriggered_inv (hI : Inv ⟨h, inRequest⟩) {index : Nat}
    {response : Response} (hget : h.responses[index]? = some response)
    (hpos : 0 < response.countdown)
    (hmeets : ¬ (h.Reading ∧ h.doneReading = true ∧ h.Completes index)) :
    Inv ⟨h.userEventTriggered index, inRequest⟩ := by
  have hsent : Sent h := hI.sent
  have hnumbered : Numbered h := hI.numbered
  have hle : h.responsesSent ≤ index := pending_le hsent hget hpos
  have hlt : index < h.responses.length := (List.getElem?_eq_some_iff.mp hget).1
  have hopen : h.closed = false := by
    cases hclosed : h.closed with
    | false => rfl
    | true =>
      have hall : h.responsesSent = h.responses.length := (hI.closed hclosed).1
      omega
  have hlen (new : Response) : (h.responses.set index new).length = h.responses.length :=
    List.length_set
  unfold HttpHandler.userEventTriggered
  rw [hget]
  dsimp only
  split
  · next hzero =>
    have hone : response.countdown = 1 := by omega
    obtain ⟨hs, hn⟩ := sent_set hsent hnumbered hget hle
      ⟨response.request, response.status, true, 0⟩ rfl (by simp)
    obtain ⟨sent, written, closed, hsend, hs', hw, hclosed⟩ := sendResponses_ok hs hopen
    have hnot : closed = true → h.responses.length = h.requests := by
      intro hc
      obtain ⟨hall, hkeep⟩ := hclosed.mp hc
      refine closed_not_reading hI hget hone hmeets ⟨response.request, response.status, true, 0⟩
        (fun r hr ↦ hs'.done r ?_) hkeep
      dsimp only at hall hr ⊢
      rwa [hall, List.take_length]
    rw [hzero, hsend]
    refine ⟨hs', hw, hn, ?_, fun hin hqueued ↦ hI.ignored hin ?_, hI.current, fun hc ↦ ?_⟩
    · dsimp only
      rw [hlen]
      rcases hI.queued with hqueued | ⟨hqueued, hin, hignore, hpath, -⟩
      · exact .inl hqueued
      · refine .inr ⟨hqueued, hin, hignore, hpath, ?_⟩
        cases closed with
        | false => rfl
        | true =>
          have hqueued : h.responses.length + 1 = h.requests := hqueued
          have := hnot rfl
          omega
    · dsimp only at hqueued ⊢
      rwa [hlen] at hqueued
    · dsimp only
      rw [hlen]
      exact ⟨(hclosed.mp hc).1.trans (hlen _), hnot hc⟩
  · next hnonzero =>
    have hpending := (hI.sent.countdown response (List.mem_of_getElem? hget)).mpr hpos
    obtain ⟨hs, hn⟩ := sent_set hsent hnumbered hget hle
      ⟨response.request, response.status, response.done, response.countdown - 1⟩ rfl
      (by simp [hpending]; omega)
    refine ⟨hs, fun r hr ↦ ?_, hn, ?_, fun hin hqueued ↦ hI.ignored hin ?_, hI.current,
      fun hc ↦ ?_⟩
    · dsimp only at hr
      by_cases hnext : index = h.responsesSent
      · rw [hnext, List.getElem?_set_self (hnext ▸ hlt)] at hr
        rw [← Option.some.inj hr]
        exact hpending
      · rw [List.getElem?_set_ne hnext] at hr
        exact hI.waiting r hr
    · dsimp only
      rw [hlen]
      exact hI.queued
    · dsimp only at hqueued ⊢
      rwa [hlen] at hqueued
    · exact absurd (hopen.symm.trans hc) (by decide)

/-- Each event that meets the condition keeps the invariant. -/
theorem inv_step {c d : Connection} {event : Event} (hI : Inv c) (hstep : c.step g event = some d)
    (hmeets : Meets c event) : Inv d := by
  obtain ⟨h, inRequest⟩ := c
  cases event with
  | channelRead object outcome =>
    rw [Connection.step, Option.ite_none_left_eq_some] at hstep
    obtain ⟨hin, hd⟩ := hstep
    obtain rfl := Option.some.inj hd
    obtain ⟨hheaders, houtcome⟩ := hmeets
    cases object with
    | request request =>
      obtain rfl : inRequest = false := by simpa [HttpObject.request?] using hin
      obtain ⟨hkeep, hopen, hpath⟩ := hheaders request rfl
      exact request_inv hI hkeep hopen hpath outcome
    | badRequest =>
      obtain rfl : inRequest = false := by simpa [HttpObject.request?] using hin
      obtain ⟨hkeep, hopen, -⟩ := hheaders _ rfl
      exact badRequest_inv hI hkeep hopen outcome
    | content =>
      obtain rfl : inRequest = true := by simpa [HttpObject.request?] using hin
      dsimp only
      rw [content_eq hI]
      exact hI
    | lastContent =>
      obtain rfl : inRequest = true := by simpa [HttpObject.request?] using hin
      exact lastContent_inv hI (houtcome rfl)
  | channelReadComplete =>
    obtain rfl := Option.some.inj hstep
    exact channelReadComplete_inv hI hmeets
  | userEventTriggered index =>
    rw [Connection.step, Option.ite_none_right_eq_some] at hstep
    obtain ⟨hpos, hd⟩ := hstep
    obtain rfl := Option.some.inj hd
    cases hget : h.responses[index]? with
    | none => simp [hget] at hpos
    | some response =>
      simp [hget] at hpos
      exact userEventTriggered_inv hI hget hpos hmeets

/-! ### Every run -/

/-- After every run whose events meet the condition, the responses that have been written are
those of the first requests in order, what is missing is waited for, and the connection has not
been closed before the last response. -/
theorem requests_answered (g : Globals) {c : Connection}
    (hc : ((Connection.machine g).restrict Meets).Reachable c) : Answered c := by
  have hinv : Inv c := by
    apply hc.invariant
    · rintro _ rfl
      exact inv_new
    · intro c event d hI hstep
      exact inv_step hI hstep.1 hstep.2
  exact hinv.answered

/-- Five parties. -/
def fiveParties : Globals := ⟨5, Nat.le_refl 5⟩

/-- The headers of a query. -/
def query : HttpObject := .request ⟨.path (some "/query"), true⟩

/-- Two queries are read, and the second one is computed first. -/
def twoQueries : List Event :=
  [.channelRead query .threw, .channelRead .lastContent (.started false true),
    .channelRead query .threw, .channelRead .lastContent (.started true true),
    .channelReadComplete, .userEventTriggered 1, .userEventTriggered 0]

private theorem meets_query {c : Connection} {outcome : QueryOutcome}
    (hkeep : c.handler.keepAlive = true) (hopen : c.handler.closed = false) :
    Meets c (.channelRead query outcome) := by
  constructor
  · rintro request ⟨⟩
    exact ⟨hkeep, hopen, by simp⟩
  · intro hlast
    cases hlast

private theorem meets_lastContent {c : Connection} {freq ivIsEmpty : Bool} :
    Meets c (.channelRead .lastContent (.started freq ivIsEmpty)) :=
  ⟨fun _ h ↦ (nomatch h), fun _ _ h ↦ (nomatch h)⟩

theorem twoQueries_answered :
    ∃ c, Machine.execute (Connection.step fiveParties) ⟨.new, false⟩ twoQueries = some c ∧
      c.handler.written.map (·.request) = [0, 1] ∧ Answered c := by
  have hlt (n : Nat) : ¬ n < n := Nat.lt_irrefl n
  refine ⟨_, rfl, rfl, requests_answered fiveParties ⟨_, twoQueries, rfl, ?_⟩⟩
  exact .cons ⟨rfl, meets_query rfl rfl⟩ <| .cons ⟨rfl, meets_lastContent⟩ <|
    .cons ⟨rfl, meets_query rfl rfl⟩ <| .cons ⟨rfl, meets_lastContent⟩ <|
    .cons ⟨rfl, fun h ↦ hlt 2 h.1⟩ <| .cons ⟨rfl, fun h ↦ hlt 2 h.1⟩ <|
    .cons ⟨rfl, fun h ↦ hlt 2 h.1⟩ <| .nil _

/-- When the bytes that are read end between the headers of a query and its contents, the
connection is closed and the query is not answered. -/
theorem query_unanswered : ∃ c, (Connection.machine fiveParties).Reachable c ∧
    c.handler.closed = true ∧ c.handler.requests = 1 ∧ c.handler.written = [] ∧ ¬ Answered c := by
  have hrun : Machine.execute (Connection.step fiveParties) ⟨.new, false⟩
      [.channelRead query .threw, .channelReadComplete] = some _ := rfl
  refine ⟨_, ⟨_, _, rfl, Machine.run_of_execute hrun⟩, rfl, rfl, rfl, fun ha ↦ ?_⟩
  have hwritten := ha.closed rfl
  cases hwritten

end Safrn.Http
