import Safrn.Base.Machine

/-!
# The HTTP handler of the front server

Models `FrontServerHttpHandler.java:271-440,1040-1103,1110-1126` and the parts of
`FrontServerHttpHandler.java:450-1036,1338-1395` that queue a response. The codec in front of the
handler hands it the headers of a request, its contents and the last of them; between two such
objects the bytes that have been read may be used up, which is a call of `channelReadComplete`. An
exception that leaves `channelRead` is only reported. What is done to a closed channel has no
effect.
-/

namespace Safrn.Http

open Safrn.Base

/-- The number of parties, of which the configuration requires at least five. -/
structure Globals where
  partyCount : Nat
  five_le : 5 ≤ partyCount

/-! ### Requests and responses -/

/-- What `new URI` makes of a request's target: an exception, or the path of the URI, which is a
null reference for an opaque one. -/
inductive Target
  | malformed
  | path (requestPath : Option String)
  deriving DecidableEq

/-- The headers of a request; `keepAlive` is `HttpUtil.isKeepAlive`. -/
structure HttpRequest where
  target : Target
  keepAlive : Bool
  deriving DecidableEq

/-- What the codec hands on. For bytes that it cannot decode this is a whole request in one
object. -/
inductive HttpObject
  | request (request : HttpRequest)
  | content
  | lastContent
  | badRequest
  deriving DecidableEq

namespace HttpObject

/-- `(HttpRequest)object`, if it is one. -/
def request? : HttpObject → Option HttpRequest
  | request r => some r
  | content => none
  | lastContent => none
  | badRequest => some ⟨.path (some "/bad-request"), false⟩

/-- `object instanceof LastHttpContent`. -/
def last : HttpObject → Bool
  | request _ => false
  | content => false
  | lastContent => true
  | badRequest => true

end HttpObject

/-- What comes of a query: it is sent to back servers, is answered with an error, or there is an
exception. -/
inductive QueryOutcome
  | started (freq ivIsEmpty : Bool)
  | rejected
  | threw
  deriving DecidableEq

/-- `remoteParties.size()`. -/
def remoteParties (g : Globals) (freq ivIsEmpty : Bool) : Nat :=
  if ivIsEmpty then 1 else if freq then g.partyCount - 2 else g.partyCount - 1

/-- A response, and the number of the request that it was made for. -/
structure Response where
  request : Nat
  status : Nat
  done : Bool
  countdown : Nat
  deriving DecidableEq

/-- The fields of the handler; the number of requests whose headers have been read; and the
channel. The entries of `responses` that have been sent, which the source sets to null, are
kept. -/
structure HttpHandler where
  doneReading : Bool
  ignoreContents : Bool
  keepAlive : Bool
  request : Option (Nat × HttpRequest)
  requestPath : Option String
  responses : List Response
  responsesSent : Nat
  requests : Nat
  written : List Response
  closed : Bool
  deriving DecidableEq

namespace HttpHandler

/-- The constructor. -/
def new : HttpHandler where
  doneReading := false
  ignoreContents := false
  keepAlive := true
  request := none
  requestPath := none
  responses := []
  responsesSent := 0
  requests := 0
  written := []
  closed := false

/-! ### Sending -/

/-- `ctx.writeAndFlush(response.response)`. -/
def writeAndFlush (h : HttpHandler) (response : Response) : HttpHandler :=
  if h.closed then h else { h with written := h.written ++ [response] }

/-- `close`. -/
def close (h : HttpHandler) : HttpHandler := { h with closed := true }

/-- The loop of `sendResponses` over at most `n` responses, and whether it has sent all. -/
def sendLoop : Nat → HttpHandler → Bool × HttpHandler
  | 0, h => (true, h)
  | n + 1, h =>
    match h.responses[h.responsesSent]? with
    | none => (true, h)
    | some response =>
      if !response.done then (false, h)
      else sendLoop n { h.writeAndFlush response with responsesSent := h.responsesSent + 1 }

/-- `sendResponses`. -/
def sendResponses (h : HttpHandler) : HttpHandler :=
  let (sent, h) := sendLoop (h.responses.length - h.responsesSent) h
  if !sent then h
  else if h.keepAlive then
    if h.doneReading then h.close else h
  else h.close

/-- `this.responses.add` of a response to `this.request`. -/
def addResponse (h : HttpHandler) (status : Nat) (done : Bool) (countdown : Nat) : HttpHandler :=
  let request := (h.request.map Prod.fst).getD 0
  { h with responses := h.responses ++ [⟨request, status, done, countdown⟩] }

/-- Answer a request and ignore its contents. -/
def respond (h : HttpHandler) (status : Nat) : HttpHandler :=
  { (h.addResponse status true 0).sendResponses with ignoreContents := true }

/-! ### Events -/

/-- `handleMalformedUri`. -/
def handleMalformedUri (h : HttpHandler) : HttpHandler := h.respond 400

/-- `handlePathNotFound`. -/
def handlePathNotFound (h : HttpHandler) : HttpHandler := h.respond 404

/-- `handleQuery`. -/
def handleQuery (g : Globals) (h : HttpHandler) (object : HttpObject) (outcome : QueryOutcome) :
    HttpHandler :=
  if object.request?.isSome then h
  else if object.last then
    match outcome with
    | .started freq ivIsEmpty => h.addResponse 200 false (remoteParties g freq ivIsEmpty)
    | .rejected => (h.addResponse 200 true 0).sendResponses
    | .threw => h
  else h

/-- The second half of `handle`. -/
def handleContent (g : Globals) (h : HttpHandler) (object : HttpObject)
    (outcome : QueryOutcome) : HttpHandler :=
  let h :=
    if object.last then { h with keepAlive := (h.request.map (·.2.keepAlive)).getD true } else h
  if h.ignoreContents then h
  else
    match h.requestPath with
    | none => h
    | some requestPath =>
      if requestPath = "/query" then handleQuery g h object outcome else h.handlePathNotFound

/-- `handle`. -/
def handle (g : Globals) (h : HttpHandler) (object : HttpObject) (outcome : QueryOutcome) :
    HttpHandler :=
  if !h.keepAlive then h
  else
    match object.request? with
    | none => handleContent g h object outcome
    | some request =>
      let h := { h with request := some (h.requests - 1, request), ignoreContents := false }
      match request.target with
      | .malformed => h.handleMalformedUri
      | .path requestPath => handleContent g { h with requestPath } object outcome

/-- `channelRead`. -/
def channelRead (g : Globals) (h : HttpHandler) (object : HttpObject) (outcome : QueryOutcome) :
    HttpHandler :=
  let requests := if object.request?.isSome then h.requests + 1 else h.requests
  handle g { h with requests } object outcome

/-- `channelReadComplete`. -/
def channelReadComplete (h : HttpHandler) : HttpHandler :=
  let h := { h with doneReading := true }
  if h.keepAlive then
    if h.responsesSent = h.responses.length then h.close else h
  else h

/-- `userEventTriggered` with the summands of one back server. -/
def userEventTriggered (h : HttpHandler) (index : Nat) : HttpHandler :=
  match h.responses[index]? with
  | none => h
  | some response =>
    let countdown := response.countdown - 1
    if countdown = 0 then
      { h with
        responses := h.responses.set index { response with done := true, countdown } }.sendResponses
    else { h with responses := h.responses.set index { response with countdown } }

end HttpHandler

/-! ### Connections -/

/-- What happens on a connection. -/
inductive Event
  | channelRead (object : HttpObject) (outcome : QueryOutcome)
  | channelReadComplete
  | userEventTriggered (index : Nat)
  deriving DecidableEq

/-- A connection; `inRequest` while the codec has handed on the headers of a request but not yet
its last content. -/
structure Connection where
  handler : HttpHandler
  inRequest : Bool
  deriving DecidableEq

namespace Connection

variable (g : Globals)

/-- One event. The codec hands on one request after the other, and each back server answers a
query once. -/
def step (c : Connection) : Event → Option Connection
  | .channelRead object outcome =>
    if object.request?.isSome = c.inRequest then none
    else some ⟨c.handler.channelRead g object outcome, !object.last⟩
  | .channelReadComplete => some { c with handler := c.handler.channelReadComplete }
  | .userEventTriggered index =>
    if 0 < ((c.handler.responses[index]?).map (·.countdown)).getD 0 then
      some { c with handler := c.handler.userEventTriggered index }
    else none

/-- A new connection and what happens on it. -/
def machine : Machine Connection Event := .ofStep (· = ⟨.new, false⟩) (step g)

end Connection
end Safrn.Http
