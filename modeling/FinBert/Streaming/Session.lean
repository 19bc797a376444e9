import FinBert.Streaming.Normal

/-!
# A stream and its client

`InferGrpcStreamContextImpl` (`request_grpc.cc`) at the one end, the stream of `Streaming.Model`
with the handler of `StreamInferContext` (`grpc_server.cc`) at the other, and gRPC between them.
The client has a user thread, whose calls are not thread-safe and follow each other, and the
thread of `AsyncTransfer`; a step of either is a critical section of `mutex_` or a call on
`stream_`.

gRPC keeps the messages of a stream in order, so that a channel is the list of what is written to
it, with the number of the messages that have been read. What it does when the connection is lost
is anything.
-/

namespace FinBert.Streaming

open Transition

/-- An `InferRequest` and the `Request` that it is sent for. -/
structure InferRequest (α : Type) where
  request : Nat
  id : Nat
  data : α
deriving DecidableEq

/-- An `InferResponse`: `meta_data().id()`, and the rest. -/
structure InferResponse (β : Type) where
  id : Nat
  body : β
deriving DecidableEq

/-- `GrpcRequestImpl`, with the inputs at the time of its `AsyncRun`. -/
structure GrpcRequest (α β : Type) where
  runIndex : Nat
  data : α
  ready : Bool := false
  /-- `grpc_response_`, with `none` for an empty message. -/
  grpcResponse : Option (InferResponse β) := none
deriving DecidableEq

/-- The user thread: in `AsyncRun` before its `Write`, or in `GetAsyncRunResults` behind
`IsRequestReady`. -/
inductive User
  | idle
  | sending (request : Nat)
  | collecting (request : Nat)
deriving DecidableEq

/-- `AsyncTransfer`: in `Read`, with a response before the critical section, or behind its loop. -/
inductive Transfer (β : Type)
  | reading
  | received (response : InferResponse β)
  | ended
deriving DecidableEq

/-- A `Request` is named by the number of its `AsyncRun`, and an execution of the server as in
`State`. -/
structure Session (α β : Type) where
  server : State := start
  /-- The `m_Response` of the completed executions, in the order of their `CompleteExecution`. -/
  answers : List (Nat × InferResponse β) := []
  /-- What the client has written to the stream. -/
  sent : List (InferRequest α) := []
  /-- How many responses the client has read. -/
  delivered : Nat := 0
  connected : Bool := true
  asyncRequestId : Nat := 1
  requests : List (GrpcRequest α β) := []
  /-- The keys and values of `ongoing_async_requests_`. -/
  ongoingAsyncRequests : List (Nat × Nat) := []
  exiting : Bool := false
  user : User := .idle
  transfer : Transfer β := .reading
  /-- What the calls of `GetAsyncRunResults` have returned. -/
  results : List (Nat × Option (InferResponse β)) := []
  /-- How many responses have not been "in the list of asynchronous requests". -/
  unexpected : Nat := 0
deriving DecidableEq

namespace Session

variable {α β : Type}

/-- `ongoing_async_requests_.find`. -/
def find (s : Session α β) (runIndex : Nat) : Option Nat :=
  (s.ongoingAsyncRequests.find? (·.1 == runIndex)).map Prod.snd

/-- The critical section of `AsyncRun`; where `emplace` fails, `AsyncRun` returns. -/
def asyncRun (s : Session α β) (data : α) : Session α β :=
  let request := s.requests.length
  let id := s.asyncRequestId
  let s : Session α β :=
    { s with
      asyncRequestId := (id + 1) % 2 ^ 64
      requests := s.requests ++ [{ runIndex := id, data := data }] }
  match s.find id with
  | some _ => s
  | none =>
    { s with
      ongoingAsyncRequests := s.ongoingAsyncRequests ++ [(id, request)]
      user := .sending request }

/-- `PreRunProcessing` and `stream_->Write`. -/
def write (s : Session α β) (request : Nat) (ok : Bool) : Session α β :=
  match s.requests[request]? with
  | some r =>
    { s with
      sent := if ok then s.sent ++ [⟨request, r.runIndex, r.data⟩] else s.sent
      user := .idle }
  | none => s

/-- Whether `IsRequestReady` lets `GetAsyncRunResults` go on. -/
def isRequestReady (s : Session α β) (request : Nat) : Bool :=
  match s.requests[request]? with
  | some r => (s.find r.runIndex).isSome && r.ready
  | none => false

/-- `GetResults`, and the critical section of `GetAsyncRunResults`. -/
def collect (s : Session α β) (request : Nat) : Session α β :=
  match s.requests[request]? with
  | some r =>
    { s with
      results := s.results ++ [(request, r.grpcResponse)]
      ongoingAsyncRequests := s.ongoingAsyncRequests.filter (·.1 != r.runIndex)
      user := .idle }
  | none => s

/-- The response that the next `Read` of the client returns: the front of the queue in the next
`Write` of the server. -/
def incoming (s : Session α β) : Option (InferResponse β) := do
  let front ← s.server.written[s.delivered]?
  let execution ← front
  (s.answers.find? (·.1 == execution)).map Prod.snd

/-- A `Read` of `AsyncTransfer` that has returned `response`. -/
def read (s : Session α β) (response : InferResponse β) : Session α β :=
  { s with
    delivered := s.delivered + 1
    transfer := if s.exiting then .reading else .received response }

/-- The critical section of `AsyncTransfer`. -/
def store (s : Session α β) (response : InferResponse β) : Session α β :=
  match s.find response.id with
  | none => { s with unexpected := s.unexpected + 1, transfer := .reading }
  | some request =>
    { s with
      requests := s.requests.modify request fun r =>
        { r with ready := true, grpcResponse := some response }
      transfer := .reading }

/-- What gRPC lets the server see: a `Read` fails behind `WritesDone`, and without a connection
both calls fail. `CompleteExecution` is a step of its own. -/
def permits (s : Session α β) : Action → Bool
  | .requestDone true => decide (s.server.reads < s.sent.length)
  | .requestDone false => !s.connected || (s.exiting && decide (s.server.reads = s.sent.length))
  | .responseDone false => !s.connected
  | .complete _ => false
  | _ => true

/-- `CompleteExecution` of an execution: its callback gives the response the id of the
request. -/
def answer (s : Session α β) (execution : Nat) (body : β) : Session α β :=
  match s.sent[execution]? with
  | some m => { s with answers := s.answers ++ [(execution, ⟨m.id, body⟩)] }
  | none => s

end Session

/-- A step of the session. -/
inductive SessionAction (α β : Type)
  /-- `AsyncRun`. -/
  | asyncRun (data : α)
  /-- Its `Write` returns. -/
  | write (ok : Bool)
  /-- `GetAsyncRunResults` finds the request ready. -/
  | isRequestReady (request : Nat)
  /-- `GetAsyncRunResults` returns. -/
  | collect
  /-- The destructor, up to `worker_.join`. -/
  | exit
  /-- `Read` of `AsyncTransfer` returns a response. -/
  | read
  /-- The critical section of `AsyncTransfer`. -/
  | store
  /-- `Read` of `AsyncTransfer` fails. -/
  | readEnd
  /-- A step of the server. -/
  | server (a : Action)
  /-- An execution of the server completes with this response. -/
  | complete (execution : Nat) (body : β)
  | disconnect

/-- The calls of `AsyncRun`. -/
def SessionAction.isAsyncRun {α β : Type} : SessionAction α β → Bool
  | .asyncRun _ => true
  | _ => false

namespace Session

variable {α β : Type}

/-- One step. -/
def step (s : Session α β) : SessionAction α β → Option (Session α β)
  | .asyncRun data => if s.user = .idle ∧ s.exiting = false then some (s.asyncRun data) else none
  | .write ok =>
    match s.user with
    | .sending request =>
      if ok = true ∨ s.connected = false then some (s.write request ok) else none
    | _ => none
  | .isRequestReady request =>
    if s.user = .idle ∧ s.exiting = false ∧ s.isRequestReady request = true then
      some { s with user := .collecting request }
    else none
  | .collect =>
    match s.user with
    | .collecting request => some (s.collect request)
    | _ => none
  | .exit => if s.user = .idle ∧ s.exiting = false then some { s with exiting := true } else none
  | .read =>
    match s.transfer with
    | .reading => s.incoming.map s.read
    | _ => none
  | .store =>
    match s.transfer with
    | .received response => some (s.store response)
    | _ => none
  | .readEnd =>
    match s.transfer with
    | .reading =>
      if s.connected = false ∨ s.server.finishes ≠ [] ∧ s.server.written.length ≤ s.delivered then
        some { s with transfer := .ended }
      else none
    | _ => none
  | .server a =>
    if s.permits a then (Streaming.step s.server a).map fun t => { s with server := t } else none
  | .complete execution body =>
    (Streaming.step s.server (.complete execution)).map fun t =>
      { s.answer execution body with server := t }
  | .disconnect => some { s with connected := false }

end Session

end FinBert.Streaming
