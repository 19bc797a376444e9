import FinBert.Repository.Handles
import FinBert.Repository.Readiness

/-!
# The server from its start to its stop

`InferenceServer` (`server.cc`) over the repository manager: the requests that its handlers work
on, and `Stop`, which unloads every model and waits until no version is live and no request is
counted. `InferenceServer.step` interleaves the thread of `main`, which polls the repository and
then calls `Stop`, with the threads of the life cycle and with the handlers, one locked section or
one access to an atomic variable at a time.

A handler reads `ready_state_` before it counts its request, so at the moment at which `Stop`
reads the counter a request can be past the one and not yet at the other. For inference the
reference to the backend, which is taken before and dropped behind both, closes the gap.

* `HandledRequest`: a request, with the handle that it keeps alive.
* `InferenceServer.stepped`: all that a step can do.
-/

namespace FinBert.Repository

open FinBert.Serving Transition

/-! ## What `Stop` asks the life cycle -/

/-- The versions that `GetLiveBackendStates` goes through. -/
def BackendLifeCycle.versions (s : BackendLifeCycle) : List (String × Int) :=
  s.map.entries.flatMap fun m => m.2.entries.map fun e => (m.1, e.1)

/-- A step of a thread of the life cycle, not of the holder of a handle. -/
def Event.byThread : Event → Bool
  | .copyConfig _ => true
  | .create _ _ => true
  | .onDestroy _ => true
  | _ => false

/-- What the holder of a reference does when it drops it. An entry never has two handles that
are referenced. -/
def Entry.dropEvent (e : Entry) : Event := if e.handle.isSome then .drop else .dropReleased 0

/-! ## Requests -/

/-- The handler that a request is for. -/
inductive RequestKind
  | infer (name : String) (version : Int)
  | health
  | profile
  | status
deriving DecidableEq

namespace RequestKind

/-- The version whose handle the request needs. -/
def backend : RequestKind → Option (String × Int)
  | .infer name version => some (name, version)
  | _ => none

/-- The check of `ready_state_` with which the handler begins. -/
def passes (readyState : ServerReadyState) : RequestKind → Bool
  | .infer _ _ => readyState = .ready
  | .health => readyState ≠ .exiting
  | .profile => readyState = .ready
  | .status => readyState ≠ .exiting

end RequestKind

/-- How far a handler has come. -/
inductive HandlerState
  /-- A request for inference has the handle that `InferBackendHandle::Create` has got for it. -/
  | accepted
  /-- `ready_state_` has been read. -/
  | passed
  /-- The `ScopedAtomicIncrement` has been made. -/
  | inflight
  /-- The request is to be answered with an error, and has not been counted. -/
  | refused
  | answered
deriving DecidableEq

/-- Nothing more is done with the backend. -/
def HandlerState.ended : HandlerState → Bool
  | .refused => true
  | .answered => true
  | _ => false

/-- A request. `handle` is the version whose handle is kept alive for it, by the call of the
handler, by the function that completes it or by an ensemble that it is a step of. -/
structure HandledRequest where
  kind : RequestKind
  state : HandlerState := .accepted
  handle : Option (String × Int) := kind.backend
  counted : Bool := false
deriving DecidableEq

/-! ## The server -/

/-- How far `Stop` has come.

* `unloading`: `UnloadAllModels`, with the models that are left.
* `waiting`: the next turn of the loop, or the sleep before it.
* `scanning`: `GetLiveBackendStates` holds `map_mtx_`, with the versions that are left and the
  live ones among the others.
* `scanned`: it has returned. -/
inductive StopPhase
  | notCalled
  | unloading (names : List String)
  | waiting
  | scanning (versions live : List (String × Int))
  | scanned (live : List (String × Int))
  | returned (clean : Bool)
deriving DecidableEq

/-- `map_mtx_` is locked. -/
def StopPhase.locksMap : StopPhase → Bool
  | .scanning _ _ => true
  | _ => false

/-- `InferenceServer`. -/
structure InferenceServer where
  server : Server := {}
  readyState : ServerReadyState := .ready
  inflightRequestCounter : Nat := 0
  requests : List HandledRequest := []
  exitTimeoutIters : Nat
  stop : StopPhase := .notCalled

inductive ServingAction
  /-- The thread of `main` goes on with `PollModelRepository` or with an `AsyncLoad` call, or a
  thread of the life cycle does. -/
  | server (a : ServerAction)
  /-- `Stop` is called. Its `UnloadAllModels` meets the keys of `infos_` in the order `order`. -/
  | stopBegin (order : List String)
  /-- `Stop`, up to the next point where another thread can come between. -/
  | stop
  /-- A request comes in. A search for the latest version, which takes handles and drops them
  again, is a number of requests that are refused. -/
  | accept (kind : RequestKind)
  /-- What comes before the call of the handler fails. -/
  | refuse (request : Nat)
  /-- The handler reads `ready_state_`. -/
  | check (request : Nat)
  | count (request : Nat)
  | answer (request : Nat)
  /-- The destructor of the `ScopedAtomicIncrement`. -/
  | uncount (request : Nat)
  /-- The last owner of the request's handle is destroyed. -/
  | letGo (request : Nat)

namespace InferenceServer

/-- A server behind `Init`. -/
def init (exitTimeoutSecs : Nat) : InferenceServer where
  exitTimeoutIters := exitTimeoutSecs

/-- `PollModelRepository` looks at `ready_state_`, and `main` does not call it behind `Stop`. -/
def allows (s : InferenceServer) : ServerAction → Bool
  | .poll _ => s.readyState = .ready && s.stop = .notCalled
  | .event _ _ event => event.byThread
  | _ => true

/-- What `Server.step` does to the manager and the life cycle. -/
def within (s : InferenceServer) (a : ServerAction) : Option InferenceServer :=
  (s.server.step a).map fun server => { s with server }

def setRequest (s : InferenceServer) (i : Nat) (r : HandledRequest) : InferenceServer :=
  { s with requests := s.requests.set i r }

/-- A request comes in. -/
def accept (s : InferenceServer) (kind : RequestKind) : Option InferenceServer :=
  let s := { s with requests := s.requests ++ [{ kind }] }
  match kind with
  | .infer name version =>
    if s.stop.locksMap then none else s.within (.event name version .getBackendHandle)
  | _ => some s

/-- A request drops its handle. -/
def letGo (s : InferenceServer) (i : Nat) (r : HandledRequest) : Option InferenceServer :=
  match r.handle with
  | some (name, version) =>
    match s.server.lifeCycle.entry name version with
    | some e => (s.setRequest i { r with handle := none }).within (.event name version e.dropEvent)
    | none => none
  | none => none

/-- `Stop` is called, by the thread that has come back from `PollModelRepository`. -/
def stopBegin (s : InferenceServer) (order : List String) : Option InferenceServer :=
  if s.stop = .notCalled ∧ s.server.round = [] ∧ s.server.lifeCycle.running = none ∧
      order.Perm s.server.manager.infos.keys then
    some { s with readyState := .exiting, stop := .unloading order }
  else none

/-- The rest of `Stop`. -/
def stopNext (s : InferenceServer) : Option InferenceServer :=
  match s.stop with
  | .notCalled => none
  | .unloading (name :: names) =>
    if s.server.lifeCycle.running = none then
      let call := { name := name, versions := [], config := {} }
      some { s with
        server := { s.server with lifeCycle := s.server.lifeCycle.asyncLoad call }
        stop := .unloading names }
    else none
  | .unloading [] =>
    if s.server.lifeCycle.running = none then some { s with stop := .waiting } else none
  | .waiting => some { s with stop := .scanning s.server.lifeCycle.versions [] }
  | .scanning ((name, version) :: versions) live =>
    let found := ((s.server.lifeCycle.entry name version).map Entry.live).getD false
    some { s with
      stop := .scanning versions (live ++ if found then [(name, version)] else []) }
  | .scanning [] live => some { s with stop := .scanned live }
  | .scanned live =>
    if live = [] ∧ s.inflightRequestCounter = 0 then some { s with stop := .returned true }
    else if s.exitTimeoutIters = 0 then some { s with stop := .returned false }
    else some { s with exitTimeoutIters := s.exitTimeoutIters - 1, stop := .waiting }
  | .returned _ => none

/-- One step. -/
def step (s : InferenceServer) : ServingAction → Option InferenceServer
  | .server a => if s.allows a then s.within a else none
  | .stopBegin order => s.stopBegin order
  | .stop => s.stopNext
  | .accept kind => s.accept kind
  | .refuse i => s.requests[i]?.bind fun r =>
    if r.state = .accepted then some (s.setRequest i { r with state := .refused }) else none
  | .check i => s.requests[i]?.bind fun r =>
    if r.state = .accepted then
      let state := if r.kind.passes s.readyState then .passed else .refused
      some (s.setRequest i { r with state })
    else none
  | .count i => s.requests[i]?.bind fun r =>
    if r.state = .passed then
      some { s.setRequest i { r with state := .inflight, counted := true } with
        inflightRequestCounter := s.inflightRequestCounter + 1 }
    else none
  | .answer i => s.requests[i]?.bind fun r =>
    if r.state = .inflight ∨ r.state = .refused then
      some (s.setRequest i { r with state := .answered })
    else none
  | .uncount i => s.requests[i]?.bind fun r =>
    if r.state = .answered ∧ r.counted then
      some { s.setRequest i { r with counted := false } with
        inflightRequestCounter := s.inflightRequestCounter - 1 }
    else none
  | .letGo i => s.requests[i]?.bind fun r => if r.state.ended then s.letGo i r else none

/-! ## What a step does -/

/-- What a handler does to its request, with what it adds to the counter and takes from it. -/
inductive Handled (s : InferenceServer) (r : HandledRequest) : HandledRequest → Nat → Nat → Prop
  | refused (accepted : r.state = .accepted) : Handled s r { r with state := .refused } 0 0
  | passed (accepted : r.state = .accepted) (passes : r.kind.passes s.readyState = true) :
      Handled s r { r with state := .passed } 0 0
  | counted (passed : r.state = .passed) :
      Handled s r { r with state := .inflight, counted := true } 1 0
  | answered (going : r.state = .inflight ∨ r.state = .refused) :
      Handled s r { r with state := .answered } 0 0
  | uncounted (answered : r.state = .answered) (counted : r.counted = true) :
      Handled s r { r with counted := false } 0 1

/-- What a call of `Stop` does by itself. -/
inductive Stopped (s : InferenceServer) : StopPhase → Prop
  | scan (waiting : s.stop = .waiting) : Stopped s (.scanning s.server.lifeCycle.versions [])
  | next {name : String} {version : Int} {versions live : List (String × Int)}
      (scanning : s.stop = .scanning ((name, version) :: versions) live) :
      Stopped s (.scanning versions (live ++
        if ((s.server.lifeCycle.entry name version).map Entry.live).getD false then
          [(name, version)] else []))
  | scanned {live : List (String × Int)} (scanning : s.stop = .scanning [] live) :
      Stopped s (.scanned live)
  | clean (scanned : s.stop = .scanned []) (counter : s.inflightRequestCounter = 0) :
      Stopped s (.returned true)
  | unloaded (unloading : s.stop = .unloading []) (running : s.server.lifeCycle.running = none) :
      Stopped s .waiting

/-- A step, with what it needs and what it leads to. -/
inductive Stepped (s : InferenceServer) : ServingAction → InferenceServer → Prop
  | server {a : ServerAction} {server : Server} (allowed : s.allows a = true)
      (stepped : s.server.step a = some server) : Stepped s (.server a) { s with server }
  | accepted {kind : RequestKind} (backend : kind.backend = none) :
      Stepped s (.accept kind) { s with requests := s.requests ++ [{ kind }] }
  | acceptedInfer {name : String} {version : Int} {server : Server}
      (unlocked : s.stop.locksMap = false)
      (stepped : s.server.step (.event name version .getBackendHandle) = some server) :
      Stepped s (.accept (.infer name version))
        { s with server, requests := s.requests ++ [{ kind := .infer name version }] }
  | handled {a : ServingAction} {i : Nat} {r r' : HandledRequest} {taken given : Nat}
      (request : s.requests[i]? = some r) (does : Handled s r r' taken given) :
      Stepped s a
        { s.setRequest i r' with
          inflightRequestCounter := s.inflightRequestCounter + taken - given }
  | letGo {i : Nat} {r : HandledRequest} {name : String} {version : Int} {e : Entry}
      {server : Server} (request : s.requests[i]? = some r) (ended : r.state.ended = true)
      (handle : r.handle = some (name, version))
      (entry : s.server.lifeCycle.entry name version = some e)
      (stepped : s.server.step (.event name version e.dropEvent) = some server) :
      Stepped s (.letGo i) { s.setRequest i { r with handle := none } with server }
  | exiting {order : List String} (notCalled : s.stop = .notCalled) (round : s.server.round = [])
      (running : s.server.lifeCycle.running = none)
      (perm : order.Perm s.server.manager.infos.keys) :
      Stepped s (.stopBegin order) { s with readyState := .exiting, stop := .unloading order }
  | unload {name : String} {names : List String} (unloading : s.stop = .unloading (name :: names))
      (running : s.server.lifeCycle.running = none) :
      Stepped s .stop
        { s with
          server := { s.server with
            lifeCycle := s.server.lifeCycle.asyncLoad
              { name := name, versions := [], config := {} } }
          stop := .unloading names }
  | stop {phase : StopPhase} (stopped : Stopped s phase) : Stepped s .stop { s with stop := phase }
  | failed {live : List (String × Int)} (scanned : s.stop = .scanned live)
      (iters : s.exitTimeoutIters = 0) (busy : live ≠ [] ∨ s.inflightRequestCounter ≠ 0) :
      Stepped s .stop { s with stop := .returned false }
  | sleep {live : List (String × Int)} (scanned : s.stop = .scanned live)
      (iters : s.exitTimeoutIters ≠ 0) (busy : live ≠ [] ∨ s.inflightRequestCounter ≠ 0) :
      Stepped s .stop { s with exitTimeoutIters := s.exitTimeoutIters - 1, stop := .waiting }

variable {s t : InferenceServer}

theorem within_eq_some {a : ServerAction} (h : s.within a = some t) :
    ∃ server, s.server.step a = some server ∧ t = { s with server } := by
  obtain ⟨server, hstep, rfl⟩ := Option.map_eq_some_iff.mp h
  exact ⟨server, hstep, rfl⟩

theorem stepped_accept {kind : RequestKind} (h : s.accept kind = some t) :
    Stepped s (.accept kind) t := by
  cases kind with
  | infer name version =>
    simp only [accept] at h
    split at h
    · cases h
    · next hunlocked =>
      obtain ⟨server, hstep, rfl⟩ := within_eq_some h
      exact .acceptedInfer (Bool.eq_false_iff.mpr hunlocked) hstep
  | _ =>
    obtain rfl := Option.some.inj h
    exact .accepted rfl

theorem stepped_letGo {i : Nat} {r : HandledRequest} (hr : s.requests[i]? = some r)
    (hended : r.state.ended = true) (h : s.letGo i r = some t) : Stepped s (.letGo i) t := by
  unfold letGo at h
  split at h
  · next name version hhandle =>
    split at h
    · next e he =>
      obtain ⟨server, hstep, rfl⟩ := within_eq_some h
      exact .letGo hr hended hhandle he hstep
    · cases h
  · cases h

theorem stepped_stopBegin {order : List String} (h : s.stopBegin order = some t) :
    Stepped s (.stopBegin order) t := by
  unfold stopBegin at h
  split at h
  · next hidle =>
    obtain ⟨hstop, hround, hrunning, hperm⟩ := hidle
    obtain rfl := Option.some.inj h
    exact .exiting hstop hround hrunning hperm
  · cases h

theorem stepped_stop (h : s.stopNext = some t) : Stepped s .stop t := by
  unfold stopNext at h
  split at h
  · cases h
  · next name names hstop =>
    split at h
    · next hrunning =>
      obtain rfl := Option.some.inj h
      exact .unload hstop hrunning
    · cases h
  · next hstop =>
    split at h
    · next hrunning =>
      obtain rfl := Option.some.inj h
      exact .stop (.unloaded hstop hrunning)
    · cases h
  · next hstop =>
    obtain rfl := Option.some.inj h
    exact .stop (.scan hstop)
  · next name version versions live hstop =>
    obtain rfl := Option.some.inj h
    exact .stop (.next hstop)
  · next live hstop =>
    obtain rfl := Option.some.inj h
    exact .stop (.scanned hstop)
  · next live hstop =>
    split at h
    · next hclean =>
      obtain rfl := Option.some.inj h
      exact .stop (.clean (hclean.1 ▸ hstop) hclean.2)
    · next hbusy =>
      have hbusy' := Decidable.not_and_iff_or_not.mp hbusy
      split at h
      · next hiters =>
        obtain rfl := Option.some.inj h
        exact .failed hstop hiters hbusy'
      · next hiters =>
        obtain rfl := Option.some.inj h
        exact .sleep hstop hiters hbusy'
  · cases h

/-- What a step does. -/
theorem stepped {a : ServingAction} (h : s.step a = some t) : Stepped s a t := by
  cases a with
  | server a =>
    simp only [step] at h
    split at h
    · next hallowed =>
      obtain ⟨server, hstep, rfl⟩ := within_eq_some h
      exact .server hallowed hstep
    · cases h
  | stopBegin order => exact stepped_stopBegin h
  | stop => exact stepped_stop h
  | accept kind => exact stepped_accept h
  | refuse i =>
    obtain ⟨r, hr, h⟩ := Option.bind_eq_some_iff.mp h
    split at h
    · next hstate =>
      obtain rfl := Option.some.inj h
      exact .handled hr (.refused hstate)
    · cases h
  | check i =>
    obtain ⟨r, hr, h⟩ := Option.bind_eq_some_iff.mp h
    split at h
    · next hstate =>
      obtain rfl := Option.some.inj h
      by_cases hpasses : r.kind.passes s.readyState = true
      · rw [if_pos hpasses]
        exact .handled hr (.passed hstate hpasses)
      · rw [if_neg hpasses]
        exact .handled hr (.refused hstate)
    · cases h
  | count i =>
    obtain ⟨r, hr, h⟩ := Option.bind_eq_some_iff.mp h
    split at h
    · next hstate =>
      obtain rfl := Option.some.inj h
      exact .handled hr (.counted hstate)
    · cases h
  | answer i =>
    obtain ⟨r, hr, h⟩ := Option.bind_eq_some_iff.mp h
    split at h
    · next hstate =>
      obtain rfl := Option.some.inj h
      exact .handled hr (.answered hstate)
    · cases h
  | uncount i =>
    obtain ⟨r, hr, h⟩ := Option.bind_eq_some_iff.mp h
    split at h
    · next hstate =>
      obtain rfl := Option.some.inj h
      exact .handled hr (.uncounted hstate.1 hstate.2)
    · cases h
  | letGo i =>
    obtain ⟨r, hr, h⟩ := Option.bind_eq_some_iff.mp h
    split at h
    · next hended => exact stepped_letGo hr hended h
    · cases h

end InferenceServer

end FinBert.Repository
