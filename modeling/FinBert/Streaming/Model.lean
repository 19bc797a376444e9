import FinBert.Lib.Transition

/-!
# One bidirectional stream

`BidirectionalStreamingLifeCycle` (`BidirectionalStreamingLifeCycle.h`), from the `Read` that
`StateInitializedDone` issues up to the calls of `Finish`; what `Reset` does afterwards belongs
to the next stream. A step is one critical section of `m_QueueMutex`, or one of the calls of the
stream that stand outside of it, so that the threads that complete executions interleave with
each other and with the handlers of the completion queue at every such point.
-/

namespace FinBert.Streaming

/-- The handlers that `m_NextState` points to after `StateInitializedDone`. -/
inductive NextState
  | requestDone
  | responseDone
  | finishedDone
deriving DecidableEq

/-- The side of the stream that reads: a `Read` is outstanding, `StateRequestDone` is in
`ExecuteRPC`, or a `Read` has failed. -/
inductive Reader
  | reading
  | executing
  | ended
deriving DecidableEq

/-- What a thread has still to do behind a critical section. -/
inductive Task
  /-- `Write` of the front of the queue. -/
  | write
  /-- `FinishResponse`, before its critical section. -/
  | finish
  /-- `Finish` in `FinishResponse`. -/
  | finishOk
  /-- `CancelResponse`, before its critical section, and then `Write` if `shouldWrite`. -/
  | cancel (shouldWrite : Bool)
  /-- `Finish` in `CancelResponse`, and then `Write` if `shouldWrite`. -/
  | finishCancelled (shouldWrite : Bool)
deriving DecidableEq

/-- A call on `m_ReaderWriter`, a `Write` with the execution whose response is at the front of the
queue. -/
inductive Call
  | write (front : Option Nat)
  | finish (ok : Bool)
deriving DecidableEq

/-- The executions are numbered in the order in which their requests are read. -/
structure State where
  nextState : NextState := .requestDone
  liveContexts : List Nat := []
  writeBackQueue : List Nat := []
  reader : Reader := .reading
  /-- How many requests have been read. -/
  reads : Nat := 0
  /-- `Write` calls whose completion is outstanding. -/
  outstanding : Nat := 0
  tasks : List Task := []
  /-- The executions in the order of the critical sections of their `CompleteExecution`. -/
  completed : List Nat := []
  /-- The calls of `Write` and `Finish`, in order. -/
  calls : List Call := []
deriving DecidableEq

namespace State

/-- A thread goes on with `task`. -/
def spawn (s : State) (task : Task) : State := { s with tasks := s.tasks ++ [task] }

/-- A call on `m_ReaderWriter`. -/
def call (s : State) (c : Call) : State := { s with calls := s.calls ++ [c] }

/-- The `Write` behind `should_write`. -/
def writeIf (s : State) (shouldWrite : Bool) : State := if shouldWrite then s.spawn .write else s

/-- `StateRequestDone`, up to the call of `ExecuteRPC`. -/
def stateRequestDone (s : State) (ok : Bool) : State :=
  if ok then
    { s with
      liveContexts := s.liveContexts ++ [s.reads]
      reads := s.reads + 1
      reader := .executing }
  else if !s.liveContexts.isEmpty || !s.writeBackQueue.isEmpty then
    { s with
      reader := .ended
      nextState := if s.nextState = .requestDone then .responseDone else s.nextState }
  else { s with reader := .ended }.spawn .finish

/-- The critical section of `CompleteExecution`. -/
def completeExecution (s : State) (execution : Nat) : State :=
  let found := s.liveContexts.contains execution
  let shouldWrite := found && s.writeBackQueue.isEmpty
  let shouldCancel := !found || s.nextState = .finishedDone
  let s := { s with completed := s.completed ++ [execution] }
  let s :=
    if found then
      { s with
        writeBackQueue := s.writeBackQueue ++ [execution]
        liveContexts := s.liveContexts.erase execution }
    else s
  if shouldCancel then s.spawn (.cancel shouldWrite) else s.writeIf shouldWrite

/-- `StateResponseDone`, up to the calls behind its critical section. -/
def stateResponseDone (s : State) (ok : Bool) : State :=
  if !ok then s.spawn (.cancel false)
  else
    let s := { s with writeBackQueue := s.writeBackQueue.tail }
    let shouldWrite := !s.writeBackQueue.isEmpty
    let shouldFinish := !shouldWrite && s.liveContexts.isEmpty && s.nextState = .responseDone
    if shouldFinish then s.spawn .finish else s.writeIf shouldWrite

/-- The next critical section or call of a task. -/
def run (s : State) : Task → State
  | .write =>
    { s with outstanding := s.outstanding + 1 }.call (.write s.writeBackQueue.head?)
  | .finish => { s with nextState := .finishedDone }.spawn .finishOk
  | .finishOk => s.call (.finish true)
  | .cancel shouldWrite =>
    let resetReady := s.liveContexts.isEmpty
    let s := { s with nextState := .finishedDone }
    if resetReady then s.spawn (.finishCancelled shouldWrite) else s.writeIf shouldWrite
  | .finishCancelled shouldWrite =>
    (s.call (.finish false)).writeIf shouldWrite

end State

inductive Action
  /-- The outstanding `Read` returns. -/
  | requestDone (ok : Bool)
  /-- `ExecuteRPC` returns, and the next `Read` is issued. -/
  | nextRead
  /-- `CompleteExecution` of an execution. -/
  | complete (execution : Nat)
  /-- An outstanding `Write` returns. -/
  | responseDone (ok : Bool)
  /-- The thread of the task at this position goes on. -/
  | run (position : Nat)
deriving DecidableEq

/-- One step. `CompleteExecution` is called once for every request, from its `ExecuteRPC` on. -/
def step (s : State) : Action → Option State
  | .requestDone ok => if s.reader = .reading then some (s.stateRequestDone ok) else none
  | .nextRead => if s.reader = .executing then some { s with reader := .reading } else none
  | .complete execution =>
    if execution < s.reads ∧ execution ∉ s.completed then some (s.completeExecution execution)
    else none
  | .responseDone ok =>
    if s.outstanding = 0 then none
    else some ({ s with outstanding := s.outstanding - 1 }.stateResponseDone ok)
  | .run position =>
    s.tasks[position]?.map fun task => { s with tasks := s.tasks.eraseIdx position }.run task

/-- The stream after `StateInitializedDone`. -/
def start : State := {}

/-- The front of the queue that is passed to `Write`. -/
def Call.written : Call → Option (Option Nat)
  | .write front => some front
  | .finish _ => none

/-- Whether `Finish` is called with the status `OK`. -/
def Call.finished : Call → Option Bool
  | .write _ => none
  | .finish ok => some ok

/-- What is passed to `Write`, in order. -/
def State.written (s : State) : List (Option Nat) := s.calls.filterMap Call.written

/-- The calls of `Finish`, in order. -/
def State.finishes (s : State) : List Bool := s.calls.filterMap Call.finished

end FinBert.Streaming
