import FinBert.Lib.Transition
import FinBert.Sequence.Steps

/-!
# The sequence batcher as a system

The scheduler together with the client calls that are between `lock.unlock()` and
`SequenceBatch::Enqueue` (`inFlight`), and a history that no function of the code
reads: which requests were accepted, which stay of a correlation ID each slot is
in, what has passed through its queue since, which requests were put in a batch,
and which batches were executed.

* `step`: one actor runs one stretch of code between two mutex operations.
* `atomicStep`: the same actors, with every `Enqueue` call run to its end at once.
-/

namespace FinBert.Sequence

open FinBert.Serving

/-- Where the requests of an occupancy are kept: collected in a backlog queue, sent
to a slot, or, once its end has been collected there, in no queue. -/
inductive Place
  | backlog (queue : Nat)
  | slot (batchSlot : BatchSlot)
  | done (batchSlot : BatchSlot)
deriving DecidableEq, Repr

/-- A request put in a batch: the pass and the slot that collected it, and who had
the slot at that moment. -/
structure Dispatch where
  batchSlot : BatchSlot
  pass : Nat
  request : Request
  occupant : Option Occupancy
  free : Bool
deriving DecidableEq, Repr

/-- The payloads handed to `OnSchedule_` at the end of a pass. -/
structure Execution where
  batcherIdx : Nat
  pass : Nat
  payloads : List BatchEntry
deriving DecidableEq, Repr

/-- A client call that has been assigned a slot and has not delivered its request. -/
structure Delivery where
  target : BatchSlot
  request : Request
deriving DecidableEq, Repr

structure History where
  opened : CorrelationId → Nat
  accepted : List Request
  occupant : BatchSlot → Option Occupancy
  place : Occupancy → Option Place
  passed : BatchSlot → List Payload
  passes : Nat → Nat
  dispatched : List Dispatch
  executed : List Execution

structure System where
  sched : Scheduler
  inFlight : List Delivery
  history : History

def System.init (cfg : Config) : System where
  sched := .create cfg
  inFlight := []
  history :=
    { opened := fun _ => 0
      accepted := []
      occupant := fun _ => none
      place := fun _ => none
      passed := fun _ => []
      passes := fun _ => 0
      dispatched := []
      executed := [] }

namespace History

/-- The stay that a request of `c` belongs to. -/
def occupancyOf (h : History) (s : Scheduler) (c : CorrelationId) : Occupancy :=
  ⟨c, if s.knows c then h.opened c else h.opened c + 1⟩

/-- Give a request its identity and its stay. -/
def stamp (h : History) (s : Scheduler) (header : InferRequestHeader) : Request :=
  ⟨header, h.accepted.length, h.occupancyOf s header.correlationId⟩

/-- A new stay begins. -/
def start (h : History) (o : Occupancy) (place : Place) : History :=
  { h with
    opened := Function.update h.opened o.correlationId o.nth
    place := Function.update h.place o (some place) }

/-- The slot is handed to `o`, whose first requests are `payloads`. -/
def enter (h : History) (batchSlot : BatchSlot) (o : Occupancy) (payloads : List Payload) :
    History :=
  { h with
    occupant := Function.update h.occupant batchSlot (some o)
    place := Function.update h.place o (some (.slot batchSlot))
    passed := Function.update h.passed batchSlot payloads }

/-- The stay that has the slot ends. -/
def leave (h : History) (batchSlot : BatchSlot) : History :=
  { h with
    occupant := Function.update h.occupant batchSlot none
    place :=
      match h.occupant batchSlot with
      | some o => Function.update h.place o (some (.done batchSlot))
      | none => h.place
    passed := Function.update h.passed batchSlot [] }

def accept (h : History) (r : Request) : Placement → History
  | .rejected _ => h
  | .backlog queue opens =>
    let h := { h with accepted := h.accepted ++ [r] }
    if opens then h.start r.occupancy (.backlog queue) else h
  | .slot target opens =>
    let h := { h with accepted := h.accepted ++ [r] }
    if opens then (h.start r.occupancy (.slot target)).enter target r.occupancy [] else h

def deliver (h : History) (target : BatchSlot) (p : Payload) : History :=
  { h with passed := Function.update h.passed target (h.passed target ++ [p]) }

/-- `popped` was collected from the slot. -/
def dispatch (h : History) (s : Scheduler) (batchSlot : BatchSlot) (popped : Option Payload) :
    History :=
  match popped.bind Payload.request? with
  | none => h
  | some r =>
    { h with
      dispatched := h.dispatched ++
        [{ batchSlot := batchSlot
           pass := h.passes batchSlot.batcherIdx
           request := r
           occupant := h.occupant batchSlot
           free := batchSlot ∈ s.readyBatchSlots }] }

/-- `ReleaseBatchSlot` was called for the slot in the state `s`. -/
def release (h : History) (s : Scheduler) (batchSlot : BatchSlot) :
    Option Scheduler.Release → History
  | none => h
  | some .freed => h.leave batchSlot
  | some (.handedOn queue) =>
    match (s.backlogs queue).head? with
    | none => h.leave batchSlot
    | some first =>
      (h.leave batchSlot).enter batchSlot first.occupancy ((s.backlogs queue).map .request)

end History

/-- The actors' steps. `enqueue` carries what the clock and the heap return,
`deliver` the position of the call in `inFlight`. -/
inductive Action
  | enqueue (header : InferRequestHeader) (now : Nat) (top : BatchSlot)
  | deliver (call : Nat)
  | delay (batcher : Nat)
  | collectBegin (batcher : Nat)
  | collectSlot (batcher : Nat)
  | collectEnd (batcher : Nat)
  | reapBegin (now : Nat) (order : List CorrelationId)
  | reapEntry
  | reapEnd
deriving DecidableEq, Repr

namespace System

/-- The locked section of a client's `Enqueue`. -/
def enqueue (cfg : Config) (s : System) (header : InferRequestHeader) (now : Nat)
    (top : BatchSlot) : Option System :=
  let r := s.history.stamp s.sched header
  (s.sched.enqueue cfg r now top).map fun (sched, placement) =>
    { sched := sched
      inFlight :=
        match placement with
        | .slot target _ => s.inFlight ++ [⟨target, r⟩]
        | _ => s.inFlight
      history := s.history.accept r placement }

/-- The delivery of a client's request. -/
def deliver (s : System) (call : Nat) : Option System :=
  match s.inFlight[call]? with
  | none => none
  | some d =>
    (s.sched.deliver d.target d.request.header.correlationId (.request d.request)).map fun sched =>
      { sched := sched
        inFlight := s.inFlight.eraseIdx call
        history := s.history.deliver d.target (.request d.request) }

theorem deliver_eq_some {s s' : System} {call : Nat} (h : s.deliver call = some s') :
    ∃ d sched, s.inFlight[call]? = some d ∧
      s.sched.deliver d.target d.request.header.correlationId (.request d.request) = some sched ∧
      s' =
        { sched := sched
          inFlight := s.inFlight.eraseIdx call
          history := s.history.deliver d.target (.request d.request) } := by
  unfold deliver at h
  split at h
  · cases h
  · next d hd =>
    obtain ⟨sched, hsched, rfl⟩ := Option.map_eq_some_iff.mp h
    exact ⟨d, sched, hd, hsched, rfl⟩

/-- The slot that the pass of batcher `b` visits next. -/
def visiting (s : System) (b : Nat) : BatchSlot :=
  ⟨b, ((s.sched.batchers b).pass.map (·.slot)).getD 0⟩

def collectBegin (s : System) (b : Nat) : Option System :=
  (s.sched.collectBegin b).map fun sched =>
    { s with
      sched := sched
      history :=
        { s.history with passes := Function.update s.history.passes b (s.history.passes b + 1) } }

def collectSlot (cfg : Config) (s : System) (b : Nat) : Option System :=
  (s.sched.collectSlot cfg b).map fun (sched, popped, released) =>
    { s with
      sched := sched
      history :=
        (s.history.dispatch s.sched (s.visiting b) popped).release s.sched (s.visiting b) released }

def collectEnd (s : System) (b : Nat) : Option System :=
  (s.sched.collectEnd b).map fun (sched, payloads) =>
    { s with
      sched := sched
      history :=
        { s.history with
          executed := s.history.executed ++ [⟨b, s.history.passes b, payloads⟩] } }

def reapEntry (cfg : Config) (s : System) : Option System :=
  (s.sched.reapEntry cfg fun c => ⟨c, s.history.opened c⟩).map fun (sched, forced) =>
    { s with
      sched := sched
      history :=
        match forced with
        | none => s.history
        | some (target, c) => s.history.deliver target (.forceEnd ⟨c, s.history.opened c⟩) }

/-- One step of one actor. -/
def step (cfg : Config) (s : System) : Action → Option System
  | .enqueue header now top => s.enqueue cfg header now top
  | .deliver call => s.deliver call
  | .delay b => (s.sched.delay cfg b).map fun sched => { s with sched := sched }
  | .collectBegin b => s.collectBegin b
  | .collectSlot b => s.collectSlot cfg b
  | .collectEnd b => s.collectEnd b
  | .reapBegin now order =>
    (s.sched.reapBegin cfg now order).map fun sched => { s with sched := sched }
  | .reapEntry => s.reapEntry cfg
  | .reapEnd => s.sched.reapEnd.map fun sched => { s with sched := sched }

/-- A step of the system in which `Enqueue` is atomic: a call that is assigned a
slot delivers its request in the same step. -/
def atomicStep (cfg : Config) (s : System) : Action → Option System
  | .enqueue header now top =>
    (s.step cfg (.enqueue header now top)).bind fun s' =>
      if s'.inFlight = [] then some s' else s'.step cfg (.deliver 0)
  | .deliver _ => none
  | a => s.step cfg a

/-- Of the calls on their way the oldest is delivered first. -/
def oldestFirst : Action → Bool
  | .deliver call => call = 0
  | _ => true

/-- No end of a sequence, a request with the END flag or a force-end of the reaper,
is put in the queue of a slot while another request assigned to that slot is still
on its way. -/
def endComesLast (cfg : Config) (s : System) : Action → Bool
  | .deliver call =>
    match s.inFlight[call]? with
    | none => true
    | some d =>
      !d.request.header.seqEnd || (s.inFlight.eraseIdx call).all fun d' => d'.target ≠ d.target
  | .reapEntry =>
    match s.sched.forceEndTarget cfg with
    | none => true
    | some target => s.inFlight.all fun d => d.target ≠ target
  | _ => true

end System

open Transition

/-- The states of the runs in which every end comes last. -/
abbrev ReachableInOrder (cfg : Config) : System → Prop :=
  ReachableWhen (System.step cfg) (fun s a => s.endComesLast cfg a = true) (.init cfg)

/-- The states of the runs in which every `Enqueue` is atomic. -/
abbrev ReachableAtomic (cfg : Config) : System → Prop :=
  Reachable (System.atomicStep cfg) (.init cfg)

end FinBert.Sequence
