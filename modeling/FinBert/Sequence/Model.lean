import FinBert.Lib.UnorderedMap
import FinBert.Serving.Basic
import Mathlib.Logic.Function.Basic

/-!
# The sequence batcher

`SequenceBatchScheduler` and its `SequenceBatch` runners
(`sequence_batch_scheduler.cc`), as functions on the scheduler's state. Each
function is one stretch of code that runs without releasing a mutex:

* `enqueue`: `Enqueue` up to `lock.unlock()`;
* `SequenceBatch.enqueue`: the delivery into the chosen batcher and slot;
* `collectBegin`, `collectSlot`, `collectEnd`: a pass of a scheduler thread, cut
  at every slot, since `ReleaseBatchSlot` takes the scheduler mutex once per
  ended slot while the pass holds only its own batcher's mutex;
* `reapBegin`, `reapEntry`, `reapEnd`: a pass of the reaper, which holds the
  scheduler mutex from beginning to end and takes a batcher's mutex for every
  force-end;
* `delay`: the test branch of a scheduler thread (`DelayScheduler`).

A pass in progress is kept in the state (`CollectPass`, `ReaperPass`): it is what
its thread has in local variables while it holds the mutex. A function is `none`
where its thread would have to wait for a mutex.

The condition variables only decide when a thread looks again, so they are left
to the interleaving.
-/

namespace FinBert.Sequence

open FinBert.Serving

/-- `CorrelationID`. -/
abbrev CorrelationId := Nat

/-- `SequenceBatchScheduler::BatchSlot`. -/
structure BatchSlot where
  batcherIdx : Nat
  slot : Nat
deriving DecidableEq, Repr

/-- The `nth` stay of a correlation ID in the two maps, from the START that found
it in neither. Ghost data: the code never computes it. -/
structure Occupancy where
  correlationId : CorrelationId
  nth : Nat
deriving DecidableEq, Repr

/-- An inference request. `id` is the identity of its `Enqueue` call and
`occupancy` the stay it belongs to; both are ghost data. -/
structure Request where
  header : InferRequestHeader
  id : Nat
  occupancy : Occupancy
deriving DecidableEq, Repr

/-- `Scheduler::Payload`: a request, or the payload with null providers and a null
completion function by which the reaper ends the stay of an idle sequence. -/
inductive Payload
  | request (r : Request)
  | forceEnd (occupancy : Occupancy)
deriving DecidableEq, Repr

namespace Payload

/-- The scheduler thread takes the payload for the end of its sequence. -/
def isEnd : Payload → Bool
  | .request r => r.header.seqEnd
  | .forceEnd _ => true

def occupancy : Payload → Occupancy
  | .request r => r.occupancy
  | .forceEnd o => o

def request? : Payload → Option Request
  | .request r => some r
  | .forceEnd _ => none

end Payload

/-- The control tensors that are sent with a payload. -/
inductive Override
  | start
  | continue
  | notready
deriving DecidableEq, Repr

/-- A payload of an executed batch: a request, or a `NULLInferRequestProvider`
made from `null_request_header_`, without a completion function. -/
inductive BatchEntry
  | request (r : Request) (override : Override)
  | null (header : InferRequestHeader) (override : Override)
deriving DecidableEq, Repr

def BatchEntry.request? : BatchEntry → Option Request
  | .request r _ => some r
  | .null _ _ => none

/-- What a scheduler thread keeps while it collects a batch: the next slot to
visit, the last one, the payloads so far, and whether `max_active_slot_` has to be
adjusted. -/
structure CollectPass where
  slot : Nat
  maxSlot : Nat
  payloads : List BatchEntry
  adjustMaxActiveSlot : Bool
deriving DecidableEq, Repr

/-- `SequenceBatchScheduler::SequenceBatch`, with the debugging counter of its
thread. -/
structure SequenceBatch where
  nullRequestHeader : InferRequestHeader
  queues : Nat → List Payload
  maxActiveSlot : Int
  slotCorrelationIds : Nat → CorrelationId
  delayCnt : Nat
  pass : Option CollectPass

/-- What the reaper keeps while it goes over `correlation_id_timestamps_`: the
clock it has read, the wait computed so far and the entries left to visit. -/
structure ReaperPass where
  now : Nat
  waitMicroseconds : Nat
  todo : List CorrelationId
deriving DecidableEq, Repr

/-- The messages of the two `LOG_ERROR` lines. -/
inductive LogError
  | requestsAfterEnd (slot : Nat)
  | backlogConflict (correlationId : CorrelationId) (modelName : String)
deriving DecidableEq, Repr

def LogError.text : LogError → String
  | .requestsAfterEnd slot =>
    s!"internal: unexpected requests after sequence end in slot {slot}"
  | .backlogConflict correlationId modelName =>
    s!"internal: backlog sequence {correlationId} conflicts with in-flight sequence for model '" ++
      modelName ++ "'"

/-- What the scheduler takes from the model configuration and the environment:
`TRTSERVER_BACKLOG_DELAY_SCHEDULER` and `TRTSERVER_DELAY_SCHEDULER` are 0 unless
set. -/
structure Config where
  modelName : String
  runnerCnt : Nat
  maxBatchSize : Int
  maxSequenceIdleMicroseconds : Nat
  backlogDelayCnt : Nat := 0
  delayCnt : Nat := 0

/-- The number of slots of each batcher. -/
def Config.batchSize (cfg : Config) : Nat := (max 1 cfg.maxBatchSize).toNat

/-- `SequenceBatchScheduler`. A backlog queue is shared between `backlog_queues_`
and `sequence_to_backlog_map_`: both hold its address, `backlogs` its contents, and
`nextBacklog` is the next address `make_shared` returns. Only requests are ever put
in a backlog. `readyBatchSlots` lists the elements of the heap in no particular
order. -/
structure Scheduler where
  sequenceToBatchslotMap : UnorderedMap CorrelationId BatchSlot
  sequenceToBacklogMap : UnorderedMap CorrelationId Nat
  backlogQueues : List Nat
  backlogs : Nat → List Request
  nextBacklog : Nat
  readyBatchSlots : List BatchSlot
  correlationIdTimestamps : UnorderedMap CorrelationId Nat
  queueRequestCnts : Nat → Nat
  batchers : Nat → SequenceBatch
  reaper : Option ReaperPass
  logErrors : List LogError

/-- `SequenceBatchScheduler::Create`. -/
def Scheduler.create (cfg : Config) : Scheduler where
  sequenceToBatchslotMap := ∅
  sequenceToBacklogMap := ∅
  backlogQueues := []
  backlogs := fun _ => []
  nextBacklog := 0
  readyBatchSlots :=
    (List.range cfg.runnerCnt).flatMap fun c => (List.range cfg.batchSize).map fun b => ⟨c, b⟩
  correlationIdTimestamps := ∅
  queueRequestCnts := fun _ => 0
  batchers := fun _ =>
    { nullRequestHeader := {}
      queues := fun _ => []
      maxActiveSlot := -1
      slotCorrelationIds := fun _ => 0
      delayCnt := cfg.delayCnt
      pass := none }
  reaper := none
  logErrors := []

/-! ## Enqueue -/

/-- `BatchSlotCompare` puts the lowest slot on top of the heap; which of several
lowest ones that is, the standard leaves open. -/
def IsTop (ready : List BatchSlot) (top : BatchSlot) : Prop :=
  top ∈ ready ∧ ∀ batchSlot ∈ ready, top.slot ≤ batchSlot.slot

instance (ready : List BatchSlot) (top : BatchSlot) : Decidable (IsTop ready top) :=
  inferInstanceAs (Decidable (_ ∧ _))

/-- Where `Enqueue` has put a request, and whether that opened a new stay of its
correlation ID. -/
inductive Placement
  | rejected (status : Status)
  | backlog (queue : Nat) (opens : Bool)
  | slot (target : BatchSlot) (opens : Bool)
deriving DecidableEq, Repr

/-- The checks before the scheduler mutex is taken. -/
def checkRequest (cfg : Config) (header : InferRequestHeader) : Option Status :=
  if header.batchSize ≠ 1 then
    some ⟨.invalidArg, "inference request to model '" ++ cfg.modelName ++
      "' must specify batch-size 1 due to requirements of sequence batcher"⟩
  else if header.correlationId = 0 then
    some ⟨.invalidArg, "inference request to model '" ++ cfg.modelName ++
      "' must specify a non-zero correlation ID"⟩
  else none

/-- The error of a request that does not start a sequence and continues none. -/
def notStarted (cfg : Config) (correlationId : CorrelationId) : Status :=
  ⟨.invalidArg, s!"inference request for sequence {correlationId} to model '" ++ cfg.modelName ++
    "' must specify the START flag on the first request of the sequence"⟩

namespace Scheduler

/-- The correlation ID is in one of the two maps. -/
def knows (s : Scheduler) (c : CorrelationId) : Bool :=
  (s.sequenceToBatchslotMap.find c).isSome || (s.sequenceToBacklogMap.find c).isSome

/-- The last lines of `Enqueue` under the mutex, once the request has a slot. The
source reads the slot through a pointer to the map entry that it has just erased;
the value is the one the entry had. -/
def assignSlot (s : Scheduler) (r : Request) : Scheduler :=
  if r.header.seqEnd then
    { s with sequenceToBatchslotMap := s.sequenceToBatchslotMap.erase r.header.correlationId }
  else s

/-- Append to a backlog queue. -/
def pushBacklog (s : Scheduler) (queue : Nat) (r : Request) : Scheduler :=
  { s with backlogs := Function.update s.backlogs queue (s.backlogs queue ++ [r]) }

/-- `Enqueue` from `lock(mu_)` to `lock.unlock()`, for a request that has passed
`checkRequest`. `top` is what `ready_batch_slots_.top()` returns. -/
def enqueueLocked (cfg : Config) (s : Scheduler) (r : Request) (now : Nat) (top : BatchSlot) :
    Option (Scheduler × Placement) :=
  let c := r.header.correlationId
  if !r.header.seqStart && !s.knows c then some (s, .rejected (notStarted cfg c))
  else
    let s := { s with correlationIdTimestamps := s.correlationIdTimestamps.insert c now }
    match s.sequenceToBatchslotMap.find c, s.sequenceToBacklogMap.find c with
    | some target, _ => some (s.assignSlot r, .slot target false)
    | none, some queue =>
      let s := s.pushBacklog queue r
      if r.header.seqEnd then
        some ({ s with sequenceToBacklogMap := s.sequenceToBacklogMap.erase c },
          .backlog queue false)
      else some (s, .backlog queue false)
    | none, none =>
      if s.readyBatchSlots ≠ [] then
        if IsTop s.readyBatchSlots top then
          let s := { s with
            sequenceToBatchslotMap := s.sequenceToBatchslotMap.insert c top
            readyBatchSlots := s.readyBatchSlots.erase top }
          some (s.assignSlot r, .slot top true)
        else none
      else
        let queue := s.nextBacklog
        let s := { s with
          nextBacklog := queue + 1
          backlogQueues := s.backlogQueues ++ [queue]
          backlogs := Function.update s.backlogs queue [r] }
        if r.header.seqEnd then some (s, .backlog queue true)
        else
          some ({ s with sequenceToBacklogMap := s.sequenceToBacklogMap.insert c queue },
            .backlog queue true)

/-- `Enqueue` up to `lock.unlock()`. -/
def enqueue (cfg : Config) (s : Scheduler) (r : Request) (now : Nat) (top : BatchSlot) :
    Option (Scheduler × Placement) :=
  match checkRequest cfg r.header with
  | some status => some (s, .rejected status)
  | none => if s.reaper.isSome then none else s.enqueueLocked cfg r now top

end Scheduler

/-- `SequenceBatch::Enqueue`. -/
def SequenceBatch.enqueue (sb : SequenceBatch) (slot : Nat) (correlationId : CorrelationId)
    (p : Payload) : SequenceBatch :=
  { sb with
    nullRequestHeader :=
      if sb.maxActiveSlot = -1 then (p.request?.map (·.header)).getD sb.nullRequestHeader
      else sb.nullRequestHeader
    queues := Function.update sb.queues slot (sb.queues slot ++ [p])
    slotCorrelationIds := Function.update sb.slotCorrelationIds slot correlationId
    maxActiveSlot := max sb.maxActiveSlot slot }

namespace Scheduler

/-- Replace the state of batcher `b`. -/
def setBatcher (s : Scheduler) (b : Nat) (sb : SequenceBatch) : Scheduler :=
  { s with batchers := Function.update s.batchers b sb }

/-- The queue of a (batcher, slot) pair. -/
def queue (s : Scheduler) (batchSlot : BatchSlot) : List Payload :=
  (s.batchers batchSlot.batcherIdx).queues batchSlot.slot

/-- `batchers_[target.batcher_idx_]->Enqueue(target.slot_, ...)`, when no pass holds
the batcher's mutex. -/
def deliver (s : Scheduler) (target : BatchSlot) (c : CorrelationId) (p : Payload) :
    Option Scheduler :=
  let sb := s.batchers target.batcherIdx
  if sb.pass.isSome then none
  else some (s.setBatcher target.batcherIdx (sb.enqueue target.slot c p))

/-! ## The scheduler threads -/

/-- What `ReleaseBatchSlot` did with the slot. -/
inductive Release
  | freed
  | handedOn (queue : Nat)
deriving DecidableEq, Repr

/-- `ReleaseBatchSlot`: the scheduler, the queue of the slot afterwards, and what
became of the slot. -/
def releaseBatchSlot (cfg : Config) (s : Scheduler) (batchSlot : BatchSlot)
    (payloads : List Payload) : Scheduler × List Payload × Release :=
  match s.backlogQueues with
  | [] => ({ s with readyBatchSlots := batchSlot :: s.readyBatchSlots }, payloads, .freed)
  | queue :: rest =>
    let moved := s.backlogs queue
    let s := { s with backlogQueues := rest, backlogs := Function.update s.backlogs queue [] }
    match moved.getLast? with
    -- should never be empty
    | none => ({ s with readyBatchSlots := batchSlot :: s.readyBatchSlots }, [], .freed)
    | some last =>
      let c := last.header.correlationId
      if last.header.seqEnd then (s, moved.map .request, .handedOn queue)
      else
        let s :=
          if (s.sequenceToBatchslotMap.find c).isSome then
            { s with logErrors := s.logErrors ++ [.backlogConflict c cfg.modelName] }
          else s
        ({ s with
            sequenceToBacklogMap := s.sequenceToBacklogMap.erase c
            sequenceToBatchslotMap := s.sequenceToBatchslotMap.insert c batchSlot },
          moved.map .request, .handedOn queue)

end Scheduler

/-- The loop that looks for the largest slot below `n` that has a payload. -/
def maxSlotBelow (queues : Nat → List Payload) : Nat → Option Nat
  | 0 => none
  | n + 1 => if queues n = [] then maxSlotBelow queues n else some n

/-- The loop that lowers `max_active_slot_`: the largest slot below `n` that is
active, or -1. -/
def activeSlotBelow (slotCorrelationIds : Nat → CorrelationId) : Nat → Int
  | 0 => -1
  | n + 1 => if slotCorrelationIds n = 0 then activeSlotBelow slotCorrelationIds n else n

namespace Scheduler

/-- `DelayScheduler`, the test hook of a scheduler thread that has a `delay_cnt`,
called with the batcher's mutex held; the thread then waits and looks again. -/
def delay (cfg : Config) (s : Scheduler) (b : Nat) : Option Scheduler :=
  let sb := s.batchers b
  if sb.pass.isSome || s.reaper.isSome || sb.delayCnt = 0 then none
  else
    let cnt := (List.range cfg.batchSize).foldl (fun cnt slot => cnt + (sb.queues slot).length) 0
    let cnts := Function.update s.queueRequestCnts b cnt
    let seen := (List.range cfg.runnerCnt).foldl (fun seen c => seen + cnts c) 0
    let backlogSeen := s.backlogQueues.foldl (fun seen queue => seen + (s.backlogs queue).length) 0
    let s := { s with queueRequestCnts := cnts }
    if seen < sb.delayCnt || (cfg.backlogDelayCnt > 0 && backlogSeen < cfg.backlogDelayCnt) then
      some s
    else some (s.setBatcher b { sb with delayCnt := 0 })

/-- The thread of batcher `b` takes its mutex and finds a request to handle. -/
def collectBegin (s : Scheduler) (b : Nat) : Option Scheduler :=
  let sb := s.batchers b
  if sb.pass.isSome || sb.delayCnt > 0 then none
  else
    match maxSlotBelow sb.queues (sb.maxActiveSlot + 1).toNat with
    | none => none
    | some maxSlot =>
      some (s.setBatcher b { sb with
        pass := some
          { slot := 0, maxSlot := maxSlot, payloads := [], adjustMaxActiveSlot := false } })

/-- The entry of the batch for a slot whose queue has `front` as its first element. -/
def batchEntry (nullRequestHeader : InferRequestHeader) : Option Payload → BatchEntry
  | some (.request r) => .request r (if r.header.seqStart then .start else .continue)
  | _ => .null nullRequestHeader .notready

/-- One iteration of the loop over the slots: collect the front of the slot's queue
and, when it ends the sequence, call `ReleaseBatchSlot`, for which the scheduler
mutex must be free. Returns what was popped and what became of an ended slot. -/
def collectSlot (cfg : Config) (s : Scheduler) (b : Nat) :
    Option (Scheduler × Option Payload × Option Release) :=
  let sb := s.batchers b
  match sb.pass with
  | none => none
  | some pass =>
    if pass.maxSlot < pass.slot then none
    else
      let slot := pass.slot
      let next := { pass with
        slot := slot + 1
        payloads := pass.payloads ++ [batchEntry sb.nullRequestHeader (sb.queues slot).head?] }
      match sb.queues slot with
      | [] => some (s.setBatcher b { sb with pass := some next }, none, none)
      | p :: rest =>
        if p.isEnd then
          if s.reaper.isSome then none
          else
            let s :=
              if rest = [] then s
              else { s with logErrors := s.logErrors ++ [.requestsAfterEnd slot] }
            match s.releaseBatchSlot cfg ⟨b, slot⟩ rest with
            | (s, queue, .handedOn q) =>
              some (s.setBatcher b { sb with
                  queues := Function.update sb.queues slot queue
                  pass := some next }, some p, some (.handedOn q))
            | (s, queue, .freed) =>
              some (s.setBatcher b { sb with
                  queues := Function.update sb.queues slot queue
                  slotCorrelationIds := Function.update sb.slotCorrelationIds slot 0
                  pass := some { next with
                    adjustMaxActiveSlot :=
                      pass.adjustMaxActiveSlot || (slot : Int) == sb.maxActiveSlot } },
                some p, some .freed)
        else
          some (s.setBatcher b { sb with
            queues := Function.update sb.queues slot rest, pass := some next }, some p, none)

/-- The end of a pass: adjust `max_active_slot_`, release the mutex and run the
payloads. -/
def collectEnd (s : Scheduler) (b : Nat) : Option (Scheduler × List BatchEntry) :=
  let sb := s.batchers b
  match sb.pass with
  | none => none
  | some pass =>
    if pass.maxSlot < pass.slot then
      some (s.setBatcher b { sb with
        maxActiveSlot :=
          if pass.adjustMaxActiveSlot then
            activeSlotBelow sb.slotCorrelationIds (sb.maxActiveSlot + 1).toNat
          else sb.maxActiveSlot
        pass := none }, pass.payloads)
    else none

/-! ## The reaper -/

/-- The reaper takes the scheduler mutex, reads the clock and starts to go over
`correlation_id_timestamps_`, whose keys it meets in the order `order`. -/
def reapBegin (cfg : Config) (s : Scheduler) (now : Nat) (order : List CorrelationId) :
    Option Scheduler :=
  if s.reaper.isSome then none
  else if order.Perm s.correlationIdTimestamps.keys then
    some { s with
      reaper := some
        { now := now, waitMicroseconds := cfg.maxSequenceIdleMicroseconds, todo := order } }
  else none

/-- `remaining_microseconds`: an `int64_t` computed from `uint64_t` values, so the
difference is taken modulo 2^64 and read as a signed number. -/
def remainingMicroseconds (cfg : Config) (now timestamp : Nat) : Int :=
  Int.bmod (cfg.maxSequenceIdleMicroseconds - (now - timestamp)) 18446744073709551616

/-- `backlog_idle_wait_microseconds`. -/
def backlogIdleWaitMicroseconds : Nat := 50 * 1000

/-- The slot in which the next iteration of the reaper puts a force-end, if it does. -/
def forceEndTarget (cfg : Config) (s : Scheduler) : Option BatchSlot := do
  let pass ← s.reaper
  let c ← pass.todo.head?
  let timestamp ← s.correlationIdTimestamps.find c
  if 0 < remainingMicroseconds cfg pass.now timestamp then none
  else s.sequenceToBatchslotMap.find c

/-- One iteration of the reaper's loop. `forced` is the ghost occupancy carried by a
force-end; the second component tells the slot and correlation ID it was put in.
The source reads the slot through the iterator it has just erased. -/
def reapEntry (cfg : Config) (s : Scheduler) (forced : CorrelationId → Occupancy) :
    Option (Scheduler × Option (BatchSlot × CorrelationId)) :=
  match s.reaper with
  | none => none
  | some pass =>
    match pass.todo with
    | [] => none
    | c :: todo =>
      match s.correlationIdTimestamps.find c with
      | none => some ({ s with reaper := some { pass with todo := todo } }, none)
      | some timestamp =>
        let remaining := remainingMicroseconds cfg pass.now timestamp
        if 0 < remaining then
          some ({ s with
            reaper := some { pass with
              todo := todo
              waitMicroseconds := min pass.waitMicroseconds (remaining.toNat + 1) } }, none)
        else
          match s.sequenceToBatchslotMap.find c, s.sequenceToBacklogMap.find c with
          | some target, _ =>
            let s := { s with
              reaper := some { pass with todo := todo }
              sequenceToBatchslotMap := s.sequenceToBatchslotMap.erase c
              correlationIdTimestamps := s.correlationIdTimestamps.erase c }
            (s.deliver target c (.forceEnd (forced c))).map fun s => (s, some (target, c))
          | none, some _ =>
            some ({ s with
              reaper := some { pass with
                todo := todo
                waitMicroseconds := min pass.waitMicroseconds backlogIdleWaitMicroseconds } }, none)
          | none, none =>
            some ({ s with
              reaper := some { pass with todo := todo }
              correlationIdTimestamps := s.correlationIdTimestamps.erase c }, none)

/-- The reaper has visited every entry and goes to sleep. -/
def reapEnd (s : Scheduler) : Option Scheduler :=
  match s.reaper with
  | none => none
  | some pass => if pass.todo = [] then some { s with reaper := none } else none

end Scheduler

end FinBert.Sequence
