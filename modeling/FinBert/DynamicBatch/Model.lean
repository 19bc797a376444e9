import FinBert.Lib.Transition
import FinBert.Lib.UnorderedMap
import FinBert.Serving.Basic

/-!
# The dynamic batcher

`DynamicBatchScheduler` (`dynamic_batch_scheduler.cc`): a queue, the pending batch at
its front, which is remembered as two counters and the shapes of its inputs, and any
number of scheduler threads. `Enqueue` and one turn of a scheduler thread's loop are
what runs under the mutex; the condition variable only decides when a thread looks
again, so it is left to the interleaving.
-/

namespace FinBert.DynamicBatch

open FinBert.Serving

/-- A queued request: its header, whose batch size is a `uint32`, the time at which its
queue timer started, and the number of its `Enqueue` call, which the code never reads. -/
structure Request where
  header : InferRequestHeader
  startTimeNs : Nat
  id : Nat := 0
  batchSize_lt : header.batchSize < 4294967296
deriving DecidableEq

/-- `ModelDynamicBatching`, as `ValidateModelConfig` admits it: preferred sizes are
positive `int32` values. -/
structure DynamicBatching where
  preferredBatchSize : List Int
  maxQueueDelayMicroseconds : Nat
  preferred_pos : ∀ size ∈ preferredBatchSize, 0 < size ∧ size < 2147483648

/-- What the scheduler takes from the model configuration and the environment. -/
structure Config where
  dynamicBatching : Option DynamicBatching
  inputDims : List (List Int)
  runnerCnt : Nat
  delayCnt : Nat := 0

namespace Config

def dynamicBatchingEnabled (cfg : Config) : Bool := cfg.dynamicBatching.isSome

def preferredBatchSizes (cfg : Config) : List Int :=
  (cfg.dynamicBatching.map (·.preferredBatchSize)).getD []

def maxPreferredBatchSize (cfg : Config) : Nat :=
  cfg.preferredBatchSizes.foldl (fun largest size => max largest size.toNat) 0

/-- `pending_batch_delay_ns_`, a `uint64`. -/
def pendingBatchDelayNs (cfg : Config) : Nat :=
  (cfg.dynamicBatching.map (·.maxQueueDelayMicroseconds)).getD 0 * 1000 % 18446744073709551616

/-- The shape of an input of the model can vary. -/
def needPendingShape (cfg : Config) : Bool :=
  cfg.inputDims.any fun dims => getElementCount dims == -1

end Config

/-- `DynamicBatchScheduler`. -/
structure Scheduler where
  queue : List Request
  pendingBatchSize : Nat
  pendingBatchQueueCnt : Nat
  pendingBatchShapes : UnorderedMap String (List Int)
  idleSchedulerThreadCnt : Nat

def Scheduler.create : Scheduler where
  queue := []
  pendingBatchSize := 0
  pendingBatchQueueCnt := 0
  pendingBatchShapes := ∅
  idleSchedulerThreadCnt := 0

/-- `Enqueue`, with the test whether to wake a runner. -/
def Scheduler.enqueue (s : Scheduler) (r : Request) : Scheduler × Bool :=
  ({ s with queue := s.queue ++ [r] }, 0 < s.idleSchedulerThreadCnt)

/-! ## The pending batch -/

/-- `InitPendingShape`. -/
def initPendingShape (request : InferRequestHeader) : UnorderedMap String (List Int) :=
  request.input.foldl (fun shapes input =>
    if (shapes.find input.name).isSome then shapes else shapes.insert input.name input.dims) ∅

/-- `CompareWithPendingShape`. -/
def compareWithPendingShape (shapes : UnorderedMap String (List Int))
    (request : InferRequestHeader) : Bool :=
  request.input.all fun input =>
    match shapes.find input.name with
    | none => false
    | some dims => compareDims dims input.dims

/-- A sum of two `size_t` values. -/
def addSize (a b : Nat) : Nat := (a + b) % 18446744073709551616

/-- The `int32` value as which a `size_t` is looked up in `preferred_batch_sizes_`. -/
def toInt32 (size : Nat) : Int := Int.bmod size 4294967296

/-- The local variables of the loop in `GetDynamicBatch`, and the shapes. -/
structure Search where
  sendNow : Bool := false
  bestPreferredBatchSize : Nat := 0
  bestPreferredBatchCnt : Nat := 0
  searchBatchSize : Nat
  searchBatchCnt : Nat
  shapes : UnorderedMap String (List Int)

/-- The request joins the batch. -/
def Search.extend (cfg : Config) (a : Search) (r : Request) : Search :=
  let size := addSize a.searchBatchSize r.header.batchSize
  let cnt := a.searchBatchCnt + 1
  let a := { a with searchBatchSize := size, searchBatchCnt := cnt }
  if toInt32 size ∈ cfg.preferredBatchSizes then
    { a with bestPreferredBatchSize := size, bestPreferredBatchCnt := cnt }
  else a

/-- The loop of `GetDynamicBatch` over the requests behind the pending batch. -/
def search (cfg : Config) : List Request → Search → Search
  | [], a => a
  | r :: rest, a =>
    if a.searchBatchCnt = 0 then
      let shapes := if cfg.needPendingShape then initPendingShape r.header else a.shapes
      search cfg rest (Search.extend cfg { a with shapes := shapes } r)
    else if cfg.maxPreferredBatchSize < addSize a.searchBatchSize r.header.batchSize then
      { a with sendNow := true }
    else if cfg.needPendingShape && !compareWithPendingShape a.shapes r.header then
      { a with sendNow := true }
    else search cfg rest (a.extend cfg r)

/-- `delay_ns`, a `uint64`. -/
def delayNs (now startTimeNs : Nat) : Nat :=
  (((now : Int) - startTimeNs) % 18446744073709551616).toNat

namespace Scheduler

/-- `GetDynamicBatch`, called with a nonempty queue: the microseconds to wait, 0 to send the
pending batch. -/
def getDynamicBatch (cfg : Config) (s : Scheduler) (now : Nat) : Scheduler × Nat :=
  let found := search cfg (s.queue.drop s.pendingBatchQueueCnt)
    { searchBatchSize := s.pendingBatchSize
      searchBatchCnt := s.pendingBatchQueueCnt
      shapes := s.pendingBatchShapes }
  if found.bestPreferredBatchSize ≠ 0 then
    ({ s with
        pendingBatchSize := found.bestPreferredBatchSize
        pendingBatchQueueCnt := found.bestPreferredBatchCnt
        pendingBatchShapes := found.shapes }, 0)
  else
    let s := { s with
      pendingBatchSize := found.searchBatchSize
      pendingBatchQueueCnt := found.searchBatchCnt
      pendingBatchShapes := found.shapes }
    -- should always have at least one request in the pending batch
    if s.pendingBatchQueueCnt = 0 then (s, 0)
    else if found.sendNow || cfg.pendingBatchDelayNs = 0 ||
        cfg.maxPreferredBatchSize ≤ s.pendingBatchSize then (s, 0)
    else
      let delay := delayNs now ((s.queue.head?.map (·.startTimeNs)).getD 0)
      if cfg.pendingBatchDelayNs ≤ delay then (s, 0)
      else (s, (cfg.pendingBatchDelayNs - delay) / 1000)

end Scheduler

/-! ## The scheduler threads -/

/-- What one turn of a scheduler thread's loop does under the mutex: the payloads to
execute, whether to wake another thread, and how long to wait. -/
structure Turn where
  sched : Scheduler
  delayCnt : Nat
  payloads : List Request := []
  wakeThread : Bool := false
  waitMicroseconds : Nat := 0

namespace Scheduler

/-- The section of `SchedulerThread` under the mutex, for a thread with `delay_cnt`. -/
def schedulerThread (cfg : Config) (s : Scheduler) (delayCnt now : Nat) : Turn :=
  if 0 < delayCnt then
    { sched := s
      delayCnt := if delayCnt ≤ s.queue.length then 0 else delayCnt
      waitMicroseconds := 10 * 1000 }
  else
    match s.queue with
    | [] => { sched := s, delayCnt := delayCnt, waitMicroseconds := 500 * 1000 }
    | front :: rest =>
      if cfg.dynamicBatchingEnabled then
        match s.getDynamicBatch cfg now with
        | (s, 0) =>
          let queue := s.queue.drop s.pendingBatchQueueCnt
          { sched :=
              { s with
                queue := queue
                pendingBatchSize := 0
                pendingBatchQueueCnt := 0
                pendingBatchShapes := ∅ }
            delayCnt := delayCnt
            payloads := s.queue.take s.pendingBatchQueueCnt
            wakeThread := queue ≠ [] && 0 < s.idleSchedulerThreadCnt }
        | (s, wait + 1) => { sched := s, delayCnt := delayCnt, waitMicroseconds := wait + 1 }
      else { sched := { s with queue := rest }, delayCnt := delayCnt, payloads := [front] }

end Scheduler

/-! ## The system -/

/-- A scheduler thread: its debugging counter, and whether it waits on the condition
variable. -/
structure Thread where
  delayCnt : Nat
  waiting : Bool

/-- The scheduler and its threads, with a history: the requests in the order of their
`Enqueue` calls, and the payload lists in the order in which they were taken. -/
structure System where
  sched : Scheduler
  threads : Nat → Thread
  enqueued : List Request
  dispatched : List (List Request)

def System.init (cfg : Config) : System where
  sched := .create
  threads := fun _ => { delayCnt := cfg.delayCnt, waiting := false }
  enqueued := []
  dispatched := []

/-- `schedule` carries what the clock returns; a waiting thread wakes up at any time. -/
inductive Action
  | enqueue (r : Request)
  | schedule (thread now : Nat)
  | wakeUp (thread : Nat)
deriving DecidableEq

namespace System

/-- A client's `Enqueue`. -/
def enqueue (s : System) (r : Request) : System :=
  let r := { r with id := s.enqueued.length }
  { s with sched := (s.sched.enqueue r).1, enqueued := s.enqueued ++ [r] }

/-- A turn of a scheduler thread up to the end of its section or to its wait. -/
def schedule (cfg : Config) (s : System) (n now : Nat) : System :=
  let turn := s.sched.schedulerThread cfg (s.threads n).delayCnt now
  let waits := decide (0 < turn.waitMicroseconds)
  { s with
    sched :=
      { turn.sched with
        idleSchedulerThreadCnt := turn.sched.idleSchedulerThreadCnt + waits.toNat }
    threads := Function.update s.threads n { delayCnt := turn.delayCnt, waiting := waits }
    dispatched := if turn.payloads = [] then s.dispatched else s.dispatched ++ [turn.payloads] }

def step (cfg : Config) (s : System) : Action → Option System
  | .enqueue r => some (s.enqueue r)
  | .schedule n now =>
    if n < cfg.runnerCnt && !(s.threads n).waiting then some (s.schedule cfg n now) else none
  | .wakeUp n =>
    if (s.threads n).waiting then
      some { s with
        sched := { s.sched with idleSchedulerThreadCnt := s.sched.idleSchedulerThreadCnt - 1 }
        threads := Function.update s.threads n { s.threads n with waiting := false } }
    else none

section
variable {cfg : Config} {s s' : System} {n : Nat}

theorem step_schedule {now : Nat} (h : s.step cfg (.schedule n now) = some s') :
    (n < cfg.runnerCnt ∧ (s.threads n).waiting = false) ∧ s' = s.schedule cfg n now := by
  unfold step at h
  dsimp only at h
  split at h
  · next hguard => exact ⟨by simpa using hguard, (Option.some.inj h).symm⟩
  · cases h

theorem step_wakeUp (h : s.step cfg (.wakeUp n) = some s') :
    (s.threads n).waiting = true ∧ s' = { s with
      sched := { s.sched with idleSchedulerThreadCnt := s.sched.idleSchedulerThreadCnt - 1 }
      threads := Function.update s.threads n { s.threads n with waiting := false } } := by
  unfold step at h
  dsimp only at h
  split at h
  · next hguard => exact ⟨hguard, (Option.some.inj h).symm⟩
  · cases h

end

end System

end FinBert.DynamicBatch
