import FinBert.Lib.Locks
import FinBert.Sequence.System

/-!
# The mutexes of the sequence batcher

The system of `System` with its mutexes and the program counters of its threads:
any number of clients in `Enqueue`, the reaper, and a scheduler thread for each
batcher. A thread asks for a mutex in one step, gets it in another (`acquire`), runs
a stretch of the code of `Model` while it holds what it needs, and releases.

`step_refines_system`: every step either leaves the system of `System` alone or is
one of its steps.
-/

namespace FinBert.Sequence

open FinBert.Serving Transition

/-- `SequenceBatchScheduler::mu_` and the `SequenceBatch::mu_` of each batcher. -/
inductive Mutex
  | scheduler
  | batcher (b : Nat)
deriving DecidableEq, Repr

inductive Thread
  | client (n : Nat)
  | reaper
  | scheduler (b : Nat)
deriving DecidableEq, Repr

/-- Where a client is: outside `Enqueue`, before or in the section under the scheduler
mutex, before or in the one under the batcher's. -/
inductive ClientPc
  | outside
  | waitsScheduler (header : InferRequestHeader)
  | inScheduler (header : InferRequestHeader)
  | waitsBatcher (d : Delivery)
  | inBatcher (d : Delivery)
deriving DecidableEq, Repr

/-- Where the reaper is: asleep, before or in its section under the scheduler mutex, and
there before or in `SequenceBatch::Enqueue`. -/
inductive ReaperPc
  | asleep
  | waitsScheduler
  | sweeping
  | waitsBatcher (b : Nat)
  | inBatcher (b : Nat)
deriving DecidableEq, Repr

/-- The two functions that a scheduler thread calls under its own mutex and that take
the scheduler mutex. -/
inductive NestedCall
  | delayScheduler
  | releaseBatchSlot
deriving DecidableEq, Repr

/-- Where a scheduler thread is: outside its section, before it, at its beginning, in the
loop over the slots, in a nested call before or after it has the scheduler mutex, or
about to wait for the condition variable. -/
inductive SchedulerPc
  | outside
  | waitsOwn
  | looking
  | collecting
  | waitsScheduler (call : NestedCall)
  | inScheduler (call : NestedCall)
  | leaving
deriving DecidableEq, Repr

structure Locked where
  sys : System
  owner : Mutex → Option Thread
  client : Nat → ClientPc
  reaper : ReaperPc
  scheduler : Nat → SchedulerPc

namespace Locked

def init (cfg : Config) : Locked where
  sys := .init cfg
  owner := fun _ => none
  client := fun _ => .outside
  reaper := .asleep
  scheduler := fun _ => .outside

/-- The mutex that a thread waits for. -/
def waits (s : Locked) : Thread → Option Mutex
  | .client n =>
    match s.client n with
    | .waitsScheduler _ => some .scheduler
    | .waitsBatcher d => some (.batcher d.target.batcherIdx)
    | _ => none
  | .reaper =>
    match s.reaper with
    | .waitsScheduler => some .scheduler
    | .waitsBatcher b => some (.batcher b)
    | _ => none
  | .scheduler b =>
    match s.scheduler b with
    | .waitsOwn => some (.batcher b)
    | .waitsScheduler _ => some .scheduler
    | _ => none

/-- The client is where `pc` says. -/
def setClient (s : Locked) (n : Nat) (pc : ClientPc) : Locked :=
  { s with client := Function.update s.client n pc }

def setReaper (s : Locked) (pc : ReaperPc) : Locked := { s with reaper := pc }

def setScheduler (s : Locked) (b : Nat) (pc : SchedulerPc) : Locked :=
  { s with scheduler := Function.update s.scheduler b pc }

/-- The thread goes on with the mutex it has waited for. -/
def enter (s : Locked) : Thread → Locked
  | .client n =>
    match s.client n with
    | .waitsScheduler header => s.setClient n (.inScheduler header)
    | .waitsBatcher d => s.setClient n (.inBatcher d)
    | _ => s
  | .reaper =>
    match s.reaper with
    | .waitsScheduler => s.setReaper .sweeping
    | .waitsBatcher b => s.setReaper (.inBatcher b)
    | _ => s
  | .scheduler b =>
    match s.scheduler b with
    | .waitsOwn => s.setScheduler b .looking
    | .waitsScheduler call => s.setScheduler b (.inScheduler call)
    | _ => s

/-- A thread takes a free mutex. -/
def acquire (s : Locked) (t : Thread) : Option Locked :=
  match s.waits t with
  | none => none
  | some m =>
    if s.owner m = none then
      some { s.enter t with owner := Function.update s.owner m (some t) }
    else none

def release (s : Locked) (m : Mutex) : Locked :=
  { s with owner := Function.update s.owner m none }

/-- The slot that the thread of batcher `b` collects next has an end in front. -/
def endInFront (s : Locked) (b : Nat) : Bool :=
  ((s.sys.sched.queue (s.sys.visiting b)).head?.any Payload.isEnd)

end Locked

/-- The steps of the threads: `acquire` is the only one that needs a mutex to be free. -/
inductive LockAction
  | call (n : Nat) (header : InferRequestHeader)
  | acquire (t : Thread)
  | enqueue (n : Nat) (now : Nat) (top : BatchSlot)
  | deliver (n : Nat)
  | wakeReaper
  | reapBegin (now : Nat) (order : List CorrelationId)
  | reapEntry
  | requestForceEnd
  | forceEnd
  | reapEnd
  | look (b : Nat)
  | requestDelay (b : Nat)
  | delay (b : Nat)
  | collectBegin (b : Nat)
  | collectSlot (b : Nat)
  | requestRelease (b : Nat)
  | releaseSlot (b : Nat)
  | collectEnd (b : Nat)
  | wait (b : Nat)
deriving DecidableEq, Repr

namespace Locked

/-- The locked section of a client's `Enqueue`, and `lock.unlock()`: a request that has a
slot goes on to `SequenceBatch::Enqueue`. -/
def enqueue (cfg : Config) (s : Locked) (n : Nat) (now : Nat) (top : BatchSlot) : Option Locked :=
  match s.client n with
  | .inScheduler header =>
    (s.sys.step cfg (.enqueue header now top)).map fun sys =>
      let pc :=
        match sys.inFlight.drop s.sys.inFlight.length with
        | d :: _ => .waitsBatcher d
        | [] => .outside
      { (s.release .scheduler).setClient n pc with sys := sys }
  | _ => none

/-- `SequenceBatch::Enqueue` of a client. -/
def deliver (cfg : Config) (s : Locked) (n : Nat) : Option Locked :=
  match s.client n with
  | .inBatcher d =>
    (s.sys.step cfg (.deliver (s.sys.inFlight.idxOf d))).map fun sys =>
      { (s.release (.batcher d.target.batcherIdx)).setClient n .outside with sys := sys }
  | _ => none

/-- The reaper's next entry, when it does not lead to a force-end. -/
def reapEntry (cfg : Config) (s : Locked) : Option Locked :=
  if s.reaper = .sweeping && (s.sys.sched.forceEndTarget cfg).isNone then
    (s.sys.step cfg .reapEntry).map fun sys => { s with sys := sys }
  else none

/-- The reaper calls `SequenceBatch::Enqueue` while it holds the scheduler mutex. -/
def requestForceEnd (cfg : Config) (s : Locked) : Option Locked :=
  if s.reaper = .sweeping then
    (s.sys.sched.forceEndTarget cfg).map fun target =>
      s.setReaper (.waitsBatcher target.batcherIdx)
  else none

def forceEnd (cfg : Config) (s : Locked) : Option Locked :=
  match s.reaper with
  | .inBatcher b =>
    (s.sys.step cfg .reapEntry).map fun sys =>
      { (s.release (.batcher b)).setReaper .sweeping with sys := sys }
  | _ => none

def step (cfg : Config) (s : Locked) : LockAction → Option Locked
  | .call n header =>
    if s.client n = .outside && (checkRequest cfg header).isNone then
      some (s.setClient n (.waitsScheduler header))
    else none
  | .acquire t => s.acquire t
  | .enqueue n now top => s.enqueue cfg n now top
  | .deliver n => s.deliver cfg n
  | .wakeReaper => if s.reaper = .asleep then some (s.setReaper .waitsScheduler) else none
  | .reapBegin now order =>
    if s.reaper = .sweeping then
      (s.sys.step cfg (.reapBegin now order)).map fun sys => { s with sys := sys }
    else none
  | .reapEntry => s.reapEntry cfg
  | .requestForceEnd => s.requestForceEnd cfg
  | .forceEnd => s.forceEnd cfg
  | .reapEnd =>
    if s.reaper = .sweeping then
      (s.sys.step cfg .reapEnd).map fun sys =>
        { (s.release .scheduler).setReaper .asleep with sys := sys }
    else none
  | .look b =>
    if s.scheduler b = .outside && b < cfg.runnerCnt then some (s.setScheduler b .waitsOwn)
    else none
  | .requestDelay b =>
    if s.scheduler b = .looking && 0 < (s.sys.sched.batchers b).delayCnt then
      some (s.setScheduler b (.waitsScheduler .delayScheduler))
    else none
  | .delay b =>
    if s.scheduler b = .inScheduler .delayScheduler then
      (s.sys.step cfg (.delay b)).map fun sys =>
        { (s.release .scheduler).setScheduler b .leaving with sys := sys }
    else none
  | .collectBegin b =>
    if s.scheduler b = .looking then
      (s.sys.step cfg (.collectBegin b)).map fun sys =>
        { s.setScheduler b .collecting with sys := sys }
    else none
  | .collectSlot b =>
    if s.scheduler b = .collecting && !s.endInFront b then
      (s.sys.step cfg (.collectSlot b)).map fun sys => { s with sys := sys }
    else none
  | .requestRelease b =>
    if s.scheduler b = .collecting && s.endInFront b &&
        (s.sys.sched.batchers b).pass.any fun pass => pass.slot ≤ pass.maxSlot then
      some (s.setScheduler b (.waitsScheduler .releaseBatchSlot))
    else none
  | .releaseSlot b =>
    if s.scheduler b = .inScheduler .releaseBatchSlot then
      (s.sys.step cfg (.collectSlot b)).map fun sys =>
        { (s.release .scheduler).setScheduler b .collecting with sys := sys }
    else none
  | .collectEnd b =>
    if s.scheduler b = .collecting then
      (s.sys.step cfg (.collectEnd b)).map fun sys =>
        { (s.release (.batcher b)).setScheduler b .outside with sys := sys }
    else none
  | .wait b =>
    if s.scheduler b = .leaving ||
        (s.scheduler b = .looking && (s.sys.sched.batchers b).delayCnt = 0 &&
          (s.sys.sched.collectBegin b).isNone) then
      some ((s.release (.batcher b)).setScheduler b .outside)
    else none

variable {cfg : Config} {s s' : Locked}

/-- Every step leaves the system alone or is one of its steps. -/
theorem step_refines_system {a : LockAction} (h : s.step cfg a = some s') :
    s'.sys = s.sys ∨ ∃ a', s.sys.step cfg a' = some s'.sys := by
  cases a with
  | acquire t =>
    refine .inl ?_
    simp only [step, acquire] at h
    split at h
    · cases h
    · split at h
      · obtain rfl := Option.some.inj h
        unfold enter
        split <;> split <;> rfl
      · cases h
  | call n header | wakeReaper | look b | requestDelay b | requestRelease b | wait b =>
    simp only [step] at h
    split at h
    · exact .inl (Option.some.inj h ▸ rfl)
    · cases h
  | requestForceEnd =>
    simp only [step, requestForceEnd] at h
    split at h
    · obtain ⟨target, -, rfl⟩ := Option.map_eq_some_iff.mp h
      exact .inl rfl
    · cases h
  | _ =>
    simp only [step, enqueue, deliver, reapEntry, forceEnd] at h
    split at h
    all_goals first
      | cases h
      | (obtain ⟨sys, hsys, rfl⟩ := Option.map_eq_some_iff.mp h; exact .inr ⟨_, hsys⟩)

end Locked

end FinBert.Sequence
