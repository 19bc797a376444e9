import FinBert.Sequence.Model

/-!
# What the steps of the scheduler do

For every stretch of code in `Model`, one lemma with the guard under which it runs and the state
that it leaves. What a pass does to a slot is the relation `Visited`, with one rule for each way
through the loop of `SchedulerThread`; what `ReleaseBatchSlot` leaves alone is `Released`.
-/

namespace FinBert.Sequence

namespace Scheduler

variable {cfg : Config} {s s' : Scheduler} {b : Nat}

theorem delay_eq_some (h : s.delay cfg b = some s') :
    ((s.batchers b).pass = none ∧ s.reaper = none ∧ (s.batchers b).delayCnt ≠ 0) ∧
      ∃ cnts, s' = { s with queueRequestCnts := cnts } ∨
        s' = Scheduler.setBatcher { s with queueRequestCnts := cnts } b
          { s.batchers b with delayCnt := 0 } := by
  unfold delay at h
  dsimp only at h
  split at h
  · cases h
  · next hguard =>
    refine ⟨by simpa [and_assoc] using hguard, ?_⟩
    split at h
    · exact ⟨_, .inl (Option.some.inj h).symm⟩
    · exact ⟨_, .inr (Option.some.inj h).symm⟩

theorem collectBegin_eq_some (h : s.collectBegin b = some s') :
    ((s.batchers b).pass = none ∧ (s.batchers b).delayCnt = 0) ∧
      ∃ maxSlot, maxSlotBelow (s.batchers b).queues
          ((s.batchers b).maxActiveSlot + 1).toNat = some maxSlot ∧
        s' = s.setBatcher b { s.batchers b with
          pass := some
            { slot := 0, maxSlot := maxSlot, payloads := [], adjustMaxActiveSlot := false } } := by
  unfold collectBegin at h
  dsimp only at h
  split at h
  · cases h
  · next hguard =>
    split at h
    · cases h
    · next maxSlot hmax =>
      exact ⟨by simpa using hguard, maxSlot, hmax, (Option.some.inj h).symm⟩

/-- The ways through the part of `Enqueue` that holds the mutex, `t` being the scheduler behind the
line that records the time. -/
inductive Enqueued (s t : Scheduler) (r : Request) : Scheduler → Placement → Prop
  | rejected (status : Serving.Status) (unknown : s.knows r.header.correlationId = false) :
      Enqueued s t r s (.rejected status)
  | continueSlot {target : BatchSlot}
      (slot : s.sequenceToBatchslotMap.find r.header.correlationId = some target) :
      Enqueued s t r (t.assignSlot r) (.slot target false)
  | continueBacklog {queue : Nat}
      (slot : s.sequenceToBatchslotMap.find r.header.correlationId = none)
      (backlog : s.sequenceToBacklogMap.find r.header.correlationId = some queue) :
      Enqueued s t r
        { t.pushBacklog queue r with
          sequenceToBacklogMap :=
            if r.header.seqEnd then s.sequenceToBacklogMap.erase r.header.correlationId
            else s.sequenceToBacklogMap } (.backlog queue false)
  | openSlot {top : BatchSlot} (slot : s.sequenceToBatchslotMap.find r.header.correlationId = none)
      (backlog : s.sequenceToBacklogMap.find r.header.correlationId = none)
      (isTop : IsTop s.readyBatchSlots top) :
      Enqueued s t r
        (Scheduler.assignSlot { t with
          sequenceToBatchslotMap := s.sequenceToBatchslotMap.insert r.header.correlationId top
          readyBatchSlots := s.readyBatchSlots.erase top } r) (.slot top true)
  | openBacklog (slot : s.sequenceToBatchslotMap.find r.header.correlationId = none)
      (backlog : s.sequenceToBacklogMap.find r.header.correlationId = none)
      (full : s.readyBatchSlots = []) :
      Enqueued s t r
        { t with
          nextBacklog := s.nextBacklog + 1
          backlogQueues := s.backlogQueues ++ [s.nextBacklog]
          backlogs := Function.update s.backlogs s.nextBacklog [r]
          sequenceToBacklogMap :=
            if r.header.seqEnd then s.sequenceToBacklogMap
            else s.sequenceToBacklogMap.insert r.header.correlationId s.nextBacklog }
        (.backlog s.nextBacklog true)

theorem batchers_assignSlot {r : Request} : (s.assignSlot r).batchers = s.batchers := by
  unfold assignSlot
  split <;> rfl

/-- The scheduler when `Enqueue` has recorded the time of the request. -/
def stampTime (s : Scheduler) (r : Request) (now : Nat) : Scheduler :=
  { s with
    correlationIdTimestamps := s.correlationIdTimestamps.insert r.header.correlationId now }

theorem enqueueLocked_eq_some {r : Request} {now : Nat} {top : BatchSlot} {placement : Placement}
    (h : s.enqueueLocked cfg r now top = some (s', placement)) :
    Enqueued s (s.stampTime r now) r s' placement := by
  unfold enqueueLocked at h
  dsimp only at h
  split at h
  · next hunknown =>
    cases h
    exact .rejected _ (by simpa using (Bool.and_eq_true_iff.mp hunknown).2)
  · split at h
    · next target _ hslot =>
      cases h
      exact .continueSlot hslot
    · next queue hslot hbacklog =>
      have hput := Enqueued.continueBacklog (t := s.stampTime r now) hslot hbacklog
      split at h
      · next hend =>
        cases h
        rw [if_pos hend] at hput
        exact hput
      · next hend =>
        cases h
        rw [if_neg hend] at hput
        exact hput
    · next hslot hbacklog =>
      split at h
      · split at h
        · next htop =>
          cases h
          exact .openSlot hslot hbacklog htop
        · cases h
      · next hfull =>
        have hput := Enqueued.openBacklog (t := s.stampTime r now) hslot hbacklog
          (not_not.mp hfull)
        split at h
        · next hend =>
          cases h
          rw [if_pos hend] at hput
          exact hput
        · next hend =>
          cases h
          rw [if_neg hend] at hput
          exact hput

/-- `Enqueue` rejects the request without a look at the scheduler, or goes one of its ways. -/
theorem enqueue_eq_some {r : Request} {now : Nat} {top : BatchSlot} {placement : Placement}
    (h : s.enqueue cfg r now top = some (s', placement)) :
    (s' = s ∧ ∃ status, checkRequest cfg r.header = some status ∧ placement = .rejected status) ∨
      (checkRequest cfg r.header = none ∧ s.reaper = none ∧
        Enqueued s (s.stampTime r now) r s' placement) := by
  unfold enqueue at h
  split at h
  · next status hcheck =>
    cases h
    exact .inl ⟨rfl, status, hcheck, rfl⟩
  · next hcheck =>
    split at h
    · cases h
    · next hfree =>
      exact .inr ⟨hcheck, Option.not_isSome_iff_eq_none.mp hfree, enqueueLocked_eq_some h⟩

/-- `ReleaseBatchSlot` hands the slot on to the first backlog queue, or it makes it ready. -/
structure Released (s s' : Scheduler) (batchSlot : BatchSlot) (payloads queue : List Payload) :
    Prop where
  batchers : s'.batchers = s.batchers
  reaper : s'.reaper = s.reaper
  backlogQueues : s'.backlogQueues = s.backlogQueues.tail
  queue : queue =
    match s.backlogQueues with
    | [] => payloads
    | backlog :: _ => (s.backlogs backlog).map .request
  readyBatchSlots : s'.readyBatchSlots = s.readyBatchSlots ∨
    s'.readyBatchSlots = batchSlot :: s.readyBatchSlots
  sequenceToBatchslotMap : s'.sequenceToBatchslotMap = s.sequenceToBatchslotMap ∨
    ∃ c, s'.sequenceToBatchslotMap = s.sequenceToBatchslotMap.insert c batchSlot

theorem released_of_releaseBatchSlot {batchSlot : BatchSlot} {payloads queue : List Payload}
    {release : Release} (h : s.releaseBatchSlot cfg batchSlot payloads = (s', queue, release)) :
    Released s s' batchSlot payloads queue := by
  unfold releaseBatchSlot at h
  split at h
  · next hnil =>
    cases h
    exact ⟨rfl, rfl, by rw [hnil]; rfl, by rw [hnil], .inr rfl, .inl rfl⟩
  · next backlog rest hcons =>
    dsimp only at h
    split at h
    · next hnone =>
      cases h
      refine ⟨rfl, rfl, by rw [hcons]; rfl, ?_, .inr rfl, .inl rfl⟩
      rw [hcons]
      show [] = (s.backlogs backlog).map Payload.request
      rw [List.getLast?_eq_none_iff.mp hnone, List.map_nil]
    · next last hlast =>
      split at h
      · cases h
        exact ⟨rfl, rfl, by rw [hcons]; rfl, by rw [hcons], .inl rfl, .inl rfl⟩
      · cases h
        refine ⟨?_, ?_, ?_, by rw [hcons], .inl ?_, .inr ⟨last.header.correlationId, ?_⟩⟩
        all_goals
          dsimp only
          split
        all_goals first
          | rfl
          | rw [hcons, List.tail_cons]

/-- The pass behind the visit of its slot. -/
def nextPass (sb : SequenceBatch) (pass : CollectPass) : CollectPass :=
  { pass with
    slot := pass.slot + 1
    payloads :=
      pass.payloads ++ [batchEntry sb.nullRequestHeader (sb.queues pass.slot).head?] }

/-- What the visit of a slot does: nothing is in its queue, its front is collected, or the front
ends the sequence and `ReleaseBatchSlot` hands the slot on or frees it. -/
inductive Visited (cfg : Config) (s : Scheduler) (b : Nat) (pass : CollectPass) :
    Scheduler → Option Payload → Option Release → Prop
  | empty (queue : (s.batchers b).queues pass.slot = []) :
      Visited cfg s b pass
        (s.setBatcher b { s.batchers b with pass := some (nextPass (s.batchers b) pass) })
        none none
  | collected {p : Payload} {rest : List Payload}
      (queue : (s.batchers b).queues pass.slot = p :: rest) (goesOn : p.isEnd = false) :
      Visited cfg s b pass
        (s.setBatcher b { s.batchers b with
          queues := Function.update (s.batchers b).queues pass.slot rest
          pass := some (nextPass (s.batchers b) pass) }) (some p) none
  | handedOn {p : Payload} {rest queue' : List Payload} {errors : List LogError}
      {s₁ : Scheduler} {q : Nat} (queue : (s.batchers b).queues pass.slot = p :: rest)
      (ends : p.isEnd = true) (free : s.reaper = none)
      (log : errors =
        if rest = [] then s.logErrors else s.logErrors ++ [.requestsAfterEnd pass.slot])
      (release : Scheduler.releaseBatchSlot cfg { s with logErrors := errors } ⟨b, pass.slot⟩ rest =
        (s₁, queue', .handedOn q)) :
      Visited cfg s b pass
        (s₁.setBatcher b { s.batchers b with
          queues := Function.update (s.batchers b).queues pass.slot queue'
          pass := some (nextPass (s.batchers b) pass) }) (some p) (some (.handedOn q))
  | freed {p : Payload} {rest queue' : List Payload} {errors : List LogError} {s₁ : Scheduler}
      (queue : (s.batchers b).queues pass.slot = p :: rest) (ends : p.isEnd = true)
      (free : s.reaper = none)
      (log : errors =
        if rest = [] then s.logErrors else s.logErrors ++ [.requestsAfterEnd pass.slot])
      (release : Scheduler.releaseBatchSlot cfg { s with logErrors := errors } ⟨b, pass.slot⟩ rest =
        (s₁, queue', .freed)) :
      Visited cfg s b pass
        (s₁.setBatcher b { s.batchers b with
          queues := Function.update (s.batchers b).queues pass.slot queue'
          slotCorrelationIds := Function.update (s.batchers b).slotCorrelationIds pass.slot 0
          pass := some { nextPass (s.batchers b) pass with
            adjustMaxActiveSlot := pass.adjustMaxActiveSlot ||
              (pass.slot : Int) == (s.batchers b).maxActiveSlot } }) (some p) (some .freed)

theorem collectSlot_eq_some {popped : Option Payload} {released : Option Release}
    (h : s.collectSlot cfg b = some (s', popped, released)) :
    ∃ pass, (s.batchers b).pass = some pass ∧ pass.slot ≤ pass.maxSlot ∧
      Visited cfg s b pass s' popped released := by
  unfold collectSlot at h
  dsimp only at h
  split at h
  · cases h
  · next pass hpass =>
    split at h
    · cases h
    · next hmore =>
      refine ⟨pass, hpass, Nat.le_of_not_lt hmore, ?_⟩
      split at h
      · next hempty =>
        cases h
        exact .empty hempty
      · next p rest hqueue =>
        split at h
        · next hend =>
          split at h
          · cases h
          · next hfree =>
            have hfree' := Option.not_isSome_iff_eq_none.mp hfree
            have hlog : (if rest = [] then s
                else { s with logErrors := s.logErrors ++ [.requestsAfterEnd pass.slot] }) =
                { s with logErrors := if rest = [] then s.logErrors
                  else s.logErrors ++ [.requestsAfterEnd pass.slot] } := by
              split <;> rfl
            rw [hlog] at h
            split at h
            · next hrelease =>
              cases h
              exact .handedOn hqueue hend hfree' rfl hrelease
            · next hrelease =>
              cases h
              exact .freed hqueue hend hfree' rfl hrelease
        · next hend =>
          cases h
          exact .collected hqueue (Bool.eq_false_iff.mpr hend)

theorem collectEnd_eq_some {payloads : List BatchEntry}
    (h : s.collectEnd b = some (s', payloads)) :
    ∃ pass, (s.batchers b).pass = some pass ∧ pass.maxSlot < pass.slot ∧
      payloads = pass.payloads ∧
      s' = s.setBatcher b { s.batchers b with
        maxActiveSlot :=
          if pass.adjustMaxActiveSlot then
            activeSlotBelow (s.batchers b).slotCorrelationIds
              ((s.batchers b).maxActiveSlot + 1).toNat
          else (s.batchers b).maxActiveSlot
        pass := none } := by
  unfold collectEnd at h
  dsimp only at h
  split at h
  · cases h
  · next pass hpass =>
    split at h
    · next hdone =>
      obtain ⟨rfl, rfl⟩ := Prod.mk.inj (Option.some.inj h)
      exact ⟨pass, hpass, hdone, rfl, rfl⟩
    · cases h

theorem reapBegin_eq_some {now : Nat} {order : List CorrelationId}
    (h : s.reapBegin cfg now order = some s') :
    (s.reaper = none ∧ order.Perm s.correlationIdTimestamps.keys) ∧
      s' = { s with
        reaper := some
          { now := now, waitMicroseconds := cfg.maxSequenceIdleMicroseconds, todo := order } } := by
  unfold reapBegin at h
  split at h
  · cases h
  · next hfree =>
    split at h
    · next hperm =>
      exact ⟨⟨by simpa using hfree, hperm⟩, (Option.some.inj h).symm⟩
    · cases h

/-- The ways through the reaper's loop for the correlation ID `c`: it has no time, it is not idle,
it is idle and has a slot, which gets a force-end, it is idle in the backlog, or its time is
stale. -/
inductive Reaped (cfg : Config) (s : Scheduler) (pass : ReaperPass) (c : CorrelationId)
    (todo : List CorrelationId) (forced : CorrelationId → Occupancy) :
    Scheduler → Option (BatchSlot × CorrelationId) → Prop
  | unstamped (time : s.correlationIdTimestamps.find c = none) :
      Reaped cfg s pass c todo forced { s with reaper := some { pass with todo := todo } } none
  | fresh {timestamp : Nat} (time : s.correlationIdTimestamps.find c = some timestamp)
      (early : 0 < remainingMicroseconds cfg pass.now timestamp) :
      Reaped cfg s pass c todo forced
        { s with
          reaper := some { pass with
            todo := todo
            waitMicroseconds := min pass.waitMicroseconds
              ((remainingMicroseconds cfg pass.now timestamp).toNat + 1) } } none
  | forced {timestamp : Nat} {target : BatchSlot} {s' : Scheduler}
      (time : s.correlationIdTimestamps.find c = some timestamp)
      (idle : ¬ 0 < remainingMicroseconds cfg pass.now timestamp)
      (slot : s.sequenceToBatchslotMap.find c = some target)
      (put : Scheduler.deliver { s with
        reaper := some { pass with todo := todo }
        sequenceToBatchslotMap := s.sequenceToBatchslotMap.erase c
        correlationIdTimestamps := s.correlationIdTimestamps.erase c } target c
          (.forceEnd (forced c)) = some s') :
      Reaped cfg s pass c todo forced s' (some (target, c))
  | extended {timestamp queue : Nat} (time : s.correlationIdTimestamps.find c = some timestamp)
      (slot : s.sequenceToBatchslotMap.find c = none)
      (backlog : s.sequenceToBacklogMap.find c = some queue) :
      Reaped cfg s pass c todo forced
        { s with
          reaper := some { pass with
            todo := todo
            waitMicroseconds := min pass.waitMicroseconds backlogIdleWaitMicroseconds } } none
  | stale {timestamp : Nat} (time : s.correlationIdTimestamps.find c = some timestamp)
      (slot : s.sequenceToBatchslotMap.find c = none)
      (backlog : s.sequenceToBacklogMap.find c = none) :
      Reaped cfg s pass c todo forced
        { s with
          reaper := some { pass with todo := todo }
          correlationIdTimestamps := s.correlationIdTimestamps.erase c } none

theorem reaped_of_reapEntry {forced : CorrelationId → Occupancy}
    {put : Option (BatchSlot × CorrelationId)} (h : s.reapEntry cfg forced = some (s', put)) :
    ∃ pass c todo, s.reaper = some pass ∧ pass.todo = c :: todo ∧
      Reaped cfg s pass c todo forced s' put := by
  unfold reapEntry at h
  split at h
  · cases h
  · next pass hpass =>
    split at h
    · cases h
    · next c todo htodo =>
      refine ⟨pass, c, todo, hpass, htodo, ?_⟩
      split at h
      · next htime =>
        cases h
        exact .unstamped htime
      · next timestamp htime =>
        dsimp only at h
        split at h
        · next hearly =>
          cases h
          exact .fresh htime hearly
        · next hidle =>
          split at h
          · next target hslot =>
            obtain ⟨sched, hsched, heq⟩ := Option.map_eq_some_iff.mp h
            cases heq
            exact .forced htime hidle hslot hsched
          · next hslot hbacklog =>
            cases h
            exact .extended htime hslot hbacklog
          · next hslot hbacklog =>
            cases h
            exact .stale htime hslot hbacklog

theorem forceEndTarget_eq {pass : ReaperPass} {c : CorrelationId} {todo : List CorrelationId}
    {timestamp : Nat} {target : BatchSlot} (hpass : s.reaper = some pass)
    (htodo : pass.todo = c :: todo) (htime : s.correlationIdTimestamps.find c = some timestamp)
    (hidle : ¬ 0 < remainingMicroseconds cfg pass.now timestamp)
    (hslot : s.sequenceToBatchslotMap.find c = some target) :
    s.forceEndTarget cfg = some target := by
  simp [forceEndTarget, hpass, htodo, htime, hidle, hslot]

/-- An iteration of the reaper's loop puts a force-end in a slot, or it changes no sequence. -/
theorem reapEntry_eq_some {forced : CorrelationId → Occupancy}
    {put : Option (BatchSlot × CorrelationId)} (h : s.reapEntry cfg forced = some (s', put)) :
    (put = none ∧ ∃ pass timestamps,
      s' = { s with reaper := some pass, correlationIdTimestamps := timestamps }) ∨
    ∃ target c pass timestamps, put = some (target, c) ∧
      s.forceEndTarget cfg = some target ∧ s.sequenceToBatchslotMap.find c = some target ∧
      Scheduler.deliver { s with
        reaper := some pass
        sequenceToBatchslotMap := s.sequenceToBatchslotMap.erase c
        correlationIdTimestamps := timestamps } target c (.forceEnd (forced c)) = some s' := by
  obtain ⟨pass, c, todo, hpass, htodo, hreaped⟩ := reaped_of_reapEntry h
  cases hreaped with
  | unstamped | fresh | extended | stale => exact .inl ⟨rfl, _, _, rfl⟩
  | @forced timestamp target _ htime hidle hslot hput =>
    exact .inr ⟨target, c, _, _, rfl, forceEndTarget_eq hpass htodo htime hidle hslot, hslot, hput⟩

theorem reapEnd_eq_some (h : s.reapEnd = some s') :
    ∃ pass, s.reaper = some pass ∧ pass.todo = [] ∧ s' = { s with reaper := none } := by
  unfold reapEnd at h
  split at h
  · cases h
  · next pass hpass =>
    split at h
    · next htodo => exact ⟨pass, hpass, htodo, (Option.some.inj h).symm⟩
    · cases h

end Scheduler

end FinBert.Sequence
