import FinBert.Sequence.Backlog

/-!
# The reaper and the clock

The system with a clock that does not go back. `correlation_id_timestamps_` is the third map of the
scheduler: every accepted request writes the time to it, and the reaper erases what it force-ends
and what it finds stale, while `ReleaseBatchSlot` moves a correlation ID from the backlog to a slot.

Results:
1. `remainingMicroseconds_eq`: what the code computes in 64 bits, for a limit below 2^63.
2. `TimeKept.enqueued`, `TimeKept.released`, `TimeKept.reaped`: the three that change the map or
   the IDs in it keep the times.
3. `reaperCovers_limit`: for a limit below 2^63 the reaper covers every sequence and ends none too
   early; for a larger one it ends a sequence at once.
-/

namespace FinBert.Sequence

open FinBert.Serving Transition

/-- The largest `now_us`, a `uint64_t` number of nanoseconds divided by 1000. -/
def clockLimit : Nat := 18446744073709551615 / 1000

/-- The clock that the step reads, under the scheduler mutex. -/
def Action.reading : Action → Option Nat
  | .enqueue _ now _ => some now
  | .reapBegin now _ => some now
  | _ => none

/-- The system, the last reading of the clock, and the time of the last accepted request of each
correlation ID, which no function of the code reads. -/
structure Timed where
  system : System
  clock : Nat
  lastAccepted : CorrelationId → Option Nat

namespace Timed

def init (cfg : Config) : Timed := ⟨.init cfg, 0, fun _ => none⟩

/-- The clock does not go back. -/
def mayRead (t : Timed) (a : Action) : Bool :=
  match a.reading with
  | none => true
  | some now => t.clock ≤ now && now ≤ clockLimit

/-- The time of a call to `Enqueue` that has been accepted. -/
def note (t : Timed) (s : System) : Action → CorrelationId → Option Nat
  | .enqueue header now _ =>
    if t.system.history.accepted.length < s.history.accepted.length then
      Function.update t.lastAccepted header.correlationId (some now)
    else t.lastAccepted
  | _ => t.lastAccepted

def step (cfg : Config) (t : Timed) (a : Action) : Option Timed :=
  if t.mayRead a then
    (t.system.step cfg a).map fun s =>
      { system := s, clock := a.reading.getD t.clock, lastAccepted := t.note s a }
  else none

/-- What the reaper promises: the time of every sequence that is not over is kept, a pass leaves no
idle sequence in a slot and sleeps no longer than until the next one is idle, and a force-end is
put in a slot only for a sequence that is idle. -/
structure ReaperCovers (cfg : Config) (t : Timed) : Prop where
  stamped : ∀ c, t.system.sched.knows c = true →
    ∃ last, t.lastAccepted c = some last ∧
      t.system.sched.correlationIdTimestamps.find c = some last
  reclaimed : ∀ pass, t.system.sched.reaper = some pass → pass.todo = [] →
    ∀ c target, t.system.sched.sequenceToBatchslotMap.find c = some target →
      ∃ last, t.lastAccepted c = some last ∧ pass.now < last + cfg.maxSequenceIdleMicroseconds ∧
        pass.now + pass.waitMicroseconds ≤ last + cfg.maxSequenceIdleMicroseconds + 1
  revisited : ∀ pass, t.system.sched.reaper = some pass → pass.todo = [] →
    ∀ c queue, t.system.sched.sequenceToBacklogMap.find c = some queue →
      ∃ last, t.lastAccepted c = some last ∧
        (pass.waitMicroseconds ≤ Scheduler.backlogIdleWaitMicroseconds ∨
          pass.now + pass.waitMicroseconds ≤ last + cfg.maxSequenceIdleMicroseconds + 1)
  late : ∀ forced sched target c,
    t.system.sched.reapEntry cfg forced = some (sched, some (target, c)) →
      ∃ pass last, t.system.sched.reaper = some pass ∧ pass.now ≤ t.clock ∧
        t.lastAccepted c = some last ∧ last + cfg.maxSequenceIdleMicroseconds ≤ pass.now

end Timed

namespace Scheduler

/-! ## The remaining time -/

/-- In 64 bits nothing is lost when the limit is below 2^63. -/
theorem remainingMicroseconds_eq {cfg : Config} {now last : Nat}
    (hmax : cfg.maxSequenceIdleMicroseconds < 9223372036854775808) (hlast : last ≤ now)
    (hnow : now ≤ clockLimit) :
    remainingMicroseconds cfg now last =
      ((last + cfg.maxSequenceIdleMicroseconds : Nat) : Int) - now := by
  have hlimit : now ≤ 18446744073709551 := hnow
  unfold remainingMicroseconds
  rw [Int.bmod_eq_of_le_mul_two (by omega) (by omega)]
  omega

theorem remainingMicroseconds_pos_iff {cfg : Config} {now last : Nat}
    (hmax : cfg.maxSequenceIdleMicroseconds < 9223372036854775808) (hlast : last ≤ now)
    (hnow : now ≤ clockLimit) :
    0 < remainingMicroseconds cfg now last ↔ now < last + cfg.maxSequenceIdleMicroseconds := by
  rw [remainingMicroseconds_eq hmax hlast hnow, Int.sub_pos, Int.ofNat_lt]

/-- A limit of 2^63 or more is negative when it is read as a signed number. -/
theorem remainingMicroseconds_neg {cfg : Config} (now : Nat)
    (hmin : 9223372036854775808 ≤ cfg.maxSequenceIdleMicroseconds)
    (hmax : cfg.maxSequenceIdleMicroseconds < 18446744073709551616) :
    ¬ 0 < remainingMicroseconds cfg now now := by
  unfold remainingMicroseconds
  rw [Int.sub_self, Int.sub_zero, Int.bmod_def, Int.emod_eq_of_lt (by omega) (by omega)]
  split
  · omega
  · omega

/-! ## The times are kept -/

variable {cfg : Config} {s s' : Scheduler} {clock clock' : Nat}
  {lastAccepted : CorrelationId → Option Nat}

/-- What the pass has found out about a correlation ID it has visited: the sequence is not idle and
the reaper will be back in time, or it is in the backlog and the reaper will be back soon. -/
def Seen (cfg : Config) (s : Scheduler) (pass : ReaperPass) (c : CorrelationId) : Prop :=
  ∃ last, s.correlationIdTimestamps.find c = some last ∧
    (0 < remainingMicroseconds cfg pass.now last ∧
        pass.waitMicroseconds ≤ (remainingMicroseconds cfg pass.now last).toNat + 1 ∨
      s.sequenceToBatchslotMap.find c = none ∧
        pass.waitMicroseconds ≤ backlogIdleWaitMicroseconds)

structure TimeKept (cfg : Config) (s : Scheduler) (clock : Nat)
    (lastAccepted : CorrelationId → Option Nat) : Prop where
  stamps : ∀ c last, s.correlationIdTimestamps.find c = some last →
    lastAccepted c = some last ∧ last ≤ clock
  known : ∀ c, s.knows c = true → ∃ last, s.correlationIdTimestamps.find c = some last
  limit : clock ≤ clockLimit
  begun : ∀ pass, s.reaper = some pass → pass.now ≤ clock ∧
    ∀ c last, s.correlationIdTimestamps.find c = some last → last ≤ pass.now
  visited : ∀ pass, s.reaper = some pass → ∀ c, s.knows c = true → c ∉ pass.todo →
    Seen cfg s pass c

/-- Time passes, and nothing else does. -/
theorem TimeKept.frame (h : TimeKept cfg s clock lastAccepted)
    (htimes : s'.correlationIdTimestamps = s.correlationIdTimestamps)
    (hslots : s'.sequenceToBatchslotMap = s.sequenceToBatchslotMap)
    (hbacklog : s'.sequenceToBacklogMap = s.sequenceToBacklogMap) (hreaper : s'.reaper = s.reaper)
    (hclock : clock ≤ clock') (hlimit : clock' ≤ clockLimit) :
    TimeKept cfg s' clock' lastAccepted := by
  have hknows : ∀ c, s'.knows c = s.knows c := fun c => by
    rw [knows, knows, hslots, hbacklog]
  refine ⟨fun c last hfind => ?_, fun c hknown => ?_, hlimit, fun pass hpass => ?_,
    fun pass hpass c hknown hnot => ?_⟩
  · obtain ⟨haccepted, hle⟩ := h.stamps c last (htimes ▸ hfind)
    exact ⟨haccepted, Nat.le_trans hle hclock⟩
  · rw [htimes]
    exact h.known c (hknows c ▸ hknown)
  · obtain ⟨hnow, hbefore⟩ := h.begun pass (hreaper ▸ hpass)
    refine ⟨Nat.le_trans hnow hclock, ?_⟩
    rw [htimes]
    exact hbefore
  · have hseen := h.visited pass (hreaper ▸ hpass) c (hknows c ▸ hknown) hnot
    unfold Seen
    rw [htimes, hslots]
    exact hseen

/-- While no pass goes on, correlation IDs may leave the maps. -/
theorem TimeKept.forget (h : TimeKept cfg s clock lastAccepted)
    (htimes : s'.correlationIdTimestamps = s.correlationIdTimestamps)
    (hknows : ∀ c, s'.knows c = true → s.knows c = true) (hfree : s'.reaper = none) :
    TimeKept cfg s' clock lastAccepted := by
  refine ⟨htimes ▸ h.stamps, fun c hknown => htimes ▸ h.known c (hknows c hknown), h.limit,
    fun pass hpass => ?_, fun pass hpass => ?_⟩
  · rw [hfree] at hpass
    cases hpass
  · rw [hfree] at hpass
    cases hpass

/-- A correlation ID in neither map got there with its entry. -/
theorem knows_of_lost {c : CorrelationId} (hknown : s'.knows c = true)
    (hslots : s'.sequenceToBatchslotMap.find c = none ∨
      s'.sequenceToBatchslotMap.find c = s.sequenceToBatchslotMap.find c)
    (hbacklog : s'.sequenceToBacklogMap.find c = none ∨
      s'.sequenceToBacklogMap.find c = s.sequenceToBacklogMap.find c) : s.knows c = true := by
  unfold knows at hknown ⊢
  rw [Bool.or_eq_true] at hknown ⊢
  refine hknown.imp (fun hslot => ?_) fun hqueue => ?_
  · rcases hslots with hnone | hsame
    · rw [hnone] at hslot
      cases hslot
    · exact hsame ▸ hslot
  · rcases hbacklog with hnone | hsame
    · rw [hnone] at hqueue
      cases hqueue
    · exact hsame ▸ hqueue

theorem not_knows {c : CorrelationId} (hslot : s.sequenceToBatchslotMap.find c = none)
    (hbacklog : s.sequenceToBacklogMap.find c = none) : ¬ s.knows c = true := by
  unfold knows
  rw [hslot, hbacklog]
  exact Bool.false_ne_true

/-- What an accepted request does to the times and to the maps. -/
theorem Enqueued.accepted {r : Request} {now : Nat} {placement : Placement}
    (h : Enqueued s (s.stampTime r now) r s' placement)
    (haccepted : ∀ status, placement ≠ .rejected status) :
    s'.correlationIdTimestamps = s.correlationIdTimestamps.insert r.header.correlationId now ∧
      s'.reaper = s.reaper ∧
      ∀ c, c ≠ r.header.correlationId → s'.knows c = true → s.knows c = true := by
  have hassign : ∀ t : Scheduler,
      (t.assignSlot r).correlationIdTimestamps = t.correlationIdTimestamps ∧
        (t.assignSlot r).reaper = t.reaper ∧
        (t.assignSlot r).sequenceToBacklogMap = t.sequenceToBacklogMap := fun t => by
    unfold assignSlot
    split
    · exact ⟨rfl, rfl, rfl⟩
    · exact ⟨rfl, rfl, rfl⟩
  cases h with
  | rejected status => exact absurd rfl (haccepted status)
  | continueSlot slot =>
    obtain ⟨htimes, hreaper, hbacklog⟩ := hassign (s.stampTime r now)
    refine ⟨htimes, hreaper, fun c _ hknown => ?_⟩
    exact knows_of_lost hknown (find_assignSlot _ r c) (.inr (congrFun (congrArg _ hbacklog) c))
  | @continueBacklog queue slot backlog =>
    refine ⟨rfl, rfl, fun c hne hknown => knows_of_lost hknown (.inr rfl) (.inr ?_)⟩
    rw [find_continueBacklog]
    split
    · exact Function.update_of_ne hne _ _
    · rfl
  | @openSlot top slot backlog isTop =>
    obtain ⟨htimes, hreaper, hbacklog⟩ := hassign { s.stampTime r now with
      sequenceToBatchslotMap := s.sequenceToBatchslotMap.insert r.header.correlationId top
      readyBatchSlots := s.readyBatchSlots.erase top }
    refine ⟨htimes, hreaper, fun c hne hknown => ?_⟩
    refine knows_of_lost hknown ?_ (.inr (congrFun (congrArg _ hbacklog) c))
    have hother := (UnorderedMap.find_insert_apply s.sequenceToBatchslotMap
      r.header.correlationId top c).trans (if_neg hne)
    exact hother ▸ find_assignSlot _ r c
  | openBacklog slot backlog full =>
    refine ⟨rfl, rfl, fun c hne hknown => knows_of_lost hknown (.inr rfl) (.inr ?_)⟩
    rw [find_openBacklog]
    split
    · rfl
    · exact Function.update_of_ne hne _ _

/-- `ReleaseBatchSlot` moves a correlation ID from the backlog to a slot. -/
theorem BacklogInv.knows_of_release (h : s.BacklogInv) {batchSlot : BatchSlot}
    {payloads queue : List Payload} {release : Release}
    (hs : s.releaseBatchSlot cfg batchSlot payloads = (s', queue, release)) :
    s'.correlationIdTimestamps = s.correlationIdTimestamps ∧
      ∀ c, s'.knows c = true → s.knows c = true := by
  unfold releaseBatchSlot at hs
  split at hs
  · cases hs
    exact ⟨rfl, fun _ hknown => hknown⟩
  · next backlog rest hqueues =>
    have hmem : backlog ∈ s.backlogQueues := hqueues ▸ List.mem_cons_self
    dsimp only at hs
    split at hs
    · cases hs
      exact ⟨rfl, fun _ hknown => hknown⟩
    · next last hlast =>
      split at hs
      · cases hs
        exact ⟨rfl, fun _ hknown => hknown⟩
      · next hopen =>
        have hfound : s.sequenceToBacklogMap.find last.header.correlationId = some backlog :=
          h.queues.attached_last hmem hlast (Bool.eq_false_iff.mpr hopen)
        have hlast : s.knows last.header.correlationId = true := by
          unfold knows
          rw [hfound, Option.isSome_some, Bool.or_true]
        cases hs
        refine ⟨by dsimp only; split <;> rfl, fun c hknown => ?_⟩
        by_cases heq : c = last.header.correlationId
        · exact heq ▸ hlast
        · refine knows_of_lost hknown (.inr ?_) (.inr ?_)
          · dsimp only
            rw [UnorderedMap.find_insert_apply, if_neg heq]
            split <;> rfl
          · dsimp only
            rw [UnorderedMap.find_erase, Function.update_of_ne heq]
            split <;> rfl

theorem TimeKept.enqueued (h : TimeKept cfg s clock lastAccepted) {r : Request} {now : Nat}
    {placement : Placement} (hs : Enqueued s (s.stampTime r now) r s' placement)
    (haccepted : ∀ status, placement ≠ .rejected status) (hfree : s.reaper = none)
    (hclock : clock ≤ now) (hlimit : now ≤ clockLimit) :
    TimeKept cfg s' now (Function.update lastAccepted r.header.correlationId (some now)) := by
  obtain ⟨htimes, hreaper, hknows⟩ := hs.accepted haccepted
  rw [hfree] at hreaper
  have hfind : ∀ c, s'.correlationIdTimestamps.find c =
      if c = r.header.correlationId then some now else s.correlationIdTimestamps.find c := by
    intro c
    rw [htimes, UnorderedMap.find_insert_apply]
  refine ⟨fun c last hc => ?_, fun c hknown => ?_, hlimit, fun pass hpass => ?_,
    fun pass hpass => ?_⟩
  · rw [hfind] at hc
    rw [Function.update_apply]
    split at hc
    · next heq =>
      rw [if_pos heq]
      exact ⟨hc, Nat.le_of_eq (Option.some.inj hc).symm⟩
    · next hne =>
      rw [if_neg hne]
      obtain ⟨hlast, hle⟩ := h.stamps c last hc
      exact ⟨hlast, Nat.le_trans hle hclock⟩
  · rw [hfind]
    split
    · exact ⟨now, rfl⟩
    · next hne => exact h.known c (hknows c hne hknown)
  · rw [hreaper] at hpass
    cases hpass
  · rw [hreaper] at hpass
    cases hpass

/-- The reaper reads the clock, and has every entry before it. -/
theorem TimeKept.reapBegin (h : TimeKept cfg s clock lastAccepted) {now : Nat}
    {order : List CorrelationId} (hs : s.reapBegin cfg now order = some s') (hclock : clock ≤ now)
    (hlimit : now ≤ clockLimit) : TimeKept cfg s' now lastAccepted := by
  obtain ⟨⟨-, hperm⟩, rfl⟩ := reapBegin_eq_some hs
  have hbefore : ∀ c last, s.correlationIdTimestamps.find c = some last → last ≤ now :=
    fun c last hc => Nat.le_trans (h.stamps c last hc).2 hclock
  refine ⟨fun c last hc => ⟨(h.stamps c last hc).1, hbefore c last hc⟩, h.known, hlimit,
    fun pass hpass => ?_, fun pass hpass c hknown hnot => ?_⟩
  · cases hpass
    exact ⟨Nat.le_refl now, hbefore⟩
  · cases hpass
    obtain ⟨last, hlast⟩ := h.known c hknown
    have hkey := (UnorderedMap.mem_keys_iff s.correlationIdTimestamps c).mpr (by rw [hlast]; rfl)
    exact absurd (hperm.mem_iff.mpr hkey) hnot

/-- An iteration that touches the entry of `c` at most. -/
theorem TimeKept.visit (h : TimeKept cfg s clock lastAccepted) {pass pass' : ReaperPass}
    {c : CorrelationId} {todo : List CorrelationId} (hpass : s.reaper = some pass)
    (htodo : pass.todo = c :: todo) (hpass' : s'.reaper = some pass') (hnow : pass'.now = pass.now)
    (hrest : pass'.todo = todo) (hwait : pass'.waitMicroseconds ≤ pass.waitMicroseconds)
    (htimes : ∀ c', s'.correlationIdTimestamps.find c' = none ∨
      s'.correlationIdTimestamps.find c' = s.correlationIdTimestamps.find c')
    (hother : ∀ c', c' ≠ c →
      s'.correlationIdTimestamps.find c' = s.correlationIdTimestamps.find c' ∧
        s'.sequenceToBatchslotMap.find c' = s.sequenceToBatchslotMap.find c')
    (hbacklog : s'.sequenceToBacklogMap = s.sequenceToBacklogMap)
    (hseen : s'.knows c = true → Seen cfg s' pass' c) : TimeKept cfg s' clock lastAccepted := by
  have hfind : ∀ c' last, s'.correlationIdTimestamps.find c' = some last →
      s.correlationIdTimestamps.find c' = some last := by
    intro c' last hc'
    rcases htimes c' with hnone | hsame
    · rw [hnone] at hc'
      cases hc'
    · exact hsame ▸ hc'
  have hknows : ∀ c', c' ≠ c → s'.knows c' = s.knows c' := fun c' hne => by
    rw [knows, knows, (hother c' hne).2, hbacklog]
  refine ⟨fun c' last hc' => h.stamps c' last (hfind c' last hc'), fun c' hknown => ?_, h.limit,
    fun p hp => ?_, fun p hp c' hknown hnot => ?_⟩
  · by_cases heq : c' = c
    · subst heq
      obtain ⟨last, hlast, -⟩ := hseen hknown
      exact ⟨last, hlast⟩
    · rw [(hother c' heq).1]
      exact h.known c' (hknows c' heq ▸ hknown)
  · obtain rfl : pass' = p := Option.some.inj (hpass'.symm.trans hp)
    obtain ⟨hle, hbefore⟩ := h.begun pass hpass
    rw [hnow]
    exact ⟨hle, fun c' last hc' => hbefore c' last (hfind c' last hc')⟩
  · obtain rfl : pass' = p := Option.some.inj (hpass'.symm.trans hp)
    by_cases heq : c' = c
    · exact heq ▸ hseen (heq ▸ hknown)
    · have hnot' : c' ∉ pass.todo := by
        rw [htodo, List.mem_cons]
        rw [hrest] at hnot
        exact not_or.mpr ⟨heq, hnot⟩
      obtain ⟨last, hlast, hcase⟩ := h.visited pass hpass c' (hknows c' heq ▸ hknown) hnot'
      obtain ⟨htime, hslot⟩ := hother c' heq
      refine ⟨last, htime.trans hlast, ?_⟩
      rw [hnow, hslot]
      exact hcase.imp (And.imp_right (Nat.le_trans hwait)) (And.imp_right (Nat.le_trans hwait))

theorem TimeKept.reaped (h : TimeKept cfg s clock lastAccepted) (hbacklog : s.BacklogInv)
    {pass : ReaperPass} {c : CorrelationId} {todo : List CorrelationId}
    {forced : CorrelationId → Occupancy} {put : Option (BatchSlot × CorrelationId)}
    (hpass : s.reaper = some pass) (htodo : pass.todo = c :: todo)
    (hs : Reaped cfg s pass c todo forced s' put) : TimeKept cfg s' clock lastAccepted := by
  cases hs with
  | unstamped time =>
    refine h.visit hpass htodo rfl rfl rfl (Nat.le_refl _) (fun _ => .inr rfl)
      (fun _ _ => ⟨rfl, rfl⟩) rfl fun hknown => ?_
    obtain ⟨last, hlast⟩ := h.known c hknown
    rw [time] at hlast
    cases hlast
  | @fresh timestamp time early =>
    exact h.visit hpass htodo rfl rfl rfl (Nat.min_le_left _ _) (fun _ => .inr rfl)
      (fun _ _ => ⟨rfl, rfl⟩) rfl fun _ =>
        ⟨timestamp, time, .inl ⟨early, Nat.min_le_right _ _⟩⟩
  | @forced timestamp target _ time idle slot put =>
    obtain ⟨rfl, -⟩ := deliver_eq put
    refine h.visit hpass htodo rfl rfl rfl (Nat.le_refl _)
      (fun c' => UnorderedMap.find_erase_or _ c c')
      (fun _ hne => ⟨AList.lookup_erase_ne hne, AList.lookup_erase_ne hne⟩) rfl fun hknown => ?_
    have hqueue : s.sequenceToBacklogMap.find c = none :=
      (hbacklog.exclusive c).resolve_left fun hnone => by
        rw [slot] at hnone
        cases hnone
    exact absurd hknown (not_knows (AList.lookup_erase c _) hqueue)
  | @extended timestamp queue time slot backlog =>
    exact h.visit hpass htodo rfl rfl rfl (Nat.min_le_left _ _) (fun _ => .inr rfl)
      (fun _ _ => ⟨rfl, rfl⟩) rfl fun _ => ⟨timestamp, time, .inr ⟨slot, Nat.min_le_right _ _⟩⟩
  | stale time slot backlog =>
    exact h.visit hpass htodo rfl rfl rfl (Nat.le_refl _)
      (fun c' => UnorderedMap.find_erase_or _ c c')
      (fun _ hne => ⟨AList.lookup_erase_ne hne, rfl⟩) rfl fun hknown =>
        absurd hknown (not_knows slot backlog)

end Scheduler

/-! ## Runs -/

/-- Whether a request is accepted shows in the list of accepted requests. -/
theorem History.length_accept {h : History} {r : Request} {placement : Placement} :
    h.accepted.length < (h.accept r placement).accepted.length ↔
      ∀ status, placement ≠ .rejected status := by
  cases placement with
  | rejected status =>
    exact iff_of_false (Nat.lt_irrefl _) fun haccepted => haccepted status rfl
  | backlog queue opens | slot target opens =>
    refine iff_of_true ?_ fun status heq => by cases heq
    have hmore : h.accepted.length < (h.accepted ++ [r]).length :=
      List.length_append ▸ Nat.lt_succ_self _
    cases opens
    · exact hmore
    · exact hmore

namespace Timed

variable {cfg : Config} {t t' : Timed}

structure Inv (cfg : Config) (t : Timed) : Prop where
  backlog : t.system.sched.BacklogInv
  times : t.system.sched.TimeKept cfg t.clock t.lastAccepted

theorem inv_init (cfg : Config) : (Timed.init cfg).Inv cfg := by
  have hnone : ∀ c, (System.init cfg).sched.correlationIdTimestamps.find c = none :=
    congrFun UnorderedMap.find_empty
  refine ⟨System.backlogInv_init cfg, fun c last hc => ?_, fun c hknown => ?_, Nat.zero_le _,
    fun pass hpass => ?_, fun pass hpass => ?_⟩
  · rw [show (Timed.init cfg).system = .init cfg from rfl, hnone] at hc
    cases hc
  · exact absurd hknown (Scheduler.not_knows (congrFun UnorderedMap.find_empty c)
      (congrFun UnorderedMap.find_empty c))
  · cases hpass
  · cases hpass

/-- The steps that read no clock. -/
theorem timeKept_step {s s' : System} {clock : Nat} {lastAccepted : CorrelationId → Option Nat}
    (h : s.sched.TimeKept cfg clock lastAccepted) (hbacklog : s.sched.BacklogInv) {a : Action}
    (ha : a.reading = none) (hs : s.step cfg a = some s') :
    s'.sched.TimeKept cfg clock lastAccepted := by
  cases a with
  | enqueue header now top => cases ha
  | reapBegin now order => cases ha
  | deliver call =>
    obtain ⟨d, sched, -, hsched, rfl⟩ := System.deliver_eq_some hs
    obtain ⟨rfl, -⟩ := Scheduler.deliver_eq hsched
    exact h.frame rfl rfl rfl rfl (Nat.le_refl _) h.limit
  | delay b =>
    obtain ⟨sched, hsched, rfl⟩ := Option.map_eq_some_iff.mp hs
    obtain ⟨-, cnts, rfl | rfl⟩ := Scheduler.delay_eq_some hsched
    · exact h.frame rfl rfl rfl rfl (Nat.le_refl _) h.limit
    · exact h.frame rfl rfl rfl rfl (Nat.le_refl _) h.limit
  | collectBegin b =>
    obtain ⟨sched, hsched, rfl⟩ := Option.map_eq_some_iff.mp hs
    obtain ⟨-, maxSlot, -, rfl⟩ := Scheduler.collectBegin_eq_some hsched
    exact h.frame rfl rfl rfl rfl (Nat.le_refl _) h.limit
  | collectSlot b =>
    obtain ⟨⟨sched, popped, released⟩, hsched, rfl⟩ := Option.map_eq_some_iff.mp hs
    obtain ⟨pass, -, -, hvisited⟩ := Scheduler.collectSlot_eq_some hsched
    cases hvisited with
    | empty | collected => exact h.frame rfl rfl rfl rfl (Nat.le_refl _) h.limit
    | handedOn hqueue hends hfree hlog hrelease | freed hqueue hends hfree hlog hrelease =>
      obtain ⟨htimes, hknows⟩ := (hbacklog.logged hlog).knows_of_release hrelease
      exact h.forget htimes hknows
        ((Scheduler.released_of_releaseBatchSlot hrelease).reaper.trans hfree)
  | collectEnd b =>
    obtain ⟨⟨sched, payloads⟩, hsched, rfl⟩ := Option.map_eq_some_iff.mp hs
    obtain ⟨pass, -, -, -, rfl⟩ := Scheduler.collectEnd_eq_some hsched
    exact h.frame rfl rfl rfl rfl (Nat.le_refl _) h.limit
  | reapEntry =>
    obtain ⟨⟨sched, put⟩, hentry, rfl⟩ := Option.map_eq_some_iff.mp hs
    obtain ⟨pass, c, todo, hpass, htodo, hreaped⟩ := Scheduler.reaped_of_reapEntry hentry
    exact h.reaped hbacklog hpass htodo hreaped
  | reapEnd =>
    obtain ⟨sched, hsched, rfl⟩ := Option.map_eq_some_iff.mp hs
    obtain ⟨pass, -, -, rfl⟩ := Scheduler.reapEnd_eq_some hsched
    exact h.forget rfl (fun _ hknown => hknown) rfl

theorem le_of_mayRead {a : Action} {now : Nat} (h : t.mayRead a = true)
    (ha : a.reading = some now) : t.clock ≤ now ∧ now ≤ clockLimit := by
  unfold mayRead at h
  rw [ha, Bool.and_eq_true, decide_eq_true_iff, decide_eq_true_iff] at h
  exact h

theorem inv_step (h : t.Inv cfg) {a : Action} (hs : t.step cfg a = some t') : t'.Inv cfg := by
  unfold step at hs
  split at hs
  · next hread =>
    obtain ⟨s, hstep, rfl⟩ := Option.map_eq_some_iff.mp hs
    refine ⟨System.backlogInv_step h.backlog hstep, ?_⟩
    cases a with
    | enqueue header now top =>
      obtain ⟨hclock, hlimit⟩ := le_of_mayRead hread rfl
      obtain ⟨⟨sched, placement⟩, hsched, rfl⟩ := Option.map_eq_some_iff.mp hstep
      have hsame := h.times.frame rfl rfl rfl rfl hclock hlimit
      have hlength : t.system.history.accepted.length <
          (t.system.history.accept (t.system.history.stamp t.system.sched header)
            placement).accepted.length ↔ ∀ status, placement ≠ .rejected status :=
        History.length_accept
      show sched.TimeKept cfg now (if _ then _ else _)
      rcases Scheduler.enqueue_eq_some hsched with ⟨rfl, status, -, rfl⟩ | ⟨-, hfree, henqueued⟩
      · rw [if_neg fun hless => hlength.mp hless status rfl]
        exact hsame
      · by_cases haccepted : ∀ status, placement ≠ .rejected status
        · rw [if_pos (hlength.mpr haccepted)]
          exact h.times.enqueued henqueued haccepted hfree hclock hlimit
        · rw [if_neg fun hless => haccepted (hlength.mp hless)]
          cases henqueued with
          | rejected status => exact hsame
          | _ => exact absurd (fun status heq => by cases heq) haccepted
    | reapBegin now order =>
      obtain ⟨hclock, hlimit⟩ := le_of_mayRead hread rfl
      obtain ⟨sched, hsched, rfl⟩ := Option.map_eq_some_iff.mp hstep
      exact h.times.reapBegin hsched hclock hlimit
    | deliver | delay | collectBegin | collectSlot | collectEnd | reapEntry | reapEnd =>
      exact timeKept_step h.times h.backlog rfl hstep
  · cases hs

/-- The invariant promises what the reaper does, when nothing is lost in 64 bits. -/
theorem Inv.covers (h : t.Inv cfg)
    (hmax : cfg.maxSequenceIdleMicroseconds < 9223372036854775808) : t.ReaperCovers cfg := by
  have hpos : ∀ pass, t.system.sched.reaper = some pass → ∀ c last,
      t.system.sched.correlationIdTimestamps.find c = some last →
      Scheduler.remainingMicroseconds cfg pass.now last =
        ((last + cfg.maxSequenceIdleMicroseconds : Nat) : Int) - pass.now := by
    intro pass hpass c last hlast
    obtain ⟨hnow, hbefore⟩ := h.times.begun pass hpass
    exact Scheduler.remainingMicroseconds_eq hmax (hbefore c last hlast)
      (Nat.le_trans hnow h.times.limit)
  refine ⟨fun c hknown => ?_, fun pass hpass htodo c target hslot => ?_,
    fun pass hpass htodo c queue hqueue => ?_, fun forced sched target c hentry => ?_⟩
  · obtain ⟨last, hlast⟩ := h.times.known c hknown
    exact ⟨last, (h.times.stamps c last hlast).1, hlast⟩
  · have hknown : t.system.sched.knows c = true := by
      unfold Scheduler.knows
      rw [hslot, Option.isSome_some, Bool.true_or]
    obtain ⟨last, hlast, ⟨hearly, hwait⟩ | ⟨hnone, -⟩⟩ :=
      h.times.visited pass hpass c hknown (htodo ▸ List.not_mem_nil)
    · rw [hpos pass hpass c last hlast] at hearly hwait
      exact ⟨last, (h.times.stamps c last hlast).1, by omega, by omega⟩
    · rw [hslot] at hnone
      cases hnone
  · have hknown : t.system.sched.knows c = true := by
      unfold Scheduler.knows
      rw [hqueue, Option.isSome_some, Bool.or_true]
    obtain ⟨last, hlast, ⟨hearly, hwait⟩ | ⟨-, hwait⟩⟩ :=
      h.times.visited pass hpass c hknown (htodo ▸ List.not_mem_nil)
    · rw [hpos pass hpass c last hlast] at hearly hwait
      exact ⟨last, (h.times.stamps c last hlast).1, .inr (by omega)⟩
    · exact ⟨last, (h.times.stamps c last hlast).1, .inl hwait⟩
  · obtain ⟨pass, c', todo, hpass, -, hreaped⟩ := Scheduler.reaped_of_reapEntry hentry
    cases hreaped with
    | @forced last _ _ time idle slot put =>
      obtain ⟨hnow, hbefore⟩ := h.times.begun pass hpass
      rw [Scheduler.remainingMicroseconds_pos_iff hmax (hbefore c last time)
        (Nat.le_trans hnow h.times.limit)] at idle
      exact ⟨pass, last, hpass, hnow, (h.times.stamps c last time).1, Nat.le_of_not_lt idle⟩

/-- A slot is free for a sequence that starts. -/
theorem enqueue_start {s : Scheduler} {r : Request} {now : Nat} {top : BatchSlot}
    (hcheck : checkRequest cfg r.header = none) (hfree : s.reaper = none)
    (hstart : r.header.seqStart = true) (hend : r.header.seqEnd = false)
    (hslot : s.sequenceToBatchslotMap.find r.header.correlationId = none)
    (hbacklog : s.sequenceToBacklogMap.find r.header.correlationId = none)
    (htop : IsTop s.readyBatchSlots top) :
    s.enqueue cfg r now top = some
      ({ s.stampTime r now with
          sequenceToBatchslotMap := s.sequenceToBatchslotMap.insert r.header.correlationId top
          readyBatchSlots := s.readyBatchSlots.erase top }, .slot top true) := by
  have hready : s.readyBatchSlots ≠ [] := List.ne_nil_of_mem htop.1
  have hlocked : s.enqueue cfg r now top = s.enqueueLocked cfg r now top := by
    unfold Scheduler.enqueue
    rw [hcheck, hfree]
    rfl
  rw [hlocked]
  unfold Scheduler.enqueueLocked
  simp only [hstart, hslot, hbacklog, if_pos hready, if_pos htop, Scheduler.assignSlot, hend,
    Bool.not_true, Bool.false_and, Bool.false_eq_true, if_false]
  rfl

/-- The next force-end of the reaper. -/
theorem reapEntry_forces {s : Scheduler} {pass : ReaperPass} {c : CorrelationId}
    {todo : List CorrelationId} {last : Nat} {target : BatchSlot}
    {forced : CorrelationId → Occupancy} (hpass : s.reaper = some pass)
    (htodo : pass.todo = c :: todo) (htime : s.correlationIdTimestamps.find c = some last)
    (hidle : ¬ 0 < Scheduler.remainingMicroseconds cfg pass.now last)
    (hslot : s.sequenceToBatchslotMap.find c = some target)
    (hfree : (s.batchers target.batcherIdx).pass = none) :
    ∃ s', s.reapEntry cfg forced = some (s', some (target, c)) := by
  unfold Scheduler.reapEntry Scheduler.deliver
  simp only [hpass, htodo, htime, if_neg hidle, hslot, hfree]
  exact ⟨_, rfl⟩

/-- With a limit of 2^63 or more the reaper ends a sequence at the time of its first request. -/
theorem forced_at_once (hrunners : 0 < cfg.runnerCnt)
    (hmin : 9223372036854775808 ≤ cfg.maxSequenceIdleMicroseconds)
    (hmax : cfg.maxSequenceIdleMicroseconds < 18446744073709551616) :
    ∃ t, Reachable (Timed.step cfg) (.init cfg) t ∧ t.clock = 0 ∧
      t.system.sched.forceEndTarget cfg = some ⟨0, 0⟩ ∧ ¬ t.ReaperCovers cfg := by
  have hmem : ⟨0, 0⟩ ∈ (Scheduler.create cfg).readyBatchSlots := by
    have hslots : 0 < cfg.batchSize := by
      unfold Config.batchSize
      omega
    exact List.mem_flatMap.mpr ⟨0, List.mem_range.mpr hrunners,
      List.mem_map.mpr ⟨0, List.mem_range.mpr hslots, rfl⟩⟩
  have hempty : ∀ ν, UnorderedMap.find (∅ : UnorderedMap CorrelationId ν) 1 = none := fun _ =>
    congrFun UnorderedMap.find_empty 1
  have hstart : (System.headerOf 1 1).seqStart = true := by decide
  have hend : (System.headerOf 1 1).seqEnd = false := by decide
  obtain ⟨s, hs, htime, hslot, hfree, hpass, hkeys⟩ : ∃ s, (System.init cfg).step cfg
      (.enqueue (System.headerOf 1 1) 0 ⟨0, 0⟩) = some s ∧
      s.sched.correlationIdTimestamps.find 1 = some 0 ∧
      s.sched.sequenceToBatchslotMap.find 1 = some ⟨0, 0⟩ ∧ s.sched.reaper = none ∧
      (s.sched.batchers 0).pass = none ∧ [1].Perm s.sched.correlationIdTimestamps.keys :=
    ⟨_, congrArg (Option.map _) (enqueue_start rfl rfl hstart hend (hempty _) (hempty _)
      ⟨hmem, fun _ _ => Nat.zero_le _⟩), AList.lookup_insert _, AList.lookup_insert _, rfl, rfl,
      .refl _⟩
  let t : Timed := ⟨s, 0, (Timed.init cfg).note s (.enqueue (System.headerOf 1 1) 0 ⟨0, 0⟩)⟩
  have hfirst : (Timed.init cfg).step cfg (.enqueue (System.headerOf 1 1) 0 ⟨0, 0⟩) = some t :=
    (if_pos rfl).trans (congrArg (Option.map _) hs)
  let pass : ReaperPass := ⟨0, cfg.maxSequenceIdleMicroseconds, [1]⟩
  have hbegin : s.sched.reapBegin cfg 0 [1] = some { s.sched with reaper := some pass } := by
    unfold Scheduler.reapBegin
    rw [hfree]
    exact (if_neg Bool.false_ne_true).trans (if_pos hkeys)
  have hsecond : t.step cfg (.reapBegin 0 [1]) =
      some { t with system := { s with sched := { s.sched with reaper := some pass } } } :=
    (if_pos rfl).trans (congrArg (Option.map _) (congrArg (Option.map _) hbegin))
  have hidle := Scheduler.remainingMicroseconds_neg 0 hmin hmax
  refine ⟨_, (ReachableWhen.start.step trivial hfirst).step trivial hsecond, rfl,
    Scheduler.forceEndTarget_eq rfl rfl htime hidle hslot, fun hcovers => ?_⟩
  obtain ⟨sched, hentry⟩ : ∃ sched, Scheduler.reapEntry cfg { s.sched with reaper := some pass }
      (fun c => ⟨c, 0⟩) = some (sched, some (⟨0, 0⟩, 1)) :=
    reapEntry_forces rfl rfl htime hidle hslot hpass
  obtain ⟨pass', last, hpass', -, -, hlate⟩ := hcovers.late _ _ _ _ hentry
  cases hpass'
  have hzero : cfg.maxSequenceIdleMicroseconds ≤ 0 := Nat.le_trans (Nat.le_add_left _ _) hlate
  exact absurd (Nat.le_trans hmin hzero) (by decide)

/-- The reaper in every run, and the runs in which it fails. -/
theorem reaperCovers_limit (cfg : Config) :
    (cfg.maxSequenceIdleMicroseconds < 9223372036854775808 →
      ∀ t, Reachable (Timed.step cfg) (.init cfg) t → t.ReaperCovers cfg) ∧
    (0 < cfg.runnerCnt → 9223372036854775808 ≤ cfg.maxSequenceIdleMicroseconds →
      cfg.maxSequenceIdleMicroseconds < 18446744073709551616 →
      ∃ t, Reachable (Timed.step cfg) (.init cfg) t ∧ ¬ t.ReaperCovers cfg) := by
  refine ⟨fun hlimit t h => ?_, fun hrunners hmin hmax => ?_⟩
  · have hinv : t.Inv cfg := h.invariant (inv_init cfg) fun _ _ _ ih _ hs => inv_step ih hs
    exact hinv.covers hlimit
  · obtain ⟨t, hreach, -, -, hfails⟩ := forced_at_once hrunners hmin hmax
    exact ⟨t, hreach, hfails⟩

/-- Sequence 1 starts at the time 5 and is idle at 1005, when it has the slot. -/
def leftAlone : List Action :=
  [.enqueue (System.headerOf 1 1) 5 ⟨0, 0⟩, .deliver 0, .collectBegin 0, .collectSlot 0,
    .collectEnd 0, .reapBegin 1005 [1]]

theorem reaperCovers_leftAlone :
    ∃ t, Reachable (Timed.step System.oneSlot) (.init System.oneSlot) t ∧
      t.lastAccepted 1 = some 5 ∧
      t.system.sched.forceEndTarget System.oneSlot = some ⟨0, 0⟩ ∧
      t.ReaperCovers System.oneSlot := by
  have hrun : (runWhen (Timed.step System.oneSlot) (fun _ _ => True) (.init System.oneSlot)
      leftAlone).map (fun t => t.lastAccepted 1 == some 5 &&
        t.system.sched.forceEndTarget System.oneSlot == some ⟨0, 0⟩) = some true := by decide
  obtain ⟨t, hreach, ht⟩ := exists_of_runWhen hrun
  simp only [Bool.and_eq_true, beq_iff_eq] at ht
  exact ⟨t, hreach, ht.1, ht.2, (reaperCovers_limit System.oneSlot).1 (by decide) t hreach⟩

/-- A model whose sequences may be idle for ever. -/
def neverIdle : Config :=
  { System.oneSlot with maxSequenceIdleMicroseconds := 18446744073709551615 }

/-- The sequence that has begun at the time 0 is ended at the time 0. -/
theorem neverIdle_forced :
    ∃ t, Reachable (Timed.step neverIdle) (.init neverIdle) t ∧ t.clock = 0 ∧
      t.system.sched.forceEndTarget neverIdle = some ⟨0, 0⟩ ∧ ¬ t.ReaperCovers neverIdle :=
  forced_at_once (by decide) (by decide) (by decide)

end Timed

end FinBert.Sequence
