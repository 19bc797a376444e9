import FinBert.Lib.KeyedQueues
import FinBert.Sequence.Delivery

/-!
# The backlog of the scheduler

A backlog queue is in `backlog_queues_` and, while its sequence goes on, the value of the entry of
its correlation ID in `sequence_to_backlog_map_`. The queues are those of `KeyedQueues`, in every
run and whatever the order in which requests arrive in their slots: only the steps that hold the
scheduler mutex change them.

Results:
1. `BacklogInv.enqueued`, `BacklogInv.release`: `Enqueue` and `ReleaseBatchSlot` keep the invariant.
2. `backlogKept_of_reachable`: the bookkeeping in every run; `ReleaseBatchSlot` never reports a
   conflict.
-/

namespace FinBert.Sequence

open FinBert.Serving Transition

/-- The key of a request in the backlog. -/
def Request.correlationId (r : Request) : CorrelationId := r.header.correlationId

def Request.isEnd (r : Request) : Bool := r.header.seqEnd

namespace Scheduler

/-- The backlog as queues under correlation IDs. -/
def keyedBacklog (s : Scheduler) : KeyedQueues CorrelationId Request where
  attached := s.sequenceToBacklogMap.find
  queues := s.backlogQueues
  contents := s.backlogs
  next := s.nextBacklog

/-- The bookkeeping of the backlog. -/
structure BacklogKept (s : Scheduler) : Prop where
  exclusive : ∀ c, s.sequenceToBatchslotMap.find c = none ∨ s.sequenceToBacklogMap.find c = none
  growing : ∀ c q, s.sequenceToBacklogMap.find c = some q → q ∈ s.backlogQueues ∧
    ∀ r ∈ s.backlogs q, r.header.correlationId = c ∧ r.header.seqEnd = false
  nonempty : ∀ q ∈ s.backlogQueues, s.backlogs q ≠ []
  ended : ∀ q ∈ s.backlogQueues, (∀ c, s.sequenceToBacklogMap.find c ≠ some q) →
    ∃ last, (s.backlogs q).getLast? = some last ∧ last.header.seqEnd = true
  noConflict : ∀ c name, .backlogConflict c name ∉ s.logErrors

structure BacklogInv (s : Scheduler) : Prop where
  queues : KeyedQueues.Inv Request.correlationId Request.isEnd s.keyedBacklog
  exclusive : ∀ c, s.sequenceToBatchslotMap.find c = none ∨ s.sequenceToBacklogMap.find c = none
  noConflict : ∀ c name, .backlogConflict c name ∉ s.logErrors

theorem BacklogInv.kept {s : Scheduler} (h : s.BacklogInv) : s.BacklogKept where
  exclusive := h.exclusive
  growing := fun c q hq => ⟨h.queues.listed c q hq, h.queues.own c q hq⟩
  nonempty := h.queues.nonempty
  ended := h.queues.ended
  noConflict := h.noConflict

variable {cfg : Config} {s s' : Scheduler}

/-- The slot map may lose entries. -/
theorem BacklogInv.frame (h : s.BacklogInv) (hbacklog : s'.keyedBacklog = s.keyedBacklog)
    (hslots : ∀ c, s'.sequenceToBatchslotMap.find c = none ∨
      s'.sequenceToBatchslotMap.find c = s.sequenceToBatchslotMap.find c)
    (hlog : ∀ c name, .backlogConflict c name ∈ s'.logErrors →
      .backlogConflict c name ∈ s.logErrors) : s'.BacklogInv := by
  have hmap : s'.sequenceToBacklogMap.find = s.sequenceToBacklogMap.find :=
    congrArg KeyedQueues.attached hbacklog
  refine ⟨hbacklog ▸ h.queues, fun c => ?_,
    fun c name hmem => h.noConflict c name (hlog c name hmem)⟩
  rw [hmap]
  rcases hslots c with hnone | hsame
  · exact .inl hnone
  · rw [hsame]
    exact h.exclusive c

theorem BacklogInv.of_same (h : s.BacklogInv) (hbacklog : s'.keyedBacklog = s.keyedBacklog)
    (hslots : s'.sequenceToBatchslotMap = s.sequenceToBatchslotMap)
    (hlog : s'.logErrors = s.logErrors) : s'.BacklogInv :=
  h.frame hbacklog (fun c => .inr (by rw [hslots])) fun c name hmem => hlog ▸ hmem

theorem BacklogInv.of_sameSequences (h : s.BacklogInv) (hsame : s.SameSequences s') :
    s'.BacklogInv := by
  refine h.of_same ?_ hsame.slotMap hsame.logErrors
  unfold keyedBacklog
  rw [hsame.backlogMap, hsame.backlogQueues, hsame.backlogs, hsame.nextBacklog]

/-- The message about requests behind an end. -/
theorem BacklogInv.logged (h : s.BacklogInv) {rest : List Payload} {slot : Nat}
    {errors : List LogError}
    (hlog : errors = if rest = [] then s.logErrors else s.logErrors ++ [.requestsAfterEnd slot]) :
    BacklogInv { s with logErrors := errors } := by
  refine h.frame rfl (fun _ => .inr rfl) fun c name hmem => ?_
  simp only [hlog] at hmem
  split at hmem
  · exact hmem
  · exact (List.mem_append.mp hmem).resolve_right (by simp)

/-- A slot is found in the map of a request that may end only if it was there. -/
theorem find_assignSlot (t : Scheduler) (r : Request) (c : CorrelationId) :
    (t.assignSlot r).sequenceToBatchslotMap.find c = none ∨
      (t.assignSlot r).sequenceToBatchslotMap.find c = t.sequenceToBatchslotMap.find c := by
  unfold assignSlot
  split
  · exact UnorderedMap.find_erase_or _ _ c
  · exact .inr rfl

theorem keyedBacklog_assignSlot (t : Scheduler) (r : Request) :
    (t.assignSlot r).keyedBacklog = t.keyedBacklog := by
  unfold assignSlot
  split <;> rfl

theorem logErrors_assignSlot (t : Scheduler) (r : Request) :
    (t.assignSlot r).logErrors = t.logErrors := by
  unfold assignSlot
  split <;> rfl

/-- The map behind the request that is put in a backlog queue. -/
theorem find_continueBacklog (s : Scheduler) (r : Request) :
    UnorderedMap.find (if r.header.seqEnd then s.sequenceToBacklogMap.erase r.header.correlationId
      else s.sequenceToBacklogMap) =
    if r.isEnd then Function.update s.sequenceToBacklogMap.find r.correlationId none
    else s.sequenceToBacklogMap.find := by
  unfold Request.isEnd Request.correlationId
  split
  · exact UnorderedMap.find_erase _ _
  · rfl

/-- The map behind the request that begins a backlog queue. -/
theorem find_openBacklog (s : Scheduler) (r : Request) :
    UnorderedMap.find (if r.header.seqEnd then s.sequenceToBacklogMap
      else s.sequenceToBacklogMap.insert r.header.correlationId s.nextBacklog) =
    if r.isEnd then s.sequenceToBacklogMap.find
    else Function.update s.sequenceToBacklogMap.find r.correlationId (some s.nextBacklog) := by
  unfold Request.isEnd Request.correlationId
  split
  · rfl
  · exact UnorderedMap.find_insert _ _ _

theorem BacklogInv.enqueued (h : s.BacklogInv) {r : Request} {now : Nat} {placement : Placement}
    (hs : Enqueued s (s.stampTime r now) r s' placement) : s'.BacklogInv := by
  cases hs with
  | rejected status unknown => exact h
  | continueSlot slot =>
    refine h.frame (keyedBacklog_assignSlot _ r) (fun c => find_assignSlot _ r c) ?_
    rw [logErrors_assignSlot]
    exact fun _ _ hmem => hmem
  | @continueBacklog queue slot backlog =>
    have hmap := find_continueBacklog s r
    refine ⟨?_, fun c => ?_, h.noConflict⟩
    · have happend := h.queues.append (x := r) backlog
      unfold KeyedQueues.append at happend
      unfold keyedBacklog
      rw [hmap]
      exact happend
    · rw [hmap]
      refine (h.exclusive c).imp_right fun hnone => ?_
      split
      · rw [Function.update_apply, hnone, ite_self]
      · exact hnone
  | @openSlot top slot backlog isTop =>
    refine ⟨?_, fun c => ?_, ?_⟩
    · rw [keyedBacklog_assignSlot]
      exact h.queues
    · have hmap : ∀ t : Scheduler, (t.assignSlot r).sequenceToBacklogMap = t.sequenceToBacklogMap :=
        fun t => by unfold assignSlot; split <;> rfl
      rw [hmap]
      rcases find_assignSlot _ r c with hnone | hsame
      · exact .inl hnone
      · rw [hsame, UnorderedMap.find_insert_apply]
        split
        · next heq => exact .inr (heq ▸ backlog)
        · exact h.exclusive c
    · rw [logErrors_assignSlot]
      exact h.noConflict
  | openBacklog slot backlog full =>
    have hmap := find_openBacklog s r
    refine ⟨?_, fun c => ?_, h.noConflict⟩
    · have hstart := h.queues.start (x := r) backlog
      unfold KeyedQueues.start at hstart
      unfold keyedBacklog
      rw [hmap]
      exact hstart
    · by_cases heq : c = r.header.correlationId
      · exact .inl (heq ▸ slot)
      · rw [hmap]
        refine (h.exclusive c).imp_right fun hnone => ?_
        split
        · exact hnone
        · exact (Function.update_of_ne heq _ _).trans hnone

/-- `ReleaseBatchSlot`. -/
theorem BacklogInv.release (h : s.BacklogInv) {batchSlot : BatchSlot}
    {payloads queue : List Payload} {release : Release}
    (hs : s.releaseBatchSlot cfg batchSlot payloads = (s', queue, release)) : s'.BacklogInv := by
  unfold releaseBatchSlot at hs
  split at hs
  · cases hs
    exact h.of_same rfl rfl rfl
  · next backlog rest hqueues =>
    have hmem : backlog ∈ s.backlogQueues := hqueues ▸ List.mem_cons_self
    dsimp only at hs
    split at hs
    · next hnone => exact absurd (List.getLast?_eq_none_iff.mp hnone) (h.queues.nonempty _ hmem)
    · next last hlast =>
      have hpop := h.queues.pop hqueues hlast
      unfold KeyedQueues.pop at hpop
      split at hs
      · next hend =>
        cases hs
        rw [if_pos (show last.isEnd = true from hend)] at hpop
        exact ⟨hpop, h.exclusive, h.noConflict⟩
      · next hopen =>
        -- the queue is still collected, so that its correlation ID has no slot
        have hfound := h.queues.attached_last hmem hlast (Bool.eq_false_iff.mpr hopen)
        have hfree : s.sequenceToBatchslotMap.find last.header.correlationId = none :=
          (h.exclusive _).resolve_right fun hnone => by
            rw [show s.sequenceToBacklogMap.find last.header.correlationId = some backlog from
              hfound] at hnone
            cases hnone
        rw [if_neg (show ¬ last.isEnd = true from hopen)] at hpop
        simp only [hfree, Option.isSome_none, Bool.false_eq_true, if_false] at hs
        cases hs
        refine ⟨?_, fun c => ?_, h.noConflict⟩
        · unfold keyedBacklog
          rw [UnorderedMap.find_erase]
          exact hpop
        · rw [UnorderedMap.find_insert_apply, UnorderedMap.find_erase, Function.update_apply]
          split
          · exact .inr rfl
          · exact h.exclusive c

end Scheduler

namespace System

variable {cfg : Config} {s s' : System}

theorem backlogInv_step (h : s.sched.BacklogInv) {a : Action} (hs : s.step cfg a = some s') :
    s'.sched.BacklogInv := by
  cases a with
  | enqueue header now top =>
    obtain ⟨⟨sched, placement⟩, hsched, rfl⟩ := Option.map_eq_some_iff.mp hs
    rcases Scheduler.enqueue_eq_some hsched with ⟨rfl, -⟩ | ⟨-, -, henqueued⟩
    · exact h
    · exact h.enqueued henqueued
  | deliver call =>
    obtain ⟨d, sched, -, hsched, rfl⟩ := deliver_eq_some hs
    obtain ⟨rfl, -⟩ := Scheduler.deliver_eq hsched
    exact h.of_same rfl rfl rfl
  | collectSlot b =>
    obtain ⟨⟨sched, popped, released⟩, hsched, rfl⟩ := Option.map_eq_some_iff.mp hs
    obtain ⟨pass, -, -, hvisited⟩ := Scheduler.collectSlot_eq_some hsched
    cases hvisited with
    | empty | collected => exact h.of_same rfl rfl rfl
    | handedOn hqueue hends hfree hlog hrelease | freed hqueue hends hfree hlog hrelease =>
      exact ((h.logged hlog).release hrelease).of_same rfl rfl rfl
  | reapEntry =>
    obtain ⟨⟨sched, forced⟩, hentry, rfl⟩ := Option.map_eq_some_iff.mp hs
    obtain ⟨-, pass, timestamps, rfl⟩ | ⟨target, c, pass, timestamps, -, -, hslot, hdeliver⟩ :=
      Scheduler.reapEntry_eq_some hentry
    · exact h.of_same rfl rfl rfl
    · rw [(Scheduler.deliver_eq hdeliver).1]
      exact h.frame rfl (fun c' => UnorderedMap.find_erase_or _ c c') fun _ _ hmem => hmem
  | delay | collectBegin | collectEnd | reapBegin | reapEnd =>
    exact h.of_sameSequences (sameSequences_of_quiet rfl hs)

theorem backlogInv_init (cfg : Config) : (System.init cfg).sched.BacklogInv := by
  have hnone : (System.init cfg).sched.sequenceToBacklogMap.find = fun _ => none :=
    UnorderedMap.find_empty
  have hunattached : ∀ c q, (System.init cfg).sched.keyedBacklog.attached c ≠ some q := by
    intro c q hfound
    rw [Scheduler.keyedBacklog, hnone] at hfound
    cases hfound
  refine ⟨⟨List.nodup_nil, fun q hq => ?_, fun c q hq => absurd hq (hunattached c q),
    fun c q hq => absurd hq (hunattached c q), fun q hq => ?_, fun q hq => ?_⟩,
    fun c => .inr (congrFun hnone c), fun c name hmem => ?_⟩
  · cases hq
  · cases hq
  · cases hq
  · cases hmem

/-- The bookkeeping of the backlog in every run. -/
theorem backlogKept_of_reachable (cfg : Config) (s : System)
    (h : Reachable (System.step cfg) (.init cfg) s) : s.sched.BacklogKept :=
  (h.invariant (P := fun s : System => s.sched.BacklogInv) (backlogInv_init cfg)
    fun _ _ _ ih _ hs => backlogInv_step ih hs).kept

/-- Sequence 2 is collected in the backlog up to its end and is started again while sequence 1 has
the only slot. -/
def startedAgain : List Action :=
  [.enqueue (headerOf 1 1) 0 ⟨0, 0⟩, .enqueue (headerOf 2 1) 0 ⟨0, 0⟩,
    .enqueue (headerOf 2 2) 0 ⟨0, 0⟩, .enqueue (headerOf 2 1) 0 ⟨0, 0⟩]

theorem backlogKept_startedAgain :
    ∃ s, Reachable (System.step oneSlot) (.init oneSlot) s ∧ s.sched.backlogQueues = [0, 1] ∧
      s.sched.sequenceToBacklogMap.find 2 = some 1 ∧ s.sched.BacklogKept := by
  have hrun : (runWhen (System.step oneSlot) (fun _ _ => True) (.init oneSlot) startedAgain).map
      (fun s => s.sched.backlogQueues == [0, 1] &&
        s.sched.sequenceToBacklogMap.find 2 == some 1) = some true := by decide
  obtain ⟨s, hreach, hs⟩ := exists_of_runWhen hrun
  simp only [Bool.and_eq_true, beq_iff_eq] at hs
  exact ⟨s, hreach, hs.1, hs.2, backlogKept_of_reachable oneSlot s hreach⟩

end System

end FinBert.Sequence
