import FinBert.Sequence.Invariant

/-!
# Every step is a move of the slot table

`step_refines`: from a state whose table satisfies the invariant, a step of the
system makes one move of its table, and the move is permitted when the step meets
`endComesLast`. So every table reached in order satisfies the invariant
(`inv_of_reachableInOrder`), and so does every table reached with atomic `Enqueue`
calls, whose runs are runs in which every end comes last (`atomic_run`).
-/

namespace FinBert.Sequence

open FinBert.Serving Transition

namespace Scheduler

variable {s : Scheduler} {b slot : Nat} {sb : SequenceBatch} {l : List Payload}

@[simp] theorem setBatcher_sequenceToBatchslotMap :
    (s.setBatcher b sb).sequenceToBatchslotMap = s.sequenceToBatchslotMap := rfl

@[simp] theorem setBatcher_sequenceToBacklogMap :
    (s.setBatcher b sb).sequenceToBacklogMap = s.sequenceToBacklogMap := rfl

@[simp] theorem setBatcher_backlogQueues : (s.setBatcher b sb).backlogQueues = s.backlogQueues :=
  rfl

@[simp] theorem setBatcher_backlogs : (s.setBatcher b sb).backlogs = s.backlogs :=
  rfl

@[simp] theorem setBatcher_nextBacklog : (s.setBatcher b sb).nextBacklog = s.nextBacklog :=
  rfl

@[simp] theorem setBatcher_readyBatchSlots :
    (s.setBatcher b sb).readyBatchSlots = s.readyBatchSlots := rfl

@[simp] theorem setBatcher_reaper : (s.setBatcher b sb).reaper = s.reaper :=
  rfl

@[simp] theorem queue_setBatcher_same {header : InferRequestHeader} {active : Int}
    {ids : Nat → CorrelationId} {cnt : Nat} {pass : Option CollectPass} :
    (s.setBatcher b ⟨header, (s.batchers b).queues, active, ids, cnt, pass⟩).queue = s.queue := by
  funext batchSlot
  simp only [queue, setBatcher, Function.update_apply]
  split
  · next hb => rw [hb]
  · rfl

@[simp] theorem queue_setBatcher_update {header : InferRequestHeader} {active : Int}
    {ids : Nat → CorrelationId} {cnt : Nat} {pass : Option CollectPass} :
    (s.setBatcher b
      ⟨header, Function.update (s.batchers b).queues slot l, active, ids, cnt, pass⟩).queue =
      Function.update s.queue ⟨b, slot⟩ l := by
  funext ⟨b', slot'⟩
  simp only [queue, setBatcher, Function.update_apply, BatchSlot.mk.injEq]
  by_cases hb : b' = b
  · subst hb
    simp only [if_true, true_and, Function.update_apply]
  · simp [hb]

/-- A delivery appends to the queue of the slot and touches nothing else. -/
theorem deliver_eq {s' : Scheduler} {target : BatchSlot} {c : CorrelationId} {p : Payload}
    (h : s.deliver target c p = some s') :
    s' = s.setBatcher target.batcherIdx ((s.batchers target.batcherIdx).enqueue target.slot c p) ∧
      s'.queue = Function.update s.queue target (s.queue target ++ [p]) := by
  simp only [deliver] at h
  split at h
  · cases h
  · simp only [Option.some.injEq] at h
    subst h
    exact ⟨rfl, queue_setBatcher_update⟩

end Scheduler

namespace System

variable {cfg : Config} {s s' : System}

theorem knows_iff (s : System) (c : CorrelationId) :
    s.sched.knows c = true ↔ s.table.slotOf c ≠ none ∨ s.table.backlogOf c ≠ none := by
  simp [Scheduler.knows, table, Option.isSome_iff_ne_none]

/-- A request of a correlation ID in one of the maps belongs to its present stay. -/
theorem stamped_known {header : InferRequestHeader}
    (h : s.sched.knows header.correlationId = true) :
    s.table.Stamped (s.history.stamp s.sched header) (s.table.opened header.correlationId) := by
  simp [SlotTable.Stamped, History.stamp, History.occupancyOf, table, h]

theorem stamped_new {header : InferRequestHeader}
    (h : s.sched.knows header.correlationId = false) :
    s.table.Stamped (s.history.stamp s.sched header) (s.table.opened header.correlationId + 1) := by
  simp [SlotTable.Stamped, History.stamp, History.occupancyOf, table, h]

theorem enqueue_refines {header : InferRequestHeader} {now : Nat} {top : BatchSlot}
    (h : s.enqueue cfg header now top = some s') :
    ∃ m, s.table.Enabled m ∧ s'.table = s.table.after m ∧ s.table.Permitted m ∧ m.InOrder := by
  simp only [enqueue] at h
  set r := s.history.stamp s.sched header
  have hc : r.header.correlationId = header.correlationId := rfl
  obtain ⟨⟨sched, placement⟩, henq, rfl⟩ := Option.map_eq_some_iff.mp h
  obtain ⟨rfl, status, -, rfl⟩ | ⟨-, -, henqueued⟩ := Scheduler.enqueue_eq_some henq
  · exact ⟨.idle, trivial, rfl, trivial, trivial⟩
  cases henqueued with
  | rejected => exact ⟨.idle, trivial, rfl, trivial, trivial⟩
  | @continueSlot target hslot =>
    have hknows := (knows_iff s header.correlationId).mpr (.inl (by simp [table, ← hc, hslot]))
    refine ⟨.continueSlot target r, ⟨hslot, stamped_known hknows⟩, ?_, trivial, trivial⟩
    cases hend : r.header.seqEnd <;>
      simp [table, SlotTable.after, SlotTable.call, Scheduler.stampTime, Scheduler.assignSlot,
        History.accept, hend, UnorderedMap.find_erase] <;> rfl
  | @continueBacklog queue hslot hbacklog =>
    have hknows := (knows_iff s header.correlationId).mpr (.inr (by simp [table, ← hc, hbacklog]))
    refine ⟨.continueBacklog queue r, ⟨hslot, hbacklog, stamped_known hknows⟩, ?_, trivial,
      trivial⟩
    cases hend : r.header.seqEnd <;>
      simp [table, SlotTable.after, Scheduler.stampTime, Scheduler.pushBacklog, History.accept,
        hend, UnorderedMap.find_erase] <;> rfl
  | @openSlot target hslot hbacklog htop =>
    have hknows : s.sched.knows header.correlationId = false := by
      simp [Scheduler.knows, ← hc, hslot, hbacklog]
    refine ⟨.openSlot target r, ⟨hslot, hbacklog, htop.1, stamped_new hknows⟩, ?_, trivial,
      trivial⟩
    cases hend : r.header.seqEnd <;>
      simp [table, SlotTable.after, SlotTable.call, SlotTable.handTo,
        Scheduler.stampTime, Scheduler.assignSlot, History.accept, History.start, History.enter,
        hend, UnorderedMap.find_insert, UnorderedMap.find_erase] <;> rfl
  | openBacklog hslot hbacklog hfull =>
    have hknows : s.sched.knows header.correlationId = false := by
      simp [Scheduler.knows, ← hc, hslot, hbacklog]
    refine ⟨.openBacklog r, ⟨hslot, hbacklog, hfull, stamped_new hknows⟩, ?_, trivial, trivial⟩
    cases hend : r.header.seqEnd <;>
      simp [table, SlotTable.after, Scheduler.stampTime, History.accept, History.start, hend,
        UnorderedMap.find_insert] <;> rfl

theorem deliver_refines (cfg : Config) {call : Nat} (h : s.deliver call = some s') :
    ∃ d, s.table.Enabled (.deliver call d) ∧ s'.table = s.table.after (.deliver call d) ∧
      (s.endComesLast cfg (.deliver call) = true → s.table.Permitted (.deliver call d)) := by
  obtain ⟨d, sched, hd, hsched, rfl⟩ := deliver_eq_some h
  obtain ⟨rfl, hqueue⟩ := Scheduler.deliver_eq hsched
  refine ⟨d, hd, ?_, ?_⟩
  · simp only [table, hqueue, SlotTable.after, History.deliver]
    rfl
  · intro hlast hend d' hd'
    simp only [endComesLast, hd, hend, Bool.not_true, Bool.false_or, List.all_eq_true,
      decide_eq_true_eq] at hlast
    exact hlast d' hd'

theorem reapEntry_refines (h : s.reapEntry cfg = some s') :
    ∃ m, s.table.Enabled m ∧ s'.table = s.table.after m ∧
      (s.endComesLast cfg .reapEntry = true → s.table.Permitted m) ∧ m.InOrder := by
  obtain ⟨⟨sched, forced⟩, hentry, rfl⟩ := Option.map_eq_some_iff.mp h
  obtain ⟨rfl, pass, timestamps, rfl⟩ |
      ⟨target, c, pass, timestamps, rfl, htarget, hslot, hdeliver⟩ :=
    Scheduler.reapEntry_eq_some hentry
  · exact ⟨.idle, trivial, rfl, fun _ => trivial, trivial⟩
  · obtain ⟨rfl, hqueue⟩ := Scheduler.deliver_eq hdeliver
    refine ⟨.forceEnd target c, hslot, ?_, fun hlast d hd => ?_, trivial⟩
    · simp only [table, hqueue, SlotTable.after, History.deliver,
        Scheduler.setBatcher_sequenceToBatchslotMap, UnorderedMap.find_erase]
      rfl
    · simp only [endComesLast, htarget, List.all_eq_true, decide_eq_true_eq] at hlast
      exact hlast d hd

theorem history_dispatch (s : System) (batchSlot : BatchSlot) (p : Payload) :
    s.history.dispatch s.sched batchSlot (some p) =
      { s.history with
        dispatched := s.table.record batchSlot p (s.history.passes batchSlot.batcherIdx) } := by
  cases p <;> rfl

theorem collectSlot_refines (hinv : s.table.Inv cfg) {b : Nat}
    (h : s.collectSlot cfg b = some s') :
    ∃ m, s.table.Enabled m ∧ s'.table = s.table.after m ∧ s.table.Permitted m ∧ m.InOrder := by
  obtain ⟨⟨sched, popped, released⟩, hslot, rfl⟩ := Option.map_eq_some_iff.mp h
  obtain ⟨pass, hpass, -, hvisited⟩ := Scheduler.collectSlot_eq_some hslot
  have hvisit : s.visiting b = ⟨b, pass.slot⟩ := by simp [visiting, hpass]
  cases hvisited with
  | empty hempty =>
    refine ⟨.idle, trivial, ?_, trivial, trivial⟩
    simp only [table, SlotTable.after, Scheduler.queue_setBatcher_same]
    rfl
  | @collected p rest hqueue hgoesOn =>
    refine ⟨.collect ⟨b, pass.slot⟩ p rest (s.history.passes b), ⟨hqueue, hgoesOn⟩,
      ?_, trivial, trivial⟩
    simp [table, SlotTable.after, hvisit, history_dispatch, History.release]
  | @freed p rest queue' errors sched₁ hqueue hends hfree hlog hrelease =>
    have hq : s.table.queue ⟨b, pass.slot⟩ = p :: rest := hqueue
    obtain ⟨rfl, -, -⟩ := hinv.end_alone hq hends
    cases hqueues : s.sched.backlogQueues with
    | nil =>
      simp only [Scheduler.releaseBatchSlot, hqueues, Prod.mk.injEq] at hrelease
      obtain ⟨rfl, rfl, -⟩ := hrelease
      refine ⟨.free ⟨b, pass.slot⟩ p [] (s.history.passes b), ⟨hq, hends, hqueues⟩, ?_, trivial,
        trivial⟩
      simp only [table, SlotTable.after, SlotTable.placeAfter, hvisit, history_dispatch,
        History.release, History.leave, Scheduler.queue_setBatcher_update, hqueues]
      rfl
    | cons queue queues =>
      -- a backlog queue is not empty, so that the slot is handed on
      have hmem : queue ∈ s.table.backlogQueues := by simp [table, hqueues]
      have hne : s.sched.backlogs queue ≠ [] := hinv.backlog.nonempty queue hmem
      obtain ⟨last, hlast⟩ := Option.isSome_iff_exists.mp (List.getLast?_isSome.mpr hne)
      simp only [Scheduler.releaseBatchSlot, hqueues, hlast] at hrelease
      split at hrelease <;> cases hrelease
  | @handedOn p rest queue' errors sched₁ q hqueue hends hfree hlog hrelease =>
    have hq : s.table.queue ⟨b, pass.slot⟩ = p :: rest := hqueue
    obtain ⟨rfl, -, -⟩ := hinv.end_alone hq hends
    cases hqueues : s.sched.backlogQueues with
    | nil =>
      simp only [Scheduler.releaseBatchSlot, hqueues] at hrelease
      cases hrelease
    | cons queue queues =>
      have hmem : queue ∈ s.table.backlogQueues := by simp [table, hqueues]
      have hne : s.sched.backlogs queue ≠ [] := hinv.backlog.nonempty queue hmem
      obtain ⟨last, hlast⟩ := Option.isSome_iff_exists.mp (List.getLast?_isSome.mpr hne)
      obtain ⟨first, hfirst⟩ := Option.isSome_iff_exists.mp (List.isSome_head?.mpr hne)
      simp only [Scheduler.releaseBatchSlot, hqueues, hlast] at hrelease
      refine ⟨.handOn ⟨b, pass.slot⟩ p [] (s.history.passes b) queue queues first last,
        ⟨hq, hends, hqueues, hfirst, hlast⟩, ?_, trivial, trivial⟩
      cases hopen : last.header.seqEnd with
      | true =>
        simp only [hopen, if_true, Prod.mk.injEq, Scheduler.Release.handedOn.injEq] at hrelease
        obtain ⟨rfl, rfl, rfl⟩ := hrelease
        simp only [table, SlotTable.after, SlotTable.placeAfter, hvisit, history_dispatch,
          History.release, History.leave, History.enter, hfirst, hopen, if_true,
          Function.update_idem, Scheduler.queue_setBatcher_update]
        rfl
      | false =>
        -- the correlation ID is still in the backlog map, so it has no slot
        have hnone : s.sched.sequenceToBatchslotMap.find last.header.correlationId = none :=
          (hinv.map.exclusive _).resolve_right
            (by simp [hinv.backlog.growing queue hmem last hlast hopen])
        simp only [hopen, hnone, Option.isSome_none, Bool.false_eq_true, if_false,
          Prod.mk.injEq, Scheduler.Release.handedOn.injEq] at hrelease
        obtain ⟨rfl, rfl, rfl⟩ := hrelease
        simp only [table, SlotTable.after, SlotTable.placeAfter, hvisit, history_dispatch,
          History.release, History.leave, History.enter, hfirst, hopen, Bool.false_eq_true,
          Function.update_idem, if_false, Scheduler.queue_setBatcher_update,
          Scheduler.setBatcher_sequenceToBatchslotMap,
          Scheduler.setBatcher_sequenceToBacklogMap, UnorderedMap.find_insert,
          UnorderedMap.find_erase]
        rfl

/-! ## Steps that leave the table alone -/

theorem delay_refines {b : Nat} {sched : Scheduler} (h : s.sched.delay cfg b = some sched) :
    ({ s with sched := sched } : System).table = s.table := by
  obtain ⟨-, cnts, rfl | rfl⟩ := Scheduler.delay_eq_some h
  · rfl
  · simp [table]
    rfl

theorem collectBegin_refines {b : Nat} (h : s.collectBegin b = some s') : s'.table = s.table := by
  obtain ⟨sched, hsched, rfl⟩ := Option.map_eq_some_iff.mp h
  obtain ⟨-, maxSlot, -, rfl⟩ := Scheduler.collectBegin_eq_some hsched
  simp [table]

theorem collectEnd_refines {b : Nat} (h : s.collectEnd b = some s') : s'.table = s.table := by
  obtain ⟨⟨sched, payloads⟩, hsched, rfl⟩ := Option.map_eq_some_iff.mp h
  obtain ⟨pass, -, -, rfl, rfl⟩ := Scheduler.collectEnd_eq_some hsched
  simp [table]

theorem reapBegin_refines {now : Nat} {order : List CorrelationId} {sched : Scheduler}
    (h : s.sched.reapBegin cfg now order = some sched) :
    ({ s with sched := sched } : System).table = s.table := by
  obtain ⟨-, rfl⟩ := Scheduler.reapBegin_eq_some h
  rfl

theorem reapEnd_refines {sched : Scheduler} (h : s.sched.reapEnd = some sched) :
    ({ s with sched := sched } : System).table = s.table := by
  obtain ⟨pass, -, -, rfl⟩ := Scheduler.reapEnd_eq_some h
  rfl

/-- Every step of the system is a move of its table: permitted when an end comes
last, in order when the oldest call is delivered first. -/
theorem step_refines (hinv : s.table.Inv cfg) {a : Action} (h : s.step cfg a = some s') :
    ∃ m, s.table.Enabled m ∧ s'.table = s.table.after m ∧
      (s.endComesLast cfg a = true → s.table.Permitted m) ∧
      (oldestFirst a = true → m.InOrder) := by
  have hidle : s'.table = s.table → ∃ m, s.table.Enabled m ∧ s'.table = s.table.after m ∧
      (s.endComesLast cfg a = true → s.table.Permitted m) ∧
      (oldestFirst a = true → m.InOrder) :=
    fun ht => ⟨.idle, trivial, ht, fun _ => trivial, fun _ => trivial⟩
  cases a with
  | enqueue header now top =>
    obtain ⟨m, he, ht, hp, hord⟩ := enqueue_refines h
    exact ⟨m, he, ht, fun _ => hp, fun _ => hord⟩
  | deliver call =>
    obtain ⟨d, he, ht, hp⟩ := deliver_refines cfg h
    exact ⟨_, he, ht, hp, fun hold => by simpa [oldestFirst, Move.InOrder] using hold⟩
  | delay b =>
    obtain ⟨sched, hsched, rfl⟩ := Option.map_eq_some_iff.mp h
    exact hidle (delay_refines hsched)
  | collectBegin b => exact hidle (collectBegin_refines h)
  | collectSlot b =>
    obtain ⟨m, he, ht, hp, hord⟩ := collectSlot_refines hinv h
    exact ⟨m, he, ht, fun _ => hp, fun _ => hord⟩
  | collectEnd b => exact hidle (collectEnd_refines h)
  | reapBegin now order =>
    obtain ⟨sched, hsched, rfl⟩ := Option.map_eq_some_iff.mp h
    exact hidle (reapBegin_refines hsched)
  | reapEntry =>
    obtain ⟨m, he, ht, hp, hord⟩ := reapEntry_refines h
    exact ⟨m, he, ht, hp, fun _ => hord⟩
  | reapEnd =>
    obtain ⟨sched, hsched, rfl⟩ := Option.map_eq_some_iff.mp h
    exact hidle (reapEnd_refines hsched)

/-! ## Runs -/

theorem inv_step (hinv : s.table.Inv cfg) {a : Action} (hlast : s.endComesLast cfg a = true)
    (h : s.step cfg a = some s') : s'.table.Inv cfg := by
  obtain ⟨m, he, ht, hp, -⟩ := step_refines hinv h
  exact ht ▸ SlotTable.inv_after hinv he (hp hlast)

/-- The invariant along every run in which every end comes last. -/
theorem inv_of_reachableInOrder (h : ReachableInOrder cfg s) : s.table.Inv cfg :=
  ReachableWhen.invariant (P := fun s => s.table.Inv cfg) (SlotTable.inv_init cfg)
    (fun _ _ _ hinv hlast hs => inv_step hinv hlast hs) h

/-- `Enqueue` adds at most one call to those on their way. -/
theorem inFlight_enqueue {header : InferRequestHeader} {now : Nat} {top : BatchSlot}
    (h : s.enqueue cfg header now top = some s') :
    s'.inFlight = s.inFlight ∨
      ∃ target, s'.inFlight =
        s.inFlight ++ [⟨target, s.history.stamp s.sched header⟩] := by
  obtain ⟨⟨sched, placement⟩, -, rfl⟩ := Option.map_eq_some_iff.mp h
  cases placement with
  | rejected status => exact .inl rfl
  | backlog queue opens => exact .inl rfl
  | slot target opens => exact .inr ⟨target, rfl⟩

theorem inFlight_step {a : Action} (henq : ∀ header now top, a ≠ .enqueue header now top)
    (hdel : ∀ call, a ≠ .deliver call) (h : s.step cfg a = some s') : s'.inFlight = s.inFlight := by
  cases a with
  | enqueue header now top => exact absurd rfl (henq header now top)
  | deliver call => exact absurd rfl (hdel call)
  | _ =>
    obtain ⟨_, -, rfl⟩ := Option.map_eq_some_iff.mp h
    rfl

theorem atomicStep_eq {a : Action} (henq : ∀ header now top, a ≠ .enqueue header now top)
    (hdel : ∀ call, a ≠ .deliver call) : s.atomicStep cfg a = s.step cfg a := by
  cases a with
  | enqueue header now top => exact absurd rfl (henq header now top)
  | deliver call => exact absurd rfl (hdel call)
  | _ => rfl

/-- The runs in which every end comes last and the oldest call is delivered first. -/
abbrev OrderedRun (cfg : Config) : System → System → Prop :=
  ReachableWhen (System.step cfg) fun s a => s.endComesLast cfg a = true ∧ oldestFirst a = true

/-- An atomic step is a run of one or two steps, and leaves no call on its way. -/
theorem atomicStep_run (hquiet : s.inFlight = []) {a : Action}
    (h : s.atomicStep cfg a = some s') : OrderedRun cfg s s' ∧ s'.inFlight = [] := by
  cases a with
  | enqueue header now top =>
    obtain ⟨t, ht, h⟩ := Option.bind_eq_some_iff.mp h
    have hrun : OrderedRun cfg s t := .single ⟨rfl, rfl⟩ ht
    split at h
    · next hnone =>
      obtain rfl := Option.some.inj h
      exact ⟨hrun, hnone⟩
    · next hsome =>
      rcases inFlight_enqueue ht with hkeep | ⟨target, hadd⟩
      · exact absurd (hkeep.trans hquiet) hsome
      · rw [hquiet, List.nil_append] at hadd
        refine ⟨hrun.step ⟨by simp [endComesLast, hadd], rfl⟩ h, ?_⟩
        simp only [step, deliver, hadd] at h
        obtain ⟨_, -, rfl⟩ := Option.map_eq_some_iff.mp h
        rfl
  | deliver call => cases h
  | reapEntry =>
    rw [atomicStep_eq (by simp) (by simp)] at h
    refine ⟨.single ⟨?_, rfl⟩ h, (inFlight_step (by simp) (by simp) h).trans hquiet⟩
    simp only [endComesLast, hquiet, List.all_nil]
    split <;> rfl
  | _ =>
    rw [atomicStep_eq (by simp) (by simp)] at h
    exact ⟨.single ⟨rfl, rfl⟩ h, (inFlight_step (by simp) (by simp) h).trans hquiet⟩

/-- Runs with atomic `Enqueue` calls are such runs. -/
theorem atomic_run (h : ReachableAtomic cfg s) : OrderedRun cfg (.init cfg) s ∧ s.inFlight = [] :=
  ReachableWhen.simulate (P := fun s => s.inFlight = []) rfl
    (fun _ _ _ hquiet _ hs => atomicStep_run hquiet hs) h

theorem OrderedRun.inOrder (h : OrderedRun cfg (.init cfg) s) : ReachableInOrder cfg s :=
  h.weaken fun _ _ => And.left

end System

end FinBert.Sequence
