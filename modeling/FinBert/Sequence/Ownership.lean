import FinBert.Sequence.Delivery

/-!
# A slot belongs to one sequence at a time

Result: `slotOwnership_of_reachableAtomic`, with atomic `Enqueue` calls a slot is
free or has one sequence, whose stay in it sees at most one end, as the last payload
of its queue; and a slot is released only by the stay that has it.
-/

namespace FinBert.Sequence

open FinBert.Serving Transition

namespace System

/-- `readyBatchSlots` and `sequenceToBatchslotMap` share the slots between them; what has
passed through the queue of a slot since its present stay began, of which the queue is
the part not collected yet, has at most one end, in the last place; and a slot for which
`ReleaseBatchSlot` is called is not free. -/
structure SlotOwnership (cfg : Config) (s : System) : Prop where
  readyOnce : s.sched.readyBatchSlots.Nodup
  readyUnmapped : ∀ c batchSlot, s.sched.sequenceToBatchslotMap.find c = some batchSlot →
    batchSlot ∉ s.sched.readyBatchSlots
  mapInjective : ∀ c c' batchSlot, s.sched.sequenceToBatchslotMap.find c = some batchSlot →
    s.sched.sequenceToBatchslotMap.find c' = some batchSlot → c = c'
  passedQueue : ∀ batchSlot o, s.history.occupant batchSlot = some o →
    s.sched.queue batchSlot <:+ s.history.passed batchSlot
  endOnce : ∀ batchSlot o, s.history.occupant batchSlot = some o →
    (s.history.passed batchSlot).countP Payload.isEnd ≤ 1
  endLast : ∀ batchSlot o, s.history.occupant batchSlot = some o →
    EndsLast Payload.isEnd (s.history.passed batchSlot)
  readyEmpty : ∀ batchSlot ∈ s.sched.readyBatchSlots,
    s.history.occupant batchSlot = none ∧ s.sched.queue batchSlot = []
  releaseHeld : ∀ b sched popped release,
    s.sched.collectSlot cfg b = some (sched, popped, some release) →
      s.visiting b ∉ s.sched.readyBatchSlots

variable {cfg : Config} {s : System}

/-- `ReleaseBatchSlot` is called for a slot whose queue has a front. -/
theorem queue_of_release {b : Nat} {sched : Scheduler} {popped : Option Payload}
    {release : Scheduler.Release}
    (h : s.sched.collectSlot cfg b = some (sched, popped, some release)) :
    s.sched.queue (s.visiting b) ≠ [] := by
  obtain ⟨pass, hpass, -, hvisited⟩ := Scheduler.collectSlot_eq_some h
  have hvisit : s.visiting b = ⟨b, pass.slot⟩ := by simp [visiting, hpass]
  cases hvisited with
  | handedOn hqueue | freed hqueue =>
    rw [hvisit, Scheduler.queue, hqueue]
    exact List.cons_ne_nil _ _

theorem slotOwnership_of_inv (h : s.table.Inv cfg) : s.SlotOwnership cfg := by
  have hends : ∀ batchSlot o, s.history.occupant batchSlot = some o →
      s.sched.queue batchSlot <:+ s.history.passed batchSlot ∧
        EndsLast Payload.isEnd (s.history.passed batchSlot) := by
    intro batchSlot o ho
    obtain ⟨gone, hpassed, hgone⟩ := h.queues.passed batchSlot o ho
    have hpassed : s.history.passed batchSlot = gone ++ s.sched.queue batchSlot := hpassed
    rw [hpassed]
    exact ⟨List.suffix_append _ _, EndsLast.append_left hgone (h.queues.endsLast batchSlot)⟩
  have hfree : ∀ batchSlot ∈ s.sched.readyBatchSlots,
      s.history.occupant batchSlot = none ∧ s.sched.queue batchSlot = [] := by
    intro batchSlot hmem
    have hnone := ((h.slots.ready_iff batchSlot).mp hmem).2
    exact ⟨hnone, (h.free_empty hnone).1⟩
  refine ⟨h.slots.readyNodup, fun c batchSlot hc hmem => ?_, fun c c' batchSlot hc hc' =>
    h.slotOf_injective hc hc', fun batchSlot o ho => (hends batchSlot o ho).1,
    fun batchSlot o ho => (hends batchSlot o ho).2.countP_le_one,
    fun batchSlot o ho => (hends batchSlot o ho).2, hfree,
    fun b sched popped release hrel hmem => ?_⟩
  · have hocc := h.map.occupant c batchSlot hc
    rw [((h.slots.ready_iff batchSlot).mp hmem).2] at hocc
    cases hocc
  · exact queue_of_release hrel (hfree _ hmem).2

theorem slotOwnership_of_reachableAtomic (cfg : Config) (s : System)
    (h : ReachableAtomic cfg s) : s.SlotOwnership cfg :=
  slotOwnership_of_inv (inv_of_reachableInOrder (atomic_run h).1.inOrder)

/-- The reaper ends sequence 1, which had gone idle, and its correlation ID is started
anew in the backlog while sequence 2 takes over the slot. -/
def forceEnded : List Action :=
  [.enqueue (headerOf 1 1) 0 ⟨0, 0⟩, .enqueue (headerOf 2 1) 500 ⟨0, 0⟩,
    .reapBegin 1200 [1, 2], .reapEntry, .reapEntry, .reapEnd,
    .enqueue (headerOf 1 1) 1200 ⟨0, 0⟩] ++ onePass ++ onePass

theorem slotOwnership_forceEnded :
    ∃ s, ReachableAtomic oneSlot s ∧ s.history.occupant ⟨0, 0⟩ = some ⟨2, 1⟩ ∧
      s.sched.sequenceToBacklogMap.find 1 = some 1 ∧ s.SlotOwnership oneSlot := by
  have hrun : (runWhen (System.atomicStep oneSlot) (fun _ _ => True) (.init oneSlot)
      forceEnded).map (fun s => s.history.occupant ⟨0, 0⟩ == some ⟨2, 1⟩ &&
        s.sched.sequenceToBacklogMap.find 1 == some 1) = some true := by decide
  obtain ⟨s, hreach, hs⟩ := exists_of_runWhen hrun
  simp only [Bool.and_eq_true, beq_iff_eq] at hs
  exact ⟨s, hreach, hs.1, hs.2, slotOwnership_of_reachableAtomic oneSlot s hreach⟩

end System

end FinBert.Sequence
