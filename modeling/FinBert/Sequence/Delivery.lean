import FinBert.Sequence.Batches
import FinBert.Sequence.Ledger

/-!
# No request is lost, and none reaches the slot of another sequence

Results:
1. `delivered_of_reachableInOrder`: as long as every end of a sequence is the last
   thing put in the queue of its slot, each accepted request is dispatched at most
   once, in the slot that its stay has at that moment, and until then waits in a
   queue or is on its way there.
2. `not_delivered_of_interleaving`: the two halves of `Enqueue` can be interleaved
   so that this fails.
3. `dispatchOrder_of_reachableAtomic`: with atomic `Enqueue` calls the requests of a
   stay are dispatched in the order of their arrival, from one slot, at most one in
   a batch.
-/

namespace FinBert.Sequence

open FinBert.Serving Transition

namespace System

variable {cfg : Config} {s : System}

/-- The request is in the queue of a slot, in the backlog, or on its way to a slot. -/
def Waiting (s : System) (r : Request) : Prop :=
  (∃ batchSlot, .request r ∈ s.sched.queue batchSlot) ∨
    (∃ queue ∈ s.sched.backlogQueues, r ∈ s.sched.backlogs queue) ∨
      ∃ d ∈ s.inFlight, d.request = r

/-- Every accepted request is dispatched at most once, is not dropped before, and is
dispatched in the slot that its own stay has at that moment; and what is dispatched
is what the batches consist of. -/
structure Delivered (s : System) : Prop where
  once : (s.history.dispatched.map fun d => d.request.id).Nodup
  kept : ∀ r ∈ s.history.accepted, (∃ d ∈ s.history.dispatched, d.request = r) ∨ s.Waiting r
  ownSlot : ∀ d ∈ s.history.dispatched, d.free = false ∧ d.occupant = some d.request.occupancy
  batches : s.BatchesOk

/-- The invariant and the ledgers along a run in which every end comes last. -/
theorem ledgerOk_of_reachableInOrder (h : ReachableInOrder cfg s) :
    s.table.Inv cfg ∧ s.table.LedgerOk := by
  refine ReachableWhen.invariant (P := fun s => s.table.Inv cfg ∧ s.table.LedgerOk)
    ⟨SlotTable.inv_init cfg, SlotTable.ledgerOk_init cfg⟩ ?_ h
  rintro s a s' ⟨hinv, hledger⟩ hlast hs
  obtain ⟨m, he, ht, -⟩ := step_refines hinv hs
  exact ⟨inv_step hinv hlast hs, ht ▸ SlotTable.ledgerOk_after hinv hledger he⟩

/-- No request is lost or misdelivered in a run in which every end comes last. -/
theorem delivered_of_reachableInOrder (cfg : Config) (s : System) (h : ReachableInOrder cfg s) :
    s.Delivered := by
  obtain ⟨-, hledger⟩ := ledgerOk_of_reachableInOrder h
  refine ⟨hledger.dispatched_nodup, fun r hr => ?_, fun d hd => ?_, batchesOk_of_reachable h⟩
  · exact hledger.kept hr
  · obtain ⟨hfree, hocc, -⟩ := hledger.dispatches d hd
    exact ⟨hfree, hocc⟩

/-- One runner with one slot. -/
def oneSlot : Config where
  modelName := "m"
  runnerCnt := 1
  maxBatchSize := 1
  maxSequenceIdleMicroseconds := 1000

/-- A request of `c` with the given flags. -/
def headerOf (c : CorrelationId) (flags : Nat) : InferRequestHeader :=
  { batchSize := 1, correlationId := c, flags := flags }

/-- A pass over the only slot. -/
def onePass : List Action := [.collectBegin 0, .collectSlot 0, .collectEnd 0]

/-- Two sequences, the second one from the backlog, with calls on their way while a
pass collects. -/
def handedOn : List Action :=
  [.enqueue (headerOf 1 1) 0 ⟨0, 0⟩, .deliver 0, .enqueue (headerOf 2 1) 0 ⟨0, 0⟩,
    .enqueue (headerOf 1 2) 0 ⟨0, 0⟩] ++ onePass ++
  [.deliver 0, .enqueue (headerOf 2 2) 0 ⟨0, 0⟩] ++ onePass ++ onePass ++ onePass

theorem delivered_handedOn :
    ∃ s, ReachableInOrder oneSlot s ∧ s.history.dispatched.length = 4 ∧ s.Delivered := by
  have hrun : (runWhen (System.step oneSlot) (fun s a => s.endComesLast oneSlot a = true)
      (.init oneSlot) handedOn).map (fun s => s.history.dispatched.length == 4) = some true := by
    decide
  obtain ⟨s, hreach, hlen⟩ := exists_of_runWhen hrun
  exact ⟨s, hreach, by simpa using hlen, delivered_of_reachableInOrder oneSlot s hreach⟩

/-- The END of sequence 1 is delivered before a request that was assigned its slot
earlier, and collected; then sequence 2 gets the slot, and that request arrives. -/
def overtaken : List Action :=
  [.enqueue (headerOf 1 1) 0 ⟨0, 0⟩, .deliver 0, .enqueue (headerOf 1 0) 0 ⟨0, 0⟩,
    .enqueue (headerOf 1 2) 0 ⟨0, 0⟩, .deliver 1] ++ onePass ++ onePass ++
  [.enqueue (headerOf 2 1) 0 ⟨0, 0⟩, .deliver 0] ++ onePass

/-- After `overtaken` a request of sequence 1 has been dispatched in the slot of
sequence 2. -/
theorem not_delivered_of_interleaving :
    ¬ ∀ (cfg : Config) (s : System), Reachable (System.step cfg) (.init cfg) s → s.Delivered := by
  intro hall
  have hrun : (runWhen (System.step oneSlot) (fun _ _ => True) (.init oneSlot) overtaken).map
      (fun s => s.history.dispatched.any fun d => d.occupant ≠ some d.request.occupancy) =
        some true := by decide
  obtain ⟨s, hreach, hbad⟩ := exists_of_runWhen hrun
  simp only [List.any_eq_true, decide_eq_true_eq] at hbad
  obtain ⟨d, hd, hne⟩ := hbad
  exact hne ((hall oneSlot s hreach).ownSlot d hd).2

/-! ## Order and affinity -/

/-- The requests of each stay are dispatched in the order of their arrival, at most one
in an executed batch, and all in one slot; those that are not dispatched yet wait in
that order. -/
structure DispatchOrder (s : System) : Prop where
  ordered : ∀ o, s.table.sent o ++ s.table.waiting o = s.table.received o
  onePerBatch : ∀ e ∈ s.history.executed, ∀ o,
    (ofOccupancy o (e.payloads.filterMap BatchEntry.request?)).length ≤ 1
  oneSlot : ∀ d ∈ s.history.dispatched, ∀ d' ∈ s.history.dispatched,
    d.request.occupancy = d'.request.occupancy → d.batchSlot = d'.batchSlot
  batches : s.BatchesOk

/-- Along a run in which the oldest call is delivered first, the ledgers are in order. -/
theorem ordered_of_orderedRun (h : OrderedRun cfg (.init cfg) s) : s.table.Ordered := by
  have hall : s.table.Inv cfg ∧ s.table.LedgerOk ∧ s.table.Ordered := by
    refine ReachableWhen.invariant
      (P := fun s => s.table.Inv cfg ∧ s.table.LedgerOk ∧ s.table.Ordered)
      ⟨SlotTable.inv_init cfg, SlotTable.ledgerOk_init cfg, fun _ => rfl⟩ ?_ h
    rintro s a s' ⟨hinv, hledger, hord⟩ ⟨hlast, hold⟩ hs
    obtain ⟨m, he, ht, -, horder⟩ := step_refines hinv hs
    exact ⟨inv_step hinv hlast hs, ht ▸ SlotTable.ledgerOk_after hinv hledger he,
      ht ▸ SlotTable.ordered_after hinv hledger hord he (horder hold)⟩
  exact hall.2.2

/-- A stay is dispatched in one slot only. -/
theorem oneSlot_of_ledgerOk (h : s.table.LedgerOk) {d d' : Dispatch}
    (hd : d ∈ s.history.dispatched) (hd' : d' ∈ s.history.dispatched)
    (heq : d.request.occupancy = d'.request.occupancy) : d.batchSlot = d'.batchSlot := by
  obtain ⟨-, -, hs⟩ := h.dispatches d hd
  obtain ⟨-, -, hs'⟩ := h.dispatches d' hd'
  rw [SlotTable.SettledIn, ← heq] at hs'
  rw [SlotTable.SettledIn] at hs
  grind

/-- One pass dispatches at most one request of a stay: it visits a slot once. -/
theorem onePerPass (hb : s.BatchesOk) (h : s.table.LedgerOk) (b pass : Nat) (o : Occupancy) :
    (ofOccupancy o (s.passRequests b pass)).length ≤ 1 := by
  have hmap : ofOccupancy o (s.passRequests b pass) =
      ((s.history.dispatched.filter fun d => d.batchSlot.batcherIdx = b ∧ d.pass = pass).filter
        fun d => d.request.occupancy = o).map (·.request) := by
    rw [ofOccupancy, passRequests, List.filter_map]
    rfl
  rw [hmap, List.length_map]
  set l := (s.history.dispatched.filter fun d => d.batchSlot.batcherIdx = b ∧ d.pass = pass).filter
    fun d => d.request.occupancy = o with hl
  have hmem : ∀ d ∈ l, d ∈ s.history.dispatched ∧ d.pass = pass ∧ d.request.occupancy = o := by
    intro d hd
    simp only [hl, List.mem_filter, decide_eq_true_eq] at hd
    exact ⟨hd.1.1, hd.1.2.2, hd.2⟩
  have hnodup : (l.map fun d => (d.batchSlot, d.pass)).Nodup :=
    hb.nodup.sublist ((List.filter_sublist.trans List.filter_sublist).map _)
  rcases hcase : l with _ | ⟨d, _ | ⟨d', rest⟩⟩
  · simp
  · simp
  · obtain ⟨hd, hp, ho⟩ := hmem d (by simp [hcase])
    obtain ⟨hd', hp', ho'⟩ := hmem d' (by simp [hcase])
    have hkey : (d.batchSlot, d.pass) = (d'.batchSlot, d'.pass) := by
      rw [oneSlot_of_ledgerOk h hd hd' (ho.trans ho'.symm), hp, hp']
    rw [hcase] at hnodup
    simp [hkey] at hnodup

/-- Order and affinity, when every `Enqueue` is atomic. -/
theorem dispatchOrder_of_reachableAtomic (cfg : Config) (s : System)
    (h : ReachableAtomic cfg s) : s.DispatchOrder := by
  obtain ⟨hrun, hquiet⟩ := atomic_run h
  obtain ⟨hinv, hledger⟩ := ledgerOk_of_reachableInOrder hrun.inOrder
  have hbatches := batchesOk_of_reachable hrun
  refine ⟨fun o => ?_, fun e he o => ?_, fun d hd d' hd' heq => ?_, hbatches⟩
  · have hord := ordered_of_orderedRun hrun o
    have hway : s.table.onTheWay o = [] := by
      rw [SlotTable.onTheWay, show s.table.inFlight = [] from hquiet]
      rfl
    rwa [SlotTable.ledger, hway, List.append_nil] at hord
  · rw [hbatches.executed e he]
    exact onePerPass hbatches hledger _ _ o
  · exact oneSlot_of_ledgerOk hledger hd hd' heq

/-- The same two sequences with atomic calls; the last request of the second one arrives
after its backlog has been moved into the slot. -/
def switched : List Action :=
  [.enqueue (headerOf 1 1) 0 ⟨0, 0⟩, .enqueue (headerOf 2 1) 0 ⟨0, 0⟩,
    .enqueue (headerOf 2 0) 0 ⟨0, 0⟩, .enqueue (headerOf 1 2) 0 ⟨0, 0⟩] ++ onePass ++ onePass ++
  [.enqueue (headerOf 2 2) 0 ⟨0, 0⟩] ++ onePass ++ onePass ++ onePass

theorem dispatchOrder_switched :
    ∃ s, ReachableAtomic oneSlot s ∧ (s.table.sent ⟨2, 1⟩).map (·.id) = [1, 2, 4] ∧
      s.DispatchOrder := by
  have hrun : (runWhen (System.atomicStep oneSlot) (fun _ _ => True) (.init oneSlot) switched).map
      (fun s => (s.table.sent ⟨2, 1⟩).map (·.id) == [1, 2, 4]) = some true := by decide
  obtain ⟨s, hreach, hsent⟩ := exists_of_runWhen hrun
  exact ⟨s, hreach, by simpa using hsent, dispatchOrder_of_reachableAtomic oneSlot s hreach⟩

end System

end FinBert.Sequence
