import FinBert.DynamicBatch.Model
import Mathlib.Algebra.Ring.Nat

/-!
# The dynamic batcher is a queue

The two counters of the pending batch always describe a prefix of the queue (`Counts`):
`GetDynamicBatch` extends the prefix or cuts it back to a preferred size, a thread that
takes it starts from the empty prefix again, and `Enqueue` appends behind it.

Result: `fifo_of_reachable`, the dispatched payloads and the queue are the requests in
the order of their `Enqueue` calls, and the counters are the length and the batch size of
a prefix of the queue.
-/

namespace FinBert.DynamicBatch

open FinBert.Serving Transition

/-- The sum of the batch sizes. -/
def batchSizeOf (l : List Request) : Nat := (l.map fun r => r.header.batchSize).sum

/-- `cnt` requests at the front of the queue have the batch size `size`, which is at most
one request beyond the preferred sizes. -/
structure Counts (queue : List Request) (size cnt : Nat) : Prop where
  le_length : cnt ≤ queue.length
  size_eq : size = batchSizeOf (queue.take cnt)
  size_lt : size < 4294967296

theorem Counts.zero (queue : List Request) : Counts queue 0 0 where
  le_length := Nat.zero_le _
  size_eq := by simp [batchSizeOf]
  size_lt := by decide

theorem Counts.append {queue : List Request} {size cnt : Nat} (h : Counts queue size cnt)
    (l : List Request) : Counts (queue ++ l) size cnt where
  le_length := h.le_length.trans (by simp)
  size_eq := by rw [h.size_eq, List.take_append_of_le_length h.le_length]
  size_lt := h.size_lt

theorem foldl_max_le {sizes : List Int} {largest bound : Nat}
    (hsizes : ∀ size ∈ sizes, size.toNat ≤ bound) (hlargest : largest ≤ bound) :
    sizes.foldl (fun largest size => max largest size.toNat) largest ≤ bound := by
  induction sizes generalizing largest with
  | nil => exact hlargest
  | cons size sizes ih =>
    exact ih (fun size' h' => hsizes size' (List.mem_cons_of_mem _ h'))
      (Nat.max_le.mpr ⟨hlargest, hsizes size List.mem_cons_self⟩)

theorem preferredBatchSizes_pos {cfg : Config} {size : Int}
    (h : size ∈ cfg.preferredBatchSizes) : 0 < size ∧ size < 2147483648 := by
  unfold Config.preferredBatchSizes at h
  cases hbatching : cfg.dynamicBatching with
  | none =>
    rw [hbatching] at h
    cases h
  | some batching =>
    rw [hbatching] at h
    exact batching.preferred_pos size h

theorem maxPreferredBatchSize_lt (cfg : Config) : cfg.maxPreferredBatchSize < 2147483648 := by
  have hbound : cfg.maxPreferredBatchSize ≤ 2147483647 :=
    foldl_max_le (fun _ hsize => Int.toNat_le.mpr
      (Int.le_of_lt_add_one (preferredBatchSizes_pos hsize).2)) (Nat.zero_le _)
  exact Nat.lt_succ_of_le hbound

/-- The request behind a counted prefix joins it, when the sum does not exceed a `uint32`. -/
theorem Counts.extend {queue rest : List Request} {r : Request} {size cnt : Nat}
    (h : Counts queue size cnt) (hrest : queue.drop cnt = r :: rest)
    (hlt : size + r.header.batchSize < 4294967296) :
    addSize size r.header.batchSize = size + r.header.batchSize ∧
      Counts queue (size + r.header.batchSize) (cnt + 1) ∧ queue.drop (cnt + 1) = rest := by
  have hlen : cnt < queue.length := by
    by_contra hge
    rw [List.drop_of_length_le (by omega)] at hrest
    cases hrest
  have hget : queue[cnt] = r := by
    rw [List.drop_eq_getElem_cons hlen] at hrest
    exact (List.cons.inj hrest).1
  refine ⟨Nat.mod_eq_of_lt (by omega), ⟨hlen, ?_, hlt⟩, ?_⟩
  · rw [h.size_eq, List.take_succ_eq_append_getElem hlen, hget]
    simp [batchSizeOf]
  · rw [List.drop_eq_getElem_cons hlen] at hrest
    exact (List.cons.inj hrest).2

/-- The loop keeps counting prefixes: the one it searches and the best one found. -/
structure Search.Counted (queue : List Request) (a : Search) : Prop where
  search : Counts queue a.searchBatchSize a.searchBatchCnt
  best : a.bestPreferredBatchSize ≠ 0 →
    Counts queue a.bestPreferredBatchSize a.bestPreferredBatchCnt

theorem counted_extend (cfg : Config) {queue rest : List Request} {r : Request} {a : Search}
    (h : a.Counted queue) (hrest : queue.drop a.searchBatchCnt = r :: rest)
    (hlt : a.searchBatchSize + r.header.batchSize < 4294967296) :
    (a.extend cfg r).Counted queue ∧ queue.drop (a.extend cfg r).searchBatchCnt = rest := by
  obtain ⟨hsum, hcounts, hdrop⟩ := h.search.extend hrest hlt
  unfold Search.extend
  rw [hsum]
  simp only
  split
  · exact ⟨⟨hcounts, fun _ => hcounts⟩, hdrop⟩
  · exact ⟨⟨hcounts, h.best⟩, hdrop⟩

theorem counted_search (cfg : Config) {queue rest : List Request} {a : Search} (h : a.Counted queue)
    (hrest : queue.drop a.searchBatchCnt = rest) : (search cfg rest a).Counted queue := by
  induction rest generalizing a with
  | nil => exact h
  | cons r rest ih =>
    unfold search
    split
    · next hzero =>
      -- the first request of a batch is taken whatever its size
      have hsize : a.searchBatchSize = 0 := by
        rw [h.search.size_eq, hzero]
        simp [batchSizeOf]
      have hlt : a.searchBatchSize + r.header.batchSize < 4294967296 := by
        rw [hsize, Nat.zero_add]
        exact r.batchSize_lt
      set shapes := if cfg.needPendingShape then initPendingShape r.header else a.shapes
      have h' : Search.Counted queue { a with shapes := shapes } := ⟨h.search, h.best⟩
      obtain ⟨hnext, hdrop⟩ := counted_extend cfg h' hrest hlt
      exact ih hnext hdrop
    · split
      · exact ⟨h.search, h.best⟩
      · next hle =>
        split
        · exact ⟨h.search, h.best⟩
        · -- the sum has passed the comparison with the largest preferred size
          have hmax := maxPreferredBatchSize_lt cfg
          have hsum : addSize a.searchBatchSize r.header.batchSize =
              a.searchBatchSize + r.header.batchSize := by
            have hsize := h.search.size_lt
            have hbatch := r.batchSize_lt
            exact Nat.mod_eq_of_lt (by omega)
          obtain ⟨hnext, hdrop⟩ := counted_extend cfg h hrest (by omega)
          exact ih hnext hdrop

/-- `GetDynamicBatch` leaves the queue alone and its counters on a prefix of it. -/
theorem counts_getDynamicBatch (cfg : Config) {s : Scheduler} (now : Nat)
    (h : Counts s.queue s.pendingBatchSize s.pendingBatchQueueCnt) :
    (s.getDynamicBatch cfg now).1.queue = s.queue ∧
      Counts s.queue (s.getDynamicBatch cfg now).1.pendingBatchSize
        (s.getDynamicBatch cfg now).1.pendingBatchQueueCnt := by
  have hstart : Search.Counted s.queue
      { searchBatchSize := s.pendingBatchSize
        searchBatchCnt := s.pendingBatchQueueCnt
        shapes := s.pendingBatchShapes } := ⟨h, by simp⟩
  have hfound := counted_search cfg hstart rfl
  unfold Scheduler.getDynamicBatch
  simp only
  split
  · next hbest => exact ⟨rfl, hfound.best hbest⟩
  · split_ifs <;> exact ⟨rfl, hfound.search⟩

/-! ## Runs -/

/-- The queue discipline of a state. -/
structure System.Fifo (s : System) : Prop where
  order : s.dispatched.flatten ++ s.sched.queue = s.enqueued
  count : s.sched.pendingBatchQueueCnt ≤ s.sched.queue.length
  size : s.sched.pendingBatchSize = batchSizeOf (s.sched.queue.take s.sched.pendingBatchQueueCnt)

/-- The invariant of the runs: without dynamic batching there is never a pending batch. -/
structure System.Inv (cfg : Config) (s : System) : Prop where
  order : s.dispatched.flatten ++ s.sched.queue = s.enqueued
  counts : Counts s.sched.queue s.sched.pendingBatchSize s.sched.pendingBatchQueueCnt
  off : cfg.dynamicBatchingEnabled = false → s.sched.pendingBatchQueueCnt = 0

/-- One turn of a scheduler thread takes its payloads from the front of the queue. -/
theorem schedulerThread_spec (cfg : Config) {sched : Scheduler} (delayCnt now : Nat)
    (h : Counts sched.queue sched.pendingBatchSize sched.pendingBatchQueueCnt)
    (hoff : cfg.dynamicBatchingEnabled = false → sched.pendingBatchQueueCnt = 0) :
    let turn := sched.schedulerThread cfg delayCnt now
    turn.payloads ++ turn.sched.queue = sched.queue ∧
      Counts turn.sched.queue turn.sched.pendingBatchSize turn.sched.pendingBatchQueueCnt ∧
        (cfg.dynamicBatchingEnabled = false → turn.sched.pendingBatchQueueCnt = 0) := by
  obtain ⟨hqueue, hcounts⟩ := counts_getDynamicBatch cfg now h
  unfold Scheduler.schedulerThread
  split
  · exact ⟨rfl, h, hoff⟩
  · split
    · exact ⟨rfl, h, hoff⟩
    · next front rest hcons =>
      split
      · next hon =>
        split
        · next s hs =>
          rw [hs] at hqueue hcounts
          exact ⟨(List.take_append_drop _ _).trans hqueue, Counts.zero _, fun _ => rfl⟩
        · next s wait hs =>
          rw [hs] at hqueue hcounts
          exact ⟨hqueue, hqueue.symm ▸ hcounts, fun h => by simp [h] at hon⟩
      · next hon =>
        have hcnt := hoff (by simpa using hon)
        have hsize : sched.pendingBatchSize = 0 := by
          rw [h.size_eq, hcnt]
          simp [batchSizeOf]
        refine ⟨hcons.symm, ?_, hoff⟩
        rw [hcnt, hsize]
        exact Counts.zero rest

variable {cfg : Config} {s s' : System}

theorem inv_init (cfg : Config) : (System.init cfg).Inv cfg where
  order := rfl
  counts := Counts.zero _
  off := fun _ => rfl

theorem inv_enqueue (h : s.Inv cfg) (r : Request) : (s.enqueue r).Inv cfg where
  order := by simp [System.enqueue, Scheduler.enqueue, ← h.order]
  counts := h.counts.append _
  off := h.off

theorem inv_schedule (h : s.Inv cfg) (n now : Nat) : (s.schedule cfg n now).Inv cfg := by
  obtain ⟨hqueue, hcounts, hoff⟩ :=
    schedulerThread_spec cfg (s.threads n).delayCnt now h.counts h.off
  refine ⟨?_, hcounts, hoff⟩
  have horder := h.order
  rw [← hqueue] at horder
  simp only [System.schedule]
  split
  · next hnone => simpa [hnone] using horder
  · simpa using horder

/-- Every step keeps the invariant. -/
theorem inv_step (h : s.Inv cfg) {a : Action} (hs : s.step cfg a = some s') : s'.Inv cfg := by
  cases a with
  | enqueue r =>
    obtain rfl := Option.some.inj hs
    exact inv_enqueue h r
  | schedule n now =>
    obtain ⟨-, rfl⟩ := System.step_schedule hs
    exact inv_schedule h n now
  | wakeUp n =>
    obtain ⟨-, rfl⟩ := System.step_wakeUp hs
    exact ⟨h.order, h.counts, h.off⟩

/-- No request is lost, duplicated or overtaken, along every run. -/
theorem fifo_of_reachable (cfg : Config) (s : System)
    (h : Reachable (System.step cfg) (.init cfg) s) : s.Fifo := by
  have hinv : s.Inv cfg := h.invariant (inv_init cfg) fun _ _ _ hinv _ hs => inv_step hinv hs
  exact ⟨hinv.order, hinv.counts.le_length, hinv.counts.size_eq⟩

/-- Two threads, preferred sizes 4 and 8, and a queue delay of 2 ms. -/
def preferFour : Config where
  dynamicBatching := some
    { preferredBatchSize := [4, 8]
      maxQueueDelayMicroseconds := 2000
      preferred_pos := by decide }
  inputDims := [[-1, 3]]
  runnerCnt := 2

/-- A request of the given batch size. -/
def requestOf (batchSize : Nat) (h : batchSize < 4294967296) : Request where
  header := { batchSize := batchSize, input := [{ name := "x", dims := [7, 3] }] }
  startTimeNs := 0
  batchSize_lt := h

/-- A thread leaves a batch of 3 pending; after two more requests another one sends the
first two, whose sum is preferred, and the batch of 3 behind them is pending again. -/
theorem fifo_preferFour :
    ∃ s, Reachable (System.step preferFour) (.init preferFour) s ∧
      s.dispatched.map (·.map (·.id)) = [[0, 1]] ∧ s.sched.pendingBatchSize = 3 ∧ s.Fifo := by
  have hrun : (runWhen (System.step preferFour) (fun _ _ => True) (.init preferFour)
      [.enqueue (requestOf 3 (by decide)), .schedule 0 1000, .enqueue (requestOf 1 (by decide)),
        .enqueue (requestOf 3 (by decide)), .schedule 1 2000, .wakeUp 0, .schedule 0 3000]).map
      (fun s => s.dispatched.map (·.map (·.id)) == [[0, 1]] && s.sched.pendingBatchSize == 3) =
        some true := by decide
  obtain ⟨s, hreach, hs⟩ := exists_of_runWhen hrun
  simp only [Bool.and_eq_true, beq_iff_eq] at hs
  exact ⟨s, hreach, hs.1, hs.2, fifo_of_reachable preferFour s hreach⟩

end FinBert.DynamicBatch
