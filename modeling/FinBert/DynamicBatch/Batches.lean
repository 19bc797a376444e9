import FinBert.DynamicBatch.Fifo
import FinBert.Serving.Validation

/-!
# The batches of the dynamic batcher

Every prefix of the queue that the counters of the pending batch can stand for may be executed
together (`Joinable`): it has one request, or its size is at most the largest preferred one, and the
shapes of its inputs are those of its first request, which the pending batch keeps beside its
counters over several calls.

Results:
1. `joinable_search`: the loop of `GetDynamicBatch` joins only what may be joined.
2. `admissible_of_reachable`: the dispatched batches of an accepted model, in every run.
-/

namespace FinBert.DynamicBatch

open FinBert.Serving Transition

/-! ## What may be executed together -/

/-- The requests may be one batch. -/
structure Joinable (cfg : Config) (batch : List Request) : Prop where
  size : batch.length ≤ 1 ∨ batchSizeOf batch ≤ cfg.maxPreferredBatchSize
  shapes : cfg.needPendingShape = true → ∀ first rest, batch = first :: rest → ∀ r ∈ rest,
    compareWithPendingShape (initPendingShape first.header) r.header = true

/-- The shapes are those of the first request, when there is one. -/
def ShapesOf (cfg : Config) (batch : List Request) (shapes : UnorderedMap String (List Int)) :
    Prop :=
  cfg.needPendingShape = true → ∀ first rest, batch = first :: rest →
    shapes = initPendingShape first.header

theorem joinable_nil (cfg : Config) : Joinable cfg [] where
  size := .inl (Nat.zero_le _)
  shapes := fun _ _ _ h => by cases h

theorem joinable_singleton (cfg : Config) (r : Request) : Joinable cfg [r] where
  size := .inl (Nat.le_refl _)
  shapes := by
    rintro - first rest heq r' hr'
    obtain ⟨-, rfl⟩ := List.cons.inj heq
    cases hr'

theorem batchSizeOf_concat (batch : List Request) (r : Request) :
    batchSizeOf (batch ++ [r]) = batchSizeOf batch + r.header.batchSize := by
  rw [batchSizeOf, List.map_append, List.sum_append, List.map_singleton, List.sum_singleton]
  rfl

/-- A request that passes both tests of the loop joins the batch. -/
theorem Joinable.concat {cfg : Config} {batch : List Request} {r : Request}
    {shapes : UnorderedMap String (List Int)} (h : Joinable cfg batch)
    (hshapes : ShapesOf cfg batch shapes) (hne : batch ≠ [])
    (hsize : batchSizeOf batch + r.header.batchSize ≤ cfg.maxPreferredBatchSize)
    (hcompare : cfg.needPendingShape = true → compareWithPendingShape shapes r.header = true) :
    Joinable cfg (batch ++ [r]) ∧ ShapesOf cfg (batch ++ [r]) shapes := by
  obtain ⟨first, rest, rfl⟩ := List.exists_cons_of_ne_nil hne
  refine ⟨⟨.inr ?_, fun hneed => ?_⟩, fun hneed => ?_⟩
  · rw [batchSizeOf_concat]
    exact hsize
  · intro first' rest' heq r' hr'
    obtain ⟨rfl, rfl⟩ := List.cons.inj heq
    rcases List.mem_append.mp hr' with hmem | hlast
    · exact h.shapes hneed _ _ rfl r' hmem
    · rw [List.mem_singleton.mp hlast, ← hshapes hneed _ _ rfl]
      exact hcompare hneed
  · intro first' rest' heq
    obtain ⟨rfl, rfl⟩ := List.cons.inj heq
    exact hshapes hneed _ _ rfl

/-! ## The loop -/

/-- The loop counts prefixes of the queue that may be one batch, and has the shapes of the one
that it searches. -/
structure Search.Joins (cfg : Config) (queue : List Request) (a : Search) : Prop where
  counted : a.Counted queue
  search : Joinable cfg (queue.take a.searchBatchCnt)
  shapes : ShapesOf cfg (queue.take a.searchBatchCnt) a.shapes
  best : a.bestPreferredBatchSize ≠ 0 → Joinable cfg (queue.take a.bestPreferredBatchCnt)

theorem take_succ_of_drop {queue rest : List Request} {r : Request} {cnt : Nat}
    (h : queue.drop cnt = r :: rest) : queue.take (cnt + 1) = queue.take cnt ++ [r] := by
  have hget : queue[cnt]? = some r := by rw [← List.head?_drop, h, List.head?_cons]
  rw [List.take_add_one, hget, Option.toList_some]

theorem joins_extend {cfg : Config} {queue rest : List Request} {r : Request} {a : Search}
    (hcounted : a.Counted queue) (hrest : queue.drop a.searchBatchCnt = r :: rest)
    (hlt : a.searchBatchSize + r.header.batchSize < 4294967296)
    (hbest : a.bestPreferredBatchSize ≠ 0 → Joinable cfg (queue.take a.bestPreferredBatchCnt))
    (hjoin : Joinable cfg (queue.take a.searchBatchCnt ++ [r]))
    (hshapes : ShapesOf cfg (queue.take a.searchBatchCnt ++ [r]) a.shapes) :
    (a.extend cfg r).Joins cfg queue ∧ queue.drop (a.extend cfg r).searchBatchCnt = rest := by
  obtain ⟨hnext, hdrop⟩ := counted_extend cfg hcounted hrest hlt
  refine ⟨⟨hnext, ?_, ?_, ?_⟩, hdrop⟩
  all_goals
    unfold Search.extend
    dsimp only
    split
  · rwa [take_succ_of_drop hrest]
  · rwa [take_succ_of_drop hrest]
  · rwa [take_succ_of_drop hrest]
  · rwa [take_succ_of_drop hrest]
  · rw [take_succ_of_drop hrest]
    exact fun _ => hjoin
  · exact hbest

/-- One turn of the loop: the next request joins the batch, or it may not and ends the loop. -/
theorem search_cons {cfg : Config} {queue rest : List Request} {r : Request} {a : Search}
    (h : a.Joins cfg queue) (hrest : queue.drop a.searchBatchCnt = r :: rest) :
    (∃ shapes,
      search cfg (r :: rest) a = search cfg rest (Search.extend cfg { a with shapes := shapes } r) ∧
      addSize a.searchBatchSize r.header.batchSize =
        batchSizeOf (queue.take (a.searchBatchCnt + 1)) ∧
      (Search.extend cfg { a with shapes := shapes } r).Joins cfg queue ∧
      queue.drop (a.searchBatchCnt + 1) = rest) ∨
    search cfg (r :: rest) a = { a with sendNow := true } ∧
      ¬ Joinable cfg (queue.take (a.searchBatchCnt + 1)) := by
  have hbatch := r.batchSize_lt
  have hsize := h.counted.search.size_eq
  have htake := take_succ_of_drop hrest
  rw [search]
  split
  · next hzero =>
    -- the first request of a batch gives the shapes
    have hnil : queue.take a.searchBatchCnt = [] := by rw [hzero, List.take_zero]
    have hlt : a.searchBatchSize + r.header.batchSize < 4294967296 := by
      rw [hsize, hnil]
      exact (Nat.zero_add _).symm ▸ hbatch
    obtain ⟨hsum, hcounts, hdrop⟩ := h.counted.search.extend hrest hlt
    have hcounted : Search.Counted queue
        { a with shapes := if cfg.needPendingShape then initPendingShape r.header
                           else a.shapes } := ⟨h.counted.search, h.counted.best⟩
    refine .inl ⟨_, rfl, hsum.trans hcounts.size_eq,
      (joins_extend hcounted hrest hlt h.best ?_ ?_).1, hdrop⟩
    · rw [hnil]
      exact joinable_singleton cfg r
    · rw [hnil]
      intro hneed first rest heq
      obtain ⟨rfl, -⟩ := List.cons.inj heq
      exact if_pos hneed
  · next hpos =>
    have hsum : addSize a.searchBatchSize r.header.batchSize =
        a.searchBatchSize + r.header.batchSize :=
      Nat.mod_eq_of_lt ((Nat.add_lt_add h.counted.search.size_lt hbatch).trans (by decide))
    have hlength : (queue.take a.searchBatchCnt).length = a.searchBatchCnt :=
      List.length_take_of_le h.counted.search.le_length
    have hne : queue.take a.searchBatchCnt ≠ [] := fun hnil => hpos (by rw [← hlength, hnil]; rfl)
    split
    · next hgt =>
      refine .inr ⟨rfl, fun hjoin => ?_⟩
      rw [htake] at hjoin
      rcases hjoin.size with hone | hle
      · rw [List.length_append, hlength, List.length_singleton] at hone
        exact hpos (Nat.le_zero.mp (Nat.le_of_succ_le_succ hone))
      · rw [batchSizeOf_concat, ← hsize, ← hsum] at hle
        exact Nat.not_le.mpr hgt hle
    · next hle =>
      rw [hsum] at hle
      split
      · next hmismatch =>
        rw [Bool.and_eq_true, Bool.not_eq_true'] at hmismatch
        refine .inr ⟨rfl, fun hjoin => ?_⟩
        obtain ⟨first, others, heq⟩ := List.exists_cons_of_ne_nil hne
        have hmatch := hjoin.shapes hmismatch.1 first (others ++ [r]) (by rw [htake, heq]; rfl) r
          (List.mem_append_right _ (List.mem_singleton_self r))
        rw [← h.shapes hmismatch.1 first others heq, hmismatch.2] at hmatch
        cases hmatch
      · next hcompare =>
        have hlt := (Nat.le_of_not_lt hle).trans_lt
          ((maxPreferredBatchSize_lt cfg).trans (by decide : 2147483648 < 4294967296))
        obtain ⟨hjoin, hshapes⟩ := h.search.concat (r := r) h.shapes hne
          (by rw [← hsize]; exact Nat.le_of_not_lt hle)
          (fun hneed => by
            rw [hneed, Bool.true_and, Bool.not_eq_true', Bool.not_eq_false] at hcompare
            exact hcompare)
        obtain ⟨-, hcounts, hdrop⟩ := h.counted.search.extend hrest hlt
        exact .inl ⟨a.shapes, rfl, hsum.trans hcounts.size_eq,
          (joins_extend h.counted hrest hlt h.best hjoin hshapes).1, hdrop⟩

@[simp] theorem searchBatchCnt_extend (cfg : Config) (a : Search) (r : Request) :
    (a.extend cfg r).searchBatchCnt = a.searchBatchCnt + 1 := by
  unfold Search.extend
  dsimp only
  split <;> rfl

/-- The loop joins only what may be one batch. -/
theorem joinable_search {cfg : Config} {queue rest : List Request} {a : Search}
    (h : a.Joins cfg queue) (hrest : queue.drop a.searchBatchCnt = rest) :
    (search cfg rest a).Joins cfg queue := by
  induction rest generalizing a with
  | nil => exact h
  | cons r rest ih =>
    rcases search_cons h hrest with ⟨shapes, hsearch, -, hjoins, hdrop⟩ | ⟨hsearch, -⟩
    · rw [hsearch]
      exact ih hjoins (by rw [searchBatchCnt_extend]; exact hdrop)
    · rw [hsearch]
      exact ⟨⟨h.counted.search, h.counted.best⟩, h.search, h.shapes, h.best⟩

/-! ## The pending batch -/

/-- The pending batch may be executed, and the shapes are its own. -/
structure Pending (cfg : Config) (s : Scheduler) : Prop where
  counts : Counts s.queue s.pendingBatchSize s.pendingBatchQueueCnt
  off : cfg.dynamicBatchingEnabled = false → s.pendingBatchQueueCnt = 0
  joinable : Joinable cfg (s.queue.take s.pendingBatchQueueCnt)
  shapes : ShapesOf cfg (s.queue.take s.pendingBatchQueueCnt) s.pendingBatchShapes

theorem Pending.none {cfg : Config} {s : Scheduler} (hsize : s.pendingBatchSize = 0)
    (hcnt : s.pendingBatchQueueCnt = 0) : Pending cfg s where
  counts := by
    rw [hsize, hcnt]
    exact Counts.zero _
  off := fun _ => hcnt
  joinable := by
    rw [hcnt, List.take_zero]
    exact joinable_nil cfg
  shapes := by
    rw [hcnt, List.take_zero]
    intro _ _ _ h
    cases h

theorem Pending.append {cfg : Config} {s : Scheduler} (h : Pending cfg s) (l : List Request) :
    Pending cfg { s with queue := s.queue ++ l } where
  counts := h.counts.append l
  off := h.off
  joinable := by
    dsimp only
    rw [List.take_append_of_le_length h.counts.le_length]
    exact h.joinable
  shapes := by
    dsimp only
    rw [List.take_append_of_le_length h.counts.le_length]
    exact h.shapes

/-- `GetDynamicBatch` finds a batch that may be executed; when it does not send it, the shapes
are still those of the batch. -/
theorem joinable_getDynamicBatch {cfg : Config} {s : Scheduler} (h : Pending cfg s) (now : Nat) :
    Joinable cfg (s.queue.take (s.getDynamicBatch cfg now).1.pendingBatchQueueCnt) ∧
      ((s.getDynamicBatch cfg now).2 ≠ 0 →
        ShapesOf cfg (s.queue.take (s.getDynamicBatch cfg now).1.pendingBatchQueueCnt)
          (s.getDynamicBatch cfg now).1.pendingBatchShapes) := by
  have hstart : Search.Joins cfg s.queue
      { searchBatchSize := s.pendingBatchSize
        searchBatchCnt := s.pendingBatchQueueCnt
        shapes := s.pendingBatchShapes } :=
    ⟨⟨h.counts, fun hne => absurd rfl hne⟩, h.joinable, h.shapes, fun hne => absurd rfl hne⟩
  have hfound := joinable_search hstart rfl
  unfold Scheduler.getDynamicBatch
  dsimp only
  split
  · next hbest => exact ⟨hfound.best hbest, fun hne => absurd rfl hne⟩
  · split
    · exact ⟨hfound.search, fun _ => hfound.shapes⟩
    · split
      · exact ⟨hfound.search, fun _ => hfound.shapes⟩
      · split
        · exact ⟨hfound.search, fun _ => hfound.shapes⟩
        · exact ⟨hfound.search, fun _ => hfound.shapes⟩

/-- One turn of a scheduler thread takes a batch that may be executed. -/
theorem joinable_schedulerThread {cfg : Config} {s : Scheduler} (h : Pending cfg s)
    (delayCnt now : Nat) :
    Joinable cfg (s.schedulerThread cfg delayCnt now).payloads ∧
      Pending cfg (s.schedulerThread cfg delayCnt now).sched := by
  obtain ⟨hqueue, hcounts⟩ := counts_getDynamicBatch cfg now h.counts
  obtain ⟨hjoinable, hshapes⟩ := joinable_getDynamicBatch h now
  unfold Scheduler.schedulerThread
  split
  · exact ⟨joinable_nil cfg, h⟩
  · split
    · exact ⟨joinable_nil cfg, h⟩
    · next front rest hcons =>
      split
      · next hon =>
        split
        · next s' hs =>
          rw [hs] at hqueue hjoinable
          rw [← hqueue] at hjoinable
          exact ⟨hjoinable, Pending.none rfl rfl⟩
        · next s' wait hs =>
          rw [hs] at hqueue hcounts hjoinable hshapes
          rw [← hqueue] at hcounts hjoinable hshapes
          refine ⟨joinable_nil cfg, hcounts, fun hoff => ?_, hjoinable,
            hshapes (Nat.succ_ne_zero wait)⟩
          rw [hoff] at hon
          cases hon
      · next hoff =>
        have hcnt := h.off (Bool.eq_false_iff.mpr hoff)
        have hsize : s.pendingBatchSize = 0 := by
          rw [h.counts.size_eq, hcnt]
          rfl
        exact ⟨joinable_singleton cfg front, Pending.none hsize hcnt⟩

/-! ## Runs -/

/-- Every dispatched batch may be executed. -/
structure System.Joins (cfg : Config) (s : System) : Prop where
  pending : Pending cfg s.sched
  dispatched : ∀ batch ∈ s.dispatched, batch ≠ [] ∧ Joinable cfg batch

theorem joins_init (cfg : Config) : (System.init cfg).Joins cfg where
  pending := Pending.none rfl rfl
  dispatched := fun _ h => by cases h

theorem joins_step {cfg : Config} {s s' : System} {a : Action} (h : s.Joins cfg)
    (hstep : s.step cfg a = some s') : s'.Joins cfg := by
  cases a with
  | enqueue r =>
    obtain rfl := Option.some.inj hstep
    exact ⟨h.pending.append _, h.dispatched⟩
  | schedule n now =>
    obtain ⟨-, rfl⟩ := System.step_schedule hstep
    obtain ⟨hjoinable, hpending⟩ :=
      joinable_schedulerThread h.pending (s.threads n).delayCnt now
    refine ⟨⟨hpending.counts, hpending.off, hpending.joinable, hpending.shapes⟩, ?_⟩
    unfold System.schedule
    dsimp only
    split
    · exact h.dispatched
    · next hsome =>
      intro batch hbatch
      rcases List.mem_append.mp hbatch with hmem | hlast
      · exact h.dispatched batch hmem
      · rw [List.mem_singleton.mp hlast]
        exact ⟨hsome, hjoinable⟩
  | wakeUp n =>
    obtain ⟨-, rfl⟩ := System.step_wakeUp hstep
    exact ⟨⟨h.pending.counts, h.pending.off, h.pending.joinable, h.pending.shapes⟩,
      h.dispatched⟩

/-! ## The batches of an accepted model -/

section
variable {cuda : CudaDeviceCount} {config : ModelConfig} {expectedPlatform : String}
  {batching : Serving.DynamicBatching}

/-- The preferred sizes of an accepted model are positive and within its `max_batch_size`. -/
theorem preferred_of_validateModelConfig
    (hvalid : (validateModelConfig cuda config expectedPlatform).isOk)
    (hbatching : config.scheduling = .dynamicBatching batching) {size : Int32}
    (hsize : size ∈ batching.preferredBatchSize) :
    0 < size.toInt ∧ size.toInt ≤ config.maxBatchSize.toInt := by
  have hchecked := (isOk_validateModelConfig hvalid).2.2.2.1
  unfold validateBatching at hchecked
  rw [hbatching] at hchecked
  dsimp only at hchecked
  rw [Status.isOk_forEach] at hchecked
  have hok := hchecked size hsize
  unfold validatePreferredBatchSize at hok
  split at hok
  · cases hok
  · next hpos =>
    split at hok
    · cases hok
    · next hle =>
      constructor
      · exact Int.not_le.mp fun h => hpos (Int32.le_iff_toInt_le.mpr h)
      · exact Int.not_lt.mp fun h => hle (Int32.lt_iff_toInt_lt.mpr h)

/-- `DynamicBatchScheduler::DynamicBatchScheduler` for an accepted model. Nothing is checked of
`max_queue_delay_microseconds`. -/
def Config.ofModel (hvalid : (validateModelConfig cuda config expectedPlatform).isOk)
    (hbatching : config.scheduling = .dynamicBatching batching)
    (maxQueueDelayMicroseconds runnerCnt delayCnt : Nat) : Config where
  dynamicBatching := some
    { preferredBatchSize := batching.preferredBatchSize.map Int32.toInt
      maxQueueDelayMicroseconds := maxQueueDelayMicroseconds
      preferred_pos := by
        refine List.forall_mem_map.mpr fun size hsize => ?_
        exact ⟨(preferred_of_validateModelConfig hvalid hbatching hsize).1, size.toInt_lt⟩ }
  inputDims := config.input.map (·.dims)
  runnerCnt := runnerCnt
  delayCnt := delayCnt

/-- The header names every input of the model exactly once. -/
def NamesInputs (config : ModelConfig) (header : InferRequestHeader) : Prop :=
  ∀ input ∈ config.input, (header.input.map (·.name)).count input.name = 1

instance (config : ModelConfig) (header : InferRequestHeader) :
    Decidable (NamesInputs config header) :=
  inferInstanceAs (Decidable (∀ input ∈ config.input, _))

/-- The requests that are enqueued name every input of the model exactly once. -/
def Named (config : ModelConfig) (_ : System) : Action → Prop
  | .enqueue r => NamesInputs config r.header
  | _ => True

instance (config : ModelConfig) (s : System) : (a : Action) → Decidable (Named config s a)
  | .enqueue r => inferInstanceAs (Decidable (NamesInputs config r.header))
  | .schedule _ _ => .isTrue trivial
  | .wakeUp _ => .isTrue trivial

/-- What is asked of a batch: it has a request, its size is within the bounds, and where a shape
can vary its requests have the same shapes. -/
structure Admissible (config : ModelConfig) (cfg : Config) (batch : List Request) : Prop where
  nonempty : batch ≠ []
  size : batch.length = 1 ∨ batchSizeOf batch ≤ cfg.maxPreferredBatchSize ∧
    (batchSizeOf batch : Int) ≤ max 0 config.maxBatchSize.toInt
  shapes : (∃ input ∈ config.input, WILDCARD_DIM ∈ input.dims) →
    ∀ r ∈ batch, ∀ r' ∈ batch, ∀ input ∈ config.input, ∀ io ∈ r.header.input,
      ∀ io' ∈ r'.header.input, io.name = input.name → io'.name = input.name → io.dims = io'.dims

/-! ## Shapes by name -/

/-- `emplace` keeps the first of the shapes with one name. -/
theorem find_initPendingShape (header : InferRequestHeader) (name : String) :
    (initPendingShape header).find name =
      (header.input.find? (·.name == name)).map (·.dims) := by
  have hfold : ∀ (inputs : List InferInput) (shapes : UnorderedMap String (List Int)),
      (inputs.foldl (fun shapes input =>
        if (shapes.find input.name).isSome then shapes
        else shapes.insert input.name input.dims) shapes).find name =
      (shapes.find name).or ((inputs.find? (·.name == name)).map (·.dims)) := by
    intro inputs
    induction inputs with
    | nil => exact fun shapes => Option.or_none.symm
    | cons input inputs ih =>
      intro shapes
      rw [List.foldl_cons, ih, List.find?_cons]
      by_cases hname : input.name = name
      · subst hname
        rw [beq_self_eq_true]
        cases hfind : shapes.find input.name with
        | none =>
          rw [if_neg Bool.noConfusion, UnorderedMap.find_insert_apply, if_pos rfl]
          rfl
        | some dims =>
          rw [if_pos (Option.isSome_some (a := dims)), hfind]
          rfl
      · rw [beq_eq_false_iff_ne.mpr hname]
        split
        · rfl
        · rw [UnorderedMap.find_insert_apply, if_neg (Ne.symm hname)]
  rw [initPendingShape, hfold, UnorderedMap.find_empty, Option.none_or]

theorem find?_of_count {header : InferRequestHeader} {name : String} {io : InferInput}
    (hcount : (header.input.map (·.name)).count name = 1) (hio : io ∈ header.input)
    (hname : io.name = name) : header.input.find? (·.name == name) = some io := by
  generalize header.input = inputs at hcount hio
  induction inputs with
  | nil => cases hio
  | cons input inputs ih =>
    rw [List.map_cons] at hcount
    by_cases hhead : input.name = name
    · rw [hhead, List.count_cons_self] at hcount
      have hnone := List.count_eq_zero.mp (Nat.succ.inj hcount)
      rcases List.mem_cons.mp hio with rfl | hmem
      · rw [List.find?_cons, beq_iff_eq.mpr hname]
      · exact absurd (List.mem_map.mpr ⟨io, hmem, hname⟩) hnone
    · rw [List.count_cons_of_ne hhead] at hcount
      rcases List.mem_cons.mp hio with rfl | hmem
      · exact absurd hname hhead
      · rw [List.find?_cons, beq_eq_false_iff_ne.mpr hhead]
        exact ih hcount hmem

theorem find_of_compareWithPendingShape {shapes : UnorderedMap String (List Int)}
    {header : InferRequestHeader} (h : compareWithPendingShape shapes header = true)
    {io : InferInput} (hio : io ∈ header.input) : shapes.find io.name = some io.dims := by
  have hcompare := List.all_eq_true.mp h io hio
  split at hcompare
  · cases hcompare
  · next dims hfind => rw [hfind, eq_of_beq hcompare]

/-- Every request of a batch has the shapes of the first one. -/
theorem Joinable.dims_eq {cfg : Config} {first : Request} {rest : List Request}
    (h : Joinable cfg (first :: rest)) (hneed : cfg.needPendingShape = true) {r : Request}
    (hr : r ∈ first :: rest) {io : InferInput} (hio : io ∈ r.header.input)
    (honce : (first.header.input.map (·.name)).count io.name = 1) :
    (initPendingShape first.header).find io.name = some io.dims := by
  rcases List.mem_cons.mp hr with rfl | hmem
  · rw [find_initPendingShape, find?_of_count honce hio rfl, Option.map_some]
  · exact find_of_compareWithPendingShape (h.shapes hneed first rest rfl r hmem) hio

theorem maxPreferredBatchSize_le (hvalid : (validateModelConfig cuda config expectedPlatform).isOk)
    (hbatching : config.scheduling = .dynamicBatching batching)
    (maxQueueDelayMicroseconds runnerCnt delayCnt : Nat) :
    (Config.ofModel hvalid hbatching maxQueueDelayMicroseconds runnerCnt
      delayCnt).maxPreferredBatchSize ≤ config.maxBatchSize.toInt.toNat := by
  refine foldl_max_le (List.forall_mem_map.mpr fun size hsize => ?_) (Nat.zero_le _)
  exact Int.toNat_le_toNat (preferred_of_validateModelConfig hvalid hbatching hsize).2

theorem needPendingShape_ofModel (hvalid : (validateModelConfig cuda config expectedPlatform).isOk)
    (hbatching : config.scheduling = .dynamicBatching batching)
    (maxQueueDelayMicroseconds runnerCnt delayCnt : Nat)
    (hvaries : ∃ input ∈ config.input, WILDCARD_DIM ∈ input.dims) :
    (Config.ofModel hvalid hbatching maxQueueDelayMicroseconds runnerCnt
      delayCnt).needPendingShape = true := by
  obtain ⟨input, hinput, hdim⟩ := hvaries
  refine List.any_eq_true.mpr ⟨input.dims, List.mem_map.mpr ⟨input, hinput, rfl⟩, ?_⟩
  unfold getElementCount
  rw [if_pos hdim]
  rfl

/-! ## Every run -/

theorem named_step {cfg : Config} {s s' : System} {a : Action}
    (h : ∀ r ∈ s.enqueued, NamesInputs config r.header) (hnamed : Named config s a)
    (hstep : s.step cfg a = some s') : ∀ r ∈ s'.enqueued, NamesInputs config r.header := by
  cases a with
  | enqueue r =>
    obtain rfl := Option.some.inj hstep
    intro r' hr'
    rcases List.mem_append.mp hr' with hmem | hlast
    · exact h r' hmem
    · rw [List.mem_singleton.mp hlast]
      exact hnamed
  | schedule n now =>
    obtain ⟨-, rfl⟩ := System.step_schedule hstep
    exact h
  | wakeUp n =>
    obtain ⟨-, rfl⟩ := System.step_wakeUp hstep
    exact h

/-- Every batch that is dispatched in a run of an accepted model is admissible. -/
theorem admissible_of_reachable
    (hvalid : (validateModelConfig cuda config expectedPlatform).isOk)
    (hbatching : config.scheduling = .dynamicBatching batching)
    (maxQueueDelayMicroseconds runnerCnt delayCnt : Nat) {s : System}
    (h : ReachableWhen
      (System.step
        (.ofModel hvalid hbatching maxQueueDelayMicroseconds runnerCnt delayCnt)) (Named config)
      (.init (.ofModel hvalid hbatching maxQueueDelayMicroseconds runnerCnt delayCnt)) s) :
    ∀ batch ∈ s.dispatched, Admissible config
      (.ofModel hvalid hbatching maxQueueDelayMicroseconds runnerCnt delayCnt) batch := by
  have hjoins := h.invariant (joins_init _) fun _ _ _ hs _ hstep => joins_step hs hstep
  have hnamed : ∀ r ∈ s.enqueued, NamesInputs config r.header :=
    h.invariant (P := fun s => ∀ r ∈ s.enqueued, NamesInputs config r.header)
      (fun _ hr => by cases hr) fun _ _ _ hs hok hstep => named_step hs hok hstep
  have hfifo := fifo_of_reachable _ s (h.weaken fun _ _ _ => trivial)
  intro batch hbatch
  obtain ⟨hne, hjoinable⟩ := hjoins.dispatched batch hbatch
  obtain ⟨first, rest, rfl⟩ := List.exists_cons_of_ne_nil hne
  have hmem : ∀ r ∈ first :: rest, NamesInputs config r.header := fun r hr => by
    refine hnamed r ?_
    rw [← hfifo.order]
    exact List.mem_append_left _ (List.mem_flatten.mpr ⟨_, hbatch, hr⟩)
  refine ⟨hne, ?_, fun hvaries r hr r' hr' input hinput io hio io' hio' hname hname' => ?_⟩
  · rcases hjoinable.size with hone | hsize
    · exact .inl (Nat.le_antisymm hone (Nat.succ_pos _))
    · refine .inr ⟨hsize, ?_⟩
      have hle := hsize.trans
        (maxPreferredBatchSize_le hvalid hbatching maxQueueDelayMicroseconds runnerCnt delayCnt)
      rw [max_comm, ← Int.toNat_eq_max]
      exact Int.ofNat_le.mpr hle
  · have hneed := needPendingShape_ofModel hvalid hbatching maxQueueDelayMicroseconds runnerCnt
      delayCnt hvaries
    have honce := hmem first List.mem_cons_self input hinput
    have hdims := hjoinable.dims_eq hneed hr hio (hname.symm ▸ honce)
    have hdims' := hjoinable.dims_eq hneed hr' hio' (hname'.symm ▸ honce)
    rw [hname] at hdims
    rw [hname', hdims] at hdims'
    exact Option.some.inj hdims'

end

/-- A model with an input of varying shape. -/
def batchedModel (maxBatchSize : Int32) (preferredBatchSize : List Int32) : ModelConfig where
  name := "bert"
  platform := kCustomPlatform
  versionPolicy := some (.latest 1)
  maxBatchSize := maxBatchSize
  input := [{ name := "x", dataType := .fp32, dims := [-1, 3] }]
  scheduling := .dynamicBatching { preferredBatchSize }
  instanceGroup := [{ name := "bert_0", kind := .cpu, count := 1 }]

/-- The scheduler of such a model, with two threads and no delay. -/
def batchedScheduler (maxBatchSize : Int32) (preferredBatchSize : List Int32)
    (hvalid : (validateModelConfig .noDevice (batchedModel maxBatchSize preferredBatchSize)
      "").isOk) : Config :=
  @Config.ofModel _ _ _ { preferredBatchSize } hvalid rfl 0 2 0

theorem valid_eight : (validateModelConfig .noDevice (batchedModel 8 [4]) "").isOk := by decide

theorem valid_negative : (validateModelConfig .noDevice (batchedModel (-1) []) "").isOk := by
  decide

/-- Two requests of the preferred size 4 together, and a third one behind them. -/
theorem admissible_four :
    ∃ s, ReachableWhen (System.step (batchedScheduler 8 [4] valid_eight))
        (Named (batchedModel 8 [4])) (.init (batchedScheduler 8 [4] valid_eight)) s ∧
      s.dispatched.map List.length = [2] ∧ ∀ batch ∈ s.dispatched,
        Admissible (batchedModel 8 [4]) (batchedScheduler 8 [4] valid_eight) batch := by
  have hrun : (runWhen (System.step (batchedScheduler 8 [4] valid_eight))
      (Named (batchedModel 8 [4])) (.init (batchedScheduler 8 [4] valid_eight))
      [.enqueue (requestOf 2 (by decide)), .enqueue (requestOf 2 (by decide)),
        .enqueue (requestOf 3 (by decide)), .schedule 0 0]).map
      (fun s => s.dispatched.map List.length == [2]) = some true := by decide
  obtain ⟨s, hreach, hs⟩ := exists_of_runWhen hrun
  exact ⟨s, hreach, eq_of_beq hs, admissible_of_reachable valid_eight rfl 0 2 0 hreach⟩

/-- Without a preferred size, two requests of batch size 0 are one batch, also when
`max_batch_size` is negative. -/
theorem not_bounded_negative :
    ∃ s, ReachableWhen (System.step (batchedScheduler (-1) [] valid_negative))
        (Named (batchedModel (-1) [])) (.init (batchedScheduler (-1) [] valid_negative)) s ∧
      ∃ batch ∈ s.dispatched, batch.length ≠ 1 ∧
        ¬ (batchSizeOf batch : Int) ≤ (batchedModel (-1) []).maxBatchSize.toInt := by
  have hrun : (runWhen (System.step (batchedScheduler (-1) [] valid_negative))
      (Named (batchedModel (-1) [])) (.init (batchedScheduler (-1) [] valid_negative))
      [.enqueue (requestOf 0 (by decide)), .enqueue (requestOf 0 (by decide)),
        .schedule 0 0]).map
      (fun s => decide (∃ batch ∈ s.dispatched, batch.length ≠ 1 ∧
        ¬ (batchSizeOf batch : Int) ≤ (batchedModel (-1) []).maxBatchSize.toInt)) =
      some true := by decide
  obtain ⟨s, hreach, hs⟩ := exists_of_runWhen hrun
  exact ⟨s, hreach, of_decide_eq_true hs⟩

end FinBert.DynamicBatch
