import FinBert.DynamicBatch.Batches
import Mathlib.Data.Nat.Find

/-!
# The decision without a memory

`GetDynamicBatch` examines a request once and remembers the batch that it has found. What it
decides is what a scheduler would decide that looks at the whole queue every time
(`decideFromScratch`): no limit, no other shape and no preferred size lies inside the remembered
prefix, because the call that found it would have ended there or sent it.

Results:
1. `decide_eq`: the decision is the one from scratch, when the counters remember enough.
2. `decide_of_pending`: and they do, after arrivals and calls that sent nothing.
3. `decide_of_reachable`: so every decision in every run of the scheduler is the one from scratch.
-/

namespace FinBert.DynamicBatch

open FinBert.Serving Transition

/-! ## From scratch -/

/-- What is decided: the microseconds to wait, 0 to send the batch, and the requests in it. -/
structure Decision where
  waitMicroseconds : Nat
  batchCnt : Nat
deriving DecidableEq

instance (cfg : Config) (batch : List Request) : Decidable (Joinable cfg batch) :=
  decidable_of_iff
    ((batch.length ≤ 1 ∨ batchSizeOf batch ≤ cfg.maxPreferredBatchSize) ∧
      (cfg.needPendingShape = true → ∀ first ∈ batch.head?, ∀ r ∈ batch.tail,
        compareWithPendingShape (initPendingShape first.header) r.header = true))
    ⟨fun h => ⟨h.1, fun hneed first rest heq => by
        subst heq
        exact h.2 hneed first rfl⟩,
      fun h => ⟨h.size, fun hneed first hfirst => by
        obtain ⟨rest, rfl⟩ := List.head?_eq_some_iff.mp hfirst
        exact h.shapes hneed first rest rfl⟩⟩

/-- The size of the batch is a preferred one. -/
def Preferred (cfg : Config) (batch : List Request) : Prop :=
  (batchSizeOf batch : Int) ∈ cfg.preferredBatchSizes

instance (cfg : Config) (batch : List Request) : Decidable (Preferred cfg batch) :=
  inferInstanceAs (Decidable (_ ∈ cfg.preferredBatchSizes))

/-- The requests of the longest prefix of the queue that may be one batch. -/
def longestJoinable (cfg : Config) (queue : List Request) : Nat :=
  Nat.findGreatest (fun n => Joinable cfg (queue.take n)) queue.length

/-- The requests of the longest prefix of that prefix with a preferred size, 0 if there is none. -/
def longestPreferred (cfg : Config) (queue : List Request) : Nat :=
  Nat.findGreatest (fun n => Preferred cfg (queue.take n)) (longestJoinable cfg queue)

/-- What is left of the queue delay of the first request, in whole microseconds. -/
def remainingMicroseconds (cfg : Config) (queue : List Request) (now : Nat) : Nat :=
  (cfg.pendingBatchDelayNs - delayNs now ((queue.head?.map (·.startTimeNs)).getD 0)) / 1000

/-- The clock has not run backwards since the first request was queued. -/
theorem remainingMicroseconds_eq (cfg : Config) {r : Request} {rest : List Request} {now : Nat}
    (hle : r.startTimeNs ≤ now) (hlt : now < 18446744073709551616) :
    remainingMicroseconds cfg (r :: rest) now =
      (cfg.pendingBatchDelayNs - (now - r.startTimeNs)) / 1000 := by
  have hdelay : delayNs now r.startTimeNs = now - r.startTimeNs := by
    have hsub : (now : Int) - r.startTimeNs = ((now - r.startTimeNs : Nat) : Int) :=
      (Int.ofNat_sub hle).symm
    have hlt' : ((now - r.startTimeNs : Nat) : Int) < 18446744073709551616 := by omega
    rw [delayNs, hsub, Int.emod_eq_of_lt (Int.natCast_nonneg _) hlt', Int.toNat_natCast]
  rw [remainingMicroseconds, List.head?_cons, Option.map_some, Option.getD_some, hdelay]

/-- The decision for a queue, with no memory of earlier ones. -/
def decideFromScratch (cfg : Config) (queue : List Request) (now : Nat) : Decision :=
  let longest := longestJoinable cfg queue
  let preferred := longestPreferred cfg queue
  if preferred ≠ 0 then { waitMicroseconds := 0, batchCnt := preferred }
  else if longest < queue.length ∨ cfg.pendingBatchDelayNs = 0 ∨
      cfg.maxPreferredBatchSize ≤ batchSizeOf (queue.take longest) then
    { waitMicroseconds := 0, batchCnt := longest }
  else { waitMicroseconds := remainingMicroseconds cfg queue now, batchCnt := longest }

/-- The decision of `GetDynamicBatch`. -/
def Scheduler.decision (cfg : Config) (s : Scheduler) (now : Nat) : Decision :=
  { waitMicroseconds := (s.getDynamicBatch cfg now).2
    batchCnt := (s.getDynamicBatch cfg now).1.pendingBatchQueueCnt }

/-! ## The loop finds the longest prefixes -/

theorem Joinable.take {cfg : Config} {batch : List Request} (h : Joinable cfg batch) (n : Nat) :
    Joinable cfg (batch.take n) where
  size := by
    refine h.size.imp (Nat.le_trans (List.length_take_le' n batch)) (Nat.le_trans ?_)
    calc batchSizeOf (batch.take n)
        ≤ batchSizeOf (batch.take n) + batchSizeOf (batch.drop n) := Nat.le_add_right _ _
      _ = batchSizeOf (batch.take n ++ batch.drop n) := by
        rw [batchSizeOf, batchSizeOf, batchSizeOf, List.map_append, List.sum_append]
      _ = batchSizeOf batch := by rw [List.take_append_drop]
  shapes := by
    intro hneed first rest heq r hr
    obtain ⟨rest', rfl⟩ : ∃ rest', batch = first :: rest' := by
      cases batch with
      | nil => rw [List.take_nil] at heq; cases heq
      | cons first' rest' =>
        cases n with
        | zero => cases heq
        | succ n => exact ⟨rest', by rw [(List.cons.inj heq).1]⟩
    cases n with
    | zero => cases heq
    | succ n =>
      rw [← (List.cons.inj heq).2] at hr
      exact h.shapes hneed first rest' rfl r (List.mem_of_mem_take hr)

/-- The value that is looked up is the size, as far as preferred sizes go. -/
theorem toInt32_mem_iff {cfg : Config} {size : Nat} (hlt : size < 4294967296) :
    toInt32 size ∈ cfg.preferredBatchSizes ↔ (size : Int) ∈ cfg.preferredBatchSizes := by
  by_cases hsmall : size < 2147483648
  · have heq : toInt32 size = size := Int.bmod_eq_of_le (by omega) (by omega)
    rw [heq]
  · have heq : toInt32 size = size - 4294967296 :=
      (Int.bmod_eq_iff (by decide)).mpr ⟨by omega, by omega, -1, by omega⟩
    refine iff_of_false (fun h => ?_) fun h => ?_
    · have hneg : toInt32 size < 0 := heq ▸ Int.sub_neg_of_lt (Int.ofNat_lt.mpr hlt)
      exact Int.lt_asymm hneg (preferredBatchSizes_pos h).1
    · exact hsmall (Int.ofNat_lt.mp (preferredBatchSizes_pos h).2)

theorem not_preferred_nil (cfg : Config) : ¬ Preferred cfg [] :=
  fun h => Int.lt_irrefl 0 (preferredBatchSizes_pos h).1

/-- The best prefix is the longest preferred one of the prefix that is searched. -/
structure Search.Best (cfg : Config) (queue : List Request) (a : Search) : Prop where
  preferred : a.bestPreferredBatchSize ≠ 0 → 0 < a.bestPreferredBatchCnt ∧
    a.bestPreferredBatchCnt ≤ a.searchBatchCnt ∧ Preferred cfg (queue.take a.bestPreferredBatchCnt)
  beyond : ∀ n ≤ a.searchBatchCnt, (a.bestPreferredBatchSize ≠ 0 → a.bestPreferredBatchCnt < n) →
    ¬ Preferred cfg (queue.take n)

theorem Search.Best.extend {cfg : Config} {queue : List Request} {a : Search} {r : Request}
    (h : a.Best cfg queue)
    (hsum : addSize a.searchBatchSize r.header.batchSize =
      batchSizeOf (queue.take (a.searchBatchCnt + 1)))
    (hlt : batchSizeOf (queue.take (a.searchBatchCnt + 1)) < 4294967296) :
    (a.extend cfg r).Best cfg queue := by
  unfold Search.extend
  dsimp only
  rw [hsum]
  split
  · next hmem =>
    have hpreferred : Preferred cfg (queue.take (a.searchBatchCnt + 1)) :=
      (toInt32_mem_iff hlt).mp hmem
    refine ⟨fun _ => ⟨Nat.succ_pos _, Nat.le_refl _, hpreferred⟩, fun n hle hbeyond => ?_⟩
    refine absurd (hbeyond fun hbest => ?_) (Nat.not_lt.mpr hle)
    have hzero : batchSizeOf (queue.take (a.searchBatchCnt + 1)) = 0 := hbest
    rw [Preferred, hzero] at hpreferred
    exact not_preferred_nil cfg hpreferred
  · next hnot =>
    refine ⟨fun hbest => ?_, fun n hle hbeyond => ?_⟩
    · obtain ⟨hpos, hle, hpreferred⟩ := h.preferred hbest
      exact ⟨hpos, Nat.le_succ_of_le hle, hpreferred⟩
    · rcases Nat.le_succ_iff.mp hle with hle | rfl
      · exact h.beyond n hle hbeyond
      · exact fun hpreferred => hnot ((toInt32_mem_iff hlt).mpr hpreferred)

/-- The search has come to its end: all requests are in the batch, or the next one may not join. -/
structure Search.Ended (cfg : Config) (queue : List Request) (a : Search) : Prop where
  blocked : a.sendNow = true → a.searchBatchCnt < queue.length ∧
    ¬ Joinable cfg (queue.take (a.searchBatchCnt + 1))
  all : a.sendNow = false → a.searchBatchCnt = queue.length

/-- The loop ends with the longest prefix that may be one batch, and the best one in it. -/
theorem search_spec {cfg : Config} {queue rest : List Request} {a : Search}
    (h : a.Joins cfg queue) (hrest : queue.drop a.searchBatchCnt = rest)
    (hsend : a.sendNow = false) (hbest : a.Best cfg queue) :
    (search cfg rest a).Ended cfg queue ∧ (search cfg rest a).Best cfg queue := by
  induction rest generalizing a with
  | nil =>
    refine ⟨⟨fun htrue => ?_, fun _ => ?_⟩, hbest⟩
    · rw [search, hsend] at htrue
      cases htrue
    · exact Nat.le_antisymm h.counted.search.le_length (List.drop_eq_nil_iff.mp hrest)
  | cons r rest ih =>
    rcases search_cons h hrest with ⟨shapes, hsearch, hsum, hjoins, hdrop⟩ | ⟨hsearch, hnot⟩
    · have hcount := hjoins.counted.search
      rw [searchBatchCnt_extend] at hcount
      have hbest' : Search.Best cfg queue { a with shapes := shapes } :=
        ⟨hbest.preferred, hbest.beyond⟩
      rw [hsearch]
      refine ih hjoins (by rw [searchBatchCnt_extend]; exact hdrop) ?_
        (hbest'.extend hsum (hcount.size_eq ▸ hcount.size_lt))
      unfold Search.extend
      dsimp only
      split
      · exact hsend
      · exact hsend
    · rw [hsearch]
      refine ⟨⟨fun _ => ⟨Nat.lt_of_not_le fun hle => ?_, hnot⟩, fun hfalse => by cases hfalse⟩,
        ⟨hbest.preferred, hbest.beyond⟩⟩
      rw [List.drop_of_length_le hle] at hrest
      cases hrest

theorem Search.Ended.longest {cfg : Config} {queue : List Request} {a : Search}
    (h : a.Ended cfg queue) (hjoins : a.Joins cfg queue) :
    longestJoinable cfg queue = a.searchBatchCnt := by
  refine Nat.findGreatest_eq_iff.mpr
    ⟨hjoins.counted.search.le_length, fun _ => hjoins.search, fun n hlt hle hjoin => ?_⟩
  cases hsend : a.sendNow with
  | true =>
    refine (h.blocked hsend).2 ?_
    have htake := hjoin.take (a.searchBatchCnt + 1)
    rwa [List.take_take, Nat.min_eq_left hlt] at htake
  | false =>
    rw [h.all hsend] at hlt
    exact absurd hle (Nat.not_le.mpr hlt)

theorem Search.Best.longest {cfg : Config} {queue : List Request} {a : Search}
    (h : a.Best cfg queue) (hlongest : longestJoinable cfg queue = a.searchBatchCnt) :
    longestPreferred cfg queue =
      if a.bestPreferredBatchSize ≠ 0 then a.bestPreferredBatchCnt else 0 := by
  rw [longestPreferred, hlongest]
  split
  · next hbest =>
    obtain ⟨-, hle, hpreferred⟩ := h.preferred hbest
    exact Nat.findGreatest_eq_iff.mpr ⟨hle, fun _ => hpreferred, fun n hlt hle =>
      h.beyond n hle fun _ => hlt⟩
  · next hnone =>
    exact Nat.findGreatest_eq_iff.mpr ⟨Nat.zero_le _, fun hne => absurd rfl hne, fun n _ hle =>
      h.beyond n hle fun hbest => absurd hbest hnone⟩

/-! ## What the counters remember -/

/-- The pending batch may be executed and the shapes are its own, but no part of it has a
preferred size. -/
structure Remembers (cfg : Config) (s : Scheduler) : Prop where
  counts : Counts s.queue s.pendingBatchSize s.pendingBatchQueueCnt
  joinable : Joinable cfg (s.queue.take s.pendingBatchQueueCnt)
  shapes : ShapesOf cfg (s.queue.take s.pendingBatchQueueCnt) s.pendingBatchShapes
  unpreferred : ∀ n ≤ s.pendingBatchQueueCnt, ¬ Preferred cfg (s.queue.take n)

variable {cfg : Config} {s s' : Scheduler}

/-- No batch is pending. -/
theorem Remembers.none (hsize : s.pendingBatchSize = 0) (hcnt : s.pendingBatchQueueCnt = 0) :
    Remembers cfg s := by
  have hpending : Pending cfg s := .none hsize hcnt
  refine ⟨hpending.counts, hpending.joinable, hpending.shapes, fun n hle => ?_⟩
  rw [hcnt] at hle
  rw [Nat.le_zero.mp hle, List.take_zero]
  exact not_preferred_nil cfg

/-- An arrival. -/
theorem Remembers.enqueue (h : Remembers cfg s) (r : Request) :
    Remembers cfg (s.enqueue r).1 := by
  have hle := h.counts.le_length
  refine ⟨h.counts.append [r], ?_, ?_, fun n hn => ?_⟩
  all_goals
    unfold Scheduler.enqueue
    dsimp only
    rw [List.take_append_of_le_length (by first | exact hle | exact Nat.le_trans hn hle)]
  · exact h.joinable
  · exact h.shapes
  · exact h.unpreferred n hn

/-- The variables before the loop. -/
def Scheduler.resume (s : Scheduler) : Search :=
  { searchBatchSize := s.pendingBatchSize
    searchBatchCnt := s.pendingBatchQueueCnt
    shapes := s.pendingBatchShapes }

theorem Remembers.joins (h : Remembers cfg s) : s.resume.Joins cfg s.queue :=
  ⟨⟨h.counts, fun hne => absurd rfl hne⟩, h.joinable, h.shapes, fun hne => absurd rfl hne⟩

theorem Remembers.best (h : Remembers cfg s) : s.resume.Best cfg s.queue :=
  ⟨fun hne => absurd rfl hne, fun n hle _ => h.unpreferred n hle⟩

/-- The variables behind the loop. -/
def Scheduler.found (cfg : Config) (s : Scheduler) : Search :=
  search cfg (s.queue.drop s.pendingBatchQueueCnt) s.resume

theorem Remembers.found (h : Remembers cfg s) : (s.found cfg).Joins cfg s.queue ∧
    (s.found cfg).Ended cfg s.queue ∧ (s.found cfg).Best cfg s.queue :=
  ⟨joinable_search h.joins rfl, search_spec h.joins rfl rfl h.best⟩

theorem longestJoinable_pos (cfg : Config) {queue : List Request} (hne : queue ≠ []) :
    longestJoinable cfg queue ≠ 0 := by
  obtain ⟨r, rest, rfl⟩ := List.exists_cons_of_ne_nil hne
  have hle : 1 ≤ longestJoinable cfg (r :: rest) :=
    Nat.le_findGreatest (Nat.succ_le_succ (Nat.zero_le _)) (joinable_singleton cfg r)
  exact Nat.ne_of_gt hle

/-- The decision is the one from scratch. -/
theorem decide_eq (h : Remembers cfg s) (hne : s.queue ≠ []) (now : Nat) :
    s.decision cfg now = decideFromScratch cfg s.queue now := by
  obtain ⟨hjoins, hended, hbest⟩ := h.found
  have hlongest : longestJoinable cfg s.queue = (s.found cfg).searchBatchCnt :=
    hended.longest hjoins
  have hpreferred := hbest.longest hlongest
  have hblocked : (s.found cfg).sendNow = true ↔
      longestJoinable cfg s.queue < s.queue.length := by
    rw [hlongest]
    refine ⟨fun hsend => (hended.blocked hsend).1, fun hlt => ?_⟩
    by_contra hsend
    exact Nat.ne_of_lt hlt (hended.all (Bool.eq_false_iff.mpr hsend))
  have hsize : (s.found cfg).searchBatchSize =
      batchSizeOf (s.queue.take (longestJoinable cfg s.queue)) := by
    rw [hlongest]
    exact hjoins.counted.search.size_eq
  have hfound : search cfg (s.queue.drop s.pendingBatchQueueCnt)
      { searchBatchSize := s.pendingBatchSize
        searchBatchCnt := s.pendingBatchQueueCnt
        shapes := s.pendingBatchShapes } = s.found cfg := rfl
  unfold Scheduler.decision Scheduler.getDynamicBatch decideFromScratch
  dsimp only
  rw [hfound, hpreferred]
  by_cases hsome : (s.found cfg).bestPreferredBatchSize ≠ 0
  · have hpos : (s.found cfg).bestPreferredBatchCnt ≠ 0 :=
      Nat.ne_of_gt (hbest.preferred hsome).1
    rw [if_pos hsome, if_pos hsome, if_pos hpos]
  · have hcnt : (s.found cfg).searchBatchCnt ≠ 0 := hlongest ▸ longestJoinable_pos cfg hne
    have hsend : ((s.found cfg).sendNow || cfg.pendingBatchDelayNs = 0 ||
        cfg.maxPreferredBatchSize ≤ (s.found cfg).searchBatchSize) = true ↔
        longestJoinable cfg s.queue < s.queue.length ∨ cfg.pendingBatchDelayNs = 0 ∨
          cfg.maxPreferredBatchSize ≤
            batchSizeOf (s.queue.take (longestJoinable cfg s.queue)) := by
      rw [Bool.or_eq_true, Bool.or_eq_true, decide_eq_true_eq, decide_eq_true_eq, hblocked, hsize,
        or_assoc]
    rw [if_neg hsome, if_neg hsome, if_neg (not_not_intro rfl), if_neg hcnt]
    by_cases hnow : longestJoinable cfg s.queue < s.queue.length ∨ cfg.pendingBatchDelayNs = 0 ∨
        cfg.maxPreferredBatchSize ≤ batchSizeOf (s.queue.take (longestJoinable cfg s.queue))
    · rw [if_pos hnow, if_pos (hsend.mpr hnow), hlongest]
    · rw [if_neg hnow, if_neg (mt hsend.mp hnow), hlongest]
      split
      · next hle =>
        -- a delay that has passed leaves nothing
        have hzero : remainingMicroseconds cfg s.queue now = 0 := by
          rw [remainingMicroseconds, Nat.sub_eq_zero_of_le hle, Nat.zero_div]
        rw [hzero]
      · rfl

/-- A call that sends nothing has found no preferred size, and remembers what it has found. -/
theorem getDynamicBatch_of_wait {now : Nat} (hwait : (s.getDynamicBatch cfg now).2 ≠ 0) :
    (s.found cfg).bestPreferredBatchSize = 0 ∧
      (s.getDynamicBatch cfg now).1 = { s with
        pendingBatchSize := (s.found cfg).searchBatchSize
        pendingBatchQueueCnt := (s.found cfg).searchBatchCnt
        pendingBatchShapes := (s.found cfg).shapes } := by
  have hfound : search cfg (s.queue.drop s.pendingBatchQueueCnt)
      { searchBatchSize := s.pendingBatchSize
        searchBatchCnt := s.pendingBatchQueueCnt
        shapes := s.pendingBatchShapes } = s.found cfg := rfl
  unfold Scheduler.getDynamicBatch at hwait ⊢
  dsimp only at hwait ⊢
  rw [hfound] at hwait ⊢
  split at hwait
  · exact absurd rfl hwait
  · next hnone =>
    refine ⟨not_not.mp hnone, ?_⟩
    rw [if_neg hnone]
    split
    · rfl
    · split
      · rfl
      · split <;> rfl

/-- What is remembered then is enough again. -/
theorem Remembers.getDynamicBatch (h : Remembers cfg s) {now : Nat}
    (hwait : (s.getDynamicBatch cfg now).2 ≠ 0) :
    Remembers cfg (s.getDynamicBatch cfg now).1 := by
  obtain ⟨hjoins, -, hbest⟩ := h.found
  obtain ⟨hnone, hstate⟩ := getDynamicBatch_of_wait hwait
  rw [hstate]
  exact ⟨hjoins.counted.search, hjoins.search, hjoins.shapes, fun n hle =>
    hbest.beyond n hle fun hsome => absurd hnone hsome⟩

/-! ## Since the last dispatch -/

/-- What happens between two dispatches: an arrival, or a call of `GetDynamicBatch`. -/
inductive PendingAction
  | enqueue (r : Request)
  | getDynamicBatch (now : Nat)
deriving DecidableEq

/-- A call needs a queue that is not empty, and sends nothing. -/
def Scheduler.pendingStep (cfg : Config) (s : Scheduler) : PendingAction → Option Scheduler
  | .enqueue r => some (s.enqueue r).1
  | .getDynamicBatch now =>
    if s.queue ≠ [] ∧ (s.getDynamicBatch cfg now).2 ≠ 0 then some (s.getDynamicBatch cfg now).1
    else none

/-- The scheduler after a dispatch that has left `queue`. -/
def Scheduler.afterDispatch (queue : List Request) (idleSchedulerThreadCnt : Nat) : Scheduler :=
  { Scheduler.create with queue, idleSchedulerThreadCnt }

theorem Remembers.pendingStep (h : Remembers cfg s) {a : PendingAction}
    (hstep : s.pendingStep cfg a = some s') : Remembers cfg s' := by
  cases a with
  | enqueue r =>
    obtain rfl := Option.some.inj hstep
    exact h.enqueue r
  | getDynamicBatch now =>
    unfold Scheduler.pendingStep at hstep
    dsimp only at hstep
    split at hstep
    · next hsent =>
      obtain rfl := Option.some.inj hstep
      exact h.getDynamicBatch hsent.2
    · cases hstep

/-- Whatever has arrived and whatever calls there were since the last dispatch, a call decides what
is decided from scratch. -/
theorem decide_of_pending (cfg : Config) (queue : List Request) (idleSchedulerThreadCnt : Nat)
    (s : Scheduler)
    (h : Reachable (Scheduler.pendingStep cfg) (.afterDispatch queue idleSchedulerThreadCnt) s)
    (hne : s.queue ≠ []) (now : Nat) : s.decision cfg now = decideFromScratch cfg s.queue now := by
  have hremembers : Remembers cfg s :=
    h.invariant (.none rfl rfl) fun _ _ _ hs _ hstep => hs.pendingStep hstep
  exact decide_eq hremembers hne now

/-- A batch of 3 has been left pending; with one more it has a preferred size. -/
theorem decide_preferFour :
    ∃ s, Reachable (Scheduler.pendingStep preferFour)
        (.afterDispatch [requestOf 3 (by decide)] 0) s ∧
      s.pendingBatchQueueCnt = 1 ∧ s.decision preferFour 5000 = ⟨0, 2⟩ ∧
      s.decision preferFour 5000 = decideFromScratch preferFour s.queue 5000 := by
  have hrun : (runWhen (Scheduler.pendingStep preferFour) (fun _ _ => True)
      (.afterDispatch [requestOf 3 (by decide)] 0)
      [.getDynamicBatch 1000, .enqueue (requestOf 1 (by decide)),
        .enqueue (requestOf 7 (by decide))]).map
      (fun s => !s.queue.isEmpty && s.pendingBatchQueueCnt == 1 &&
        s.decision preferFour 5000 == ⟨0, 2⟩) = some true := by decide
  obtain ⟨s, hreach, hs⟩ := exists_of_runWhen hrun
  simp only [Bool.and_eq_true, beq_iff_eq, Bool.not_eq_true', List.isEmpty_eq_false_iff] at hs
  exact ⟨s, hreach, hs.1.2, hs.2, decide_of_pending preferFour _ 0 s hreach hs.1.1 5000⟩

/-! ## Every run of the scheduler -/

theorem Remembers.schedulerThread (h : Remembers cfg s)
    (hoff : cfg.dynamicBatchingEnabled = false → s.pendingBatchQueueCnt = 0) (delayCnt now : Nat) :
    Remembers cfg (s.schedulerThread cfg delayCnt now).sched := by
  unfold Scheduler.schedulerThread
  split
  · exact h
  · split
    · exact h
    · split
      · split
        · exact .none rfl rfl
        · next sched wait hcall =>
          have hwait : (s.getDynamicBatch cfg now).2 ≠ 0 := by
            rw [hcall]
            exact Nat.succ_ne_zero wait
          have hnext := h.getDynamicBatch hwait
          rwa [hcall] at hnext
      · next hdisabled =>
        have hcnt := hoff (Bool.eq_false_iff.mpr hdisabled)
        have hsize : s.pendingBatchSize = 0 := by
          rw [h.counts.size_eq, hcnt]
          rfl
        exact .none hsize hcnt

theorem remembers_step {s s' : System} {a : Action} (hinv : s.Inv cfg) (h : Remembers cfg s.sched)
    (hstep : s.step cfg a = some s') : Remembers cfg s'.sched := by
  cases a with
  | enqueue r =>
    obtain rfl := Option.some.inj hstep
    exact h.enqueue _
  | schedule n now =>
    obtain ⟨-, rfl⟩ := System.step_schedule hstep
    have hturn := h.schedulerThread hinv.off (s.threads n).delayCnt now
    exact ⟨hturn.counts, hturn.joinable, hturn.shapes, hturn.unpreferred⟩
  | wakeUp n =>
    obtain ⟨-, rfl⟩ := System.step_wakeUp hstep
    exact ⟨h.counts, h.joinable, h.shapes, h.unpreferred⟩

/-- In every run, whenever a thread looks at a queue that is not empty. -/
theorem decide_of_reachable (cfg : Config) (s : System)
    (h : Reachable (System.step cfg) (.init cfg) s) (hne : s.sched.queue ≠ []) (now : Nat) :
    s.sched.decision cfg now = decideFromScratch cfg s.sched.queue now := by
  have hremembers : s.Inv cfg ∧ Remembers cfg s.sched :=
    h.invariant (P := fun s => s.Inv cfg ∧ Remembers cfg s.sched) ⟨inv_init cfg, .none rfl rfl⟩
      fun _ _ _ hs _ hstep => ⟨inv_step hs.1 hstep, remembers_step hs.1 hs.2 hstep⟩
  exact decide_eq hremembers.2 hne now

end FinBert.DynamicBatch
