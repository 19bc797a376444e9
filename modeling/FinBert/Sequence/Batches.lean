import FinBert.Sequence.Refinement

/-!
# Dispatched requests and executed batches

`History.dispatched` records a request when a pass collects it. `BatchesOk` says
that this is the same as being in a batch: the requests of an executed batch, and
of the one a pass is collecting, are those dispatched in this pass, in this order,
at most one from each slot; and a pass executes at most one batch.
-/

namespace FinBert.Sequence

open FinBert.Serving Transition

namespace Scheduler

variable {s s' : Scheduler} {sb : SequenceBatch} {b : Nat}

@[simp] theorem batchers_setBatcher (b' : Nat) :
    (s.setBatcher b sb).batchers b' = if b' = b then sb else s.batchers b' :=
  Function.update_apply ..

theorem pass_setBatcher (hpass : sb.pass = (s.batchers b).pass) (b' : Nat) :
    ((s.setBatcher b sb).batchers b').pass = (s.batchers b').pass := by
  rw [batchers_setBatcher]
  split
  · next hb => rw [hpass, hb]
  · rfl

theorem pass_deliver {target : BatchSlot} {c : CorrelationId} {p : Payload}
    (h : s.deliver target c p = some s') (b : Nat) :
    (s'.batchers b).pass = (s.batchers b).pass := by
  rw [(deliver_eq h).1]
  refine pass_setBatcher ?_ b
  rfl

end Scheduler

theorem maxSlotBelow_spec {queues : Nat → List Payload} {n maxSlot : Nat}
    (h : maxSlotBelow queues n = some maxSlot) : maxSlot < n ∧ queues maxSlot ≠ [] := by
  induction n with
  | zero => cases h
  | succ n ih =>
    unfold maxSlotBelow at h
    split at h
    · obtain ⟨hlt, hne⟩ := ih h
      exact ⟨Nat.lt_succ_of_lt hlt, hne⟩
    · next hne =>
      obtain rfl := Option.some.inj h
      exact ⟨Nat.lt_succ_self n, hne⟩

namespace System

variable {cfg : Config} {s s' : System}

/-- The requests dispatched in one pass of a batcher's thread. -/
def passRequests (s : System) (b pass : Nat) : List Request :=
  (s.history.dispatched.filter fun d => d.batchSlot.batcherIdx = b ∧ d.pass = pass).map (·.request)

/-- The pass that the thread of batcher `b` is in. -/
def openPass (s : System) (b : Nat) : Option CollectPass := (s.sched.batchers b).pass

structure BatchesOk (s : System) : Prop where
  bound : ∀ d ∈ s.history.dispatched, d.pass ≤ s.history.passes d.batchSlot.batcherIdx
  visited : ∀ d ∈ s.history.dispatched, d.pass = s.history.passes d.batchSlot.batcherIdx →
    ∀ pass, s.openPass d.batchSlot.batcherIdx = some pass → d.batchSlot.slot < pass.slot
  nodup : (s.history.dispatched.map fun d => (d.batchSlot, d.pass)).Nodup
  collecting : ∀ b pass, s.openPass b = some pass →
    pass.payloads.filterMap BatchEntry.request? = s.passRequests b (s.history.passes b)
  executed : ∀ e ∈ s.history.executed,
    e.payloads.filterMap BatchEntry.request? = s.passRequests e.batcherIdx e.pass
  executedBound : ∀ e ∈ s.history.executed, e.pass ≤ s.history.passes e.batcherIdx ∧
    (e.pass = s.history.passes e.batcherIdx → s.openPass e.batcherIdx = none)
  executedNodup : (s.history.executed.map fun e => (e.batcherIdx, e.pass)).Nodup
  covered : ∀ d ∈ s.history.dispatched,
    (∃ e ∈ s.history.executed, e.batcherIdx = d.batchSlot.batcherIdx ∧ e.pass = d.pass) ∨
      d.pass = s.history.passes d.batchSlot.batcherIdx ∧ s.openPass d.batchSlot.batcherIdx ≠ none

theorem BatchesOk.frame (h : s.BatchesOk) (hpass : ∀ b, s'.openPass b = s.openPass b)
    (hpasses : s'.history.passes = s.history.passes)
    (hdisp : s'.history.dispatched = s.history.dispatched)
    (hexec : s'.history.executed = s.history.executed) : s'.BatchesOk := by
  have hreq : s'.passRequests = s.passRequests := by
    funext b pass
    rw [passRequests, hdisp, passRequests]
  constructor
  · rw [hdisp, hpasses]; exact h.bound
  · simp only [hdisp, hpasses, hpass]; exact h.visited
  · rw [hdisp]; exact h.nodup
  · simp only [hpass, hreq, hpasses]; exact h.collecting
  · rw [hexec, hreq]; exact h.executed
  · simp only [hexec, hpasses, hpass]; exact h.executedBound
  · rw [hexec]; exact h.executedNodup
  · simp only [hdisp, hexec, hpasses, hpass]; exact h.covered

end System

/-! ## The steps that no sequence notices -/

/-- What the scheduler knows of the sequences has stayed as it was. -/
structure Scheduler.SameSequences (s s' : Scheduler) : Prop where
  slotMap : s'.sequenceToBatchslotMap = s.sequenceToBatchslotMap
  ready : s'.readyBatchSlots = s.readyBatchSlots
  backlogMap : s'.sequenceToBacklogMap = s.sequenceToBacklogMap
  backlogQueues : s'.backlogQueues = s.backlogQueues
  backlogs : s'.backlogs = s.backlogs
  nextBacklog : s'.nextBacklog = s.nextBacklog
  timestamps : s'.correlationIdTimestamps = s.correlationIdTimestamps
  logErrors : s'.logErrors = s.logErrors
  slotIds : ∀ b, (s'.batchers b).slotCorrelationIds = (s.batchers b).slotCorrelationIds

theorem Scheduler.sameSequences_setBatcher {s : Scheduler} {sb : SequenceBatch} {b : Nat}
    (hids : sb.slotCorrelationIds = (s.batchers b).slotCorrelationIds) :
    s.SameSequences (s.setBatcher b sb) := by
  refine ⟨rfl, rfl, rfl, rfl, rfl, rfl, rfl, rfl, fun b' => ?_⟩
  rw [batchers_setBatcher]
  split
  · next hb => rw [hids, hb]
  · rfl

/-- A delay, the two ends of a pass, and the two ends of a pass of the reaper. -/
def Action.isQuiet : Action → Bool
  | .delay _ | .collectBegin _ | .collectEnd _ | .reapBegin _ _ | .reapEnd => true
  | .enqueue _ _ _ | .deliver _ | .collectSlot _ | .reapEntry => false

namespace System

variable {cfg : Config} {s s' : System}

theorem sameSequences_of_quiet {a : Action} (ha : a.isQuiet = true)
    (h : s.step cfg a = some s') : s.sched.SameSequences s'.sched := by
  cases a with
  | enqueue | deliver | collectSlot | reapEntry => cases ha
  | delay b =>
    obtain ⟨sched, hsched, rfl⟩ := Option.map_eq_some_iff.mp h
    obtain ⟨-, cnts, rfl | rfl⟩ := Scheduler.delay_eq_some hsched
    · exact ⟨rfl, rfl, rfl, rfl, rfl, rfl, rfl, rfl, fun _ => rfl⟩
    · have hsame : Scheduler.SameSequences { s.sched with queueRequestCnts := cnts }
          (Scheduler.setBatcher { s.sched with queueRequestCnts := cnts } b
            { s.sched.batchers b with delayCnt := 0 }) :=
        Scheduler.sameSequences_setBatcher rfl
      exact ⟨rfl, rfl, rfl, rfl, rfl, rfl, rfl, rfl, hsame.slotIds⟩
  | collectBegin b =>
    obtain ⟨sched, hsched, rfl⟩ := Option.map_eq_some_iff.mp h
    obtain ⟨-, maxSlot, -, rfl⟩ := Scheduler.collectBegin_eq_some hsched
    exact Scheduler.sameSequences_setBatcher rfl
  | collectEnd b =>
    obtain ⟨⟨sched, payloads⟩, hsched, rfl⟩ := Option.map_eq_some_iff.mp h
    obtain ⟨pass, -, -, -, rfl⟩ := Scheduler.collectEnd_eq_some hsched
    exact Scheduler.sameSequences_setBatcher rfl
  | reapBegin now order =>
    obtain ⟨sched, hsched, rfl⟩ := Option.map_eq_some_iff.mp h
    obtain ⟨-, rfl⟩ := Scheduler.reapBegin_eq_some hsched
    exact ⟨rfl, rfl, rfl, rfl, rfl, rfl, rfl, rfl, fun _ => rfl⟩
  | reapEnd =>
    obtain ⟨sched, hsched, rfl⟩ := Option.map_eq_some_iff.mp h
    obtain ⟨pass, -, -, rfl⟩ := Scheduler.reapEnd_eq_some hsched
    exact ⟨rfl, rfl, rfl, rfl, rfl, rfl, rfl, rfl, fun _ => rfl⟩

/-! ## The steps outside the passes -/

theorem batchers_enqueue {r : Request} {now : Nat} {top : BatchSlot} {sched : Scheduler}
    {placement : Placement} (h : s.sched.enqueue cfg r now top = some (sched, placement)) :
    sched.batchers = s.sched.batchers := by
  obtain ⟨rfl, -⟩ | ⟨-, -, henqueued⟩ := Scheduler.enqueue_eq_some h
  · rfl
  cases henqueued with
  | rejected | continueBacklog | openBacklog => rfl
  | continueSlot | openSlot => exact Scheduler.batchers_assignSlot

/-- The steps of clients and of the reaper change no pass and no batch. -/
theorem frame_outside {a : Action}
    (ha : ∀ b, a ≠ .collectBegin b ∧ a ≠ .collectSlot b ∧ a ≠ .collectEnd b)
    (hs : s.step cfg a = some s') :
    (∀ b, s'.openPass b = s.openPass b) ∧ s'.history.passes = s.history.passes ∧
      s'.history.dispatched = s.history.dispatched ∧
      s'.history.executed = s.history.executed := by
  cases a with
  | enqueue header now top =>
    obtain ⟨⟨sched, placement⟩, henq, rfl⟩ := Option.map_eq_some_iff.mp hs
    refine ⟨fun b => ?_, ?_, ?_, ?_⟩
    · simp only [openPass, batchers_enqueue henq]
    all_goals
      cases placement <;> simp only [History.accept] <;> (try split) <;> rfl
  | deliver call =>
    obtain ⟨d, sched, -, hsched, rfl⟩ := deliver_eq_some hs
    exact ⟨Scheduler.pass_deliver hsched, rfl, rfl, rfl⟩
  | delay b =>
    obtain ⟨sched, hsched, rfl⟩ := Option.map_eq_some_iff.mp hs
    obtain ⟨-, cnts, rfl | rfl⟩ := Scheduler.delay_eq_some hsched
    · exact ⟨fun _ => rfl, rfl, rfl, rfl⟩
    · exact ⟨Scheduler.pass_setBatcher rfl, rfl, rfl, rfl⟩
  | collectBegin b => exact absurd rfl (ha b).1
  | collectSlot b => exact absurd rfl (ha b).2.1
  | collectEnd b => exact absurd rfl (ha b).2.2
  | reapBegin now order =>
    obtain ⟨sched, hsched, rfl⟩ := Option.map_eq_some_iff.mp hs
    obtain ⟨-, rfl⟩ := Scheduler.reapBegin_eq_some hsched
    exact ⟨fun _ => rfl, rfl, rfl, rfl⟩
  | reapEntry =>
    obtain ⟨⟨sched, forced⟩, hsched, rfl⟩ := Option.map_eq_some_iff.mp hs
    have hpass : ∀ b, (sched.batchers b).pass = (s.sched.batchers b).pass := by
      intro b
      obtain ⟨-, pass, timestamps, rfl⟩ | ⟨target, c, pass, timestamps, -, -, -, hdeliver⟩ :=
        Scheduler.reapEntry_eq_some hsched
      · rfl
      · exact Scheduler.pass_deliver hdeliver b
    cases forced <;> exact ⟨hpass, rfl, rfl, rfl⟩
  | reapEnd =>
    obtain ⟨sched, hsched, rfl⟩ := Option.map_eq_some_iff.mp hs
    obtain ⟨pass, -, -, rfl⟩ := Scheduler.reapEnd_eq_some hsched
    exact ⟨fun _ => rfl, rfl, rfl, rfl⟩

theorem batchesOk_outside (h : s.BatchesOk) {a : Action}
    (ha : ∀ b, a ≠ .collectBegin b ∧ a ≠ .collectSlot b ∧ a ≠ .collectEnd b)
    (hs : s.step cfg a = some s') : s'.BatchesOk := by
  obtain ⟨hpass, hpasses, hdisp, hexec⟩ := frame_outside ha hs
  exact h.frame hpass hpasses hdisp hexec

/-! ## The steps of a pass -/

theorem batchesOk_collectBegin (h : s.BatchesOk) {b : Nat} (hs : s.collectBegin b = some s') :
    s'.BatchesOk := by
  obtain ⟨sched, hsched, rfl⟩ := Option.map_eq_some_iff.mp hs
  obtain ⟨⟨hclosed, -⟩, maxSlot, -, rfl⟩ := Scheduler.collectBegin_eq_some hsched
  -- the pass that begins is later than every dispatch of the batcher
  have hnew : s.passRequests b (s.history.passes b + 1) = [] := by
    rw [passRequests, List.map_eq_nil_iff, List.filter_eq_nil_iff]
    intro d hd
    have hle := h.bound d hd
    simp only [decide_eq_true_eq, not_and]
    rintro rfl
    omega
  refine ⟨fun d hd => ?_, fun d hd => ?_, h.nodup, fun b' pass hpass => ?_, h.executed,
    fun e he => ?_, h.executedNodup, fun d hd => ?_⟩
  · have hle := h.bound d hd
    simp only [Function.update_apply]
    split
    · next hb => rw [hb] at hle; omega
    · exact hle
  · have hle := h.bound d hd
    simp only [Function.update_apply, openPass, Scheduler.batchers_setBatcher]
    split
    · next hb => rw [hb] at hle; omega
    · exact h.visited d hd
  · simp only [openPass, Scheduler.batchers_setBatcher, Function.update_apply] at hpass ⊢
    split at hpass
    · next hb =>
      subst hb
      obtain rfl := Option.some.inj hpass
      rw [if_pos rfl]
      exact hnew.symm
    · next hb => rw [if_neg hb]; exact h.collecting b' pass hpass
  · obtain ⟨hle, hopen⟩ := h.executedBound e he
    simp only [Function.update_apply, openPass, Scheduler.batchers_setBatcher]
    split
    · next hb => rw [hb] at hle; exact ⟨by omega, by omega⟩
    · exact ⟨hle, hopen⟩
  · rcases h.covered d hd with hexec | ⟨hcur, hopen⟩
    · exact .inl hexec
    · refine .inr ?_
      have hb : d.batchSlot.batcherIdx ≠ b := by
        intro hb
        rw [hb] at hopen
        exact hopen hclosed
      simp only [Function.update_apply, if_neg hb, openPass, Scheduler.batchers_setBatcher]
      exact ⟨hcur, hopen⟩

theorem batchesOk_collectEnd (h : s.BatchesOk) {b : Nat} (hs : s.collectEnd b = some s') :
    s'.BatchesOk := by
  obtain ⟨⟨sched, payloads⟩, hsched, rfl⟩ := Option.map_eq_some_iff.mp hs
  obtain ⟨pass, hpass, -, rfl, rfl⟩ := Scheduler.collectEnd_eq_some hsched
  have hopen : s.openPass b = some pass := hpass
  refine ⟨h.bound, fun d hd => ?_, h.nodup, fun b' pass' hpass' => ?_, fun e he => ?_,
    fun e he => ?_, ?_, fun d hd => ?_⟩
  · simp only [openPass, Scheduler.batchers_setBatcher]
    split
    · simp
    · exact h.visited d hd
  · simp only [openPass, Scheduler.batchers_setBatcher] at hpass'
    split at hpass'
    · cases hpass'
    · exact h.collecting b' pass' hpass'
  · rcases List.mem_append.mp he with he | he
    · exact h.executed e he
    · obtain rfl := List.mem_singleton.mp he
      exact h.collecting b pass hopen
  · simp only [openPass, Scheduler.batchers_setBatcher]
    rcases List.mem_append.mp he with he | he
    · obtain ⟨hle, hclosed⟩ := h.executedBound e he
      refine ⟨hle, fun heq => ?_⟩
      split
      · rfl
      · exact hclosed heq
    · obtain rfl := List.mem_singleton.mp he
      simp
  · rw [List.map_append, List.nodup_append]
    refine ⟨h.executedNodup, by simp, ?_⟩
    rintro key hkey key' hkey' rfl
    obtain ⟨e, he, heq⟩ := List.mem_map.mp hkey
    obtain rfl : key = (b, s.history.passes b) := by simpa using hkey'
    simp only [Prod.mk.injEq] at heq
    obtain ⟨rfl, hcur⟩ := heq
    rw [(h.executedBound e he).2 hcur] at hopen
    cases hopen
  · by_cases hd' : d.batchSlot.batcherIdx = b ∧ d.pass = s.history.passes b
    · exact .inl ⟨⟨b, s.history.passes b, pass.payloads⟩, by simp, hd'.1.symm, hd'.2.symm⟩
    · rcases h.covered d hd with ⟨e, he, heq⟩ | ⟨hcur, hopen'⟩
      · exact .inl ⟨e, by simp [he], heq⟩
      · have hb : d.batchSlot.batcherIdx ≠ b := fun hb => hd' ⟨hb, hb ▸ hcur⟩
        refine .inr ⟨hcur, ?_⟩
        simp only [openPass, Scheduler.batchers_setBatcher, if_neg hb]
        exact hopen'

theorem request?_batchEntry (header : InferRequestHeader) (popped : Option Payload) :
    (Scheduler.batchEntry header popped).request? = popped.bind Payload.request? := by
  cases popped with
  | none => rfl
  | some p => cases p <;> rfl

theorem release_frame (h : History) (sched : Scheduler) (batchSlot : BatchSlot)
    (released : Option Scheduler.Release) :
    (h.release sched batchSlot released).passes = h.passes ∧
      (h.release sched batchSlot released).executed = h.executed ∧
      (h.release sched batchSlot released).dispatched = h.dispatched := by
  cases released with
  | none => exact ⟨rfl, rfl, rfl⟩
  | some release =>
    cases release with
    | freed => exact ⟨rfl, rfl, rfl⟩
    | handedOn queue =>
      simp only [History.release]
      split <;> exact ⟨rfl, rfl, rfl⟩

theorem dispatch_frame (h : History) (sched : Scheduler) (batchSlot : BatchSlot)
    (popped : Option Payload) :
    (h.dispatch sched batchSlot popped).passes = h.passes ∧
      (h.dispatch sched batchSlot popped).executed = h.executed := by
  simp only [History.dispatch]
  split <;> exact ⟨rfl, rfl⟩

theorem ne_zero_of_checkRequest {header : InferRequestHeader}
    (h : checkRequest cfg header = none) : header.correlationId ≠ 0 := by
  intro hzero
  unfold checkRequest at h
  by_cases hbatch : header.batchSize ≠ 1
  · rw [if_pos hbatch] at h
    cases h
  · rw [if_neg hbatch, if_pos hzero] at h
    cases h

/-- A request is accepted only with a correlation ID. -/
theorem accepted_enqueue {header : InferRequestHeader} {now : Nat} {top : BatchSlot}
    (h : s.enqueue cfg header now top = some s') :
    s'.history.accepted = s.history.accepted ∨
      s'.history.accepted = s.history.accepted ++ [s.history.stamp s.sched header] ∧
        header.correlationId ≠ 0 := by
  obtain ⟨⟨sched, placement⟩, henq, rfl⟩ := Option.map_eq_some_iff.mp h
  unfold Scheduler.enqueue at henq
  split at henq
  · obtain ⟨-, rfl⟩ := Prod.mk.inj (Option.some.inj henq)
    exact .inl rfl
  · next hcheck =>
    have hne : header.correlationId ≠ 0 := ne_zero_of_checkRequest hcheck
    cases placement with
    | rejected status => exact .inl rfl
    | backlog queue opens => cases opens <;> exact .inr ⟨rfl, hne⟩
    | slot target opens => cases opens <;> exact .inr ⟨rfl, hne⟩

theorem accepted_release (h : History) (sched : Scheduler) (batchSlot : BatchSlot)
    (released : Option Scheduler.Release) :
    (h.release sched batchSlot released).accepted = h.accepted := by
  cases released with
  | none => rfl
  | some release =>
    cases release with
    | freed => rfl
    | handedOn queue =>
      simp only [History.release]
      split <;> rfl

theorem accepted_dispatch (h : History) (sched : Scheduler) (batchSlot : BatchSlot)
    (popped : Option Payload) : (h.dispatch sched batchSlot popped).accepted = h.accepted := by
  simp only [History.dispatch]
  split <;> rfl

/-- Only `Enqueue` accepts requests. -/
theorem accepted_other {a : Action} (ha : ∀ header now top, a ≠ .enqueue header now top)
    (h : s.step cfg a = some s') : s'.history.accepted = s.history.accepted := by
  cases a with
  | enqueue header now top => exact absurd rfl (ha header now top)
  | deliver call =>
    obtain ⟨d, sched, -, -, rfl⟩ := deliver_eq_some h
    rfl
  | collectSlot b =>
    obtain ⟨⟨sched, popped, released⟩, -, rfl⟩ := Option.map_eq_some_iff.mp h
    exact (accepted_release _ _ _ _).trans (accepted_dispatch _ _ _ _)
  | reapEntry =>
    obtain ⟨⟨sched, forced⟩, -, rfl⟩ := Option.map_eq_some_iff.mp h
    cases forced with
    | none => rfl
    | some put => rfl
  | _ =>
    obtain ⟨_, -, rfl⟩ := Option.map_eq_some_iff.mp h
    rfl

/-- A pass has taken `popped` from its slot: the requests of its payloads, and no
other batcher. -/
def Collected (sched sched' : Scheduler) (b : Nat) (popped : Option Payload) : Prop :=
  ∃ pass next, (sched.batchers b).pass = some pass ∧ (sched'.batchers b).pass = some next ∧
    (∀ b' ≠ b, sched'.batchers b' = sched.batchers b') ∧ next.slot = pass.slot + 1 ∧
    next.payloads.filterMap BatchEntry.request? =
      pass.payloads.filterMap BatchEntry.request? ++ (popped.bind Payload.request?).toList

theorem collected_setBatcher {sched sched₁ : Scheduler} {b : Nat} {sb : SequenceBatch}
    {pass next : CollectPass} {popped : Option Payload} (header : InferRequestHeader)
    (hpass : (sched.batchers b).pass = some pass) (hbatchers : sched₁.batchers = sched.batchers)
    (hnext : sb.pass = some next) (hslot : next.slot = pass.slot + 1)
    (hpayloads : next.payloads = pass.payloads ++ [Scheduler.batchEntry header popped]) :
    Collected sched (sched₁.setBatcher b sb) b popped := by
  refine ⟨pass, next, hpass, by simpa using hnext, fun b' hb => by simp [hb, hbatchers], hslot, ?_⟩
  rw [hpayloads, List.filterMap_append, List.filterMap_cons, request?_batchEntry]
  cases popped.bind Payload.request? <;> rfl

theorem collected_of_collectSlot {sched sched' : Scheduler} {b : Nat} {popped : Option Payload}
    {released : Option Scheduler.Release}
    (hs : sched.collectSlot cfg b = some (sched', popped, released)) :
    Collected sched sched' b popped := by
  obtain ⟨pass, hpass, -, hvisited⟩ := Scheduler.collectSlot_eq_some hs
  cases hvisited with
  | empty hempty =>
    refine collected_setBatcher (sched.batchers b).nullRequestHeader hpass rfl rfl rfl ?_
    simp only [Scheduler.nextPass, hempty, List.head?_nil]
  | collected hqueue hgoesOn =>
    refine collected_setBatcher (sched.batchers b).nullRequestHeader hpass rfl rfl rfl ?_
    simp only [Scheduler.nextPass, hqueue, List.head?_cons]
  | handedOn hqueue hends hfree hlog hrelease | freed hqueue hends hfree hlog hrelease =>
    have hbatchers := (Scheduler.released_of_releaseBatchSlot hrelease).batchers
    refine collected_setBatcher (sched.batchers b).nullRequestHeader hpass hbatchers rfl rfl ?_
    simp only [Scheduler.nextPass, hqueue, List.head?_cons]

/-- A step of the thread of another batcher. -/
theorem batchers_other {a : Action} {b b' : Nat}
    (ha : a = .delay b' ∨ a = .collectBegin b' ∨ a = .collectSlot b' ∨ a = .collectEnd b')
    (h : s.step cfg a = some s') (hb : b ≠ b') :
    s'.sched.batchers b = s.sched.batchers b := by
  rcases ha with rfl | rfl | rfl | rfl
  · obtain ⟨sched, hsched, rfl⟩ := Option.map_eq_some_iff.mp h
    obtain ⟨-, cnts, rfl | rfl⟩ := Scheduler.delay_eq_some hsched
    · rfl
    · simp [hb]
  · obtain ⟨sched, hsched, rfl⟩ := Option.map_eq_some_iff.mp h
    obtain ⟨-, maxSlot, -, rfl⟩ := Scheduler.collectBegin_eq_some hsched
    simp [hb]
  · obtain ⟨⟨sched, popped, released⟩, hsched, rfl⟩ := Option.map_eq_some_iff.mp h
    obtain ⟨-, -, -, -, hothers, -⟩ := collected_of_collectSlot hsched
    exact hothers b hb
  · obtain ⟨⟨sched, payloads⟩, hsched, rfl⟩ := Option.map_eq_some_iff.mp h
    obtain ⟨pass, -, -, -, rfl⟩ := Scheduler.collectEnd_eq_some hsched
    simp [hb]

/-- The record of a collected payload adds at most the request of that payload. -/
theorem dispatched_dispatch (h : History) (sched : Scheduler) (batchSlot : BatchSlot)
    (popped : Option Payload) :
    ∃ added, (h.dispatch sched batchSlot popped).dispatched = h.dispatched ++ added ∧
      added.map (·.request) = (popped.bind Payload.request?).toList ∧
      ∀ d ∈ added, d.batchSlot = batchSlot ∧ d.pass = h.passes batchSlot.batcherIdx := by
  simp only [History.dispatch]
  split
  · next hnone => exact ⟨[], by simp, by simp [hnone], by simp⟩
  · next r hsome => exact ⟨_, rfl, by simp [hsome], by simp⟩

/-- What one pass adds to the record it adds to its own requests. -/
theorem passRequests_append {b pass : Nat} {slot : Nat} {added : List Dispatch}
    (hdisp : s'.history.dispatched = s.history.dispatched ++ added)
    (hkeys : ∀ d ∈ added, d.batchSlot = ⟨b, slot⟩ ∧ d.pass = pass) (b' n : Nat) :
    s'.passRequests b' n = s.passRequests b' n ++
      if b' = b ∧ n = pass then added.map (·.request) else [] := by
  rw [passRequests, hdisp, List.filter_append, List.map_append]
  refine congrArg _ ?_
  split
  · next heq =>
    obtain ⟨rfl, rfl⟩ := heq
    rw [List.filter_eq_self.mpr]
    intro d hd
    simp [hkeys d hd]
  · next hne =>
    rw [List.filter_eq_nil_iff.mpr, List.map_nil]
    intro d hd
    obtain ⟨hslot, hp⟩ := hkeys d hd
    simp only [hslot, hp, decide_eq_true_eq]
    exact fun heq => hne ⟨heq.1.symm, heq.2.symm⟩

theorem BatchesOk.collected (h : s.BatchesOk) {b : Nat} {pass next : CollectPass}
    {added : List Dispatch} (hpass : s.openPass b = some pass) (hnext : s'.openPass b = some next)
    (hothers : ∀ b' ≠ b, s'.openPass b' = s.openPass b') (hadvance : next.slot = pass.slot + 1)
    (hpasses : s'.history.passes = s.history.passes)
    (hexec : s'.history.executed = s.history.executed)
    (hdisp : s'.history.dispatched = s.history.dispatched ++ added)
    (hpayloads : next.payloads.filterMap BatchEntry.request? =
      pass.payloads.filterMap BatchEntry.request? ++ added.map (·.request))
    (hkeys : ∀ d ∈ added, d.batchSlot = ⟨b, pass.slot⟩ ∧ d.pass = s.history.passes b)
    (hlen : added.length ≤ 1) : s'.BatchesOk := by
  have hopen : ∀ b', s'.openPass b' = none ↔ s.openPass b' = none := by
    intro b'
    by_cases hb : b' = b
    · simp [hb, hpass, hnext]
    · rw [hothers b' hb]
  have hrequests := passRequests_append hdisp hkeys
  refine ⟨?_, ?_, ?_, ?_, ?_, ?_, ?_, ?_⟩
  · intro d hd
    rw [hpasses]
    rcases List.mem_append.mp (hdisp ▸ hd) with hd | hd
    · exact h.bound d hd
    · obtain ⟨hslot, hp⟩ := hkeys d hd
      rw [hslot, hp]
  · intro d hd hcur pass' hpass'
    rw [hpasses] at hcur
    by_cases hb : d.batchSlot.batcherIdx = b
    · obtain rfl : next = pass' := by simpa [hb, hnext] using hpass'
      rw [hadvance]
      rcases List.mem_append.mp (hdisp ▸ hd) with hd | hd
      · exact Nat.lt_succ_of_lt (h.visited d hd hcur pass (by rw [hb, hpass]))
      · rw [(hkeys d hd).1]
        exact Nat.lt_succ_self _
    · rcases List.mem_append.mp (hdisp ▸ hd) with hd | hd
      · rw [hothers _ hb] at hpass'
        exact h.visited d hd hcur pass' hpass'
      · rw [(hkeys d hd).1] at hb
        exact absurd rfl hb
  · rw [hdisp, List.map_append, List.nodup_append]
    refine ⟨h.nodup, ?_, ?_⟩
    · rcases added with _ | ⟨d, _ | ⟨d', rest⟩⟩
      · simp
      · simp
      · simp at hlen
    · rintro key hkey key' hkey' rfl
      obtain ⟨d, hd, rfl⟩ := List.mem_map.mp hkey
      obtain ⟨d', hd', heq⟩ := List.mem_map.mp hkey'
      obtain ⟨hslot, hp⟩ := hkeys d' hd'
      simp only [Prod.mk.injEq, hslot, hp] at heq
      have hlt := h.visited d hd (by rw [← heq.1, heq.2]) pass (by rw [← heq.1]; exact hpass)
      rw [← heq.1] at hlt
      exact Nat.lt_irrefl _ hlt
  · intro b' pass' hpass'
    rw [hrequests, hpasses]
    by_cases hb : b' = b
    · subst hb
      obtain rfl : next = pass' := by simpa [hnext] using hpass'
      rw [hpayloads, h.collecting b' pass hpass, if_pos ⟨rfl, rfl⟩]
    · rw [hothers b' hb] at hpass'
      rw [h.collecting b' pass' hpass', if_neg (fun heq => hb heq.1), List.append_nil]
  · intro e he
    rw [hexec] at he
    rw [hrequests, h.executed e he, if_neg, List.append_nil]
    rintro ⟨rfl, hp⟩
    rw [(h.executedBound e he).2 hp] at hpass
    cases hpass
  · intro e he
    rw [hexec] at he
    rw [hpasses, hopen]
    exact h.executedBound e he
  · rw [hexec]; exact h.executedNodup
  · intro d hd
    simp only [hexec, hpasses, ne_eq, hopen]
    rcases List.mem_append.mp (hdisp ▸ hd) with hd | hd
    · exact h.covered d hd
    · obtain ⟨hslot, hp⟩ := hkeys d hd
      rw [hslot, hp, hpass]
      exact .inr ⟨rfl, by simp⟩

theorem batchesOk_collectSlot (h : s.BatchesOk) {b : Nat} (hs : s.collectSlot cfg b = some s') :
    s'.BatchesOk := by
  obtain ⟨⟨sched, popped, released⟩, hslot, rfl⟩ := Option.map_eq_some_iff.mp hs
  obtain ⟨pass, next, hpass, hnext, hothers, hadvance, hpayloads⟩ := collected_of_collectSlot hslot
  have hvisit : s.visiting b = ⟨b, pass.slot⟩ := by simp [visiting, hpass]
  obtain ⟨added, hadded, hrequests, hkeys⟩ :=
    dispatched_dispatch s.history s.sched (s.visiting b) popped
  obtain ⟨hpasses₁, hexec₁⟩ := dispatch_frame s.history s.sched (s.visiting b) popped
  obtain ⟨hpasses₂, hexec₂, hdisp₂⟩ := release_frame
    (s.history.dispatch s.sched (s.visiting b) popped) s.sched (s.visiting b) released
  refine h.collected hpass hnext (fun b' hb => ?_) hadvance (hpasses₂.trans hpasses₁)
    (hexec₂.trans hexec₁) (hdisp₂.trans hadded) (hpayloads.trans (by rw [hrequests])) ?_ ?_
  · simp only [openPass, hothers b' hb]
  · simpa [hvisit] using hkeys
  · have hlen := congrArg List.length hrequests
    rw [List.length_map] at hlen
    rw [hlen]
    cases popped.bind Payload.request? <;> simp

/-- Every step, of a run of any kind, keeps the batches and their record together. -/
theorem batchesOk_step (h : s.BatchesOk) {a : Action} (hs : s.step cfg a = some s') :
    s'.BatchesOk := by
  cases a with
  | collectBegin b => exact batchesOk_collectBegin h hs
  | collectSlot b => exact batchesOk_collectSlot h hs
  | collectEnd b => exact batchesOk_collectEnd h hs
  | _ => exact batchesOk_outside h (by simp) hs

theorem batchesOk_init (cfg : Config) : (System.init cfg).BatchesOk := by
  refine ⟨?_, ?_, ?_, ?_, ?_, ?_, ?_, ?_⟩ <;> simp [System.init, openPass, Scheduler.create]

theorem batchesOk_of_reachable {ok : System → Action → Prop}
    (h : ReachableWhen (System.step cfg) ok (.init cfg) s) : s.BatchesOk :=
  h.invariant (batchesOk_init cfg) fun _ _ _ hb _ hs => batchesOk_step hb hs

end System

end FinBert.Sequence
