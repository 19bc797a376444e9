import FinBert.Sequence.Turns

/-!
# Batches of one shape

The backends take the dims of a batch from its first payload and concatenate the inputs. `Enqueue`
of a `SequenceBatch` says that all its requests must have the same shape, and checks nothing: it
keeps the header of a request that comes when no slot is active, and the payloads without a request
get that header for as long as a slot is active.

Results:
1. `uniform_of_fits`: the payloads of every batch have the same dims, in every run in which what
   comes into a batcher fits what waits there.
2. `not_uniform_mixed`: two sequences of different shapes make a batch that is not uniform.
-/

namespace FinBert.Sequence

open FinBert.Serving Transition

/-- The dims that a request has for an input. -/
def shapeOf (header : InferRequestHeader) (name : String) : Option (List Int) :=
  (header.input.find? fun input => input.name == name).map (·.dims)

/-- Two requests have the same dims for every input. -/
def SameShapes (header header' : InferRequestHeader) : Prop :=
  ∀ name, shapeOf header name = shapeOf header' name

theorem shapeOf_of_notMem {header : InferRequestHeader} {name : String}
    (h : ∀ input ∈ header.input, input.name ≠ name) : shapeOf header name = none := by
  rw [shapeOf, List.find?_eq_none.mpr, Option.map_none]
  intro input hmem
  rw [beq_iff_eq]
  exact h input hmem

theorem sameShapes_iff (header header' : InferRequestHeader) :
    (∀ input ∈ header.input ++ header'.input,
      shapeOf header input.name = shapeOf header' input.name) ↔ SameShapes header header' := by
  constructor
  · intro h name
    by_cases hmem : ∃ input ∈ header.input ++ header'.input, input.name = name
    · obtain ⟨input, hinput, rfl⟩ := hmem
      exact h input hinput
    · have hnone : ∀ input ∈ header.input ++ header'.input, input.name ≠ name :=
        fun input hinput heq => hmem ⟨input, hinput, heq⟩
      rw [shapeOf_of_notMem fun input hinput => hnone input (List.mem_append_left _ hinput),
        shapeOf_of_notMem fun input hinput => hnone input (List.mem_append_right _ hinput)]
  · exact fun h input _ => h input.name

instance (header header' : InferRequestHeader) : Decidable (SameShapes header header') :=
  decidable_of_iff _ (sameShapes_iff header header')

theorem SameShapes.symm {header header' : InferRequestHeader} (h : SameShapes header header') :
    SameShapes header' header :=
  fun name => (h name).symm

theorem SameShapes.trans {header₁ header₂ header₃ : InferRequestHeader}
    (h : SameShapes header₁ header₂) (h' : SameShapes header₂ header₃) :
    SameShapes header₁ header₃ :=
  fun name => (h name).trans (h' name)

/-- The request header of a payload's provider. -/
def BatchEntry.header : BatchEntry → InferRequestHeader
  | .request r _ => r.header
  | .null header _ => header

/-- All payloads of a batch have the same dims for every input. -/
def Uniform (payloads : List BatchEntry) : Prop :=
  ∀ e ∈ payloads, ∀ e' ∈ payloads, SameShapes e.header e'.header

instance (payloads : List BatchEntry) : Decidable (Uniform payloads) :=
  inferInstanceAs (Decidable (∀ e ∈ payloads, ∀ e' ∈ payloads, _))

/-- The requests that wait in the slots of a batcher. -/
def SequenceBatch.waitingRequests (cfg : Config) (sb : SequenceBatch) : List Request :=
  (List.range cfg.batchSize).flatMap fun slot => (sb.queues slot).filterMap Payload.request?

/-- What comes into `slot` fits what waits there: nothing waits in a slot but the first, and it
comes into the first; or the requests, those that wait and those that come, have the dims of
`header`, the one that the payloads without a request will have. -/
def SequenceBatch.Enters (cfg : Config) (sb : SequenceBatch) (slot : Nat)
    (requests : List Request) (header : InferRequestHeader) : Prop :=
  (slot = 0 ∧ ∀ slot' < cfg.batchSize, slot' ≠ 0 → sb.queues slot' = []) ∨
    ∀ r ∈ sb.waitingRequests cfg ++ requests, SameShapes r.header header

instance (cfg : Config) (sb : SequenceBatch) (slot : Nat) (requests : List Request)
    (header : InferRequestHeader) : Decidable (sb.Enters cfg slot requests header) :=
  inferInstanceAs (Decidable ((_ ∧ _) ∨ _))

namespace System

/-- The payloads that the step puts into a slot, a request, a force-end or a backlog, fit what waits
in the batcher. -/
def Fits (cfg : Config) (s : System) : Action → Prop
  | .deliver call =>
    ∀ d ∈ s.inFlight[call]?,
      let sb := s.sched.batchers d.target.batcherIdx
      sb.Enters cfg d.target.slot [d.request]
        (if sb.maxActiveSlot = -1 then d.request.header else sb.nullRequestHeader)
  | .reapEntry =>
    ∀ target ∈ s.sched.forceEndTarget cfg,
      let sb := s.sched.batchers target.batcherIdx
      sb.Enters cfg target.slot [] sb.nullRequestHeader
  | .collectSlot b =>
    let sb := s.sched.batchers b
    s.sched.takenOver b = [] ∨
      sb.Enters cfg (s.visiting b).slot (s.sched.takenOver b) sb.nullRequestHeader
  | _ => True

instance (cfg : Config) (s : System) : (a : Action) → Decidable (s.Fits cfg a)
  | .deliver _ => inferInstanceAs (Decidable (∀ d ∈ _, _))
  | .reapEntry => inferInstanceAs (Decidable (∀ target ∈ _, _))
  | .collectSlot _ => inferInstanceAs (Decidable (_ ∨ _))
  | .enqueue _ _ _ | .delay _ | .collectBegin _ | .collectEnd _ | .reapBegin _ _ | .reapEnd =>
    inferInstanceAs (Decidable True)

end System

/-- The requests that wait in a batcher have the dims of its null header. -/
def SequenceBatch.Matched (sb : SequenceBatch) : Prop :=
  ∀ slot, ∀ r, .request r ∈ sb.queues slot → SameShapes r.header sb.nullRequestHeader

/-- What keeps the batches of a batcher uniform. -/
structure Shaped (sb : SequenceBatch) : Prop where
  waiting : (∀ slot, slot ≠ 0 → sb.queues slot = []) ∨ sb.Matched
  visits : ∀ pass, sb.pass = some pass → pass.slot ≤ pass.maxSlot → sb.queues pass.maxSlot ≠ []
  collected : ∀ pass, sb.pass = some pass → pass.maxSlot = 0 ∨
    sb.Matched ∧ ∀ e ∈ pass.payloads, SameShapes e.header sb.nullRequestHeader

variable {cfg : Config} {s s' : System}

theorem mem_waitingRequests {sb : SequenceBatch} {slot : Nat} {r : Request}
    (hslot : slot < cfg.batchSize) (h : .request r ∈ sb.queues slot) :
    r ∈ sb.waitingRequests cfg :=
  List.mem_flatMap.mpr ⟨slot, List.mem_range.mpr hslot,
    List.mem_filterMap.mpr ⟨.request r, h, rfl⟩⟩

/-- What waits in the slots but the first, and what waits in all of them, when one slot takes
requests that fit. -/
theorem matched_of_enters {sb sb' : SequenceBatch} {slot : Nat} {requests : List Request}
    {queue : List Payload} (hwithin : ∀ slot, sb.queues slot ≠ [] → slot < cfg.batchSize)
    (hqueues : sb'.queues = Function.update sb.queues slot queue)
    (horigin : ∀ r, .request r ∈ queue → .request r ∈ sb.queues slot ∨ r ∈ requests)
    (h : sb.Enters cfg slot requests sb'.nullRequestHeader) :
    (slot = 0 ∧ ∀ slot', slot' ≠ 0 → sb.queues slot' = []) ∨ sb'.Matched := by
  rcases h with ⟨hslot, hempty⟩ | hshapes
  · refine .inl ⟨hslot, fun slot' hne => ?_⟩
    by_contra hqueue
    exact hqueue (hempty slot' (hwithin slot' hqueue) hne)
  · refine .inr fun slot' r hr => ?_
    have hold : ∀ {slot' : Nat}, .request r ∈ sb.queues slot' →
        SameShapes r.header sb'.nullRequestHeader := by
      intro slot' hmem
      have hlt := hwithin slot' (List.ne_nil_of_mem hmem)
      exact hshapes r (List.mem_append_left _ (mem_waitingRequests hlt hmem))
    rw [hqueues, Function.update_apply] at hr
    split at hr
    · rcases horigin r hr with hmem | hmem
      · exact hold hmem
      · exact hshapes r (List.mem_append_right _ hmem)
    · exact hold hr

/-- A payload that fits is put in the queue of a slot. -/
theorem waiting_enqueue {sb : SequenceBatch} {slot : Nat} {c : CorrelationId} {p : Payload}
    (hwithin : ∀ slot, sb.queues slot ≠ [] → slot < cfg.batchSize)
    (h : sb.Enters cfg slot p.request?.toList (sb.enqueue slot c p).nullRequestHeader) :
    (∀ slot', slot' ≠ 0 → (sb.enqueue slot c p).queues slot' = []) ∨
      (sb.enqueue slot c p).Matched := by
  refine (matched_of_enters hwithin rfl (fun r hr => ?_) h).imp_left ?_
  · rcases List.mem_append.mp hr with hr | hr
    · exact .inl hr
    · rw [← List.mem_singleton.mp hr]
      exact .inr (List.mem_singleton_self r)
  · rintro ⟨rfl, hempty⟩ slot' hne
    exact (Function.update_of_ne hne _ _).trans (hempty slot' hne)

theorem Shaped.of_idle {sb : SequenceBatch} (hpass : sb.pass = none)
    (hwaiting : (∀ slot, slot ≠ 0 → sb.queues slot = []) ∨ sb.Matched) : Shaped sb := by
  refine ⟨hwaiting, fun pass hsome => ?_, fun pass hsome => ?_⟩ <;>
    (rw [hpass] at hsome; cases hsome)

theorem Shaped.of_eq {sb sb' : SequenceBatch} (h : Shaped sb)
    (header : sb'.nullRequestHeader = sb.nullRequestHeader) (queues : sb'.queues = sb.queues)
    (pass : sb'.pass = sb.pass) : Shaped sb' := by
  have hmatched : sb'.Matched ↔ sb.Matched := by
    rw [SequenceBatch.Matched, header, queues, SequenceBatch.Matched]
  constructor
  · rw [hmatched, queues]
    exact h.waiting
  · rw [queues, pass]
    exact h.visits
  · rw [hmatched, header, pass]
    exact h.collected

theorem shaped_began {sb : SequenceBatch} {n maxSlot : Nat}
    (hwaiting : (∀ slot, slot ≠ 0 → sb.queues slot = []) ∨ sb.Matched)
    (hmax : maxSlotBelow sb.queues n = some maxSlot) :
    Shaped { sb with
      pass := some
        { slot := 0, maxSlot := maxSlot, payloads := [], adjustMaxActiveSlot := false } } := by
  have hqueue := (maxSlotBelow_spec hmax).2
  refine ⟨hwaiting, fun pass hpass _ => ?_, fun pass hpass => ?_⟩
  · obtain rfl := Option.some.inj hpass
    exact hqueue
  · obtain rfl := Option.some.inj hpass
    rcases hwaiting with hempty | hmatched
    · refine .inl ?_
      by_contra hne
      exact hqueue (hempty maxSlot hne)
    · refine .inr ⟨hmatched, fun e he => ?_⟩
      cases he

/-- The payload that is collected from a slot has the dims of the null header too. -/
theorem sameShapes_batchEntry {sb : SequenceBatch} (hmatched : sb.Matched) (slot : Nat) :
    SameShapes (Scheduler.batchEntry sb.nullRequestHeader (sb.queues slot).head?).header
      sb.nullRequestHeader := by
  unfold Scheduler.batchEntry
  split
  · next r hhead => exact hmatched slot r (List.mem_of_head? hhead)
  · exact fun _ => rfl

theorem shaped_collected {sb sb' : SequenceBatch} {pass : CollectPass} {rest : List Payload}
    {requests : List Request} {adjust : Bool}
    (hwithin : ∀ slot, sb.queues slot ≠ [] → slot < cfg.batchSize) (h : Shaped sb)
    (running : sb.pass = some pass) (more : pass.slot ≤ pass.maxSlot)
    (header : sb'.nullRequestHeader = sb.nullRequestHeader)
    (queues : sb'.queues = Function.update sb.queues pass.slot rest)
    (origin : ∀ p ∈ rest, p ∈ sb.queues pass.slot ∨ ∃ r ∈ requests, p = .request r)
    (next : sb'.pass = some
      { slot := pass.slot + 1
        maxSlot := pass.maxSlot
        payloads := pass.payloads ++
          [Scheduler.batchEntry sb.nullRequestHeader (sb.queues pass.slot).head?]
        adjustMaxActiveSlot := adjust })
    (hfits : requests = [] ∨ sb.Enters cfg pass.slot requests sb.nullRequestHeader) :
    Shaped sb' := by
  have hvisits := h.visits pass running more
  have horigin : ∀ r, .request r ∈ rest → .request r ∈ sb.queues pass.slot ∨ r ∈ requests := by
    intro r hr
    rcases origin _ hr with hmem | ⟨r', hr', heq⟩
    · exact .inl hmem
    · exact .inr (Payload.request.inj heq ▸ hr')
  have hcases : (∀ slot, slot ≠ 0 → sb.queues slot = []) ∨ sb'.Matched := by
    rcases hfits with rfl | henters
    · refine h.waiting.imp_right fun hmatched slot r hr => ?_
      rw [queues, Function.update_apply] at hr
      rw [header]
      split at hr
      · exact hmatched pass.slot r ((horigin r hr).resolve_right List.not_mem_nil)
      · exact hmatched slot r hr
    · rw [← header] at henters
      exact (matched_of_enters hwithin queues horigin henters).imp_left And.right
  -- a pass that goes beyond the first slot has found a payload there
  have hfirst : (∀ slot, slot ≠ 0 → sb.queues slot = []) → pass.maxSlot = 0 := by
    intro hempty
    by_contra hne
    exact hvisits (hempty pass.maxSlot hne)
  refine ⟨hcases.imp_left fun hempty slot hne => ?_, fun pass' hpass hmore => ?_,
    fun pass' hpass => ?_⟩
  · have hslot : pass.slot = 0 := Nat.le_zero.mp (hfirst hempty ▸ more)
    rw [queues, hslot, Function.update_of_ne hne]
    exact hempty slot hne
  · obtain rfl := Option.some.inj (next.symm.trans hpass)
    rw [queues, Function.update_of_ne (Nat.ne_of_gt hmore)]
    exact hvisits
  · obtain rfl := Option.some.inj (next.symm.trans hpass)
    rcases h.collected pass running with hzero | ⟨hold, hpayloads⟩
    · exact .inl hzero
    · refine hcases.imp hfirst fun hnew => ⟨hnew, fun e he => ?_⟩
      rw [header]
      rcases List.mem_append.mp he with he | he
      · exact hpayloads e he
      · obtain rfl := List.mem_singleton.mp he
        exact sameShapes_batchEntry hold pass.slot

namespace System

theorem shaped_step {a : Action} (hslots : ∀ target, s.Placed target → cfg.HasSlot target)
    (h : ∀ b, Shaped (s.sched.batchers b)) (hok : s.Fits cfg a) (hs : s.step cfg a = some s')
    (b : Nat) : Shaped (s'.sched.batchers b) := by
  have hwithin : ∀ slot, (s.sched.batchers b).queues slot ≠ [] → slot < cfg.batchSize :=
    fun slot hne => (hslots ⟨b, slot⟩ (.queued hne)).2
  have hturned := turned hs b
  generalize s'.sched.batchers b = sb at hturned ⊢
  cases hturned with
  | same header queues active pass => exact (h b).of_eq header queues pass
  | @delivered call d found target free =>
    subst target
    exact .of_idle free (waiting_enqueue hwithin (hok d found))
  | @forced target c o found assigned idx free =>
    subst idx
    have hheader : ((s.sched.batchers target.batcherIdx).enqueue target.slot c
        (.forceEnd o)).nullRequestHeader =
          (s.sched.batchers target.batcherIdx).nullRequestHeader := ite_self _
    refine .of_idle free (waiting_enqueue hwithin ?_)
    rw [hheader]
    exact hok target found
  | began found => exact shaped_began (h b).waiting found
  | @collected pass sb rest adjust running more header active queues origin next =>
    have hvisit : (s.visiting b).slot = pass.slot := by
      rw [visiting, running]
      rfl
    have hfits := hok
    simp only [Fits, hvisit] at hfits
    exact shaped_collected hwithin (h b) running more header queues origin next hfits
  | ended running done header queues active next =>
    refine .of_idle next ?_
    rw [SequenceBatch.Matched, header, queues]
    exact (h b).waiting

theorem shaped_of_reachable (h : ReachableWhen (System.step cfg) (System.Fits cfg) (.init cfg) s) :
    ∀ b, Shaped (s.sched.batchers b) := by
  induction h with
  | start =>
    intro b
    exact .of_idle rfl (.inl fun _ _ => rfl)
  | step hreach hok hs ih => exact shaped_step (hasSlot_of_reachable hreach) ih hok hs

/-- When what comes into a batcher fits what waits there, the payloads of every batch have the same
dims. -/
theorem uniform_of_fits (cfg : Config) (s : System)
    (h : ReachableWhen (System.step cfg) (System.Fits cfg) (.init cfg) s) :
    ∀ e ∈ s.history.executed, Uniform e.payloads := by
  induction h with
  | start =>
    intro e he
    cases he
  | step hreach _ hs ih =>
    intro e he
    rcases executed_step hs he with he | ⟨pass, hpass, hdone, heq⟩
    · exact ih e he
    · rw [heq]
      rcases (shaped_of_reachable hreach e.batcherIdx).collected pass hpass with hzero | ⟨-, hsame⟩
      · -- a batch of the first slot only has one payload
        obtain ⟨hlen, hslot, -⟩ := within_of_reachable hreach e.batcherIdx pass hpass
        rw [hzero, ← hlen] at hslot
        intro e₁ he₁ e₂ he₂
        have hone : e₁ = e₂ := by
          obtain ⟨e, he⟩ := List.length_eq_one_iff.mp
            (Nat.le_antisymm hslot (List.length_pos_of_mem he₁))
          rw [he] at he₁ he₂
          exact (List.mem_singleton.mp he₁).trans (List.mem_singleton.mp he₂).symm
        rw [hone]
        exact fun _ => rfl
      · exact fun e₁ he₁ e₂ he₂ => (hsame e₁ he₁).trans (hsame e₂ he₂).symm

/-- One runner with two slots. -/
def twoSlots : Config where
  modelName := "m"
  runnerCnt := 1
  maxBatchSize := 2
  maxSequenceIdleMicroseconds := 1000

/-- A request of `c` whose input has the given dims. -/
def shapedHeader (c : CorrelationId) (flags : Nat) (dims : List Int) : InferRequestHeader :=
  { batchSize := 1, correlationId := c, flags := flags, input := [{ name := "x", dims := dims }] }

def bothSlots : List Action := [.collectBegin 0, .collectSlot 0, .collectSlot 0, .collectEnd 0]

/-- Two sequences begin, the second one with dims of its own, and one pass collects both. -/
def mixed (dims dims' : List Int) : List Action :=
  [.enqueue (shapedHeader 1 1 dims) 0 ⟨0, 0⟩, .deliver 0,
    .enqueue (shapedHeader 2 1 dims') 0 ⟨0, 1⟩, .deliver 0] ++ bothSlots

theorem uniform_same :
    ∃ s, ReachableWhen (System.step twoSlots) (System.Fits twoSlots) (.init twoSlots) s ∧
      s.history.executed.map (·.payloads.length) = [2, 2] ∧
      ∀ e ∈ s.history.executed, Uniform e.payloads := by
  have hrun : (runWhen (System.step twoSlots) (System.Fits twoSlots) (.init twoSlots)
      (mixed [4] [4] ++ [.enqueue (shapedHeader 2 2 [4]) 0 ⟨0, 0⟩, .deliver 0] ++ bothSlots)).map
        (fun s => s.history.executed.map (·.payloads.length) == [2, 2]) = some true := by decide
  obtain ⟨s, hreach, hlen⟩ := exists_of_runWhen hrun
  exact ⟨s, hreach, by simpa using hlen, uniform_of_fits twoSlots s hreach⟩

/-- Nothing keeps a sequence of another shape out of the batcher. -/
theorem not_uniform_mixed :
    ¬ ∀ (cfg : Config) (s : System), Reachable (System.step cfg) (.init cfg) s →
      ∀ e ∈ s.history.executed, Uniform e.payloads := by
  intro hall
  have hrun : (runWhen (System.step twoSlots) (fun _ _ => True) (.init twoSlots)
      (mixed [4] [8])).map (fun s => s.history.executed.any fun e => ¬ Uniform e.payloads) =
        some true := by decide
  obtain ⟨s, hreach, hbad⟩ := exists_of_runWhen hrun
  obtain ⟨e, he, hne⟩ := List.any_eq_true.mp hbad
  exact of_decide_eq_true hne (hall twoSlots s hreach e he)

end System

end FinBert.Sequence
