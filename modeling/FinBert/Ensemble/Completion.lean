import FinBert.Ensemble.Model

/-!
# An ensemble request completes exactly once

`FinishEnsemble` can be reached from a failed constructor, a failed update, a failed
`InitStep` and from the end of all progress, while other steps are still on their way.
The invariant of a request is the relation of three things: the status, the counter of
the steps in flight and the number of completions.

Results:
1. `advance_outcome`: what one call of `PrepareSteps` can do.
2. `step_invariant`: every step of the system keeps the invariant.
3. `completion_of_reachable`: at most one completion in every reachable state, one as soon
   as nothing is scheduled or outstanding, and the counter is exact.
-/

namespace FinBert.Ensemble

open FinBert.Serving Transition

namespace EnsembleContext

variable (info : EnsembleInfo) (server : Server)

/-! ## What the helper functions leave alone -/

/-- Neither the counter nor the completions differ. -/
structure SameProgress (ctx ctx' : EnsembleContext) : Prop where
  counter : ctx'.inflightStepCounter = ctx.inflightStepCounter
  completions : ctx'.completions = ctx.completions

theorem SameProgress.refl (ctx : EnsembleContext) : SameProgress ctx ctx := ⟨rfl, rfl⟩

theorem SameProgress.trans {ctx ctx' ctx'' : EnsembleContext} (h : SameProgress ctx ctx')
    (h' : SameProgress ctx' ctx'') : SameProgress ctx ctx'' :=
  ⟨h'.counter.trans h.counter, h'.completions.trans h.completions⟩

theorem setLabel_sameProgress (response : StepResponse) (name : String) (idx : Nat)
    (ctx : EnsembleContext) : SameProgress ctx (setLabel response name idx ctx) := by
  unfold setLabel
  split
  · exact .refl ctx
  · exact ⟨rfl, rfl⟩

theorem setOutputs_sameProgress (stepInfo : StepInfo) (response : StepResponse)
    (outputs : List ResponseOutput) (ctx : EnsembleContext) (updated : List Nat) :
    SameProgress ctx (setOutputs stepInfo response outputs ctx updated).2.1 := by
  induction outputs generalizing ctx updated with
  | nil => exact .refl ctx
  | cons output outputs ih =>
    unfold setOutputs
    split
    · exact .refl ctx
    · split
      · exact .refl ctx
      · simp only
        split
        · exact ⟨rfl, rfl⟩
        · refine .trans (.trans ?_ (setLabel_sameProgress response output.name _ _)) (ih _ _)
          exact ⟨rfl, rfl⟩

/-- The outputs of the ensemble are copied, and nothing else happens. -/
theorem checkAndSetOutputs_frame (outputs : List (Σ _ : String, Nat)) (ctx : EnsembleContext) :
    ∃ buffers, (checkAndSetOutputs info server outputs ctx).2 =
      { ctx with outputBuffers := buffers } := by
  induction outputs generalizing ctx with
  | nil => exact ⟨ctx.outputBuffers, rfl⟩
  | cons output outputs ih =>
    obtain ⟨name, idx⟩ := output
    unfold checkAndSetOutputs
    split
    · exact ih ctx
    · simp only
      split
      · exact ⟨ctx.outputBuffers, rfl⟩
      · split
        · exact ⟨ctx.outputBuffers, rfl⟩
        · split
          · exact ⟨ctx.outputBuffers, rfl⟩
          · exact ih _

theorem checkAndSetOutputs_sameProgress (outputs : List (Σ _ : String, Nat))
    (ctx : EnsembleContext) :
    SameProgress ctx (checkAndSetOutputs info server outputs ctx).2 := by
  obtain ⟨buffers, hctx⟩ := checkAndSetOutputs_frame info server outputs ctx
  rw [hctx]
  exact ⟨rfl, rfl⟩

/-! ## One call of `PrepareSteps` -/

/-- The counter after the callback of a completed step has been counted off. -/
def counted (completed : Option (Step × StepResponse)) (counter : Nat) : Nat :=
  match completed with
  | none => counter
  | some _ => decrement counter

theorem updateEnsembleState_progress (completed : Option (Step × StepResponse))
    (ctx : EnsembleContext) :
    let ctx' := (updateEnsembleState info completed ctx).2.1
    ctx'.inflightStepCounter = counted completed ctx.inflightStepCounter ∧
      ctx'.completions = ctx.completions := by
  cases completed with
  | none => exact ⟨rfl, rfl⟩
  | some completed =>
    obtain ⟨step, response⟩ := completed
    simp only [updateEnsembleState, counted]
    split
    · exact ⟨rfl, rfl⟩
    · split
      · exact ⟨rfl, rfl⟩
      · obtain ⟨hcounter, hcompletions⟩ := setOutputs_sameProgress (info.step step.stepIdx)
          response response.output
          { ctx with inflightStepCounter := decrement ctx.inflightStepCounter } []
        exact ⟨hcounter, hcompletions⟩

/-- `GetNextSteps` counts the steps that it returns, or fails and counts none. -/
theorem getNextSteps_progress (updated : List Nat) (ctx : EnsembleContext) :
    let (status, ctx', steps) := getNextSteps info server updated ctx
    ctx'.completions = ctx.completions ∧
      (status.isOk → ctx'.inflightStepCounter = ctx.inflightStepCounter + steps.length) := by
  unfold getNextSteps
  simp only
  split
  · next hstatus =>
    refine ⟨rfl, fun hok => ?_⟩
    rw [hok] at hstatus
    cases hstatus
  · exact ⟨rfl, fun _ => rfl⟩

theorem isOk_withEnsembleName (status : Status) :
    (withEnsembleName info status).isOk = status.isOk := by
  unfold withEnsembleName
  split
  · rfl
  · rfl

/-- `FinishEnsemble` completes the request once, and never turns a failure into a success. -/
theorem finishEnsemble_progress (ctx : EnsembleContext) :
    let ctx' := finishEnsemble info server ctx
    ctx'.inflightStepCounter = ctx.inflightStepCounter ∧
      ctx'.completions.length = ctx.completions.length + 1 ∧
      (ctx'.ensembleStatus.isOk → ctx.ensembleStatus.isOk) := by
  unfold finishEnsemble
  simp only
  split
  · next hok =>
    obtain ⟨hcounter, hcompletions⟩ := checkAndSetOutputs_sameProgress info server
      info.ensembleOutputToTensor.entries ctx
    refine ⟨hcounter, ?_, fun _ => hok⟩
    rw [List.length_append, List.length_singleton]
    exact congrArg (fun completions => completions.length + 1) hcompletions
  · next hok =>
    refine ⟨rfl, by rw [List.length_append, List.length_singleton], fun hok' => ?_⟩
    rwa [isOk_withEnsembleName] at hok'

/-- What `PrepareSteps` does for an ensemble that has not failed. It either completes the
request, and then no step is counted unless the request failed, or it leaves the request
open with at least one step counted, the steps that became ready among them. -/
theorem advance_outcome (completed : Option (Step × StepResponse)) (ctx : EnsembleContext) :
    let (ctx', readySteps) := advance info server completed ctx
    let before := counted completed ctx.inflightStepCounter
    (ctx'.completions.length = ctx.completions.length + 1 ∧ readySteps = [] ∧
      (ctx'.ensembleStatus.isOk → ctx'.inflightStepCounter = 0 ∧ before = 0)) ∨
    (ctx'.completions.length = ctx.completions.length ∧ ctx'.ensembleStatus.isOk ∧
      ctx'.inflightStepCounter = before + readySteps.length ∧ ctx'.inflightStepCounter ≠ 0) := by
  obtain ⟨hcounter, hcompletions⟩ := updateEnsembleState_progress info completed ctx
  unfold advance
  generalize updateEnsembleState info completed ctx = update at hcounter hcompletions ⊢
  obtain ⟨status, ctx₁, updated⟩ := update
  simp only at hcounter hcompletions ⊢
  -- what is known of the context just before the decision to finish
  obtain ⟨next, hnext, hnextCompletions, hnextCounter⟩ :
      ∃ next, (if status.isOk then getNextSteps info server updated ctx₁
          else (status, ctx₁, [])) = next ∧
        next.2.1.completions = ctx.completions ∧
        (next.1.isOk → next.2.1.inflightStepCounter =
          counted completed ctx.inflightStepCounter + next.2.2.length) := by
    refine ⟨_, rfl, ?_⟩
    split
    · have hprogress := getNextSteps_progress info server updated ctx₁
      rw [← hcounter, ← hcompletions]
      exact hprogress
    · next hok => exact ⟨hcompletions, fun hok' => absurd hok' hok⟩
  rw [hnext]
  obtain ⟨status, ctx₂, res⟩ := next
  simp only at hnextCompletions hnextCounter ⊢
  split
  · next hfinish =>
    left
    obtain ⟨hfcounter, hfcompletions, hfok⟩ := finishEnsemble_progress info server
      { ctx₂ with ensembleStatus := status }
    refine ⟨by rw [hfcompletions, ← hnextCompletions], rfl, fun hok => ?_⟩
    have hstatus : status.isOk = true := hfok hok
    have hzero : ctx₂.inflightStepCounter = 0 := by simpa [hstatus] using hfinish
    have hsum := hnextCounter hstatus
    refine ⟨hfcounter.trans hzero, ?_⟩
    omega
  · next hopen =>
    right
    simp only [Bool.or_eq_true, Bool.not_eq_eq_eq_not, Bool.not_true, beq_iff_eq,
      not_or, Bool.not_eq_false] at hopen
    obtain ⟨hstatus, hcount⟩ := hopen
    exact ⟨by rw [hnextCompletions], hstatus, hnextCounter hstatus, hcount⟩

end EnsembleContext

namespace System

variable (info : EnsembleInfo)

/-! ## The invariant of a request -/

/-- The steps prepared for scheduling whose callback has not been processed. -/
def pending (s : System) : Nat := s.scheduling.flatten.length + s.outstanding.length

/-- Before `Proceed` nothing has happened. After it, a request that has not failed counts
its pending steps and is complete when there are none; one that has failed is complete. -/
structure Invariant (s : System) : Prop where
  fresh : ¬ s.begun → s.ctx.completions = [] ∧ s.ctx.inflightStepCounter = 0 ∧ s.pending = 0
  counter : s.ctx.ensembleStatus.isOk → s.ctx.inflightStepCounter = s.pending
  completed : s.begun → s.ctx.ensembleStatus.isOk →
    s.ctx.completions.length = if s.pending = 0 then 1 else 0
  failed : s.begun → ¬ s.ctx.ensembleStatus.isOk → s.ctx.completions.length = 1

theorem enqueue_invariant (server : Server) (request : EnsembleRequest) :
    (enqueue info server request).Invariant where
  fresh := fun _ => ⟨rfl, rfl, rfl⟩
  counter := fun _ => rfl
  completed := fun hbegun => nomatch hbegun
  failed := fun hbegun => nomatch hbegun

/-- `Proceed` on a request that is open: `s` is the state in which the completed step is no
longer outstanding, and the counter without that step is exact. -/
theorem proceed_invariant (server : Server) (completed : Option (Step × StepResponse))
    {s : System} (hbegun : s.begun) (hok : s.ctx.ensembleStatus.isOk)
    (hcounter : EnsembleContext.counted completed s.ctx.inflightStepCounter = s.pending)
    (hopen : s.ctx.completions.length = 0) : (proceed info server completed s).Invariant := by
  have hprepare : s.ctx.prepareSteps info server completed =
      s.ctx.advance info server completed := by
    unfold EnsembleContext.prepareSteps
    simp [hok]
  have houtcome := EnsembleContext.advance_outcome info server completed s.ctx
  unfold proceed
  rw [hprepare]
  generalize s.ctx.advance info server completed = result at houtcome ⊢
  obtain ⟨ctx, readySteps⟩ := result
  simp only [hcounter, hopen] at houtcome ⊢
  rcases houtcome with ⟨hcompletions, rfl, hfinished⟩ | ⟨hcompletions, hstatus, hsum, hpos⟩
  · have hpending : ∀ scheduling : List (List Step),
        scheduling.flatten.length = s.scheduling.flatten.length →
        (System.mk ctx s.begun scheduling s.outstanding).pending = s.pending := by
      intro scheduling hlength
      unfold pending
      rw [hlength]
    have hsame : (System.mk ctx s.begun
        (if ctx.ensembleStatus.isOk then s.scheduling ++ [[]] else s.scheduling)
        s.outstanding).pending = s.pending := by
      refine hpending _ ?_
      split
      · simp
      · rfl
    refine ⟨fun h => absurd hbegun h, fun hctx => ?_, fun _ hctx => ?_, fun _ _ => hcompletions⟩
    · rw [hsame, (hfinished hctx).1, (hfinished hctx).2]
    · rw [hsame, (hfinished hctx).2, if_pos rfl]
      exact hcompletions
  · rw [if_pos hstatus]
    have hsame : (System.mk ctx s.begun (s.scheduling ++ [readySteps]) s.outstanding).pending =
        s.pending + readySteps.length := by
      unfold pending
      simp only [List.flatten_append, List.flatten_singleton, List.length_append]
      omega
    refine ⟨fun h => absurd hbegun h, fun _ => hsum.trans hsame.symm, fun _ _ => ?_,
      fun _ h => absurd hstatus h⟩
    rw [hsame, ← hsum, if_neg hpos]
    exact hcompletions

/-- A callback for a request that has failed changes nothing in its context. -/
theorem proceed_failed (server : Server) (completed : Step × StepResponse) {s : System}
    (hfail : ¬ s.ctx.ensembleStatus.isOk) : proceed info server (some completed) s = s := by
  unfold proceed EnsembleContext.prepareSteps
  simp [hfail]

/-- `Proceed` for a request whose constructor failed completes it and schedules nothing. -/
theorem proceed_begin_failed (server : Server) {s : System}
    (hfail : ¬ s.ctx.ensembleStatus.isOk) :
    proceed info server none s =
      { s with ctx := s.ctx.finishEnsemble info server } ∧
    ¬ (s.ctx.finishEnsemble info server).ensembleStatus.isOk := by
  have hfinish : ¬ (s.ctx.finishEnsemble info server).ensembleStatus.isOk :=
    fun hok => hfail ((s.ctx.finishEnsemble_progress info server).2.2 hok)
  refine ⟨?_, hfinish⟩
  unfold proceed EnsembleContext.prepareSteps
  simp [hfail, hfinish]

/-- The step that is handed over leaves the list of its call. -/
theorem flatten_set_perm {α : Type} {lists : List (List α)} {i : Nat} {x : α} {rest : List α}
    (h : lists[i]? = some (x :: rest)) : lists.flatten.Perm (x :: (lists.set i rest).flatten) := by
  induction lists generalizing i with
  | nil => cases h
  | cons list lists ih =>
    cases i with
    | zero =>
      obtain rfl := Option.some.inj h
      exact .refl _
    | succ i => exact ((ih h).append_left list).trans List.perm_middle

/-- Handing a step over keeps it pending. -/
theorem pending_handOver {s : System} {call : Nat} {next : Step} {rest : List Step}
    (hcall : s.scheduling[call]? = some (next :: rest)) :
    System.pending { s with scheduling := s.scheduling.set call rest
                            outstanding := s.outstanding ++ [next] } = s.pending := by
  have hlength := (flatten_set_perm hcall).length_eq
  unfold pending
  rw [hlength, List.length_append, List.length_singleton, List.length_cons]
  exact Nat.add_right_comm (s.scheduling.set call rest).flatten.length _ 1

/-- The step lemma. -/
theorem step_invariant {s t : System} {a : Action} (hs : s.Invariant)
    (hstep : step info s a = some t) : t.Invariant := by
  cases a with
  | begin server =>
    simp only [step] at hstep
    split at hstep
    · cases hstep
    · next hfresh =>
      obtain rfl := Option.some.inj hstep
      obtain ⟨hcompletions, hcounter, hpending⟩ := hs.fresh hfresh
      rcases Bool.eq_false_or_eq_true s.ctx.ensembleStatus.isOk with hok | hfail
      · exact proceed_invariant info server none rfl hok (hcounter.trans hpending.symm)
          (by rw [hcompletions]; rfl)
      · -- the constructor failed: the only work left is to complete the request
        obtain ⟨hproceed, hstatus⟩ := proceed_begin_failed info server
          (s := { s with begun := true }) (by rw [hfail]; decide)
        rw [hproceed]
        refine ⟨fun h => absurd rfl h, fun hok => absurd hok hstatus,
          fun _ hok => absurd hok hstatus, fun _ _ => ?_⟩
        have := (s.ctx.finishEnsemble_progress info server).2.1
        rw [hcompletions] at this
        exact this
  | handOver call =>
    simp only [step] at hstep
    split at hstep
    · next next rest hcall =>
      obtain rfl := Option.some.inj hstep
      have hsame := pending_handOver hcall
      refine ⟨fun h => ?_, fun hok => ?_, fun hbegun hok => ?_, hs.failed⟩
      · rw [hsame]; exact hs.fresh h
      · rw [hsame]; exact hs.counter hok
      · rw [hsame]; exact hs.completed hbegun hok
    · cases hstep
  | callBack i response server =>
    simp only [step] at hstep
    split at hstep
    · next completed hget =>
      obtain rfl := Option.some.inj hstep
      obtain ⟨hlt, -⟩ := List.getElem?_eq_some_iff.mp hget
      have herase := List.length_eraseIdx_of_lt hlt
      have hbegun : s.begun := by
        refine Decidable.byContradiction fun h => ?_
        have := (hs.fresh h).2.2
        unfold pending at this
        omega
      have hpos : s.pending ≠ 0 := by unfold pending; omega
      rcases Bool.eq_false_or_eq_true s.ctx.ensembleStatus.isOk with hok | hfail
      · refine proceed_invariant info server _ hbegun hok ?_ ?_
        · -- the counter is positive here, so that the decrement does not wrap around
          have hcounter := hs.counter hok
          simp only [EnsembleContext.counted, EnsembleContext.decrement]
          rw [if_neg (hcounter ▸ hpos), hcounter]
          unfold pending
          simp only [herase]
          omega
        · have := hs.completed hbegun hok
          rw [if_neg hpos] at this
          exact this
      · have hfail' : ¬ s.ctx.ensembleStatus.isOk := by rw [hfail]; decide
        rw [proceed_failed info server _ (s := { s with outstanding := s.outstanding.eraseIdx i })
          hfail']
        exact ⟨fun h => absurd hbegun h, fun hok => absurd hok hfail',
          fun _ hok => absurd hok hfail', fun _ _ => hs.failed hbegun hfail'⟩
    · cases hstep

theorem invariant_of_reachable {server : Server} {request : EnsembleRequest} {s : System}
    (h : Reachable (step info) (enqueue info server request) s) : s.Invariant :=
  h.invariant (enqueue_invariant info server request)
    fun _ _ _ hs _ hstep => step_invariant info hs hstep

/-! ## Completion -/

/-- `Proceed` has been called, no step is waiting to be handed over and none is outstanding. -/
def Quiescent (s : System) : Prop :=
  s.begun ∧ (∀ steps ∈ s.scheduling, steps = []) ∧ s.outstanding = []

instance (s : System) : Decidable s.Quiescent :=
  decidable_of_iff
    (s.begun ∧ (∀ steps ∈ s.scheduling, steps.isEmpty) ∧ s.outstanding.isEmpty) <| by
      unfold Quiescent
      simp only [List.isEmpty_iff]

theorem Quiescent.pending_eq_zero {s : System} (h : s.Quiescent) : s.pending = 0 := by
  obtain ⟨-, hscheduling, houtstanding⟩ := h
  unfold pending
  rw [List.flatten_eq_nil_iff.mpr hscheduling, houtstanding]
  rfl

/-- A quiescent request has completed, once. -/
theorem Invariant.length_completions {s : System} (h : s.Invariant) (hquiescent : s.Quiescent) :
    s.ctx.completions.length = 1 := by
  rcases Bool.eq_false_or_eq_true s.ctx.ensembleStatus.isOk with hok | hfail
  · rw [h.completed hquiescent.1 hok, if_pos hquiescent.pending_eq_zero]
  · exact h.failed hquiescent.1 (by rw [hfail]; decide)

/-- A callback would count off a step that was not counted. -/
def Underflows (s : System) : Prop :=
  s.ctx.ensembleStatus.isOk ∧ s.outstanding ≠ [] ∧ s.ctx.inflightStepCounter = 0

/-- Every order of hand-overs and callbacks, each with any response: the request never
completes twice, is complete once it is quiescent, and its counter is exact and never
underflows while the status is OK. -/
theorem completion_of_reachable (server : Server) (request : EnsembleRequest) {s : System}
    (h : Reachable (step info) (enqueue info server request) s) :
    s.ctx.completions.length ≤ 1 ∧
    (s.Quiescent → s.ctx.completions.length = 1) ∧
    ¬ s.Underflows ∧
    (s.ctx.ensembleStatus.isOk →
      s.ctx.inflightStepCounter = s.scheduling.flatten.length + s.outstanding.length) := by
  have hinv := invariant_of_reachable info h
  refine ⟨?_, hinv.length_completions, ?_, hinv.counter⟩
  · rcases Bool.eq_false_or_eq_true s.begun with hbegun | hfresh
    · rcases Bool.eq_false_or_eq_true s.ctx.ensembleStatus.isOk with hok | hfail
      · rw [hinv.completed hbegun hok]
        split <;> omega
      · exact (hinv.failed hbegun (by rw [hfail]; decide)).le
    · rw [(hinv.fresh (by rw [hfresh]; decide)).1]
      exact Nat.zero_le 1
  · rintro ⟨hok, houtstanding, hzero⟩
    have hcounter := hinv.counter hok
    have hlength := List.length_pos_iff.mpr houtstanding
    unfold pending at hcounter
    omega

/-- Two models that both read the input `x` of the ensemble; `a` writes its output `y`. -/
def forked : EnsembleInfo where
  ensembleName := "forked"
  allowBatching := true
  ensembleInputToTensor := AList.singleton "x" 0
  ensembleOutputToTensor := AList.singleton "y" 1
  steps :=
    [{ modelName := "a"
       inputToTensor := AList.singleton "in" 0
       outputToTensor := AList.singleton "out" 1 },
     { modelName := "b"
       inputToTensor := AList.singleton "in" 0
       outputToTensor := AList.singleton "out" 2 }]
  tensorToStep := [[0, 1], [], []]
  inputs_lt := by decide
  outputs_lt := by decide
  steps_lt := by decide
  tensorToStep_lt := by decide

/-- A server that accepts everything. -/
def accepting : Server where
  createBackendHandle := fun _ _ => .ok
  normalizeRequestHeader := fun _ _ header => (.ok, header)
  allocateOutputBuffer := fun _ _ _ => .ok

/-- A request of batch size 1 with four bytes for `x`. -/
def forkedRequest : EnsembleRequest where
  header :=
    { batchSize := 1
      input := [{ name := "x", dims := [4], batchByteSize := 4 }]
      output := [{ name := "y" }] }
  inputBuffer := AList.singleton "x" { blocks := [[1, 2], [3, 4]] }

/-- Step 0 fails from inside the `ScheduleSteps` call that has yet to hand over step 1;
step 1 succeeds later. The request is complete once, with the failure. -/
theorem completion_forked :
    ∃ s, Reachable (step forked) (enqueue forked accepting forkedRequest) s ∧
      s.ctx.completions.map (·.code) = [.unavailable] ∧ s.Quiescent ∧
      s.ctx.completions.length = 1 := by
  have hrun : (runWhen (step forked) (fun _ _ => True)
      (enqueue forked accepting forkedRequest)
      [.begin accepting, .handOver 0,
        .callBack 0 { requestStatus := { code := .unavailable } } accepting,
        .handOver 0, .callBack 0 { requestStatus := .ok } accepting]).map
      (fun s => s.ctx.completions.map (·.code) == [.unavailable] &&
        decide s.Quiescent) = some true := by decide
  obtain ⟨s, hreach, hs⟩ := exists_of_runWhen hrun
  simp only [Bool.and_eq_true, beq_iff_eq, decide_eq_true_eq] at hs
  exact ⟨s, hreach, hs.1, hs.2,
    (completion_of_reachable forked accepting forkedRequest hreach).2.1 hs.2⟩

end System

end FinBert.Ensemble
