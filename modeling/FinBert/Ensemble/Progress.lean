import FinBert.Ensemble.Termination

/-!
# An acyclic ensemble answers

When all steps succeed and return what they write, a request that supplies every ensemble input
finishes with an OK status and with all ensemble outputs that it requires. This needs a network
without cycles in which every ensemble output is written by a step: the validation accepts an
output that is only an input, but the scheduler gives it a slot of its own, which nothing sets.

Results:
1. `prepareSteps_healthy`: a call that finishes the ensemble with all outputs set answers.
2. `named_output`: when no step is pending, all ensemble outputs are set.
3. `answered_of_acyclic`: every run of an acyclic ensemble ends with an answer.
-/

namespace FinBert.Ensemble

open FinBert.Serving Transition Dataflow

namespace EnsembleContext

variable {info : EnsembleInfo} {server : Server}

/-! ## The outputs of the ensemble -/

/-- The buffer of an ensemble output holds the data of its tensor. -/
def Holds (ctx : EnsembleContext) (name : String) (idx : Nat) : Prop :=
  ∃ memory, (ctx.tensor idx).memory = some memory ∧
    ∃ buffer ∈ ctx.outputBuffers, buffer.name = name ∧ buffer.content = memory.blocks.flatten

/-- The required ensemble outputs are set. -/
def Answers (info : EnsembleInfo) (ctx : EnsembleContext) : Prop :=
  ∀ name idx, info.ensembleOutputToTensor.find name = some idx →
    ctx.request.requiresOutput name → ctx.Holds name idx

/-- The data of an ensemble output can be copied to its buffer. -/
structure Copyable (info : EnsembleInfo) (server : Server) (ctx : EnsembleContext) (name : String)
    (idx : Nat) : Prop where
  isSet : ctx.IsSet idx
  sized : ctx.Sized idx
  allocated : (server.allocateOutputBuffer name (ctx.tensor idx).input.batchByteSize
    (outputShape info ctx (ctx.tensor idx))).isOk

theorem checkAndSetOutputs_succeeds {outputs : List (Σ _ : String, Nat)}
    {ctx ctx' : EnsembleContext} {status : Status}
    (h : checkAndSetOutputs info server outputs ctx = (status, ctx'))
    (hcopy : ∀ output ∈ outputs, ctx.request.requiresOutput output.1 →
      Copyable info server ctx output.1 output.2) :
    status.isOk ∧ ctx'.request = ctx.request ∧
      (∀ buffer ∈ ctx.outputBuffers, buffer ∈ ctx'.outputBuffers) ∧
      ∀ output ∈ outputs, ctx.request.requiresOutput output.1 →
        ctx'.Holds output.1 output.2 := by
  induction outputs generalizing ctx with
  | nil =>
    obtain ⟨rfl, rfl⟩ := Prod.mk.inj h
    exact ⟨rfl, rfl, fun _ hmem => hmem, fun _ hmem => absurd hmem List.not_mem_nil⟩
  | cons output outputs ih =>
    obtain ⟨name, idx⟩ := output
    have hdata := checkAndSetOutputs_tensorData info server (⟨name, idx⟩ :: outputs) ctx
    rw [h] at hdata
    rw [List.forall_mem_cons] at hcopy
    unfold checkAndSetOutputs at h
    split at h
    · next hskip =>
      obtain ⟨hok, hrequest, hkept, hall⟩ := ih h hcopy.2
      refine ⟨hok, hrequest, hkept, List.forall_mem_cons.mpr ⟨fun hrequires => ?_, hall⟩⟩
      simp [hrequires] at hskip
    · next hrequires =>
      simp only [Bool.not_eq_eq_eq_not, Bool.not_true, Bool.not_eq_false] at hrequires
      obtain ⟨hset, hsized, hallocated⟩ := hcopy.1 hrequires
      simp only at h
      split at h
      · next hnone =>
        unfold IsSet at hset
        rw [hnone] at hset
        cases hset
      · next memory hmemory =>
        rw [if_neg (not_not_intro (hsized memory hmemory)), hallocated] at h
        simp only [Bool.not_true, Bool.false_eq_true, if_false] at h
        obtain ⟨hok, hrequest, hkept, hall⟩ := ih h fun output houtput hrequires' =>
          have hcopy' := hcopy.2 output houtput hrequires'
          ⟨hcopy'.isSet, hcopy'.sized, hcopy'.allocated⟩
        have hbuffer := hkept _ List.mem_concat_self
        refine ⟨hok, hrequest, fun buffer hmem => hkept buffer (List.mem_append_left _ hmem),
          List.forall_mem_cons.mpr ⟨fun _ => ⟨memory, ?_, _, hbuffer, rfl, rfl⟩, hall⟩⟩
        rw [← hmemory, tensor, hdata]
        rfl

variable (info server) in
/-- An ensemble finishes with an answer when all required outputs can be copied. -/
theorem finishEnsemble_answers (ctx : EnsembleContext) (hok : ctx.ensembleStatus.isOk)
    (hcopy : ∀ name idx, info.ensembleOutputToTensor.find name = some idx →
      ctx.request.requiresOutput name → Copyable info server ctx name idx) :
    let ctx' := finishEnsemble info server ctx
    ctx'.ensembleStatus.isOk ∧ ctx'.completions = ctx.completions ++ [ctx'.ensembleStatus] ∧
      ctx'.request = ctx.request ∧ Answers info ctx' := by
  unfold finishEnsemble checkAndSetEnsembleOutput
  generalize hcheck : checkAndSetOutputs info server info.ensembleOutputToTensor.entries ctx =
    checked
  obtain ⟨status, ctx₁⟩ := checked
  obtain ⟨hstatus, hrequest, -, hall⟩ := checkAndSetOutputs_succeeds hcheck
    fun output houtput => hcopy output.1 output.2 (AList.mem_lookup_iff.mpr houtput)
  have hcompletions := (checkAndSetOutputs_sameProgress info server
    info.ensembleOutputToTensor.entries ctx).completions
  rw [hcheck] at hcompletions
  simp only [hok, if_true]
  refine ⟨(isOk_withEnsembleName info status).trans hstatus, by rw [hcompletions], hrequest,
    fun name idx hname hrequires => ?_⟩
  exact hall ⟨name, idx⟩ (AList.mem_lookup_iff.mp hname) (hrequest ▸ hrequires)

/-! ## One call of `PrepareSteps` -/

/-- The context of a request in which nothing has failed so far. -/
structure Healthy (info : EnsembleInfo) (request : EnsembleRequest) (ctx : EnsembleContext) :
    Prop where
  request : ctx.request = request
  sized : ∀ name idx, info.ensembleOutputToTensor.find name = some idx → ctx.Sized idx
  completions : ∀ status ∈ ctx.completions, status.isOk

theorem updateEnsembleState_request {completed : Option (Step × StepResponse)}
    {ctx ctx' : EnsembleContext} {updated : List Nat} {status : Status}
    (hlength : ctx.tensorData.length = info.tensorToStep.length)
    (h : updateEnsembleState info completed ctx = (status, ctx', updated)) :
    ctx'.request = ctx.request := by
  cases completed with
  | none =>
    obtain ⟨-, rfl, -⟩ := h
    rfl
  | some completed => exact (updateEnsembleState_writes hlength h).request

theorem sized_congr {ctx ctx' : EnsembleContext} (h : ctx'.tensorData = ctx.tensorData) {idx : Nat}
    (hsized : ctx.Sized idx) : ctx'.Sized idx := by
  unfold Sized tensor
  rw [h]
  exact hsized

/-- A call in which nothing fails keeps the context healthy, and when it finishes the ensemble
with all outputs set, it answers. -/
theorem prepareSteps_healthy {request : EnsembleRequest}
    {completed : Option (Step × StepResponse)} {ctx ctx' : EnsembleContext}
    {readySteps : List Step} (hlength : ctx.tensorData.length = info.tensorToStep.length)
    (hok : ctx.ensembleStatus.isOk) (hsucceeds : server.Succeeds info completed ctx)
    (h : prepareSteps info server completed ctx = (ctx', readySteps))
    (hhealthy : Healthy info request ctx)
    (hset : counted completed ctx.inflightStepCounter + readySteps.length = 0 →
      ∀ name idx, info.ensembleOutputToTensor.find name = some idx → ctx'.IsSet idx) :
    Healthy info request ctx' ∧
      (counted completed ctx.inflightStepCounter + readySteps.length = 0 →
        ctx'.ensembleStatus.isOk ∧ Answers info ctx') := by
  obtain ⟨hcounter, hcompletions⟩ := updateEnsembleState_progress info completed ctx
  obtain ⟨hready, hctx⟩ := prepareSteps_succeeds hlength hok hsucceeds h
  have hallocated := hsucceeds.2.2
  rw [← hready, List.length_map] at hallocated
  generalize hupdate : updateEnsembleState info completed ctx = update at *
  obtain ⟨status, ctx₁, updated⟩ := update
  have hrequest := updateEnsembleState_request hlength hupdate
  have hsized := (updateEnsembleState_succeeds hlength hsucceeds.1 hupdate).2.sized
  rw [← hcounter] at hset ⊢
  split at hctx
  · next hzero =>
    have hdata := finishEnsemble_tensorData info server (ctx₁.counting readySteps)
    have hcopy : ∀ name idx, info.ensembleOutputToTensor.find name = some idx →
        ctx₁.request.requiresOutput name →
        Copyable info server (ctx₁.counting readySteps) name idx := by
      intro name idx hname hrequires
      rw [hctx] at hset
      have hisSet := (isSet_congr hdata idx).mp (hset hzero name idx hname)
      exact ⟨hisSet, hsized idx (hhealthy.sized name idx hname),
        hallocated hzero ⟨name, idx⟩ (AList.mem_lookup_iff.mp hname) (hrequest ▸ hrequires) hisSet⟩
    obtain ⟨hstatus, hanswer, hrequest', hanswers⟩ :=
      finishEnsemble_answers info server (ctx₁.counting readySteps) rfl hcopy
    rw [hctx]
    refine ⟨⟨hrequest'.trans (hrequest.trans hhealthy.request), fun name idx hname => ?_,
      fun status hmem => ?_⟩, fun _ => ⟨hstatus, hanswers⟩⟩
    · exact sized_congr hdata (hsized idx (hhealthy.sized name idx hname))
    · rw [hanswer, List.mem_append, List.mem_singleton] at hmem
      rcases hmem with hmem | rfl
      · exact hhealthy.completions status (hcompletions ▸ hmem)
      · exact hstatus
  · next hopen =>
    rw [hctx]
    refine ⟨⟨hrequest.trans hhealthy.request, fun name idx hname => ?_, fun status hmem => ?_⟩,
      fun hzero => absurd hzero hopen⟩
    · exact hsized idx (hhealthy.sized name idx hname)
    · exact hhealthy.completions status (hcompletions ▸ hmem)

theorem createHandles_succeeds {steps : List StepInfo} {handles : List (String × Int)}
    (h : ∀ step ∈ steps, (server.createBackendHandle step.modelName step.modelVersion).isOk) :
    (createHandles server steps handles).isOk := by
  induction steps generalizing handles with
  | nil => rfl
  | cons step steps ih =>
    rw [List.forall_mem_cons] at h
    unfold createHandles
    simp only [h.1, if_true]
    split
    · exact ih h.2
    · exact ih h.2

end EnsembleContext

/-! ## Runs in which nothing fails -/

/-- The request supplies the data of all ensemble inputs, and of nothing else. -/
structure EnsembleRequest.SuppliesInputs (request : EnsembleRequest) (config : ModelConfig) :
    Prop where
  known : ∀ input ∈ request.header.input, input.name ∈ config.inputNames
  named : ∀ name ∈ config.inputNames, name ∈ request.header.input.map (·.name)
  buffered : ∀ name ∈ config.inputNames, (request.inputBuffer.find name).isSome

instance (request : EnsembleRequest) (config : ModelConfig) :
    Decidable (request.SuppliesInputs config) :=
  decidable_of_iff ((∀ input ∈ request.header.input, input.name ∈ config.inputNames) ∧
    (∀ name ∈ config.inputNames, name ∈ request.header.input.map (·.name)) ∧
    ∀ name ∈ config.inputNames, (request.inputBuffer.find name).isSome)
    ⟨fun h => ⟨h.1, h.2.1, h.2.2⟩, fun h => ⟨h.known, h.named, h.buffered⟩⟩

/-- The models of all steps are available. -/
def Server.Provides (server : Server) (info : EnsembleInfo) : Prop :=
  ∀ step ∈ info.steps, (server.createBackendHandle step.modelName step.modelVersion).isOk

instance (server : Server) (info : EnsembleInfo) : Decidable (server.Provides info) :=
  inferInstanceAs (Decidable (∀ step ∈ info.steps, _))

section
variable {config : ModelConfig} {server : Server} {request : EnsembleRequest}

/-- The constructor succeeds and sets the tensors of all sources. -/
theorem create_succeeds (hserver : server.Provides (ensembleInfo config))
    (hrequest : request.SuppliesInputs config) :
    (EnsembleContext.create (ensembleInfo config) server request).ensembleStatus.isOk ∧
      ∀ x ∈ (network config).sources,
        Named config (EnsembleContext.create (ensembleInfo config) server request).IsSet x := by
  have hwired := wired_layout config
  obtain ⟨hsupplies, hstatus⟩ := EnsembleContext.create_supplies (ensembleInfo config) server
    request (EnsembleContext.createHandles_succeeds hserver)
  refine ⟨hstatus fun input hinput => ?_, fun x hx => ?_⟩
  · obtain ⟨idx, hidx⟩ := hwired.inputSlot input.name (hrequest.known input hinput)
    exact Option.isSome_iff_exists.mpr ⟨idx, hidx⟩
  · obtain ⟨hinput, hout⟩ := List.mem_filter.mp hx
    obtain ⟨idx, hidx⟩ := hwired.inputSlot x hinput
    obtain ⟨-, -, hpure, -⟩ := hwired.input x idx hidx
    obtain ⟨input, hmem, rfl⟩ := List.mem_map.mp (hrequest.named x hinput)
    exact ⟨idx, hpure (of_decide_eq_true hout),
      hsupplies.supplied input hmem idx hidx (hrequest.buffered input.name hinput)⟩

/-- When no step is pending, all ensemble outputs are set. -/
theorem named_output (haccepted : Accepted config)
    (houtputs : ∀ name ∈ config.outputNames, name ∈ config.writes)
    (hacyclic : (network config).Acyclic) {t : Trace} (h : Traced config True t)
    (hbegun : t.system.begun) (hpending : t.system.pending = 0) (name : String) (idx : Nat)
    (hname : (ensembleInfo config).ensembleOutputToTensor.find name = some idx) :
    t.system.ctx.IsSet idx := by
  have hrun := h.run hbegun
  have hawaited : t.system.awaited = [] :=
    List.eq_nil_of_length_eq_zero (t.system.length_awaited.trans hpending)
  have hperm := h.awaited
  rw [hawaited, List.append_nil] at hperm
  have hall := hrun.complete_all trivial hacyclic (fun b => reads_ne_nil haccepted)
    (fun b hb x => source_or_written haccepted houtputs hb) (fun b hb => hperm.mem_iff.mp hb)
  obtain ⟨hmem, hidx⟩ := (wired_layout config).output name idx hname
  obtain ⟨c, hc, hwrites⟩ := exists_writer (houtputs name hmem)
  exact (named_iff hidx).mp ((hrun.eager trivial).written c (hall c hc) name hwrites)

/-- What holds, besides, of every trace in which nothing fails. -/
structure Answering (config : ModelConfig) (request : EnsembleRequest) (t : Trace) : Prop where
  healthy : EnsembleContext.Healthy (ensembleInfo config) request t.system.ctx
  answered : t.system.begun → t.system.pending = 0 →
    t.system.ctx.ensembleStatus.isOk ∧
      EnsembleContext.Answers (ensembleInfo config) t.system.ctx

theorem enqueue_answering :
    Answering config request (Trace.enqueue (ensembleInfo config) server request) where
  healthy := by
    refine ⟨rfl, fun name idx hname => ?_, fun _ hmem => absurd hmem List.not_mem_nil⟩
    obtain ⟨hmem, hidx⟩ := (wired_layout config).output name idx hname
    have hdefault := (EnsembleContext.create_tensorData (ensembleInfo config) server request).2 idx
      fun name' hname' => by
        -- the slot of an ensemble output is the slot of no ensemble input
        obtain ⟨-, -, hpure, hshared⟩ := (wired_layout config).input name' idx hname'
        by_cases hout : name' ∈ config.outputNames
        · exact hshared hout name hidx
        · obtain rfl := (wired_layout config).injective name' name idx (hpure hout) hidx
          exact hout hmem
    intro memory hmemory
    have hnone : (none : Option SystemMemory) = some memory :=
      (congrArg TensorData.memory hdefault).symm.trans hmemory
    cases hnone
  answered hbegun := nomatch hbegun

/-- The step lemma. -/
theorem step_answering {t t' : Trace} {a : System.Action} (htraced : Traced config True t)
    (h : Answering config request t) (hsucceeds : t.system.Succeeds (ensembleInfo config) a)
    (hset : t'.system.begun → t'.system.pending = 0 → ∀ name idx,
      (ensembleInfo config).ensembleOutputToTensor.find name = some idx →
        t'.system.ctx.IsSet idx)
    (hstep : t.step (ensembleInfo config) a = some t') : Answering config request t' := by
  obtain ⟨system, hsystem, rfl⟩ := Option.map_eq_some_iff.mp hstep
  cases a with
  | begin server =>
    obtain ⟨hfresh, hbegun, -, readySteps, hproceeds, hnewly⟩ := System.step_begin hsystem
    obtain ⟨hok, -⟩ := htraced.created trivial hfresh
    have hcounted := System.counted_begin htraced.invariant hok hsystem hnewly
    obtain ⟨hhealthy, hanswered⟩ := EnsembleContext.prepareSteps_healthy htraced.length hok
      hsucceeds hproceeds.prepare h.healthy fun hzero => hset hbegun (hcounted.symm.trans hzero)
    exact ⟨hhealthy, fun _ hzero => hanswered (hcounted.trans hzero)⟩
  | handOver call =>
    obtain ⟨next, rest, hcall, rfl⟩ := System.step_handOver hsystem
    exact ⟨h.healthy, fun hbegun hzero =>
      h.answered hbegun ((System.pending_handOver hcall).symm.trans hzero)⟩
  | callBack i response server =>
    obtain ⟨completed, readySteps, hget, hsame, -, hproceeds, hnewly, hcompleted⟩ :=
      System.step_callBack hsystem
    have hmem := List.mem_of_getElem? hget
    obtain ⟨hbegun, hopen⟩ := htraced.invariant.begun_of_mem hmem
    have hok := htraced.opened trivial hbegun hopen
    have hcounted :=
      System.counted_callBack htraced.invariant hok hsystem hmem hnewly hcompleted
    obtain ⟨hhealthy, hanswered⟩ := EnsembleContext.prepareSteps_healthy htraced.length hok
      (hsucceeds completed hget) hproceeds.prepare h.healthy
      fun hzero => hset (hsame ▸ hbegun) (hcounted.symm.trans hzero)
    exact ⟨hhealthy, fun _ hzero => hanswered (hcounted.trans hzero)⟩

/-- What holds in every run in which nothing fails. -/
theorem answering_of_reachable (haccepted : Accepted config)
    (houtputs : ∀ name ∈ config.outputNames, name ∈ config.writes)
    (hacyclic : (network config).Acyclic) (hserver : server.Provides (ensembleInfo config))
    (hrequest : request.SuppliesInputs config) {t : Trace}
    (h : ReachableWhen (Trace.step (ensembleInfo config))
      (fun t a => t.system.Succeeds (ensembleInfo config) a)
      (Trace.enqueue (ensembleInfo config) server request) t) :
    Traced config True t ∧ Answering config request t := by
  refine h.invariant (P := fun t => Traced config True t ∧ Answering config request t)
    ⟨enqueue_traced fun _ => create_succeeds hserver hrequest, enqueue_answering⟩
    fun t a t' ⟨htraced, hanswering⟩ hsucceeds hstep => ?_
  have htraced' := step_traced htraced (fun _ => hsucceeds) hstep
  exact ⟨htraced', step_answering htraced hanswering hsucceeds
    (named_output haccepted houtputs hacyclic htraced') hstep⟩

end

/-- The request has finished with an OK status, once, and the buffers of the required ensemble
outputs hold the data of their tensors. -/
def Trace.Answered (config : ModelConfig) (request : EnsembleRequest) (t : Trace) : Prop :=
  (∃ status, t.system.ctx.completions = [status] ∧ status.isOk) ∧
    ∀ name ∈ config.outputNames, request.requiresOutput name →
      ∃ idx, (ensembleInfo config).ensembleOutputToTensor.find name = some idx ∧
        t.system.ctx.Holds name idx

/-- In an accepted ensemble without cycles whose outputs are all written by steps, a request that
supplies the ensemble inputs finishes when all steps succeed, in a bounded number of turns, and it
finishes with an answer. -/
theorem answered_of_acyclic {cuda : CudaDeviceCount} {config : ModelConfig}
    {expectedPlatform : String} {step : List EnsembleStep}
    (hvalid : (validateModelConfig cuda config expectedPlatform).isOk)
    (hscheduling : config.scheduling = .ensembleScheduling step)
    (houtputs : ∀ name ∈ config.outputNames, name ∈ config.writes)
    (hacyclic : (network config).Acyclic) (server : Server) (request : EnsembleRequest)
    (hserver : server.Provides (ensembleInfo config)) (hrequest : request.SuppliesInputs config) :
    (∃ n, ∀ t, ReachableWhen (Trace.step (ensembleInfo config))
      (fun t a => t.system.Succeeds (ensembleInfo config) a)
      (Trace.enqueue (ensembleInfo config) server request) t → t.turns ≤ n) ∧
    ∀ t, ReachableWhen (Trace.step (ensembleInfo config))
      (fun t a => t.system.Succeeds (ensembleInfo config) a)
      (Trace.enqueue (ensembleInfo config) server request) t →
      (¬ t.system.Quiescent → ∃ a, (t.step (ensembleInfo config) a).isSome) ∧
      (t.system.Quiescent → t.Answered config request) := by
  have haccepted := accepted_of_validateModelConfig hvalid hscheduling
  obtain ⟨n, hn⟩ := hacyclic.bounded True
  refine ⟨⟨2 * n + 1, fun t ht => ?_⟩, fun t ht => ⟨exists_step _, fun hquiescent => ?_⟩⟩
  · obtain ⟨htraced, -⟩ :=
      answering_of_reachable haccepted houtputs hacyclic hserver hrequest ht
    have hscheduled : t.scheduled.length ≤ n :=
      htraced.scheduled_of_run (P := fun scheduled => scheduled.length ≤ n) (Nat.zero_le n) hn
    exact htraced.turns_le.trans (Nat.add_le_add_right (Nat.mul_le_mul_left 2 hscheduled) 1)
  · obtain ⟨htraced, hanswering⟩ :=
      answering_of_reachable haccepted houtputs hacyclic hserver hrequest ht
    obtain ⟨status, hstatus⟩ :=
      List.length_eq_one_iff.mp (htraced.invariant.length_completions hquiescent)
    refine ⟨⟨status, hstatus, hanswering.healthy.completions status ?_⟩,
      fun name hname hrequires => ?_⟩
    · rw [hstatus]
      exact List.mem_singleton_self status
    · obtain ⟨idx, hidx⟩ := (wired_layout config).outputSlot name hname
      obtain ⟨-, hanswers⟩ := hanswering.answered hquiescent.1 hquiescent.pending_eq_zero
      refine ⟨idx, hidx, hanswers name idx hidx ?_⟩
      rw [hanswering.healthy.request]
      exact hrequires

/-- The output `y` of the ensemble `chained` holds what the model `b` has written. -/
theorem answered_chained :
    ∃ t, ReachableWhen (Trace.step (ensembleInfo chained))
        (fun t a => t.system.Succeeds (ensembleInfo chained) a)
        (Trace.enqueue (ensembleInfo chained) System.accepting floatRequest) t ∧
      t.system.Quiescent ∧ t.Answered chained floatRequest := by
  have hrun : (runWhen (Trace.step (ensembleInfo chained))
      (fun t a => t.system.Succeeds (ensembleInfo chained) a)
      (Trace.enqueue (ensembleInfo chained) System.accepting floatRequest)
      [.begin System.accepting, .handOver 0, .callBack 0 (floatResponse ["out"]) System.accepting,
        .handOver 1, .callBack 0 (floatResponse ["out"]) System.accepting]).map
      (fun t => decide t.system.Quiescent) = some true := by decide
  obtain ⟨t, hreach, ht⟩ := exists_of_runWhen hrun
  have hquiescent := of_decide_eq_true ht
  have hvalid : (validateModelConfig .noDevice chained "").isOk := by decide
  have hfeeds : ∀ c ∈ (network chained).steps, ∀ b ∈ (network chained).steps,
      (network chained).Feeds c b → c < b := by decide
  have hacyclic : (network chained).Acyclic := Network.acyclic_of_rank id fun c b h =>
    have ⟨hc, _, _, hreads⟩ := h
    hfeeds c hc b (mem_steps_of_reads hreads) h
  obtain ⟨-, hall⟩ := answered_of_acyclic hvalid rfl (by decide) hacyclic System.accepting
    floatRequest (by decide) (by decide)
  exact ⟨t, hreach, hquiescent, (hall t hreach).2 hquiescent⟩

/-- The model `a` reads the input `x`, which is an output too, and writes `y`. -/
def shared : ModelConfig :=
  { ensembleOf "shared"
      [{ modelName := "a", modelVersion := 1, inputMap := AList.singleton "in" "x",
         outputMap := AList.singleton "out" "y" }] with
    output := [{ name := "x", dataType := .fp32, dims := [1] },
      { name := "y", dataType := .fp32, dims := [1] }] }

/-- The ensemble `shared` is accepted, and fails at once: the slot that its step reads is that of
the ensemble output `x`. -/
theorem not_answered :
    ¬ ∀ (cuda : CudaDeviceCount) (config : ModelConfig) (expectedPlatform : String)
        (step : List EnsembleStep), (validateModelConfig cuda config expectedPlatform).isOk →
      config.scheduling = .ensembleScheduling step →
      ∀ (server : Server) (request : EnsembleRequest),
        server.Provides (ensembleInfo config) → request.SuppliesInputs config →
        ∀ t, ReachableWhen (Trace.step (ensembleInfo config))
          (fun t a => t.system.Succeeds (ensembleInfo config) a)
          (Trace.enqueue (ensembleInfo config) server request) t →
        t.system.Quiescent → t.Answered config request := by
  intro hclaim
  have hrun : (runWhen (Trace.step (ensembleInfo shared))
      (fun t a => t.system.Succeeds (ensembleInfo shared) a)
      (Trace.enqueue (ensembleInfo shared) System.accepting floatRequest)
      [.begin System.accepting]).map
      (fun t => decide (t.system.Quiescent ∧
        t.system.ctx.completions.map (·.code) = [.invalidArg])) = some true := by decide
  obtain ⟨t, hreach, ht⟩ := exists_of_runWhen hrun
  obtain ⟨hquiescent, hcodes⟩ := of_decide_eq_true ht
  obtain ⟨⟨status, hstatus, hok⟩, -⟩ := hclaim .noDevice shared "" _ (by decide) rfl
    System.accepting floatRequest (by decide) (by decide) t hreach hquiescent
  rw [hstatus, List.map_singleton, List.singleton_inj] at hcodes
  unfold Status.isOk at hok
  rw [hcodes] at hok
  cases hok

end FinBert.Ensemble
