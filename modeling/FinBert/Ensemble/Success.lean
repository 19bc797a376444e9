import FinBert.Ensemble.Tensors

/-!
# Calls of `PrepareSteps` that succeed

A response that returns every mapped output, as raw data of the size that it states, is taken
over without an error. When the models also accept the requests of the steps that become ready,
`PrepareSteps` returns all of these steps, and finishes the ensemble only when no step is left.

Results:
1. `updateEnsembleState_succeeds`: all tensors that the completed step writes are set.
2. `prepareSteps_succeeds`: what the call returns.
-/

namespace FinBert.Ensemble

open FinBert.Serving

/-- The output is raw data, and its buffer has the size that it states. -/
def StepResponse.returns (response : StepResponse) (output : ResponseOutput) : Bool :=
  match output.raw, response.getSystemMemory output.name with
  | some (_, batchByteSize), .ok memory => batchByteSize == memory.totalByteSize
  | _, _ => false

/-- The response of a step that succeeded: every output that is mapped is returned, and nothing
else. -/
def StepResponse.succeeds (response : StepResponse) (stepInfo : StepInfo) : Bool :=
  response.requestStatus.code == .success && response.finalizeResponse.isOk &&
  (stepInfo.outputToTensor.keys.all fun key => response.output.any (·.name == key)) &&
  response.output.all fun output =>
    stepInfo.outputToTensor.keys.contains output.name && response.returns output

/-- The models accept the requests of the steps that become ready, and when there are none and no
step is in flight, the buffers for the outputs of the ensemble are allocated. -/
def Server.Accepts (info : EnsembleInfo) (server : Server)
    (completed : Option (Step × StepResponse)) (ctx : EnsembleContext) : Prop :=
  let update := ctx.updateEnsembleState info completed
  let next := EnsembleContext.nextStepIdx info update.2.2 update.2.1
  (∀ idx ∈ next, (EnsembleContext.initStep info server update.2.1 idx).1.isOk) ∧
  (update.2.1.inflightStepCounter + next.length = 0 →
    ∀ output ∈ info.ensembleOutputToTensor.entries, ctx.request.requiresOutput output.1 →
    (update.2.1.tensor output.2).memory.isSome →
    (server.allocateOutputBuffer output.1 (update.2.1.tensor output.2).input.batchByteSize
      (EnsembleContext.outputShape info update.2.1 (update.2.1.tensor output.2))).isOk)

/-- A call of `PrepareSteps` in which nothing fails. -/
def Server.Succeeds (info : EnsembleInfo) (server : Server)
    (completed : Option (Step × StepResponse)) (ctx : EnsembleContext) : Prop :=
  (∀ c ∈ completed, c.2.succeeds (info.step c.1.stepIdx)) ∧ server.Accepts info completed ctx

instance (info : EnsembleInfo) (server : Server) (completed : Option (Step × StepResponse))
    (ctx : EnsembleContext) : Decidable (server.Accepts info completed ctx) :=
  inferInstanceAs (Decidable (_ ∧ _))

instance (info : EnsembleInfo) (server : Server) (completed : Option (Step × StepResponse))
    (ctx : EnsembleContext) : Decidable (server.Succeeds info completed ctx) :=
  inferInstanceAs (Decidable (_ ∧ _))

/-- A step of the system in which nothing fails. -/
def System.Succeeds (info : EnsembleInfo) (s : System) : System.Action → Prop
  | .begin server => server.Succeeds info none s.ctx
  | .handOver _ => True
  | .callBack i response server =>
    ∀ completed ∈ s.outstanding[i]?, server.Succeeds info (some (completed, response)) s.ctx

instance (info : EnsembleInfo) (s : System) : (a : System.Action) → Decidable (s.Succeeds info a)
  | .begin server => inferInstanceAs (Decidable (server.Succeeds info none s.ctx))
  | .handOver _ => isTrue trivial
  | .callBack i response server => inferInstanceAs (Decidable (∀ completed ∈ s.outstanding[i]?,
      server.Succeeds info (some (completed, response)) s.ctx))

namespace EnsembleContext

variable {info : EnsembleInfo} {server : Server}

/-- A tensor that is set has the size that it states. -/
def Sized (ctx : EnsembleContext) (idx : Nat) : Prop :=
  ∀ memory, (ctx.tensor idx).memory = some memory →
    (ctx.tensor idx).input.batchByteSize = memory.totalByteSize

/-- What the loop over the outputs of a response does when all of them are returned. -/
structure SetsAll (outputToTensor : UnorderedMap String Nat) (outputs : List ResponseOutput)
    (ctx ctx' : EnsembleContext) (updated : List Nat) : Prop where
  mapped : ∀ output ∈ outputs, ∀ idx, outputToTensor.find output.name = some idx → idx ∈ updated
  sized : ∀ idx, ctx.Sized idx → ctx'.Sized idx

theorem setOutputs_succeeds {stepInfo : StepInfo} {response : StepResponse}
    {outputs : List ResponseOutput} {ctx ctx' : EnsembleContext} {updated updated' : List Nat}
    {status : Status}
    (hlt : ∀ key idx, stepInfo.outputToTensor.find key = some idx → idx < ctx.tensorData.length)
    (hmapped : ∀ output ∈ outputs, ∃ idx, stepInfo.outputToTensor.find output.name = some idx)
    (hreturns : ∀ output ∈ outputs, response.returns output)
    (h : setOutputs stepInfo response outputs ctx updated = (status, ctx', updated')) :
    status.isOk ∧ SetsAll stepInfo.outputToTensor outputs ctx ctx' updated' := by
  induction outputs generalizing ctx updated with
  | nil =>
    obtain ⟨rfl, rfl, rfl⟩ := h
    exact ⟨rfl, fun _ hmem => absurd hmem List.not_mem_nil, fun _ hsized => hsized⟩
  | cons output outputs ih =>
    rw [List.forall_mem_cons] at hmapped hreturns
    obtain ⟨idx, hidx⟩ := hmapped.1
    have hreturn := hreturns.1
    unfold StepResponse.returns at hreturn
    unfold setOutputs at h
    split at h
    · next hraw => simp [hraw] at hreturn
    · next dims batchByteSize hraw =>
      split at h
      · next hnone => cases hnone.symm.trans hidx
      · next idx' hidx' =>
        obtain rfl := Option.some.inj (hidx'.symm.trans hidx)
        simp only at h
        split at h
        · next hmemory => simp [hraw, hmemory] at hreturn
        · next memory hmemory =>
          simp only [hraw, hmemory, beq_iff_eq] at hreturn
          generalize hlabel : setLabel response output.name idx' _ = ctx₁ at h
          have hdata := (congrArg tensorData hlabel).symm.trans
            (setLabel_tensorData response output.name idx' _).1
          have hidx_lt := hlt output.name idx' hidx
          have hlt' : ∀ key idx, stepInfo.outputToTensor.find key = some idx →
              idx < ctx₁.tensorData.length := fun key idx hkey => by
            rw [hdata, List.length_set]
            exact hlt key idx hkey
          obtain ⟨new, rfl, -⟩ := setOutputs_writes hlt' h
          obtain ⟨hok, hsets⟩ := ih hlt' hmapped.2 hreturns.2 h
          refine ⟨hok, fun output' houtput' idx hkey => ?_, fun idx hsized => ?_⟩
          · rcases List.mem_cons.mp houtput' with rfl | houtput'
            · obtain rfl := Option.some.inj (hkey.symm.trans hidx)
              exact List.mem_append_left _ List.mem_concat_self
            · exact hsets.mapped output' houtput' idx hkey
          · refine hsets.sized idx fun memory' hmemory' => ?_
            rw [tensor_set hdata hidx_lt] at hmemory' ⊢
            split at hmemory'
            · next heq =>
              rw [if_pos heq]
              exact hreturn.trans (congrArg _ (Option.some.inj hmemory'))
            · next hne =>
              rw [if_neg hne]
              exact hsized memory' hmemory'

/-- The tensors that a call of `UpdateEnsembleState` can report. -/
def Reports (info : EnsembleInfo) (ctx : EnsembleContext) :
    Option (Step × StepResponse) → Nat → Prop
  | none, idx => ctx.IsSet idx
  | some (step, _), idx => ∃ key, (info.step step.stepIdx).outputToTensor.find key = some idx

/-- What `UpdateEnsembleState` does for a step that succeeded, or at the start. -/
structure Updates (info : EnsembleInfo) (completed : Option (Step × StepResponse))
    (ctx ctx' : EnsembleContext) (updated : List Nat) : Prop where
  reported : ∀ idx, Reports info ctx completed idx → idx ∈ updated
  sized : ∀ idx, ctx.Sized idx → ctx'.Sized idx

variable (info) in
theorem mem_updated_none (ctx : EnsembleContext) (idx : Nat) :
    idx ∈ (updateEnsembleState info none ctx).2.2 ↔ ctx.IsSet idx := by
  simp only [updateEnsembleState, List.mem_filter, List.mem_range]
  refine ⟨fun h => h.2, fun h => ⟨Decidable.byContradiction fun hlt => ?_, h⟩⟩
  unfold IsSet tensor at h
  rw [List.getD_eq_default _ _ (Nat.not_lt.mp hlt)] at h
  cases h

theorem updateEnsembleState_succeeds {completed : Option (Step × StepResponse)}
    {ctx ctx' : EnsembleContext} {updated : List Nat} {status : Status}
    (hlength : ctx.tensorData.length = info.tensorToStep.length)
    (hsucceeds : ∀ c ∈ completed, c.2.succeeds (info.step c.1.stepIdx))
    (h : updateEnsembleState info completed ctx = (status, ctx', updated)) :
    status.isOk ∧ Updates info completed ctx ctx' updated := by
  cases completed with
  | none =>
    obtain ⟨rfl, rfl, hupdated⟩ := h
    exact ⟨rfl, fun idx hidx => (mem_updated_none info ctx idx).mpr hidx, fun _ hsized => hsized⟩
  | some completed =>
    obtain ⟨step, response⟩ := completed
    have hresponse := hsucceeds _ rfl
    simp only [StepResponse.succeeds, Bool.and_eq_true, beq_iff_eq, List.all_eq_true,
      List.any_eq_true, List.contains_iff_mem, UnorderedMap.mem_keys_iff,
      Option.isSome_iff_exists] at hresponse
    obtain ⟨⟨⟨hcode, hfinalize⟩, hall⟩, houtputs⟩ := hresponse
    simp only [updateEnsembleState, hcode, hfinalize, ne_eq, not_true_eq_false, if_false,
      Bool.not_true, Bool.false_eq_true] at h
    have hlt : ∀ key idx, (info.step step.stepIdx).outputToTensor.find key = some idx →
        idx < ctx.tensorData.length := fun key idx hkey => hlength ▸ output_lt hkey
    obtain ⟨hok, hsets⟩ := setOutputs_succeeds (by exact hlt)
      (fun output houtput => (houtputs output houtput).1)
      (fun output houtput => (houtputs output houtput).2) h
    refine ⟨hok, ?_, hsets.sized⟩
    rintro idx ⟨key, hkey⟩
    obtain ⟨output, houtput, rfl⟩ := hall key ⟨idx, hkey⟩
    exact hsets.mapped output houtput idx hkey

theorem initSteps_succeeds {ctx : EnsembleContext} {idxs : List Nat}
    (h : ∀ idx ∈ idxs, (initStep info server ctx idx).1.isOk) :
    (initSteps info server ctx idxs).1.isOk := by
  induction idxs with
  | nil => rfl
  | cons idx idxs ih =>
    rw [List.forall_mem_cons] at h
    unfold initSteps
    simp only [h.1, Bool.not_true, Bool.false_eq_true, if_false]
    exact ih h.2

/-- The context before the decision to finish. -/
def counting (ctx : EnsembleContext) (readySteps : List Step) : EnsembleContext :=
  { ctx with
    inflightStepCounter := ctx.inflightStepCounter + readySteps.length
    ensembleStatus := .ok }

/-- A call in which nothing fails returns all steps that are ready, and it finishes the ensemble
when no step is counted any more. -/
theorem prepareSteps_succeeds {completed : Option (Step × StepResponse)}
    {ctx ctx' : EnsembleContext} {readySteps : List Step}
    (hlength : ctx.tensorData.length = info.tensorToStep.length) (hok : ctx.ensembleStatus.isOk)
    (hsucceeds : server.Succeeds info completed ctx)
    (h : prepareSteps info server completed ctx = (ctx', readySteps)) :
    let update := updateEnsembleState info completed ctx
    let counted := update.2.1.counting readySteps
    readySteps.map (·.stepIdx) = nextStepIdx info update.2.2 update.2.1 ∧
      ctx' = if counted.inflightStepCounter = 0 then finishEnsemble info server counted
        else counted := by
  have hinit := initSteps_succeeds hsucceeds.2.1
  generalize hupdate : updateEnsembleState info completed ctx = update at hinit
  obtain ⟨status, ctx₁, updated⟩ := update
  obtain ⟨hstatus, -⟩ := updateEnsembleState_succeeds hlength hsucceeds.1 hupdate
  have hsteps := initSteps_stepIdx ctx₁ _ hinit
  unfold prepareSteps advance at h
  simp only [hok, Bool.not_true, Bool.and_false, Bool.false_eq_true, if_false, if_true, hupdate,
    hstatus, getNextSteps, hinit] at h
  generalize initSteps info server ctx₁ (nextStepIdx info updated ctx₁) = prepared at h hsteps
  obtain ⟨status', readySteps'⟩ := prepared
  simp only at h hsteps ⊢
  have hstarted : (if (ctx₁.counting readySteps').inflightStepCounter = 0 then
      (finishEnsemble info server (ctx₁.counting readySteps'), [])
    else (ctx₁.counting readySteps', readySteps')) = (ctx', readySteps) := by
    simp only [show Status.ok.isOk = true from rfl, Bool.not_true, Bool.false_or, beq_iff_eq] at h
    exact h
  split at hstarted
  · next hzero =>
    obtain rfl := List.eq_nil_of_length_eq_zero (Nat.eq_zero_of_add_eq_zero hzero).2
    obtain ⟨rfl, rfl⟩ := hstarted
    exact ⟨hsteps, (if_pos hzero).symm⟩
  · next hopen =>
    obtain ⟨rfl, rfl⟩ := hstarted
    exact ⟨hsteps, (if_neg hopen).symm⟩

/-- Only an ensemble that counts no step can fail in such a call. -/
theorem isOk_of_prepareSteps {completed : Option (Step × StepResponse)}
    {ctx ctx' : EnsembleContext} {readySteps : List Step}
    (hlength : ctx.tensorData.length = info.tensorToStep.length) (hok : ctx.ensembleStatus.isOk)
    (hsucceeds : server.Succeeds info completed ctx)
    (h : prepareSteps info server completed ctx = (ctx', readySteps))
    (hopen : counted completed ctx.inflightStepCounter + readySteps.length ≠ 0) :
    ctx'.ensembleStatus.isOk := by
  have hctx := (prepareSteps_succeeds hlength hok hsucceeds h).2
  rw [if_neg] at hctx
  · rw [hctx]
    rfl
  · show (updateEnsembleState info completed ctx).2.1.inflightStepCounter + _ ≠ 0
    rwa [(updateEnsembleState_progress info completed ctx).1]

end EnsembleContext

end FinBert.Ensemble
