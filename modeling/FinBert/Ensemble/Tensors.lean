import FinBert.Ensemble.Completion
import FinBert.Ensemble.Scheduler
import Mathlib.Data.List.GetD

/-!
# The tensors of an ensemble request

What one call of `PrepareSteps` does to the tensors of its context: a completed step sets some
of the tensors that it writes, and the steps that are prepared are those that read one of them
and have all their inputs set.

Results:
1. `updateEnsembleState_writes`: the tensors that a completed step sets.
2. `nextStepIdx_spec`, `getNextSteps_spec`: the steps that are prepared.
3. `advance_spec`, `prepareSteps_cases`: a whole call of `PrepareSteps`.
-/

namespace FinBert.Ensemble

open FinBert.Serving

namespace EnsembleContext

variable (info : EnsembleInfo) (server : Server)

/-- The data of a tensor is set. -/
def IsSet (ctx : EnsembleContext) (idx : Nat) : Prop := (ctx.tensor idx).memory.isSome

section
variable {info server}

theorem getD_set {tensorData : List TensorData} {idx : Nat} (hlt : idx < tensorData.length)
    (data : TensorData) (idx' : Nat) : (tensorData.set idx data).getD idx' default =
      if idx' = idx then data else tensorData.getD idx' default := by
  rw [List.getD_eq_getElem?_getD, List.getD_eq_getElem?_getD, List.getElem?_set]
  split
  · next heq =>
    rw [if_pos heq.symm]
    rfl
  · next hne => rw [if_neg (Ne.symm hne)]

theorem tensor_set {ctx ctx' : EnsembleContext} {idx : Nat} {data : TensorData}
    (h : ctx'.tensorData = ctx.tensorData.set idx data) (hlt : idx < ctx.tensorData.length)
    (idx' : Nat) : ctx'.tensor idx' = if idx' = idx then data else ctx.tensor idx' := by
  unfold tensor
  rw [h, getD_set hlt]

theorem setLabel_tensorData (response : StepResponse) (name : String) (idx : Nat)
    (ctx : EnsembleContext) : (setLabel response name idx ctx).tensorData = ctx.tensorData ∧
      (setLabel response name idx ctx).request = ctx.request := by
  unfold setLabel
  split
  · exact ⟨rfl, rfl⟩
  · exact ⟨rfl, rfl⟩

/-! ## The tensors of the ensemble inputs -/

/-- What the loop over the inputs of the request header does. -/
structure Supplies (info : EnsembleInfo) (request : EnsembleRequest) (inputs : List InferInput)
    (tensorData tensorData' : List TensorData) : Prop where
  length : tensorData'.length = tensorData.length
  other : ∀ idx, (∀ name, info.ensembleInputToTensor.find name ≠ some idx) →
    tensorData'.getD idx default = tensorData.getD idx default
  kept : ∀ idx, (tensorData.getD idx default).memory.isSome →
    (tensorData'.getD idx default).memory.isSome
  supplied : ∀ input ∈ inputs, ∀ idx, info.ensembleInputToTensor.find input.name = some idx →
    (request.inputBuffer.find input.name).isSome → (tensorData'.getD idx default).memory.isSome

theorem setInputs_spec {request : EnsembleRequest} {inputs : List InferInput}
    {tensorData tensorData' : List TensorData} {status status' : Status}
    (hlt : ∀ name idx, info.ensembleInputToTensor.find name = some idx → idx < tensorData.length)
    (h : setInputs info request inputs tensorData status = (tensorData', status')) :
    Supplies info request inputs tensorData tensorData' ∧
      ((∀ input ∈ inputs, (info.ensembleInputToTensor.find input.name).isSome) →
        status' = status) := by
  induction inputs generalizing tensorData status with
  | nil =>
    obtain ⟨rfl, rfl⟩ := Prod.mk.inj h
    exact ⟨⟨rfl, fun _ _ => rfl, fun _ h => h, fun _ h => absurd h List.not_mem_nil⟩, fun _ => rfl⟩
  | cons input inputs ih =>
    unfold setInputs at h
    split at h
    · next idx hidx =>
      have hidx_lt := hlt input.name idx hidx
      simp only at h
      generalize hmemory : (request.inputBuffer.lookup input.name).or
        (tensorData.getD idx default).memory = memory at h
      have hget := getD_set hidx_lt { input := input, memory := memory }
      obtain ⟨hsupplies, hstatus⟩ := ih (fun name idx' hname => by
        rw [List.length_set]
        exact hlt name idx' hname) h
      refine ⟨⟨hsupplies.length.trans List.length_set, fun idx' hother => ?_, fun idx' hset => ?_,
        fun input' hinput' => ?_⟩, fun hall => hstatus (List.forall_mem_cons.mp hall).2⟩
      · have hne : idx' ≠ idx := fun heq => hother input.name (heq ▸ hidx)
        rw [hsupplies.other idx' hother, hget, if_neg hne]
      · refine hsupplies.kept idx' ?_
        rw [hget]
        split
        · next heq =>
          rw [← hmemory, Option.isSome_or, ← heq, hset, Bool.or_true]
        · exact hset
      · rcases List.mem_cons.mp hinput' with rfl | hinput'
        · intro idx' hidx' hbuffer
          refine hsupplies.kept idx' ?_
          rw [hget, if_pos (Option.some.inj (hidx'.symm.trans hidx)), ← hmemory, Option.isSome_or,
            show (request.inputBuffer.lookup _).isSome = true from hbuffer, Bool.true_or]
        · exact hsupplies.supplied input' hinput'
    · next hnone =>
      obtain ⟨hsupplies, -⟩ := ih hlt h
      refine ⟨⟨hsupplies.length, hsupplies.other, hsupplies.kept, fun input' hinput' => ?_⟩,
        fun hall => ?_⟩
      · rcases List.mem_cons.mp hinput' with rfl | hinput'
        · intro idx hidx
          cases hnone.symm.trans hidx
        · exact hsupplies.supplied input' hinput'
      · have hsome := hall input List.mem_cons_self
        rw [show info.ensembleInputToTensor.find input.name = none from hnone] at hsome
        cases hsome

/-- The tensors before the loop over the inputs. -/
def unset (info : EnsembleInfo) : List TensorData :=
  List.replicate info.tensorToStep.length default

theorem getD_unset (info : EnsembleInfo) (idx : Nat) : (unset info).getD idx default = default := by
  rw [unset, List.getD_eq_getElem?_getD, List.getElem?_replicate]
  split
  · rfl
  · rfl

variable (info server) in
/-- What the constructor does to the tensors when it has got the handles. -/
theorem create_supplies (request : EnsembleRequest)
    (hhandles : (createHandles server info.steps []).isOk) :
    Supplies info request request.header.input (unset info)
        (create info server request).tensorData ∧
      ((∀ input ∈ request.header.input,
          (info.ensembleInputToTensor.find input.name).isSome) →
        (create info server request).ensembleStatus.isOk) := by
  have hlt : ∀ name idx, info.ensembleInputToTensor.find name = some idx →
      idx < (unset info).length := fun name idx hname => by
    rw [unset, List.length_replicate]
    exact info.inputs_lt ⟨name, idx⟩ (AList.mem_lookup_iff.mp hname)
  unfold create
  generalize createHandles server info.steps [] = status at hhandles
  simp only [hhandles, if_true]
  generalize hset : setInputs info request request.header.input
    (List.replicate info.tensorToStep.length default) status = result
  obtain ⟨tensorData, status'⟩ := result
  obtain ⟨hsupplies, hstatus⟩ := setInputs_spec hlt hset
  exact ⟨hsupplies, fun hall => (hstatus hall).symm ▸ hhandles⟩

variable (info server) in
/-- The tensors that no ensemble input maps to are unset. -/
theorem create_tensorData (request : EnsembleRequest) :
    (create info server request).tensorData.length = info.tensorToStep.length ∧
      ∀ idx, (∀ name, info.ensembleInputToTensor.find name ≠ some idx) →
        (create info server request).tensor idx = default := by
  rcases Bool.eq_false_or_eq_true (createHandles server info.steps []).isOk with hhandles | hfail
  · obtain ⟨hsupplies, -⟩ := create_supplies info server request hhandles
    exact ⟨hsupplies.length.trans List.length_replicate, fun idx hother =>
      (hsupplies.other idx hother).trans (getD_unset info idx)⟩
  · have hunset : (create info server request).tensorData = unset info := by
      unfold create
      simp only [hfail, Bool.false_eq_true, if_false]
      rfl
    unfold tensor
    rw [hunset]
    exact ⟨List.length_replicate, fun idx _ => getD_unset info idx⟩

/-! ## The tensors of a completed step -/

/-- The context `ctx'` has the data of the tensors `updated` set besides, which the step
writes. -/
structure Writes (stepInfo : StepInfo) (ctx ctx' : EnsembleContext) (updated : List Nat) :
    Prop where
  length : ctx'.tensorData.length = ctx.tensorData.length
  request : ctx'.request = ctx.request
  mapped : ∀ idx ∈ updated, ∃ key, stepInfo.outputToTensor.find key = some idx
  isSet : ∀ idx, ctx'.IsSet idx ↔ ctx.IsSet idx ∨ idx ∈ updated

/-- The context `ctx'` has the tensors of `ctx`. -/
theorem Writes.same {stepInfo : StepInfo} {ctx ctx' : EnsembleContext}
    (hdata : ctx'.tensorData = ctx.tensorData) (hrequest : ctx'.request = ctx.request) :
    Writes stepInfo ctx ctx' [] where
  length := by rw [hdata]
  request := hrequest
  mapped _ h := absurd h List.not_mem_nil
  isSet idx := by
    unfold IsSet tensor
    rw [hdata]
    exact (or_iff_left List.not_mem_nil).symm

theorem Writes.trans {stepInfo : StepInfo} {ctx ctx' ctx'' : EnsembleContext}
    {updated updated' : List Nat} (h : Writes stepInfo ctx ctx' updated)
    (h' : Writes stepInfo ctx' ctx'' updated') :
    Writes stepInfo ctx ctx'' (updated ++ updated') where
  length := h'.length.trans h.length
  request := h'.request.trans h.request
  mapped idx hidx := (List.mem_append.mp hidx).elim (h.mapped idx) (h'.mapped idx)
  isSet idx := by rw [h'.isSet, h.isSet, List.mem_append, or_assoc]

/-- One tensor that the step writes is set. -/
theorem writes_set {stepInfo : StepInfo} {ctx ctx' : EnsembleContext} {key : String} {idx : Nat}
    {data : TensorData} (hkey : stepInfo.outputToTensor.find key = some idx)
    (hlt : idx < ctx.tensorData.length) (h : ctx'.tensorData = ctx.tensorData.set idx data)
    (hrequest : ctx'.request = ctx.request) (hdata : data.memory.isSome) :
    Writes stepInfo ctx ctx' [idx] where
  length := by rw [h, List.length_set]
  request := hrequest
  mapped idx' hidx' := ⟨key, List.mem_singleton.mp hidx' ▸ hkey⟩
  isSet idx' := by
    rw [IsSet, tensor_set h hlt, List.mem_singleton]
    split
    · next heq => exact iff_of_true hdata (.inr heq)
    · next hne => exact (or_iff_left hne).symm

/-- What the loop over the outputs of a response sets. -/
theorem setOutputs_writes {stepInfo : StepInfo} {response : StepResponse}
    {outputs : List ResponseOutput} {ctx ctx' : EnsembleContext} {updated updated' : List Nat}
    {status : Status}
    (hlt : ∀ key idx, stepInfo.outputToTensor.find key = some idx → idx < ctx.tensorData.length)
    (h : setOutputs stepInfo response outputs ctx updated = (status, ctx', updated')) :
    ∃ new, updated' = updated ++ new ∧ Writes stepInfo ctx ctx' new := by
  induction outputs generalizing ctx updated with
  | nil =>
    obtain ⟨-, rfl, rfl⟩ := h
    exact ⟨[], (List.append_nil _).symm, .same rfl rfl⟩
  | cons output outputs ih =>
    unfold setOutputs at h
    split at h
    · obtain ⟨-, rfl, rfl⟩ := h
      exact ⟨[], (List.append_nil _).symm, .same rfl rfl⟩
    · next dims batchByteSize hraw =>
      split at h
      · obtain ⟨-, rfl, rfl⟩ := h
        exact ⟨[], (List.append_nil _).symm, .same rfl rfl⟩
      · next idx hidx =>
        have hidx_lt := hlt output.name idx hidx
        simp only at h
        split at h
        · -- the size is stated, but there are no data
          obtain ⟨-, rfl, rfl⟩ := h
          refine ⟨[], (List.append_nil _).symm, List.length_set, rfl,
            fun _ hmem => absurd hmem List.not_mem_nil, fun idx' => ?_⟩
          rw [or_iff_left List.not_mem_nil, IsSet, tensor_set rfl hidx_lt]
          split
          · next heq => rw [heq]; exact Iff.rfl
          · exact Iff.rfl
        · next memory hmemory =>
          obtain ⟨hdata, hrequest⟩ := setLabel_tensorData response output.name idx
            { ctx with
              tensorData := ctx.tensorData.set idx
                { input := { (ctx.tensor idx).input with
                    dims := dims, batchByteSize := batchByteSize }
                  memory := some memory } }
          have hset := writes_set hidx hidx_lt hdata hrequest rfl
          obtain ⟨new, hnew, hwrites⟩ := ih (fun key idx' hkey => hset.length ▸ hlt key idx' hkey) h
          exact ⟨idx :: new, hnew.trans (List.append_assoc ..), hset.trans hwrites⟩

/-- The tensors that a step writes exist. -/
theorem output_lt {stepIdx : Nat} {key : String} {idx : Nat}
    (hkey : (info.step stepIdx).outputToTensor.find key = some idx) :
    idx < info.tensorToStep.length := by
  have hmem : (⟨key, idx⟩ : Σ _ : String, Nat) ∈
      (info.step stepIdx).inputToTensor.entries ++ (info.step stepIdx).outputToTensor.entries :=
    List.mem_append_right _ (AList.mem_lookup_iff.mp hkey)
  rcases Nat.lt_or_ge stepIdx info.steps.length with hstep | hstep
  · refine info.steps_lt _ ?_ _ hmem
    unfold EnsembleInfo.step
    rw [List.getD_eq_getElem _ _ hstep]
    exact List.getElem_mem hstep
  · unfold EnsembleInfo.step at hkey
    rw [List.getD_eq_default _ _ hstep] at hkey
    cases hkey

/-- What `UpdateEnsembleState` sets for a completed step. -/
theorem updateEnsembleState_writes {step : Step} {response : StepResponse}
    {ctx ctx' : EnsembleContext} {updated : List Nat} {status : Status}
    (hlength : ctx.tensorData.length = info.tensorToStep.length)
    (h : updateEnsembleState info (some (step, response)) ctx = (status, ctx', updated)) :
    Writes (info.step step.stepIdx) ctx ctx' updated := by
  have hlt : ∀ key idx, (info.step step.stepIdx).outputToTensor.find key = some idx →
      idx < ctx.tensorData.length := fun key idx hkey => hlength ▸ output_lt hkey
  simp only [updateEnsembleState] at h
  split at h
  · obtain ⟨-, rfl, rfl⟩ := h
    exact .same rfl rfl
  · split at h
    · obtain ⟨-, rfl, rfl⟩ := h
      exact .same rfl rfl
    · obtain ⟨new, rfl, hwrites⟩ := setOutputs_writes (by exact hlt) h
      have hcounted : Writes (info.step step.stepIdx) ctx
          { ctx with inflightStepCounter := decrement ctx.inflightStepCounter } [] := .same rfl rfl
      exact hcounted.trans hwrites

/-! ## The steps that are prepared -/

theorem nodup_setInsert {idx : Nat} {set : List Nat} (h : set.Nodup) :
    (setInsert idx set).Nodup := by
  unfold setInsert
  split
  · exact h
  · next hnot =>
    exact (List.perm_orderedInsert (· ≤ ·) idx set).nodup_iff.mpr (List.nodup_cons.mpr ⟨hnot, h⟩)

variable (info) in
/-- The loop over the readers of one tensor. -/
theorem readySteps_spec (ctx : EnsembleContext) (idxs : List Nat) {set : List Nat}
    (hset : set.Nodup) :
    (idxs.foldl (fun set idx => if stepReady info ctx idx then setInsert idx set else set)
      set).Nodup ∧
    ∀ b, b ∈ idxs.foldl (fun set idx => if stepReady info ctx idx then setInsert idx set else set)
      set ↔ b ∈ set ∨ b ∈ idxs ∧ stepReady info ctx b := by
  induction idxs generalizing set with
  | nil => exact ⟨hset, fun b => by simp⟩
  | cons idx idxs ih =>
    rw [List.foldl_cons]
    split
    · next hready =>
      refine ⟨(ih (nodup_setInsert hset)).1, fun b => ?_⟩
      rw [(ih (nodup_setInsert hset)).2, Layout.mem_setInsert, List.mem_cons]
      constructor
      · rintro ((rfl | hb) | ⟨hb, hready'⟩)
        · exact .inr ⟨.inl rfl, hready⟩
        · exact .inl hb
        · exact .inr ⟨.inr hb, hready'⟩
      · rintro (hb | ⟨rfl | hb, hready'⟩)
        · exact .inl (.inr hb)
        · exact .inl (.inl rfl)
        · exact .inr ⟨hb, hready'⟩
    · next hnot =>
      refine ⟨(ih hset).1, fun b => ?_⟩
      rw [(ih hset).2, List.mem_cons]
      refine or_congr_right ⟨fun ⟨hb, hready⟩ => ⟨.inr hb, hready⟩, ?_⟩
      rintro ⟨rfl | hb, hready⟩
      · exact absurd hready hnot
      · exact ⟨hb, hready⟩

/-- The steps that are prepared: each reads an updated tensor, and has all inputs set. -/
theorem nextStepIdx_spec (updated : List Nat) (ctx : EnsembleContext) :
    (nextStepIdx info updated ctx).Nodup ∧ ∀ b, b ∈ nextStepIdx info updated ctx ↔
      (∃ idx ∈ updated, b ∈ info.tensorToStep.getD idx []) ∧ stepReady info ctx b := by
  have hloop : ∀ set : List Nat, set.Nodup →
      (updated.foldl (fun set tensorIdx => (info.tensorToStep.getD tensorIdx []).foldl
        (fun set idx => if stepReady info ctx idx then setInsert idx set else set) set) set).Nodup ∧
      ∀ b, b ∈ updated.foldl (fun set tensorIdx => (info.tensorToStep.getD tensorIdx []).foldl
        (fun set idx => if stepReady info ctx idx then setInsert idx set else set) set) set ↔
          b ∈ set ∨ (∃ idx ∈ updated, b ∈ info.tensorToStep.getD idx []) ∧
            stepReady info ctx b := by
    induction updated with
    | nil => exact fun set hset => ⟨hset, fun b => by simp⟩
    | cons idx updated ih =>
      intro set hset
      obtain ⟨hnodup, hmem⟩ := readySteps_spec info ctx (info.tensorToStep.getD idx []) hset
      refine ⟨(ih _ hnodup).1, fun b => ?_⟩
      rw [List.foldl_cons, (ih _ hnodup).2, hmem, or_assoc, ← or_and_right]
      refine or_congr_right (and_congr_left' ?_)
      simp only [List.mem_cons, exists_eq_or_imp]
  refine ⟨(hloop [] List.nodup_nil).1, fun b => ?_⟩
  have := (hloop [] List.nodup_nil).2 b
  rwa [or_iff_right List.not_mem_nil] at this

theorem initStep_stepIdx (ctx : EnsembleContext) (idx : Nat) :
    (initStep info server ctx idx).2.stepIdx = idx := by
  unfold initStep
  simp only
  split
  · rfl
  · rfl

theorem initSteps_stepIdx (ctx : EnsembleContext) (idxs : List Nat)
    (h : (initSteps info server ctx idxs).1.isOk) :
    (initSteps info server ctx idxs).2.map (·.stepIdx) = idxs := by
  induction idxs with
  | nil => rfl
  | cons idx idxs ih =>
    unfold initSteps at h ⊢
    simp only at h ⊢
    split at h
    · next hfail =>
      rw [h] at hfail
      cases hfail
    · next hok =>
      rw [if_neg hok, List.map_cons, initStep_stepIdx, ih h]

/-- What `GetNextSteps` leaves alone, and the steps that it returns when it succeeds. -/
theorem getNextSteps_spec {updated : List Nat} {ctx ctx' : EnsembleContext} {status : Status}
    {steps : List Step} (h : getNextSteps info server updated ctx = (status, ctx', steps)) :
    ctx'.tensorData = ctx.tensorData ∧ ctx'.request = ctx.request ∧
      (status.isOk → steps.map (·.stepIdx) = nextStepIdx info updated ctx) := by
  unfold getNextSteps at h
  simp only at h
  split at h
  · next hfail =>
    obtain ⟨rfl, rfl, rfl⟩ := h
    refine ⟨rfl, rfl, fun hok => ?_⟩
    rw [hok] at hfail
    cases hfail
  · next hok =>
    obtain ⟨rfl, rfl, rfl⟩ := h
    exact ⟨rfl, rfl, fun _ => initSteps_stepIdx _ _ (by simpa using hok)⟩

variable (info server) in
theorem checkAndSetOutputs_tensorData (outputs : List (Σ _ : String, Nat)) (ctx : EnsembleContext) :
    (checkAndSetOutputs info server outputs ctx).2.tensorData = ctx.tensorData := by
  obtain ⟨buffers, hctx⟩ := checkAndSetOutputs_frame info server outputs ctx
  rw [hctx]

variable (info server) in
theorem finishEnsemble_tensorData (ctx : EnsembleContext) :
    (finishEnsemble info server ctx).tensorData = ctx.tensorData := by
  unfold finishEnsemble
  simp only
  split
  · exact checkAndSetOutputs_tensorData info server _ ctx
  · rfl

/-- What `PrepareSteps` does to the tensors, and which steps it returns: what
`UpdateEnsembleState` sets, and all steps that this makes ready, or none of them. -/
theorem advance_spec {completed : Option (Step × StepResponse)} {ctx ctx' : EnsembleContext}
    {readySteps : List Step} (h : advance info server completed ctx = (ctx', readySteps)) :
    let update := updateEnsembleState info completed ctx
    ctx'.tensorData = update.2.1.tensorData ∧
      (readySteps = [] ∨
        readySteps.map (·.stepIdx) = nextStepIdx info update.2.2 update.2.1) := by
  unfold advance at h
  generalize updateEnsembleState info completed ctx = update at h ⊢
  obtain ⟨status, ctx₁, updated⟩ := update
  simp only at h ⊢
  generalize hnext : (if status.isOk then getNextSteps info server updated ctx₁
    else (status, ctx₁, [])) = next at h
  obtain ⟨status', ctx₂, res⟩ := next
  have hres : ctx₂.tensorData = ctx₁.tensorData ∧
      (status'.isOk → res.map (·.stepIdx) = nextStepIdx info updated ctx₁) := by
    split at hnext
    · obtain ⟨hdata, -, hsteps⟩ := getNextSteps_spec hnext
      exact ⟨hdata, hsteps⟩
    · next hfail =>
      obtain ⟨rfl, rfl, rfl⟩ := hnext
      exact ⟨rfl, fun hok => absurd hok hfail⟩
  simp only at h
  split at h
  · obtain ⟨rfl, rfl⟩ := h
    exact ⟨(finishEnsemble_tensorData info server _).trans hres.1, .inl rfl⟩
  · next hopen =>
    obtain ⟨rfl, rfl⟩ := h
    refine ⟨hres.1, .inr (hres.2 ?_)⟩
    simp only [Bool.or_eq_true, Bool.not_eq_eq_eq_not, Bool.not_true, not_or,
      Bool.not_eq_false] at hopen
    exact hopen.1

/-- A call of `PrepareSteps` changes nothing, or it advances an ensemble that has not failed. -/
theorem prepareSteps_cases {completed : Option (Step × StepResponse)} {ctx ctx' : EnsembleContext}
    {readySteps : List Step} (h : prepareSteps info server completed ctx = (ctx', readySteps)) :
    (¬ ctx.ensembleStatus.isOk ∧ ctx'.tensorData = ctx.tensorData ∧ readySteps = []) ∨
      ctx.ensembleStatus.isOk ∧ advance info server completed ctx = (ctx', readySteps) := by
  unfold prepareSteps at h
  rcases Bool.eq_false_or_eq_true ctx.ensembleStatus.isOk with hok | hfail
  · simp only [hok, Bool.not_true, Bool.and_false, Bool.false_eq_true, if_false, if_true] at h
    exact .inr ⟨hok, h⟩
  · have hnot : ¬ ctx.ensembleStatus.isOk := by rw [hfail]; decide
    refine .inl ⟨hnot, ?_⟩
    cases completed with
    | none =>
      have hfinish : ¬ (finishEnsemble info server ctx).ensembleStatus.isOk := fun hok =>
        hnot ((finishEnsemble_progress info server ctx).2.2 hok)
      simp only [Option.isNone_none, hfail, Bool.not_false, Bool.and_self, if_true, hfinish] at h
      obtain ⟨rfl, rfl⟩ := h
      exact ⟨finishEnsemble_tensorData info server ctx, rfl⟩
    | some completed =>
      simp only [Option.isNone_some, Bool.false_and, Bool.false_eq_true, if_false, hnot] at h
      obtain ⟨rfl, rfl⟩ := h
      exact ⟨rfl, rfl⟩

end

end EnsembleContext

end FinBert.Ensemble
