import FinBert.Custom.Backend

/-!
# The identity library

The library of `identity.cc` copies each input to the output that has the same number: `INPUTn` to
`OUTPUTn`. It reads an input in contents of at most 128 KiB, or of the blocks that it is stored in,
and does not look at the size of the buffer that it copies to.

Result: `copyMap_spec`: the outputs that a context knows, and their inputs.
-/

namespace FinBert.Custom.Identity

open FinBert.Serving BackendPayload

/-! ## Error codes -/

/-- `ErrorCodes`. -/
inductive ErrorCodes
  | kSuccess
  | kUnknown
  | kInvalidModelConfig
  | kGpuNotSupported
  | kInputOutput
  | kInputOutputName
  | kInputOutputDataType
  | kInputContents
  | kInputSize
  | kRequestOutput
  | kOutputBuffer
deriving DecidableEq

/-- The enumerators are numbered from 0 on. -/
def ErrorCodes.number (code : ErrorCodes) : Int := code.ctorIdx

/-- `CustomErrorString`. -/
def customErrorString (errcode : Int) : String :=
  if errcode = ErrorCodes.kSuccess.number then "success"
  else if errcode = ErrorCodes.kInvalidModelConfig.number then "invalid model configuration"
  else if errcode = ErrorCodes.kGpuNotSupported.number then "execution on GPU not supported"
  else if errcode = ErrorCodes.kInputOutput.number then
    "model must have equal input/output pairs with matching shape"
  else if errcode = ErrorCodes.kInputOutputName.number then
    "model input/output pairs must be named 'INPUTn' and 'OUTPUTn'"
  else if errcode = ErrorCodes.kInputOutputDataType.number then
    "model input/output pairs must have same data-type"
  else if errcode = ErrorCodes.kInputContents.number then "unable to get input tensor values"
  else if errcode = ErrorCodes.kInputSize.number then "unexpected size for input tensor"
  else if errcode = ErrorCodes.kRequestOutput.number then "inference request for unknown output"
  else if errcode = ErrorCodes.kOutputBuffer.number then
    "unable to get buffer for output tensor values"
  else "unknown error"

/-! ## `Context` -/

/-- `CopyInfo`. -/
structure CopyInfo where
  inputName : String
  datatype : DataType

/-- `Context`. -/
structure Context where
  modelConfig : ModelConfig
  gpuDevice : Int
  copyMap : UnorderedMap String CopyInfo := ∅

/-- `CUSTOM_NO_GPU_DEVICE`. -/
def CUSTOM_NO_GPU_DEVICE : Int := -1

/-- The names are `INPUTn` and `OUTPUTn`. -/
def Paired (inputName outputName : String) : Prop :=
  inputName.toList.take 5 = "INPUT".toList ∧ outputName.toList.take 6 = "OUTPUT".toList ∧
    inputName.toList.drop 5 = outputName.toList.drop 6

instance (inputName outputName : String) : Decidable (Paired inputName outputName) :=
  inferInstanceAs (Decidable (_ ∧ _))

/-- The loop of `Init` over the inputs and the outputs. -/
def initLoop :
    List (ModelInput × ModelOutput) → UnorderedMap String CopyInfo →
      ErrorCodes × UnorderedMap String CopyInfo
  | [], copyMap => (.kSuccess, copyMap)
  | (input, output) :: pairs, copyMap =>
    if !compareDims (input.reshape.getD input.dims) (output.reshape.getD output.dims) then
      (.kInputOutput, copyMap)
    else if input.dataType ≠ output.dataType then (.kInputOutputDataType, copyMap)
    else if ¬ Paired input.name output.name then (.kInputOutputName, copyMap)
    else
      initLoop pairs
        (copyMap.insert output.name { inputName := input.name, datatype := output.dataType })

/-- `Context::Init`. -/
def Context.init (context : Context) : ErrorCodes × Context :=
  if context.gpuDevice ≠ CUSTOM_NO_GPU_DEVICE then (.kGpuNotSupported, context)
  else if context.modelConfig.input.length ≠ context.modelConfig.output.length then
    (.kInputOutput, context)
  else
    let (err, copyMap) :=
      initLoop (context.modelConfig.input.zip context.modelConfig.output) context.copyMap
    (err, { context with copyMap := copyMap })

/-! ## `Execute` -/

section
variable {κ ρ : Type} [BackendPayload κ ρ]

/-- The loop that copies an input to the buffer of an output, with at most `calls` calls. -/
def copyInput (inputName : String) (obuffer : ρ) : Nat → Nat → κ → ErrorCodes × κ
  | 0, _, payload => (.kInputContents, payload)
  | calls + 1, totalByteSize, payload =>
    match inputFn payload inputName (128 * 1024) with
    | (none, payload) => (.kInputContents, payload)
    | (some none, payload) => (.kSuccess, payload)
    | (some (some content), payload) =>
      copyInput inputName obuffer calls (totalByteSize + content.length)
        (memcpy payload obuffer totalByteSize content)

/-- The shape of the output that an input is copied to. -/
def Context.outputShape (context : Context) (payload : CustomPayload κ) (inputName : String) :
    List Int :=
  (if context.modelConfig.maxBatchSize ≠ 0 then [(payload.batchSize : Int)] else []) ++
    ((payload.inputs.find? (·.1 == inputName)).map Prod.snd).getD []

/-- The body of the loop over the outputs of a payload. -/
def Context.executeOutput (context : Context) (payload : CustomPayload κ) (outputName : String) :
    CustomPayload κ :=
  match context.copyMap.lookup outputName with
  | none => { payload with errorCode := ErrorCodes.kRequestOutput.number }
  | some info =>
    let shape := context.outputShape payload info.inputName
    let batchnByteSize := getByteSize info.datatype shape
    if batchnByteSize < 0 then { payload with errorCode := ErrorCodes.kOutputBuffer.number }
    else
      match outputFn payload.context outputName shape batchnByteSize.toNat with
      | (none, payloadContext) =>
        { payload with context := payloadContext, errorCode := ErrorCodes.kOutputBuffer.number }
      | (some none, payloadContext) => { payload with context := payloadContext }
      | (some (some obuffer), payloadContext) =>
        let (err, payloadContext) :=
          copyInput info.inputName obuffer (blocksLeft payloadContext info.inputName + 2) 0
            payloadContext
        { payload with context := payloadContext, errorCode := err.number }

/-- The loop over the outputs of a payload. -/
def Context.executeOutputs (context : Context) : List String → CustomPayload κ → CustomPayload κ
  | [], payload => payload
  | outputName :: outputNames, payload =>
    if payload.errorCode ≠ 0 then payload
    else context.executeOutputs outputNames (context.executeOutput payload outputName)

/-- `Context::Execute`. -/
def Context.execute (context : Context) (payloads : List (CustomPayload κ)) :
    Int × List (CustomPayload κ) × Context :=
  (ErrorCodes.kSuccess.number,
    payloads.map fun payload => context.executeOutputs payload.requiredOutputNames payload, context)

/-- The functions of the library. -/
def library : Library Context κ where
  execute := Context.execute
  errorString err := some (customErrorString err)

end

/-! ## What a context knows -/

/-- An output belongs to one input. -/
theorem Paired.inj_left {input input' output : String} (h : Paired input output)
    (h' : Paired input' output) : input = input' := by
  refine String.toList_inj.mp ?_
  rw [← List.take_append_drop 5 input.toList, ← List.take_append_drop 5 input'.toList, h.1, h'.1,
    h.2.2, h'.2.2]

/-- An input belongs to one output. -/
theorem Paired.inj_right {input output output' : String} (h : Paired input output)
    (h' : Paired input output') : output = output' := by
  refine String.toList_inj.mp ?_
  rw [← List.take_append_drop 6 output.toList, ← List.take_append_drop 6 output'.toList, h.2.1,
    h'.2.1, ← h.2.2, ← h'.2.2]

/-- What `Init` has checked of an input and its output. -/
structure Matches (input : ModelInput) (output : ModelOutput) : Prop where
  dims : input.reshape.getD input.dims = output.reshape.getD output.dims
  dataType : input.dataType = output.dataType
  names : Paired input.name output.name

/-- The outputs of the pairs get their inputs. -/
theorem initLoop_spec {pairs : List (ModelInput × ModelOutput)}
    {copyMap copyMap' : UnorderedMap String CopyInfo} (hnames : (pairs.map (·.1.name)).Nodup)
    (h : initLoop pairs copyMap = (.kSuccess, copyMap')) :
    (∀ p ∈ pairs, Matches p.1 p.2 ∧
        copyMap'.lookup p.2.name = some { inputName := p.1.name, datatype := p.2.dataType }) ∧
      ∀ name, name ∉ pairs.map (·.2.name) → copyMap'.lookup name = copyMap.lookup name := by
  induction pairs generalizing copyMap with
  | nil =>
    obtain ⟨-, rfl⟩ := Prod.mk.inj h
    exact ⟨fun p hp => absurd hp List.not_mem_nil, fun _ _ => rfl⟩
  | cons p pairs ih =>
    obtain ⟨input, output⟩ := p
    rw [List.map_cons, List.nodup_cons] at hnames
    unfold initLoop at h
    split at h
    · cases (Prod.mk.inj h).1
    · next hdims =>
      split at h
      · cases (Prod.mk.inj h).1
      · next htype =>
        split at h
        · cases (Prod.mk.inj h).1
        · next hpaired =>
          obtain ⟨hall, hothers⟩ := ih hnames.2 h
          have hmatches : Matches input output :=
            ⟨by simpa [compareDims] using hdims, not_not.mp htype, not_not.mp hpaired⟩
          -- a later output of the same name would belong to the same input
          have hfresh : output.name ∉ pairs.map (·.2.name) := by
            intro hmem
            obtain ⟨p, hp, heq⟩ := List.mem_map.mp hmem
            refine hnames.1 (List.mem_map.mpr ⟨p, hp, ?_⟩)
            exact (hall p hp).1.names.inj_left (heq ▸ hmatches.names)
          refine ⟨List.forall_mem_cons.mpr ⟨⟨hmatches, ?_⟩, hall⟩, fun name hname => ?_⟩
          · rw [hothers _ hfresh, AList.lookup_insert]
          · rw [List.map_cons, List.mem_cons, not_or] at hname
            rw [hothers name hname.2, AList.lookup_insert_ne hname.1]

/-- The outputs that a context knows behind `Init`, with their inputs. -/
theorem copyMap_spec {context context' : Context}
    (hnames : context.modelConfig.inputNames.Nodup)
    (h : context.init = (.kSuccess, context')) :
    context'.modelConfig = context.modelConfig ∧
      context.modelConfig.input.length = context.modelConfig.output.length ∧
      ∀ p ∈ context.modelConfig.input.zip context.modelConfig.output, Matches p.1 p.2 ∧
        context'.copyMap.lookup p.2.name =
          some { inputName := p.1.name, datatype := p.2.dataType } := by
  unfold Context.init at h
  split at h
  · cases (Prod.mk.inj h).1
  · split at h
    · cases (Prod.mk.inj h).1
    · next hlength =>
      have hlength := not_not.mp hlength
      generalize hloop : initLoop (context.modelConfig.input.zip context.modelConfig.output)
        context.copyMap = result at h
      obtain ⟨err, copyMap⟩ := result
      obtain ⟨rfl, rfl⟩ := Prod.mk.inj h
      refine ⟨rfl, hlength, (initLoop_spec ?_ hloop).1⟩
      have hmap : (context.modelConfig.input.zip context.modelConfig.output).map (·.1.name) =
          context.modelConfig.inputNames := by
        rw [ModelConfig.inputNames, ← congrArg (List.map (·.name)) (List.map_fst_zip hlength.le),
          List.map_map]
        rfl
      rw [hmap]
      exact hnames

/-- Outputs of inputs with different names have different names. -/
theorem outputNames_nodup {config : ModelConfig} (hnames : config.inputNames.Nodup)
    (hlength : config.input.length = config.output.length)
    (hmatches : ∀ p ∈ config.input.zip config.output, Matches p.1 p.2) :
    (config.output.map (·.name)).Nodup := by
  have hinputs : ((config.input.zip config.output).map (·.1.name)).Nodup := by
    rw [ModelConfig.inputNames, ← List.map_fst_zip hlength.le, List.map_map] at hnames
    exact hnames
  have houtputs : ((config.input.zip config.output).map (·.2.name)).Nodup := by
    rw [List.Nodup, List.pairwise_map] at hinputs ⊢
    refine hinputs.imp_of_mem fun hp hq hne heq => hne ?_
    exact (hmatches _ hp).names.inj_left (heq ▸ (hmatches _ hq).names)
  rw [← List.map_snd_zip hlength.ge, List.map_map]
  exact houtputs

end FinBert.Custom.Identity
