import FinBert.Serving.EnsembleGraph

/-!
# Normalization and validation of a model configuration

`GetNormalizedModelConfig` behind the part that reads or autofills the file, and
`ValidateModelConfig`, of `model_config_utils.cc`. What `cudaGetDeviceCount` returns is an
argument.

Results:
1. `ValidTensor`: what an accepted input or output looks like.
2. `platform_of_validateModelConfig`: a configuration that is accepted for a platform names
   this platform.
3. `accepted_of_validateModelConfig`: the steps of an accepted ensemble.
-/

namespace FinBert.Serving

/-- What `cudaGetDeviceCount` returns. -/
inductive CudaDeviceCount
  | success (count : Nat)
  | noDevice
  | error (message : String)

/-- The number of devices, or a failure with the text of the error. -/
def CudaDeviceCount.get (failure : String) : CudaDeviceCount → Except Status Nat
  | .success count => .ok count
  | .noDevice => .ok 0
  | .error message => .error { code := .internal, message := failure ++ ": " ++ message }

/-! ## `GetNormalizedModelConfig` -/

def kTensorRTPlanFilename : String := "model.plan"
def kTensorFlowGraphDefFilename : String := "model.graphdef"
def kTensorFlowSavedModelFilename : String := "model.savedmodel"
def kCaffe2NetDefFilename : String := "model.netdef"
def kPyTorchLibTorchFilename : String := "model.pt"
def kCustomFilename : String := "libcustom.so"
def kOnnxRuntimeOnnxFilename : String := "model.onnx"

def SEQUENCE_IDLE_DEFAULT_MICROSECONDS : Nat := 1000 * 1000

/-- The default of `default_model_filename`; the only place that knows every platform. -/
def normalizeFilename (config : ModelConfig) : Except Status ModelConfig :=
  if config.defaultModelFilename.isEmpty then
    if config.platform = kTensorFlowGraphDefPlatform then
      .ok { config with defaultModelFilename := kTensorFlowGraphDefFilename }
    else if config.platform = kTensorFlowSavedModelPlatform then
      .ok { config with defaultModelFilename := kTensorFlowSavedModelFilename }
    else if config.platform = kTensorRTPlanPlatform then
      .ok { config with defaultModelFilename := kTensorRTPlanFilename }
    else if config.platform = kCaffe2NetDefPlatform then
      .ok { config with defaultModelFilename := kCaffe2NetDefFilename }
    else if config.platform = kCustomPlatform then
      .ok { config with defaultModelFilename := kCustomFilename }
    else if config.platform = kEnsemblePlatform then .ok config
    else if config.platform = kOnnxRuntimeOnnxPlatform then
      .ok { config with defaultModelFilename := kOnnxRuntimeOnnxFilename }
    else if config.platform = kPyTorchLibTorchPlatform then
      .ok { config with defaultModelFilename := kPyTorchLibTorchFilename }
    else
      .error { code := .internal,
               message := "unexpected platform type " ++ config.platform ++ " for " ++ config.name }
  else .ok config

/-- The default of the version policy. -/
def normalizeVersionPolicy (config : ModelConfig) : ModelConfig :=
  match config.versionPolicy with
  | none => { config with versionPolicy := some (.latest 1) }
  | some _ => config

/-- The defaults of the scheduling choice. -/
def normalizeScheduling (config : ModelConfig) : ModelConfig :=
  match config.scheduling with
  | .dynamicBatching batching =>
    if batching.preferredBatchSize.isEmpty then
      { config with
        scheduling := .dynamicBatching
          { batching with
            preferredBatchSize := (if config.maxBatchSize ≥ 4 then [4] else []) ++
              (if config.maxBatchSize ≥ 8 then [8] else []) } }
    else config
  | .sequenceBatching batching =>
    if batching.maxSequenceIdleMicroseconds = 0 then
      { config with
        scheduling := .sequenceBatching
          { batching with maxSequenceIdleMicroseconds := SEQUENCE_IDLE_DEFAULT_MICROSECONDS } }
    else config
  | _ => config

/-- The kind of an instance group with `KIND_AUTO`: a GPU that is not there means the CPU. -/
def normalizeKind (deviceCnt : Nat) (group : ModelInstanceGroup) : InstanceKind :=
  match group.kind with
  | .auto =>
    if deviceCnt = 0 then .cpu
    else if group.gpus.any fun gid => gid.toInt < 0 || (deviceCnt : Int) ≤ gid.toInt then .cpu
    else .gpu
  | kind => kind

/-- The defaults of the instance group at index `cnt`. -/
def normalizeGroup (config : ModelConfig) (deviceCnt cnt : Nat) (group : ModelInstanceGroup) :
    ModelInstanceGroup :=
  let kind := normalizeKind deviceCnt group
  { name := if group.name.isEmpty then config.name ++ "_" ++ toString cnt else group.name
    kind := kind
    count := if group.count < 1 then 1 else group.count
    gpus := if kind = .gpu ∧ group.gpus.isEmpty then
        (List.range deviceCnt).map fun d => Int32.ofNat d
      else group.gpus }

/-- The defaults of the instance groups. -/
def normalizeGroups (cuda : CudaDeviceCount) (config : ModelConfig) : Except Status ModelConfig :=
  match config.scheduling with
  | .ensembleScheduling _ => .ok config
  | _ =>
    let groups :=
      if config.instanceGroup.isEmpty then [{ name := config.name }] else config.instanceGroup
    match cuda.get ("unable to get number of CUDA devices for " ++ config.name) with
    | .ok deviceCnt =>
      .ok { config with
            instanceGroup := groups.mapIdx fun cnt group =>
              normalizeGroup config deviceCnt cnt group }
    | .error status => .error status

/-- `GetNormalizedModelConfig` on the configuration that was read or autofilled. -/
def getNormalizedModelConfig (cuda : CudaDeviceCount) (config : ModelConfig) :
    Except Status ModelConfig :=
  if config.platform.isEmpty then
    .error { code := .invalidArg,
             message := "must specify platform for model '" ++ config.name ++ "'" }
  else
    match normalizeFilename config with
    | .ok config => normalizeGroups cuda (normalizeScheduling (normalizeVersionPolicy config))
    | .error status => .error status

/-! ## `GetSequenceControlProperties` -/

/-- What `GetSequenceControlProperties` returns besides its status. -/
structure ControlProperties where
  tensorName : String := ""
  tensorDatatype : DataType := .invalid
  fp32FalseTrue : Option (UInt32 × UInt32) := none
  int32FalseTrue : Option (Int32 × Int32) := none

/-- The values of a control of the kind that is looked for. -/
def controlValues (modelName tensorName : String) (c : Control) : Except Status ControlProperties :=
  let controlKind := c.kind.name
  if c.int32FalseTrue.length > 0 then
    if c.fp32FalseTrue.length ≠ 0 then
      .error { code := .invalidArg,
               message := "sequence batching specifies both 'int32_false_true' and " ++
                 "'fp32_false_true' for " ++ controlKind ++ " for " ++ modelName }
    else
      match c.int32FalseTrue with
      | [falseValue, trueValue] =>
        .ok { tensorName := tensorName, tensorDatatype := .int32,
              int32FalseTrue := some (falseValue, trueValue) }
      | _ =>
        .error { code := .invalidArg,
                 message := "sequence batching control 'int32_false_true' must have exactly 2 " ++
                   "entries for " ++ controlKind ++ " for " ++ modelName }
  else
    match c.fp32FalseTrue with
    | [] =>
      .error { code := .invalidArg,
               message := "sequence batching must specify either 'int32_false_true' or " ++
                 "'fp32_false_true' for " ++ controlKind ++ " for " ++ modelName }
    | [falseValue, trueValue] =>
      .ok { tensorName := tensorName, tensorDatatype := .fp32,
            fp32FalseTrue := some (falseValue, trueValue) }
    | _ =>
      .error { code := .invalidArg,
               message := "sequence batching control 'fp32_false_true' must have exactly 2 " ++
                 "entries for " ++ controlKind ++ " for " ++ modelName }

/-- The loop over the controls of a control input. `seenControl` is what the control of the
kind that is looked for says, when it was seen. -/
def seeControls (modelName tensorName : String) (controlKind : ControlKind) :
    List Control → Option ControlProperties → Except Status (Option ControlProperties)
  | [], seenControl => .ok seenControl
  | c :: controls, seenControl =>
    if c.kind ≠ controlKind then seeControls modelName tensorName controlKind controls seenControl
    else if seenControl.isSome then
      .error { code := .invalidArg,
               message := "sequence batching specifies multiple " ++ controlKind.name ++
                 " tensors for " ++ modelName }
    else
      match controlValues modelName tensorName c with
      | .ok properties =>
        seeControls modelName tensorName controlKind controls (some properties)
      | .error status => .error status

/-- The loop over the control inputs. -/
def seeControlInputs (modelName : String) (controlKind : ControlKind) :
    List ControlInput → List String → Option ControlProperties →
    Except Status (Option ControlProperties)
  | [], _, seenControl => .ok seenControl
  | controlInput :: controlInputs, seenTensors, seenControl =>
    if controlInput.name.isEmpty then
      .error { code := .invalidArg,
               message := "sequence batching control tensor must have a name for " ++ modelName }
    else if controlInput.name ∈ seenTensors then
      .error { code := .invalidArg,
               message := "sequence batching control tensor '" ++ controlInput.name ++
                 "' is specified for multiple control kinds for " ++ modelName }
    else
      match seeControls modelName controlInput.name controlKind controlInput.control
        seenControl with
      | .ok seenControl =>
        seeControlInputs modelName controlKind controlInputs (controlInput.name :: seenTensors)
          seenControl
      | .error status => .error status

/-- `GetSequenceControlProperties`. -/
def getSequenceControlProperties (batcher : SequenceBatching) (modelName : String)
    (controlKind : ControlKind) (required : Bool) : Except Status ControlProperties :=
  match seeControlInputs modelName controlKind batcher.controlInput [] none with
  | .error status => .error status
  | .ok (some properties) => .ok properties
  | .ok none =>
    if required then
      .error { code := .invalidArg,
               message := "sequence batching control tensor must specify a " ++
                 controlKind.name ++ " value for " ++ modelName }
    else .ok {}

/-! ## `ValidateModelInput` and `ValidateModelOutput` -/

/-- The check of a dimension of a tensor, a `"model input"` or a `"model output"`. -/
def validateDim (what : String) (hasReshape : Bool) (dim : Int) : Status :=
  if dim < 1 ∧ dim ≠ WILDCARD_DIM then
    { code := .invalidArg,
      message := what ++ " dimension must be integer >= 1, or " ++ toString WILDCARD_DIM ++
        " to indicate a variable-size dimension" }
  else if hasReshape ∧ dim = WILDCARD_DIM then
    { code := .invalidArg,
      message := what ++ " using reshape cannot have variable-size dimension " ++
        toString WILDCARD_DIM }
  else .ok

/-- The checks of a reshape. -/
def validateReshape (what : String) (dims : List Int) : Option (List Int) → Status
  | none => .ok
  | some shape =>
    if shape.any (· ≤ 0) then
      { code := .invalidArg, message := what ++ " reshape dimensions must be integer >= 1" }
    else if getElementCount dims ≠ max 1 (getElementCount shape) then
      { code := .invalidArg, message := what ++ " has different size for dims and reshape" }
    else .ok

/-- The checks that `ValidateModelInput` and `ValidateModelOutput` share. -/
def validateModelTensor (what name : String) (dataType : DataType) (dims : List Int)
    (reshape : Option (List Int)) (maxBatchSize : Int32) : Status :=
  if name.isEmpty then { code := .invalidArg, message := what ++ " must specify 'name'" }
  else if dataType = .invalid then
    { code := .invalidArg, message := what ++ " must specify 'data_type'" }
  else if dims.length = 0 then
    { code := .invalidArg, message := what ++ " must specify 'dims'" }
  else if reshape = some [] ∧ maxBatchSize = 0 then
    { code := .invalidArg,
      message := what ++ " cannot have empty reshape for non-batching model" }
  else
    (Status.forEach (validateDim what reshape.isSome) dims).andThen
      (validateReshape what dims reshape)

/-- `ValidateModelInput`. -/
def validateModelInput (io : ModelInput) (maxBatchSize : Int32) : Status :=
  (validateModelTensor "model input" io.name io.dataType io.dims io.reshape maxBatchSize).andThen <|
    if (io.format = .nhwc ∨ io.format = .nchw) ∧ io.dims.length ≠ 3 then
      { code := .invalidArg, message := "model input NHWC/NCHW require 3 dims" }
    else .ok

/-- `ValidateModelOutput`. -/
def validateModelOutput (io : ModelOutput) (maxBatchSize : Int32) : Status :=
  validateModelTensor "model output" io.name io.dataType io.dims io.reshape maxBatchSize

/-! ## `ValidateModelConfig` -/

/-- The name of the model is added to the message of an error. -/
def forModel (config : ModelConfig) (status : Status) : Status :=
  if status.isOk then status
  else { code := status.code, message := status.message ++ " for " ++ config.name }

/-- The check of a preferred batch size. -/
def validatePreferredBatchSize (config : ModelConfig) (size : Int32) : Status :=
  if size ≤ 0 then
    { code := .invalidArg,
      message := "dynamic batching preferred size must be positive for " ++ config.name }
  else if size > config.maxBatchSize then
    { code := .invalidArg,
      message := "dynamic batching preferred size must be <= max batch size for " ++ config.name }
  else .ok

/-- The checks of the dynamic and of the sequence batching. -/
def validateBatching (config : ModelConfig) : Status :=
  match config.scheduling with
  | .dynamicBatching batching =>
    Status.forEach (validatePreferredBatchSize config) batching.preferredBatchSize
  | .sequenceBatching batcher =>
    if batcher.controlInput.length = 0 then
      { code := .invalidArg,
        message := "sequence batching must specify at least one control tensor for " ++
          config.name }
    else
      (statusOf (getSequenceControlProperties batcher config.name .start true)).andThen
        (statusOf (getSequenceControlProperties batcher config.name .ready true))
  | _ => .ok

/-- The check of a GPU of an instance group. -/
def validateGpu (config : ModelConfig) (group : ModelInstanceGroup) (dcnt : Nat) (gid : Int32) :
    Status :=
  if gid.toInt < 0 ∨ (dcnt : Int) ≤ gid.toInt then
    { code := .invalidArg,
      message := "instance group " ++ group.name ++ " of model " ++ config.name ++
        " specifies invalid GPU id " ++ toString gid.toInt ++ ", valid GPUs are 0 - " ++
        toString ((dcnt : Int) - 1) }
  else .ok

/-- The check of an instance group. -/
def validateGroup (config : ModelConfig) (dcnt : Nat) (group : ModelInstanceGroup) : Status :=
  match group.kind with
  | .gpu =>
    if group.gpus.length = 0 then
      { code := .invalidArg,
        message := "instance group " ++ group.name ++ " of model " ++ config.name ++
          " has kind KIND_GPU but specifies no GPUs" }
    else Status.forEach (validateGpu config group dcnt) group.gpus
  | .cpu =>
    if group.gpus.length > 0 then
      { code := .invalidArg,
        message := "instance group " ++ group.name ++ " of model " ++ config.name ++
          " has kind KIND_CPU but specifies one or more GPUs" }
    else .ok
  | .auto =>
    { code := .internal,
      message := "instance group " ++ group.name ++ " of model " ++ config.name ++
        " has unexpected kind KIND_AUTO" }

/-- The checks of a model that is not an ensemble. -/
def validateGroups (cuda : CudaDeviceCount) (config : ModelConfig) : Status :=
  if config.platform = kEnsemblePlatform then
    { code := .invalidArg,
      message := "ensemble scheduling must be set for ensemble " ++ config.name ++
        " whose platform is " ++ kEnsemblePlatform }
  else if config.instanceGroup.length = 0 then
    { code := .invalidArg,
      message := "must specify one or more 'instance group's for " ++ config.name }
  else
    match cuda.get ("failed to get device count for validation of model " ++ config.name) with
    | .ok dcnt => Status.forEach (validateGroup config dcnt) config.instanceGroup
    | .error status => status

/-- The checks of the ensemble scheduling, or of the instance groups. -/
def validateScheduling (cuda : CudaDeviceCount) (config : ModelConfig) : Status :=
  match config.scheduling with
  | .ensembleScheduling _ => validateEnsembleSchedulingConfig config
  | _ => validateGroups cuda config

/-- `ValidateModelConfig`. -/
def validateModelConfig (cuda : CudaDeviceCount) (config : ModelConfig)
    (expectedPlatform : String) : Status :=
  if config.name.isEmpty then
    { code := .invalidArg, message := "model configuration must specify 'name'" }
  else if config.platform.isEmpty then
    { code := .invalidArg, message := "must specify 'platform' for " ++ config.name }
  else if !expectedPlatform.isEmpty ∧ config.platform ≠ expectedPlatform then
    { code := .notFound,
      message := "expected model of type " ++ expectedPlatform ++ " for " ++ config.name }
  else if config.versionPolicy.isNone then
    { code := .invalidArg, message := "must specify 'version policy' for " ++ config.name }
  else
    (Status.forEach (fun io => forModel config (validateModelInput io config.maxBatchSize))
        config.input).andThen <|
      (Status.forEach (fun io => forModel config (validateModelOutput io config.maxBatchSize))
        config.output).andThen <|
      (validateBatching config).andThen (validateScheduling cuda config)

/-! ## What is accepted -/

/-- The shape of an accepted input or output. -/
structure ValidTensor (dataType : DataType) (dims : List Int) (reshape : Option (List Int))
    (maxBatchSize : Int32) : Prop where
  typed : dataType ≠ .invalid
  ranked : dims ≠ []
  dims_pos : ∀ dim ∈ dims, 1 ≤ dim ∨ dim = WILDCARD_DIM
  fixed : reshape ≠ none → ∀ dim ∈ dims, 1 ≤ dim
  reshape_pos : ∀ shape, reshape = some shape → ∀ dim ∈ shape, 1 ≤ dim
  batched : reshape = some [] → maxBatchSize ≠ 0

section
variable {cuda : CudaDeviceCount} {config : ModelConfig} {expectedPlatform : String}

theorem isOk_forModel (config : ModelConfig) (status : Status) :
    (forModel config status).isOk = status.isOk := by
  unfold forModel
  split
  · rfl
  · rfl

theorem isOk_validateDim {what : String} {hasReshape : Bool} {dim : Int}
    (h : (validateDim what hasReshape dim).isOk) :
    (1 ≤ dim ∨ dim = WILDCARD_DIM) ∧ (hasReshape → 1 ≤ dim) := by
  unfold validateDim at h
  split at h
  · cases h
  · next hdim =>
    split at h
    · cases h
    · next hwildcard =>
      have hvalid : 1 ≤ dim ∨ dim = WILDCARD_DIM := by
        rcases Int.lt_or_le dim 1 with hlt | hge
        · exact .inr (Decidable.byContradiction fun hne => hdim ⟨hlt, hne⟩)
        · exact .inl hge
      exact ⟨hvalid, fun hreshape => hvalid.resolve_right fun heq => hwildcard ⟨hreshape, heq⟩⟩

theorem validTensor_of_isOk {what name : String} {dataType : DataType} {dims : List Int}
    {reshape : Option (List Int)} {maxBatchSize : Int32}
    (h : (validateModelTensor what name dataType dims reshape maxBatchSize).isOk) :
    ValidTensor dataType dims reshape maxBatchSize := by
  unfold validateModelTensor at h
  split at h
  · cases h
  · split at h
    · cases h
    · next htype =>
      split at h
      · cases h
      · next hrank =>
        split at h
        · cases h
        · next hempty =>
          rw [Status.isOk_andThen, Status.isOk_forEach] at h
          obtain ⟨hdims, hreshape⟩ := h
          refine ⟨htype, fun hnil => hrank (by rw [hnil]; rfl),
            fun dim hdim => (isOk_validateDim (hdims dim hdim)).1, fun hsome dim hdim => ?_,
            fun shape hshape => ?_, fun hnil hzero => hempty ⟨hnil, hzero⟩⟩
          · exact (isOk_validateDim (hdims dim hdim)).2 (Option.isSome_iff_ne_none.mpr hsome)
          · rw [hshape] at hreshape
            simp only [validateReshape] at hreshape
            split at hreshape
            · cases hreshape
            · next hpos =>
              intro dim hdim
              simp only [List.any_eq_true, decide_eq_true_eq, not_exists, not_and] at hpos
              exact Int.not_le.mp (hpos dim hdim)

/-- What `ValidateModelConfig` checks, one after another. -/
theorem isOk_validateModelConfig (h : (validateModelConfig cuda config expectedPlatform).isOk) :
    (¬ expectedPlatform.isEmpty → config.platform = expectedPlatform) ∧
    (∀ io ∈ config.input, (validateModelInput io config.maxBatchSize).isOk) ∧
    (∀ io ∈ config.output, (validateModelOutput io config.maxBatchSize).isOk) ∧
    (validateBatching config).isOk ∧ (validateScheduling cuda config).isOk := by
  unfold validateModelConfig at h
  split at h
  · cases h
  · split at h
    · cases h
    · split at h
      · cases h
      · next hplatform =>
        split at h
        · cases h
        · simp only [Status.isOk_andThen, Status.isOk_forEach, isOk_forModel] at h
          refine ⟨fun hne => Decidable.byContradiction fun hother => ?_, h⟩
          exact hplatform ⟨by simpa using hne, hother⟩

/-- Every input of an accepted configuration. -/
theorem validTensor_of_validateModelConfig
    (h : (validateModelConfig cuda config expectedPlatform).isOk) {io : ModelInput}
    (hio : io ∈ config.input) :
    ValidTensor io.dataType io.dims io.reshape config.maxBatchSize := by
  have hinput := (isOk_validateModelConfig h).2.1 io hio
  unfold validateModelInput at hinput
  rw [Status.isOk_andThen] at hinput
  exact validTensor_of_isOk hinput.1

/-- A configuration that is accepted for a platform names this platform. -/
theorem platform_of_validateModelConfig
    (h : (validateModelConfig cuda config expectedPlatform).isOk)
    (hplatform : ¬ expectedPlatform.isEmpty) : config.platform = expectedPlatform :=
  (isOk_validateModelConfig h).1 hplatform

/-- The steps of an accepted ensemble. -/
theorem accepted_of_validateModelConfig
    (h : (validateModelConfig cuda config expectedPlatform).isOk) {step : List EnsembleStep}
    (hstep : config.scheduling = .ensembleScheduling step) : Accepted config := by
  have hscheduling := (isOk_validateModelConfig h).2.2.2.2
  unfold validateScheduling at hscheduling
  rw [hstep] at hscheduling
  exact accepted_of_validate hscheduling

end

end FinBert.Serving
