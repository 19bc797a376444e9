import FinBert.Custom.Backend

/-!
# The accumulator library

The library of `sequence.cu.cc` keeps an `INT32` total for every index of a batch. A payload that
is READY sets the total of its index, with START, or adds to it, and gets it back as its output.

Results:
1. `execute_of_le`, `executePayloads_spec`: each payload is executed with the total of its index.
2. `executePayload_of_request`, `executePayload_of_null`: what a payload does to it.
-/

namespace FinBert.Custom.Accumulator

open FinBert.Serving LengthPrefixed

/-! ## Error codes -/

/-- `ErrorCodes`. -/
inductive ErrorCodes
  | kSuccess
  | kUnknown
  | kInvalidModelConfig
  | kGpuNotSupported
  | kSequenceBatcher
  | kModelControl
  | kInputOutput
  | kInputName
  | kOutputName
  | kInputOutputDataType
  | kInputContents
  | kInputSize
  | kOutputBuffer
  | kBatchTooBig
  | kTimesteps
deriving DecidableEq

/-- The enumerators are numbered from 0 on. -/
def ErrorCodes.number (code : ErrorCodes) : Int := code.ctorIdx

/-- `CustomErrorString`. -/
def customErrorString (errcode : Int) : String :=
  if errcode = ErrorCodes.kSuccess.number then "success"
  else if errcode = ErrorCodes.kInvalidModelConfig.number then "invalid model configuration"
  else if errcode = ErrorCodes.kGpuNotSupported.number then "execution on GPU not supported"
  else if errcode = ErrorCodes.kSequenceBatcher.number then
    "model configuration must configure sequence batcher"
  else if errcode = ErrorCodes.kModelControl.number then
    "'START' and 'READY' must be configured as the control inputs"
  else if errcode = ErrorCodes.kInputOutput.number then
    "model must have two inputs and one output with shape [1]"
  else if errcode = ErrorCodes.kInputName.number then
    "model inputs must be named 'INPUT0' and 'INPUT1'"
  else if errcode = ErrorCodes.kOutputName.number then "model output must be named 'OUTPUT'"
  else if errcode = ErrorCodes.kInputOutputDataType.number then
    "model inputs and output must have TYPE_INT32 data-type"
  else if errcode = ErrorCodes.kInputContents.number then "unable to get input tensor values"
  else if errcode = ErrorCodes.kInputSize.number then "unexpected size for input tensor"
  else if errcode = ErrorCodes.kOutputBuffer.number then
    "unable to get buffer for output tensor values"
  else if errcode = ErrorCodes.kBatchTooBig.number then
    "unable to execute batch larger than max-batch-size"
  else if errcode = ErrorCodes.kTimesteps.number then
    "unable to execute more than 1 timestep at a time"
  else "unknown error"

/-! ## `Context` -/

/-- `Context`: the `max_batch_size` of the configuration and the totals. -/
structure Context where
  maxBatchSize : Int32
  accumulator : List Int32

/-- `Context::Context`. -/
def Context.create (config : ModelConfig) : Context where
  maxBatchSize := config.maxBatchSize
  accumulator := List.replicate (max 1 config.maxBatchSize.toInt).toNat 0

/-- `CUSTOM_NO_GPU_DEVICE`. -/
def CUSTOM_NO_GPU_DEVICE : Int := -1

/-- `Context::Init`. -/
def init (config : ModelConfig) (gpuDevice : Int) : ErrorCodes :=
  if gpuDevice ≠ CUSTOM_NO_GPU_DEVICE then .kGpuNotSupported
  else
    match config.scheduling with
    | .sequenceBatching batcher =>
      if batcher.controlInput.map (·.name) ≠ ["START", "READY"] ∧
          batcher.controlInput.map (·.name) ≠ ["READY", "START"] then .kModelControl
      else
        match config.input with
        | [input] =>
          if input.dims ≠ [1] then .kInputOutput
          else if input.dataType ≠ .int32 then .kInputOutputDataType
          else if input.name ≠ "INPUT" then .kInputName
          else
            match config.output with
            | [output] =>
              if output.dims ≠ [1] then .kInputOutput
              else if output.dataType ≠ .int32 then .kInputOutputDataType
              else if output.name ≠ "OUTPUT" then .kOutputName
              else .kSuccess
            | _ => .kInputOutput
        | _ => .kInputOutput
    | _ => .kSequenceBatcher

/-! ## `Execute` -/

/-- The first element of a tensor of type `INT32`. -/
def int32Of (tensor : Bytes) : Int32 := (UInt32.ofNat (wordAt tensor 0)).toInt32

/-- The bytes of an `int32_t`. -/
def bytesOf (value : Int32) : Bytes := word value.toUInt32.toNat

/-- The codes for the errors of `GetInputTensor`. -/
def inputErrorCode : InputError → ErrorCodes
  | .contents => .kInputContents
  | .size => .kInputSize

/-- `Context::GetInputTensor`, which asks for what is left of the tensor. -/
def getInt32 (payload : Payload) (name : String) : Except InputError Bytes × Payload :=
  getInputTensor payload name (getDataTypeByteSize .int32) (getDataTypeByteSize .int32 - ·)

/-- The output of a payload, if it is requested. -/
def returnOutput (maxBatchSize : Int32) (payload : CustomPayload Payload) (output : Int32) :
    CustomPayload Payload :=
  match payload.requiredOutputNames with
  | [] => payload
  | outputName :: _ =>
    if payload.errorCode = 0 then
      let shape := if maxBatchSize ≠ 0 then [1, 1] else [1]
      match getOutput payload.context outputName shape (getDataTypeByteSize .int32) with
      | (none, context) =>
        { payload with context := context, errorCode := ErrorCodes.kOutputBuffer.number }
      | (some none, context) => { payload with context := context }
      | (some (some obuffer), context) =>
        { payload with context := copyToOutput context obuffer 0 (bytesOf output) }
    else payload

/-- The body of the loop over the payloads, with the total of the index. -/
def executePayload (maxBatchSize : Int32) (payload : CustomPayload Payload) (accumulator : Int32) :
    CustomPayload Payload × Int32 :=
  if payload.batchSize ≠ 1 then
    ({ payload with errorCode := ErrorCodes.kTimesteps.number }, accumulator)
  else
    match getInt32 payload.context "START" with
    | (.error err, context) =>
      ({ payload with context := context, errorCode := (inputErrorCode err).number }, accumulator)
    | (.ok start, context) =>
      match getInt32 context "READY" with
      | (.error err, context) =>
        ({ payload with context := context, errorCode := (inputErrorCode err).number },
          accumulator)
      | (.ok ready, context) =>
        match getInt32 context "INPUT" with
        | (.error err, context) =>
          ({ payload with context := context, errorCode := (inputErrorCode err).number },
            accumulator)
        | (.ok input, context) =>
          if int32Of ready ≠ 0 then
            let accumulator :=
              if int32Of start = 0 then accumulator + int32Of input else int32Of input
            (returnOutput maxBatchSize { payload with context := context } accumulator,
              accumulator)
          else ({ payload with context := context }, accumulator)

/-- The loop over the payloads. -/
def executePayloads (maxBatchSize : Int32) :
    List (CustomPayload Payload) → List Int32 → List (CustomPayload Payload) × List Int32
  | payload :: payloads, total :: totals =>
    let (payload, total) := executePayload maxBatchSize payload total
    let (payloads, totals) := executePayloads maxBatchSize payloads totals
    (payload :: payloads, total :: totals)
  | payloads, totals => (payloads, totals)

/-- `Context::Execute`. -/
def Context.execute (context : Context) (payloads : List (CustomPayload Payload)) :
    Int × List (CustomPayload Payload) × Context :=
  if payloads.length > context.accumulator.length then
    (ErrorCodes.kBatchTooBig.number, payloads, context)
  else
    let (payloads, accumulator) :=
      executePayloads context.maxBatchSize payloads context.accumulator
    (ErrorCodes.kSuccess.number, payloads, { context with accumulator := accumulator })

/-- The functions of the library. -/
def library : Library Context Payload where
  execute := Context.execute
  errorString err := some (customErrorString err)

/-! ## The totals of the indices -/

section
variable {maxBatchSize : Int32} {payloads : List (CustomPayload Payload)} {totals : List Int32}

@[simp] theorem length_executePayloads (payloads : List (CustomPayload Payload))
    (totals : List Int32) :
    (executePayloads maxBatchSize payloads totals).1.length = payloads.length ∧
      (executePayloads maxBatchSize payloads totals).2.length = totals.length := by
  induction payloads generalizing totals with
  | nil => exact ⟨rfl, rfl⟩
  | cons payload payloads ih =>
    cases totals with
    | nil => exact ⟨rfl, rfl⟩
    | cons total totals =>
      obtain ⟨hpayloads, htotals⟩ := ih totals
      exact ⟨congrArg Nat.succ hpayloads, congrArg Nat.succ htotals⟩

/-- A payload is executed with the total of its index. -/
theorem executePayloads_spec {idx : Nat} {payload : CustomPayload Payload} {total : Int32}
    (hpayload : payloads[idx]? = some payload) (htotal : totals[idx]? = some total) :
    (executePayloads maxBatchSize payloads totals).1[idx]? =
        some (executePayload maxBatchSize payload total).1 ∧
      (executePayloads maxBatchSize payloads totals).2[idx]? =
        some (executePayload maxBatchSize payload total).2 := by
  induction payloads generalizing totals idx with
  | nil => cases hpayload
  | cons payload' payloads ih =>
    cases totals with
    | nil => cases htotal
    | cons total' totals =>
      cases idx with
      | zero =>
        obtain rfl := Option.some.inj hpayload
        obtain rfl := Option.some.inj htotal
        exact ⟨rfl, rfl⟩
      | succ idx => exact ih hpayload htotal

/-- The totals of the indices behind the payloads stay as they are. -/
theorem executePayloads_behind {idx : Nat} (h : payloads.length ≤ idx) :
    (executePayloads maxBatchSize payloads totals).2[idx]? = totals[idx]? := by
  induction payloads generalizing totals idx with
  | nil => rfl
  | cons payload payloads ih =>
    cases totals with
    | nil => rfl
    | cons total totals =>
      obtain ⟨idx, rfl⟩ := Nat.exists_eq_succ_of_ne_zero (Nat.ne_of_gt (Nat.lt_of_lt_of_le
        (Nat.succ_pos _) h))
      exact ih (Nat.le_of_succ_le_succ h)

theorem execute_of_le {context : Context} (h : payloads.length ≤ context.accumulator.length) :
    context.execute payloads =
      (0, (executePayloads context.maxBatchSize payloads context.accumulator).1,
        { context with
          accumulator := (executePayloads context.maxBatchSize payloads context.accumulator).2 }) :=
  if_neg (Nat.not_lt.mpr h)

end

/-! ## What a payload does to its total -/

theorem int32Of_bytesOf (value : Int32) : int32Of (bytesOf value) = value := by
  have hword : wordAt ([] ++ (word value.toUInt32.toNat ++ [])) 0 = value.toUInt32.toNat :=
    wordAt_word value.toUInt32.toNat_lt
  rw [List.nil_append, List.append_nil] at hword
  unfold int32Of bytesOf
  rw [hword, UInt32.ofNat_toNat, Int32.toInt32_toUInt32]

/-- The value that the payload has for a control, or for its input. -/
structure Shows (provider : InferRequestProvider) (start ready : Int32) : Prop where
  start : provider.overrides.lookup "START" = some (bytesOf start)
  ready : provider.overrides.lookup "READY" = some (bytesOf ready)
  input : provider.overrides.lookup "INPUT" = none
  fresh : provider.overridesConsumed = []

section
variable {maxBatchSize : Int32} {payload : CustomPayload Payload} {start ready total : Int32}

/-- `START` and `READY` are read. -/
theorem getInt32_controls {context : Payload} (h : Shows context.requestProvider start ready) :
    getInt32 context "START" =
        (.ok (bytesOf start), { context with
          requestProvider := { context.requestProvider with overridesConsumed := ["START"] } }) ∧
      getInt32 { context with
          requestProvider := { context.requestProvider with overridesConsumed := ["START"] } }
          "READY" =
        (.ok (bytesOf ready), { context with
          requestProvider := { context.requestProvider with
            overridesConsumed := ["READY", "START"] } }) := by
  have hread (provider : InferRequestProvider) (name : String) {value : Int32}
      (hlookup : provider.overrides.lookup name = some (bytesOf value))
      (hfresh : name ∉ provider.overridesConsumed) :
      getInt32 { context with requestProvider := provider } name =
        (.ok (bytesOf value), { context with
          requestProvider := { provider with
            overridesConsumed := name :: provider.overridesConsumed } }) :=
    getInputTensor_of_override hlookup hfresh rfl (by decide)
  constructor
  · have hfirst := hread context.requestProvider "START" h.start
      (by rw [h.fresh]; exact List.not_mem_nil)
    rw [h.fresh] at hfirst
    exact hfirst
  · exact hread { context.requestProvider with overridesConsumed := ["START"] } "READY" h.ready
      (by simp)

/-- A payload that is READY sets or adds to the total of its index, and returns it. -/
theorem executePayload_of_ready (hbatch : payload.batchSize = 1)
    (hshows : Shows payload.context.requestProvider start ready) (hready : ready ≠ 0)
    {memory : SystemMemory} {value : Int32}
    (hdata : ∃ buffers, payload.context.requestProvider.data = .inputBuffer buffers ∧
      buffers.lookup "INPUT" = some (memory, 0))
    (hblocks : ∀ block ∈ memory.blocks, block ≠ []) (hbytes : memory.bytes = bytesOf value) :
    ∃ provider, executePayload maxBatchSize payload total =
      (returnOutput maxBatchSize
          { payload with context := { payload.context with requestProvider := provider } }
          (if start = 0 then total + value else value),
        if start = 0 then total + value else value) := by
  obtain ⟨hstart, hready'⟩ := getInt32_controls hshows
  let context : Payload := { payload.context with
    requestProvider := { payload.context.requestProvider with
      overridesConsumed := ["READY", "START"] } }
  have hcursor : context.requestProvider.CursorAt "INPUT" memory 0 := ⟨hshows.input, hdata⟩
  have hinput : (getInt32 context "INPUT").1 = .ok (bytesOf value) := by
    rw [← hbytes]
    refine getInputTensor_of_cursorAt hcursor hblocks ?_ fun n hn => Nat.sub_ne_zero_of_lt hn
    rw [hbytes]
    rfl
  obtain ⟨provider, hframe⟩ : ∃ provider, (getInt32 context "INPUT").2 =
      { context with requestProvider := provider } := readInputTensor_frame _ _ _
  have hread : getInt32 context "INPUT" =
      (.ok (bytesOf value), { context with requestProvider := provider }) :=
    Prod.ext hinput hframe
  refine ⟨provider, ?_⟩
  unfold executePayload
  rw [if_neg (not_not.mpr hbatch), hstart]
  dsimp only
  rw [hready']
  dsimp only
  rw [hread]
  dsimp only
  rw [int32Of_bytesOf, int32Of_bytesOf, int32Of_bytesOf, if_pos hready]

/-- A payload that is not READY leaves the total as it is. -/
theorem executePayload_of_notready (hbatch : payload.batchSize = 1)
    (hshows : Shows payload.context.requestProvider start 0)
    (hdata : payload.context.requestProvider.data =
      .null fun size => List.replicate size 0) :
    ∃ provider, executePayload maxBatchSize payload total =
      ({ payload with context := { payload.context with requestProvider := provider } },
        total) := by
  obtain ⟨hstart, hready⟩ := getInt32_controls hshows
  let context : Payload := { payload.context with
    requestProvider := { payload.context.requestProvider with
      overridesConsumed := ["READY", "START"] } }
  have hread : getInt32 context "INPUT" =
      (.ok (List.replicate (getDataTypeByteSize .int32) 0), context) :=
    @getInputTensor_of_buf context "INPUT" (getDataTypeByteSize .int32) _ hshows.input hdata
      (fun _ => List.length_replicate) (by decide)
  refine ⟨context.requestProvider, ?_⟩
  unfold executePayload
  rw [if_neg (not_not.mpr hbatch), hstart]
  dsimp only
  rw [hready]
  dsimp only
  rw [hread]
  dsimp only
  rw [int32Of_bytesOf, if_neg (not_not.mpr rfl)]

/-- The output is put behind the buffers that the response has. -/
theorem returnOutput_ok {output : Int32} (herror : payload.errorCode = 0)
    (hok : ∀ response, payload.context.responseProvider = some response →
      ∀ name ∈ payload.requiredOutputNames, ∀ shape,
        (response.allocateOutputBuffer name 4 shape).isOk = true) :
    (returnOutput maxBatchSize payload output).errorCode = 0 ∧
      (returnOutput maxBatchSize payload output).context.status = payload.context.status ∧
      (returnOutput maxBatchSize payload output).context.responseProvider =
        match payload.context.responseProvider, payload.requiredOutputNames with
        | some response, name :: _ =>
          some { response with
            outputBuffers := response.outputBuffers ++ [(name, bytesOf output)] }
        | response, _ => response := by
  unfold returnOutput getOutput
  cases hnames : payload.requiredOutputNames with
  | nil =>
    refine ⟨herror, rfl, ?_⟩
    cases payload.context.responseProvider <;> rfl
  | cons name names =>
    cases hresponse : payload.context.responseProvider with
    | none =>
      dsimp only
      rw [if_pos herror]
      exact ⟨herror, rfl, hresponse⟩
    | some response =>
      dsimp only
      have hallocated (shape : List Int) := hok response hresponse name (by simp [hnames]) shape
      rw [if_pos herror, show getDataTypeByteSize .int32 = 4 from rfl, if_pos (hallocated _)]
      refine ⟨herror, rfl, ?_⟩
      show some _ = some _
      dsimp only
      rw [modify_length_concat]
      rfl

end

end FinBert.Custom.Accumulator
