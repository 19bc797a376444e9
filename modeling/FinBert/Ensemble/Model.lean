import FinBert.Lib.Transition
import FinBert.Lib.UnorderedMap
import FinBert.Serving.Basic
import Mathlib.Data.List.Sort

/-!
# The ensemble scheduler

`EnsembleContext` (`ensemble_scheduler.cc`): the state of one ensemble request, which
is changed only by `PrepareSteps`, under the context's mutex. The tensors and the steps
of the ensemble are indexes into `EnsembleInfo`. What the context's calls get from the
server and from the models of the steps is an argument, so that every answer is covered.
-/

namespace FinBert.Ensemble

open FinBert.Serving

/-! ## The ensemble -/

/-- `EnsembleInfo::StepInfo`. -/
structure StepInfo where
  modelName : String := ""
  modelVersion : Int := 0
  inputToTensor : UnorderedMap String Nat := ∅
  outputToTensor : UnorderedMap String Nat := ∅

instance : Inhabited StepInfo := ⟨{}⟩

/-- `EnsembleInfo`. Every index that it holds is the index of a tensor, respectively of a
step: `EnsembleScheduler` makes room for an index before it stores it. -/
structure EnsembleInfo where
  ensembleName : String
  allowBatching : Bool
  ensembleInputToTensor : UnorderedMap String Nat
  ensembleOutputToTensor : UnorderedMap String Nat
  steps : List StepInfo
  tensorToStep : List (List Nat)
  inputs_lt : ∀ p ∈ ensembleInputToTensor.entries, p.2 < tensorToStep.length
  outputs_lt : ∀ p ∈ ensembleOutputToTensor.entries, p.2 < tensorToStep.length
  steps_lt : ∀ step ∈ steps, ∀ p ∈ step.inputToTensor.entries ++ step.outputToTensor.entries,
    p.2 < tensorToStep.length
  tensorToStep_lt : ∀ idxs ∈ tensorToStep, ∀ idx ∈ idxs, idx < steps.length

/-- `info_->steps_[idx]`. -/
def EnsembleInfo.step (info : EnsembleInfo) (idx : Nat) : StepInfo := info.steps.getD idx default

/-! ## Requests and responses -/

/-- `LabelProvider`. -/
abbrev LabelProvider := UnorderedMap String (List String)

/-- `GetLabel`: the empty string for a label that is not there. -/
def LabelProvider.getLabel (provider : LabelProvider) (name : String) (index : Nat) : String :=
  ((provider.lookup name).getD []).getD index ""

/-- `InferResponseProvider::SecondaryLabelProvider`. -/
abbrev SecondaryLabelProvider := String × LabelProvider

/-- The request to the ensemble: the header and the buffers of its request provider and
the label provider of its response provider. -/
structure EnsembleRequest where
  header : InferRequestHeader
  inputBuffer : UnorderedMap String SystemMemory
  labelProvider : LabelProvider := ∅

/-- `RequiresOutput`. -/
def EnsembleRequest.requiresOutput (request : EnsembleRequest) (name : String) : Bool :=
  request.header.output.any (·.name == name)

/-- `InferResponseHeader::Output`: a result without `raw` is a classification. -/
structure ResponseOutput where
  name : String
  raw : Option (List Int × Nat)

/-- What the callback of a step finds in the step's request status and response
provider: `finalizeResponse` is the status of the `FinalizeResponse` call. -/
structure StepResponse where
  requestStatus : Status
  finalizeResponse : Status := .ok
  output : List ResponseOutput := []
  outputBuffer : UnorderedMap String SystemMemory := ∅
  labelProvider : LabelProvider := ∅
  secondaryLabelProvider : UnorderedMap String SecondaryLabelProvider := ∅

/-- `InternalInferResponseProvider::GetSystemMemory`. -/
def StepResponse.getSystemMemory (response : StepResponse) (name : String) :
    Except Status SystemMemory :=
  match response.outputBuffer.lookup name with
  | some memory => .ok memory
  | none => .error { code := .invalidArg,
                     message := "output '" ++ name ++ "' is not found in response provider" }

/-- What the server and the backends answer during one call. `NormalizeRequestHeader`
fills in the header that it is given, and `AllocateOutputBuffer` is the one of the
response provider of the ensemble request. -/
structure Server where
  createBackendHandle : String → Int → Status
  normalizeRequestHeader : String → Int → InferRequestHeader → Status × InferRequestHeader
  allocateOutputBuffer : String → Nat → List Int → Status

/-- `Step`: the internal request for the step `stepIdx`. -/
structure Step where
  stepIdx : Nat
  requestHeader : InferRequestHeader
  inputBuffer : UnorderedMap String SystemMemory

/-! ## The context -/

/-- An entry of `tensor_data_`. -/
structure TensorData where
  input : InferInput := { name := "" }
  memory : Option SystemMemory := none

instance : Inhabited TensorData := ⟨{}⟩

/-- An output buffer of the ensemble's response, with the bytes copied to it. -/
structure OutputBuffer where
  name : String
  shape : List Int
  content : List UInt8

/-- `EnsembleContext`. `completions` are the arguments of the calls of `OnComplete_`. -/
structure EnsembleContext where
  inflightStepCounter : Nat
  tensorData : List TensorData
  flags : Nat
  correlationId : Nat
  batchSize : Nat
  ensembleStatus : Status
  request : EnsembleRequest
  noLabelTensors : UnorderedMap Nat String
  secondaryLabelProvider : UnorderedMap String SecondaryLabelProvider := ∅
  outputBuffers : List OutputBuffer := []
  completions : List Status := []

namespace EnsembleContext

variable (info : EnsembleInfo) (server : Server)

/-- `tensor_data_[idx]`. -/
def tensor (ctx : EnsembleContext) (idx : Nat) : TensorData := ctx.tensorData.getD idx default

/-- The loop over the steps in the constructor: one handle for each model and version,
up to the first error. -/
def createHandles : List StepInfo → List (String × Int) → Status
  | [], _ => .ok
  | step :: steps, handles =>
    if (step.modelName, step.modelVersion) ∈ handles then createHandles steps handles
    else
      let status := server.createBackendHandle step.modelName step.modelVersion
      if status.isOk then createHandles steps ((step.modelName, step.modelVersion) :: handles)
      else status

/-- The loop over the inputs of the request header in the constructor: an input without
data leaves its tensor unset. -/
def setInputs (request : EnsembleRequest) :
    List InferInput → List TensorData → Status → List TensorData × Status
  | [], tensorData, status => (tensorData, status)
  | input :: inputs, tensorData, status =>
    match info.ensembleInputToTensor.lookup input.name with
    | some idx =>
      let memory := (request.inputBuffer.lookup input.name).or (tensorData.getD idx default).memory
      setInputs request inputs (tensorData.set idx { input := input, memory := memory }) status
    | none =>
      setInputs request inputs tensorData
        { code := .invalidArg,
          message := "unexpected input '" ++ input.name ++
            "' in request header that does not map to any ensemble inputs" }

/-- The ensemble outputs without a label of their own, by the index of their tensor. -/
def noLabelOutputs (request : EnsembleRequest) : UnorderedMap Nat String :=
  info.ensembleOutputToTensor.entries.foldl (fun outputs pair =>
    if request.labelProvider.getLabel pair.1 0 == "" then outputs.insert pair.2 pair.1
    else outputs) ∅

/-- `EnsembleContext::EnsembleContext`. -/
def create (request : EnsembleRequest) : EnsembleContext :=
  let unset := List.replicate info.tensorToStep.length default
  let status := createHandles server info.steps []
  let (tensorData, status) :=
    if status.isOk then setInputs info request request.header.input unset status
    else (unset, status)
  { inflightStepCounter := 0
    tensorData := tensorData
    flags := request.header.flags
    correlationId := request.header.correlationId
    batchSize := request.header.batchSize
    ensembleStatus := status
    request := request
    noLabelTensors := if status.isOk then noLabelOutputs info request else ∅ }

/-! ### `UpdateEnsembleState` -/

/-- `inflight_step_counter_--` on a `size_t`. -/
def decrement (counter : Nat) : Nat := if counter = 0 then 18446744073709551615 else counter - 1

/-- An ensemble output without a label takes the labels of the step that wrote it, or
those which the step, when it is an ensemble too, took from one of its own steps. -/
def setLabel (response : StepResponse) (name : String) (idx : Nat) (ctx : EnsembleContext) :
    EnsembleContext :=
  match ctx.noLabelTensors.lookup idx with
  | none => ctx
  | some output =>
    let provider := (response.secondaryLabelProvider.lookup name).getD
      (name, response.labelProvider)
    { ctx with
      secondaryLabelProvider := ctx.secondaryLabelProvider.insert output provider
      noLabelTensors := ctx.noLabelTensors.erase idx }

/-- The loop over the outputs of the response header of a completed step. -/
def setOutputs (stepInfo : StepInfo) (response : StepResponse) :
    List ResponseOutput → EnsembleContext → List Nat → Status × EnsembleContext × List Nat
  | [], ctx, updated => (.ok, ctx, updated)
  | output :: outputs, ctx, updated =>
    match output.raw with
    | none =>
      ({ code := .internal,
         message := "internal response header should return output '" ++ output.name ++
           "' as raw data instead of classification result" }, ctx, updated)
    | some (dims, batchByteSize) =>
      match stepInfo.outputToTensor.lookup output.name with
      | none =>
        ({ code := .internal,
           message := "internal response header specified output '" ++ output.name ++
             "' that does not map to any ensemble tensors" }, ctx, updated)
      | some idx =>
        let data := ctx.tensor idx
        let input := { data.input with dims := dims, batchByteSize := batchByteSize }
        match response.getSystemMemory output.name with
        | .error status =>
          (status, { ctx with tensorData := ctx.tensorData.set idx { data with input := input } },
            updated)
        | .ok memory =>
          let ctx := { ctx with
            tensorData := ctx.tensorData.set idx { input := input, memory := some memory } }
          setOutputs stepInfo response outputs (setLabel response output.name idx ctx)
            (updated ++ [idx])

/-- `UpdateEnsembleState`, with the updated tensors. -/
def updateEnsembleState (completed : Option (Step × StepResponse)) (ctx : EnsembleContext) :
    Status × EnsembleContext × List Nat :=
  match completed with
  | none =>
    (.ok, ctx,
      (List.range ctx.tensorData.length).filter fun idx => (ctx.tensor idx).memory.isSome)
  | some (step, response) =>
    let ctx := { ctx with inflightStepCounter := decrement ctx.inflightStepCounter }
    if response.requestStatus.code ≠ .success then (response.requestStatus, ctx, [])
    else if !response.finalizeResponse.isOk then (response.finalizeResponse, ctx, [])
    else setOutputs (info.step step.stepIdx) response response.output ctx []

/-! ### `GetNextSteps` -/

/-- The data of every input tensor of the step is set. -/
def stepReady (ctx : EnsembleContext) (idx : Nat) : Bool :=
  (info.step idx).inputToTensor.entries.all fun pair => (ctx.tensor pair.2).memory.isSome

/-- `insert` on a `std::set<size_t>`, the list of its elements in order. -/
def setInsert (idx : Nat) (set : List Nat) : List Nat :=
  if idx ∈ set then set else set.orderedInsert (· ≤ ·) idx

/-- `next_step_idx`: the steps that read an updated tensor and have all inputs set. -/
def nextStepIdx (updated : List Nat) (ctx : EnsembleContext) : List Nat :=
  updated.foldl (fun set tensorIdx =>
    (info.tensorToStep.getD tensorIdx []).foldl (fun set idx =>
      if stepReady info ctx idx then setInsert idx set else set) set) []

/-- `InferRequestProvider::Create`: each input of the header has a buffer of its size. -/
def createRequestProvider (modelName : String) (inputBuffer : UnorderedMap String SystemMemory) :
    List InferInput → Status
  | [] => .ok
  | input :: inputs =>
    match inputBuffer.lookup input.name with
    | none =>
      { code := .invalidArg,
        message := "input '" ++ input.name ++ "' is specified in request header but" ++
          " not found in memory block mapping for model '" ++ modelName ++ "'" }
    | some memory =>
      if input.batchByteSize ≠ memory.totalByteSize then
        { code := .invalidArg,
          message := "unexpected size " ++ toString memory.totalByteSize ++ " for input '" ++
            input.name ++ "', expecting " ++ toString input.batchByteSize ++ " for model '" ++
            modelName ++ "'" }
      else createRequestProvider modelName inputBuffer inputs

/-- `InitStep`. -/
def initStep (ctx : EnsembleContext) (idx : Nat) : Status × Step :=
  let stepInfo := info.step idx
  let inputs := stepInfo.inputToTensor.entries.map fun pair =>
    { (ctx.tensor pair.2).input with name := pair.1 }
  let inputBuffer := stepInfo.inputToTensor.entries.foldl (fun buffers pair =>
    match (ctx.tensor pair.2).memory with
    | some memory => buffers.insert pair.1 memory
    | none => buffers) ∅
  let header : InferRequestHeader :=
    { correlationId := ctx.correlationId
      batchSize := ctx.batchSize
      flags := ctx.flags
      input := inputs
      output := stepInfo.outputToTensor.entries.map fun pair => { name := pair.1 } }
  let (status, header) :=
    server.normalizeRequestHeader stepInfo.modelName stepInfo.modelVersion header
  let step := { stepIdx := idx, requestHeader := header, inputBuffer := inputBuffer }
  if !status.isOk then (status, step)
  else (createRequestProvider stepInfo.modelName inputBuffer header.input, step)

/-- The loop of `GetNextSteps` over the steps to prepare. -/
def initSteps (ctx : EnsembleContext) : List Nat → Status × List Step
  | [] => (.ok, [])
  | idx :: idxs =>
    let (status, step) := initStep info server ctx idx
    if !status.isOk then (status, [step])
    else
      let (status, steps) := initSteps ctx idxs
      (status, step :: steps)

/-- `GetNextSteps`. The steps counted are objects in memory, so that the sum does not
wrap around. -/
def getNextSteps (updated : List Nat) (ctx : EnsembleContext) :
    Status × EnsembleContext × List Step :=
  let (status, steps) := initSteps info server ctx (nextStepIdx info updated ctx)
  if !status.isOk then (status, ctx, steps)
  else
    (.ok, { ctx with inflightStepCounter := ctx.inflightStepCounter + steps.length }, steps)

/-! ### `FinishEnsemble` -/

/-- The shape of an ensemble output. -/
def outputShape (ctx : EnsembleContext) (data : TensorData) : List Int :=
  if info.allowBatching then (ctx.batchSize : Int) :: data.input.dims else data.input.dims

/-- The loop of `CheckAndSetEnsembleOutput` over the outputs of the ensemble. -/
def checkAndSetOutputs : List (Σ _ : String, Nat) → EnsembleContext → Status × EnsembleContext
  | [], ctx => (.ok, ctx)
  | ⟨name, idx⟩ :: outputs, ctx =>
    if !ctx.request.requiresOutput name then checkAndSetOutputs outputs ctx
    else
      let data := ctx.tensor idx
      match data.memory with
      | none =>
        ({ code := .invalidArg,
           message := "unexpected deadlock, output '" ++ name ++
             "' is not set while no more ensemble steps can be made" }, ctx)
      | some memory =>
        if data.input.batchByteSize ≠ memory.totalByteSize then
          ({ code := .internal,
             message := "unexpected size for output '" ++ name ++ "', byte-size " ++
               toString data.input.batchByteSize ++ " does not equal " ++
               toString memory.totalByteSize }, ctx)
        else
          let shape := outputShape info ctx data
          let status := server.allocateOutputBuffer name data.input.batchByteSize shape
          if !status.isOk then (status, ctx)
          else
            let buffer : OutputBuffer :=
              { name := name, shape := shape, content := memory.blocks.flatten }
            checkAndSetOutputs outputs { ctx with outputBuffers := ctx.outputBuffers ++ [buffer] }

/-- `CheckAndSetEnsembleOutput`. -/
def checkAndSetEnsembleOutput (ctx : EnsembleContext) : Status × EnsembleContext :=
  checkAndSetOutputs info server info.ensembleOutputToTensor.entries ctx

/-- The name of the ensemble is added to the message of an error. -/
def withEnsembleName (status : Status) : Status :=
  if status.isOk then status
  else
    { code := status.code,
      message := "in ensemble '" ++ info.ensembleName ++ "', " ++ status.message }

/-- `FinishEnsemble`. -/
def finishEnsemble (ctx : EnsembleContext) : EnsembleContext :=
  let (status, ctx) :=
    if ctx.ensembleStatus.isOk then checkAndSetEnsembleOutput info server ctx
    else (ctx.ensembleStatus, ctx)
  let status := withEnsembleName info status
  { ctx with ensembleStatus := status, completions := ctx.completions ++ [status] }

/-! ### `PrepareSteps` and `Proceed` -/

/-- The part of `PrepareSteps` for an ensemble that has not failed. -/
def advance (completed : Option (Step × StepResponse)) (ctx : EnsembleContext) :
    EnsembleContext × List Step :=
  let (status, ctx, updated) := updateEnsembleState info completed ctx
  let (status, ctx, res) :=
    if status.isOk then getNextSteps info server updated ctx else (status, ctx, [])
  let ctx := { ctx with ensembleStatus := status }
  -- an error, or no more progress: in either case this is the last call of FinishEnsemble
  if !status.isOk || ctx.inflightStepCounter == 0 then (finishEnsemble info server ctx, [])
  else (ctx, res)

/-- `PrepareSteps`, with the steps that became ready. -/
def prepareSteps (completed : Option (Step × StepResponse)) (ctx : EnsembleContext) :
    EnsembleContext × List Step :=
  let ctx :=
    if completed.isNone && !ctx.ensembleStatus.isOk then finishEnsemble info server ctx else ctx
  if ctx.ensembleStatus.isOk then advance info server completed ctx else (ctx, [])

end EnsembleContext

/-! ## An ensemble request with its steps -/

/-- One ensemble request: its context, whether `Enqueue` has called `Proceed`, what each
call of `ScheduleSteps` in progress still has to hand to `HandleInfer`, and the steps that
were handed over and whose callback has not begun. A callback that runs inside
`HandleInfer` leaves the rest of the list of its `ScheduleSteps` call for later. -/
structure System where
  ctx : EnsembleContext
  begun : Bool
  scheduling : List (List Step)
  outstanding : List Step

namespace System

variable (info : EnsembleInfo)

/-- The context that `EnsembleScheduler::Enqueue` creates. -/
def enqueue (server : Server) (request : EnsembleRequest) : System where
  ctx := EnsembleContext.create info server request
  begun := false
  scheduling := []
  outstanding := []

/-- What can happen next. -/
inductive Action
  /-- `Enqueue` calls `Proceed` -/
  | begin (server : Server)
  /-- a call of `ScheduleSteps` hands its next step to `HandleInfer` -/
  | handOver (call : Nat)
  /-- a step that was handed over calls back, with this response -/
  | callBack (step : Nat) (response : StepResponse) (server : Server)

/-- `Proceed`. -/
def proceed (server : Server) (completed : Option (Step × StepResponse)) (s : System) : System :=
  let (ctx, readySteps) := s.ctx.prepareSteps info server completed
  { s with
    ctx := ctx
    scheduling :=
      if ctx.ensembleStatus.isOk then s.scheduling ++ [readySteps] else s.scheduling }

def step (s : System) : Action → Option System
  | .begin server =>
    if s.begun then none else some (proceed info server none { s with begun := true })
  | .handOver call =>
    match s.scheduling[call]? with
    | some (next :: rest) =>
      some { s with
        scheduling := s.scheduling.set call rest
        outstanding := s.outstanding ++ [next] }
    | _ => none
  | .callBack i response server =>
    match s.outstanding[i]? with
    | some completed =>
      some (proceed info server (some (completed, response))
        { s with outstanding := s.outstanding.eraseIdx i })
    | none => none

end System

end FinBert.Ensemble
