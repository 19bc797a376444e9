import FinBert.Lib.Decides
import FinBert.Serving.Validation

/-!
# Validation of ensembles across models

`ValidateEnsembleConfig` of `ensemble_utils.cc`, for a map of model configurations. The nodes of
the ensemble tensors are keyed by their names, and the pointers from node to node are names. The
order in which the unordered maps are iterated is an argument.

A function stops with a status that the source returns, or with what must not happen: an entry of a
map is used that is not there (`missingEntry`), or a recursion or a loop takes more turns than it
is given (`outOfTurns`).
-/

namespace FinBert.Serving

open UnorderedMap

/-- Why a validation returns no value. -/
inductive Halt
  | status (status : Status)
  | missingEntry
  | outOfTurns
deriving DecidableEq

/-- An error of the given message. -/
def invalidArg {α : Type} (message : String) : Except Halt α :=
  .error (.status { code := .invalidArg, message := message })

/-- `RETURN_IF_ERROR`. -/
def returnIfError (status : Status) : Except Halt Unit :=
  if status.isOk then .ok () else .error (.status status)

/-- `map.find(key)->second`. -/
def secondOf {α : Type} : Option α → Except Halt α
  | some a => .ok a
  | none => .error .missingEntry

/-- The number of an enumerator of `DataType`. -/
def DataType.number : DataType → Nat
  | .invalid => 0
  | .bool => 1
  | .uint8 => 2
  | .uint16 => 3
  | .uint32 => 4
  | .uint64 => 5
  | .int8 => 6
  | .int16 => 7
  | .int32 => 8
  | .int64 => 9
  | .fp16 => 10
  | .fp32 => 11
  | .fp64 => 12
  | .string => 13

def ModelConfig.hasEnsembleScheduling (config : ModelConfig) : Bool :=
  match config.scheduling with
  | .ensembleScheduling _ => true
  | _ => false

/-- `TensorNode`. -/
structure TensorNode where
  modelName : String
  type : DataType
  dims : List Int
  ready : Bool := false
  prevNodes : List String := []
  nextNodes : List String := []
deriving DecidableEq

abbrev TensorNodes := UnorderedMap String TensorNode

/-- `ValidateTensorConsistency`. -/
def validateTensorConsistency (lhs rhs : TensorNode) (message : String) : Status :=
  if lhs.type ≠ rhs.type then
    { code := .invalidArg,
      message := message ++ "inconsistent data type: " ++ toString lhs.type.number ++
        " is inferred from model " ++ lhs.modelName ++ " while " ++ toString rhs.type.number ++
        " is inferred from model " ++ rhs.modelName }
  else if lhs.dims ≠ rhs.dims then
    { code := .invalidArg,
      message := message ++ "inconsistent shape: " ++ dimsListToString lhs.dims ++
        " is inferred from model " ++ lhs.modelName ++ " while " ++ dimsListToString rhs.dims ++
        " is inferred from model " ++ rhs.modelName }
  else .ok

/-! ## The tensors of an ensemble -/

/-- `ensemble_tensors.emplace`: a name that has a node already keeps it. -/
def TensorNodes.emplace (tensors : TensorNodes) (name : String) (node : TensorNode) : TensorNodes :=
  match tensors.find name with
  | some _ => tensors
  | none => tensors.insert name node

/-- The tensors that the ensemble declares. -/
def ensembleTensors (ensemble : String) (config : ModelConfig) : TensorNodes :=
  let tensors := config.input.foldl (fun tensors input =>
    TensorNodes.emplace tensors input.name
      { modelName := ensemble, type := input.dataType, dims := input.dims }) ∅
  config.output.foldl (fun tensors output =>
    TensorNodes.emplace tensors output.name
      { modelName := ensemble, type := output.dataType, dims := output.dims }) tensors

/-- The checks of the model that a step names. -/
def checkStepModel (configMap : UnorderedMap String ModelConfig)
    (invalidModelNames : UnorderedMap String String) (ensemble : String)
    (ensembleConfig : ModelConfig) (modelName : String) : Except Halt ModelConfig :=
  match invalidModelNames.find modelName with
  | some message =>
    invalidArg ("ensemble " ++ ensemble ++ " contains invalid model " ++ modelName ++ " : " ++
      message)
  | none =>
    match configMap.find modelName with
    | none =>
      invalidArg ("ensemble " ++ ensemble ++ " contains model " ++ modelName ++
        " which is not in the available models")
    | some modelConfig =>
      if modelConfig.maxBatchSize < ensembleConfig.maxBatchSize then
        invalidArg ("ensemble " ++ ensemble ++ " allows maximum batch size " ++
          toString ensembleConfig.maxBatchSize.toInt ++ ", but it contains model " ++ modelName ++
          " which only allows  maximum batch size to be " ++
          toString modelConfig.maxBatchSize.toInt)
      else .ok modelConfig

/-- A tensor of a model is mapped to the ensemble tensor `name`. -/
def mapTensor (ensemble : String) (tensors : TensorNodes) (mapping : String × TensorNode) :
    Except Halt TensorNodes :=
  let (name, modelTensor) := mapping
  match tensors.find name with
  | some node => do
    returnIfError (validateTensorConsistency node modelTensor
      ("in ensemble " ++ ensemble ++ ", ensemble tensor " ++ name ++ ": "))
    pure tensors
  | none => pure (tensors.insert name modelTensor)

/-- The check of a key of the input map. -/
def checkInputMap (ensemble : String) (step : EnsembleStep) (modelConfig : ModelConfig)
    (inputMap : Σ _ : String, String) : Except Halt Unit :=
  if inputMap.1 ∈ modelConfig.inputNames then .ok ()
  else
    invalidArg ("in ensemble " ++ ensemble ++ ", ensemble tensor " ++ inputMap.2 ++
      " is mapping to non-existing input " ++ inputMap.1 ++ " in model " ++ step.modelName)

/-- The loop over the input map for one input of the model. -/
def mapModelInput (order : IterationOrder String) (ensemble : String) (step : EnsembleStep)
    (modelConfig : ModelConfig) (tensors : TensorNodes) (modelInput : ModelInput) :
    Except Halt TensorNodes := do
  let modelTensor : TensorNode :=
    { modelName := step.modelName, type := modelInput.dataType, dims := modelInput.dims }
  let mapped := ((order.entries step.inputMap).filter fun inputMap =>
    modelInput.name = inputMap.1).map fun inputMap => (inputMap.2, modelTensor)
  let tensors ← mapped.foldlM (mapTensor ensemble) tensors
  if mapped.length = 0 then
    invalidArg ("in ensemble " ++ ensemble ++ ", input " ++ modelInput.name ++ " in model " ++
      modelConfig.name ++ " is not mapped to any ensemble tensors")
  else if mapped.length > 1 then
    invalidArg ("in ensemble " ++ ensemble ++ ", input " ++ modelInput.name ++ " in model " ++
      modelConfig.name ++ " is mapped to multiple ensemble tensors")
  else pure tensors

/-- The inputs of a step. -/
def mapInputs (order : IterationOrder String) (ensemble : String) (step : EnsembleStep)
    (modelConfig : ModelConfig) (tensors : TensorNodes) : Except Halt TensorNodes := do
  (order.entries step.inputMap).foldlM (fun _ inputMap =>
    checkInputMap ensemble step modelConfig inputMap) ()
  modelConfig.input.foldlM (mapModelInput order ensemble step modelConfig) tensors

/-- The check of a key of the output map. -/
def checkOutputMap (ensemble : String) (step : EnsembleStep) (modelConfig : ModelConfig)
    (outputMap : Σ _ : String, String) : Except Halt Unit :=
  if outputMap.1 ∈ modelConfig.outputNames then .ok ()
  else
    invalidArg ("in ensemble " ++ ensemble ++ ", ensemble tensor " ++ outputMap.2 ++
      " is mapped from non-existing output " ++ outputMap.1 ++ " in model " ++ step.modelName)

/-- The loop over the outputs of the model for one entry of the output map. -/
def mapModelOutput (ensemble : String) (step : EnsembleStep) (modelConfig : ModelConfig)
    (tensors : TensorNodes) (outputMap : Σ _ : String, String) : Except Halt TensorNodes := do
  let mapped := (modelConfig.output.filter fun modelOutput =>
    modelOutput.name = outputMap.1).map fun modelOutput =>
      (outputMap.2,
        ({ modelName := step.modelName, type := modelOutput.dataType,
           dims := modelOutput.dims } : TensorNode))
  let tensors ← mapped.foldlM (mapTensor ensemble) tensors
  if mapped.length > 1 then
    invalidArg ("in ensemble " ++ ensemble ++ ", multiple outputs in model " ++
      modelConfig.name ++ " are mapped to the same ensemble tensor " ++ outputMap.2)
  else pure tensors

/-- The outputs of a step. -/
def mapOutputs (order : IterationOrder String) (ensemble : String) (step : EnsembleStep)
    (modelConfig : ModelConfig) (tensors : TensorNodes) : Except Halt TensorNodes := do
  (order.entries step.outputMap).foldlM (fun _ outputMap =>
    checkOutputMap ensemble step modelConfig outputMap) ()
  (order.entries step.outputMap).foldlM (mapModelOutput ensemble step modelConfig) tensors

/-- The links between an output of a step and one of its inputs. -/
def linkTensors (output : String) (tensors : TensorNodes) (inputMap : Σ _ : String, String) :
    Except Halt TensorNodes := do
  let node ← secondOf (tensors.find output)
  let tensors : TensorNodes :=
    tensors.insert output { node with prevNodes := node.prevNodes ++ [inputMap.2] }
  let prevNode ← secondOf (tensors.find inputMap.2)
  pure (tensors.insert inputMap.2 { prevNode with nextNodes := prevNode.nextNodes ++ [output] })

/-- The links between the outputs of a step and its inputs. -/
def linkStep (order : IterationOrder String) (step : EnsembleStep) (tensors : TensorNodes) :
    Except Halt TensorNodes :=
  (order.entries step.outputMap).foldlM (fun tensors outputMap => do
    let _ ← secondOf (tensors.find outputMap.2)
    (order.entries step.inputMap).foldlM (linkTensors outputMap.2) tensors) tensors

/-! ## The data flow -/

/-- The loop over the inputs of the ensemble: they are ready. -/
def markReady (tensors : TensorNodes) (name : String) : Except Halt TensorNodes := do
  let node ← secondOf (tensors.find name)
  pure (tensors.insert name { node with ready := true })

def TensorNodes.isReady (tensors : TensorNodes) (name : String) : Except Halt Bool := do
  let node ← secondOf (tensors.find name)
  pure node.ready

/-- The loop over the previous nodes of a node. -/
def allReady (tensors : TensorNodes) : List String → Except Halt Bool
  | [] => pure true
  | prevNode :: prevNodes => do
    let ready ← tensors.isReady prevNode
    if ready then allReady tensors prevNodes else pure false

/-- One turn of the loop over the next nodes of a ready node. -/
def visitNext (s : TensorNodes × List String) (name : String) :
    Except Halt (TensorNodes × List String) := do
  let (tensors, readyQueue) := s
  let nextNode ← secondOf (tensors.find name)
  if nextNode.ready then pure (tensors, readyQueue)
  else
    let nextNodeReady ← allReady tensors nextNode.prevNodes
    if nextNodeReady then
      pure (tensors.insert name { nextNode with ready := true }, readyQueue ++ [name])
    else pure (tensors, readyQueue)

/-- The loop over the queue of the ready nodes. -/
def flowThrough : Nat → TensorNodes → List String → Except Halt TensorNodes
  | _, tensors, [] => pure tensors
  | 0, _, _ :: _ => .error .outOfTurns
  | turns + 1, tensors, name :: readyQueue => do
    let readyNode ← secondOf (tensors.find name)
    let (tensors, readyQueue) ← readyNode.nextNodes.foldlM visitNext (tensors, readyQueue)
    flowThrough turns tensors readyQueue

/-- The check of an ensemble output. -/
def checkEnsembleOutput (ensemble : String) (tensors : TensorNodes) (output : ModelOutput) :
    Except Halt Unit := do
  let ready ← tensors.isReady output.name
  if ready then .ok ()
  else
    invalidArg ("in ensemble " ++ ensemble ++ ", no data will be written to " ++
      "ensemble output " ++ output.name)

/-- The check of an ensemble tensor. -/
def checkRedundant (ensemble : String) (config : ModelConfig) (tensor : Σ _ : String, TensorNode) :
    Except Halt Unit :=
  if tensor.1 ∈ config.outputNames then .ok ()
  else if !tensor.2.ready then
    invalidArg ("in ensemble " ++ ensemble ++ ", ensemble tensor " ++ tensor.1 ++
      " is redundant as no data will be written to it")
  else if tensor.2.nextNodes.length = 0 then
    invalidArg ("in ensemble " ++ ensemble ++ ", ensemble tensor " ++ tensor.1 ++
      " is redundant as it will not be used in any models")
  else .ok ()

/-- The part behind the loop over the steps. -/
def checkEnsembleFlow (order : IterationOrder String) (ensemble : String) (config : ModelConfig)
    (tensors : TensorNodes) : Except Halt Unit := do
  let tensors ← config.inputNames.foldlM markReady tensors
  let tensors ← flowThrough (config.input.length + tensors.entries.length) tensors
    config.inputNames
  config.output.foldlM (fun _ output => checkEnsembleOutput ensemble tensors output) ()
  (order.entries tensors).foldlM (fun _ tensor => checkRedundant ensemble config tensor) ()

/-! ## The ensembles that an ensemble contains -/

/-- What the recursion changes: the ensembles, with those that are validated, and the ensembles on
the way to the present one. -/
structure Validated where
  ensembles : UnorderedMap String Bool
  ensembleDependency : List String := []

/-- The validation of an ensemble that a step names. -/
def validateContained (recurse : String → Validated → Except Halt Validated)
    (ensemble modelName : String) (s : Validated) : Except Halt Validated :=
  if modelName ∈ s.ensembleDependency then
    invalidArg ("circular dependency between ensembles: " ++ modelName ++ " -> ... -> " ++
      ensemble ++ " -> " ++ modelName)
  else do
    let validated ← secondOf (s.ensembles.find modelName)
    if validated then pure s
    else
      let s ← recurse modelName
        { s with ensembleDependency := s.ensembleDependency ++ [ensemble] }
      pure { s with ensembleDependency := s.ensembleDependency.dropLast }

/-- The model of a step is validated if it is an ensemble. -/
def validateStepModel (recurse : String → Validated → Except Halt Validated) (ensemble : String)
    (step : EnsembleStep) (modelConfig : ModelConfig) (s : Validated) : Except Halt Validated :=
  if modelConfig.hasEnsembleScheduling then validateContained recurse ensemble step.modelName s
  else pure s

/-- The body of the loop over the steps. -/
def validateStep (order : IterationOrder String) (configMap : UnorderedMap String ModelConfig)
    (invalidModelNames : UnorderedMap String String)
    (recurse : String → Validated → Except Halt Validated) (ensemble : String)
    (ensembleConfig : ModelConfig) (s : TensorNodes × Validated) (step : EnsembleStep) :
    Except Halt (TensorNodes × Validated) := do
  let (tensors, validated) := s
  let modelConfig ←
    checkStepModel configMap invalidModelNames ensemble ensembleConfig step.modelName
  let validated ← validateStepModel recurse ensemble step modelConfig validated
  let tensors ← mapInputs order ensemble step modelConfig tensors
  let tensors ← mapOutputs order ensemble step modelConfig tensors
  let tensors ← linkStep order step tensors
  pure (tensors, validated)

/-- `ValidateEnsembleConfig` of one ensemble. `depth` bounds the recursion. -/
def validateEnsembleConfig (order : IterationOrder String)
    (configMap : UnorderedMap String ModelConfig)
    (invalidModelNames : UnorderedMap String String) :
    (depth : Nat) → (ensemble : String) → Validated → Except Halt Validated
  | 0, _, _ => .error .outOfTurns
  | depth + 1, ensemble, validated => do
    let ensembleConfig ← secondOf (configMap.find ensemble)
    let (tensors, validated) ← ensembleConfig.step.foldlM
      (validateStep order configMap invalidModelNames
        (validateEnsembleConfig order configMap invalidModelNames depth) ensemble ensembleConfig)
      (ensembleTensors ensemble ensembleConfig, validated)
    checkEnsembleFlow order ensemble ensembleConfig tensors
    let _ ← secondOf (validated.ensembles.find ensemble)
    pure { validated with ensembles := validated.ensembles.insert ensemble true }

/-! ## The ensembles of a map -/

/-- The models that are invalid, with the message of their error, and the ensembles. -/
structure Classified where
  invalidModelNames : UnorderedMap String String := ∅
  ensembles : UnorderedMap String Bool := ∅

/-- The body of the loop over the map. -/
def classify (cuda : CudaDeviceCount) (s : Classified) (pair : Σ _ : String, ModelConfig) :
    Except Halt Classified :=
  let status := validateModelConfig cuda pair.2 ""
  if !status.isOk then
    -- Return error if the inputs / outputs of one ensemble is not correct.
    if pair.2.hasEnsembleScheduling then
      invalidArg ("ensemble" ++ pair.1 ++ ": " ++ status.message)
    else .ok { s with invalidModelNames := s.invalidModelNames.insert pair.1 status.message }
  else if pair.2.hasEnsembleScheduling then
    .ok { s with ensembles := s.ensembles.insert pair.1 false }
  else .ok s

/-- The body of the loop over the ensembles. -/
def validateUnlessDone (recurse : String → Validated → Except Halt Validated) (s : Validated)
    (ensemble : String) : Except Halt Validated := do
  let validated ← secondOf (s.ensembles.find ensemble)
  if validated then pure s else recurse ensemble s

/-- `ValidateEnsembleConfig` of all ensembles of a map. -/
def validateEnsembleConfigs (order : IterationOrder String) (cuda : CudaDeviceCount)
    (configMap : UnorderedMap String ModelConfig) (depth : Nat) : Except Halt Unit := do
  let classified ← (order.entries configMap).foldlM (classify cuda) {}
  let _ ← ((order.entries classified.ensembles).map Sigma.fst).foldlM
    (validateUnlessDone
      (validateEnsembleConfig order configMap classified.invalidModelNames depth))
    { ensembles := classified.ensembles }
  pure ()

end FinBert.Serving
