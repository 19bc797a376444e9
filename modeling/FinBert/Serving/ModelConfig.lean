import FinBert.Lib.UnorderedMap
import FinBert.Serving.Basic

/-!
# Model configurations

The messages of `model_config.proto` with the fields that the server's core reads, and the
helpers of `model_config.cc`.
-/

namespace FinBert.Serving

/-! ## Messages -/

/-- `DataType`. -/
inductive DataType
  | invalid
  | bool
  | uint8
  | uint16
  | uint32
  | uint64
  | int8
  | int16
  | int32
  | int64
  | fp16
  | fp32
  | fp64
  | string
deriving DecidableEq

/-- `ModelInput::Format`. -/
inductive Format
  | none
  | nhwc
  | nchw
deriving DecidableEq

/-- `ModelInput`, with the shape of its reshape. -/
structure ModelInput where
  name : String
  dataType : DataType
  format : Format := .none
  dims : List Int
  reshape : Option (List Int) := none
deriving DecidableEq

/-- `ModelOutput`. -/
structure ModelOutput where
  name : String
  dataType : DataType
  dims : List Int
  reshape : Option (List Int) := none
deriving DecidableEq

/-- `ModelInstanceGroup::Kind`. -/
inductive InstanceKind
  | auto
  | gpu
  | cpu
deriving DecidableEq

/-- `ModelInstanceGroup`. -/
structure ModelInstanceGroup where
  name : String := ""
  kind : InstanceKind := .auto
  count : Int32 := 0
  gpus : List Int32 := []
deriving DecidableEq

/-- `ModelVersionPolicy::policy_choice`. -/
inductive VersionPolicy
  | latest (numVersions : Nat)
  | all
  | specific (versions : List Int)
deriving DecidableEq

/-- `ModelDynamicBatching`. -/
structure DynamicBatching where
  preferredBatchSize : List Int32 := []
deriving DecidableEq

/-- `ModelSequenceBatching::Control::Kind`. -/
inductive ControlKind
  | start
  | ready
deriving DecidableEq

/-- `ModelSequenceBatching_Control_Kind_Name`. -/
def ControlKind.name : ControlKind → String
  | .start => "CONTROL_SEQUENCE_START"
  | .ready => "CONTROL_SEQUENCE_READY"

/-- `ModelSequenceBatching::Control`. A `float` is the word with its bits. -/
structure Control where
  kind : ControlKind
  int32FalseTrue : List Int32 := []
  fp32FalseTrue : List UInt32 := []
deriving DecidableEq

/-- `ModelSequenceBatching::ControlInput`. -/
structure ControlInput where
  name : String
  control : List Control
deriving DecidableEq

/-- `ModelSequenceBatching`. -/
structure SequenceBatching where
  maxSequenceIdleMicroseconds : Nat := 0
  controlInput : List ControlInput := []
deriving DecidableEq

/-- `ModelEnsembling::Step`. -/
structure EnsembleStep where
  modelName : String
  modelVersion : Int
  inputMap : UnorderedMap String String
  outputMap : UnorderedMap String String
deriving DecidableEq

/-- `ModelConfig::scheduling_choice`. -/
inductive SchedulingChoice
  | unset
  | dynamicBatching (batching : DynamicBatching)
  | sequenceBatching (batching : SequenceBatching)
  | ensembleScheduling (step : List EnsembleStep)
deriving DecidableEq

/-- `ModelConfig`. The default is the message with every field unset. -/
structure ModelConfig where
  name : String := ""
  platform : String := ""
  versionPolicy : Option VersionPolicy := none
  maxBatchSize : Int32 := 0
  input : List ModelInput := []
  output : List ModelOutput := []
  hasOptimization : Bool := false
  scheduling : SchedulingChoice := .unset
  instanceGroup : List ModelInstanceGroup := []
  defaultModelFilename : String := ""
deriving DecidableEq

/-- `ensemble_scheduling().step()`: no steps when the choice is another one. -/
def ModelConfig.step (config : ModelConfig) : List EnsembleStep :=
  match config.scheduling with
  | .ensembleScheduling step => step
  | _ => []

/-! ## Data types -/

/-- `IsFixedSizeDataType`. -/
def isFixedSizeDataType (dtype : DataType) : Bool := dtype != .string

/-- `GetDataTypeByteSize`. -/
def getDataTypeByteSize : DataType → Nat
  | .bool | .uint8 | .int8 => 1
  | .uint16 | .int16 | .fp16 => 2
  | .uint32 | .int32 | .fp32 => 4
  | .uint64 | .int64 | .fp64 => 8
  | .string | .invalid => 0

/-- `GetByteSize`: -1 for a data type without a size and for dimensions with a wildcard. -/
def getByteSize (dtype : DataType) (dims : List Int) : Int :=
  let dtSize := getDataTypeByteSize dtype
  if dtSize = 0 then -1
  else
    let cnt := getElementCount dims
    if cnt = -1 then -1 else int64 (cnt * dtSize)

/-! ## Shapes -/

/-- The test of `CompareDimsWithWildcard` on one dimension. -/
def compareDimWithWildcard (dim0 dim1 : Int) : Bool :=
  dim0 == WILDCARD_DIM || dim1 == WILDCARD_DIM || dim0 == dim1

/-- `CompareDimsWithWildcard`. -/
def compareDimsWithWildcard (dims0 dims1 : List Int) : Bool :=
  dims0.length == dims1.length && (dims0.zip dims1).all fun p => compareDimWithWildcard p.1 p.2

/-- `DimsListToString`. -/
def dimsListToString (dims : List Int) : String := "[" ++ ",".intercalate (dims.map toString) ++ "]"

/-! ## Platforms -/

/-- `Platform`. -/
inductive Platform
  | unknown
  | tensorRTPlan
  | tensorFlowGraphDef
  | tensorFlowSavedModel
  | caffe2NetDef
  | custom
  | ensemble
  | onnxRuntimeOnnx
  | pyTorchLibTorch
deriving DecidableEq, Repr

def kTensorFlowGraphDefPlatform : String := "tensorflow_graphdef"
def kTensorFlowSavedModelPlatform : String := "tensorflow_savedmodel"
def kTensorRTPlanPlatform : String := "tensorrt_plan"
def kCaffe2NetDefPlatform : String := "caffe2_netdef"
def kPyTorchLibTorchPlatform : String := "pytorch_libtorch"
def kCustomPlatform : String := "custom"
def kEnsemblePlatform : String := "ensemble"
def kOnnxRuntimeOnnxPlatform : String := "onnxruntime_onnx"

/-- `GetPlatform`. -/
def getPlatform (platform : String) : Platform :=
  if platform = kTensorFlowGraphDefPlatform then .tensorFlowGraphDef
  else if platform = kTensorFlowSavedModelPlatform then .tensorFlowSavedModel
  else if platform = kTensorRTPlanPlatform then .tensorRTPlan
  else if platform = kCaffe2NetDefPlatform then .caffe2NetDef
  else if platform = kCustomPlatform then .custom
  else if platform = kEnsemblePlatform then .ensemble
  else if platform = kOnnxRuntimeOnnxPlatform then .onnxRuntimeOnnx
  else if platform = kPyTorchLibTorchPlatform then .pyTorchLibTorch
  else .unknown

end FinBert.Serving
