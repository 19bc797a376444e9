import FinBert.Lib.Overwrite
import FinBert.Serving.StringTensor

/-!
# Responses

`InferResponseProvider` (`provider.cc`) gives a backend the buffers for the outputs of a request
and writes the header of the response. An output is returned as raw bytes, in the body of an HTTP
response or in an entry of `raw_output` of a gRPC response, or as classes in the header. The
buffer is chosen by the presence of the field `cls` in the request, the entry of the header by
the count in this field.

Results:
1. `httpReturned_spec`, `grpcReturned_spec`: the outputs and the bytes behind a sequence of calls
   of `AllocateOutputBuffer`.
2. `finalizeResponse_spec`: the entries of the header.
3. `described_iff`: when the header describes the bytes.
-/

namespace FinBert.Serving.Response

/-! ## `InferResponseProvider` -/

/-- `InferRequestHeader::Output`, with the count of the field `cls` when it is present. -/
structure RequestOutput where
  name : String
  cls : Option Nat := none

/-- `InferRequestHeader`, as far as a response provider reads it. -/
structure RequestHeader where
  batchSize : Nat
  output : List RequestOutput

/-- Where `content` points to: the `buffer_` of an output, or the place of an output in the bytes
of the response. -/
inductive Content
  | buffer (idx : Nat)
  | response (place : Nat)
deriving DecidableEq

/-- `InferResponseProvider::Output`. -/
structure Output where
  name : String
  shape : List Int
  clsCount : Nat
  ptr : Option Content
  byteSize : Nat
  buffer : Bytes := []

/-- `InferResponseProvider`. -/
structure Provider where
  requestHeader : RequestHeader
  outputMap : UnorderedMap String RequestOutput
  outputs : List Output := []

/-- `output_map_`: the first one of the outputs with a name. -/
def outputMapOf (output : List RequestOutput) : UnorderedMap String RequestOutput :=
  output.foldl (fun outputMap output =>
    if output.name ∈ outputMap then outputMap else outputMap.insert output.name output) ∅

/-- `InferResponseProvider::InferResponseProvider`. -/
def Provider.create (requestHeader : RequestHeader) : Provider where
  requestHeader := requestHeader
  outputMap := outputMapOf requestHeader.output

/-- `CheckAndSetIfBufferedOutput`: the output that is put behind `outputs_`. The bytes of a new
buffer are zeros. -/
def Provider.checkAndSetIfBufferedOutput (provider : Provider) (name : String)
    (contentByteSize : Nat) (contentShape : List Int) : Except Status Output :=
  match provider.outputMap.lookup name with
  | none => .error { code := .internal, message := "unexpected output '" ++ name ++ "'" }
  | some output =>
    match output.cls with
    | none =>
      .ok { name := name, shape := contentShape, clsCount := 0, ptr := none,
            byteSize := contentByteSize }
    | some count =>
      .ok { name := name, shape := contentShape, clsCount := count,
            ptr := some (.buffer provider.outputs.length), byteSize := contentByteSize,
            buffer := List.replicate contentByteSize 0 }

def Provider.addOutput (provider : Provider) (output : Output) : Provider :=
  { provider with outputs := provider.outputs ++ [output] }

/-- The bytes of a tensor are copied to the `buffer_` of an output. -/
def Provider.writeBuffer (provider : Provider) (idx : Nat) (tensor : Bytes) : Provider :=
  { provider with
    outputs := provider.outputs.modify idx fun output =>
      { output with buffer := overwrite output.buffer 0 tensor } }

/-! ## `AllocateOutputBuffer` -/

/-- `GRPCInferResponseProvider`, with the `raw_output` of its response. -/
structure GrpcProvider where
  base : Provider
  rawOutput : List Bytes := []

/-- `GRPCInferResponseProvider::AllocateOutputBuffer`. -/
def GrpcProvider.allocateOutputBuffer (provider : GrpcProvider) (name : String)
    (contentByteSize : Nat) (contentShape : List Int) :
    Except Status (Option Content) × GrpcProvider :=
  match provider.base.checkAndSetIfBufferedOutput name contentByteSize contentShape with
  | .error status => (.error status, provider)
  | .ok output =>
    match output.ptr with
    | none =>
      let content := some (.response provider.rawOutput.length)
      (.ok content,
        { base := provider.base.addOutput { output with ptr := content },
          rawOutput := provider.rawOutput ++ [List.replicate contentByteSize 0] })
    | some content =>
      (.ok (some content),
        { base := provider.base.addOutput output, rawOutput := provider.rawOutput ++ [[]] })

/-- The bytes of a tensor are copied to `content`. -/
def GrpcProvider.write (provider : GrpcProvider) (tensor : Bytes) : Option Content → GrpcProvider
  | none => provider
  | some (.buffer idx) => { provider with base := provider.base.writeBuffer idx tensor }
  | some (.response place) =>
    { provider with
      rawOutput := provider.rawOutput.modify place fun raw => overwrite raw 0 tensor }

/-- What the `evbuffer` answers: the space that `evbuffer_reserve_space` returns, and whether
`evbuffer_commit_space` succeeds. -/
structure EvbufferAnswer where
  space : Option Bytes
  committed : Bool

/-- `HTTPInferResponseProvider`, with the bytes of `output_buffer_`. -/
structure HttpProvider where
  base : Provider
  outputBuffer : Bytes := []

/-- `HTTPInferResponseProvider::AllocateOutputBuffer`. -/
def HttpProvider.allocateOutputBuffer (provider : HttpProvider) (name : String)
    (contentByteSize : Nat) (contentShape : List Int) (evbuffer : EvbufferAnswer) :
    Except Status (Option Content) × HttpProvider :=
  match provider.base.checkAndSetIfBufferedOutput name contentByteSize contentShape with
  | .error status => (.error status, provider)
  | .ok output =>
    let added : HttpProvider := { provider with base := provider.base.addOutput output }
    if output.ptr = none ∧ contentByteSize > 0 then
      match evbuffer.space with
      | none =>
        (.error { code := .internal,
                  message := "failed to reserve " ++ toString contentByteSize ++
                    " bytes in output tensor buffer" }, added)
      | some space =>
        if space.length < contentByteSize then
          (.error { code := .internal,
                    message := "reserved " ++ toString space.length ++
                      " bytes in output tensor buffer, need " ++ toString contentByteSize },
            added)
        else if evbuffer.committed then
          let content := some (.response provider.outputBuffer.length)
          (.ok content,
            { base := provider.base.addOutput { output with ptr := content },
              outputBuffer := provider.outputBuffer ++ space.take contentByteSize })
        else
          (.error { code := .internal,
                    message := "failed to commit output tensors to output buffer" }, added)
    else (.ok output.ptr, added)

/-- The bytes of a tensor are copied to `content`. -/
def HttpProvider.write (provider : HttpProvider) (tensor : Bytes) : Option Content → HttpProvider
  | none => provider
  | some (.buffer idx) => { provider with base := provider.base.writeBuffer idx tensor }
  | some (.response place) =>
    { provider with outputBuffer := overwrite provider.outputBuffer place tensor }

/-! ## The outputs of a request -/

/-- An output that a backend returns: it allocates a buffer of the size of the tensor and copies
the tensor to it. -/
structure Call where
  name : String
  shape : List Int
  tensor : Bytes

/-- The outputs of a request, one after another. The request fails when there is no buffer for
one of them. -/
def GrpcProvider.returned (provider : GrpcProvider) : List Call → Except Status GrpcProvider
  | [] => .ok provider
  | call :: calls =>
    match provider.allocateOutputBuffer call.name call.tensor.length call.shape with
    | (.error status, _) => .error status
    | (.ok content, provider) => (provider.write call.tensor content).returned calls

/-- The outputs of a request, each with the answers of the `evbuffer`. -/
def HttpProvider.returned (provider : HttpProvider) :
    List (Call × EvbufferAnswer) → Except Status HttpProvider
  | [] => .ok provider
  | (call, evbuffer) :: calls =>
    match provider.allocateOutputBuffer call.name call.tensor.length call.shape evbuffer with
    | (.error status, _) => .error status
    | (.ok content, provider) => (provider.write call.tensor content).returned calls

/-! ## `FinalizeResponse` -/

/-- `DataType_Name`. -/
def dataTypeName : DataType → String
  | .invalid => "TYPE_INVALID"
  | .bool => "TYPE_BOOL"
  | .uint8 => "TYPE_UINT8"
  | .uint16 => "TYPE_UINT16"
  | .uint32 => "TYPE_UINT32"
  | .uint64 => "TYPE_UINT64"
  | .int8 => "TYPE_INT8"
  | .int16 => "TYPE_INT16"
  | .int32 => "TYPE_INT32"
  | .int64 => "TYPE_INT64"
  | .fp16 => "TYPE_FP16"
  | .fp32 => "TYPE_FP32"
  | .fp64 => "TYPE_FP64"
  | .string => "TYPE_STRING"

/-- The data types that have an instance of `AddClassResults`. -/
def hasClassResults : DataType → Bool
  | .uint8 | .uint16 | .uint32 | .uint64 | .int8 | .int16 | .int32 | .int64 | .fp32 | .fp64 => true
  | .invalid | .bool | .fp16 | .string => false

/-- `InferenceBackend`, with what `FinalizeResponse` reads of it. -/
structure InferenceBackend where
  version : Int
  config : ModelConfig

def InferenceBackend.name (backend : InferenceBackend) : String := backend.config.name

/-- `InferenceBackend::GetOutput`: the first output of the configuration with the name. -/
def InferenceBackend.getOutput (backend : InferenceBackend) (name : String) :
    Except Status ModelOutput :=
  match backend.config.output.find? (·.name == name) with
  | some output => .ok output
  | none =>
    .error { code := .invalidArg,
             message := "unexpected inference output '" ++ name ++ "' for model '" ++
               backend.name ++ "'" }

/-- The result in an `InferResponseHeader::Output`: a `Raw`, or the `batch_classes`. -/
inductive OutputResult (Classes : Type)
  | raw (dims : List Int) (batchByteSize : Nat)
  | batchClasses (classes : Classes)

/-- `InferResponseHeader::Output`. -/
structure HeaderOutput (Classes : Type) where
  name : String
  result : OutputResult Classes

/-- `InferResponseHeader`. -/
structure ResponseHeader (Classes : Type) where
  modelName : String
  modelVersion : Int
  batchSize : Nat
  output : List (HeaderOutput Classes)

/-- `has_raw`. -/
def HeaderOutput.hasRaw {Classes : Type} (entry : HeaderOutput Classes) : Bool :=
  match entry.result with
  | .raw _ _ => true
  | .batchClasses _ => false

/-- `batch1_backend_shape`: the shape of an output without its batch dimension. -/
def batch1BackendShape (backend : InferenceBackend) (shape : List Int) : List Int :=
  if backend.config.maxBatchSize = 0 then shape else shape.drop 1

/-- `batch1_element_count`. -/
def batch1ElementCount (backend : InferenceBackend) (shape : List Int) : Nat :=
  (batch1BackendShape backend shape).foldl (fun cnt d => uint64 (cnt * d)) 1

/-- The dimensions of a raw output. -/
def rawDims (backend : InferenceBackend) (outputConfig : ModelOutput) (shape : List Int) :
    List Int :=
  if outputConfig.reshape.isSome then outputConfig.dims else batch1BackendShape backend shape

section
variable {Classes : Type}
  (addClassResults : DataType → Output → (batch1ElementCount batchSize : Nat) → Classes)

/-- The body of the loop over `outputs_`. `addClassResults` is `AddClassResults`, which reads the
`buffer_` of the output. -/
def finalizeOutput (backend : InferenceBackend) (batchSize : Nat) (output : Output) :
    Except Status (HeaderOutput Classes) :=
  match backend.getOutput output.name with
  | .error status => .error status
  | .ok outputConfig =>
    let expectedShape := outputConfig.reshape.getD outputConfig.dims
    if !compareDimsWithWildcard expectedShape (batch1BackendShape backend output.shape) then
      .error { code := .invalidArg,
               message := "output '" ++ output.name ++ "' for model '" ++ backend.name ++
                 "' has shape " ++ dimsListToString (batch1BackendShape backend output.shape) ++
                 " but model configuration specifies shape " ++ dimsListToString expectedShape }
    else if output.clsCount = 0 then
      .ok { name := output.name,
            result := .raw (rawDims backend outputConfig output.shape) output.byteSize }
    else if hasClassResults outputConfig.dataType then
      .ok { name := output.name,
            result := .batchClasses
              (addClassResults outputConfig.dataType output
                (batch1ElementCount backend output.shape) batchSize) }
    else
      .error { code := .invalidArg,
               message := "class result not available for output '" ++ output.name ++
                 "' due to unsupported type '" ++ dataTypeName outputConfig.dataType ++ "'" }

/-- The loop over `outputs_`. -/
def finalizeOutputs (backend : InferenceBackend) (batchSize : Nat) :
    List Output → Except Status (List (HeaderOutput Classes))
  | [] => .ok []
  | output :: outputs =>
    match finalizeOutput addClassResults backend batchSize output with
    | .error status => .error status
    | .ok entry =>
      match finalizeOutputs backend batchSize outputs with
      | .error status => .error status
      | .ok entries => .ok (entry :: entries)

/-- `FinalizeResponse`: the header, if it succeeds. -/
def finalizeResponse (backend : InferenceBackend) (provider : Provider) :
    Except Status (ResponseHeader Classes) :=
  match finalizeOutputs addClassResults backend provider.requestHeader.batchSize
    provider.outputs with
  | .error status => .error status
  | .ok output =>
    .ok { modelName := backend.name, modelVersion := backend.version,
          batchSize := provider.requestHeader.batchSize, output := output }

end

/-! ## The outputs behind the calls -/

theorem modify_append_singleton {α : Type} (xs : List α) (x : α) (f : α → α) :
    (xs ++ [x]).modify xs.length f = xs ++ [f x] := by
  induction xs with
  | nil => rfl
  | cons y xs ih => rw [List.cons_append, List.length_cons, List.modify_succ_cons, ih]; rfl

/-- The count of the field `cls` of a requested output, if it is present. -/
def clsOf (outputMap : UnorderedMap String RequestOutput) (call : Call) : Option Nat :=
  (outputMap.lookup call.name).bind RequestOutput.cls

/-- An output of `outputs_` is the one that was returned. -/
structure IsOutputOf (outputMap : UnorderedMap String RequestOutput) (call : Call)
    (output : Output) : Prop where
  name : output.name = call.name
  clsCount : output.clsCount = (clsOf outputMap call).getD 0
  byteSize : output.byteSize = call.tensor.length

/-- The bytes of an output that are put into the response. -/
def sent (outputMap : UnorderedMap String RequestOutput) (call : Call) : Bytes :=
  if (clsOf outputMap call).isSome then [] else call.tensor

section
variable {provider provider' : Provider} {calls : List Call} {call : Call}

/-- The output for a call, with no pointer or one to its own buffer. -/
theorem checkAndSetIfBufferedOutput_spec {output : Output}
    (h : provider.checkAndSetIfBufferedOutput call.name call.tensor.length call.shape =
      .ok output) :
    IsOutputOf provider.outputMap call output ∧
      (output.ptr = none ∧ clsOf provider.outputMap call = none ∨
        output.ptr = some (.buffer provider.outputs.length) ∧
          (clsOf provider.outputMap call).isSome) := by
  unfold Provider.checkAndSetIfBufferedOutput at h
  split at h
  · cases h
  · next requested hlookup =>
    have hcls : clsOf provider.outputMap call = requested.cls := by
      rw [clsOf, hlookup, Option.bind_some]
    split at h
    · next hnone =>
      cases h
      exact ⟨⟨rfl, by rw [hcls, hnone]; rfl, rfl⟩, .inl ⟨rfl, hcls.trans hnone⟩⟩
    · next count hsome =>
      cases h
      refine ⟨⟨rfl, by rw [hcls, hsome]; rfl, rfl⟩, .inr ⟨rfl, ?_⟩⟩
      rw [hcls, hsome]
      rfl

/-- Behind one more call there is one more output. -/
structure Adds (provider : Provider) (calls : List Call) (provider' : Provider) : Prop where
  requestHeader : provider'.requestHeader = provider.requestHeader
  outputMap : provider'.outputMap = provider.outputMap
  outputs : ∃ outputs, List.Forall₂ (IsOutputOf provider.outputMap) calls outputs ∧
    provider'.outputs = provider.outputs ++ outputs

theorem Adds.refl (provider : Provider) : Adds provider [] provider :=
  ⟨rfl, rfl, [], .nil, (List.append_nil _).symm⟩

theorem Adds.cons {provider'' : Provider} (h : Adds provider [call] provider')
    (h' : Adds provider' calls provider'') : Adds provider (call :: calls) provider'' := by
  obtain ⟨hheader, hmap, _, hone, houtputs⟩ := h
  obtain ⟨hheader', hmap', outputs', hall, houtputs'⟩ := h'
  obtain ⟨output, _, houtput, hnil, rfl⟩ := List.forall₂_cons_left_iff.mp hone
  cases hnil
  rw [hmap] at hall
  refine ⟨hheader'.trans hheader, hmap'.trans hmap, output :: outputs', .cons houtput hall, ?_⟩
  rw [houtputs', houtputs, List.append_assoc]
  rfl

theorem Adds.addOutput {output : Output} (h : IsOutputOf provider.outputMap call output) :
    Adds provider [call] (provider.addOutput output) :=
  ⟨rfl, rfl, [output], .cons h .nil, rfl⟩

/-- The tensor is copied to the buffer of the output that was added last. -/
theorem Adds.writeBuffer {output : Output} (h : IsOutputOf provider.outputMap call output)
    (tensor : Bytes) :
    Adds provider [call]
      ((provider.addOutput output).writeBuffer provider.outputs.length tensor) := by
  refine ⟨rfl, rfl, [{ output with buffer := overwrite output.buffer 0 tensor }],
    .cons ⟨h.name, h.clsCount, h.byteSize⟩ .nil, ?_⟩
  unfold Provider.writeBuffer Provider.addOutput
  simp only
  rw [modify_append_singleton]

end

section
variable {calls : List Call} {call : Call} {content : Option Content}

/-- One output of a gRPC response. -/
theorem grpcReturned_step {provider provider' : GrpcProvider}
    (h : provider.allocateOutputBuffer call.name call.tensor.length call.shape =
      (.ok content, provider')) :
    Adds provider.base [call] (provider'.write call.tensor content).base ∧
      (provider'.write call.tensor content).rawOutput =
        provider.rawOutput ++ [sent provider.base.outputMap call] := by
  unfold GrpcProvider.allocateOutputBuffer at h
  split at h
  · cases h
  · next output houtput =>
    obtain ⟨houtput, ⟨hptr, hcls⟩ | ⟨hptr, hcls⟩⟩ := checkAndSetIfBufferedOutput_spec houtput
    · rw [hptr] at h
      cases h
      refine ⟨Adds.addOutput ⟨houtput.name, houtput.clsCount, houtput.byteSize⟩, ?_⟩
      unfold GrpcProvider.write sent
      simp only
      rw [modify_append_singleton, overwrite_zero List.length_replicate.symm, hcls]
      rfl
    · rw [hptr] at h
      cases h
      refine ⟨Adds.writeBuffer houtput _, ?_⟩
      unfold GrpcProvider.write sent
      simp only [hcls, if_true]

/-- One output of an HTTP response. -/
theorem httpReturned_step {provider provider' : HttpProvider} {evbuffer : EvbufferAnswer}
    (h : provider.allocateOutputBuffer call.name call.tensor.length call.shape evbuffer =
      (.ok content, provider')) :
    Adds provider.base [call] (provider'.write call.tensor content).base ∧
      (provider'.write call.tensor content).outputBuffer =
        provider.outputBuffer ++ sent provider.base.outputMap call := by
  unfold HttpProvider.allocateOutputBuffer at h
  split at h
  · cases h
  · next output houtput =>
    obtain ⟨houtput, ⟨hptr, hcls⟩ | ⟨hptr, hcls⟩⟩ := checkAndSetIfBufferedOutput_spec houtput
    · have hsent : sent provider.base.outputMap call = call.tensor := by
        rw [sent, hcls]
        rfl
      rw [hsent]
      simp only [hptr, true_and] at h
      split at h
      · split at h
        · cases h
        · next space hspace =>
          split at h
          · cases h
          · next hlength =>
            split at h
            · cases h
              refine ⟨Adds.addOutput ⟨houtput.name, houtput.clsCount, houtput.byteSize⟩, ?_⟩
              have hright := overwrite_append_right provider.outputBuffer
                (space.take call.tensor.length) 0 call.tensor
              rw [Nat.add_zero, overwrite_zero
                (List.length_take_of_le (Nat.not_lt.mp hlength)).symm] at hright
              exact hright
            · cases h
      · next hempty =>
        cases h
        refine ⟨Adds.addOutput houtput, ?_⟩
        rw [List.eq_nil_of_length_eq_zero (Nat.eq_zero_of_not_pos hempty), List.append_nil]
        rfl
    · simp only [hptr, reduceCtorEq, false_and, if_false] at h
      cases h
      refine ⟨Adds.writeBuffer houtput _, ?_⟩
      unfold HttpProvider.write sent
      simp only [hcls, if_true, List.append_nil]

/-- The outputs and the bytes of a gRPC response. -/
theorem grpcReturned_spec {provider provider' : GrpcProvider}
    (h : provider.returned calls = .ok provider') :
    Adds provider.base calls provider'.base ∧
      provider'.rawOutput = provider.rawOutput ++ calls.map (sent provider.base.outputMap) := by
  induction calls generalizing provider with
  | nil =>
    cases h
    exact ⟨.refl _, (List.append_nil _).symm⟩
  | cons call calls ih =>
    rw [GrpcProvider.returned] at h
    split at h
    · cases h
    · next content provider₁ halloc =>
      obtain ⟨hadds, hraw⟩ := grpcReturned_step halloc
      obtain ⟨hadds', hraw'⟩ := ih h
      rw [hadds.outputMap, hraw, List.append_assoc] at hraw'
      exact ⟨hadds.cons hadds', hraw'⟩

/-- The outputs and the bytes of an HTTP response. -/
theorem httpReturned_spec {provider provider' : HttpProvider}
    {calls : List (Call × EvbufferAnswer)} (h : provider.returned calls = .ok provider') :
    Adds provider.base (calls.map Prod.fst) provider'.base ∧
      provider'.outputBuffer = provider.outputBuffer ++
        ((calls.map Prod.fst).map (sent provider.base.outputMap)).flatten := by
  induction calls generalizing provider with
  | nil =>
    cases h
    exact ⟨.refl _, (List.append_nil _).symm⟩
  | cons call calls ih =>
    obtain ⟨call, evbuffer⟩ := call
    rw [HttpProvider.returned] at h
    split at h
    · cases h
    · next content provider₁ halloc =>
      obtain ⟨hadds, hbody⟩ := httpReturned_step halloc
      obtain ⟨hadds', hbody'⟩ := ih h
      rw [hadds.outputMap, hbody, List.append_assoc] at hbody'
      exact ⟨hadds.cons hadds', hbody'⟩

end

/-! ## The header and the bytes -/

section
variable {Classes : Type}
  {addClassResults : DataType → Output → (batch1ElementCount batchSize : Nat) → Classes}
  {backend : InferenceBackend} {calls : List Call}

/-- An entry of the header is the one of an output: it is raw, with the size of the output, if the
count is 0. -/
structure IsEntryOf (output : Output) (entry : HeaderOutput Classes) : Prop where
  name : entry.name = output.name
  hasRaw : entry.hasRaw ↔ output.clsCount = 0
  byteSize : ∀ dims size, entry.result = .raw dims size → size = output.byteSize

theorem finalizeOutput_spec {batchSize : Nat} {output : Output} {entry : HeaderOutput Classes}
    (h : finalizeOutput addClassResults backend batchSize output = .ok entry) :
    IsEntryOf output entry := by
  unfold finalizeOutput at h
  split at h
  · cases h
  · simp only at h
    split at h
    · cases h
    · split at h
      · next hcount =>
        cases h
        refine ⟨rfl, iff_of_true rfl hcount, fun dims size hresult => ?_⟩
        cases hresult
        rfl
      · next hcount =>
        split at h
        · cases h
          exact ⟨rfl, iff_of_false Bool.false_ne_true hcount, nofun⟩
        · cases h

theorem finalizeOutputs_spec {batchSize : Nat} {outputs : List Output}
    {entries : List (HeaderOutput Classes)}
    (h : finalizeOutputs addClassResults backend batchSize outputs = .ok entries) :
    List.Forall₂ IsEntryOf outputs entries := by
  induction outputs generalizing entries with
  | nil =>
    cases h
    exact .nil
  | cons output outputs ih =>
    rw [finalizeOutputs] at h
    split at h
    · cases h
    · next entry hentry =>
      split at h
      · cases h
      · next entries' hentries =>
        cases h
        exact .cons (finalizeOutput_spec hentry) (ih hentries)

/-- The entries of the header, one for each output. -/
theorem finalizeResponse_spec {provider : Provider} {header : ResponseHeader Classes}
    (h : finalizeResponse addClassResults backend provider = .ok header) :
    List.Forall₂ IsEntryOf provider.outputs header.output := by
  unfold finalizeResponse at h
  split at h
  · cases h
  · next hentries =>
    cases h
    exact finalizeOutputs_spec hentries

/-- The header has one entry for each output, with its name, and with its size if it is raw. -/
def Lists (calls : List Call) (header : ResponseHeader Classes) : Prop :=
  List.Forall₂ (fun call entry => entry.name = call.name ∧
    ∀ dims size, entry.result = .raw dims size → size = call.tensor.length) calls header.output

/-- The bytes of an output that the header announces. -/
def announced (call : Call) (entry : HeaderOutput Classes) : Bytes :=
  if entry.hasRaw then call.tensor else []

/-- The body is made up of the raw outputs, in the order of the header. -/
def HttpDescribed (header : ResponseHeader Classes) (calls : List Call) (body : Bytes) : Prop :=
  Lists calls header ∧ body = (List.zipWith announced calls header.output).flatten

/-- `raw_output` has one entry for each output, which is empty unless the output is raw. -/
def GrpcDescribed (header : ResponseHeader Classes) (calls : List Call)
    (rawOutput : List Bytes) : Prop :=
  Lists calls header ∧ rawOutput = List.zipWith announced calls header.output

/-- No output with bytes has a field `cls` with the count 0. -/
def NoEmptyCls (outputMap : UnorderedMap String RequestOutput) (calls : List Call) : Prop :=
  ∀ call ∈ calls, clsOf outputMap call = some 0 → call.tensor = []

theorem announced_eq {outputMap : UnorderedMap String RequestOutput} {call : Call}
    {output : Output} {entry : HeaderOutput Classes} (houtput : IsOutputOf outputMap call output)
    (hentry : IsEntryOf output entry) : announced call entry =
      if (clsOf outputMap call).getD 0 = 0 then call.tensor else [] := by
  unfold announced
  exact if_congr (by rw [hentry.hasRaw, houtput.clsCount]) rfl rfl

/-- The entries of the header are the ones of the calls. -/
theorem lists_of_outputs {outputMap : UnorderedMap String RequestOutput} {outputs : List Output}
    {header : ResponseHeader Classes}
    (hcalls : List.Forall₂ (IsOutputOf outputMap) calls outputs)
    (hentries : List.Forall₂ IsEntryOf outputs header.output) :
    Lists calls header ∧
      List.zipWith announced calls header.output = calls.map fun call =>
        if (clsOf outputMap call).getD 0 = 0 then call.tensor else [] := by
  unfold Lists
  generalize header.output = entries at *
  induction hcalls generalizing entries with
  | nil =>
    cases hentries
    exact ⟨.nil, rfl⟩
  | cons houtput _ ih =>
    obtain ⟨entry, entries, hentry, hentries', rfl⟩ := List.forall₂_cons_left_iff.mp hentries
    obtain ⟨hlists, hannounced⟩ := ih entries hentries'
    refine ⟨.cons ⟨hentry.name.trans houtput.name, fun dims size hresult => ?_⟩ hlists, ?_⟩
    · exact (hentry.byteSize dims size hresult).trans houtput.byteSize
    · rw [List.zipWith_cons_cons, List.map_cons, hannounced, announced_eq houtput hentry]

/-- The bytes that are sent are the ones that the header announces. -/
theorem sent_eq_iff {outputMap : UnorderedMap String RequestOutput} {call : Call} :
    sent outputMap call =
        (if (clsOf outputMap call).getD 0 = 0 then call.tensor else []) ↔
      (clsOf outputMap call = some 0 → call.tensor = []) := by
  unfold sent
  cases clsOf outputMap call with
  | none => simp
  | some count =>
    rcases Nat.eq_zero_or_pos count with rfl | hpos
    · simp [eq_comm]
    · simp [Nat.ne_of_gt hpos]

theorem sent_eq_or {outputMap : UnorderedMap String RequestOutput} {call : Call} :
    sent outputMap call =
        (if (clsOf outputMap call).getD 0 = 0 then call.tensor else []) ∨
      sent outputMap call = [] := by
  unfold sent
  cases clsOf outputMap call with
  | none => exact .inl rfl
  | some count => exact .inr rfl

theorem length_flatten_map_le {α : Type} {f g : α → Bytes} {xs : List α}
    (h : ∀ x ∈ xs, f x = g x ∨ f x = []) :
    (xs.map f).flatten.length ≤ (xs.map g).flatten.length := by
  induction xs with
  | nil => exact le_rfl
  | cons x xs ih =>
    rw [List.forall_mem_cons] at h
    have hrest := ih h.2
    simp only [List.map_cons, List.flatten_cons, List.length_append]
    rcases h.1 with heq | hnil
    · rw [heq]
      exact Nat.add_le_add_left hrest _
    · rw [hnil, List.length_nil]
      exact Nat.add_le_add (Nat.zero_le _) hrest

/-- Parts of which some may be missing make up the whole only if none is missing. -/
theorem flatten_map_eq_iff {α : Type} {f g : α → Bytes} {xs : List α}
    (h : ∀ x ∈ xs, f x = g x ∨ f x = []) :
    (xs.map f).flatten = (xs.map g).flatten ↔ ∀ x ∈ xs, f x = g x := by
  refine ⟨fun heq => ?_, fun hall => by rw [List.map_congr_left hall]⟩
  induction xs with
  | nil => nofun
  | cons x xs ih =>
    rw [List.forall_mem_cons] at h ⊢
    have hle := length_flatten_map_le h.2
    have hlength := congrArg List.length heq
    simp only [List.map_cons, List.flatten_cons, List.length_append] at heq hlength
    have hfirst : f x = g x := by
      rcases h.1 with hsame | hnil
      · exact hsame
      · rw [hnil, List.length_nil] at hlength
        rw [hnil, List.eq_nil_of_length_eq_zero (show (g x).length = 0 by omega)]
    rw [hfirst] at heq
    exact ⟨hfirst, ih h.2 (List.append_cancel_left heq)⟩

/-- The header describes the bytes of the response if and only if no output with bytes has a
field `cls` with the count 0. -/
theorem described_iff
    (addClassResults : DataType → Output → (batch1ElementCount batchSize : Nat) → Classes)
    (backend : InferenceBackend) (requestHeader : RequestHeader) :
    (∀ (calls : List (Call × EvbufferAnswer)) (provider : HttpProvider)
      (header : ResponseHeader Classes),
      HttpProvider.returned { base := .create requestHeader } calls = .ok provider →
        finalizeResponse addClassResults backend provider.base = .ok header →
          (HttpDescribed header (calls.map Prod.fst) provider.outputBuffer ↔
            NoEmptyCls (outputMapOf requestHeader.output) (calls.map Prod.fst))) ∧
      ∀ (calls : List Call) (provider : GrpcProvider) (header : ResponseHeader Classes),
        GrpcProvider.returned { base := .create requestHeader } calls = .ok provider →
          finalizeResponse addClassResults backend provider.base = .ok header →
            (GrpcDescribed header calls provider.rawOutput ↔
              NoEmptyCls (outputMapOf requestHeader.output) calls) := by
  refine ⟨fun calls provider header hcalls hfinal => ?_,
    fun calls provider header hcalls hfinal => ?_⟩
  · obtain ⟨⟨-, -, outputs, houtputs, hadded⟩, hbody⟩ := httpReturned_spec hcalls
    have hentries := finalizeResponse_spec hfinal
    rw [hadded] at hentries
    obtain ⟨hlists, hannounced⟩ := lists_of_outputs houtputs hentries
    unfold HttpDescribed NoEmptyCls
    rw [and_iff_right hlists, hbody, hannounced]
    exact (flatten_map_eq_iff fun call _ => sent_eq_or).trans
      (forall₂_congr fun call _ => sent_eq_iff)
  · obtain ⟨⟨-, -, outputs, houtputs, hadded⟩, hraw⟩ := grpcReturned_spec hcalls
    have hentries := finalizeResponse_spec hfinal
    rw [hadded] at hentries
    obtain ⟨hlists, hannounced⟩ := lists_of_outputs houtputs hentries
    unfold GrpcDescribed NoEmptyCls
    rw [and_iff_right hlists, hraw, hannounced]
    exact List.map_inj_left.trans (forall₂_congr fun call _ => sent_eq_iff)

/-- A model with the outputs `x` and `y`. -/
def twoOutputs : InferenceBackend where
  version := 1
  config :=
    { output := [{ name := "x", dataType := .uint8, dims := [2] },
        { name := "y", dataType := .uint8, dims := [2] }] }

/-- A request for the bytes of `x` and the best class of `y`. -/
theorem described_rawAndClasses :
    let requestHeader : RequestHeader :=
      { batchSize := 1, output := [{ name := "x" }, { name := "y", cls := some 1 }] }
    let calls : List Call := [⟨"x", [2], [7, 8]⟩, ⟨"y", [2], [5, 9]⟩]
    let evbuffer : EvbufferAnswer := { space := some [0, 0, 0], committed := true }
    (∃ provider header, HttpProvider.returned { base := .create requestHeader }
        (calls.map (·, evbuffer)) = .ok provider ∧
      finalizeResponse (fun _ _ _ _ => ()) twoOutputs provider.base = .ok header ∧
      HttpDescribed header calls provider.outputBuffer) ∧
    ∃ provider header, GrpcProvider.returned { base := .create requestHeader } calls =
        .ok provider ∧
      finalizeResponse (fun _ _ _ _ => ()) twoOutputs provider.base = .ok header ∧
      GrpcDescribed header calls provider.rawOutput := by
  intro requestHeader calls evbuffer
  obtain ⟨hhttp, hgrpc⟩ := described_iff (fun _ _ _ _ => ()) twoOutputs requestHeader
  have hcounts : NoEmptyCls (outputMapOf requestHeader.output) calls := by
    intro call
    revert call
    decide
  exact ⟨⟨_, _, rfl, rfl, (hhttp (calls.map (·, evbuffer)) _ _ rfl rfl).mpr hcounts⟩,
    _, _, rfl, rfl, (hgrpc calls _ _ rfl rfl).mpr hcounts⟩

/-- A request for zero classes of `x`: the header announces two raw bytes, and the body is
empty. -/
theorem not_described_zeroClasses :
    let requestHeader : RequestHeader :=
      { batchSize := 1, output := [{ name := "x", cls := some 0 }] }
    let call : Call := ⟨"x", [2], [7, 8]⟩
    (∃ provider header, HttpProvider.returned { base := .create requestHeader }
        [(call, { space := some [0, 0], committed := true })] = .ok provider ∧
      finalizeResponse (fun _ _ _ _ => ()) twoOutputs provider.base = .ok header ∧
      ¬ HttpDescribed header [call] provider.outputBuffer) ∧
    ∃ provider header, GrpcProvider.returned { base := .create requestHeader } [call] =
        .ok provider ∧
      finalizeResponse (fun _ _ _ _ => ()) twoOutputs provider.base = .ok header ∧
      ¬ GrpcDescribed header [call] provider.rawOutput := by
  refine ⟨⟨_, _, rfl, rfl, fun h => ?_⟩, _, _, rfl, rfl, fun h => ?_⟩
  · exact absurd h.2 (by decide)
  · exact absurd h.2 (by decide)

end

end FinBert.Serving.Response
