import FinBert.Custom.Backend
import FinBert.Serving.InputMap
import FinBert.Serving.Normalization
import FinBert.Serving.Response

/-!
# An HTTP request for a custom model

`HTTPServerImpl::InferHelper` (`http_server.cc`) makes the payload of a request, which the custom
backend runs as a batch of its own, and `OnCompleteHandleInfer` (`server.cc`) and
`FinalizeResponse` make the response. The callback functions of the backend read the memory that
the body of the request is in, and give out the buffers of the response.

Results:
1. `create_spec`: the request provider has the memory of each input.
2. `writeAt_append`: the pieces of a tensor make up the tensor.
3. `lookup_outputMapOf`, `shapes_returned`: the outputs that are requested, and their shapes.
-/

namespace FinBert.Serving

/-! ## `InferRequestProvider::Create` -/

/-- The loop over the inputs of the header. -/
def fillInputBuffer (modelName : String) (inputBuffer : InputMap) :
    List InferInput → UnorderedMap String (SystemMemory × Nat) →
      Except Status (UnorderedMap String (SystemMemory × Nat))
  | [], buffers => .ok buffers
  | io :: ios, buffers =>
    match inputBuffer.lookup io.name with
    | none =>
      .error { code := .invalidArg,
               message := "input '" ++ io.name ++ "' is specified in request header but" ++
                 " not found in memory block mapping for model '" ++ modelName ++ "'" }
    | some memory =>
      if io.batchByteSize ≠ memory.totalByteSize then
        .error { code := .invalidArg,
                 message := "unexpected size " ++ toString memory.totalByteSize ++
                   " for input '" ++ io.name ++ "', expecting " ++ toString io.batchByteSize ++
                   " for model '" ++ modelName ++ "'" }
      else fillInputBuffer modelName inputBuffer ios (buffers.insert io.name (memory, 0))

/-- `InferRequestProvider::Create`. -/
def InferRequestProvider.create (modelName : String) (requestHeader : InferRequestHeader)
    (inputBuffer : InputMap) : Except Status InferRequestProvider :=
  match fillInputBuffer modelName inputBuffer requestHeader.input ∅ with
  | .error status => .error status
  | .ok buffers => .ok { requestHeader := requestHeader, data := .inputBuffer buffers }

theorem fillInputBuffer_spec {modelName : String} {inputBuffer : InputMap} {ios : List InferInput}
    (hsizes : ∀ io ∈ ios, ∃ memory, inputBuffer.lookup io.name = some memory ∧
      memory.totalByteSize = io.batchByteSize)
    (buffers : UnorderedMap String (SystemMemory × Nat)) :
    ∃ buffers', fillInputBuffer modelName inputBuffer ios buffers = .ok buffers' ∧
      (∀ io ∈ ios, buffers'.lookup io.name =
        (inputBuffer.lookup io.name).map fun memory => (memory, 0)) ∧
      ∀ name, name ∉ ios.map (·.name) → buffers'.lookup name = buffers.lookup name := by
  induction ios generalizing buffers with
  | nil => exact ⟨buffers, rfl, fun io hio => absurd hio List.not_mem_nil, fun _ _ => rfl⟩
  | cons io ios ih =>
    rw [List.forall_mem_cons] at hsizes
    obtain ⟨⟨memory, hmemory, hsize⟩, hsizes⟩ := hsizes
    obtain ⟨buffers', hfill, hall, hothers⟩ := ih hsizes (buffers.insert io.name (memory, 0))
    refine ⟨buffers', ?_, List.forall_mem_cons.mpr ⟨?_, hall⟩, fun name hname => ?_⟩
    · rw [fillInputBuffer, hmemory]
      exact (if_neg (not_not.mpr hsize.symm)).trans hfill
    · by_cases hlater : io.name ∈ ios.map (·.name)
      · obtain ⟨io', hio', hname⟩ := List.mem_map.mp hlater
        rw [← hname]
        exact hall io' hio'
      · rw [hothers _ hlater, AList.lookup_insert, hmemory]
        rfl
    · rw [List.map_cons, List.mem_cons, not_or] at hname
      rw [hothers name hname.2, AList.lookup_insert_ne hname.1]

/-- When the memory of each input has the size of the header, the provider has it, and nothing of
it has been read. -/
theorem InferRequestProvider.create_spec {modelName : String} {requestHeader : InferRequestHeader}
    {inputBuffer : InputMap}
    (hsizes : ∀ io ∈ requestHeader.input, ∃ memory, inputBuffer.lookup io.name = some memory ∧
      memory.totalByteSize = io.batchByteSize) :
    ∃ provider, create modelName requestHeader inputBuffer = .ok provider ∧
      provider.requestHeader = requestHeader ∧
      ∀ io ∈ requestHeader.input, ∀ memory, inputBuffer.lookup io.name = some memory →
        provider.CursorAt io.name memory 0 := by
  obtain ⟨buffers, hfill, hall, -⟩ := fillInputBuffer_spec hsizes ∅
  refine ⟨_, by rw [create, hfill], rfl, fun io hio memory hmemory => ⟨rfl, buffers, rfl, ?_⟩⟩
  rw [hall io hio, hmemory]
  rfl

end FinBert.Serving

namespace FinBert.Custom

open FinBert.Serving Response

/-! ## Payloads with an HTTP response -/

/-- `Scheduler::Payload` with an `HTTPInferResponseProvider`. What the `evbuffer` answers is given
for the number of the outputs that the response has, and for the size that is asked for. -/
structure HttpPayload where
  status : Status := .ok
  requestProvider : InferRequestProvider
  responseProvider : HttpProvider
  evbuffer : Nat → Nat → EvbufferAnswer

namespace HttpPayload

/-- `CustomGetNextInput`. -/
def getNextInput (payload : HttpPayload) (name : String) (contentByteSize : Nat) :
    Option (Option Bytes) × HttpPayload :=
  match payload.requestProvider.getNextInputContent name contentByteSize false with
  | (.error _, provider) => (none, { payload with requestProvider := provider })
  | (.ok content, provider) => (some content, { payload with requestProvider := provider })

/-- `CustomGetOutput`. -/
def getOutput (payload : HttpPayload) (name : String) (shape : List Int) (contentByteSize : Nat) :
    Option (Option Content) × HttpPayload :=
  let evbuffer := payload.evbuffer payload.responseProvider.base.outputs.length contentByteSize
  match payload.responseProvider.allocateOutputBuffer name contentByteSize shape evbuffer with
  | (.error _, provider) => (none, { payload with responseProvider := provider })
  | (.ok content, provider) => (some content, { payload with responseProvider := provider })

end HttpPayload

/-- `memcpy` of some bytes behind the pointer `content`, from `offset` on. -/
def HttpProvider.writeAt (provider : HttpProvider) (offset : Nat) (bytes : Bytes) :
    Content → HttpProvider
  | .buffer idx =>
    { provider with
      base := { provider.base with
        outputs := provider.base.outputs.modify idx fun output =>
          { output with buffer := overwrite output.buffer offset bytes } } }
  | .response place =>
    { provider with outputBuffer := overwrite provider.outputBuffer (place + offset) bytes }

instance : BackendPayload HttpPayload Content where
  status := HttpPayload.status
  setStatus payload status := { payload with status := status }
  requestHeader payload := payload.requestProvider.requestHeader
  inputFn := HttpPayload.getNextInput
  outputFn := HttpPayload.getOutput
  memcpy payload content offset bytes :=
    { payload with
      responseProvider := HttpProvider.writeAt payload.responseProvider offset bytes content }
  blocksLeft payload := payload.requestProvider.blocksLeft

@[simp] theorem writeAt_nil (provider : HttpProvider) (offset : Nat) (content : Content) :
    HttpProvider.writeAt provider offset [] content = provider := by
  cases content with
  | buffer idx =>
    show ({ provider with base := { provider.base with outputs := _ } } : HttpProvider) = provider
    rw [show (fun output : Output => { output with buffer := overwrite output.buffer offset [] }) =
      id from rfl, List.modify_id]
  | response place => rfl

/-- The pieces of a tensor make up the tensor. -/
theorem writeAt_append (provider : HttpProvider) (offset : Nat) (bytes bytes' : Bytes)
    (content : Content) :
    HttpProvider.writeAt (HttpProvider.writeAt provider offset bytes content)
        (offset + bytes.length) bytes' content =
      HttpProvider.writeAt provider offset (bytes ++ bytes') content := by
  cases content with
  | buffer idx =>
    unfold HttpProvider.writeAt
    simp only [List.modify_modify_eq]
    congr 3
    funext output
    simp only [Function.comp, overwrite_append]
  | response place =>
    unfold HttpProvider.writeAt
    simp only [overwrite_append, Nat.add_assoc]

/-- A whole tensor. -/
theorem writeAt_zero (provider : HttpProvider) (tensor : Bytes) (content : Content) :
    HttpProvider.writeAt provider 0 tensor content = provider.write tensor (some content) := by
  cases content <;> rfl

/-! ## The outputs behind the calls -/

/-- An output that is requested as raw bytes. -/
def rawOutput (name : String) : RequestOutput := ⟨name, none⟩

theorem lookup_foldl_rawOutput {names : List String} {name : String}
    {outputMap : UnorderedMap String RequestOutput}
    (hmap : ∀ name output, outputMap.lookup name = some output → output = rawOutput name)
    (hname : name ∈ names ∨ name ∈ outputMap) :
    ((names.map rawOutput).foldl (fun outputMap output =>
        if output.name ∈ outputMap then outputMap else outputMap.insert output.name output)
      outputMap).lookup name = some (rawOutput name) := by
  induction names generalizing outputMap with
  | nil =>
    have hmem := hname.resolve_left List.not_mem_nil
    obtain ⟨output, houtput⟩ := Option.isSome_iff_exists.mp (AList.lookup_isSome.mpr hmem)
    exact houtput.trans (congrArg some (hmap name output houtput))
  | cons name' names ih =>
    rw [List.mem_cons] at hname
    rw [List.map_cons, List.foldl_cons]
    split
    · next hmem =>
      refine ih hmap ?_
      obtain (rfl | hname) | hname := hname
      · exact .inr hmem
      · exact .inl hname
      · exact .inr hname
    · refine ih (fun name output houtput => ?_) ?_
      · rcases eq_or_ne name name' with rfl | hne
        · exact (Option.some.inj ((AList.lookup_insert _).symm.trans houtput)).symm
        · exact hmap name output ((AList.lookup_insert_ne hne).symm.trans houtput)
      · rw [AList.mem_insert]
        obtain (rfl | hname) | hname := hname
        · exact .inr (.inl rfl)
        · exact .inl hname
        · exact .inr (.inr hname)

/-- A request for raw outputs: the output map has them. -/
theorem lookup_outputMapOf {names : List String} {name : String} (hname : name ∈ names) :
    (outputMapOf (names.map rawOutput)).lookup name = some (rawOutput name) :=
  lookup_foldl_rawOutput (fun _ _ h => by cases h) (.inl hname)

theorem shape_allocateOutputBuffer {provider provider' : HttpProvider} {name : String}
    {size : Nat} {shape : List Int} {evbuffer : EvbufferAnswer} {content : Option Content}
    (h : provider.allocateOutputBuffer name size shape evbuffer = (.ok content, provider')) :
    provider'.base.outputs.map (·.shape) = provider.base.outputs.map (·.shape) ++ [shape] := by
  unfold HttpProvider.allocateOutputBuffer at h
  split at h
  · cases h
  · next output houtput =>
    have hshape : output.shape = shape := by
      unfold Provider.checkAndSetIfBufferedOutput at houtput
      split at houtput
      · cases houtput
      · split at houtput <;> cases houtput <;> rfl
    have hadded : (provider.base.addOutput output).outputs.map (·.shape) =
        provider.base.outputs.map (·.shape) ++ [shape] := by
      rw [Provider.addOutput, List.map_append, List.map_singleton, hshape]
    dsimp only at h
    split at h
    · split at h
      · cases h
      · split at h
        · cases h
        · split at h
          · obtain ⟨-, rfl⟩ := Prod.mk.inj h
            rw [← hadded]
            simp only [Provider.addOutput, List.map_append, List.map_singleton]
          · cases h
    · obtain ⟨-, rfl⟩ := Prod.mk.inj h
      exact hadded

theorem shape_write (provider : HttpProvider) (tensor : Bytes) (content : Option Content) :
    (provider.write tensor content).base.outputs.map (·.shape) =
      provider.base.outputs.map (·.shape) := by
  cases content with
  | none => rfl
  | some content =>
    cases content with
    | buffer idx =>
      unfold HttpProvider.write Provider.writeBuffer
      dsimp only
      refine List.ext_getElem? fun k => ?_
      rw [List.getElem?_map, List.getElem?_map, List.getElem?_modify]
      cases provider.base.outputs[k]? with
      | none => rfl
      | some output =>
        rw [Option.map_eq_map, Option.map_some, Option.map_some, Option.map_some]
        split <;> rfl
    | response place => rfl

/-- The shapes of the outputs are those of the calls. -/
theorem shapes_returned {provider provider' : HttpProvider} {calls : List (Call × EvbufferAnswer)}
    (h : provider.returned calls = .ok provider') :
    provider'.base.outputs.map (·.shape) =
      provider.base.outputs.map (·.shape) ++ calls.map (·.1.shape) := by
  induction calls generalizing provider with
  | nil =>
    cases h
    exact (List.append_nil _).symm
  | cons call calls ih =>
    obtain ⟨call, evbuffer⟩ := call
    rw [HttpProvider.returned] at h
    split at h
    · cases h
    · next content provider₁ hallocate =>
      rw [ih h, shape_write, shape_allocateOutputBuffer hallocate, List.append_assoc]
      rfl

/-! ## One request -/

section
variable {σ Classes : Type}

/-- `InferHelper`, up to the payload. `chunks` are the chunks that the body is in. -/
def makePayload (config : ModelConfig) (header : InferRequestHeader) (chunks : List Bytes)
    (evbuffer : Nat → Nat → EvbufferAnswer) : Except Status HttpPayload :=
  match normalizeRequestHeader config header with
  | .error status => .error status
  | .ok header =>
    match evBufferToInputMap config.name header chunks with
    | .error status => .error status
    | .ok inputMap =>
      match InferRequestProvider.create config.name header inputMap with
      | .error status => .error status
      | .ok provider =>
        .ok { requestProvider := provider
              responseProvider :=
                { base := .create { batchSize := header.batchSize
                                    output := (header.output.map (·.name)).map rawOutput } }
              evbuffer := evbuffer }

/-- `OnCompleteHandleInfer`, with the header and the bytes of a response that succeeds. -/
def complete
    (addClassResults : DataType → Output → (batch1ElementCount batchSize : Nat) → Classes)
    (backend : InferenceBackend) (status : Status) (provider : HttpProvider) :
    Except Status (ResponseHeader Classes × Bytes) :=
  if status.isOk then
    match finalizeResponse addClassResults backend provider.base with
    | .error status => .error status
    | .ok header => .ok (header, provider.outputBuffer)
  else .error status

/-- A request for raw outputs that is executed in a batch of its own. -/
def infer
    (addClassResults : DataType → Output → (batch1ElementCount batchSize : Nat) → Classes)
    (backend : InferenceBackend) (context : Context σ HttpPayload) (state : σ)
    (header : InferRequestHeader) (chunks : List Bytes)
    (evbuffer : Nat → Nat → EvbufferAnswer) : Except Status (ResponseHeader Classes × Bytes) :=
  match makePayload backend.config header chunks evbuffer with
  | .error status => .error status
  | .ok payload =>
    let (status, payloads, _) := context.run state [payload]
    match payloads with
    | payload :: _ =>
      complete addClassResults backend (if status.isOk then payload.status else status)
        payload.responseProvider
    | [] => .error status

end

end FinBert.Custom
