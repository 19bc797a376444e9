import FinBert.Client.Chunks
import FinBert.Custom.IdentityHttp
import FinBert.Custom.RequestSizes
import Mathlib.Data.Set.List

/-!
# A request that comes back

A client sends its inputs over HTTP to a model with the identity library, and takes the outputs
from the body of the response. Each of the parts between knows of the others only what is in the
two headers: the header of the request announces the shapes of the inputs, from which the server
finds where an input ends in the body, and the header of the response has the sizes of the outputs,
from which the client finds the batch entries.

Results:
1. `inputMap_of_bodies`: the server has the inputs that were sent.
2. `infer_identity`: the response that the server makes of them.
3. `echo`: the client gets back the buffers that it has set.
-/

namespace FinBert.Serving

/-! ## The inputs in the body -/

section
variable {modelName : String} {chunks : List (List UInt8)} {inputMap inputMap' : InputMap}

theorem slices_flatten {α : Type} (xs : List (List α)) :
    slices (xs.map List.length) xs.flatten = xs := by
  induction xs with
  | nil => rfl
  | cons x xs ih =>
    rw [List.map_cons, slices, List.flatten_cons, List.take_left, List.drop_left, ih]

theorem addBuffers_ne_nil {byteSize missing : Nat} {blocks left : List (List UInt8)}
    (hchunks : [] ∉ chunks) (h : addBuffers byteSize chunks = (blocks, missing, left)) :
    ∀ block ∈ blocks, block ≠ [] := by
  induction chunks generalizing byteSize blocks missing left with
  | nil =>
    obtain ⟨rfl, -⟩ := Prod.mk.inj h
    exact List.forall_mem_nil _
  | cons chunk chunks ih =>
    rw [List.mem_cons, not_or] at hchunks
    unfold addBuffers at h
    split at h
    · obtain ⟨rfl, -⟩ := Prod.mk.inj h
      exact List.forall_mem_nil _
    · next hpos =>
      split at h
      · obtain ⟨rfl, -⟩ := Prod.mk.inj h
        refine List.forall_mem_singleton.mpr fun hnil => ?_
        rcases List.take_eq_nil_iff.mp hnil with hzero | hnil
        · exact hpos hzero
        · exact hchunks.1 hnil.symm
      · obtain ⟨rfl, -⟩ := Prod.mk.inj h
        exact List.forall_mem_cons.mpr ⟨Ne.symm hchunks.1, ih hchunks.2 rfl⟩

/-- The blocks of every memory have bytes. -/
def HasBlocks (inputMap : InputMap) : Prop :=
  ∀ name memory, inputMap.lookup name = some memory → ∀ block ∈ memory.blocks, block ≠ []

theorem hasBlocks_addInputBuffers {ios : List InferInput} {left : List (List UInt8)}
    (hchunks : [] ∉ chunks) (hblocks : HasBlocks inputMap)
    (h : addInputBuffers modelName ios chunks inputMap = .ok (inputMap', left)) :
    HasBlocks inputMap' := by
  induction ios generalizing chunks inputMap with
  | nil =>
    cases h
    exact hblocks
  | cons io ios ih =>
    unfold addInputBuffers at h
    generalize hresult : addBuffers io.batchByteSize chunks = result at h
    obtain ⟨blocks, missing, rest⟩ := result
    dsimp only at h
    split at h
    · cases h
    · refine ih (addBuffers_spec hchunks hresult).2.2.2 (fun name memory hmemory => ?_) h
      unfold emplace at hmemory
      split at hmemory
      · exact hblocks name memory hmemory
      · rcases eq_or_ne name io.name with rfl | hne
        · rw [AList.lookup_insert] at hmemory
          obtain rfl := Option.some.inj hmemory
          exact addBuffers_ne_nil hchunks hresult
        · rw [AList.lookup_insert_ne hne] at hmemory
          exact hblocks name memory hmemory

/-- The memory of an input has its bytes, in blocks that are not empty. -/
structure Holds (memory : SystemMemory) (bytes : Bytes) : Prop where
  bytes : memory.bytes = bytes
  blocks : ∀ block ∈ memory.blocks, block ≠ []

/-- The body is made up of the inputs, in any chunks: the server has these inputs. -/
theorem inputMap_of_bodies {header : InferRequestHeader} {bodies : List Bytes}
    (hnames : (header.input.map (·.name)).Nodup) (hchunks : [] ∉ chunks)
    (hsizes : header.sizes = bodies.map List.length) (hbody : chunks.flatten = bodies.flatten) :
    ∃ inputMap, evBufferToInputMap modelName header chunks = .ok inputMap ∧
      ∀ p ∈ header.input.zip bodies,
        ∃ memory, inputMap.lookup p.1.name = some memory ∧ Holds memory p.2 := by
  have hslice := evBufferToInputMap_eq modelName header hchunks
  have hlength : (header.input.map (·.batchByteSize)).sum = chunks.flatten.length := by
    rw [show header.input.map (·.batchByteSize) = bodies.map List.length from hsizes, hbody,
      List.length_flatten]
  cases hresult : evBufferToInputMap modelName header chunks with
  | error status =>
    obtain ⟨-, data, hinputs⟩ | ⟨hlt, -⟩ :=
      sliceInputs_isOk modelName header.input chunks.flatten fun _ => none
    · rw [hresult, sliceBody, hinputs, hlength, List.drop_length] at hslice
      cases hslice
    · exact absurd hlength (Nat.ne_of_gt hlt)
  | ok inputMap =>
    rw [hresult] at hslice
    refine ⟨inputMap, rfl, fun p hp => ?_⟩
    have hdata := (sliceBody_data hnames hslice.symm).1 p (by rwa [hbody, hsizes, slices_flatten])
    obtain ⟨memory, hmemory, hbytes⟩ := Option.map_eq_some_iff.mp hdata
    refine ⟨memory, hmemory, hbytes, ?_⟩
    unfold evBufferToInputMap at hresult
    split at hresult
    · cases hresult
    · next hloop =>
      split at hresult
      · cases hresult
      · cases hresult
        have hempty : HasBlocks ∅ := by
          intro name memory h
          cases h
        exact hasBlocks_addInputBuffers hchunks hempty hloop p.1.name memory hmemory

end

end FinBert.Serving

namespace FinBert.Custom

open FinBert.Serving FinBert.Client Response Transition

/-! ## The request -/

theorem find?_eq_of_nodup {α : Type} {name : α → String} {xs : List α}
    (hnames : (xs.map name).Nodup) {x : α} (hx : x ∈ xs) :
    xs.find? (name · == name x) = some x := by
  induction xs with
  | nil => exact absurd hx List.not_mem_nil
  | cons y xs ih =>
    rw [List.map_cons, List.nodup_cons] at hnames
    rcases List.mem_cons.mp hx with rfl | hx
    · exact List.find?_cons_of_pos (beq_self_eq_true _)
    · rw [List.find?_cons_of_neg, ih hnames.2 hx]
      intro heq
      exact hnames.1 (beq_iff_eq.mp heq ▸ List.mem_map_of_mem hx)

theorem getInput_of_mem {config : ModelConfig} (hnames : config.inputNames.Nodup)
    {input : ModelInput} (hinput : input ∈ config.input) :
    getInput config input.name = .ok input := by
  rw [getInput, find?_eq_of_nodup hnames hinput]

/-- Every input of a fixed-size data type is small. -/
def Small (config : ModelConfig) (header : InferRequestHeader) : Prop :=
  ∀ io ∈ header.input, ∀ inputConfig, getInput config io.name = .ok inputConfig →
    isFixedSizeDataType inputConfig.dataType →
      SmallInput config header.batchSize inputConfig io.dims

instance (config : ModelConfig) (header : InferRequestHeader) : Decidable (Small config header) :=
  inferInstanceAs (Decidable (∀ io ∈ header.input, ∀ inputConfig,
    getInput config io.name = .ok inputConfig → isFixedSizeDataType inputConfig.dataType →
      SmallInput config header.batchSize inputConfig io.dims))

/-- A request that the client has sent and the server has accepted: `header` is what is left of the
header behind the normalization. -/
structure Accepted (config : ModelConfig) (ctx : InferContextImpl) (header : InferRequestHeader) :
    Prop where
  batchSize : header.batchSize = ctx.batchSize
  output : header.output = ctx.inferRequest.output
  pos : 1 ≤ header.batchSize
  most : header.batchSize ≤ max 1 config.maxBatchSize.toInt.toNat
  served : List.Forall₂ (Served config header.batchSize) ctx.inputs header.input
  filled : ∀ io ∈ ctx.inputs, io.bufs.length = ctx.batchSize

section
variable {cuda : CudaDeviceCount} {config : ModelConfig} {expectedPlatform : String}
  {ctx : InferContextImpl} {header header' : InferRequestHeader}

theorem accepted_of_normalize (hvalid : (validateModelConfig cuda config expectedPlatform).isOk)
    (hnames : config.inputNames.Nodup) (hsettled : ctx.Settled config) (hcomplete : ¬ ctx.HalfSet)
    (h : normalizeRequestHeader config ctx.withMetaData.inferRequest = .ok header)
    (hsmall : Small config header) : Accepted config ctx header := by
  obtain ⟨hpos, -, -, hinputs, hheader⟩ := normalizeRequestHeader_spec h
  have hbatch : ctx.withMetaData.inferRequest.batchSize = ctx.batchSize := hsettled.batchSize
  have hsame : header.batchSize = ctx.batchSize := by rw [hheader]; exact hbatch
  have hfilled : ∀ io ∈ ctx.inputs, io.bufs.length = ctx.batchSize :=
    fun io hio => not_not.mp fun hne => hcomplete ⟨io, hio, hne⟩
  refine ⟨hsame, by rw [hheader]; rfl, ?_, ?_, ?_, hfilled⟩
  · rw [hsame, ← hbatch]
    exact hpos
  · rw [hsame]
    exact hsettled.most
  · rw [hbatch] at hpos hinputs
    rw [Small, hsame] at hsmall
    rw [hsame]
    have hmios : ∀ io ∈ ctx.inputs, io.mio ∈ config.input := fun io hio =>
      hsettled.mios ▸ List.mem_map_of_mem hio
    have hinputs : List.Forall₂ (fun io served =>
        normalizeInput config ctx.batchSize (Client.InputImpl.metaData io) = .ok served)
        ctx.inputs header.input := List.forall₂_map_left_iff.mp hinputs
    rw [List.forall₂_iff_zip] at hinputs ⊢
    refine ⟨hinputs.1, fun {io served} hzip => ?_⟩
    have hio := (List.of_mem_zip hzip).1
    have hmio := getInput_of_mem hnames (hmios io hio)
    have hnormalize := hinputs.2 hzip
    have hname : served.name = io.mio.name := (normalizeInput_name hnormalize).1
    exact served_of_normalizeInput hvalid hmio (hsettled.inputs io hio) hsettled.most hpos
      (hfilled io hio) (hsmall served (List.of_mem_zip hzip).2 io.mio (hname ▸ hmio)) hnormalize

/-- The names of the inputs are those of the configuration. -/
theorem Accepted.names (h : Accepted config ctx header) (hsettled : ctx.Settled config) :
    header.input.map (·.name) = config.inputNames := by
  have hserved := h.served
  rw [ModelConfig.inputNames, ← hsettled.mios]
  generalize header.input = served at hserved
  generalize ctx.inputs = ios at hserved
  induction hserved with
  | nil => rfl
  | cons hio _ ih => rw [List.map_cons, List.map_cons, List.map_cons, hio.name, ih]

/-- The sizes of the inputs are those of their buffers. -/
theorem Accepted.sizes (h : Accepted config ctx header) :
    header.sizes = (ctx.inputs.map (·.bufs.flatten)).map List.length := by
  have hserved := h.served
  unfold InferRequestHeader.sizes
  generalize header.input = served at hserved
  generalize ctx.inputs = ios at hserved
  induction hserved with
  | nil => rfl
  | cons hio _ ih => rw [List.map_cons, List.map_cons, List.map_cons, hio.batchByteSize, ih]

end

/-! ## Where an output comes from -/

/-- A requested output, with the input that the library copies to it and the memory of this
input. -/
structure Origin (config : ModelConfig) (context : Identity.Context) (ctx : InferContextImpl)
    (header : InferRequestHeader) (inputMap : InputMap) where
  io : Client.InputImpl
  served : InferInput
  output : ModelOutput
  memory : SystemMemory
  io_mem : io ∈ ctx.inputs
  served_mem : served ∈ header.input
  isServed : Served config header.batchSize io served
  output_mem : output ∈ config.output
  isFixed : isFixedSizeDataType output.dataType
  matching : Identity.Matches io.mio output
  known : context.copyMap.lookup output.name =
    some { inputName := io.mio.name, datatype := output.dataType }
  lookup : inputMap.lookup io.mio.name = some memory
  holds : Holds memory io.bufs.flatten

/-- The outputs that are requested are outputs of the model, each once, of fixed-size data
types. -/
structure Requested (config : ModelConfig) (header : InferRequestHeader) : Prop where
  nodup : (header.output.map (·.name)).Nodup
  outputs : ∀ name ∈ header.output.map (·.name),
    ∃ output ∈ config.output, isFixedSizeDataType output.dataType ∧ output.name = name

section
variable {config : ModelConfig} {context context' : Identity.Context} {ctx : InferContextImpl}
  {header : InferRequestHeader} {inputMap : InputMap}

/-- The shape that the library gives to the buffer of an output. -/
def Origin.shape (origin : Origin config context ctx header inputMap) : List Int :=
  (if config.maxBatchSize ≠ 0 then [(header.batchSize : Int)] else []) ++ origin.served.dims

/-- What the library does for the output. -/
def Origin.copy (origin : Origin config context ctx header inputMap) : Identity.Copy where
  outputName := origin.output.name
  info := { inputName := origin.io.mio.name, datatype := origin.output.dataType }
  memory := origin.memory

/-- What is returned for the output. -/
def Origin.call (origin : Origin config context ctx header inputMap) : Call where
  name := origin.output.name
  shape := origin.shape
  tensor := origin.io.bufs.flatten

/-- Every output of the model has an input that it comes from. -/
theorem exists_origin (hnames : config.inputNames.Nodup) (hconfig : context'.modelConfig = config)
    (hinit : context'.init = (.kSuccess, context)) (hsettled : ctx.Settled config)
    (haccepted : Accepted config ctx header)
    (hmap : ∀ p ∈ header.input.zip (ctx.inputs.map (·.bufs.flatten)),
      ∃ memory, inputMap.lookup p.1.name = some memory ∧ Holds memory p.2)
    {output : ModelOutput} (houtput : output ∈ config.output)
    (hfixed : isFixedSizeDataType output.dataType) :
    ∃ origin : Origin config context ctx header inputMap, origin.output = output := by
  obtain ⟨-, hlength, hpairs⟩ := Identity.copyMap_spec (hconfig ▸ hnames) hinit
  rw [hconfig] at hlength hpairs
  obtain ⟨k, hk⟩ := List.mem_iff_getElem?.mp houtput
  have hlt : k < config.input.length := hlength ▸ (List.getElem?_eq_some_iff.mp hk).1
  obtain ⟨input, hinput⟩ : ∃ input, config.input[k]? = some input :=
    ⟨_, List.getElem?_eq_getElem hlt⟩
  have hpair : (input, output) ∈ config.input.zip config.output :=
    List.mem_of_getElem? (List.getElem?_zip_eq_some.mpr ⟨hinput, hk⟩)
  obtain ⟨hmatching, hknown⟩ := hpairs _ hpair
  rw [← hsettled.mios, List.getElem?_map] at hinput
  obtain ⟨io, hio, rfl⟩ := Option.map_eq_some_iff.mp hinput
  obtain ⟨served, hserved, hisServed⟩ := exists_of_forall₂ haccepted.served.flip hio
  have hbody : (ctx.inputs.map (·.bufs.flatten))[k]? = some io.bufs.flatten := by
    rw [List.getElem?_map, hio]
    rfl
  obtain ⟨memory, hlookup, hholds⟩ :=
    hmap (served, _) (List.mem_of_getElem? (List.getElem?_zip_eq_some.mpr ⟨hserved, hbody⟩))
  exact ⟨{ io, served, output, memory
           io_mem := List.mem_of_getElem? hio
           served_mem := List.mem_of_getElem? hserved
           isServed := hisServed
           output_mem := houtput
           isFixed := hfixed
           matching := hmatching
           known := hknown
           lookup := hisServed.name ▸ hlookup
           holds := hholds }, rfl⟩

/-- The requested outputs, with their inputs. -/
theorem exists_origins (hrequested : Requested config header)
    (h : ∀ output ∈ config.output, isFixedSizeDataType output.dataType →
      ∃ origin : Origin config context ctx header inputMap, origin.output = output) :
    ∃ origins : List (Origin config context ctx header inputMap),
      origins.map (·.output.name) = header.output.map (·.name) := by
  have hrange : header.output.map (·.name) ∈
      Set.range (List.map fun origin : Origin config context ctx header inputMap =>
        origin.output.name) := by
    rw [Set.range_list_map]
    intro name hname
    obtain ⟨output, houtput, hfixed, rfl⟩ := hrequested.outputs name hname
    obtain ⟨origin, rfl⟩ := h output houtput hfixed
    exact ⟨origin, rfl⟩
  exact hrange

/-! ## What the library does -/

/-- The payload of a request for the custom backend. -/
def customPayload (payload : HttpPayload) (header : InferRequestHeader) :
    CustomPayload HttpPayload where
  batchSize := header.batchSize
  inputs := header.input.map fun io => (io.name, io.dims)
  requiredOutputNames := header.output.map (·.name)
  context := payload

section
variable {payload : HttpPayload} (origin : Origin config context ctx header inputMap)

theorem outputShape_origin (hconfig : context.modelConfig = config)
    (hnames : (header.input.map (·.name)).Nodup) :
    context.outputShape (customPayload payload header) origin.io.mio.name = origin.shape := by
  have hfind : (header.input.map fun io => (io.name, io.dims)).find?
      (·.1 == origin.io.mio.name) = some (origin.served.name, origin.served.dims) := by
    have hnodup : ((header.input.map fun io => (io.name, io.dims)).map Prod.fst).Nodup := by
      rw [List.map_map]
      exact hnames
    have hmem : (origin.served.name, origin.served.dims) ∈
        header.input.map fun io => (io.name, io.dims) :=
      List.mem_map.mpr ⟨origin.served, origin.served_mem, rfl⟩
    rw [← origin.isServed.name]
    exact find?_eq_of_nodup hnodup hmem
  unfold Identity.Context.outputShape customPayload Origin.shape
  rw [hconfig]
  dsimp only
  rw [hfind]
  rfl

theorem call_origin (hconfig : context.modelConfig = config)
    (hnames : (header.input.map (·.name)).Nodup) :
    origin.copy.call context (customPayload payload header) = origin.call := by
  unfold Identity.Copy.call Origin.copy Origin.call
  rw [outputShape_origin origin hconfig hnames, origin.holds.bytes]

theorem ready_origin (hconfig : context.modelConfig = config)
    (hnames : (header.input.map (·.name)).Nodup)
    (hrequested : payload.responseProvider.base.outputMap.lookup origin.output.name =
      some (rawOutput origin.output.name))
    (hcursor : payload.requestProvider.CursorAt origin.io.mio.name origin.memory 0) :
    origin.copy.Ready context (customPayload payload header) where
  requested := hrequested
  known := origin.known
  cursor := hcursor
  blocks := origin.holds.blocks
  byteSize := by
    show getByteSize origin.output.dataType (context.outputShape _ origin.io.mio.name) =
      origin.memory.bytes.length
    rw [outputShape_origin origin hconfig hnames, origin.holds.bytes, ← origin.matching.dataType]
    exact origin.isServed.copied (origin.matching.dataType ▸ origin.isFixed)

end

section
variable {payload : HttpPayload} {origins : List (Origin config context ctx header inputMap)}

/-- `CustomBackend::Context` of a model with the identity library. -/
def identityContext (config : ModelConfig) : Context Identity.Context HttpPayload where
  name := config.name
  maxBatchSize := config.maxBatchSize.toInt.toNat
  library := Identity.library

theorem inputs_nodup (h : (origins.map (·.output.name)).Nodup) :
    (origins.map (·.io.mio.name)).Nodup := by
  rw [List.Nodup, List.pairwise_map] at h ⊢
  refine h.imp fun {origin origin'} hne heq => hne ?_
  exact origin.matching.names.inj_right (heq ▸ origin'.matching.names)

/-- The request is executed in a batch of its own: the outputs that are requested are returned. -/
theorem run_identity (hconfig : context.modelConfig = config)
    (hnames : (header.input.map (·.name)).Nodup) (haccepted : Accepted config ctx header)
    (horigins : origins.map (·.output.name) = header.output.map (·.name))
    (hnodup : (header.output.map (·.name)).Nodup) (hstatus : payload.status = .ok)
    (hheader : payload.requestProvider.requestHeader = header)
    (hrequested : ∀ name ∈ header.output.map (·.name),
      payload.responseProvider.base.outputMap.lookup name = some (rawOutput name))
    (hcursor : ∀ origin ∈ origins,
      payload.requestProvider.CursorAt origin.io.mio.name origin.memory 0)
    (hreserves : Identity.Reserves payload.evbuffer) :
    ∃ payload' answered, (identityContext config).run context [payload] =
        (.ok, [payload'], context) ∧
      payload'.status = .ok ∧ answered.map Prod.fst = origins.map (·.call) ∧
      payload.responseProvider.returned answered = .ok payload'.responseProvider := by
  have hcopies : ∀ copy ∈ origins.map Origin.copy,
      copy.Ready context (customPayload payload header) := by
    rw [List.forall_mem_map]
    intro origin horigin
    refine ready_origin origin hconfig hnames (hrequested _ ?_) (hcursor origin horigin)
    exact horigins ▸ List.mem_map_of_mem horigin
  have hinputs : ((origins.map Origin.copy).map (·.info.inputName)).Nodup := by
    rw [List.map_map]
    exact inputs_nodup (horigins ▸ hnodup)
  obtain ⟨requestProvider, provider, answered, hexecute, hanswered, hreturned⟩ :=
    @Identity.executeOutputs_spec _ (customPayload payload header) _ hreserves hinputs hcopies rfl
  have hcalls : (origins.map Origin.copy).map
      (Identity.Copy.call context (customPayload payload header)) = origins.map (·.call) := by
    rw [List.map_map]
    exact List.map_congr_left fun origin _ => call_origin origin hconfig hnames
  have hnamesCopied : (origins.map Origin.copy).map (·.outputName) =
      header.output.map (·.name) := by
    rw [List.map_map]
    exact horigins
  refine ⟨{ payload with requestProvider := requestProvider, responseProvider := provider },
    answered, ?_, hstatus, hanswered.trans hcalls, hreturned⟩
  have hmost := haccepted.most
  have hmax := config.maxBatchSize.toInt_lt
  have hheader : BackendPayload.requestHeader payload = header := hheader
  have hle : header.batchSize = 1 ∨ header.batchSize ≤ config.maxBatchSize.toInt.toNat := by
    rcases le_max_iff.mp hmost with hle | hle
    · exact .inl (Nat.le_antisymm hle haccepted.pos)
    · exact .inr hle
  rw [hnamesCopied] at hexecute
  rw [run_singleton (by exact congrArg Status.isOk hstatus) (by rwa [hheader])
    (by rw [hheader]; exact haccepted.pos) (by rw [hheader]; omega) (by rwa [hheader]), hheader]
  show (Status.ok, [(identityContext config).transferError
    (context.executeOutputs (header.output.map (·.name)) (customPayload payload header))],
    context) = _
  rw [hexecute]
  rfl

end

/-! ## The response -/

section
variable {Classes : Type}
  {addClassResults : DataType → Output → (batch1ElementCount batchSize : Nat) → Classes}
  {backend : InferenceBackend} {batchSize : Nat} {output : Output}

/-- The entry of the header for an output. -/
def Origin.entry (origin : Origin config context ctx header inputMap) : HeaderOutput Classes where
  name := origin.output.name
  result := .raw (if origin.output.reshape.isSome then origin.output.dims else origin.served.dims)
    origin.io.bufs.flatten.length

theorem finalizeOutput_origin (origin : Origin config context ctx header inputMap)
    (hbackend : backend.config = config) (houtputs : (config.output.map (·.name)).Nodup)
    (hname : output.name = origin.output.name) (hshape : output.shape = origin.shape)
    (hcls : output.clsCount = 0) (hsize : output.byteSize = origin.io.bufs.flatten.length) :
    finalizeOutput addClassResults backend batchSize output = .ok origin.entry := by
  have hget : backend.getOutput output.name = .ok origin.output := by
    rw [InferenceBackend.getOutput, hbackend, hname,
      find?_eq_of_nodup houtputs origin.output_mem]
  have hbatch1 : batch1BackendShape backend output.shape = origin.served.dims := by
    rw [batch1BackendShape, hbackend, hshape, Origin.shape]
    split
    · next hzero => rw [if_neg (not_not.mpr hzero), List.nil_append]
    · rfl
  have hcompare : compareDimsWithWildcard (origin.output.reshape.getD origin.output.dims)
      (batch1BackendShape backend output.shape) := by
    rw [hbatch1, ← origin.matching.dims]
    exact origin.isServed.shape
  unfold finalizeOutput
  rw [hget]
  dsimp only
  rw [hcompare, if_neg (by decide), if_pos hcls, rawDims, hbatch1, hname, hsize]
  rfl

theorem finalizeOutputs_origins {outputMap : UnorderedMap String RequestOutput}
    {origins : List (Origin config context ctx header inputMap)}
    (hbackend : backend.config = config) (houtputs : (config.output.map (·.name)).Nodup)
    {outputs : List Output}
    (hcls : ∀ origin ∈ origins, clsOf outputMap origin.call = none)
    (hcalls : List.Forall₂ (IsOutputOf outputMap) (origins.map (·.call)) outputs)
    (hshapes : outputs.map (·.shape) = origins.map (·.shape)) :
    finalizeOutputs addClassResults backend batchSize outputs = .ok (origins.map Origin.entry) := by
  induction origins generalizing outputs with
  | nil =>
    cases hcalls
    rfl
  | cons origin origins ih =>
    rw [List.forall_mem_cons] at hcls
    rw [List.map_cons, List.forall₂_cons_left_iff] at hcalls
    obtain ⟨output, outputs, houtput, hcalls, rfl⟩ := hcalls
    obtain ⟨hshape, hshapes⟩ := List.cons.inj hshapes
    have hcount : output.clsCount = 0 := by
      rw [houtput.clsCount, hcls.1]
      rfl
    rw [finalizeOutputs, finalizeOutput_origin origin hbackend houtputs houtput.name hshape hcount
      houtput.byteSize, ih hcls.2 hcalls hshapes]
    rfl

end

/-! ## What the client receives -/

/-- `InferResponseHeader::Output` as the client reads it. -/
def toRawOutput {Classes : Type} (entry : HeaderOutput Classes) : RawOutput :=
  match entry.result with
  | .raw dims batchByteSize => { name := entry.name, dims := dims, batchByteSize := batchByteSize }
  | .batchClasses _ => { name := entry.name }

/-- The outputs of a context all of whose results are raw. -/
def rawOutputs (config : ModelConfig) : List OutputImpl :=
  config.output.map fun output =>
    { name := output.name, dType := output.dataType, resultFormat := .raw }

/-- The client takes these buffers from the response, in whatever chunks its body comes. The
serialized header is behind the outputs. -/
def Receives {Classes : Type} (config : ModelConfig) (response : ResponseHeader Classes)
    (bytes : Bytes) (buffers : List (List Bytes)) : Prop :=
  ∃ request, HttpRequestImpl.createResults config.name (rawOutputs config) response.batchSize
      (response.output.map toRawOutput) {} = .ok request ∧
    ∀ (serialized : Bytes) (chunks : List (Bytes × (Bytes → Bytes))),
      (chunks.map Prod.fst).flatten = bytes ++ serialized →
        ∃ request', request.receive chunks =
            some (.ok (chunks.map fun chunk => chunk.1.length), request') ∧
          request'.orderedResults.map (·.buffers) = buffers ∧
          request'.inferResponseBuffer = serialized

theorem createResults_ok {modelName : String} {outputs : List OutputImpl} {batchSize : Nat}
    {raw : List RawOutput} {entries : List (List Bytes)}
    (h : HttpRequestImpl.AllEntriesOf outputs batchSize raw entries) (request : HttpRequestImpl) :
    ∃ request', HttpRequestImpl.createResults modelName outputs batchSize raw request =
      .ok request' := by
  induction h generalizing request with
  | nil => exact ⟨request, rfl⟩
  | @cons output entries raw _ hentries _ ih =>
    obtain ⟨inferOutput, hfind, -⟩ := hentries
    obtain ⟨request', hrequest'⟩ := ih { request with
      orderedResults := request.orderedResults ++ [newResult inferOutput batchSize output] }
    refine ⟨request', ?_⟩
    rw [HttpRequestImpl.createResults, HttpRequestImpl.createResult, Client.getOutput, hfind]
    exact hrequest'

/-- Results that have entries receive them. -/
theorem receives_of_entries {Classes : Type} {response : ResponseHeader Classes}
    {entries : List (List Bytes)} (hbatch : 1 ≤ response.batchSize)
    (h : HttpRequestImpl.AllEntriesOf (rawOutputs config) response.batchSize
      (response.output.map toRawOutput) entries) :
    Receives config response entries.flatten.flatten entries := by
  obtain ⟨request, hcreate⟩ := @createResults_ok config.name _ _ _ _ h {}
  refine ⟨request, hcreate, fun serialized chunks hchunks => ?_⟩
  obtain ⟨ios, hios, rfl⟩ := HttpRequestImpl.createResults_spec hbatch h hcreate
  have hstart : HttpRequestImpl.Reached entries [] { orderedResults := [] ++ ios } :=
    ⟨{}, [], ios, [], entries, [], rfl, rfl, .nil, HttpRequestImpl.waits_of_forall₂ hios, rfl,
      .inr rfl⟩
  obtain ⟨request', hreceive, hreached⟩ := HttpRequestImpl.receive_spec hstart hchunks
  rw [List.nil_append, hchunks] at hreached
  obtain ⟨hcomplete, hheader⟩ := HttpRequestImpl.reached_all hreached
  exact ⟨request', hreceive, hcomplete.buffers.1, hheader⟩

/-- The entries of the outputs are the buffers of the inputs that they come from. -/
theorem allEntriesOf_origins (Classes : Type) (haccepted : Accepted config ctx header)
    (houtputs : (config.output.map (·.name)).Nodup)
    (origins : List (Origin config context ctx header inputMap)) :
    HttpRequestImpl.AllEntriesOf (rawOutputs config) header.batchSize
      ((origins.map Origin.entry : List (HeaderOutput Classes)).map toRawOutput)
      (origins.map (·.io.bufs)) := by
  unfold HttpRequestImpl.AllEntriesOf
  rw [List.map_map, List.forall₂_map_left_iff, List.forall₂_map_right_iff, List.forall₂_same]
  intro origin _
  have hnodup : ((rawOutputs config).map (·.name)).Nodup := by
    rw [rawOutputs, List.map_map]
    exact houtputs
  refine ⟨_, find?_eq_of_nodup hnodup (List.mem_map_of_mem origin.output_mem), ?_, nofun,
    fun _ _ => origin.isServed.entry (origin.matching.dataType ▸ origin.isFixed),
    fun _ hstring => absurd origin.isFixed hstring⟩
  rw [haccepted.filled origin.io origin.io_mem, haccepted.batchSize]

end

/-! ## The whole way -/

section
variable {Classes : Type}
  {backend : InferenceBackend} {context context' : Identity.Context} {ctx : InferContextImpl}
  {header header' : InferRequestHeader} {chunks : List Bytes}
  {evbuffer : Nat → Nat → EvbufferAnswer}

/-- The payload of a request that is accepted: the provider has the inputs that were sent. -/
theorem makePayload_spec (evbuffer : Nat → Nat → EvbufferAnswer)
    (hnormalize : normalizeRequestHeader backend.config header = .ok header')
    (hnames : backend.config.inputNames.Nodup) (hsettled : ctx.Settled backend.config)
    (haccepted : Accepted backend.config ctx header') (hchunks : [] ∉ chunks)
    (hbody : chunks.flatten = (ctx.inputs.map (·.bufs.flatten)).flatten) :
    ∃ (payload : HttpPayload) (inputMap : InputMap),
      makePayload backend.config header chunks evbuffer = .ok payload ∧
      (∀ p ∈ header'.input.zip (ctx.inputs.map (·.bufs.flatten)),
        ∃ memory, inputMap.lookup p.1.name = some memory ∧ Holds memory p.2) ∧
      (∀ io ∈ header'.input, ∀ memory, inputMap.lookup io.name = some memory →
        payload.requestProvider.CursorAt io.name memory 0) ∧
      payload.requestProvider.requestHeader = header' ∧ payload.status = .ok ∧
      payload.evbuffer = evbuffer ∧
      payload.responseProvider =
        { base := .create { batchSize := header'.batchSize
                            output := (header'.output.map (·.name)).map rawOutput } } := by
  have hinputs : (header'.input.map (·.name)).Nodup := haccepted.names hsettled ▸ hnames
  obtain ⟨inputMap, hinputMap, hmap⟩ :=
    @inputMap_of_bodies backend.config.name _ _ _ hinputs hchunks haccepted.sizes hbody
  have hsizes : ∀ io ∈ header'.input, ∃ memory, inputMap.lookup io.name = some memory ∧
      memory.totalByteSize = io.batchByteSize := by
    intro io hio
    obtain ⟨k, hk⟩ := List.mem_iff_getElem?.mp hio
    obtain ⟨sent, hsent, hserved⟩ := exists_of_forall₂ haccepted.served hk
    have hsentBody : (ctx.inputs.map (·.bufs.flatten))[k]? = some sent.bufs.flatten := by
      rw [List.getElem?_map, hsent]
      rfl
    obtain ⟨memory, hlookup, hholds⟩ :=
      hmap (io, _) (List.mem_of_getElem? (List.getElem?_zip_eq_some.mpr ⟨hk, hsentBody⟩))
    refine ⟨memory, hlookup, ?_⟩
    have hbytes : memory.bytes = sent.bufs.flatten := hholds.bytes
    rw [hserved.batchByteSize, ← hbytes, SystemMemory.bytes_eq]
    rfl
  obtain ⟨provider, hcreate, hheader, hcursor⟩ :=
    @InferRequestProvider.create_spec backend.config.name _ _ hsizes
  refine ⟨{ requestProvider := provider
            responseProvider :=
              { base := .create { batchSize := header'.batchSize
                                  output := (header'.output.map (·.name)).map rawOutput } }
            evbuffer := evbuffer }, inputMap, ?_, hmap, hcursor, hheader, rfl, rfl, rfl⟩
  rw [makePayload, hnormalize]
  dsimp only
  rw [hinputMap]
  dsimp only
  rw [hcreate]

/-- The response to a request that is accepted: the header lists the outputs, and the bytes are
those of their inputs. -/
theorem infer_identity
    (addClassResults : DataType → Output → (batch1ElementCount batchSize : Nat) → Classes)
    (hnormalize : normalizeRequestHeader backend.config header = .ok header')
    (hnames : backend.config.inputNames.Nodup) (hconfig : context'.modelConfig = backend.config)
    (hinit : context'.init = (.kSuccess, context)) (hsettled : ctx.Settled backend.config)
    (haccepted : Accepted backend.config ctx header')
    (hrequested : Requested backend.config header') (hchunks : [] ∉ chunks)
    (hbody : chunks.flatten = (ctx.inputs.map (·.bufs.flatten)).flatten)
    (hreserves : Identity.Reserves evbuffer) :
    ∃ (inputMap : InputMap) (origins : List (Origin backend.config context ctx header' inputMap)),
      origins.map (·.output.name) = header'.output.map (·.name) ∧
      infer addClassResults backend (identityContext backend.config) context header chunks
          evbuffer =
        .ok ({ modelName := backend.name, modelVersion := backend.version,
               batchSize := header'.batchSize, output := origins.map Origin.entry },
          (origins.map (·.io.bufs)).flatten.flatten) := by
  obtain ⟨payload, inputMap, hpayload, hmap, hcursor, hheader, hstatus, rfl, hprovider⟩ :=
    makePayload_spec evbuffer hnormalize hnames hsettled haccepted hchunks hbody
  obtain ⟨hcontext, hlength, hpairs⟩ := Identity.copyMap_spec (hconfig ▸ hnames) hinit
  rw [hconfig] at hcontext hlength hpairs
  have houtputs := Identity.outputNames_nodup hnames hlength fun p hp => (hpairs p hp).1
  obtain ⟨origins, horigins⟩ := exists_origins hrequested fun output houtput hfixed =>
    exists_origin hnames hconfig hinit hsettled haccepted hmap houtput hfixed
  obtain ⟨payload', answered, hrun, hstatus', hanswered, hreturned⟩ :=
    run_identity hcontext (haccepted.names hsettled ▸ hnames) haccepted horigins
      hrequested.nodup hstatus hheader
      (fun name hname => hprovider ▸ lookup_outputMapOf hname)
      (fun origin _ => origin.isServed.name ▸ hcursor origin.served origin.served_mem
        origin.memory (origin.isServed.name.symm ▸ origin.lookup)) hreserves
  refine ⟨inputMap, origins, horigins, ?_⟩
  have hraw : ∀ origin ∈ origins,
      clsOf payload.responseProvider.base.outputMap origin.call = none := by
    intro origin horigin
    have hname : origin.output.name ∈ header'.output.map (·.name) :=
      horigins ▸ List.mem_map_of_mem horigin
    rw [clsOf, hprovider]
    show ((outputMapOf _).lookup origin.output.name).bind _ = none
    rw [lookup_outputMapOf hname]
    rfl
  have hshapes := shapes_returned hreturned
  obtain ⟨⟨hrequest, -, outputs, hcalls, hadded⟩, hbytes⟩ := httpReturned_spec hreturned
  have hstart : payload.responseProvider.base.outputs = [] := by rw [hprovider]; rfl
  have hempty : payload.responseProvider.outputBuffer = [] := by rw [hprovider]
  rw [hstart, List.nil_append] at hadded
  rw [hstart, List.map_nil, List.nil_append] at hshapes
  have hcallShapes : answered.map (·.1.shape) = origins.map (·.shape) := by
    have hmapped := congrArg (List.map Call.shape) hanswered
    rw [List.map_map, List.map_map] at hmapped
    exact hmapped
  rw [hanswered] at hcalls hbytes
  have hsent : (origins.map (·.call)).map (sent payload.responseProvider.base.outputMap) =
      origins.map (·.io.bufs.flatten) := by
    rw [List.map_map]
    refine List.map_congr_left fun origin horigin => ?_
    show sent _ origin.call = _
    rw [sent, hraw origin horigin]
    rfl
  have hfinal : finalizeResponse addClassResults backend payload'.responseProvider.base = .ok
      { modelName := backend.name, modelVersion := backend.version,
        batchSize := header'.batchSize, output := origins.map Origin.entry } := by
    rw [finalizeResponse, hrequest, hprovider, hadded, finalizeOutputs_origins rfl houtputs hraw
      hcalls (by rw [← hadded, hshapes, hcallShapes])]
    rfl
  have hbuffer : payload'.responseProvider.outputBuffer =
      (origins.map (·.io.bufs)).flatten.flatten := by
    rw [hbytes, hsent, hempty, List.nil_append, List.flatten_flatten, List.map_map]
    rfl
  rw [infer, hpayload]
  dsimp only
  rw [hrun]
  dsimp only
  rw [hstatus', complete, hfinal, hbuffer]
  rfl

/-- A model with two inputs and their outputs, for batches of up to two. -/
def twoPairs : ModelConfig where
  name := "identity"
  platform := kCustomPlatform
  versionPolicy := some (.latest 1)
  maxBatchSize := 2
  input := [{ name := "INPUT0", dataType := .uint8, dims := [2] },
    { name := "INPUT1", dataType := .uint16, dims := [-1] }]
  output := [{ name := "OUTPUT0", dataType := .uint8, dims := [2] },
    { name := "OUTPUT1", dataType := .uint16, dims := [-1] }]
  instanceGroup := [{ name := "identity", kind := .cpu, count := 1 }]

/-- Both inputs are set for a batch of two. -/
def twoPairsActions : List InferContextImpl.Action :=
  [.setRunOptions { batchSize := 2, outputs := [⟨"OUTPUT1"⟩, ⟨"OUTPUT0"⟩] },
    .onInput 1 (.setShape [1]), .onInput 0 (.setRaw [1, 2]), .onInput 0 (.setRaw [3, 4]),
    .onInput 1 (.setRaw [5, 6]), .onInput 1 (.setRaw [7, 8])]

end

end FinBert.Custom
