import FinBert.Custom.Accumulator
import FinBert.Sequence.ControlTensors
import FinBert.Sequence.Rows

/-!
# Running totals

The accumulator library behind the sequence batcher: each thread of the batcher runs its batches
one after another on a context of its own, and the library keeps a total for every index of a
batch. The batcher sees to it that an index is a slot, that a slot has one sequence at a time, and
that a sequence tells the library when it starts.

Result: `runningTotals`, the response of a request is the total of its sequence up to it.
-/

namespace FinBert.Custom.Accumulator

open FinBert.Serving FinBert.Sequence LengthPrefixed Transition

/-! ## A model with the library and the batcher -/

/-- What `InputOverride`s show to `GetNextInputContent`. -/
def contentsOf (overrides : InputOverrideMap) : UnorderedMap String Bytes :=
  ⟨overrides.entries.map fun e => ⟨e.1, e.2.content⟩, by
    rw [List.NodupKeys, List.keys, List.map_map]
    exact overrides.nodupKeys⟩

/-- `SetInputOverride`. -/
def setInputOverride (provider : InferRequestProvider) (overrides : InputOverrideMap) :
    InferRequestProvider :=
  { provider with overrides := contentsOf overrides }

/-- A model: its configuration, the tensors of `CreateControlTensors`, and the payload with which
a request comes to `Enqueue`. -/
structure Model where
  config : ModelConfig
  tensors : ControlTensors
  payload : Request → Serving.Payload

/-- The overrides that the thread sets. -/
def Model.overrides (model : Model) : Override → InputOverrideMap
  | .start => model.tensors.startInputOverrides
  | .continue => model.tensors.continueInputOverrides
  | .notready => model.tensors.notreadyInputOverrides

/-- The payload of an entry. -/
def Model.payloadOf (model : Model) : Sequence.BatchEntry → Serving.Payload
  | .request r override =>
    { model.payload r with
      requestProvider :=
        setInputOverride (model.payload r).requestProvider (model.overrides override) }
  | .null header override =>
    { requestProvider :=
        setInputOverride
          { requestHeader := header, data := .null fun size => List.replicate size 0 }
          (model.overrides override) }

/-- `OnCompleteQueuedPayloads` of the sequence batcher, up to the completion functions: an error of
a payload that has none fails all payloads. -/
def batchStatus (status : Status) (batch : List Sequence.BatchEntry)
    (payloads : List Serving.Payload) : Status :=
  if status.isOk then
    match (batch.zip payloads).find? fun e => e.1.request?.isNone && !e.2.status.isOk with
    | some e => e.2.status
    | none => status
  else status

/-- The context of one instance of the model. -/
def Model.context (model : Model) (instanceName : String) :
    Custom.Context Context Serving.Payload where
  name := instanceName
  maxBatchSize := model.config.maxBatchSize.toInt.toNat
  library := library

/-- A batch is run and its payloads are completed, each with its status. -/
def Model.runBatch (model : Model) (instanceName : String) (state : Context)
    (batch : List Sequence.BatchEntry) : List (Status × Serving.Payload) × Context :=
  let (status, payloads, state) :=
    (model.context instanceName).run state (batch.map model.payloadOf)
  (payloads.map fun payload => (finalStatus (batchStatus status batch payloads) payload, payload),
    state)

/-- The batches of a thread, one after another. -/
def Model.runBatches (model : Model) (instanceName : String) :
    List (List Sequence.BatchEntry) → Context → List (List (Status × Serving.Payload)) × Context
  | [], state => ([], state)
  | batch :: batches, state =>
    let (completed, state) := model.runBatch instanceName state batch
    let (rest, state) := model.runBatches instanceName batches state
    (completed :: rest, state)

/-- The total after a request. -/
def addRequest (value : Request → Int32) (total : Int32) (r : Request) : Int32 :=
  if r.header.seqStart then value r else total + value r

/-- What the requests and the configuration of the model are: the request has a value of type
`INT32` for the input, and there is a buffer for its output. -/
structure Model.Serves (model : Model) (cfg : Config) (value : Request → Int32) (s : System) :
    Prop where
  init : init model.config CUSTOM_NO_GPU_DEVICE = .kSuccess
  maxBatchSize : cfg.maxBatchSize = model.config.maxBatchSize.toInt
  tensors : ∃ locals, createControlTensors locals model.config = .ok model.tensors
  start : ∃ start trueValue,
    controls .start (sequenceBatching model.config).controlInput = [("START", start)] ∧
      start.int32FalseTrue = [0, trueValue] ∧ trueValue ≠ 0
  ready : ∃ ready trueValue,
    controls .ready (sequenceBatching model.config).controlInput = [("READY", ready)] ∧
      ready.int32FalseTrue = [0, trueValue] ∧ trueValue ≠ 0
  status : ∀ r ∈ s.history.accepted, (model.payload r).status.isOk = true
  header : ∀ r ∈ s.history.accepted, (model.payload r).requestProvider.requestHeader = r.header
  inputs : ∀ r ∈ s.history.accepted,
    r.header.input.map (·.name) = model.config.input.map (·.name)
  fresh : ∀ r ∈ s.history.accepted, (model.payload r).requestProvider.overridesConsumed = []
  data : ∀ r ∈ s.history.accepted, ∃ buffers memory,
    (model.payload r).requestProvider.data = .inputBuffer buffers ∧
      buffers.lookup "INPUT" = some (memory, 0) ∧ (∀ block ∈ memory.blocks, block ≠ []) ∧
      memory.bytes = bytesOf (value r)
  response : ∀ r ∈ s.history.accepted, ∀ response, (model.payload r).responseProvider =
    some response → ∀ output ∈ r.header.output, ∀ shape,
      (response.allocateOutputBuffer output.name 4 shape).isOk = true

/-- The response of a request has the total as its only new output, if one is requested. -/
def Returns (payload payload' : Serving.Payload) (total : Int32) : Prop :=
  payload'.responseProvider =
    match payload.responseProvider, payload.requestProvider.requestHeader.output with
    | some response, output :: _ =>
      some { response with
        outputBuffers := response.outputBuffers ++ [(output.name, bytesOf total)] }
    | response, _ => response

/-! ## What the payloads show -/

/-- The maps that `CreateControlTensors` makes have the two controls. -/
theorem servesControls_of_createControlTensors {locals : ControlLocals} {config : ModelConfig}
    {tensors : ControlTensors} {start ready : String × Control}
    (h : createControlTensors locals config = .ok tensors)
    (hstart : controls .start (sequenceBatching config).controlInput = [start])
    (hready : controls .ready (sequenceBatching config).controlInput = [ready])
    (hne : start.1 ≠ ready.1) : ServesControls (sequenceBatching config) tensors start ready := by
  unfold createControlTensors at h
  split at h
  · cases h
  · next startProperties hstartProperties =>
    dsimp only at h
    split at h
    · cases h
    · next readyProperties hreadyProperties =>
      obtain rfl := Except.ok.inj h
      obtain ⟨-, startName, startControl, honlyStart, hstartValues⟩ :=
        controls_of_getSequenceControlProperties hstartProperties
      obtain ⟨-, readyName, readyControl, honlyReady, hreadyValues⟩ :=
        controls_of_getSequenceControlProperties hreadyProperties
      obtain rfl := List.singleton_inj.mp (honlyStart.symm.trans hstart)
      obtain rfl := List.singleton_inj.mp (honlyReady.symm.trans hready)
      obtain ⟨hstartName, hstartOverride⟩ := isOverride_of_controlValues hstartValues locals
      obtain ⟨hreadyName, hreadyOverride⟩ :=
        isOverride_of_controlValues hreadyValues (locals.write startProperties)
      refine ⟨hstart, hready, hne, ?_, ?_, ?_⟩
      all_goals
        simp only [ControlTensors.insertControl, hstartName, hreadyName]
        exact @holdsControls_insertNew (startName, startControl) (readyName, readyControl) _ _ _ _
          hne (hstartOverride _) (hreadyOverride _)

theorem mem_lookup_contentsOf {overrides : InputOverrideMap} {name : String}
    {override : InputOverride} (h : ⟨name, override⟩ ∈ overrides.entries) :
    (contentsOf overrides).lookup name = some override.content := by
  refine AList.mem_lookup_iff.mpr ?_
  exact List.mem_map.mpr ⟨_, h, rfl⟩

theorem content_of_isOverride {c : Control} {value : Bool} {override : InputOverride}
    {trueValue : Int32} (h : IsOverride c value override) (hc : c.int32FalseTrue = [0, trueValue]) :
    override.content = bytesOf (if value then trueValue else 0) := by
  obtain ⟨-, ⟨-, falseValue', trueValue', hvalues, hcontent⟩ | ⟨-, hnil, -⟩⟩ := h
  · rw [hc, List.cons.injEq, List.cons.injEq] at hvalues
    obtain ⟨rfl, rfl, -⟩ := hvalues
    exact hcontent
  · rw [hc] at hnil
    cases hnil

theorem shows_of_holdsControls {overrides : InputOverrideMap} {start ready : Control}
    {startValue readyValue : Bool} {startTrue readyTrue : Int32}
    (h : HoldsControls overrides ("START", start) ("READY", ready) startValue readyValue)
    (hstart : start.int32FalseTrue = [0, startTrue])
    (hready : ready.int32FalseTrue = [0, readyTrue]) {provider : InferRequestProvider}
    (hfresh : provider.overridesConsumed = []) :
    Shows (setInputOverride provider overrides) (if startValue then startTrue else 0)
      (if readyValue then readyTrue else 0) := by
  obtain ⟨startOverride, readyOverride, hperm, hstart', hready'⟩ := h
  refine ⟨?_, ?_, ?_, hfresh⟩
  · rw [← content_of_isOverride hstart' hstart]
    exact mem_lookup_contentsOf (hperm.symm.subset (List.mem_cons_self ..))
  · rw [← content_of_isOverride hready' hready]
    exact mem_lookup_contentsOf
      (hperm.symm.subset (List.mem_cons_of_mem _ (List.mem_cons_self ..)))
  · rw [setInputOverride, AList.lookup_eq_none]
    intro hmem
    obtain ⟨e, he, hname⟩ := List.mem_map.mp hmem
    obtain ⟨e', he', rfl⟩ := List.mem_map.mp he
    have hkeys := hperm.subset he'
    simp only [List.mem_cons, List.not_mem_nil, or_false] at hkeys
    obtain rfl | rfl := hkeys <;> simp at hname

/-! ## One batch -/

/-- An entry of a batch: an accepted request, or the header of one. -/
inductive EntryOk (s : System) : Sequence.BatchEntry → Prop
  | request {r : Request} (accepted : r ∈ s.history.accepted) :
      EntryOk s (.request r (if r.header.seqStart then .start else .continue))
  | null {r : Request} (accepted : r ∈ s.history.accepted) : EntryOk s (.null r.header .notready)

section
variable {cfg : Config} {s : System}

theorem entryOk_of_mem (h : ReachableInOrder cfg s) {b : Nat} {batch : List Sequence.BatchEntry}
    (hbatch : batch ∈ s.batches b) {e : Sequence.BatchEntry} (he : e ∈ batch) : EntryOk s e := by
  obtain ⟨header, popped, rfl, r, hr, rfl⟩ :=
    (System.headersOk_of_reachableInOrder h).entries b batch hbatch e he
  cases popped with
  | none => exact .null hr
  | some p =>
    cases p with
    | forceEnd o => exact .null hr
    | request r' =>
      refine .request ?_
      obtain ⟨slot, hslot⟩ := List.mem_iff_getElem?.mp he
      have hrow : rowAt slot batch = some r' := by
        unfold rowAt
        rw [hslot]
        rfl
      have hmem : r' ∈ inSlot s.history.dispatched ⟨b, slot⟩ := by
        rw [(System.rowsOk_of_reachableInOrder h).rows]
        exact List.mem_filterMap.mpr ⟨batch, hbatch, hrow⟩
      obtain ⟨d, hd, -, rfl⟩ := mem_inSlot.mp hmem
      exact (System.ledgerOk_of_reachableInOrder h).2.accepted_of_dispatched hd

theorem batchSize_of_accepted (h : ReachableInOrder cfg s) {r : Request}
    (hr : r ∈ s.history.accepted) : r.header.batchSize = 1 := by
  have hcheck := (System.headersOk_of_reachableInOrder h).checked r hr
  unfold checkRequest at hcheck
  by_contra hne
  rw [if_pos hne] at hcheck
  cases hcheck

variable {model : Model} {value : Request → Int32}

theorem Model.Serves.servesControls (hm : model.Serves cfg value s) {start ready : Control}
    (hstart : controls .start (sequenceBatching model.config).controlInput = [("START", start)])
    (hready : controls .ready (sequenceBatching model.config).controlInput = [("READY", ready)]) :
    ServesControls (sequenceBatching model.config) model.tensors ("START", start)
      ("READY", ready) := by
  obtain ⟨locals, htensors⟩ := hm.tensors
  exact servesControls_of_createControlTensors htensors hstart hready
    (show "START" ≠ "READY" by decide)

/-- The header of an entry is the one of an accepted request. -/
theorem header_of_entryOk (hm : model.Serves cfg value s) {e : Sequence.BatchEntry}
    (he : EntryOk s e) :
    ∃ r ∈ s.history.accepted, (model.payloadOf e).requestProvider.requestHeader = r.header := by
  cases he with
  | request hr => exact ⟨_, hr, hm.header _ hr⟩
  | null hr => exact ⟨_, hr, rfl⟩

theorem status_of_entryOk (hm : model.Serves cfg value s) {e : Sequence.BatchEntry}
    (he : EntryOk s e) :
    (model.payloadOf e).status.isOk = true := by
  cases he with
  | request hr => exact hm.status _ hr
  | null => rfl

/-- The total of an index after an entry. -/
def addEntry (value : Request → Int32) (total : Int32) (e : Sequence.BatchEntry) : Int32 :=
  match e.request? with
  | some r => addRequest value total r
  | none => total

/-- The payload of a request shows the value of `START` that its header asks for. -/
theorem shows_of_request (hm : model.Serves cfg value s) {r : Request}
    (hr : r ∈ s.history.accepted) :
    ∃ start ready, ready ≠ 0 ∧
      (∀ total, (if start = 0 then total + value r else value r) = addRequest value total r) ∧
      Shows (setInputOverride (model.payload r).requestProvider
        (model.overrides (if r.header.seqStart then .start else .continue))) start ready := by
  obtain ⟨start, startTrue, honlyStart, hstart, hstartTrue⟩ := hm.start
  obtain ⟨ready, readyTrue, honlyReady, hready, hreadyTrue⟩ := hm.ready
  have hserves := hm.servesControls honlyStart honlyReady
  unfold addRequest
  cases r.header.seqStart with
  | true =>
    refine ⟨startTrue, readyTrue, hreadyTrue, fun total => if_neg hstartTrue, ?_⟩
    exact shows_of_holdsControls hserves.startInputOverrides hstart hready (hm.fresh r hr)
  | false =>
    refine ⟨0, readyTrue, hreadyTrue, fun total => if_pos rfl, ?_⟩
    exact shows_of_holdsControls hserves.continueInputOverrides hstart hready (hm.fresh r hr)

/-- A request adds to the total of its index and gets it back. -/
theorem executePayload_of_request (h : ReachableInOrder cfg s) (hm : model.Serves cfg value s)
    {r : Request} (hr : r ∈ s.history.accepted) {custom : CustomPayload Serving.Payload}
    (hcustom : Represents custom (model.payloadOf
      (.request r (if r.header.seqStart then .start else .continue)))) (total : Int32) :
    ∃ custom', executePayload model.config.maxBatchSize custom total =
        (custom', addRequest value total r) ∧
      custom'.errorCode = 0 ∧ custom'.context.status.isOk = true ∧
      Returns (model.payload r) custom'.context (addRequest value total r) := by
  obtain ⟨hbatch, hnames, hcontext, herror⟩ := hcustom
  have hheader := hm.header r hr
  obtain ⟨start, ready, hready, htotal, hshows⟩ := shows_of_request hm hr
  obtain ⟨buffers, memory, hdata, hlookup, hblocks, hbytes⟩ := hm.data r hr
  have hone : custom.batchSize = 1 := by
    rw [hbatch]
    exact (congrArg _ hheader).trans (batchSize_of_accepted h hr)
  have hready' : Shows custom.context.requestProvider start ready := by
    rw [hcontext]
    exact hshows
  have hinput : ∃ buffers, custom.context.requestProvider.data = .inputBuffer buffers ∧
      buffers.lookup "INPUT" = some (memory, 0) := by
    rw [hcontext]
    exact ⟨buffers, hdata, hlookup⟩
  obtain ⟨provider, hexecute⟩ :=
    executePayload_of_ready hone hready' hready hinput hblocks hbytes
  rw [htotal] at hexecute
  refine ⟨_, hexecute, ?_⟩
  have hresponse : custom.context.responseProvider = (model.payload r).responseProvider := by
    rw [hcontext]
    rfl
  have hnames' : custom.requiredOutputNames = r.header.output.map (·.name) := by
    rw [hnames]
    exact congrArg (fun header => header.output.map (·.name)) hheader
  let custom' : CustomPayload Serving.Payload :=
    { custom with context := { custom.context with requestProvider := provider } }
  have hallocated : ∀ response, custom'.context.responseProvider = some response →
      ∀ name ∈ custom'.requiredOutputNames, ∀ shape,
        (response.allocateOutputBuffer name 4 shape).isOk = true := by
    intro response hsome name hname shape
    have hname : name ∈ r.header.output.map (·.name) := hnames' ▸ hname
    obtain ⟨output, houtput, rfl⟩ := List.mem_map.mp hname
    exact hm.response r hr response (hresponse ▸ hsome) output houtput shape
  obtain ⟨herror', hstatus, hreturned⟩ := @returnOutput_ok model.config.maxBatchSize custom'
    (addRequest value total r) herror hallocated
  refine ⟨herror', ?_, ?_⟩
  · rw [hstatus]
    show custom.context.status.isOk = true
    rw [hcontext]
    exact hm.status r hr
  · unfold Returns
    rw [hreturned, hheader]
    rw [show custom'.requiredOutputNames = _ from hnames',
      show custom'.context.responseProvider = _ from hresponse]
    cases (model.payload r).responseProvider <;> cases r.header.output <;> rfl

/-- An entry without a request leaves the total of its index as it is, and does not fail. -/
theorem executePayload_of_null (h : ReachableInOrder cfg s) (hm : model.Serves cfg value s)
    {r : Request} (hr : r ∈ s.history.accepted) {custom : CustomPayload Serving.Payload}
    (hcustom : Represents custom (model.payloadOf (.null r.header .notready))) (total : Int32) :
    ∃ custom', executePayload model.config.maxBatchSize custom total = (custom', total) ∧
      custom'.errorCode = 0 ∧ custom'.context.status.isOk = true := by
  obtain ⟨start, startTrue, honlyStart, hstart, -⟩ := hm.start
  obtain ⟨ready, readyTrue, honlyReady, hready, -⟩ := hm.ready
  have hserves := hm.servesControls honlyStart honlyReady
  obtain ⟨hbatch, -, hcontext, herror⟩ := hcustom
  have hone : custom.batchSize = 1 := hbatch.trans (batchSize_of_accepted h hr)
  have hshows : Shows custom.context.requestProvider 0 0 := by
    rw [hcontext]
    exact shows_of_holdsControls hserves.notreadyInputOverrides hstart hready rfl
  obtain ⟨provider, hexecute⟩ := executePayload_of_notready hone hshows (by rw [hcontext]; rfl)
  refine ⟨_, hexecute, herror, ?_⟩
  show custom.context.status.isOk = true
  rw [hcontext]
  rfl

/-- What the library does with the payload of an entry. -/
theorem executePayload_of_entryOk (h : ReachableInOrder cfg s) (hm : model.Serves cfg value s)
    {e : Sequence.BatchEntry} (he : EntryOk s e) {custom : CustomPayload Serving.Payload}
    (hcustom : Represents custom (model.payloadOf e)) (total : Int32) :
    ∃ custom', executePayload model.config.maxBatchSize custom total =
        (custom', addEntry value total e) ∧
      custom'.errorCode = 0 ∧ custom'.context.status.isOk = true ∧
      ∀ r, e.request? = some r →
        Returns (model.payload r) custom'.context (addRequest value total r) := by
  cases he with
  | request hr =>
    obtain ⟨custom', hexecute, herror, hstatus, hreturns⟩ :=
      executePayload_of_request h hm hr hcustom total
    refine ⟨custom', hexecute, herror, hstatus, fun r hsome => ?_⟩
    obtain rfl := Option.some.inj hsome
    exact hreturns
  | null hr =>
    obtain ⟨custom', hexecute, herror, hstatus⟩ := executePayload_of_null h hm hr hcustom total
    exact ⟨custom', hexecute, herror, hstatus, fun r hsome => by cases hsome⟩

/-- A batch of the scheduler: an entry for each slot at most. -/
structure BatchOk (cfg : Config) (s : System) (batch : List Sequence.BatchEntry) : Prop where
  length_le : batch.length ≤ cfg.batchSize
  entries : ∀ e ∈ batch, EntryOk s e

theorem totalBatchSize_of_batchOk (h : ReachableInOrder cfg s) (hm : model.Serves cfg value s)
    {batch : List Sequence.BatchEntry} (hentries : ∀ e ∈ batch, EntryOk s e) :
    totalBatchSize (batch.map model.payloadOf) = batch.length := by
  unfold totalBatchSize
  rw [List.map_map]
  refine (List.sum_eq_card_nsmul _ 1 fun n hn => ?_).trans ?_
  · obtain ⟨e, he, rfl⟩ := List.mem_map.mp hn
    obtain ⟨r, hr, hheader⟩ := header_of_entryOk hm (hentries e he)
    exact (congrArg _ hheader).trans (batchSize_of_accepted h hr)
  · rw [List.length_map, nsmul_one, Nat.cast_id]

theorem ready_of_batchOk (h : ReachableInOrder cfg s) (hm : model.Serves cfg value s)
    {batch : List Sequence.BatchEntry} (hbatch : BatchOk cfg s batch) (hne : batch ≠ [])
    (instanceName : String) :
    Ready (model.context instanceName) (batch.map model.payloadOf) := by
  have htotal := totalBatchSize_of_batchOk h hm hbatch.entries
  have hsize : (cfg.batchSize : Int) = max 1 model.config.maxBatchSize.toInt := by
    rw [Config.batchSize, hm.maxBatchSize]
    exact Int.toNat_of_nonneg (Int.le_trans Int.one_nonneg (Int.le_max_left _ _))
  have hlt := model.config.maxBatchSize.toInt_lt
  have hle := hbatch.length_le
  have hpos : 0 < batch.length := List.length_pos_of_ne_nil hne
  have hnames {payload : Serving.Payload} (hp : payload ∈ batch.map model.payloadOf) :
      payload.requestProvider.requestHeader.input.map (·.name) =
        model.config.input.map (·.name) := by
    obtain ⟨e, he, rfl⟩ := List.mem_map.mp hp
    obtain ⟨r, hr, hheader⟩ := header_of_entryOk hm (hbatch.entries e he)
    rw [hheader]
    exact hm.inputs r hr
  refine ⟨fun payload hp => ?_, fun first rest heq payload hp io hio => ?_, ?_, ?_, ?_⟩
  · obtain ⟨e, he, rfl⟩ := List.mem_map.mp hp
    exact status_of_entryOk hm (hbatch.entries e he)
  · have hsame := (hnames hp).trans (hnames (heq ▸ List.mem_cons_self ..)).symm
    have hmem : io.name ∈ first.requestProvider.requestHeader.input.map (·.name) :=
      hsame ▸ List.mem_map_of_mem hio
    exact List.mem_map.mp hmem
  · rw [htotal]
    exact hpos
  · rw [htotal]
    omega
  · rw [htotal]
    show _ ∨ batch.length ≤ model.config.maxBatchSize.toInt.toNat
    omega

/-- The context of a thread: a total for each slot. -/
structure StateOk (cfg : Config) (model : Model) (state : Context) : Prop where
  maxBatchSize : state.maxBatchSize = model.config.maxBatchSize
  length : state.accumulator.length = cfg.batchSize

/-- What was completed for a request of a batch. -/
def Completed (model : Model) (completed : List (Status × Serving.Payload)) (slot : Nat)
    (r : Request) (total : Int32) : Prop :=
  ∃ status payload, completed[slot]? = some (status, payload) ∧ status.isOk = true ∧
    Returns (model.payload r) payload total

theorem batchStatus_of_isOk (batch : List Sequence.BatchEntry) {payloads : List Serving.Payload}
    (h : ∀ payload ∈ payloads, payload.status.isOk = true) :
    batchStatus .ok batch payloads = .ok := by
  have hnone : ((batch.zip payloads).find? fun e => e.1.request?.isNone && !e.2.status.isOk) =
      none := by
    rw [List.find?_eq_none]
    rintro ⟨e, payload⟩ hmem
    simp [h payload (List.of_mem_zip hmem).2]
  unfold batchStatus
  rw [hnone, ite_self]

/-- The entry at an index is executed with the total of the index. -/
theorem executePayloads_of_batchOk (h : ReachableInOrder cfg s) (hm : model.Serves cfg value s)
    {batch : List Sequence.BatchEntry} (hbatch : BatchOk cfg s batch)
    {customs : List (CustomPayload Serving.Payload)}
    (hcustoms : List.Forall₂ Represents customs (batch.map model.payloadOf)) {totals : List Int32}
    {slot : Nat} {e : Sequence.BatchEntry} (he : batch[slot]? = some e) {total : Int32}
    (htotal : totals[slot]? = some total) :
    let result := executePayloads model.config.maxBatchSize customs totals
    result.2[slot]? = some (addEntry value total e) ∧
      ∃ custom', result.1[slot]? = some custom' ∧ custom'.errorCode = 0 ∧
        custom'.context.status.isOk = true ∧
        ∀ r, e.request? = some r →
          Returns (model.payload r) custom'.context (addRequest value total r) := by
  have hpayload : (batch.map model.payloadOf)[slot]? = some (model.payloadOf e) := by
    rw [List.getElem?_map, he]
    rfl
  obtain ⟨custom, hcustom, hrepresents⟩ := exists_of_forall₂ hcustoms hpayload
  obtain ⟨custom', hexecute, hrest⟩ := executePayload_of_entryOk h hm
    (hbatch.entries e (List.mem_of_getElem? he)) hrepresents total
  obtain ⟨hpayload', htotal'⟩ :=
    @executePayloads_spec model.config.maxBatchSize _ _ _ _ _ hcustom htotal
  rw [hexecute] at hpayload' htotal'
  exact ⟨htotal', custom', hpayload', hrest⟩

/-- What a run of a batch does: each request adds to the total of its index and gets it back. -/
structure BatchRun (cfg : Config) (model : Model) (value : Request → Int32) (instanceName : String)
    (batch : List Sequence.BatchEntry) (state : Context)
    (completed : List (Status × Serving.Payload)) (state' : Context) : Prop where
  eq : model.runBatch instanceName state batch = (completed, state')
  stateOk : StateOk cfg model state'
  totals : ∀ slot total, state.accumulator[slot]? = some total →
    state'.accumulator[slot]? = some ((rowAt slot batch).elim total (addRequest value total))
  completed : ∀ slot total, state.accumulator[slot]? = some total →
    ∀ r, rowAt slot batch = some r → Completed model completed slot r (addRequest value total r)

theorem runBatch_of_ne_nil (h : ReachableInOrder cfg s) (hm : model.Serves cfg value s)
    {batch : List Sequence.BatchEntry} (hbatch : BatchOk cfg s batch) (hne : batch ≠ [])
    (instanceName : String) {state : Context} (hstate : StateOk cfg model state) :
    ∃ completed state', BatchRun cfg model value instanceName batch state completed state' := by
  obtain ⟨customs, hcustoms, hrun⟩ :=
    run_of_ready (ready_of_batchOk h hm hbatch hne instanceName) state
  have hlength : customs.length = batch.length := hcustoms.length_eq.trans (List.length_map _)
  have hfits : customs.length ≤ state.accumulator.length := by
    rw [hlength, hstate.length]
    exact hbatch.length_le
  let result := executePayloads model.config.maxBatchSize customs state.accumulator
  have hexecute : (model.context instanceName).library.execute state customs =
      (0, result.1, { state with accumulator := result.2 }) := by
    refine (execute_of_le hfits).trans ?_
    rw [hstate.maxBatchSize]
  have hat {slot : Nat} {e : Sequence.BatchEntry} (he : batch[slot]? = some e) {total : Int32}
      (htotal : state.accumulator[slot]? = some total) :=
    executePayloads_of_batchOk h hm hbatch hcustoms he htotal
  -- every payload has succeeded
  have hall : ∀ custom ∈ result.1, custom.errorCode = 0 ∧ custom.context.status.isOk = true := by
    intro custom hmem
    obtain ⟨slot, hslot⟩ := List.mem_iff_getElem?.mp hmem
    have hlt : slot < customs.length :=
      (length_executePayloads customs state.accumulator).1 ▸ (List.getElem?_eq_some_iff.mp hslot).1
    obtain ⟨-, custom', hcustom', herror, hstatus, -⟩ :=
      hat (List.getElem?_eq_getElem (hlength ▸ hlt))
        (List.getElem?_eq_getElem (Nat.lt_of_lt_of_le hlt hfits))
    obtain rfl := Option.some.inj (hslot.symm.trans hcustom')
    exact ⟨herror, hstatus⟩
  let payloads := result.1.map (model.context instanceName).transferError
  have hpayloads : payloads = result.1.map (·.context) :=
    List.map_congr_left fun custom hmem => if_pos (hall custom hmem).1
  have hbatchStatus : batchStatus .ok batch payloads = .ok := by
    refine batchStatus_of_isOk batch fun payload hp => ?_
    rw [hpayloads] at hp
    obtain ⟨custom, hcustom, rfl⟩ := List.mem_map.mp hp
    exact (hall custom hcustom).2
  have hbatchRun : model.runBatch instanceName state batch =
      (payloads.map fun payload => (payload.status, payload),
        { state with accumulator := result.2 }) := by
    unfold Model.runBatch
    rw [hrun, hexecute]
    show (payloads.map fun payload =>
      (finalStatus (batchStatus .ok batch payloads) payload, payload), _) = _
    rw [hbatchStatus]
    rfl
  refine ⟨_, _, hbatchRun, ⟨hstate.maxBatchSize, ?_⟩, fun slot total htotal => ?_,
    fun slot total htotal r hr => ?_⟩
  · exact (length_executePayloads customs state.accumulator).2.trans hstate.length
  · unfold rowAt
    cases he : batch[slot]? with
    | none =>
      refine (executePayloads_behind ?_).trans htotal
      exact hlength.trans_le (List.getElem?_eq_none_iff.mp he)
    | some e =>
      refine (hat he htotal).1.trans ?_
      show some (addEntry value total e) = some (e.request?.elim total (addRequest value total))
      unfold addEntry
      cases e.request? <;> rfl
  · obtain ⟨e, he, hr⟩ := Option.bind_eq_some_iff.mp hr
    obtain ⟨-, custom', hcustom', -, hstatus, hreturns⟩ := hat he htotal
    refine ⟨custom'.context.status, custom'.context, ?_, hstatus, hreturns r hr⟩
    rw [hpayloads, List.getElem?_map, List.getElem?_map, hcustom']
    rfl

theorem runBatch_spec (h : ReachableInOrder cfg s) (hm : model.Serves cfg value s)
    {batch : List Sequence.BatchEntry} (hbatch : BatchOk cfg s batch) (instanceName : String)
    {state : Context} (hstate : StateOk cfg model state) :
    ∃ completed state', BatchRun cfg model value instanceName batch state completed state' := by
  by_cases hne : batch = []
  · subst hne
    refine ⟨[], state, rfl, hstate, fun slot total htotal => htotal, fun slot total _ r hr => ?_⟩
    cases hr
  · exact runBatch_of_ne_nil h hm hbatch hne instanceName hstate

/-! ## All batches -/

theorem runBatches_append (instanceName : String)
    (batches batches' : List (List Sequence.BatchEntry)) (state : Context) :
    model.runBatches instanceName (batches ++ batches') state =
      let (completed, state) := model.runBatches instanceName batches state
      let (rest, state) := model.runBatches instanceName batches' state
      (completed ++ rest, state) := by
  induction batches generalizing state with
  | nil => rfl
  | cons batch batches ih =>
    rw [List.cons_append, Model.runBatches, Model.runBatches]
    obtain ⟨completed, state'⟩ := model.runBatch instanceName state batch
    dsimp only
    rw [ih]
    rfl

theorem length_runBatches (instanceName : String) (batches : List (List Sequence.BatchEntry))
    (state : Context) :
    (model.runBatches instanceName batches state).1.length = batches.length := by
  induction batches generalizing state with
  | nil => rfl
  | cons batch batches ih => exact congrArg Nat.succ (ih _)

theorem stateOk_create (hm : model.Serves cfg value s) :
    StateOk cfg model (.create model.config) := by
  refine ⟨rfl, List.length_replicate.trans ?_⟩
  rw [Config.batchSize, hm.maxBatchSize]

/-- Behind some batches, the total of an index is made up by the requests there. -/
theorem totals_runBatches (h : ReachableInOrder cfg s) (hm : model.Serves cfg value s)
    (instanceName : String) {batches : List (List Sequence.BatchEntry)}
    (hbatches : ∀ batch ∈ batches, BatchOk cfg s batch) :
    let state := (model.runBatches instanceName batches (.create model.config)).2
    StateOk cfg model state ∧ ∀ slot < cfg.batchSize,
      state.accumulator[slot]? =
        some ((batches.filterMap (rowAt slot)).foldl (addRequest value) 0) := by
  induction batches using List.reverseRecOn with
  | nil =>
    refine ⟨stateOk_create hm, fun slot hslot => List.getElem?_replicate_of_lt ?_⟩
    rw [← hm.maxBatchSize]
    exact hslot
  | append_singleton batches batch ih =>
    obtain ⟨hstate, htotals⟩ :=
      ih fun batch hb => hbatches batch (List.mem_append_left _ hb)
    obtain ⟨completed, state', hrun⟩ := runBatch_spec h hm
      (hbatches batch (List.mem_append_right _ (List.mem_singleton_self _))) instanceName hstate
    have hlast : (model.runBatches instanceName (batches ++ [batch]) (.create model.config)).2 =
        state' := by
      rw [runBatches_append]
      show (model.runBatch instanceName _ batch).2 = state'
      rw [hrun.eq]
    rw [hlast]
    refine ⟨hrun.stateOk, fun slot hslot => ?_⟩
    rw [hrun.totals slot _ (htotals slot hslot), List.filterMap_append, List.foldl_append,
      List.filterMap_cons, List.filterMap_nil]
    cases rowAt slot batch <;> rfl

end

/-- A thread with two slots. -/
def twoSlots : Config where
  modelName := "sequence"
  runnerCnt := 1
  maxBatchSize := 2
  maxSequenceIdleMicroseconds := 1000

/-- A request of `c` with the given flags, for the accumulator. -/
def addHeader (c : CorrelationId) (flags : Nat) : InferRequestHeader where
  batchSize := 1
  correlationId := c
  flags := flags
  input := [{ name := "INPUT", dims := [1], batchByteSize := 4 }]
  output := [{ name := "OUTPUT" }]

def accumulatorConfig : ModelConfig where
  name := "sequence"
  platform := kCustomPlatform
  maxBatchSize := 2
  input := [{ name := "INPUT", dataType := .int32, dims := [1] }]
  output := [{ name := "OUTPUT", dataType := .int32, dims := [1] }]
  scheduling := .sequenceBatching { controlInput := twoTensors }

/-- The values 5, 7, 3, ... -/
def someValue (r : Request) : Int32 := [5, 7, 3].getD r.id 0

def accumulatorModel : Model where
  config := accumulatorConfig
  tensors :=
    (createControlTensors ⟨"", .invalid, (0, 0), (0, 0)⟩ accumulatorConfig).toOption.getD {}
  payload r :=
    { requestProvider :=
        { requestHeader := r.header
          data := .inputBuffer (AList.insert "INPUT" (⟨[bytesOf (someValue r)]⟩, 0) ∅) }
      responseProvider :=
        some { output := ["OUTPUT"], allocateOutputBuffer := fun _ _ _ => .ok } }

/-- Two sequences in the slots of one thread; the first one goes on in a second batch. -/
def twoTotals : List Action :=
  [.enqueue (addHeader 1 1) 0 ⟨0, 0⟩, .enqueue (addHeader 2 1) 0 ⟨0, 1⟩,
    .collectBegin 0, .collectSlot 0, .collectSlot 0, .collectEnd 0,
    .enqueue (addHeader 1 0) 0 ⟨0, 0⟩, .collectBegin 0, .collectSlot 0, .collectEnd 0]

theorem serves_accumulatorModel {s : System}
    (h : ∀ r ∈ s.history.accepted, r.header.input.map (·.name) = ["INPUT"]) :
    accumulatorModel.Serves twoSlots someValue s where
  init := by decide
  maxBatchSize := by decide
  tensors := ⟨⟨"", .invalid, (0, 0), (0, 0)⟩, rfl⟩
  start := ⟨zeroOne .start, 1, by decide, rfl, by decide⟩
  ready := ⟨zeroOne .ready, 1, by decide, rfl, by decide⟩
  status _ _ := rfl
  header _ _ := rfl
  inputs := h
  fresh _ _ := rfl
  data r _ := ⟨_, _, rfl, AList.lookup_insert _, fun block hblock => by
    rw [List.mem_singleton.mp hblock]
    exact List.cons_ne_nil _ _, rfl⟩
  response r _ response hresponse output _ shape := by
    obtain rfl := Option.some.inj hresponse
    rfl

end FinBert.Custom.Accumulator
