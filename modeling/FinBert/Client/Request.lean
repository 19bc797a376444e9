import FinBert.Client.Input

/-!
# Requests of the client

`InferContextImpl` (`request_common.cc`) with its HTTP and its gRPC implementation
(`request_http.cc`, `request_grpc.cc`): what is sent when the inputs have been set. What libcurl,
gRPC and the server do is the environment of a call.

Results:
1. `ready_reachable`: what is known of the inputs of a context in every run.
2. `wellSent_iff`: when no request is sent that is not set completely.
-/

namespace FinBert.Client

open FinBert.Serving LengthPrefixed Transition

/-! ## Contexts -/

/-- The two implementations of a context. -/
inductive Transport
  | http
  | grpc
deriving DecidableEq

/-- `OptionsImpl`. The outputs are given by what the request header says of them. -/
structure OptionsImpl where
  flags : Nat := 0
  batchSize : Nat := 0
  outputs : List InferOutput := []

/-- `InferContextImpl`. `syncHandle` is the easy handle of `sync_request_`, and `ongoing` has the
keys of `ongoing_async_requests_`. -/
structure InferContextImpl where
  transport : Transport
  modelName : String
  maxBatchSize : Nat
  correlationId : Nat := 0
  batchSize : Nat := 0
  inferRequest : InferRequestHeader := {}
  inputs : List InputImpl
  syncHandle : Option Nat
  multiHandle : Bool
  ongoing : List Nat := []
  asyncRequestId : Nat := 1

/-- `HttpRequestImpl`, with what it keeps of a request that is sent. -/
structure HttpUpload where
  easyHandle : Option Nat
  inputs : List InputImpl
  totalInputByteSize : Nat := 0

/-- A request that is sent. Over HTTP, libcurl reads its body from the inputs. -/
inductive Sent
  | http (header : InferRequestHeader) (request : HttpUpload)
  | grpc (modelName : String) (metaData : InferRequestHeader) (rawInput : List Bytes)

/-- What comes of a call of `Run` or `AsyncRun`: its error and what it has sent. It is undefined
when `GetRaw` is asked for a buffer that does not exist. -/
inductive Outcome
  | returned (err : Status) (sent : Option Sent)
  | undefined

/-- What libcurl and the server do in one call: `curl_global.Status()`, the easy handle of a new
request, and what `GetResults` returns. -/
structure Environment where
  curlStatus : Status := .ok
  easyHandle : Option Nat
  results : Status

def internalError (message : String) : Status := { code := .internal, message }

/-- The input behind `PrepareForRequest`. -/
def InputImpl.prepared (io : InputImpl) : InputImpl := io.prepareForRequest.2

/-- `HttpRequestImpl::InitializeRequest`. The error of `PrepareForRequest` is not looked at. -/
def HttpUpload.initializeRequest (request : HttpUpload) : HttpUpload :=
  { request with
    inputs := request.inputs.map InputImpl.prepared
    totalInputByteSize := 0 }

/-- What the request header says of an input. -/
def InputImpl.metaData (io : InputImpl) : InferInput where
  name := io.mio.name
  dims := io.shape
  batchByteSize := if isFixedSizeDataType io.mio.dataType then 0 else io.totalByteSize

/-- The bytes of one batch entry. The error of `GetRaw` is not looked at: without a buffer, the
pointer that is read is not set. -/
def InputImpl.entry (io : InputImpl) (batchIdx : Nat) : Option Bytes :=
  match io.getRaw batchIdx with
  | .ok (some (dataPtr, dataByteSize)) => some (dataPtr.take dataByteSize)
  | .ok none => none
  | .error _ => none

/-- All batch entries of one input together. -/
def InputImpl.rawInput (batchSize : Nat) (io : InputImpl) : Option Bytes :=
  ((List.range batchSize).mapM io.entry).map List.flatten

namespace InferContextImpl

/-- `InferContextImpl::Init` with the configuration of the model. -/
def create (transport : Transport) (config : ModelConfig) (correlationId : Nat)
    (syncHandle : Option Nat) (multiHandle : Bool) : InferContextImpl where
  transport := transport
  modelName := config.name
  maxBatchSize := config.maxBatchSize.toInt.toNat
  correlationId := correlationId
  inputs := config.input.map InputImpl.create
  syncHandle := syncHandle
  multiHandle := multiHandle

/-- `SetRunOptions`. -/
def setRunOptions (options : OptionsImpl) (ctx : InferContextImpl) : Status × InferContextImpl :=
  let effectiveMaxBatchSize := max 1 ctx.maxBatchSize
  if effectiveMaxBatchSize < options.batchSize then
    (invalidArg ("run batch-size " ++ toString options.batchSize ++
      " exceeds maximum batch size " ++ toString effectiveMaxBatchSize ++
      " allowed for model '" ++ ctx.modelName ++ "'"), ctx)
  else
    let batchSize := max 1 options.batchSize
    (.ok, { ctx with
      batchSize := batchSize
      inferRequest :=
        { flags := options.flags, batchSize := batchSize, correlationId := ctx.correlationId,
          output := options.outputs }
      inputs := ctx.inputs.map (InputImpl.setBatchSize batchSize) })

/-- The meta-data of the inputs goes into the request header. -/
def withMetaData (ctx : InferContextImpl) : InferContextImpl :=
  { ctx with
    inferRequest := { ctx.inferRequest with input := ctx.inputs.map InputImpl.metaData } }

/-- `InferHttpContextImpl::PreRunProcessing`. -/
def httpPreRunProcessing (request : HttpUpload) (ctx : InferContextImpl) :
    Status × HttpUpload × InferContextImpl :=
  let request := request.initializeRequest
  match request.easyHandle with
  | none => (internalError "failed to initialize HTTP client", request, ctx)
  | some _ =>
    (.ok, { request with
      totalInputByteSize :=
        request.totalInputByteSize + (ctx.inputs.map InputImpl.totalByteSize).sum },
      ctx.withMetaData)

/-- `InferHttpContextImpl::Run`. The inputs of `sync_request_` are those of the context. -/
def httpRun (env : Environment) (ctx : InferContextImpl) : Outcome × InferContextImpl :=
  if !env.curlStatus.isOk then (.returned env.curlStatus none, ctx)
  else
    let (err, request, ctx) :=
      ctx.httpPreRunProcessing { easyHandle := ctx.syncHandle, inputs := ctx.inputs }
    let ctx := { ctx with inputs := request.inputs }
    if !err.isOk then (.returned err none, ctx)
    else (.returned env.results (some (.http ctx.inferRequest request)), ctx)

/-- `InferHttpContextImpl::AsyncRun`. The error of `PreRunProcessing` is not looked at. -/
def httpAsyncRun (env : Environment) (ctx : InferContextImpl) : Outcome × InferContextImpl :=
  if !ctx.multiHandle then
    (.returned (internalError "failed to start HTTP asynchronous client") none, ctx)
  else
    match env.easyHandle with
    | none => (.returned (internalError "failed to initialize HTTP client") none, ctx)
    | some easyHandle =>
      let (_, request, ctx) := ctx.httpPreRunProcessing
        { easyHandle := some easyHandle, inputs := ctx.inputs.map InputImpl.copy }
      let ctx := { ctx with asyncRequestId := ctx.asyncRequestId + 1 }
      if easyHandle ∈ ctx.ongoing then
        (.returned (internalError "Failed to insert new asynchronous request context.") none, ctx)
      else
        (.returned .ok (some (.http ctx.inferRequest request)),
          { ctx with ongoing := easyHandle :: ctx.ongoing })

/-- `InferGrpcContextImpl::PreRunProcessing`. The error of `PrepareForRequest` is not looked
at. -/
def grpcPreRunProcessing (ctx : InferContextImpl) : Option Sent × InferContextImpl :=
  let ctx := { ctx with inputs := ctx.inputs.map InputImpl.prepared }
  let ctx := ctx.withMetaData
  ((ctx.inputs.mapM (InputImpl.rawInput ctx.batchSize)).map fun rawInput =>
    .grpc ctx.modelName ctx.inferRequest rawInput, ctx)

/-- The request of gRPC is sent, and `err` is returned. -/
def grpcSend (err : Status) (ctx : InferContextImpl) : Outcome × InferContextImpl :=
  match ctx.grpcPreRunProcessing with
  | (none, ctx) => (.undefined, ctx)
  | (some request, ctx) => (.returned err (some request), ctx)

/-- `InferGrpcContextImpl::Run`. -/
def grpcRun (env : Environment) (ctx : InferContextImpl) : Outcome × InferContextImpl :=
  ctx.grpcSend env.results

/-- `InferGrpcContextImpl::AsyncRun`. -/
def grpcAsyncRun (ctx : InferContextImpl) : Outcome × InferContextImpl :=
  let runIndex := ctx.asyncRequestId
  let ctx := { ctx with asyncRequestId := ctx.asyncRequestId + 1 }
  if runIndex ∈ ctx.ongoing then
    (.returned (internalError "Failed to insert new asynchronous request context.") none, ctx)
  else grpcSend .ok { ctx with ongoing := runIndex :: ctx.ongoing }

end InferContextImpl

/-- The two ways to send a request. -/
inductive Mode
  | run
  | asyncRun

namespace InferContextImpl

/-- `Run` or `AsyncRun`. -/
def send (mode : Mode) (env : Environment) (ctx : InferContextImpl) : Outcome × InferContextImpl :=
  match ctx.transport, mode with
  | .http, .run => ctx.httpRun env
  | .http, .asyncRun => ctx.httpAsyncRun env
  | .grpc, .run => ctx.grpcRun env
  | .grpc, .asyncRun => ctx.grpcAsyncRun

/-! ## Runs -/

/-- What can happen to a context: the calls of an application, libcurl reading from an input of
`sync_request_`, and the end of an asynchronous request. -/
inductive Action
  | onInput (k : Nat) (call : InputCall)
  | setRunOptions (options : OptionsImpl)
  | send (mode : Mode) (env : Environment)
  | getNext (k size : Nat)
  | getAsyncRunResults (runIndex : Nat)

/-- One step. There is none behind a call that is undefined. -/
def step (ctx : InferContextImpl) : Action → Option InferContextImpl
  | .onInput k call =>
    ctx.inputs[k]?.map fun io => { ctx with inputs := ctx.inputs.set k (io.call call).2 }
  | .setRunOptions options => some (ctx.setRunOptions options).2
  | .send mode env =>
    match ctx.send mode env with
    | (.undefined, _) => none
    | (.returned _ _, ctx) => some ctx
  | .getNext k size =>
    ctx.inputs[k]?.bind fun io => (io.getNext size).map fun (_, _, io) =>
      { ctx with inputs := ctx.inputs.set k io }
  | .getAsyncRunResults runIndex => some { ctx with ongoing := ctx.ongoing.erase runIndex }

end InferContextImpl

/-! ## The inputs of a context -/

/-- What is known of an input in every run: it has the batch size of its context, and the size of
each of its buffers. -/
structure InputImpl.Ready (batchSize : Nat) (io : InputImpl) : Prop where
  batchSize : io.batchSize = batchSize
  sizes : io.bufByteSizes = io.bufs.map List.length

theorem mapM_of_forall {α β : Type} {f : α → Option β} {g : α → β} {xs : List α}
    (h : ∀ x ∈ xs, f x = some (g x)) : xs.mapM f = some (xs.map g) := by
  induction xs with
  | nil => rfl
  | cons x xs ih =>
    rw [List.mapM_cons, h x List.mem_cons_self, ih fun y hy => h y (List.mem_cons_of_mem x hy)]
    rfl

namespace InputImpl

theorem Ready.congr {batchSize : Nat} {io io' : InputImpl} (h : Ready batchSize io)
    (hsame : SameBufs io io') : Ready batchSize io' where
  batchSize := hsame.batchSize.trans h.batchSize
  sizes := by rw [hsame.bufByteSizes, hsame.bufs, h.sizes]

theorem ready_call {batchSize : Nat} {io : InputImpl} (h : Ready batchSize io) (c : InputCall) :
    Ready batchSize (io.call c).2 := by
  obtain ⟨-, hsame⟩ | ⟨-, hsame | heq | ⟨input, -, hsame⟩⟩ := call_cases io c
  · have hclear : Ready batchSize io.clear := ⟨h.batchSize, rfl⟩
    exact hclear.congr hsame
  · exact h.congr hsame
  · rw [heq]
    exact ⟨h.batchSize, rfl⟩
  · have hstore : Ready batchSize (io.store input) := by
      refine ⟨h.batchSize, ?_⟩
      rw [store, h.sizes, List.map_append, List.map_singleton]
    exact hstore.congr hsame

theorem ready_setBatchSize {batchSize : Nat} {io : InputImpl} (h : Ready batchSize io)
    (batchSize' : Nat) : Ready batchSize' (io.setBatchSize batchSize') :=
  ⟨rfl, h.sizes⟩

theorem sameBufs_prepared (io : InputImpl) : SameBufs io io.prepared := by
  unfold prepared prepareForRequest
  split <;> exact ⟨rfl, rfl, rfl, rfl⟩

theorem sameBufs_getNextLoop {iterations : Nat} {copied copied' : Bytes} {size : Nat}
    {io io' : InputImpl} (h : getNextLoop iterations copied size io = some (copied', io')) :
    SameBufs io io' := by
  induction iterations generalizing copied size io with
  | zero => cases h
  | succ iterations ih =>
    by_cases hmore : io.bufsIdx < io.bufs.length ∧ 0 < size
    · rw [getNextLoop_turn copied hmore] at h
      have hrest := ih h
      have hturn : SameBufs io (io.advance
          (min (io.bufByteSizes.getD io.bufsIdx 0 - io.bufPos) size)) := by
        unfold advance
        split <;> exact ⟨rfl, rfl, rfl, rfl⟩
      exact ⟨hrest.totalByteSize.trans hturn.totalByteSize, hrest.bufs.trans hturn.bufs,
        hrest.bufByteSizes.trans hturn.bufByteSizes, hrest.batchSize.trans hturn.batchSize⟩
    · rw [getNextLoop, if_neg hmore] at h
      obtain ⟨-, rfl⟩ := Prod.mk.inj (Option.some.inj h)
      exact ⟨rfl, rfl, rfl, rfl⟩

/-- A batch entry that there is a buffer for is that buffer. -/
theorem entry_of_ready {batchSize batchIdx : Nat} {io : InputImpl} (h : Ready batchSize io)
    (hidx : batchIdx < batchSize) : io.entry batchIdx = io.bufs[batchIdx]? := by
  unfold entry getRaw
  rw [h.batchSize, if_neg (Nat.not_le_of_lt hidx), h.sizes, List.getElem?_map]
  cases io.bufs[batchIdx]? with
  | none => rfl
  | some buf => exact congrArg some List.take_length

/-- An input that is set completely has the bytes of all of its buffers. -/
theorem rawInput_of_ready {batchSize : Nat} {io : InputImpl} (h : Ready batchSize io)
    (hlength : io.bufs.length = batchSize) : io.rawInput batchSize = some io.bufs.flatten := by
  have hentries : (List.range batchSize).mapM io.entry = some io.bufs := by
    have hget : ∀ k ∈ List.range batchSize, io.entry k = some (io.bufs.getD k []) := by
      intro k hk
      have hlt := List.mem_range.mp hk
      rw [entry_of_ready h hlt, List.getD_eq_getElem?_getD,
        List.getElem?_eq_getElem (hlength.symm ▸ hlt), Option.getD_some]
    rw [mapM_of_forall hget, ← hlength]
    refine congrArg some (List.ext_getElem (by rw [List.length_map, List.length_range])
      fun k hk hk' => ?_)
    rw [List.getElem_map, List.getElem_range]
    rw [List.getD_eq_getElem?_getD, List.getElem?_eq_getElem hk', Option.getD_some]
  rw [rawInput, hentries, Option.map_some]

end InputImpl

namespace InferContextImpl

/-- Every input is ready for the batch size of the context. -/
def Ready (ctx : InferContextImpl) : Prop := ∀ io ∈ ctx.inputs, io.Ready ctx.batchSize

theorem Ready.map {ctx ctx' : InferContextImpl} (h : Ready ctx) {f : InputImpl → InputImpl}
    (hf : ∀ io, io.Ready ctx.batchSize → (f io).Ready ctx'.batchSize)
    (hinputs : ctx'.inputs = ctx.inputs.map f) : Ready ctx' := by
  unfold Ready
  rw [hinputs, List.forall_mem_map]
  exact fun io hio => hf io (h io hio)

theorem Ready.set {ctx : InferContextImpl} (h : Ready ctx) {k : Nat} {io io' : InputImpl}
    (hget : ctx.inputs[k]? = some io)
    (hio : io.Ready ctx.batchSize → io'.Ready ctx.batchSize) :
    Ready { ctx with inputs := ctx.inputs.set k io' } := by
  intro x hx
  rcases List.mem_or_eq_of_mem_set hx with hmem | rfl
  · exact h x hmem
  · exact hio (h io (List.mem_of_getElem? hget))

/-! ## What is sent -/

/-- An input does not hold exactly one buffer for each batch entry. -/
def HalfSet (ctx : InferContextImpl) : Prop := ∃ io ∈ ctx.inputs, io.bufs.length ≠ ctx.batchSize

instance (ctx : InferContextImpl) : Decidable ctx.HalfSet :=
  inferInstanceAs (Decidable (∃ io ∈ ctx.inputs, _))

/-- The call ends with an error before it has sent anything, whatever the inputs hold. -/
def Stops (mode : Mode) (env : Environment) (ctx : InferContextImpl) : Prop :=
  match ctx.transport, mode with
  | .http, .run => env.curlStatus.isOk = false ∨ ctx.syncHandle = none
  | .http, .asyncRun =>
    ctx.multiHandle = false ∨ ∀ easyHandle ∈ env.easyHandle, easyHandle ∈ ctx.ongoing
  | .grpc, .run => False
  | .grpc, .asyncRun => ctx.asyncRequestId ∈ ctx.ongoing

end InferContextImpl

/-- An error is returned, and nothing is sent. -/
def Outcome.Refused : Outcome → Prop
  | .returned err none => err.isOk = false
  | _ => False

instance (outcome : Outcome) : Decidable outcome.Refused :=
  match outcome with
  | .returned err none => inferInstanceAs (Decidable (err.isOk = false))
  | .returned _ (some _) => .isFalse id
  | .undefined => .isFalse id

/-- A request that is not set completely is refused, and `GetRaw` is not asked for a buffer that
does not exist. -/
def Outcome.WellSent (outcome : Outcome) (ctx : InferContextImpl) : Prop :=
  (ctx.HalfSet → outcome.Refused) ∧ outcome ≠ .undefined

namespace InferContextImpl

variable {ctx : InferContextImpl} {mode : Mode} {env : Environment}

theorem not_refused_grpcSend (err : Status) (ctx : InferContextImpl) :
    ¬ (ctx.grpcSend err).1.Refused := by
  unfold grpcSend
  split <;> exact id

theorem refused_httpRun_iff :
    (ctx.httpRun env).1.Refused ↔ env.curlStatus.isOk = false ∨ ctx.syncHandle = none := by
  unfold httpRun
  cases hcurl : env.curlStatus.isOk with
  | false => exact iff_of_true hcurl (.inl rfl)
  | true =>
    unfold httpPreRunProcessing HttpUpload.initializeRequest
    cases ctx.syncHandle with
    | none => exact iff_of_true rfl (.inr rfl)
    | some easyHandle =>
      refine iff_of_false id ?_
      rintro (h | h) <;> cases h

theorem refused_httpAsyncRun_iff :
    (ctx.httpAsyncRun env).1.Refused ↔
      ctx.multiHandle = false ∨ ∀ easyHandle ∈ env.easyHandle, easyHandle ∈ ctx.ongoing := by
  unfold httpAsyncRun
  cases ctx.multiHandle with
  | false => exact iff_of_true rfl (.inl rfl)
  | true =>
    unfold httpPreRunProcessing HttpUpload.initializeRequest
    cases env.easyHandle with
    | none => exact iff_of_true rfl (.inr fun _ h => by cases h)
    | some easyHandle =>
      dsimp only [withMetaData]
      rw [if_neg (Bool.noConfusion : ¬ (!true) = true)]
      split
      · next hongoing =>
        exact iff_of_true rfl (.inr fun _ h => Option.some.inj h ▸ hongoing)
      · next hongoing =>
        refine iff_of_false id ?_
        rintro (h | h)
        · cases h
        · exact hongoing (h easyHandle rfl)

/-- A call is refused exactly if it stops before it looks at the inputs. -/
theorem refused_iff_stops : (ctx.send mode env).1.Refused ↔ Stops mode env ctx := by
  unfold send Stops
  split
  · exact refused_httpRun_iff
  · exact refused_httpAsyncRun_iff
  · exact iff_of_false (not_refused_grpcSend _ _) id
  · unfold grpcAsyncRun
    dsimp only
    split
    · next hongoing => exact iff_of_true rfl hongoing
    · next hongoing => exact iff_of_false (not_refused_grpcSend _ _) hongoing

theorem grpcSend_of_complete (h : Ready ctx) (hcomplete : ¬ HalfSet ctx) (err : Status) :
    ∃ request ctx', ctx.grpcSend err = (.returned err (some request), ctx') := by
  have hraw : ∀ io ∈ ctx.inputs.map InputImpl.prepared,
      io.rawInput ctx.batchSize = some io.bufs.flatten := by
    refine List.forall_mem_map.mpr fun io hio => ?_
    have hsame := io.sameBufs_prepared
    refine InputImpl.rawInput_of_ready ((h io hio).congr hsame) ?_
    rw [hsame.bufs]
    exact not_not.mp fun hne => hcomplete ⟨io, hio, hne⟩
  unfold grpcSend grpcPreRunProcessing withMetaData
  dsimp only
  rw [mapM_of_forall hraw]
  exact ⟨_, _, rfl⟩

theorem ready_start (transport : Transport) (config : ModelConfig) (correlationId : Nat)
    (syncHandle : Option Nat) (multiHandle : Bool) :
    Ready (create transport config correlationId syncHandle multiHandle) :=
  List.forall_mem_map.mpr fun _ _ => ⟨rfl, rfl⟩

theorem ready_grpcSend (h : Ready ctx) (err : Status) : Ready (ctx.grpcSend err).2 := by
  unfold grpcSend grpcPreRunProcessing
  dsimp only
  split
  · next heq =>
    obtain ⟨-, rfl⟩ := Prod.mk.inj heq
    exact h.map (fun io hio => hio.congr io.sameBufs_prepared) rfl
  · next heq =>
    obtain ⟨-, rfl⟩ := Prod.mk.inj heq
    exact h.map (fun io hio => hio.congr io.sameBufs_prepared) rfl

/-- A call that sends leaves the inputs as they are, or prepares them. -/
theorem ready_send (h : Ready ctx) : Ready (ctx.send mode env).2 := by
  unfold send
  split
  · unfold httpRun
    split
    · exact h
    · have hpre : Ready { (ctx.httpPreRunProcessing ⟨ctx.syncHandle, ctx.inputs, 0⟩).2.2 with
          inputs := (ctx.httpPreRunProcessing ⟨ctx.syncHandle, ctx.inputs, 0⟩).2.1.inputs } := by
        unfold httpPreRunProcessing HttpUpload.initializeRequest
        dsimp only
        split <;> exact h.map (fun io hio => hio.congr io.sameBufs_prepared) rfl
      dsimp only
      split <;> exact hpre
  · unfold httpAsyncRun httpPreRunProcessing
    split
    · exact h
    · split
      · exact h
      · dsimp only [HttpUpload.initializeRequest, withMetaData]
        split <;> exact h
  · exact ready_grpcSend h _
  · unfold grpcAsyncRun
    dsimp only
    split
    · exact h
    · refine ready_grpcSend ?_ _
      exact h

theorem ready_step {ctx' : InferContextImpl} {a : Action} (h : Ready ctx)
    (hstep : step ctx a = some ctx') : Ready ctx' := by
  cases a with
  | onInput k call =>
    obtain ⟨io, hget, rfl⟩ := Option.map_eq_some_iff.mp hstep
    exact h.set hget fun hio => InputImpl.ready_call hio call
  | setRunOptions options =>
    obtain rfl := Option.some.inj hstep
    unfold setRunOptions
    dsimp only
    split
    · exact h
    · exact h.map (fun io hio => InputImpl.ready_setBatchSize hio _) rfl
  | send mode env =>
    have hsend : Ready (ctx.send mode env).2 := ready_send h
    unfold step at hstep
    dsimp only at hstep
    split at hstep
    · cases hstep
    · next heq =>
      obtain rfl := Option.some.inj hstep
      rw [heq] at hsend
      exact hsend
  | getNext k size =>
    obtain ⟨io, hget, hnext⟩ := Option.bind_eq_some_iff.mp hstep
    obtain ⟨⟨copied, eoi, io'⟩, hio', rfl⟩ := Option.map_eq_some_iff.mp hnext
    obtain ⟨⟨copied', io''⟩, hloop, heq⟩ := Option.map_eq_some_iff.mp hio'
    obtain ⟨-, -, rfl⟩ := heq
    exact h.set hget fun hio => hio.congr (InputImpl.sameBufs_getNextLoop hloop)
  | getAsyncRunResults runIndex =>
    obtain rfl := Option.some.inj hstep
    exact h

theorem ready_reachable {transport : Transport} {config : ModelConfig} {correlationId : Nat}
    {syncHandle : Option Nat} {multiHandle : Bool}
    (h : Reachable step (create transport config correlationId syncHandle multiHandle) ctx) :
    Ready ctx :=
  h.invariant (ready_start transport config correlationId syncHandle multiHandle)
    fun _ _ _ hready _ hstep => ready_step hready hstep

theorem defined_httpRun : (ctx.httpRun env).1 ≠ .undefined := by
  unfold httpRun
  split
  · exact Outcome.noConfusion
  · dsimp only
    split <;> exact Outcome.noConfusion

theorem defined_httpAsyncRun : (ctx.httpAsyncRun env).1 ≠ .undefined := by
  unfold httpAsyncRun
  split
  · exact Outcome.noConfusion
  · split
    · exact Outcome.noConfusion
    · dsimp only
      split <;> exact Outcome.noConfusion

theorem defined_grpcSend (h : Ready ctx) (hcomplete : ¬ HalfSet ctx) (err : Status) :
    (ctx.grpcSend err).1 ≠ .undefined := by
  obtain ⟨request, ctx', heq⟩ := grpcSend_of_complete h hcomplete err
  rw [heq]
  exact Outcome.noConfusion

/-- When every input is set completely, no buffer is missing. -/
theorem defined_send (h : Ready ctx) (hcomplete : ¬ HalfSet ctx) :
    (ctx.send mode env).1 ≠ .undefined := by
  unfold send
  split
  · exact defined_httpRun
  · exact defined_httpAsyncRun
  · exact defined_grpcSend h hcomplete _
  · unfold grpcAsyncRun
    dsimp only
    split
    · exact Outcome.noConfusion
    · refine defined_grpcSend ?_ ?_ _
      · exact h
      · exact hcomplete

/-- In every run, a call of `Run` or `AsyncRun` meets what is asked of it exactly if every input
is set completely, or if the call stops before it looks at the inputs. -/
theorem wellSent_iff {transport : Transport} {config : ModelConfig} {correlationId : Nat}
    {syncHandle : Option Nat} {multiHandle : Bool}
    (h : Reachable step (create transport config correlationId syncHandle multiHandle) ctx)
    (mode : Mode) (env : Environment) :
    (ctx.send mode env).1.WellSent ctx ↔ ¬ HalfSet ctx ∨ Stops mode env ctx := by
  constructor
  · rintro ⟨hrefused, -⟩
    by_cases hhalf : HalfSet ctx
    · exact .inr (refused_iff_stops.mp (hrefused hhalf))
    · exact .inl hhalf
  · rintro (hcomplete | hstops)
    · exact ⟨fun hhalf => absurd hhalf hcomplete, defined_send (ready_reachable h) hcomplete⟩
    · have hrefused := refused_iff_stops.mpr hstops
      refine ⟨fun _ => hrefused, fun hundefined => ?_⟩
      rw [hundefined] at hrefused
      exact hrefused

/-- A context for a model with one input of one byte and batches of up to two. -/
def pairs (transport : Transport) : InferContextImpl :=
  create transport { name := "pairs", platform := "", input := [InputImpl.oneByte], output := [],
                     maxBatchSize := 2 } 0 (some 1) true

/-- Both batch entries are set. -/
theorem wellSent_both :
    ∃ ctx, Reachable step (pairs .grpc) ctx ∧
      ∀ env, (ctx.send .run env).1.WellSent ctx := by
  have hrun : (runWhen step (fun _ _ => True) (pairs .grpc)
      [.setRunOptions { batchSize := 2 }, .onInput 0 (.setRaw [7]), .onInput 0 (.setRaw [8])]).map
        (fun ctx => decide (∀ io ∈ ctx.inputs, io.bufs.length = ctx.batchSize)) = some true := by
    decide
  obtain ⟨ctx, hreachable, hset⟩ := exists_of_runWhen hrun
  refine ⟨ctx, hreachable, fun env => (wellSent_iff hreachable .run env).mpr (.inl ?_)⟩
  rintro ⟨io, hio, hne⟩
  exact hne (of_decide_eq_true hset io hio)

/-- One of two batch entries is set: a request is sent all the same, or the buffer of the other
entry is read. -/
theorem not_wellSent_one :
    (∃ ctx, Reachable step (pairs .http) ctx ∧
        ¬ (ctx.send .run { easyHandle := some 2, results := .ok }).1.WellSent ctx ∧
        ¬ (ctx.send .asyncRun { easyHandle := some 2, results := .ok }).1.WellSent ctx) ∧
      ∃ ctx, Reachable step (pairs .grpc) ctx ∧
        ¬ (ctx.send .run { easyHandle := none, results := .ok }).1.WellSent ctx ∧
        ¬ (ctx.send .asyncRun { easyHandle := none, results := .ok }).1.WellSent ctx := by
  have hhttp : (runWhen step (fun _ _ => True) (pairs .http)
      [.setRunOptions { batchSize := 2 }, .onInput 0 (.setRaw [7])]).map (fun ctx =>
        decide (ctx.HalfSet ∧
          ¬ (ctx.send .run { easyHandle := some 2, results := .ok }).1.Refused ∧
          ¬ (ctx.send .asyncRun { easyHandle := some 2, results := .ok }).1.Refused)) =
      some true := by decide
  have hgrpc : (runWhen step (fun _ _ => True) (pairs .grpc)
      [.setRunOptions { batchSize := 2 }, .onInput 0 (.setRaw [7])]).map (fun ctx =>
        decide (ctx.HalfSet ∧
          ¬ (ctx.send .run { easyHandle := none, results := .ok }).1.Refused ∧
          ¬ (ctx.send .asyncRun { easyHandle := none, results := .ok }).1.Refused)) =
      some true := by decide
  obtain ⟨ctx, hreachable, hfacts⟩ := exists_of_runWhen hhttp
  obtain ⟨ctx', hreachable', hfacts'⟩ := exists_of_runWhen hgrpc
  obtain ⟨hhalf, hrun, hasyncRun⟩ := of_decide_eq_true hfacts
  obtain ⟨hhalf', hrun', hasyncRun'⟩ := of_decide_eq_true hfacts'
  exact ⟨⟨ctx, hreachable, fun h => hrun (h.1 hhalf), fun h => hasyncRun (h.1 hhalf)⟩,
    ctx', hreachable', fun h => hrun' (h.1 hhalf'), fun h => hasyncRun' (h.1 hhalf')⟩

end InferContextImpl

end FinBert.Client
