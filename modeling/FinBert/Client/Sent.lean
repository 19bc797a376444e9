import FinBert.Client.InputStreaming
import FinBert.Serving.Normalization

/-!
# What a context sends

A request of an HTTP context whose inputs have been set in order: no call that is refused has
cleared buffers (`InputImpl.Keeps`), and a shape was set before the buffers. Its header announces
what libcurl reads from the inputs, and the buffers of an input of a fixed-size data type have the
byte size of its shape.

Results:
1. `settled_reachable`: what is known of the inputs of a context in such a run.
2. `sent_http`: the header and the inputs of a request.
3. `body_of_uploads`: the body of a request.
-/

namespace FinBert.Client

open FinBert.Serving Transition

/-! ## Inputs that are set in order -/

namespace InputImpl

/-- The shape that the buffers are for. -/
def usedDims (io : InputImpl) : List Int := if io.shape = [] then io.mio.dims else io.shape

/-- What is known of an input: its sizes are those of its buffers, and the buffers have the size
that the shape asks for. -/
structure Settled (io : InputImpl) : Prop where
  total : io.totalByteSize = io.bufByteSizes.sum
  sizes : io.bufByteSizes = io.bufs.map List.length
  concrete : ∀ dim ∈ io.shape, 0 ≤ dim
  byteSize : io.needsShape = false → io.byteSize = getByteSize io.mio.dataType io.usedDims
  filled : io.bufs ≠ [] → io.needsShape = false
  fits : isFixedSizeDataType io.mio.dataType → ∀ buf ∈ io.bufs, buf.length = uint64 io.byteSize

/-- The condition on a call: it keeps the bytes that were stored, and a shape comes before the
buffers. -/
def InOrder (io : InputImpl) (c : InputCall) : Prop :=
  Keeps io c ∧
    match c with
    | .setShape dims => dims ≠ [] ∧ io.bufs = []
    | _ => True

instance (io : InputImpl) (c : InputCall) : Decidable (InOrder io c) :=
  match c with
  | .setShape dims => inferInstanceAs (Decidable (Keeps io _ ∧ dims ≠ [] ∧ io.bufs = []))
  | .setRaw _ | .setFromString _ | .reset | .copy =>
    inferInstanceAs (Decidable (Keeps io _ ∧ True))

theorem settled_create (mio : ModelInput) : Settled (create mio) where
  total := rfl
  sizes := rfl
  concrete := nofun
  byteSize h := by
    show (if getElementCount mio.dims = -1 then -1 else getByteSize mio.dataType mio.dims) = _
    rw [if_neg (of_decide_eq_false h)]
    rfl
  filled h := absurd rfl h
  fits _ _ hbuf := absurd hbuf List.not_mem_nil

variable {io : InputImpl}

/-- The position and the batch size do not matter. -/
theorem Settled.move (h : Settled io) (batchSize bufsIdx bufPos : Nat) (strBufs : List Bytes) :
    Settled { io with batchSize, bufsIdx, bufPos, strBufs } :=
  ⟨h.total, h.sizes, h.concrete, h.byteSize, h.filled, h.fits⟩

theorem Settled.clear (h : Settled io) (htotal : io.totalByteSize = 0) : Settled io.clear where
  total := htotal
  sizes := rfl
  concrete := h.concrete
  byteSize := h.byteSize
  filled hne := absurd rfl hne
  fits _ _ hbuf := absurd hbuf List.not_mem_nil

theorem Settled.setRaw {input : Bytes} (h : Settled io) (hc : Keeps io (.setRaw input)) :
    Settled (io.setRaw input).2 := by
  cases hclears : io.clears (.setRaw input) with
  | true =>
    rw [setRaw_of_clears hclears]
    exact h.clear (hc hclears)
  | false =>
    rw [(setRaw_of_stores hclears).2]
    rw [clears, Bool.or_eq_false_iff, Bool.or_eq_false_iff] at hclears
    obtain ⟨⟨hshape, hsize⟩, -⟩ := hclears
    refine ⟨?_, ?_, h.concrete, h.byteSize, fun _ => hshape, fun hfixed => ?_⟩
    · rw [store, h.total, List.sum_append, List.sum_singleton]
    · rw [store, h.sizes, List.map_append, List.map_singleton]
    · have hfixed : isFixedSizeDataType io.mio.dataType = true := hfixed
      rw [hfixed, Bool.true_and, decide_eq_false_iff_not, not_not] at hsize
      intro buf hbuf
      obtain hbuf | rfl := (List.mem_append.mp hbuf).imp_right List.mem_singleton.mp
      · exact h.fits hfixed buf hbuf
      · exact hsize

theorem settled_call {c : InputCall} (h : Settled io) (hc : InOrder io c) :
    Settled (io.call c).2 := by
  cases c with
  | setRaw input => exact h.setRaw hc.1
  | setFromString input =>
    have hkeeps := hc.1
    unfold Keeps at hkeeps
    rw [clears] at hkeeps
    unfold call setFromString
    dsimp only
    split
    · next htype => exact h.clear (hkeeps (by simp [htype]))
    · next htype =>
      split
      · exact h
      · next hshape =>
        split
        · next hcount => exact h.clear (hkeeps (by simp [hshape, hcount]))
        · next hcount =>
          refine (h.move io.batchSize io.bufsIdx io.bufPos _).setRaw fun hclears => hkeeps ?_
          have hstring := not_not.mp htype
          simpa [clears, hstring, hshape, hcount, isFixedSizeDataType] using hclears
  | setShape dims =>
    obtain ⟨-, hne, hnil⟩ := hc
    unfold call setShape
    dsimp only
    split
    · exact h
    · next hnone =>
      refine ⟨h.total, h.sizes, fun dim hdim => ?_, fun _ => ?_, fun _ => rfl, fun _ _ hbuf => ?_⟩
      · simpa using List.find?_eq_none.mp hnone dim hdim
      · rw [usedDims, if_neg hne]
      · rw [show io.bufs = [] from hnil] at hbuf
        exact absurd hbuf List.not_mem_nil
  | reset =>
    exact ⟨rfl, rfl, h.concrete, h.byteSize, fun hne => absurd rfl hne,
      fun _ _ hbuf => absurd hbuf List.not_mem_nil⟩
  | copy => exact h.move _ _ _ _

theorem mio_call (io : InputImpl) (c : InputCall) : (io.call c).2.mio = io.mio := by
  cases c with
  | setRaw input =>
    unfold call InputImpl.setRaw
    dsimp only
    repeat' split
    all_goals rfl
  | setFromString input =>
    unfold call setFromString InputImpl.setRaw
    dsimp only
    repeat' split
    all_goals rfl
  | setShape dims =>
    unfold call setShape
    dsimp only
    split <;> rfl
  | reset => rfl
  | copy => rfl

/-- `GetNext` changes the position only. -/
theorem getNextLoop_position {iterations : Nat} {copied copied' : Bytes} {size : Nat}
    {io' : InputImpl} (h : getNextLoop iterations copied size io = some (copied', io')) :
    ∃ bufsIdx bufPos, io' = { io with bufsIdx, bufPos } := by
  induction iterations generalizing copied size io with
  | zero => cases h
  | succ iterations ih =>
    by_cases hmore : io.bufsIdx < io.bufs.length ∧ 0 < size
    · rw [getNextLoop_turn copied hmore] at h
      obtain ⟨bufsIdx, bufPos, rfl⟩ := ih h
      refine ⟨bufsIdx, bufPos, ?_⟩
      unfold advance
      split <;> rfl
    · rw [getNextLoop, if_neg hmore] at h
      obtain ⟨-, rfl⟩ := Prod.mk.inj (Option.some.inj h)
      exact ⟨io.bufsIdx, io.bufPos, rfl⟩

theorem prepared_position (io : InputImpl) :
    ∃ bufsIdx bufPos, io.prepared = { io with bufsIdx, bufPos } := by
  unfold prepared prepareForRequest
  split
  · exact ⟨io.bufsIdx, io.bufPos, rfl⟩
  · exact ⟨0, 0, rfl⟩

end InputImpl

/-! ## Contexts -/

namespace InferContextImpl

/-- The condition on a step: the calls on an input are in order. -/
def InOrder (ctx : InferContextImpl) : Action → Prop
  | .onInput k call => ∀ io ∈ ctx.inputs[k]?, io.InOrder call
  | _ => True

instance (ctx : InferContextImpl) (a : Action) : Decidable (InOrder ctx a) :=
  match a with
  | .onInput k call => inferInstanceAs (Decidable (∀ io ∈ ctx.inputs[k]?, io.InOrder call))
  | .setRunOptions _ | .send _ _ | .getNext _ _ | .getAsyncRunResults _ => isTrue trivial

/-- What is known of a context for a model: its inputs are those of the model, and its batch size
is one that the model allows. -/
structure Settled (config : ModelConfig) (ctx : InferContextImpl) : Prop where
  mios : ctx.inputs.map (·.mio) = config.input
  inputs : ∀ io ∈ ctx.inputs, io.Settled
  maxBatchSize : ctx.maxBatchSize = config.maxBatchSize.toInt.toNat
  batchSize : ctx.inferRequest.batchSize = ctx.batchSize
  most : ctx.batchSize ≤ max 1 config.maxBatchSize.toInt.toNat

variable {config : ModelConfig} {ctx ctx' : InferContextImpl}

/-- The inputs are changed one by one, and the rest stays. -/
theorem Settled.map (h : Settled config ctx) {f : InputImpl → InputImpl}
    (hf : ∀ io, io.Settled → (f io).mio = io.mio ∧ (f io).Settled)
    (hinputs : ctx'.inputs = ctx.inputs.map f) (hmax : ctx'.maxBatchSize = ctx.maxBatchSize)
    (hbatch : ctx'.inferRequest.batchSize = ctx'.batchSize)
    (hmost : ctx'.batchSize ≤ max 1 ctx.maxBatchSize) : Settled config ctx' where
  mios := by
    rw [hinputs, List.map_map, ← h.mios]
    exact List.map_congr_left fun io hio => (hf io (h.inputs io hio)).1
  inputs := by
    rw [hinputs, List.forall_mem_map]
    exact fun io hio => (hf io (h.inputs io hio)).2
  maxBatchSize := hmax.trans h.maxBatchSize
  batchSize := hbatch
  most := h.maxBatchSize ▸ hmost

theorem Settled.set (h : Settled config ctx) {k : Nat} {io io' : InputImpl}
    (hget : ctx.inputs[k]? = some io) (hmio : io'.mio = io.mio) (hio' : io'.Settled) :
    Settled config { ctx with inputs := ctx.inputs.set k io' } where
  mios := by
    rw [← h.mios]
    refine List.ext_getElem? fun j => ?_
    rw [List.getElem?_map, List.getElem?_map]
    rcases eq_or_ne k j with rfl | hne
    · rw [List.getElem?_set_self (List.getElem?_eq_some_iff.mp hget).1, hget]
      exact congrArg some hmio
    · rw [List.getElem?_set_ne hne]
  inputs x hx := by
    rcases List.mem_or_eq_of_mem_set hx with hmem | rfl
    · exact h.inputs x hmem
    · exact hio'
  maxBatchSize := h.maxBatchSize
  batchSize := h.batchSize
  most := h.most

theorem settled_create (transport : Transport) (config : ModelConfig) (correlationId : Nat)
    (syncHandle : Option Nat) (multiHandle : Bool) :
    Settled config (create transport config correlationId syncHandle multiHandle) where
  mios := by
    show (config.input.map InputImpl.create).map (·.mio) = _
    rw [List.map_map]
    exact List.map_id _
  inputs := List.forall_mem_map.mpr fun mio _ => InputImpl.settled_create mio
  maxBatchSize := rfl
  batchSize := rfl
  most := Nat.zero_le _

theorem Settled.withMetaData (h : Settled config ctx) : Settled config ctx.withMetaData :=
  ⟨h.mios, h.inputs, h.maxBatchSize, h.batchSize, h.most⟩

theorem Settled.prepared (h : Settled config ctx) :
    Settled config { ctx with inputs := ctx.inputs.map InputImpl.prepared } := by
  refine h.map (fun io hio => ?_) rfl rfl h.batchSize (h.maxBatchSize ▸ h.most)
  obtain ⟨bufsIdx, bufPos, heq⟩ := io.prepared_position
  rw [heq]
  exact ⟨rfl, hio.move _ _ _ _⟩

theorem settled_grpcSend (h : Settled config ctx) (err : Status) :
    Settled config (ctx.grpcSend err).2 := by
  unfold grpcSend grpcPreRunProcessing
  dsimp only
  split
  · next heq =>
    obtain ⟨-, rfl⟩ := Prod.mk.inj heq
    exact h.prepared.withMetaData
  · next heq =>
    obtain ⟨-, rfl⟩ := Prod.mk.inj heq
    exact h.prepared.withMetaData

/-- A call that sends prepares the inputs, or leaves them as they are. -/
theorem settled_send {mode : Mode} {env : Environment} (h : Settled config ctx) :
    Settled config (ctx.send mode env).2 := by
  unfold send
  split
  · unfold httpRun httpPreRunProcessing HttpUpload.initializeRequest
    split
    · exact h
    · dsimp only
      cases ctx.syncHandle with
      | none => exact h.prepared
      | some easyHandle => exact h.withMetaData.prepared
  · unfold httpAsyncRun httpPreRunProcessing HttpUpload.initializeRequest
    split
    · exact h
    · split
      · exact h
      · dsimp only
        split <;> exact ⟨h.mios, h.inputs, h.maxBatchSize, h.batchSize, h.most⟩
  · exact settled_grpcSend h _
  · unfold grpcAsyncRun
    dsimp only
    split
    · exact ⟨h.mios, h.inputs, h.maxBatchSize, h.batchSize, h.most⟩
    · refine settled_grpcSend ?_ _
      exact ⟨h.mios, h.inputs, h.maxBatchSize, h.batchSize, h.most⟩

theorem settled_step {a : Action} (h : Settled config ctx) (ha : InOrder ctx a)
    (hstep : step ctx a = some ctx') : Settled config ctx' := by
  cases a with
  | onInput k call =>
    obtain ⟨io, hget, rfl⟩ := Option.map_eq_some_iff.mp hstep
    refine h.set hget ?_ (InputImpl.settled_call (h.inputs io (List.mem_of_getElem? hget))
      (ha io hget))
    exact InputImpl.mio_call io call
  | setRunOptions options =>
    obtain rfl := Option.some.inj hstep
    unfold setRunOptions
    dsimp only
    split
    · exact h
    · next hbatch =>
      refine h.map (f := InputImpl.setBatchSize _) (fun io hio => ⟨rfl, hio.move _ _ _ _⟩) rfl rfl
        rfl ?_
      exact max_le (le_max_left _ _) (Nat.not_lt.mp hbatch)
  | send mode env =>
    have hsend : Settled config (ctx.send mode env).2 := settled_send h
    unfold step at hstep
    dsimp only at hstep
    split at hstep
    · cases hstep
    · next heq =>
      obtain rfl := Option.some.inj hstep
      rw [heq] at hsend
      exact hsend
  | getNext k size =>
    obtain ⟨io, hget, hnext⟩ := Option.bind_eq_some_iff.mp hstep
    obtain ⟨⟨copied, eoi, io'⟩, hio', rfl⟩ := Option.map_eq_some_iff.mp hnext
    obtain ⟨⟨copied', io''⟩, hloop, heq⟩ := Option.map_eq_some_iff.mp hio'
    obtain ⟨-, -, rfl⟩ := heq
    obtain ⟨bufsIdx, bufPos, rfl⟩ := InputImpl.getNextLoop_position hloop
    exact h.set hget rfl ((h.inputs io (List.mem_of_getElem? hget)).move _ _ _ _)
  | getAsyncRunResults runIndex =>
    obtain rfl := Option.some.inj hstep
    exact ⟨h.mios, h.inputs, h.maxBatchSize, h.batchSize, h.most⟩

/-- What is known of a context in every run whose calls are in order. -/
theorem settled_reachable {transport : Transport} {correlationId : Nat}
    {syncHandle : Option Nat} {multiHandle : Bool}
    (h : ReachableWhen step InOrder
      (create transport config correlationId syncHandle multiHandle) ctx) : Settled config ctx :=
  h.invariant (settled_create transport config correlationId syncHandle multiHandle)
    fun _ _ _ hsettled ha hstep => settled_step hsettled ha hstep

/-! ## The request -/

/-- The inputs of a request, which are to be read from the start. -/
structure SentInputs (ctx : InferContextImpl) (upload : HttpUpload) : Prop where
  bufs : upload.inputs.map (·.bufs) = ctx.inputs.map (·.bufs)
  fresh : ∀ io ∈ upload.inputs, io.Fresh

theorem sentInputs_prepared (hready : Ready ctx) (hcomplete : ¬ HalfSet ctx) {upload : HttpUpload}
    {f : InputImpl → InputImpl} (hf : ∀ io, InputImpl.SameBufs io (f io))
    (hinputs : upload.inputs = (ctx.inputs.map f).map InputImpl.prepared) :
    SentInputs ctx upload := by
  rw [List.map_map] at hinputs
  refine ⟨?_, ?_⟩
  · rw [hinputs, List.map_map]
    exact List.map_congr_left fun io _ =>
      ((InputImpl.sameBufs_prepared (f io)).bufs).trans (hf io).bufs
  · rw [hinputs, List.forall_mem_map]
    intro io hio
    refine InputImpl.fresh_prepared ((hready io hio).congr (hf io)) ?_
    rw [(hf io).bufs]
    exact not_not.mp fun hne => hcomplete ⟨io, hio, hne⟩

/-- The header and the inputs of a request that is sent over HTTP. -/
theorem sent_http {mode : Mode} {env : Environment} {err : Status} {header : InferRequestHeader}
    {upload : HttpUpload} (hready : Ready ctx) (hcomplete : ¬ HalfSet ctx)
    (h : ctx.send mode env = (.returned err (some (.http header upload)), ctx')) :
    header = ctx.withMetaData.inferRequest ∧
      upload.totalInputByteSize = (ctx.inputs.map (·.totalByteSize)).sum ∧
      SentInputs ctx upload := by
  have hgrpc (err' : Status) (ctx₁ : InferContextImpl) :
      ctx₁.grpcSend err' ≠ (.returned err (some (.http header upload)), ctx') := by
    unfold grpcSend grpcPreRunProcessing
    dsimp only
    intro heq
    split at heq
    · cases heq
    · next hsent =>
      obtain ⟨hsent, -⟩ := Prod.mk.inj hsent
      obtain ⟨rawInput, -, rfl⟩ := Option.map_eq_some_iff.mp hsent
      cases heq
  unfold send at h
  split at h
  · unfold httpRun httpPreRunProcessing HttpUpload.initializeRequest at h
    split at h
    · cases h
    · dsimp only at h
      cases hhandle : ctx.syncHandle with
      | none =>
        rw [hhandle] at h
        cases h
      | some easyHandle =>
        rw [hhandle] at h
        obtain ⟨h, -⟩ := Prod.mk.inj h
        simp only [Outcome.returned.injEq, Option.some.injEq, Sent.http.injEq] at h
        obtain ⟨-, rfl, rfl⟩ := h
        refine ⟨rfl, Nat.zero_add _, sentInputs_prepared hready hcomplete (f := id)
          (fun io => ⟨rfl, rfl, rfl, rfl⟩) ?_⟩
        rw [List.map_id]
  · unfold httpAsyncRun httpPreRunProcessing HttpUpload.initializeRequest at h
    split at h
    · cases h
    · split at h
      · cases h
      · dsimp only at h
        split at h
        · cases h
        · obtain ⟨h, -⟩ := Prod.mk.inj h
          simp only [Outcome.returned.injEq, Option.some.injEq, Sent.http.injEq] at h
          obtain ⟨-, rfl, rfl⟩ := h
          exact ⟨rfl, Nat.zero_add _, sentInputs_prepared hready hcomplete (f := InputImpl.copy)
            (fun io => ⟨rfl, rfl, rfl, rfl⟩) rfl⟩
  · exact absurd h (hgrpc _ _)
  · unfold grpcAsyncRun at h
    dsimp only at h
    split at h
    · cases h
    · exact absurd h (hgrpc _ _)

end InferContextImpl

/-- libcurl reads the body of a request, until it has as many bytes as were announced. -/
def HttpUpload.Uploads (upload : HttpUpload) (body : Bytes) : Prop :=
  ∃ sizes replies request,
    HttpSending.getNextInputs sizes { toHttpUpload := upload } = some (replies, request) ∧
      replies.flatten = body ∧ body.length = upload.totalInputByteSize

namespace InferContextImpl

variable {config : ModelConfig} {ctx : InferContextImpl}

/-- The body is made up of the buffers of the inputs. -/
theorem body_of_uploads (hsettled : Settled config ctx) {upload : HttpUpload}
    (htotal : upload.totalInputByteSize = (ctx.inputs.map (·.totalByteSize)).sum)
    (hsent : SentInputs ctx upload) {body : Bytes} (h : upload.Uploads body) :
    body = (ctx.inputs.map (·.bufs.flatten)).flatten := by
  obtain ⟨sizes, replies, request, hreplies, rfl, hlength⟩ := h
  obtain ⟨request', hslices⟩ := @HttpSending.getNextInputs_slices { toHttpUpload := upload }
    (fun io hio => (hsent.fresh io hio).positioned) sizes
  obtain ⟨rfl, -⟩ := Prod.mk.inj (Option.some.inj (hreplies.symm.trans hslices))
  have hremaining : HttpSending.remaining { toHttpUpload := upload } =
      upload.inputs.flatMap fun io => io.bufs.flatten :=
    List.flatMap_congr fun io hio => (hsent.fresh io hio).remaining
  have hbytes : (upload.inputs.flatMap fun io => io.bufs.flatten) =
      (ctx.inputs.map (·.bufs.flatten)).flatten := by
    have hbufs := congrArg (List.map List.flatten) hsent.bufs
    rw [List.map_map, List.map_map] at hbufs
    exact congrArg List.flatten hbufs
  rw [hremaining, hbytes, flatten_slices] at hlength ⊢
  refine (List.take_prefix _ _).eq_of_length ?_
  rw [hlength, htotal, List.length_flatten, List.map_map]
  refine congrArg List.sum (List.map_congr_left fun io hio => ?_)
  have hio := hsettled.inputs io hio
  rw [hio.total, hio.sizes]
  exact List.length_flatten.symm

end InferContextImpl

end FinBert.Client
