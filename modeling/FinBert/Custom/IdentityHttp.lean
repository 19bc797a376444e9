import FinBert.Custom.HttpServer
import FinBert.Custom.Identity

/-!
# The identity library and an HTTP response

What the library does with a payload of an HTTP request: it calls `AllocateOutputBuffer` for each
requested output, and copies to the buffer what the calls of `GetNextInputContent` return.

Results:
1. `copyInput_of_cursorAt`: the pieces of an input end up one behind the other.
2. `executeOutputs_spec`: the outputs of a payload are those that are returned.
-/

namespace FinBert.Custom.Identity

open FinBert.Serving Response

/-! ## One input -/

section
variable {payload : HttpPayload} {name : String} {memory : SystemMemory} {idx : Nat}

/-- The inputs that are left alone are still to be read. -/
def Keeps (name : String) (provider provider' : InferRequestProvider) : Prop :=
  provider'.requestHeader = provider.requestHeader ∧
    ∀ name', name' ≠ name → ∀ memory idx, provider.CursorAt name' memory idx →
      provider'.CursorAt name' memory idx

theorem Keeps.trans {provider provider' provider'' : InferRequestProvider}
    (h : Keeps name provider provider') (h' : Keeps name provider' provider'') :
    Keeps name provider provider'' :=
  ⟨h'.1.trans h.1, fun name' hne memory idx hcursor =>
    h'.2 name' hne memory idx (h.2 name' hne memory idx hcursor)⟩

theorem keeps_getNextInputContent (provider : InferRequestProvider) (size : Nat) :
    Keeps name provider (provider.getNextInputContent name size false).2 :=
  ⟨requestHeader_getNextInputContent _ _ _ _,
    fun _ hne _ _ hcursor => cursorAt_of_other hcursor hne.symm _ _⟩

/-- The loop copies all that is left of an input. -/
theorem copyInput_of_cursorAt (content : Content) {calls : Nat} (offset : Nat)
    (h : payload.requestProvider.CursorAt name memory idx)
    (hblocks : ∀ block ∈ memory.blocks, block ≠ [])
    (hcalls : payload.requestProvider.blocksLeft name < calls) :
    ∃ provider, Keeps name payload.requestProvider provider ∧
      copyInput name content calls offset payload =
        (.kSuccess, { payload with
          requestProvider := provider
          responseProvider := HttpProvider.writeAt payload.responseProvider offset
            (memory.blocks.drop idx).flatten content }) := by
  induction calls generalizing payload idx offset with
  | zero => exact absurd hcalls (Nat.not_lt_zero _)
  | succ calls ih =>
    obtain ⟨reply, idx', hreply, hcursor, hcontent⟩ :=
      getNextInputContent_of_cursorAt h hblocks (by decide : 128 * 1024 ≠ 0) false
    obtain ⟨provider, hprovider⟩ : ∃ provider, provider =
      (payload.requestProvider.getNextInputContent name (128 * 1024) false).2 := ⟨_, rfl⟩
    have hkeeps : Keeps name payload.requestProvider provider :=
      hprovider ▸ keeps_getNextInputContent payload.requestProvider (128 * 1024)
    have hnext : payload.requestProvider.getNextInputContent name (128 * 1024) false =
      (.ok reply, provider) := Prod.ext hreply hprovider.symm
    rw [← hprovider] at hcursor
    have hinput : BackendPayload.inputFn payload name (128 * 1024) =
        (some reply, { payload with requestProvider := provider }) := by
      show payload.getNextInput name (128 * 1024) = _
      unfold HttpPayload.getNextInput
      rw [hnext]
    rw [copyInput, hinput]
    obtain ⟨rfl, hnil, -⟩ | ⟨bytes, rfl, -, -, hbytes⟩ := hcontent
    · refine ⟨provider, hkeeps, ?_⟩
      rw [hnil, List.flatten_nil, writeAt_nil]
    · obtain ⟨hleft, -⟩ := blocksLeft_getNextInputContent (counts_of_cursorAt h) hnext
      let payload' : HttpPayload := { payload with
        requestProvider := provider
        responseProvider := HttpProvider.writeAt payload.responseProvider offset bytes content }
      obtain ⟨provider', hkeeps', hcopy⟩ := @ih payload' idx' (offset + bytes.length) hcursor
        (Nat.lt_of_succ_lt_succ (hleft.trans_lt hcalls))
      refine ⟨provider', hkeeps.trans hkeeps', ?_⟩
      rw [hbytes, ← writeAt_append]
      exact hcopy

end

/-! ## The outputs -/

/-- The `evbuffer` has room for every output. -/
def Reserves (evbuffer : Nat → Nat → EvbufferAnswer) : Prop :=
  ∀ outputs size, ∃ space, (evbuffer outputs size).space = some space ∧ size ≤ space.length ∧
    (evbuffer outputs size).committed = true

/-- A requested output, with the input that is copied to it and the memory of this input. -/
structure Copy where
  outputName : String
  info : CopyInfo
  memory : SystemMemory

/-- The output that is returned. -/
def Copy.call (context : Context) (payload : CustomPayload HttpPayload) (copy : Copy) : Call where
  name := copy.outputName
  shape := context.outputShape payload copy.info.inputName
  tensor := copy.memory.bytes

/-- The output is requested as raw bytes and known to the context, and the input is still to be
read and has the byte size of the output. -/
structure Copy.Ready (context : Context) (payload : CustomPayload HttpPayload) (copy : Copy) :
    Prop where
  requested : payload.context.responseProvider.base.outputMap.lookup copy.outputName =
    some { name := copy.outputName }
  known : context.copyMap.lookup copy.outputName = some copy.info
  cursor : payload.context.requestProvider.CursorAt copy.info.inputName copy.memory 0
  blocks : ∀ block ∈ copy.memory.blocks, block ≠ []
  byteSize : getByteSize copy.info.datatype
    (context.outputShape payload copy.info.inputName) = copy.memory.bytes.length

section
variable {context : Context} {payload : CustomPayload HttpPayload} {copy : Copy}

/-- There is a buffer for a raw output. -/
theorem allocateOutputBuffer_ok {provider : HttpProvider} {output : RequestOutput}
    {evbuffer : Nat → Nat → EvbufferAnswer} (hreserves : Reserves evbuffer) {name : String}
    (hlookup : provider.base.outputMap.lookup name = some output) (hraw : output.cls = none)
    (shape : List Int) (size outputs : Nat) :
    ∃ content provider', provider.allocateOutputBuffer name size shape (evbuffer outputs size) =
        (.ok content, provider') ∧
      provider'.base.outputMap = provider.base.outputMap := by
  obtain ⟨space, hspace, hle, hcommitted⟩ := hreserves outputs size
  unfold HttpProvider.allocateOutputBuffer Provider.checkAndSetIfBufferedOutput
  rw [hlookup]
  simp only [hraw, true_and]
  split
  · rw [hspace]
    simp only [if_neg (Nat.not_lt.mpr hle)]
    exact ⟨_, _, rfl, rfl⟩
  · exact ⟨_, _, rfl, rfl⟩

theorem returned_cons {provider provider' : HttpProvider} {call : Call} {evbuffer : EvbufferAnswer}
    {content : Option Content}
    (h : provider.allocateOutputBuffer call.name call.tensor.length call.shape evbuffer =
      (.ok content, provider')) (calls : List (Call × EvbufferAnswer)) :
    provider.returned ((call, evbuffer) :: calls) =
      (provider'.write call.tensor content).returned calls := by
  rw [HttpProvider.returned, h]

/-- One output: a buffer is allocated, and the input is copied to it. -/
theorem executeOutput_of_ready (hreserves : Reserves payload.context.evbuffer)
    (h : copy.Ready context payload) (hok : payload.errorCode = 0) :
    ∃ content provider requestProvider evbuffer,
      payload.context.responseProvider.allocateOutputBuffer copy.outputName
          copy.memory.bytes.length (context.outputShape payload copy.info.inputName) evbuffer =
        (.ok content, provider) ∧
      provider.base.outputMap = payload.context.responseProvider.base.outputMap ∧
      (∀ name, name ≠ copy.info.inputName → ∀ memory idx,
        payload.context.requestProvider.CursorAt name memory idx →
          requestProvider.CursorAt name memory idx) ∧
      context.executeOutput payload copy.outputName =
        { payload with context := { payload.context with
            requestProvider := requestProvider
            responseProvider := provider.write copy.memory.bytes content } } := by
  obtain ⟨content, provider, hallocate, hmap⟩ :=
    allocateOutputBuffer_ok hreserves h.requested rfl
      (context.outputShape payload copy.info.inputName) copy.memory.bytes.length
      payload.context.responseProvider.base.outputs.length
  have houtput : BackendPayload.outputFn payload.context copy.outputName
      (context.outputShape payload copy.info.inputName) copy.memory.bytes.length =
        (some content, { payload.context with responseProvider := provider }) := by
    show payload.context.getOutput _ _ _ = _
    unfold HttpPayload.getOutput
    dsimp only
    rw [hallocate]
  have hexecute : context.executeOutput payload copy.outputName =
      content.elim
        { payload with context := { payload.context with responseProvider := provider } }
        fun obuffer =>
          let result := copyInput copy.info.inputName obuffer
            (payload.context.requestProvider.blocksLeft copy.info.inputName + 2) 0
            { payload.context with responseProvider := provider }
          { payload with context := result.2, errorCode := result.1.number } := by
    unfold Context.executeOutput
    rw [h.known]
    dsimp only
    rw [h.byteSize, if_neg (Int.not_lt.mpr (Int.natCast_nonneg _)), Int.toNat_natCast, houtput]
    cases content <;> rfl
  rw [hexecute]
  cases content with
  | none =>
    exact ⟨none, provider, payload.context.requestProvider, _, hallocate, hmap,
      fun _ _ _ _ hcursor => hcursor, rfl⟩
  | some obuffer =>
    obtain ⟨requestProvider, hkeeps, hcopy⟩ :=
      @copyInput_of_cursorAt { payload.context with responseProvider := provider }
        copy.info.inputName copy.memory 0 obuffer
        (payload.context.requestProvider.blocksLeft copy.info.inputName + 2) 0 h.cursor h.blocks
        (Nat.lt_add_of_pos_right Nat.two_pos)
    refine ⟨some obuffer, provider, requestProvider, _, hallocate, hmap, hkeeps.2, ?_⟩
    rw [Option.elim_some]
    dsimp only
    rw [hcopy, List.drop_zero, ← SystemMemory.bytes_eq, writeAt_zero]
    dsimp only
    rw [show ErrorCodes.number .kSuccess = payload.errorCode from hok.symm]

/-- All outputs of a payload, of which each is copied from an input of its own. -/
theorem executeOutputs_spec {copies : List Copy} (hreserves : Reserves payload.context.evbuffer)
    (hinputs : (copies.map (·.info.inputName)).Nodup)
    (h : ∀ copy ∈ copies, copy.Ready context payload) (hok : payload.errorCode = 0) :
    ∃ requestProvider provider answered,
      context.executeOutputs (copies.map (·.outputName)) payload =
        { payload with context := { payload.context with
            requestProvider := requestProvider
            responseProvider := provider } } ∧
      answered.map Prod.fst = copies.map (Copy.call context payload) ∧
      payload.context.responseProvider.returned answered = .ok provider := by
  induction copies generalizing payload with
  | nil =>
    exact ⟨payload.context.requestProvider, payload.context.responseProvider, [], rfl, rfl, rfl⟩
  | cons copy copies ih =>
    rw [List.forall_mem_cons] at h
    rw [List.map_cons, List.nodup_cons] at hinputs
    obtain ⟨content, provider, requestProvider, evbuffer, hallocate, hmap, hkeeps, hexecute⟩ :=
      executeOutput_of_ready hreserves h.1 hok
    let payload' : CustomPayload HttpPayload := { payload with context := { payload.context with
      requestProvider := requestProvider
      responseProvider := provider.write copy.memory.bytes content } }
    have hready : ∀ copy' ∈ copies, copy'.Ready context payload' := by
      intro copy' hcopy'
      have h' := h.2 copy' hcopy'
      refine ⟨?_, h'.known, hkeeps _ (fun heq => hinputs.1 ?_) _ _ h'.cursor, h'.blocks,
        h'.byteSize⟩
      · rw [← h'.requested, ← hmap]
        cases content with
        | none => rfl
        | some content => cases content <;> rfl
      · exact heq ▸ List.mem_map_of_mem hcopy'
    obtain ⟨requestProvider', provider', answered, hrest, hanswered, hreturned⟩ :=
      @ih payload' hreserves hinputs.2 hready hok
    refine ⟨requestProvider', provider', (copy.call context payload, evbuffer) :: answered, ?_, ?_,
      ?_⟩
    · rw [List.map_cons, Context.executeOutputs, if_neg (not_not.mpr hok), hexecute]
      exact hrest
    · rw [List.map_cons, List.map_cons, hanswered]
      rfl
    · exact (@returned_cons _ _ (copy.call context payload) _ _ hallocate answered).trans hreturned

end

end FinBert.Custom.Identity
