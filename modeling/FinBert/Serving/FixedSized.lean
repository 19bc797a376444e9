import FinBert.Serving.BaseBackend
import Mathlib.Algebra.BigOperators.Ring.List

/-!
# The places of the payloads in a fixed-size tensor

`SetFixedSizedInputTensor` (`base_backend.cc`) gives each payload of a batch a place in the input
tensor, behind those of the payloads before it, and `ReadFixedSizedOutputTensor` takes the output of
a payload from the same place. The check before a block is copied is on the end of the tensor, not
on that of the place: a payload with too many bytes writes into the places behind its own.

Results:
1. `copyInput_delivered`: what a payload copies, whatever is checked.
2. `setFixedSizedInputTensor_place`, `setFixedSizedInputTensor_outside`: what one turn of the loop
   writes, and that later turns do not write there.
3. `setFixedSizedInputTensor_roundTrips`: each payload gets its own bytes back.
-/

namespace FinBert.Serving

/-! ## `ReadFixedSizedOutputTensor` -/

/-- `expected_byte_size`: the number of the bytes of a payload. -/
def Payload.byteSize (batch1ByteSize : Nat) (payload : Payload) : Nat :=
  payload.requestProvider.requestHeader.batchSize * batch1ByteSize

/-- The body of the loop over the payloads, at `tensorCopyOffset`. Nothing is copied to a buffer
that has been allocated for bytes behind the end of the tensor. -/
def readFixedSizedPayload (outputName : String) (shape : List Int) (batch1ByteSize : Nat)
    (flat : Bytes) (tensorCopyOffset : Nat) (payload : Payload) : Payload :=
  match payload.responseProvider with
  | none => payload
  | some response =>
    if outputName ∈ response.output then
      let expectedByteSize := payload.byteSize batch1ByteSize
      let status := response.allocateOutputBuffer outputName expectedByteSize shape
      if !status.isOk then { payload with status := status }
      else if tensorCopyOffset + expectedByteSize > flat.length then
        { payload with
          status :=
            { code := .invalidArg,
              message := "unexpected size " ++ toString (tensorCopyOffset + expectedByteSize) ++
                " for inference output '" ++ outputName ++ "', expecting " ++
                toString flat.length } }
      else
        let content := (flat.drop tensorCopyOffset).take expectedByteSize
        { payload with
          responseProvider := some { response with
            outputBuffers := response.outputBuffers ++ [(outputName, content)] } }
    else payload

/-- `ReadFixedSizedOutputTensor`, from the payload on whose place begins at `tensorCopyOffset`. -/
def readFixedSizedOutputTensor (outputName : String) (shape : List Int) (batch1ByteSize : Nat)
    (flat : Bytes) : Nat → List Payload → List Payload
  | _, [] => []
  | tensorCopyOffset, payload :: payloads =>
    readFixedSizedPayload outputName shape batch1ByteSize flat tensorCopyOffset payload ::
      readFixedSizedOutputTensor outputName shape batch1ByteSize flat
        (tensorCopyOffset + payload.byteSize batch1ByteSize) payloads

/-! ## What a payload copies -/

section
variable {inputName : String} {expected : Nat} {check : Nat → Option Status} {payload : Payload}

theorem requestHeader_getNextInputContent (provider : InferRequestProvider) (name : String)
    (size : Nat) (forceContiguous : Bool) :
    (provider.getNextInputContent name size forceContiguous).2.requestHeader =
      provider.requestHeader := by
  unfold InferRequestProvider.getNextInputContent
  split
  · rfl
  · split
    · split <;> rfl
    · split
      · rfl
      · split
        · rfl
        · split <;> rfl

/-- The loop leaves everything of the payload but the status and what the provider has returned. -/
theorem copyContent_frame (calls : Nat) (payload : Payload) (copied : Bytes) :
    let result := (copyContent inputName expected check calls payload copied).1
    result.requestProvider.requestHeader = payload.requestProvider.requestHeader ∧
      result.responseProvider = payload.responseProvider := by
  induction calls generalizing payload copied with
  | zero => exact ⟨rfl, rfl⟩
  | succ calls ih =>
    rw [copyContent]
    split
    · have hheader := requestHeader_getNextInputContent payload.requestProvider inputName
        (uint64 ((expected : Int) - copied.length)) false
      split
      · next heq =>
        rw [heq] at hheader
        exact ⟨hheader, rfl⟩
      · next heq =>
        rw [heq] at hheader
        exact ⟨hheader, rfl⟩
      · next content provider heq =>
        rw [heq] at hheader
        split
        · exact ⟨hheader, rfl⟩
        · obtain ⟨hrest, hresponse⟩ := ih
            { payload with status := .ok, requestProvider := provider } (copied ++ content)
          exact ⟨hrest.trans hheader, hresponse⟩
    · exact ⟨rfl, rfl⟩

/-- The loop copies some of the first blocks, and has checked the size of what it copied. -/
theorem copyContent_initial {calls : Nat} (size : Nat) {copied : Bytes}
    (hcounts : payload.requestProvider.Counts inputName) :
    let result := copyContent inputName expected check calls payload copied
    (∃ bytes, result.2 = copied ++ bytes ∧ bytes <+: payload.delivered inputName size) ∧
      (result.2 = copied ∨ check result.2.length = none) := by
  have hnothing : (∃ bytes, copied = copied ++ bytes ∧
      bytes <+: payload.delivered inputName size) ∧
      (copied = copied ∨ check copied.length = none) :=
    ⟨⟨[], (List.append_nil _).symm, List.nil_prefix⟩, .inl rfl⟩
  induction calls generalizing payload copied with
  | zero => exact hnothing
  | succ calls ih =>
    rw [copyContent]
    split
    · split
      · exact hnothing
      · exact hnothing
      · next content provider hnext =>
        split
        · exact hnothing
        · next hcheck =>
          have hasked : uint64 ((expected : Int) - copied.length) ≠ 0 := fun hzero => by
            rw [hzero, InferRequestProvider.getNextInputContent, if_pos rfl] at hnext
            cases hnext
          have hblocks := getNextInputContent_blocks size hcounts hasked hnext
          have hcounts' := (blocksLeft_getNextInputContent hcounts hnext).2
          obtain ⟨⟨bytes, hbytes, hinitial⟩, hchecked⟩ := @ih
            { payload with status := .ok, requestProvider := provider } (copied ++ content) hcounts'
            ⟨⟨[], (List.append_nil _).symm, List.nil_prefix⟩, .inl rfl⟩
          refine ⟨⟨content ++ bytes, ?_, ?_⟩, .inr ?_⟩
          · rw [hbytes, List.append_assoc]
          · split at hblocks
            · exact absurd rfl (hblocks content)
            · next block blocks hsome =>
              cases hblocks.1
              rw [Payload.delivered, hsome, List.flatten_cons, List.prefix_append_right_inj,
                ← hblocks.2]
              exact hinitial
          · rcases hchecked with hsame | hnone
            · rw [hsame, List.length_append]
              exact hcheck
            · exact hnone
    · exact hnothing

/-- Without data, what is copied is the one block that is shown, or nothing. -/
theorem copyContent_initial_null {buf : Nat → Bytes} {calls : Nat}
    (hexpected : expected < 18446744073709551616)
    (hoverride : payload.requestProvider.overrides.lookup inputName = none)
    (hdata : payload.requestProvider.data = .null buf)
    (hlength : ∀ size, (buf size).length = size) :
    let result := copyContent inputName expected check (calls + 2) payload []
    result.2 <+: buf expected ∧ (result.2 = [] ∨ check result.2.length = none) := by
  have hfirst : uint64 ((expected : Int) - ([] : Bytes).length) = expected := by
    unfold uint64
    simp only [List.length_nil]
    omega
  have hsecond : uint64 ((expected : Int) - ([] ++ buf expected : Bytes).length) = 0 := by
    unfold uint64
    rw [List.nil_append, hlength]
    omega
  rw [copyContent]
  simp only [getNextInputContent_null hoverride hdata, hfirst]
  split
  · rcases eq_or_ne expected 0 with rfl | hsize
    · exact ⟨List.nil_prefix, .inl rfl⟩
    · rw [if_neg hsize]
      simp only
      split
      · exact ⟨List.nil_prefix, .inl rfl⟩
      · next hcheck =>
        rw [copyContent,
          if_pos (show ({ payload with status := .ok } : Payload).status.isOk from rfl)]
        simp only [getNextInputContent_null hoverride hdata, hsecond]
        refine ⟨List.prefix_rfl, .inr ?_⟩
        rwa [List.length_nil, Nat.zero_add] at hcheck
  · exact ⟨List.nil_prefix, .inl rfl⟩

/-- What a payload copies: some of the first bytes that it gets, and exactly as many as expected if
its status is OK. -/
theorem copyInput_delivered (inputName : String) (check : Nat → Option Status)
    (hexpected : expected < 18446744073709551616) (hlawful : payload.requestProvider.Lawful) :
    let result := copyInput inputName expected check payload
    result.2 <+: payload.delivered inputName expected ∧
      (result.2 = [] ∨ check result.2.length = none) ∧
      (result.1.status.isOk → result.2.length = expected) := by
  have hcopy : (copyContent inputName expected check
      (payload.requestProvider.blocksLeft inputName + 2) payload []).2 <+:
        payload.delivered inputName expected ∧
      ((copyContent inputName expected check
        (payload.requestProvider.blocksLeft inputName + 2) payload []).2 = [] ∨
        check (copyContent inputName expected check
          (payload.requestProvider.blocksLeft inputName + 2) payload []).2.length = none) := by
    by_cases hcounts : payload.requestProvider.Counts inputName
    · obtain ⟨⟨bytes, hbytes, hinitial⟩, hchecked⟩ := copyContent_initial expected hcounts
      exact ⟨hbytes.symm ▸ hinitial, hchecked⟩
    · unfold InferRequestProvider.Counts at hcounts
      rw [not_or, not_exists, not_exists] at hcounts
      have hoverride := Option.eq_none_iff_forall_ne_some.mpr hcounts.1
      cases hdata : payload.requestProvider.data with
      | inputBuffer buffers => exact absurd hdata (hcounts.2 buffers)
      | null buf =>
        have hdelivered : payload.delivered inputName expected = buf expected := by
          unfold Payload.delivered InferRequestProvider.blocks
          rw [hoverride, hdata]
          exact List.append_nil _
        rw [hdelivered]
        exact copyContent_initial_null hexpected hoverride hdata (hlawful buf hdata)
  unfold copyInput
  generalize copyContent inputName expected check
    (payload.requestProvider.blocksLeft inputName + 2) payload [] = result at hcopy
  obtain ⟨payload', copied⟩ := result
  simp only
  split
  · exact ⟨hcopy.1, hcopy.2, fun hok => by cases hok⟩
  · next hshort =>
    exact ⟨hcopy.1, hcopy.2, fun hok => by_contra fun hne => hshort ⟨hok, hne⟩⟩

theorem copyInput_frame (inputName : String) (expected : Nat) (check : Nat → Option Status)
    (payload : Payload) :
    let result := (copyInput inputName expected check payload).1
    result.requestProvider.requestHeader = payload.requestProvider.requestHeader ∧
      result.responseProvider = payload.responseProvider := by
  have hframe := @copyContent_frame inputName expected check
    (payload.requestProvider.blocksLeft inputName + 2) payload []
  unfold copyInput
  simp only
  split
  · exact hframe
  · exact hframe

end

/-! ## The places -/

section
variable {inputName : String} {batch1ByteSize : Nat}

/-- The number of the bytes of all payloads: the place of the next one begins there. -/
def byteSum (batch1ByteSize : Nat) (payloads : List Payload) : Nat :=
  (payloads.map (·.byteSize batch1ByteSize)).sum

/-- The check before a block is copied. -/
def endCheck (inputName : String) (tensorCopyOffset : Nat) (flat : Bytes) (size : Nat) :
    Option Status :=
  if tensorCopyOffset + size > flat.length then
    some { code := .invalidArg,
           message := "unexpected size " ++ toString (tensorCopyOffset + size) ++
             " for inference input '" ++ inputName ++ "', expecting " ++ toString flat.length }
  else none

/-- One turn of the loop. -/
def setFixedSizedPayload (inputName : String) (batch1ByteSize : Nat) (payload : Payload)
    (tensorCopyOffset : Nat) (flat : Bytes) : Payload × Bytes :=
  let (payload, copied) := copyInput inputName (payload.byteSize batch1ByteSize)
    (endCheck inputName tensorCopyOffset flat) payload
  (payload, overwrite flat tensorCopyOffset copied)

theorem setFixedSizedInputTensor_cons (payload : Payload) (payloads : List Payload)
    (offset : Nat) (flat : Bytes) :
    setFixedSizedInputTensor inputName batch1ByteSize (payload :: payloads) offset flat =
      let (payload', flat') := setFixedSizedPayload inputName batch1ByteSize payload offset flat
      let (payloads', flat'') := setFixedSizedInputTensor inputName batch1ByteSize payloads
        (offset + payload.byteSize batch1ByteSize) flat'
      (payload' :: payloads', flat'') := rfl

theorem byteSum_cons (payload : Payload) (payloads : List Payload) :
    byteSum batch1ByteSize (payload :: payloads) =
      payload.byteSize batch1ByteSize + byteSum batch1ByteSize payloads :=
  List.sum_cons

/-- The turns for more payloads follow those for the first ones. -/
theorem setFixedSizedInputTensor_append (pre post : List Payload) (offset : Nat) (flat : Bytes) :
    setFixedSizedInputTensor inputName batch1ByteSize (pre ++ post) offset flat =
      let (pre', flat') := setFixedSizedInputTensor inputName batch1ByteSize pre offset flat
      let (post', flat'') := setFixedSizedInputTensor inputName batch1ByteSize post
        (offset + byteSum batch1ByteSize pre) flat'
      (pre' ++ post', flat'') := by
  induction pre generalizing offset flat with
  | nil => rfl
  | cons payload pre ih =>
    rw [List.cons_append, setFixedSizedInputTensor_cons, setFixedSizedInputTensor_cons,
      byteSum_cons, ← Nat.add_assoc]
    simp only [ih, List.cons_append]

theorem length_setFixedSizedInputTensor (payloads : List Payload) (offset : Nat) (flat : Bytes) :
    (setFixedSizedInputTensor inputName batch1ByteSize payloads offset flat).2.length =
        flat.length ∧
      (setFixedSizedInputTensor inputName batch1ByteSize payloads offset flat).1.length =
        payloads.length := by
  induction payloads generalizing offset flat with
  | nil => exact ⟨rfl, rfl⟩
  | cons payload payloads ih =>
    obtain ⟨hflat, hlength⟩ := ih (offset + payload.byteSize batch1ByteSize)
      (setFixedSizedPayload inputName batch1ByteSize payload offset flat).2
    rw [setFixedSizedInputTensor_cons]
    exact ⟨hflat.trans (length_overwrite _ _ _), congrArg (· + 1) hlength⟩

/-- Nothing is written in front of the place of the first payload. -/
theorem getElem?_setFixedSizedInputTensor (payloads : List Payload) {offset k : Nat} (flat : Bytes)
    (hk : k < offset) :
    (setFixedSizedInputTensor inputName batch1ByteSize payloads offset flat).2[k]? = flat[k]? := by
  induction payloads generalizing offset flat with
  | nil => rfl
  | cons payload payloads ih =>
    rw [setFixedSizedInputTensor_cons]
    exact (ih _ (hk.trans_le (Nat.le_add_right _ _))).trans
      (getElem?_overwrite_of_outside (.inl hk))

/-- What one turn does for its payload and the place of the payload. -/
theorem setFixedSizedPayload_spec {payload : Payload} (flat : Bytes)
    (hsize : payload.byteSize batch1ByteSize < 18446744073709551616)
    (hlawful : payload.requestProvider.Lawful) (offset : Nat) :
    let result := setFixedSizedPayload inputName batch1ByteSize payload offset flat
    let size := payload.byteSize batch1ByteSize
    let delivered := payload.delivered inputName size
    (result.1.byteSize batch1ByteSize = size ∧
      result.1.responseProvider = payload.responseProvider) ∧
    (result.1.status.isOk → size ≤ delivered.length ∧
      (size ≠ 0 → offset + size ≤ flat.length) ∧
      (result.2.drop offset).take size = delivered.take size) ∧
    (delivered.length ≤ size → ∀ k, k < offset ∨ offset + size ≤ k →
      result.2[k]? = flat[k]?) := by
  have hframe := copyInput_frame inputName (payload.byteSize batch1ByteSize)
    (endCheck inputName offset flat) payload
  have hcopied := copyInput_delivered inputName (endCheck inputName offset flat) hsize hlawful
  unfold setFixedSizedPayload
  generalize copyInput inputName (payload.byteSize batch1ByteSize)
    (endCheck inputName offset flat) payload = result at hframe hcopied
  obtain ⟨payload', copied⟩ := result
  dsimp only at hcopied ⊢
  generalize payload.delivered inputName (payload.byteSize batch1ByteSize) = delivered at hcopied ⊢
  obtain ⟨hinitial, hchecked, hstatus⟩ := hcopied
  refine ⟨⟨congrArg (·.batchSize * batch1ByteSize) hframe.1, hframe.2⟩, fun hok => ?_, ?_⟩
  · have hlength : copied.length = payload.byteSize batch1ByteSize := hstatus hok
    have hplace : copied = [] ∨ offset + copied.length ≤ flat.length :=
      hchecked.imp_right fun hnone => by
        unfold endCheck at hnone
        split at hnone
        · cases hnone
        · next hfits => exact Nat.le_of_not_lt hfits
    rw [← hlength]
    refine ⟨hinitial.length_le, fun hne => ?_, ?_⟩
    · exact hplace.resolve_left fun hnil => hne (by rw [hnil]; rfl)
    · rw [← List.prefix_iff_eq_take.mp hinitial]
      rcases hplace with hnil | hfits
      · rw [hnil]
        rfl
      · exact take_drop_overwrite hfits
  · intro hle k hk
    exact getElem?_overwrite_of_outside
      (hk.imp_right fun hge => (Nat.add_le_add_left (hinitial.length_le.trans hle) _).trans hge)

/-- The states of the loop before and after the turn of a payload. -/
theorem setFixedSizedInputTensor_turn (pre : List Payload) (payload : Payload)
    (post : List Payload) (flat : Bytes) :
    let before := (setFixedSizedInputTensor inputName batch1ByteSize pre 0 flat).2
    let result := setFixedSizedPayload inputName batch1ByteSize payload
      (byteSum batch1ByteSize pre) before
    (setFixedSizedInputTensor inputName batch1ByteSize (pre ++ [payload]) 0 flat).2 = result.2 ∧
      (setFixedSizedInputTensor inputName batch1ByteSize (pre ++ payload :: post) 0
        flat).1[pre.length]? = some result.1 ∧
      ∀ k < byteSum batch1ByteSize pre + payload.byteSize batch1ByteSize,
        (setFixedSizedInputTensor inputName batch1ByteSize (pre ++ payload :: post) 0 flat).2[k]? =
          result.2[k]? := by
  have hpre := (@length_setFixedSizedInputTensor inputName batch1ByteSize pre 0 flat).2
  rw [setFixedSizedInputTensor_append, setFixedSizedInputTensor_append, Nat.zero_add]
  refine ⟨rfl, ?_, fun k hk => ?_⟩
  · show ((setFixedSizedInputTensor inputName batch1ByteSize pre 0 flat).1 ++ _)[pre.length]? = _
    rw [List.getElem?_append_right hpre.le, hpre, Nat.sub_self]
    rfl
  · exact getElem?_setFixedSizedInputTensor post _ hk

/-! ## The round trip -/

/-- The payloads keep their places. -/
theorem map_byteSize_setFixedSizedInputTensor (payloads : List Payload) (offset : Nat)
    (flat : Bytes) :
    (setFixedSizedInputTensor inputName batch1ByteSize payloads offset flat).1.map
      (·.byteSize batch1ByteSize) = payloads.map (·.byteSize batch1ByteSize) := by
  induction payloads generalizing offset flat with
  | nil => rfl
  | cons payload payloads ih =>
    rw [setFixedSizedInputTensor_cons]
    simp only [List.map_cons, ih, List.cons.injEq, and_true]
    exact congrArg (·.batchSize * batch1ByteSize) (copyInput_frame inputName _ _ payload).1

theorem readFixedSizedOutputTensor_getElem? {payloads : List Payload} {i : Nat} {payload : Payload}
    (hi : payloads[i]? = some payload) (outputName : String) (shape : List Int) (flat : Bytes)
    (offset : Nat) :
    (readFixedSizedOutputTensor outputName shape batch1ByteSize flat offset payloads)[i]? =
      some (readFixedSizedPayload outputName shape batch1ByteSize flat
        (offset + byteSum batch1ByteSize (payloads.take i)) payload) := by
  induction payloads generalizing i offset with
  | nil => cases hi
  | cons payload₀ payloads ih =>
    rw [readFixedSizedOutputTensor]
    cases i with
    | zero =>
      obtain rfl := Option.some.inj hi
      rfl
    | succ i =>
      rw [List.getElem?_cons_succ, ih hi, List.take_succ_cons, byteSum_cons, Nat.add_assoc]

/-- A payload that receives the output gets the bytes at its place. -/
theorem readFixedSizedPayload_receives {outputName : String} {shape : List Int}
    {payload : Payload} {response : InferResponseProvider} {flat : Bytes} {offset : Nat}
    (hreceives : payload.Receives outputName shape (payload.byteSize batch1ByteSize) response)
    (hfits : offset + payload.byteSize batch1ByteSize ≤ flat.length) :
    readFixedSizedPayload outputName shape batch1ByteSize flat offset payload =
      { payload with
        responseProvider := some { response with
          outputBuffers := response.outputBuffers ++
            [(outputName, (flat.drop offset).take (payload.byteSize batch1ByteSize))] } } := by
  obtain ⟨hresponse, houtput, hallocated⟩ := hreceives
  unfold readFixedSizedPayload
  simp only [hresponse, if_pos houtput, hallocated, Bool.not_true, Bool.false_eq_true, if_false,
    if_neg (Nat.not_lt.mpr hfits)]

/-- What holds for a payload behind the payloads `pre`, when the tensor has been set from all
payloads and is read back. -/
structure PlaceRoundTrips (inputName : String) (batch1ByteSize : Nat) (pre : List Payload)
    (payload : Payload) (post : List Payload) (flat : Bytes) : Prop where
  /-- it keeps its index, its size and its response -/
  kept : ∃ payload', (setFixedSizedInputTensor inputName batch1ByteSize (pre ++ payload :: post) 0
      flat).1[pre.length]? = some payload' ∧
    payload'.byteSize batch1ByteSize = payload.byteSize batch1ByteSize ∧
    payload'.responseProvider = payload.responseProvider
  /-- with an OK status, its place holds its bytes -/
  place : ∀ payload', (setFixedSizedInputTensor inputName batch1ByteSize (pre ++ payload :: post) 0
      flat).1[pre.length]? = some payload' → payload'.status.isOk →
    payload.byteSize batch1ByteSize ≤
        (payload.delivered inputName (payload.byteSize batch1ByteSize)).length ∧
      ((setFixedSizedInputTensor inputName batch1ByteSize (pre ++ payload :: post) 0
        flat).2.drop (byteSum batch1ByteSize pre)).take (payload.byteSize batch1ByteSize) =
        (payload.delivered inputName (payload.byteSize batch1ByteSize)).take
          (payload.byteSize batch1ByteSize)
  /-- without too many bytes, its turn writes nothing outside of its place -/
  outside : (payload.delivered inputName (payload.byteSize batch1ByteSize)).length ≤
      payload.byteSize batch1ByteSize →
    ∀ k, k < byteSum batch1ByteSize pre ∨
        byteSum batch1ByteSize pre + payload.byteSize batch1ByteSize ≤ k →
      (setFixedSizedInputTensor inputName batch1ByteSize (pre ++ [payload]) 0 flat).2[k]? =
        (setFixedSizedInputTensor inputName batch1ByteSize pre 0 flat).2[k]?
  /-- with an OK status, it receives its bytes; also an empty place begins inside of the tensor -/
  readBack : byteSum batch1ByteSize pre ≤ flat.length →
    ∀ payload', (setFixedSizedInputTensor inputName batch1ByteSize (pre ++ payload :: post) 0
        flat).1[pre.length]? = some payload' → payload'.status.isOk →
    ∀ outputName shape response,
      payload.Receives outputName shape (payload.byteSize batch1ByteSize) response →
      (readFixedSizedOutputTensor outputName shape batch1ByteSize
        (setFixedSizedInputTensor inputName batch1ByteSize (pre ++ payload :: post) 0 flat).2 0
        (setFixedSizedInputTensor inputName batch1ByteSize (pre ++ payload :: post) 0
          flat).1)[pre.length]? = some { payload' with
            responseProvider := some { response with
              outputBuffers := response.outputBuffers ++
                [(outputName, (payload.delivered inputName (payload.byteSize batch1ByteSize)).take
                  (payload.byteSize batch1ByteSize))] } }

/-- Each payload has its own bytes at its place of the tensor, and gets them back. -/
theorem setFixedSizedInputTensor_roundTrips (inputName : String) {batch1ByteSize : Nat}
    {pre post : List Payload} {payload : Payload} {flat : Bytes}
    (hlawful : payload.requestProvider.Lawful)
    (hsize : payload.byteSize batch1ByteSize < 18446744073709551616) :
    PlaceRoundTrips inputName batch1ByteSize pre payload post flat := by
  obtain ⟨hturn, hat, hlater⟩ :=
    @setFixedSizedInputTensor_turn inputName batch1ByteSize pre payload post flat
  obtain ⟨hframe, hplace, houtside⟩ := @setFixedSizedPayload_spec inputName batch1ByteSize
    payload (setFixedSizedInputTensor inputName batch1ByteSize pre 0 flat).2 hsize hlawful
    (byteSum batch1ByteSize pre)
  -- what the turn has left at the place is there in the end
  have hregion : ∀ payload', (setFixedSizedInputTensor inputName batch1ByteSize
      (pre ++ payload :: post) 0 flat).1[pre.length]? = some payload' → payload'.status.isOk →
      payload.byteSize batch1ByteSize ≤
          (payload.delivered inputName (payload.byteSize batch1ByteSize)).length ∧
        ((setFixedSizedInputTensor inputName batch1ByteSize (pre ++ payload :: post) 0
          flat).2.drop (byteSum batch1ByteSize pre)).take (payload.byteSize batch1ByteSize) =
          (payload.delivered inputName (payload.byteSize batch1ByteSize)).take
            (payload.byteSize batch1ByteSize) := by
    intro payload' hpayload' hok
    obtain rfl := Option.some.inj (hat.symm.trans hpayload')
    obtain ⟨henough, -, hbytes⟩ := hplace hok
    refine ⟨henough, Eq.trans (List.ext_getElem? fun k => ?_) hbytes⟩
    rcases Nat.lt_or_ge k (payload.byteSize batch1ByteSize) with hk | hk
    · rw [List.getElem?_take_of_lt hk, List.getElem?_take_of_lt hk, List.getElem?_drop,
        List.getElem?_drop]
      exact hlater _ (Nat.add_lt_add_left hk _)
    · rw [List.getElem?_take_eq_none hk, List.getElem?_take_eq_none hk]
  refine ⟨⟨_, hat, hframe⟩, hregion, fun hle k hk => ?_,
    fun hbegin payload' hpayload' hok outputName shape response hreceives => ?_⟩
  · rw [hturn]
    exact houtside hle k hk
  · have heq := Option.some.inj (hat.symm.trans hpayload')
    rw [heq] at hframe hplace
    have hbefore : byteSum batch1ByteSize ((setFixedSizedInputTensor inputName batch1ByteSize
        (pre ++ payload :: post) 0 flat).1.take pre.length) = byteSum batch1ByteSize pre := by
      unfold byteSum
      rw [List.map_take, map_byteSize_setFixedSizedInputTensor, ← List.map_take,
        List.take_left]
    have hfits : byteSum batch1ByteSize pre + payload.byteSize batch1ByteSize ≤ flat.length := by
      rcases eq_or_ne (payload.byteSize batch1ByteSize) 0 with hzero | hne
      · rw [hzero]
        exact hbegin
      · rw [← (length_setFixedSizedInputTensor pre 0 flat).1]
        exact (hplace hok).2.1 hne
    have hreceives' : payload'.Receives outputName shape (payload'.byteSize batch1ByteSize)
        response := by
      rw [hframe.1]
      exact ⟨hframe.2.trans hreceives.1, hreceives.2⟩
    rw [readFixedSizedOutputTensor_getElem? hpayload', Nat.zero_add, hbefore,
      readFixedSizedPayload_receives hreceives', hframe.1,
      (hregion _ hpayload' hok).2]
    rw [hframe.1, (length_setFixedSizedInputTensor _ _ _).1]
    exact hfits

/-- A payload of batch size one with these blocks for the input. -/
def blocksPayload (blocks : List Bytes) : Payload where
  requestProvider :=
    { requestHeader := { batchSize := 1, input := [{ name := "a", batchByteSize := 2 }] }
      data := .inputBuffer (AList.singleton "a" ({ blocks := blocks }, 0)) }

/-- The payload in front of it fails, with a block that is too long, and writes into its place. -/
theorem setFixedSizedInputTensor_roundTrips_overrun :
    PlaceRoundTrips "a" 2 [blocksPayload [[7, 7, 7]]] (blocksPayload [[1], [2]])
      [blocksPayload []] [0, 0, 0, 0, 0, 0] :=
  setFixedSizedInputTensor_roundTrips "a" (fun _ hdata => by cases hdata) (by decide)

example : (setFixedSizedInputTensor "a" 2 [blocksPayload [[7, 7, 7]], blocksPayload [[1], [2]],
    blocksPayload []] 0 [0, 0, 0, 0, 0, 0]).2 = [7, 7, 1, 2, 0, 0] := by
  decide

/-- The places of the payloads fill the tensor that `SetInput` makes: for a model that does not
support batching, `Run` only goes on with one payload of batch size one. -/
theorem byteSum_setInput {maxBatchSize : Nat} (input : InputTensor) {payloads : List Payload}
    (htotal : maxBatchSize ≠ 0 ∨ totalBatchSize payloads = 1) :
    byteSum (input.batch1ElementCnt * getDataTypeByteSize input.dataType) payloads =
      (if maxBatchSize ≠ 0 then totalBatchSize payloads * input.batch1ElementCnt
        else input.batch1ElementCnt) * getDataTypeByteSize input.dataType := by
  have hsum : byteSum (input.batch1ElementCnt * getDataTypeByteSize input.dataType) payloads =
      totalBatchSize payloads * (input.batch1ElementCnt * getDataTypeByteSize input.dataType) :=
    List.sum_map_mul_right ..
  rw [hsum, ← Nat.mul_assoc]
  split
  · rfl
  · next hzero => rw [htotal.resolve_left hzero, Nat.one_mul]

end

end FinBert.Serving
