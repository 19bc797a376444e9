import FinBert.Client.Input
import Mathlib.Algebra.BigOperators.Group.List.Basic
import Mathlib.Algebra.Ring.Nat

/-!
# String tensors

The client writes the strings of an input into a buffer (`InputImpl::SetFromString`,
`request_common.cc`). The TensorFlow backend takes the content of each payload of a batch
from its request provider (`provider.cc`), reads the strings back into the tensor of the
batch (`SetStringInputTensor`, `base_backend.cc`) and writes the strings of an output tensor
for each payload (`ReadStringOutputTensor`). Sizes of objects in memory do not wrap around.

Results:
1. `bytes_of_writtenFor`: client and server write strings in the same way.
2. `setPayload_delivers`: what a payload with such a content does to the tensor.
3. `roundTrips_iff`: when the strings of a payload come back from its range of the tensor.
-/

namespace FinBert.Serving

open Client (InputImpl)
open LengthPrefixed

/-! ## `InferRequestProvider` -/

/-- Where the data of a request comes from: `input_buffer_`, with the block of each input that
comes next, or the bytes that `NULLInferRequestProvider` shows for a size, which are zeros. -/
inductive ProviderData
  | inputBuffer (buffers : UnorderedMap String (SystemMemory × Nat))
  | null (buf : Nat → Bytes)

/-- `InferRequestProvider`, or its subclass `NULLInferRequestProvider`. -/
structure InferRequestProvider where
  requestHeader : InferRequestHeader
  data : ProviderData
  overrides : UnorderedMap String Bytes := ∅
  overridesConsumed : List String := []

namespace InferRequestProvider

/-- `GetNextInputContent`. A content that is `none` is a null pointer. -/
def getNextInputContent (provider : InferRequestProvider) (name : String) (contentByteSize : Nat)
    (forceContiguous : Bool) : Except Status (Option Bytes) × InferRequestProvider :=
  if contentByteSize = 0 then (.ok none, provider)
  else
    match provider.overrides.lookup name with
    | some content =>
      if name ∈ provider.overridesConsumed then (.ok none, provider)
      else
        (.ok (some content),
          { provider with overridesConsumed := name :: provider.overridesConsumed })
    | none =>
      match provider.data with
      | .null buf => (.ok (some (buf contentByteSize)), provider)
      | .inputBuffer buffers =>
        match buffers.lookup name with
        | none =>
          (.error { code := .internal, message := "unexpected input '" ++ name ++ "'" }, provider)
        | some (memory, idx) =>
          if !forceContiguous ∨ memory.bufferAt (idx + 1) = none then
            (.ok (memory.bufferAt idx),
              { provider with data := .inputBuffer (buffers.insert name (memory, idx + 1)) })
          else
            -- all blocks that are left, in one piece
            (.ok (some (memory.blocks.drop idx).flatten),
              { provider with
                data := .inputBuffer (buffers.insert name (memory, memory.blocks.length + 1)) })

/-- The provider knows the input. -/
def HasInput (provider : InferRequestProvider) (name : String) : Prop :=
  name ∈ provider.overrides ∨
    match provider.data with
    | .null _ => True
    | .inputBuffer buffers => name ∈ buffers

end InferRequestProvider

/-! ## Payloads -/

/-- `InferResponseProvider`: the outputs of `output_map_`, what `AllocateOutputBuffer` answers,
and the output buffers with the bytes copied to them. -/
structure InferResponseProvider where
  output : List String
  allocateOutputBuffer : String → Nat → List Int → Status
  outputBuffers : List (String × Bytes) := []

/-- `Scheduler::Payload`. -/
structure Payload where
  status : Status := .ok
  requestProvider : InferRequestProvider
  responseProvider : Option InferResponseProvider := none

/-- `expected_element_cnt`: the number of the elements of a payload. -/
def Payload.elementCnt (batch1ElementCnt : Nat) (payload : Payload) : Nat :=
  payload.requestProvider.requestHeader.batchSize * batch1ElementCnt

/-! ## `SetStringInputTensor` -/

/-- `FillStringTensor`. -/
def fillStringTensor (tensor : List Bytes) (idx cnt : Nat) : List Bytes :=
  (List.range cnt).foldl (fun tensor c => tensor.set (idx + c) []) tensor

/-- The loop over the content, which still expects `remaining` elements from `elementIdx` on,
with the number of the elements that were read. -/
def parseStrings (inputName : String) (idx expected : Nat) :
    Nat → Nat → Bytes → List Bytes → Status × List Bytes × Nat
  | 0, elementIdx, content, tensor =>
    if content.length ≥ 4 then
      ({ code := .invalidArg,
         message := "unexpected number of string elements " ++ toString (elementIdx + 1) ++
           " for inference input '" ++ inputName ++ "', expecting " ++ toString expected },
        tensor, elementIdx)
    else (.ok, tensor, elementIdx)
  | remaining + 1, elementIdx, b₀ :: b₁ :: b₂ :: b₃ :: content, tensor =>
    let len := ofBytes b₀ b₁ b₂ b₃
    if content.length < len then
      ({ code := .invalidArg,
         message := "incomplete string data for inference input '" ++ inputName ++
           "', expecting string of length " ++ toString len ++ " but only " ++
           toString content.length ++ " bytes available" },
        fillStringTensor tensor (idx + elementIdx) (expected - elementIdx), elementIdx)
    else
      parseStrings inputName idx expected remaining (elementIdx + 1) (content.drop len)
        (tensor.set (idx + elementIdx) (content.take len))
  | _ + 1, elementIdx, _, tensor => (.ok, tensor, elementIdx)

/-- The part of the loop over the payloads that reads the content. -/
def readContent (inputName : String) (idx expected : Nat) (content : Bytes) (tensor : List Bytes) :
    Status × List Bytes :=
  let (status, tensor, elementIdx) :=
    parseStrings inputName idx expected expected 0 content tensor
  if status.isOk ∧ elementIdx ≠ expected then
    ({ code := .internal,
       message := "expected " ++ toString expected ++ " strings for inference input '" ++
         inputName ++ "', got " ++ toString elementIdx },
      fillStringTensor tensor (idx + elementIdx) (expected - elementIdx))
  else (status, tensor)

/-- The body of the loop over the payloads, with the index at which the next payload starts. -/
def setPayload (inputName : String) (batch1ElementCnt : Nat) (payload : Payload) (idx : Nat)
    (tensor : List Bytes) : Payload × Nat × List Bytes :=
  let expected := payload.elementCnt batch1ElementCnt
  match payload.requestProvider.getNextInputContent inputName (expected * 4) true with
  | (.error status, provider) =>
    -- `continue`: the index stays
    ({ payload with status := status, requestProvider := provider }, idx,
      fillStringTensor tensor idx expected)
  | (.ok content, provider) =>
    let (status, tensor) := readContent inputName idx expected (content.getD []) tensor
    ({ payload with status := status, requestProvider := provider }, idx + expected, tensor)

/-- The loop over the payloads. -/
def setPayloads (inputName : String) (batch1ElementCnt : Nat) :
    List Payload → Nat → List Bytes → List Payload × Nat × List Bytes
  | [], idx, tensor => ([], idx, tensor)
  | payload :: payloads, idx, tensor =>
    let (payload, idx, tensor) := setPayload inputName batch1ElementCnt payload idx tensor
    let (payloads, idx, tensor) := setPayloads inputName batch1ElementCnt payloads idx tensor
    (payload :: payloads, idx, tensor)

/-- `SetStringInputTensor`. -/
def setStringInputTensor (inputName : String) (batch1ElementCnt : Nat) (payloads : List Payload)
    (tensor : List Bytes) : List Payload × List Bytes :=
  let (payloads, _, tensor) := setPayloads inputName batch1ElementCnt payloads 0 tensor
  (payloads, tensor)

/-! ## `ReadStringOutputTensor` -/

/-- The strings of a range of the tensor. -/
def serialize (tensor : List Bytes) (idx cnt : Nat) : Bytes :=
  (List.range cnt).foldl (fun serialized e =>
    let str := tensor.getD (idx + e) []
    serialized ++ word str.length ++ str) []

/-- The body of the loop over the payloads. -/
def readPayload (outputName : String) (shape : List Int) (batch1ElementCnt : Nat)
    (tensor : List Bytes) (idx : Nat) (payload : Payload) : Payload :=
  match payload.responseProvider with
  | none => payload
  | some response =>
    if outputName ∈ response.output then
      let serialized := serialize tensor idx (payload.elementCnt batch1ElementCnt)
      let status := response.allocateOutputBuffer outputName serialized.length shape
      if status.isOk then
        { payload with
          responseProvider := some { response with
            outputBuffers := response.outputBuffers ++ [(outputName, serialized)] } }
      else { payload with status := status }
    else payload

/-- `ReadStringOutputTensor`, from the payload that starts at `idx` on. -/
def readStringOutputTensor (outputName : String) (shape : List Int) (batch1ElementCnt : Nat)
    (tensor : List Bytes) : Nat → List Payload → List Payload
  | _, [] => []
  | idx, payload :: payloads =>
    readPayload outputName shape batch1ElementCnt tensor idx payload ::
      readStringOutputTensor outputName shape batch1ElementCnt tensor
        (idx + payload.elementCnt batch1ElementCnt) payloads

/-! ## What is written into the tensor -/

/-- Two tensors of one size that have the same strings at the indexes of `P`. -/
structure SameAt (P : Nat → Prop) (tensor tensor' : List Bytes) : Prop where
  length : tensor'.length = tensor.length
  same : ∀ i, P i → tensor'[i]? = tensor[i]?

/-- The indexes outside of `[lo, hi)`. -/
def Outside (lo hi : Nat) (i : Nat) : Prop := i < lo ∨ hi ≤ i

section
variable {P Q : Nat → Prop} {tensor tensor' tensor'' : List Bytes}

theorem SameAt.refl (P : Nat → Prop) (tensor : List Bytes) : SameAt P tensor tensor :=
  ⟨rfl, fun _ _ => rfl⟩

theorem SameAt.trans (h : SameAt P tensor tensor') (h' : SameAt P tensor' tensor'') :
    SameAt P tensor tensor'' :=
  ⟨h'.length.trans h.length, fun i hi => (h'.same i hi).trans (h.same i hi)⟩

theorem SameAt.symm (h : SameAt P tensor tensor') : SameAt P tensor' tensor :=
  ⟨h.length.symm, fun i hi => (h.same i hi).symm⟩

theorem SameAt.mono (h : SameAt P tensor tensor') (hPQ : ∀ i, Q i → P i) :
    SameAt Q tensor tensor' :=
  ⟨h.length, fun i hi => h.same i (hPQ i hi)⟩

theorem sameAt_set {idx : Nat} (hidx : ¬ P idx) (str : Bytes) (tensor : List Bytes) :
    SameAt P tensor (tensor.set idx str) :=
  ⟨List.length_set, fun i hi => List.getElem?_set_ne (by rintro rfl; exact hidx hi)⟩

/-- Writing a string at an index keeps tensors the same. -/
theorem SameAt.set (h : SameAt P tensor tensor') (idx : Nat) (str : Bytes) :
    SameAt P (tensor.set idx str) (tensor'.set idx str) := by
  refine ⟨by rw [List.length_set, List.length_set, h.length], fun i hi => ?_⟩
  rw [List.getElem?_set, List.getElem?_set, h.length, h.same i hi]

theorem fillStringTensor_sameAt (tensor : List Bytes) (idx cnt : Nat) :
    SameAt (Outside idx (idx + cnt)) tensor (fillStringTensor tensor idx cnt) := by
  unfold fillStringTensor
  induction cnt with
  | zero => exact .refl _ tensor
  | succ cnt ih =>
    rw [List.range_succ, List.foldl_append]
    refine .trans (ih.mono fun i hi => ?_) (sameAt_set ?_ [] _)
    · unfold Outside at hi ⊢
      omega
    · unfold Outside
      omega

theorem SameAt.fillStringTensor (h : SameAt P tensor tensor') (idx cnt : Nat) :
    SameAt P (fillStringTensor tensor idx cnt) (fillStringTensor tensor' idx cnt) := by
  unfold Serving.fillStringTensor
  induction cnt with
  | zero => exact h
  | succ cnt ih =>
    rw [List.range_succ, List.foldl_append, List.foldl_append]
    exact ih.set (idx + cnt) []

end

section
variable {inputName : String} {batch1ElementCnt idx expected : Nat} {tensor tensor' : List Bytes}

/-- The loop over a content reads at most the elements that are expected, and only writes at
their indexes. -/
theorem parseStrings_sameAt {remaining elementIdx elementIdx' : Nat} {content : Bytes}
    {status : Status} (hsum : elementIdx + remaining = expected)
    (h : parseStrings inputName idx expected remaining elementIdx content tensor =
      (status, tensor', elementIdx')) :
    elementIdx' ≤ expected ∧ SameAt (Outside idx (idx + expected)) tensor tensor' := by
  induction remaining generalizing elementIdx content tensor with
  | zero =>
    unfold parseStrings at h
    split at h
    · cases h
      exact ⟨hsum.le, .refl _ _⟩
    · cases h
      exact ⟨hsum.le, .refl _ _⟩
  | succ remaining ih =>
    unfold parseStrings at h
    split at h
    · next hzero => cases hzero
    · next heq =>
      cases heq
      simp only at h
      split at h
      · cases h
        refine ⟨by omega, (fillStringTensor_sameAt _ _ _).mono fun i hi => ?_⟩
        unfold Outside at hi ⊢
        omega
      · obtain ⟨hle, hsame⟩ := ih (by omega) h
        refine ⟨hle, .trans (sameAt_set ?_ _ _) hsame⟩
        unfold Outside
        omega
    · cases h
      exact ⟨by omega, .refl _ _⟩

/-- The loop over a content writes the same strings into every tensor. -/
theorem parseStrings_congr {P : Nat → Prop} (inputName : String)
    (idx expected remaining elementIdx : Nat) (content : Bytes) (h : SameAt P tensor tensor') :
    (parseStrings inputName idx expected remaining elementIdx content tensor').1 =
        (parseStrings inputName idx expected remaining elementIdx content tensor).1 ∧
      (parseStrings inputName idx expected remaining elementIdx content tensor').2.2 =
        (parseStrings inputName idx expected remaining elementIdx content tensor).2.2 ∧
      SameAt P (parseStrings inputName idx expected remaining elementIdx content tensor).2.1
        (parseStrings inputName idx expected remaining elementIdx content tensor').2.1 := by
  induction remaining generalizing elementIdx content tensor tensor' with
  | zero =>
    simp only [parseStrings]
    split
    · exact ⟨rfl, rfl, h⟩
    · exact ⟨rfl, rfl, h⟩
  | succ remaining ih =>
    match content with
    | b₀ :: b₁ :: b₂ :: b₃ :: content =>
      simp only [parseStrings]
      split
      · exact ⟨rfl, rfl, h.fillStringTensor _ _⟩
      · exact ih _ _ (h.set _ _)
    | [] | [_] | [_, _] | [_, _, _] => exact ⟨rfl, rfl, h⟩

/-- The content of a list of strings is read back. -/
theorem parseStrings_encodeAll (inputName : String) {strings : List Bytes} {elementIdx : Nat}
    (hstrings : ∀ str ∈ strings, str.length < 4294967296)
    (hsum : elementIdx + strings.length = expected) (htensor : idx + expected ≤ tensor.length) :
    ∃ tensor', parseStrings inputName idx expected strings.length elementIdx (encodeAll strings)
        tensor = (.ok, tensor', expected) ∧
      (∀ i < strings.length, tensor'[idx + elementIdx + i]? = strings[i]?) ∧
      SameAt (Outside (idx + elementIdx) (idx + expected)) tensor tensor' := by
  induction strings generalizing elementIdx tensor with
  | nil =>
    refine ⟨tensor, ?_, fun i hi => absurd hi (Nat.not_lt_zero i), .refl _ tensor⟩
    rw [List.length_nil, encodeAll_nil, parseStrings, if_neg (by decide), ← hsum]
    rfl
  | cons str strings ih =>
    rw [List.forall_mem_cons] at hstrings
    rw [List.length_cons] at hsum
    have hset : idx + expected ≤ (tensor.set (idx + elementIdx) str).length := by
      rw [List.length_set]
      exact htensor
    obtain ⟨tensor', hparse, hread, hsame⟩ :=
      ih hstrings.2 (show elementIdx + 1 + strings.length = expected by omega) hset
    refine ⟨tensor', ?_, ?_, ?_⟩
    · rw [List.length_cons, encodeAll_cons, word]
      simp only [List.cons_append, List.nil_append, parseStrings]
      rw [ofBytes_word hstrings.1, if_neg (by rw [List.length_append]; omega),
        List.drop_left, List.take_left]
      exact hparse
    · intro i hi
      cases i with
      | zero =>
        rw [hsame.same _ (.inl (by omega)), Nat.add_zero, List.getElem?_set_self (by omega)]
        rfl
      | succ i =>
        rw [List.getElem?_cons_succ, ← hread i (by rw [List.length_cons] at hi; omega)]
        congr 1
        omega
    · refine .trans (sameAt_set ?_ _ tensor) (hsame.mono fun i hi => ?_)
      · unfold Outside
        omega
      · unfold Outside at hi ⊢
        omega

theorem readContent_sameAt {content : Bytes} {status : Status}
    (h : readContent inputName idx expected content tensor = (status, tensor')) :
    SameAt (Outside idx (idx + expected)) tensor tensor' := by
  unfold readContent at h
  generalize hparse : parseStrings inputName idx expected expected 0 content tensor = result at h
  obtain ⟨status, tensor'', elementIdx⟩ := result
  obtain ⟨hle, hsame⟩ := parseStrings_sameAt (Nat.zero_add expected) hparse
  simp only at h
  split at h
  · cases h
    refine hsame.trans ((fillStringTensor_sameAt _ _ _).mono fun i hi => ?_)
    unfold Outside at hi ⊢
    omega
  · cases h
    exact hsame

theorem readContent_congr {P : Nat → Prop} (inputName : String) (idx expected : Nat)
    (content : Bytes) (h : SameAt P tensor tensor') :
    (readContent inputName idx expected content tensor').1 =
        (readContent inputName idx expected content tensor).1 ∧
      SameAt P (readContent inputName idx expected content tensor).2
        (readContent inputName idx expected content tensor').2 := by
  obtain ⟨hstatus, hcount, hsame⟩ :=
    parseStrings_congr inputName idx expected expected 0 content h
  unfold readContent
  simp only [hstatus, hcount]
  split
  · exact ⟨rfl, hsame.fillStringTensor _ _⟩
  · exact ⟨rfl, hsame⟩

theorem readContent_encodeAll (inputName : String) {strings : List Bytes}
    (hstrings : ∀ str ∈ strings, str.length < 4294967296) (hcount : strings.length = expected)
    (htensor : idx + expected ≤ tensor.length) :
    ∃ tensor', readContent inputName idx expected (encodeAll strings) tensor = (.ok, tensor') ∧
      ∀ i < expected, tensor'[idx + i]? = strings[i]? := by
  obtain ⟨tensor', hparse, hread, -⟩ :=
    parseStrings_encodeAll inputName hstrings ((Nat.zero_add _).trans hcount) htensor
  refine ⟨tensor', ?_, fun i hi => hread i (hcount ▸ hi)⟩
  unfold readContent
  rw [hcount] at hparse
  rw [hparse]
  exact if_neg fun h => h.2 rfl

end

/-! ## The content of a payload -/

section
variable {provider provider' : InferRequestProvider} {inputName : String} {contentByteSize : Nat}

/-- Without the input there is an error, unless no bytes are asked for. -/
theorem getNextInputContent_error (hsize : contentByteSize ≠ 0)
    (hinput : ¬ provider.HasInput inputName) : ∃ status,
      provider.getNextInputContent inputName contentByteSize true = (.error status, provider) := by
  unfold InferRequestProvider.HasInput at hinput
  rw [not_or] at hinput
  obtain ⟨hoverride, hdata⟩ := hinput
  unfold InferRequestProvider.getNextInputContent
  rw [if_neg hsize, AList.lookup_eq_none.mpr hoverride]
  split at hdata
  · exact absurd trivial hdata
  · next buffers hbuffers =>
    simp only
    rw [AList.lookup_eq_none.mpr hdata]
    exact ⟨_, rfl⟩

/-- With the input there is no error. -/
theorem getNextInputContent_ok (h : contentByteSize = 0 ∨ provider.HasInput inputName) :
    ∃ content provider',
      provider.getNextInputContent inputName contentByteSize true = (.ok content, provider') := by
  unfold InferRequestProvider.getNextInputContent
  split
  · exact ⟨_, _, rfl⟩
  · next hsize =>
    split
    · split
      · exact ⟨_, _, rfl⟩
      · exact ⟨_, _, rfl⟩
    · next hoverride =>
      split
      · exact ⟨_, _, rfl⟩
      · next buffers hbuffers =>
        split
        · next hnone =>
          rcases h.resolve_left hsize with hmem | hmem
          · exact absurd hmem (AList.lookup_eq_none.mp hoverride)
          · rw [hbuffers] at hmem
            exact absurd hmem (AList.lookup_eq_none.mp hnone)
        · split
          · exact ⟨_, _, rfl⟩
          · exact ⟨_, _, rfl⟩

/-- The payload gets its content for the input from its request: nothing of it has been read. -/
def Payload.Delivers (payload : Payload) (inputName : String) (content : Bytes) : Prop :=
  payload.requestProvider.overrides.lookup inputName = none ∧
    ∃ buffers memory, payload.requestProvider.data = .inputBuffer buffers ∧
      buffers.lookup inputName = some (memory, 0) ∧ memory.bytes = content

/-- All blocks of the content are returned in one piece. -/
theorem getNextInputContent_delivers {payload : Payload} {content : Bytes}
    (h : payload.Delivers inputName content) (hsize : contentByteSize ≠ 0) :
    ∃ content' provider', payload.requestProvider.getNextInputContent inputName contentByteSize
      true = (.ok content', provider') ∧ content'.getD [] = content := by
  obtain ⟨hoverride, buffers, memory, hdata, hlookup, rfl⟩ := h
  unfold InferRequestProvider.getNextInputContent
  rw [if_neg hsize, hoverride, hdata]
  simp only
  rw [hlookup]
  simp only
  rw [SystemMemory.bytes_eq]
  split
  · next hlast =>
    refine ⟨_, _, rfl, ?_⟩
    obtain ⟨blocks⟩ := memory
    match blocks with
    | [] => rfl
    | [block] => exact (List.append_nil block).symm
    | _ :: _ :: _ => simp [SystemMemory.bufferAt] at hlast
  · exact ⟨_, _, rfl, rfl⟩

end

/-! ## A payload of the batch -/

section
variable {inputName : String} {batch1ElementCnt idx : Nat} {payload : Payload}
  {pre post : List Payload} {tensor tensor' : List Bytes}

/-- The request of the payload supplies the input, or the payload has no elements. -/
def Payload.Supplies (inputName : String) (batch1ElementCnt : Nat) (payload : Payload) : Prop :=
  payload.elementCnt batch1ElementCnt = 0 ∨ payload.requestProvider.HasInput inputName

theorem byteSize_eq_zero_iff (payload : Payload) (batch1ElementCnt : Nat) :
    payload.elementCnt batch1ElementCnt * 4 = 0 ↔ payload.elementCnt batch1ElementCnt = 0 := by
  omega

/-- A payload that supplies the input moves the index on behind its range. -/
theorem setPayload_idx (h : payload.Supplies inputName batch1ElementCnt) (tensor : List Bytes) :
    (setPayload inputName batch1ElementCnt payload idx tensor).2.1 =
      idx + payload.elementCnt batch1ElementCnt := by
  obtain ⟨content, provider', hcontent⟩ := getNextInputContent_ok
    (h.imp_left (byteSize_eq_zero_iff payload batch1ElementCnt).mpr)
  unfold setPayload
  simp only [hcontent]

/-- A payload that does not leaves the index where it is. -/
theorem setPayload_idx_of_not (h : ¬ payload.Supplies inputName batch1ElementCnt)
    (tensor : List Bytes) :
    (setPayload inputName batch1ElementCnt payload idx tensor).2.1 = idx := by
  unfold Payload.Supplies at h
  rw [not_or, ← byteSize_eq_zero_iff] at h
  obtain ⟨status, hcontent⟩ := getNextInputContent_error h.1 h.2
  unfold setPayload
  simp only [hcontent]

theorem setPayload_sameAt (inputName : String) (batch1ElementCnt : Nat) (payload : Payload)
    (idx : Nat) (tensor : List Bytes) :
    SameAt (Outside idx (idx + payload.elementCnt batch1ElementCnt)) tensor
      (setPayload inputName batch1ElementCnt payload idx tensor).2.2 := by
  unfold setPayload
  simp only
  split
  · exact fillStringTensor_sameAt tensor idx _
  · exact readContent_sameAt rfl

theorem setPayload_congr {P : Nat → Prop} (inputName : String) (batch1ElementCnt : Nat)
    (payload : Payload) (idx : Nat) (h : SameAt P tensor tensor') :
    (setPayload inputName batch1ElementCnt payload idx tensor').2.1 =
        (setPayload inputName batch1ElementCnt payload idx tensor).2.1 ∧
      SameAt P (setPayload inputName batch1ElementCnt payload idx tensor).2.2
        (setPayload inputName batch1ElementCnt payload idx tensor').2.2 := by
  unfold setPayload
  simp only
  split
  · exact ⟨rfl, h.fillStringTensor idx _⟩
  · exact ⟨rfl, (readContent_congr inputName idx _ _ h).2⟩

/-- What a payload with the content of a list of strings does. -/
theorem setPayload_delivers {strings : List Bytes}
    (hstrings : ∀ str ∈ strings, str.length < 4294967296)
    (hcount : strings.length = payload.elementCnt batch1ElementCnt)
    (hdelivers : payload.Delivers inputName (encodeAll strings))
    (htensor : idx + payload.elementCnt batch1ElementCnt ≤ tensor.length) :
    ∃ provider' tensor', setPayload inputName batch1ElementCnt payload idx tensor =
        ({ payload with status := .ok, requestProvider := provider' },
          idx + payload.elementCnt batch1ElementCnt, tensor') ∧
      ∀ i < payload.elementCnt batch1ElementCnt, tensor'[idx + i]? = strings[i]? := by
  obtain ⟨content, provider', hcontent, hbytes⟩ : ∃ content provider',
      payload.requestProvider.getNextInputContent inputName
        (payload.elementCnt batch1ElementCnt * 4) true = (.ok content, provider') ∧
        content.getD [] = encodeAll strings := by
    rcases eq_or_ne (payload.elementCnt batch1ElementCnt) 0 with hzero | hpos
    · -- no content is asked for, and none was written
      rw [hzero] at hcount ⊢
      rw [List.eq_nil_of_length_eq_zero hcount]
      exact ⟨none, _, rfl, rfl⟩
    · exact getNextInputContent_delivers hdelivers
        (mt (byteSize_eq_zero_iff payload batch1ElementCnt).mp hpos)
  obtain ⟨tensor', hread, hsame⟩ := readContent_encodeAll inputName hstrings hcount htensor
  refine ⟨provider', tensor', ?_, hsame⟩
  unfold setPayload
  simp only [hcontent, hbytes, hread]

/-! ## The batch -/

theorem setPayloads_cons (payload : Payload) (payloads : List Payload) (idx : Nat)
    (tensor : List Bytes) :
    setPayloads inputName batch1ElementCnt (payload :: payloads) idx tensor =
      let (payload', idx', tensor') := setPayload inputName batch1ElementCnt payload idx tensor
      let (payloads', idx'', tensor'') :=
        setPayloads inputName batch1ElementCnt payloads idx' tensor'
      (payload' :: payloads', idx'', tensor'') :=
  rfl

theorem setPayloads_append (pre post : List Payload) (idx : Nat) (tensor : List Bytes) :
    setPayloads inputName batch1ElementCnt (pre ++ post) idx tensor =
      let (pre', idx', tensor') := setPayloads inputName batch1ElementCnt pre idx tensor
      let (post', idx'', tensor'') := setPayloads inputName batch1ElementCnt post idx' tensor'
      (pre' ++ post', idx'', tensor'') := by
  induction pre generalizing idx tensor with
  | nil => rfl
  | cons payload pre ih =>
    rw [List.cons_append, setPayloads_cons, setPayloads_cons]
    simp only [ih, List.cons_append]

theorem setPayloads_length (inputName : String) (batch1ElementCnt : Nat) (payloads : List Payload)
    (idx : Nat) (tensor : List Bytes) :
    (setPayloads inputName batch1ElementCnt payloads idx tensor).1.length = payloads.length := by
  induction payloads generalizing idx tensor with
  | nil => rfl
  | cons payload payloads ih =>
    rw [setPayloads_cons, List.length_cons]
    exact congrArg (· + 1) (ih _ _)

/-- The number of the elements of all payloads. -/
def elementSum (batch1ElementCnt : Nat) (payloads : List Payload) : Nat :=
  (payloads.map (Payload.elementCnt batch1ElementCnt)).sum

theorem elementSum_cons (payload : Payload) (payloads : List Payload) :
    elementSum batch1ElementCnt (payload :: payloads) =
      payload.elementCnt batch1ElementCnt + elementSum batch1ElementCnt payloads :=
  rfl

/-- When all payloads supply the input, the next one starts behind their ranges. -/
theorem setPayloads_idx {payloads : List Payload}
    (h : ∀ payload ∈ payloads, payload.Supplies inputName batch1ElementCnt) (idx : Nat)
    (tensor : List Bytes) :
    (setPayloads inputName batch1ElementCnt payloads idx tensor).2.1 =
      idx + elementSum batch1ElementCnt payloads := by
  induction payloads generalizing idx tensor with
  | nil => rfl
  | cons payload payloads ih =>
    rw [List.forall_mem_cons] at h
    rw [setPayloads_cons, elementSum_cons, ← Nat.add_assoc, ← setPayload_idx h.1 tensor]
    exact ih h.2 _ _

theorem setPayloads_idx_le (inputName : String) (batch1ElementCnt : Nat) (payloads : List Payload)
    (idx : Nat) (tensor : List Bytes) :
    (setPayloads inputName batch1ElementCnt payloads idx tensor).2.1 ≤
      idx + elementSum batch1ElementCnt payloads := by
  induction payloads generalizing idx tensor with
  | nil => exact le_refl idx
  | cons payload payloads ih =>
    rw [setPayloads_cons, elementSum_cons]
    refine le_trans (ih _ _) ?_
    rcases em (payload.Supplies inputName batch1ElementCnt) with h | h
    · rw [setPayload_idx h, Nat.add_assoc]
    · rw [setPayload_idx_of_not h]
      omega

/-- When one does not, the next payload starts too early. -/
theorem setPayloads_idx_lt {payloads : List Payload} (hmem : payload ∈ payloads)
    (h : ¬ payload.Supplies inputName batch1ElementCnt) (idx : Nat) (tensor : List Bytes) :
    (setPayloads inputName batch1ElementCnt payloads idx tensor).2.1 <
      idx + elementSum batch1ElementCnt payloads := by
  induction payloads generalizing idx tensor with
  | nil => cases hmem
  | cons payload' payloads ih =>
    rw [setPayloads_cons, elementSum_cons]
    rcases List.mem_cons.mp hmem with rfl | hmem
    · have hpos : payload.elementCnt batch1ElementCnt ≠ 0 := fun hzero => h (.inl hzero)
      refine lt_of_le_of_lt (setPayloads_idx_le inputName batch1ElementCnt payloads _ _) ?_
      rw [setPayload_idx_of_not h]
      omega
    · refine lt_of_lt_of_le (ih hmem _ _) ?_
      rcases em (payload'.Supplies inputName batch1ElementCnt) with h' | h'
      · rw [setPayload_idx h', Nat.add_assoc]
      · rw [setPayload_idx_of_not h']
        omega

/-- Payloads write nothing in front of the index at which they start. -/
theorem setPayloads_sameAt (inputName : String) (batch1ElementCnt : Nat) (payloads : List Payload)
    (idx : Nat) (tensor : List Bytes) :
    SameAt (· < idx) tensor (setPayloads inputName batch1ElementCnt payloads idx tensor).2.2 := by
  induction payloads generalizing idx tensor with
  | nil => exact .refl _ tensor
  | cons payload payloads ih =>
    rw [setPayloads_cons]
    have hfirst : SameAt (· < idx) tensor
        (setPayload inputName batch1ElementCnt payload idx tensor).2.2 :=
      (setPayload_sameAt inputName batch1ElementCnt payload idx tensor).mono fun i hi => .inl hi
    refine hfirst.trans ((ih _ _).mono fun i hi => lt_of_lt_of_le hi ?_)
    rcases em (payload.Supplies inputName batch1ElementCnt) with h | h
    · rw [setPayload_idx h]
      exact Nat.le_add_right idx _
    · rw [setPayload_idx_of_not h]

theorem setPayloads_congr {P : Nat → Prop} (payloads : List Payload) (idx : Nat)
    (h : SameAt P tensor tensor') :
    SameAt P (setPayloads inputName batch1ElementCnt payloads idx tensor).2.2
      (setPayloads inputName batch1ElementCnt payloads idx tensor').2.2 := by
  induction payloads generalizing idx tensor tensor' with
  | nil => exact h
  | cons payload payloads ih =>
    obtain ⟨hidx, hsame⟩ := setPayload_congr inputName batch1ElementCnt payload idx h
    rw [setPayloads_cons, setPayloads_cons]
    simp only [hidx]
    exact ih _ hsame

/-! ## What is written for a payload -/

/-- The buffers that the client or the server writes for the strings of a payload. -/
inductive WrittenFor : List Bytes → Bytes → Prop
  /-- `SetFromString`, for one entry of the batch -/
  | client {strings : List Bytes} {content : Bytes} {impl impl' : InputImpl} :
      impl.setFromString strings = (.ok, impl') → impl'.bufs = impl.bufs ++ [content] →
      WrittenFor strings content
  /-- the client sends the buffers of the entries one after another -/
  | batch {strings strings' : List Bytes} {content content' : Bytes} :
      WrittenFor strings content → WrittenFor strings' content' →
      WrittenFor (strings ++ strings') (content ++ content')
  /-- `ReadStringOutputTensor`, for a payload with a range of a tensor -/
  | server {content : Bytes} {tensor : List Bytes} {outputName : String} {shape : List Int}
      {batch1ElementCnt idx : Nat} {payload : Payload} {response : InferResponseProvider} :
      idx + payload.elementCnt batch1ElementCnt ≤ tensor.length →
      payload.responseProvider = some response →
      (readPayload outputName shape batch1ElementCnt tensor idx payload).responseProvider =
        some { response with outputBuffers := response.outputBuffers ++ [(outputName, content)] } →
      WrittenFor ((tensor.drop idx).take (payload.elementCnt batch1ElementCnt)) content

/-- The strings of a range of a tensor. -/
theorem serialize_eq {tensor strings : List Bytes} {idx cnt : Nat} (hcount : strings.length = cnt)
    (h : ∀ i < cnt, tensor[idx + i]? = strings[i]?) :
    serialize tensor idx cnt = encodeAll strings := by
  have hmap : (List.range cnt).map (fun e => tensor.getD (idx + e) []) = strings := by
    refine List.ext_getElem? fun i => ?_
    rcases Nat.lt_or_ge i cnt with hi | hi
    · rw [List.getElem?_map, List.getElem?_range hi, Option.map_some, List.getD_eq_getElem?_getD,
        h i hi, List.getElem?_eq_getElem (hcount ▸ hi), Option.getD_some]
    · rw [List.getElem?_eq_none (by rw [List.length_map, List.length_range]; exact hi),
        List.getElem?_eq_none (hcount ▸ hi)]
  rw [← hmap, ← List.nil_append (encodeAll _), ← foldl_append_encode, List.foldl_map]
  rfl

/-- The strings of a range are the ones at its indexes. -/
theorem range_eq_iff {tensor strings : List Bytes} {idx cnt : Nat} (hcount : strings.length = cnt) :
    (tensor.drop idx).take cnt = strings ↔ ∀ i < cnt, tensor[idx + i]? = strings[i]? := by
  constructor
  · rintro rfl i hi
    rw [List.getElem?_take_of_lt hi, List.getElem?_drop]
  · intro h
    refine List.ext_getElem? fun i => ?_
    rcases Nat.lt_or_ge i cnt with hi | hi
    · rw [List.getElem?_take_of_lt hi, List.getElem?_drop, h i hi]
    · rw [List.getElem?_take_eq_none hi, List.getElem?_eq_none (hcount ▸ hi)]

theorem setFromString_bufs {strings : List Bytes} {impl impl' : InputImpl}
    (h : impl.setFromString strings = (.ok, impl')) :
    impl'.bufs = impl.bufs ++ [encodeAll strings] := by
  unfold InputImpl.setFromString at h
  split at h
  · cases h
  · split at h
    · cases h
    · split at h
      · cases h
      · dsimp only at h
        unfold InputImpl.setRaw at h
        split at h
        · cases h
        · split at h
          · cases h
          · split at h
            · cases h
            · cases h
              rw [foldl_append_encode, List.nil_append]

/-- Client and server write strings in the same way. -/
theorem bytes_of_writtenFor {strings : List Bytes} {content : Bytes}
    (h : WrittenFor strings content) : content = encodeAll strings := by
  induction h with
  | client hset hbufs =>
    have heq := hbufs.symm.trans (setFromString_bufs hset)
    exact List.singleton_injective (List.append_cancel_left heq)
  | batch _ _ ih ih' => rw [encodeAll_append, ih, ih']
  | @server content tensor outputName shape batch1ElementCnt idx payload response hle hresponse
      hread =>
    have hlength : ((tensor.drop idx).take (payload.elementCnt batch1ElementCnt)).length =
        payload.elementCnt batch1ElementCnt := by
      rw [List.length_take, List.length_drop]
      omega
    rw [← serialize_eq hlength ((range_eq_iff hlength).mp rfl)]
    have hne : response.outputBuffers ≠ response.outputBuffers ++ [(outputName, content)] :=
      fun heq => by simpa using congrArg List.length heq
    unfold readPayload at hread
    rw [hresponse] at hread
    simp only at hread
    split at hread
    · split at hread
      · simp only [Option.some.injEq, InferResponseProvider.mk.injEq, List.append_cancel_left_eq,
          List.cons.injEq, Prod.mk.injEq, true_and, and_true] at hread
        exact hread.symm
      · exact absurd (congrArg (·.outputBuffers)
          (Option.some.inj (show some response = some _ from hread))) hne
    · exact absurd (congrArg (·.outputBuffers) (Option.some.inj (hresponse.symm.trans hread))) hne

/-! ## The round trip -/

/-- The payload asks for the output, and gets a buffer of this size. -/
def Payload.Receives (payload : Payload) (outputName : String) (shape : List Int) (size : Nat)
    (response : InferResponseProvider) : Prop :=
  payload.responseProvider = some response ∧ outputName ∈ response.output ∧
    (response.allocateOutputBuffer outputName size shape).isOk

/-- Behind the payloads `pre`, the payload has an OK status, its strings are at its own range of
the tensor, and writing this range for it gives the content again. -/
structure RoundTrips (inputName : String) (batch1ElementCnt : Nat) (pre : List Payload)
    (payload : Payload) (post : List Payload) (strings : List Bytes) (content : Bytes)
    (tensor : List Bytes) : Prop where
  status : ((setStringInputTensor inputName batch1ElementCnt (pre ++ payload :: post)
    tensor).1[pre.length]?).map (·.status) = some .ok
  strings : ((setStringInputTensor inputName batch1ElementCnt (pre ++ payload :: post)
    tensor).2.drop (elementSum batch1ElementCnt pre)).take (payload.elementCnt batch1ElementCnt) =
      strings
  bytes : ∀ outputName shape response,
    payload.Receives outputName shape content.length response →
    (readStringOutputTensor outputName shape batch1ElementCnt
      (setStringInputTensor inputName batch1ElementCnt (pre ++ payload :: post) tensor).2 0
      (pre ++ payload :: post))[pre.length]? = some { payload with
        responseProvider := some
          { response with outputBuffers := response.outputBuffers ++ [(outputName, content)] } }

theorem readStringOutputTensor_getElem? (outputName : String) (shape : List Int)
    (tensor : List Bytes) (idx : Nat) :
    (readStringOutputTensor outputName shape batch1ElementCnt tensor idx
        (pre ++ payload :: post))[pre.length]? =
      some (readPayload outputName shape batch1ElementCnt tensor
        (idx + elementSum batch1ElementCnt pre) payload) := by
  induction pre generalizing idx with
  | nil => rfl
  | cons payload' pre ih =>
    rw [List.cons_append, readStringOutputTensor, List.length_cons, List.getElem?_cons_succ, ih,
      elementSum_cons, Nat.add_assoc]

theorem elementSum_append (pre post : List Payload) :
    elementSum batch1ElementCnt (pre ++ post) =
      elementSum batch1ElementCnt pre + elementSum batch1ElementCnt post := by
  unfold elementSum
  rw [List.map_append, List.sum_append]

/-- What a payload with the content of a list of strings leaves behind the payloads `pre`: its
strings are in the tensor from the index on at which it starts. -/
theorem setStringInputTensor_delivers {strings : List Bytes} (post : List Payload)
    (hcount : strings.length = payload.elementCnt batch1ElementCnt)
    (hstrings : ∀ str ∈ strings, str.length < 4294967296)
    (hdelivers : payload.Delivers inputName (encodeAll strings))
    (htensor : elementSum batch1ElementCnt (pre ++ payload :: post) ≤ tensor.length) :
    ∃ provider' tensor', setPayload inputName batch1ElementCnt payload
        (setPayloads inputName batch1ElementCnt pre 0 tensor).2.1
        (setPayloads inputName batch1ElementCnt pre 0 tensor).2.2 =
          ({ payload with status := .ok, requestProvider := provider' },
            (setPayloads inputName batch1ElementCnt pre 0 tensor).2.1 +
              payload.elementCnt batch1ElementCnt, tensor') ∧
      ((setStringInputTensor inputName batch1ElementCnt (pre ++ payload :: post)
        tensor).1[pre.length]?).map (·.status) = some .ok ∧
      (setStringInputTensor inputName batch1ElementCnt (pre ++ payload :: post) tensor).2 =
        (setPayloads inputName batch1ElementCnt post
          ((setPayloads inputName batch1ElementCnt pre 0 tensor).2.1 +
            payload.elementCnt batch1ElementCnt) tensor').2.2 ∧
      ∀ i < payload.elementCnt batch1ElementCnt,
        tensor'[(setPayloads inputName batch1ElementCnt pre 0 tensor).2.1 + i]? = strings[i]? := by
  have hpre := setPayloads_length inputName batch1ElementCnt pre 0 tensor
  have hidx := setPayloads_idx_le inputName batch1ElementCnt pre 0 tensor
  have hlength := (setPayloads_sameAt inputName batch1ElementCnt pre 0 tensor).length
  rw [elementSum_append, elementSum_cons] at htensor
  obtain ⟨provider', tensor', hset, hread⟩ := setPayload_delivers hstrings hcount hdelivers
    (show (setPayloads inputName batch1ElementCnt pre 0 tensor).2.1 +
      payload.elementCnt batch1ElementCnt ≤
        (setPayloads inputName batch1ElementCnt pre 0 tensor).2.2.length by omega)
  refine ⟨provider', tensor', hset, ?_, ?_, hread⟩
  · simp only [setStringInputTensor, setPayloads_append, setPayloads_cons, hset]
    rw [List.getElem?_append_right (by rw [hpre]), hpre, Nat.sub_self]
    rfl
  · simp only [setStringInputTensor, setPayloads_append, setPayloads_cons, hset]

/-- The strings of a payload come back when all payloads in front supply the input, or when there
are none. -/
theorem roundTrips {strings : List Bytes} {content : Bytes}
    (hpre : payload.elementCnt batch1ElementCnt = 0 ∨
      ∀ payload' ∈ pre, payload'.Supplies inputName batch1ElementCnt)
    (hcount : strings.length = payload.elementCnt batch1ElementCnt)
    (hstrings : ∀ str ∈ strings, str.length < 4294967296) (hcontent : content = encodeAll strings)
    (hdelivers : payload.Delivers inputName content)
    (htensor : tensor.length = elementSum batch1ElementCnt (pre ++ payload :: post)) :
    RoundTrips inputName batch1ElementCnt pre payload post strings content tensor := by
  subst hcontent
  obtain ⟨provider', tensor', -, hstatus, htensor', hread⟩ :=
    setStringInputTensor_delivers post hcount hstrings hdelivers htensor.ge
  have hrange : ∀ i < payload.elementCnt batch1ElementCnt,
      (setStringInputTensor inputName batch1ElementCnt (pre ++ payload :: post)
        tensor).2[elementSum batch1ElementCnt pre + i]? = strings[i]? := by
    intro i hi
    have hsupplies := hpre.resolve_left (by omega)
    rw [setPayloads_idx hsupplies, Nat.zero_add] at htensor' hread
    rw [htensor', (setPayloads_sameAt inputName batch1ElementCnt post _ tensor').same _ (by omega),
      hread i hi]
  refine ⟨hstatus, (range_eq_iff hcount).mpr hrange, fun outputName shape response hreceives => ?_⟩
  obtain ⟨hresponse, houtput, halloc⟩ := hreceives
  rw [readStringOutputTensor_getElem?, Nat.zero_add]
  unfold readPayload
  rw [hresponse]
  simp only
  rw [if_pos houtput, serialize_eq hcount hrange, if_pos halloc]

/-- Two payloads that start at the same index and differ in their contents leave the same
strings behind what they read. -/
theorem setStringInputTensor_same {strings strings' : List Bytes} {payload' : Payload}
    (hcount : strings.length = payload.elementCnt batch1ElementCnt)
    (hcount' : strings'.length = payload'.elementCnt batch1ElementCnt)
    (hsize : payload'.elementCnt batch1ElementCnt = payload.elementCnt batch1ElementCnt)
    (hstrings : ∀ str ∈ strings, str.length < 4294967296)
    (hstrings' : ∀ str ∈ strings', str.length < 4294967296)
    (hdelivers : payload.Delivers inputName (encodeAll strings))
    (hdelivers' : payload'.Delivers inputName (encodeAll strings'))
    (htensor : elementSum batch1ElementCnt (pre ++ payload :: post) ≤ tensor.length) :
    SameAt ((setPayloads inputName batch1ElementCnt pre 0 tensor).2.1 +
        payload.elementCnt batch1ElementCnt ≤ ·)
      (setStringInputTensor inputName batch1ElementCnt (pre ++ payload :: post) tensor).2
      (setStringInputTensor inputName batch1ElementCnt (pre ++ payload' :: post) tensor).2 := by
  have hsum : elementSum batch1ElementCnt (pre ++ payload' :: post) ≤ tensor.length := by
    rw [elementSum_append, elementSum_cons] at htensor ⊢
    rwa [hsize]
  obtain ⟨provider₁, tensor₁, hset, -, hresult, -⟩ :=
    setStringInputTensor_delivers post hcount hstrings hdelivers htensor
  obtain ⟨provider₂, tensor₂, hset', -, hresult', -⟩ :=
    setStringInputTensor_delivers post hcount' hstrings' hdelivers' hsum
  rw [hresult, hresult', hsize]
  refine setPayloads_congr post _ ?_
  -- both payloads only write between the index and the end of what they read
  have hsame := setPayload_sameAt inputName batch1ElementCnt payload
    (setPayloads inputName batch1ElementCnt pre 0 tensor).2.1
    (setPayloads inputName batch1ElementCnt pre 0 tensor).2.2
  have hsame' := setPayload_sameAt inputName batch1ElementCnt payload'
    (setPayloads inputName batch1ElementCnt pre 0 tensor).2.1
    (setPayloads inputName batch1ElementCnt pre 0 tensor).2.2
  rw [hset] at hsame
  rw [hset', hsize] at hsame'
  exact (hsame.symm.trans hsame').mono fun i hi => .inr hi

/-- When a payload in front does not supply the input, two lists of strings that differ in the
last one do not both come back. -/
theorem not_roundTrips {payload₁ payload₂ : Payload} {strings₁ strings₂ : List Bytes} {cnt : Nat}
    (hmem : payload ∈ pre) (hnot : ¬ payload.Supplies inputName batch1ElementCnt)
    (hsize₁ : payload₁.elementCnt batch1ElementCnt = cnt)
    (hsize₂ : payload₂.elementCnt batch1ElementCnt = cnt)
    (hcount₁ : strings₁.length = cnt) (hcount₂ : strings₂.length = cnt)
    (hstrings₁ : ∀ str ∈ strings₁, str.length < 4294967296)
    (hstrings₂ : ∀ str ∈ strings₂, str.length < 4294967296)
    (hdelivers₁ : payload₁.Delivers inputName (encodeAll strings₁))
    (hdelivers₂ : payload₂.Delivers inputName (encodeAll strings₂))
    (htensor : tensor.length = elementSum batch1ElementCnt (pre ++ payload₁ :: post))
    (hlast : strings₁[cnt - 1]? ≠ strings₂[cnt - 1]?) :
    ¬ (RoundTrips inputName batch1ElementCnt pre payload₁ post strings₁ (encodeAll strings₁)
        tensor ∧
      RoundTrips inputName batch1ElementCnt pre payload₂ post strings₂ (encodeAll strings₂)
        tensor) := by
  rintro ⟨h₁, h₂⟩
  have hpos : cnt - 1 < cnt := by
    refine Nat.sub_lt (Nat.pos_of_ne_zero fun hzero => hlast ?_) Nat.one_pos
    rw [hzero] at hcount₁ hcount₂
    rw [List.eq_nil_of_length_eq_zero hcount₁, List.eq_nil_of_length_eq_zero hcount₂]
  have hread₁ := (range_eq_iff (hcount₁.trans hsize₁.symm)).mp h₁.strings (cnt - 1)
    (by rwa [hsize₁])
  have hread₂ := (range_eq_iff (hcount₂.trans hsize₂.symm)).mp h₂.strings (cnt - 1)
    (by rwa [hsize₂])
  have hlt := setPayloads_idx_lt hmem hnot 0 tensor
  have hsame := setStringInputTensor_same (hcount₁.trans hsize₁.symm) (hcount₂.trans hsize₂.symm)
    (hsize₂.trans hsize₁.symm) hstrings₁ hstrings₂ hdelivers₁ hdelivers₂ htensor.ge
  have heq := hsame.same (elementSum batch1ElementCnt pre + (cnt - 1)) (by
    show _ + payload₁.elementCnt batch1ElementCnt ≤ _
    omega)
  rw [hread₁, hread₂] at heq
  exact hlast heq.symm

/-- A payload of this batch size with the content of the strings for the input. -/
def Payload.deliver (batchSize : Nat) (inputName : String) (strings : List Bytes) : Payload where
  requestProvider :=
    { requestHeader := { batchSize := batchSize }
      data := .inputBuffer (AList.singleton inputName ({ blocks := [encodeAll strings] }, 0)) }

theorem delivers_deliver (batchSize : Nat) (inputName : String) (strings : List Bytes) :
    (Payload.deliver batchSize inputName strings).Delivers inputName (encodeAll strings) := by
  refine ⟨rfl, _, { blocks := [encodeAll strings] }, rfl, ?_, ?_⟩
  · show List.dlookup inputName [⟨inputName, _⟩] = _
    exact List.dlookup_cons_eq _ _ _
  · rw [SystemMemory.bytes_eq, List.flatten_singleton]

/-- A response that asks for one output. -/
def oneOutput : InferResponseProvider where
  output := ["y"]
  allocateOutputBuffer := fun _ _ _ => .ok

/-- A payload of batch size 1 that asks for one output. -/
def Payload.receive : Payload where
  requestProvider := { requestHeader := { batchSize := 1 }, data := .null fun _ => [] }
  responseProvider := some oneOutput

/-- The server writes every list of strings. -/
theorem writtenFor_encodeAll (strings : List Bytes) : WrittenFor strings (encodeAll strings) := by
  have hsize : Payload.receive.elementCnt strings.length = strings.length := Nat.one_mul _
  have hread : (readPayload "y" [] strings.length strings 0 .receive).responseProvider =
      some { oneOutput with
        outputBuffers := oneOutput.outputBuffers ++ [("y", encodeAll strings)] } := by
    show some { oneOutput with outputBuffers := [("y", serialize strings 0
      (Payload.receive.elementCnt strings.length))] } = _
    rw [hsize, serialize_eq rfl fun i _ => by rw [Nat.zero_add]]
    rfl
  have hserver := WrittenFor.server (by rw [hsize, Nat.zero_add]) rfl hread
  rwa [hsize, List.drop_zero, List.take_length] at hserver

/-- Every list of strings for a payload of a given size comes back, wherever it was written, if
and only if there are no strings or all payloads in front supply the input. -/
theorem roundTrips_iff (inputName : String) (batch1ElementCnt batchSize : Nat)
    (pre post : List Payload) :
    (∀ (payload : Payload) (strings : List Bytes) (content : Bytes) (tensor : List Bytes),
      payload.requestProvider.requestHeader.batchSize = batchSize →
      strings.length = batchSize * batch1ElementCnt →
      (∀ str ∈ strings, str.length < 4294967296) →
      WrittenFor strings content → payload.Delivers inputName content →
      tensor.length = elementSum batch1ElementCnt (pre ++ payload :: post) →
      RoundTrips inputName batch1ElementCnt pre payload post strings content tensor) ↔
    batchSize * batch1ElementCnt = 0 ∨
      ∀ payload ∈ pre, payload.Supplies inputName batch1ElementCnt := by
  constructor
  · intro h
    refine or_iff_not_imp_left.mpr fun hpos payload hmem => by_contra fun hnot => ?_
    -- the strings are all [0], or all [1]
    let cnt := batchSize * batch1ElementCnt
    let strings (byte : UInt8) : List Bytes := List.replicate cnt [byte]
    let deliver (byte : UInt8) := Payload.deliver batchSize inputName (strings byte)
    have hsize (byte : UInt8) : (deliver byte).elementCnt batch1ElementCnt = cnt := rfl
    have hdelivers (byte : UInt8) := delivers_deliver batchSize inputName (strings byte)
    have hlength (byte : UInt8) : (strings byte).length = cnt := List.length_replicate
    have hstrings (byte : UInt8) : ∀ str ∈ strings byte, str.length < 4294967296 := by
      intro str hstr
      rw [List.eq_of_mem_replicate hstr]
      show 1 < 4294967296
      decide
    have htensor : (List.replicate (elementSum batch1ElementCnt (pre ++ deliver 0 :: post))
        ([] : Bytes)).length = elementSum batch1ElementCnt (pre ++ deliver 0 :: post) :=
      List.length_replicate
    have hround (byte : UInt8) := h (deliver byte) (strings byte) _
      (List.replicate (elementSum batch1ElementCnt (pre ++ deliver 0 :: post)) [])
      rfl (hlength byte) (hstrings byte) (writtenFor_encodeAll _) (hdelivers byte) (by
        rw [htensor, elementSum_append, elementSum_append]
        rfl)
    refine not_roundTrips hmem hnot (hsize 0) (hsize 1) (hlength 0) (hlength 1) (hstrings 0)
      (hstrings 1) (hdelivers 0) (hdelivers 1) htensor ?_ ⟨hround 0, hround 1⟩
    have hlt : cnt - 1 < cnt := by omega
    rw [List.getElem?_replicate, List.getElem?_replicate, if_pos hlt, if_pos hlt]
    decide
  · intro h payload strings content tensor hbatch hcount hstrings hwritten hdelivers htensor
    have hsize : payload.elementCnt batch1ElementCnt = batchSize * batch1ElementCnt := by
      unfold Payload.elementCnt
      rw [hbatch]
    rw [← hsize] at h hcount
    exact roundTrips h hcount hstrings (bytes_of_writtenFor hwritten) hdelivers htensor

/-- A payload of batch size 1 whose request has no data for the input `b`. -/
def withoutInput : Payload where
  requestProvider :=
    { requestHeader := { batchSize := 1 }
      data := .inputBuffer (AList.singleton "a" ({ blocks := [[0, 0, 0, 0]] }, 0)) }

/-- An input `b` of one string in the client. -/
def oneString : InputImpl :=
  { InputImpl.create { name := "b", dataType := .string, dims := [1] } with batchSize := 1 }

/-- The string "hi" of the second payload of a batch, as the client writes it: it is read to the
range of the first payload, whose request has no data for the input. -/
theorem not_roundTrips_withoutInput :
    ∃ impl', oneString.setFromString [[104, 105]] = (.ok, impl') ∧
      impl'.bufs = [[2, 0, 0, 0, 104, 105]] ∧
      ¬ RoundTrips "b" 1 [withoutInput] (.deliver 1 "b" [[104, 105]]) [] [[104, 105]]
        [2, 0, 0, 0, 104, 105] [[], []] := by
  refine ⟨_, rfl, rfl, fun h => ?_⟩
  have hstrings := h.strings
  revert hstrings
  decide

end

end FinBert.Serving
