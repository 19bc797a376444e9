import FinBert.Serving.InputCopy
import FinBert.Serving.Normalization
import FinBert.Serving.StringRanges

/-!
# The inputs of a TensorFlow model

`BaseBackend::Context::Run` (`base_backend.cc`) sets one input tensor after another from the
contents of the payloads of a batch, and keeps an error of a payload in its status.
`OnCompleteQueuedPayloads` (`dynamic_batch_scheduler.cc`) reports it.

Results:
1. `hasStrings_iff`, `strings_delivered`: the content that a string input finds.
2. `setStringInputTensor_ok_iff`: behind a string input, the status of a payload is the one of its
   content.
-/

namespace FinBert.Serving

open LengthPrefixed

/-! ## `SetInput` -/

/-- `SetFixedSizedInputTensor`, from the payload on whose place begins at `tensorCopyOffset`. -/
def setFixedSizedInputTensor (inputName : String) (batch1ByteSize : Nat) :
    List Payload → Nat → Bytes → List Payload × Bytes
  | [], _, flat => ([], flat)
  | payload :: payloads, tensorCopyOffset, flat =>
    let expectedByteSize := payload.requestProvider.requestHeader.batchSize * batch1ByteSize
    let (payload, copied) := copyInput inputName expectedByteSize (fun size =>
      if tensorCopyOffset + size > flat.length then
        some { code := .invalidArg,
               message := "unexpected size " ++ toString (tensorCopyOffset + size) ++
                 " for inference input '" ++ inputName ++ "', expecting " ++
                 toString flat.length }
      else none) payload
    let (payloads, flat) := setFixedSizedInputTensor inputName batch1ByteSize payloads
      (tensorCopyOffset + expectedByteSize) (overwrite flat tensorCopyOffset copied)
    (payload :: payloads, flat)

/-- `tensorflow::Tensor`, with its elements in a row. -/
inductive Tensor
  | fixedSized (flat : Bytes)
  | strings (flat : List Bytes)

/-- What `Run` sets an input tensor from: the name, the type and the dimensions. -/
structure InputTensor where
  name : String
  dataType : DataType
  dims : List Int

/-- `batch1_element_cnt`. -/
def InputTensor.batch1ElementCnt (input : InputTensor) : Nat :=
  input.dims.foldl (fun cnt dim => uint64 (cnt * dim)) 1

/-- `SetInput`, with the batch dimension for a model that supports batching. The bytes of a new
tensor are zeros here; they are overwritten. -/
def setInput (maxBatchSize totalBatchSize : Nat) (input : InputTensor) (payloads : List Payload) :
    List Payload × Tensor :=
  let batch1ElementCnt := input.batch1ElementCnt
  let numElements :=
    if maxBatchSize ≠ 0 then totalBatchSize * batch1ElementCnt else batch1ElementCnt
  if input.dataType ≠ .string then
    let dataTypeSize := getDataTypeByteSize input.dataType
    let (payloads, flat) := setFixedSizedInputTensor input.name (batch1ElementCnt * dataTypeSize)
      payloads 0 (List.replicate (numElements * dataTypeSize) 0)
    (payloads, .fixedSized flat)
  else
    let (payloads, flat) := setStringInputTensor input.name batch1ElementCnt payloads
      (List.replicate numElements [])
    (payloads, .strings flat)

/-- The loops of `Run` over the inputs. -/
def setInputs (maxBatchSize totalBatchSize : Nat) :
    List InputTensor → List Payload → List Payload × List Tensor
  | [], payloads => (payloads, [])
  | input :: inputs, payloads =>
    let (payloads, tensor) := setInput maxBatchSize totalBatchSize input payloads
    let (payloads, tensors) := setInputs maxBatchSize totalBatchSize inputs payloads
    (payloads, tensor :: tensors)

/-! ## `Run` -/

/-- The inputs of the request with the types of the configuration, up to one that the model does
not have, and the status of `GetInput`. -/
def requestInputs (config : ModelConfig) : List InferInput → List InputTensor × Status
  | [] => ([], .ok)
  | io :: ios =>
    match getInput config io.name with
    | .error status => ([], status)
    | .ok inputConfig =>
      let (inputs, status) := requestInputs config ios
      ({ name := io.name, dataType := inputConfig.dataType, dims := io.dims } :: inputs, status)

/-- The total batch size of the payloads. -/
def totalBatchSize (payloads : List Payload) : Nat :=
  (payloads.map fun payload => payload.requestProvider.requestHeader.batchSize).sum

/-- The checks of `Run`, and the inputs that it sets: those of the last payload, with the
`overrides` behind them. -/
def inputsOfRun (config : ModelConfig) (name : String) (maxBatchSize : Nat)
    (overrides : List InputTensor) (payloads : List Payload) : Status × List InputTensor :=
  if payloads.any fun payload => !payload.status.isOk then
    ({ code := .internal,
       message := "unexpected payload with non-OK status given to runner for '" ++ name ++ "'" },
      [])
  else
    let total := totalBatchSize payloads
    match payloads.getLast? with
    | none => (.ok, [])
    | some representative =>
      if total = 0 then (.ok, [])
      else if total ≠ 1 ∧ total > maxBatchSize then
        ({ code := .internal,
           message := "dynamic batch size " ++ toString total ++ " for '" ++ name ++
             "', max allowed is " ++ toString maxBatchSize }, [])
      else
        let (inputs, status) :=
          requestInputs config representative.requestProvider.requestHeader.input
        (status, if status.isOk then inputs ++ overrides else inputs)

/-- `BaseBackend::Context::Run`, up to the inference. -/
def run (config : ModelConfig) (name : String) (maxBatchSize : Nat) (overrides : List InputTensor)
    (payloads : List Payload) : Status × List Payload × List Tensor :=
  let (status, inputs) := inputsOfRun config name maxBatchSize overrides payloads
  (status, setInputs maxBatchSize (totalBatchSize payloads) inputs payloads)

/-- `OnCompleteQueuedPayloads`: the status with which a payload is completed. -/
def finalStatus (status : Status) (payload : Payload) : Status :=
  if status.isOk then payload.status else status

/-! ## One input tensor -/

section
variable {inputName : String} {batch1ElementCnt batch1ByteSize : Nat}

/-- `GetNextInputContent` succeeds, with a content that is made up of as many strings as the
payload has elements. -/
def Payload.HasStrings (inputName : String) (batch1ElementCnt : Nat) (payload : Payload) : Prop :=
  ∃ content, (payload.requestProvider.getNextInputContent inputName
      (payload.elementCnt batch1ElementCnt * 4) true).1 = .ok content ∧
    WellFormed (payload.elementCnt batch1ElementCnt) (content.getD [])

/-- Without elements, no content is asked for. -/
theorem hasStrings_iff {payload : Payload} :
    payload.HasStrings inputName batch1ElementCnt ↔
      payload.elementCnt batch1ElementCnt = 0 ∨
        WellFormed (payload.elementCnt batch1ElementCnt)
          (payload.delivered inputName (payload.elementCnt batch1ElementCnt * 4)) := by
  unfold Payload.HasStrings Payload.delivered
  generalize payload.elementCnt batch1ElementCnt = cnt
  rcases Nat.eq_zero_or_pos cnt with rfl | hpos
  · exact iff_of_true ⟨none, rfl, rfl, Nat.zero_lt_succ 3⟩ (.inl rfl)
  · rw [or_iff_right hpos.ne']
    generalize hnext : payload.requestProvider.getNextInputContent inputName (cnt * 4) true = next
    obtain ⟨result, provider⟩ := next
    have hforced := getNextInputContent_forced (show cnt * 4 ≠ 0 by omega) hnext
    cases result with
    | error status =>
      rw [hforced.1 status rfl]
      refine iff_of_false (fun ⟨_, hok, _⟩ => nomatch hok) fun hwell => ?_
      have hlength := hwell.1
      rw [List.flatten_nil, decode_nil] at hlength
      exact hpos.ne hlength
    | ok content =>
      rw [← hforced.2 content rfl]
      exact ⟨fun ⟨_, hok, hwell⟩ => Except.ok.inj hok ▸ hwell, fun hwell => ⟨content, rfl, hwell⟩⟩

theorem strings_delivered (payload : Payload) :
    payload.strings inputName batch1ElementCnt =
      padded (payload.elementCnt batch1ElementCnt) (decode (payload.elementCnt batch1ElementCnt)
        (payload.delivered inputName (payload.elementCnt batch1ElementCnt * 4))).1 := by
  unfold Payload.strings Payload.delivered
  generalize payload.elementCnt batch1ElementCnt = cnt
  rcases Nat.eq_zero_or_pos cnt with rfl | hpos
  · rw [decode_zero]
    rfl
  · dsimp only
    generalize hnext : payload.requestProvider.getNextInputContent inputName (cnt * 4) true = next
    obtain ⟨result, provider⟩ := next
    have hforced := getNextInputContent_forced (show cnt * 4 ≠ 0 by omega) hnext
    rcases result with _ | content
    · rw [hforced.1 _ rfl, List.flatten_nil, decode_nil]
      rfl
    · rw [← hforced.2 content rfl]

theorem not_isOk_of_getNextInputContent_error {provider provider' : InferRequestProvider}
    {size : Nat} {forceContiguous : Bool} {status : Status}
    (h : provider.getNextInputContent inputName size forceContiguous =
      (.error status, provider')) : ¬ status.isOk := by
  unfold InferRequestProvider.getNextInputContent at h
  split at h
  · cases h
  · split at h
    · split at h
      · cases h
      · cases h
    · split at h
      · cases h
      · split at h
        · cases h
          nofun
        · split at h
          · cases h
          · cases h

/-- A string input sets the status of a payload, whatever it was. -/
theorem setPayload_ok_iff (payload : Payload) (idx : Nat) (tensor : List Bytes) :
    (setPayload inputName batch1ElementCnt payload idx tensor).1.status.isOk ↔
      payload.HasStrings inputName batch1ElementCnt := by
  unfold setPayload Payload.HasStrings
  simp only
  split
  · next status provider hcontent =>
    refine iff_of_false (not_isOk_of_getNextInputContent_error hcontent) ?_
    rintro ⟨content, hok, -⟩
    rw [hcontent] at hok
    cases hok
  · next content provider hcontent =>
    rw [hcontent]
    refine (readContent_spec rfl).1.trans ⟨fun hwell => ⟨content, rfl, hwell⟩, ?_⟩
    rintro ⟨content', hok, hwell⟩
    rwa [Except.ok.inj hok]

theorem setPayloads_ok_iff {payloads : List Payload} {i : Nat} {payload : Payload}
    (hi : payloads[i]? = some payload) (idx : Nat) (tensor : List Bytes) :
    ∃ payload', (setPayloads inputName batch1ElementCnt payloads idx tensor).1[i]? =
        some payload' ∧
      (payload'.status.isOk ↔ payload.HasStrings inputName batch1ElementCnt) := by
  induction payloads generalizing i idx tensor with
  | nil => cases hi
  | cons payload₀ payloads ih =>
    rw [setPayloads_cons]
    cases i with
    | zero =>
      obtain rfl := Option.some.inj hi
      exact ⟨_, rfl, setPayload_ok_iff payload₀ idx tensor⟩
    | succ i => exact ih hi _ _

/-- Behind a string input, the status of a payload only depends on its content. -/
theorem setStringInputTensor_ok_iff {payloads : List Payload} {i : Nat} {payload : Payload}
    (hi : payloads[i]? = some payload) (tensor : List Bytes) :
    ∃ payload', (setStringInputTensor inputName batch1ElementCnt payloads tensor).1[i]? =
        some payload' ∧
      (payload'.status.isOk ↔ payload.HasStrings inputName batch1ElementCnt) :=
  setPayloads_ok_iff hi 0 tensor

end

/-! ## One input tensor after another -/

section
variable {maxBatchSize total : Nat} {input : InputTensor} {inputs : List InputTensor}
  {payloads : List Payload}

theorem setInputs_append (maxBatchSize total : Nat) (inputs inputs' : List InputTensor)
    (payloads : List Payload) :
    (setInputs maxBatchSize total (inputs ++ inputs') payloads).1 =
      (setInputs maxBatchSize total inputs'
        (setInputs maxBatchSize total inputs payloads).1).1 := by
  induction inputs generalizing payloads with
  | nil => rfl
  | cons input inputs ih =>
    rw [List.cons_append, setInputs, setInputs]
    exact ih _

/-- The payloads behind the first `k` inputs. -/
def afterInputs (maxBatchSize total : Nat) (inputs : List InputTensor) (payloads : List Payload)
    (k : Nat) : List Payload :=
  (setInputs maxBatchSize total (inputs.take k) payloads).1

theorem afterInputs_succ {k : Nat} (hk : inputs[k]? = some input) :
    afterInputs maxBatchSize total inputs payloads (k + 1) =
      (setInput maxBatchSize total input
        (afterInputs maxBatchSize total inputs payloads k)).1 := by
  unfold afterInputs
  rw [List.take_add_one, hk, setInputs_append]
  rfl

/-- The payload `i` has failed. -/
def FailedAt (payloads : List Payload) (i : Nat) : Prop :=
  ∃ payload, payloads[i]? = some payload ∧ ¬ payload.status.isOk

/-- A payload that has failed is reported with an error, whatever `Run` returns. -/
theorem not_isOk_finalStatus {payload : Payload} (hfailed : ¬ payload.status.isOk)
    (status : Status) : ¬ (finalStatus status payload).isOk := by
  unfold finalStatus
  split
  · exact hfailed
  · next hstatus => exact hstatus

end

end FinBert.Serving
