import FinBert.Serving.FixedSized
import Mathlib.Data.Nat.Find

/-!
# A payload that has failed

`BaseBackend::Context::Run` sets one input tensor after another. A fixed-size input leaves a payload
that has failed alone, but a string input sets the status of every payload from the content that it
finds.

Results:
1. `setInput_turns`: what one input does to the status of each payload, and what is left of its
   content.
2. `behind_afterInputs`: the same behind a number of inputs.
3. `failedStays_iff`: a payload that has failed stays failed exactly when no string input finds a
   good content behind a bad one.
-/

namespace FinBert.Serving

open LengthPrefixed

/-! ## What is left of a content -/

/-- What a provider has for an input: the blocks that come next or, without data, as many bytes as
are asked for. -/
inductive InputData
  | left (blocks : List Bytes)
  | null (buf : Nat → Bytes)

/-- The blocks that come next, when `size` bytes are asked for. -/
def InputData.blocks (size : Nat) : InputData → List Bytes
  | .left blocks => blocks
  | .null buf => [buf size]

/-- What the provider has for the input `name`. -/
def InferRequestProvider.inputData (provider : InferRequestProvider) (name : String) : InputData :=
  match provider.overrides.lookup name with
  | some content => .left (if name ∈ provider.overridesConsumed then [] else [content])
  | none =>
    match provider.data with
    | .null buf => .null buf
    | .inputBuffer buffers =>
      match buffers.lookup name with
      | none => .left []
      | some (memory, idx) => .left (memory.blocks.drop idx)

theorem blocks_inputData (provider : InferRequestProvider) (name : String) (size : Nat) :
    provider.blocks name size = (provider.inputData name).blocks size := by
  unfold InferRequestProvider.blocks InferRequestProvider.inputData
  cases provider.overrides.lookup name with
  | some content => rfl
  | none =>
    cases provider.data with
    | null buf => rfl
    | inputBuffer buffers =>
      dsimp only
      cases buffers.lookup name with
      | none => rfl
      | some entry => rfl

section
variable {provider provider' : InferRequestProvider} {name name' : String} {size : Nat}

/-- A call takes the first block, or all of them. -/
theorem inputData_getNextInputContent {forceContiguous : Bool}
    {result : Except Status (Option Bytes)} (hsize : size ≠ 0)
    (h : provider.getNextInputContent name size forceContiguous = (result, provider')) :
    provider'.inputData name =
      match provider.inputData name with
      | .left blocks => .left (if forceContiguous then [] else blocks.tail)
      | .null buf => .null buf := by
  unfold InferRequestProvider.getNextInputContent at h
  unfold InferRequestProvider.inputData
  rw [if_neg hsize] at h
  cases hoverride : provider.overrides.lookup name with
  | some override =>
    simp only [hoverride] at h ⊢
    split at h
    · next hconsumed =>
      cases h
      simp only [hoverride, if_pos hconsumed, List.tail_nil, ite_self]
    · next hconsumed =>
      cases h
      simp only [hoverride, List.mem_cons, true_or, if_true, if_neg hconsumed, List.tail_cons,
        ite_self]
  | none =>
    cases hdata : provider.data with
    | null buf =>
      simp only [hoverride, hdata] at h ⊢
      cases h
      simp only [hoverride, hdata]
    | inputBuffer buffers =>
      simp only [hoverride, hdata] at h ⊢
      cases hlookup : buffers.lookup name with
      | none =>
        simp only [hlookup] at h ⊢
        cases h
        simp only [hoverride, hdata, hlookup, List.tail_nil, ite_self]
      | some entry =>
        obtain ⟨memory, idx⟩ := entry
        simp only [hlookup] at h ⊢
        split at h
        · next hlast =>
          cases h
          simp only [hoverride, AList.lookup_insert, List.tail_drop]
          cases forceContiguous with
          | false => rfl
          | true =>
            rw [List.drop_eq_nil_of_le (List.getElem?_eq_none_iff.mp
              (hlast.resolve_left (by decide))), if_pos rfl]
        · next hmore =>
          cases h
          simp only [not_or, Bool.not_eq_true', Bool.not_eq_false] at hmore
          simp only [hoverride, AList.lookup_insert, hmore.1, if_true,
            List.drop_eq_nil_of_le (Nat.le_succ _)]

/-- A call leaves the other inputs as they are. -/
theorem inputData_getNextInputContent_of_ne (hne : name' ≠ name) (size : Nat)
    (forceContiguous : Bool) :
    (provider.getNextInputContent name size forceContiguous).2.inputData name' =
      provider.inputData name' := by
  unfold InferRequestProvider.getNextInputContent
  split
  · rfl
  · split
    · split
      · rfl
      · unfold InferRequestProvider.inputData
        simp only [List.mem_cons, hne, false_or]
    · split
      · rfl
      · next hdata =>
        split
        · rfl
        · split
          all_goals
            unfold InferRequestProvider.inputData
            simp only [hdata, AList.lookup_insert_ne hne]

theorem lawful_getNextInputContent (h : provider.Lawful) (name : String) (size : Nat)
    (forceContiguous : Bool) :
    (provider.getNextInputContent name size forceContiguous).2.Lawful := by
  unfold InferRequestProvider.getNextInputContent
  split
  · exact h
  · split
    · split
      · exact h
      · exact h
    · split
      · exact h
      · split
        · exact h
        · split <;> exact fun _ hdata => nomatch hdata

end

/-! ## Copying -/

/-- The blocks behind the first `size` bytes. -/
def dropBytes : Nat → List Bytes → List Bytes
  | 0, blocks => blocks
  | _, [] => []
  | size + 1, block :: blocks => dropBytes (size + 1 - block.length) blocks

/-- What is left behind the first `size` bytes. -/
def InputData.dropBytes (size : Nat) : InputData → InputData
  | .left blocks => .left (Serving.dropBytes size blocks)
  | .null buf => .null buf

@[simp] theorem dropBytes_zero (blocks : List Bytes) : dropBytes 0 blocks = blocks := by
  cases blocks <;> rfl

theorem counts_of_left {provider : InferRequestProvider} {name : String} {blocks : List Bytes}
    (h : provider.inputData name = .left blocks) : provider.Counts name := by
  unfold InferRequestProvider.inputData at h
  split at h
  · next content hoverride => exact .inl ⟨content, hoverride⟩
  · split at h
    · cases h
    · next buffers hdata => exact .inr ⟨buffers, hdata⟩

theorem null_of_inputData {provider : InferRequestProvider} {name : String} {buf : Nat → Bytes}
    (h : provider.inputData name = .null buf) :
    provider.overrides.lookup name = none ∧ provider.data = .null buf := by
  unfold InferRequestProvider.inputData at h
  split at h
  · cases h
  · next hoverride =>
    refine ⟨hoverride, ?_⟩
    split at h
    · next hdata =>
      cases h
      exact hdata
    · split at h <;> cases h

section
variable {inputName : String} {expected : Nat} {check : Nat → Option Status} {payload : Payload}

/-- What holds of the provider before the loop holds behind it, if every call keeps it. -/
theorem copyContent_provider {P : InferRequestProvider → Prop}
    (hP : ∀ provider size, P provider → P (provider.getNextInputContent inputName size false).2)
    {calls : Nat} {copied : Bytes} (h : P payload.requestProvider) :
    P (copyContent inputName expected check calls payload copied).1.requestProvider := by
  induction calls generalizing payload copied with
  | zero => exact h
  | succ calls ih =>
    rw [copyContent]
    split
    · have hnext := hP payload.requestProvider (uint64 ((expected : Int) - copied.length)) h
      split
      · next heq =>
        rw [heq] at hnext
        exact hnext
      · next heq =>
        rw [heq] at hnext
        exact hnext
      · next heq =>
        rw [heq] at hnext
        split
        · exact hnext
        · exact ih hnext
    · exact h

theorem copyInput_provider {P : InferRequestProvider → Prop}
    (hP : ∀ provider size, P provider → P (provider.getNextInputContent inputName size false).2)
    (h : P payload.requestProvider) :
    P (copyInput inputName expected check payload).1.requestProvider := by
  unfold copyInput
  simp only
  split
  · exact copyContent_provider hP h
  · exact copyContent_provider hP h

/-- The loop only adds to what it has copied. -/
theorem length_copyContent (calls : Nat) (payload : Payload) (copied : Bytes) :
    copied.length ≤ (copyContent inputName expected check calls payload copied).2.length := by
  induction calls generalizing payload copied with
  | zero => exact le_rfl
  | succ calls ih =>
    rw [copyContent]
    split
    · split
      · exact le_rfl
      · exact le_rfl
      · next content _ _ =>
        split
        · exact le_rfl
        · refine le_trans ?_ (ih _ (copied ++ content))
          rw [List.length_append]
          exact Nat.le_add_right _ _
    · exact le_rfl

/-- The loop takes the first blocks. It ends well if they make up the bytes that are missing, and
with another number of bytes if they do not: then a block reaches beyond them, or there are too
few blocks. -/
theorem copyContent_left {calls : Nat} {copied : Bytes} {blocks : List Bytes}
    (hcheck : ∀ size ≤ expected, check size = none) (hexpected : expected < 18446744073709551616)
    (hcalls : payload.requestProvider.blocksLeft inputName < calls)
    (hok : payload.status.isOk) (hcopied : copied.length ≤ expected)
    (hleft : payload.requestProvider.inputData inputName = .left blocks) :
    let result := copyContent inputName expected check calls payload copied
    if (fitting (expected - copied.length) blocks).length = expected - copied.length then
      result.1.status.isOk ∧ result.2.length = expected ∧
        result.1.requestProvider.inputData inputName =
          .left (dropBytes (expected - copied.length) blocks)
    else result.2.length ≠ expected := by
  induction calls generalizing payload copied blocks with
  | zero => cases hcalls
  | succ calls ih =>
    have hasked : uint64 ((expected : Int) - copied.length) = expected - copied.length := by
      unfold uint64
      omega
    rw [copyContent, if_pos hok, hasked]
    generalize hmissing : expected - copied.length = missing
    rcases Nat.eq_zero_or_pos missing with rfl | hpos
    · rw [InferRequestProvider.getNextInputContent, if_pos rfl, fitting_zero, dropBytes_zero]
      exact (if_pos rfl).mpr ⟨rfl, Nat.le_antisymm hcopied (Nat.sub_eq_zero_iff_le.mp hmissing),
        hleft⟩
    generalize hnext : payload.requestProvider.getNextInputContent inputName missing false = next
    obtain ⟨result, provider⟩ := next
    have hcounts := counts_of_left hleft
    have hblocks := getNextInputContent_blocks missing hcounts hpos.ne' hnext
    rw [blocks_inputData, hleft] at hblocks
    have hbehind := inputData_getNextInputContent hpos.ne' hnext
    rw [hleft] at hbehind
    cases blocks with
    | nil =>
      rw [fitting, List.length_nil, if_neg hpos.ne]
      rcases result with status | _ | content
      · show copied.length ≠ expected
        omega
      · show copied.length ≠ expected
        omega
      · exact absurd rfl (hblocks content)
    | cons block blocks =>
      obtain ⟨rfl, -⟩ := hblocks
      have hfewer := (blocksLeft_getNextInputContent hcounts hnext).1
      dsimp only
      rw [fitting]
      by_cases hle : block.length ≤ missing
      · have hlength : (copied ++ block).length = copied.length + block.length :=
          List.length_append
        have hrest := @ih { payload with status := .ok, requestProvider := provider }
          (copied ++ block) blocks (by show provider.blocksLeft _ < _; omega) rfl (by omega) hbehind
        rw [show expected - (copied ++ block).length = missing - block.length by omega] at hrest
        obtain ⟨missing, rfl⟩ := Nat.exists_eq_succ_of_ne_zero hpos.ne'
        rw [hcheck _ (by omega), if_pos hle, List.length_append]
        by_cases hfit : (fitting (missing.succ - block.length) blocks).length =
            missing.succ - block.length
        · rw [if_pos hfit] at hrest
          rw [if_pos (by omega)]
          exact hrest
        · rw [if_neg hfit] at hrest
          rw [if_neg (by omega)]
          exact hrest
      · rw [if_neg hle, List.length_nil, if_neg hpos.ne]
        split
        · show copied.length ≠ expected
          omega
        · have hmore := @length_copyContent inputName expected check calls
            { payload with status := .ok, requestProvider := provider } (copied ++ block)
          rw [List.length_append] at hmore
          omega

/-- A payload that has not failed copies its bytes without an error if and only if they are a
number of its first blocks, and then these are gone. -/
theorem copyInput_data (hcheck : ∀ size ≤ expected, check size = none)
    (hexpected : expected < 18446744073709551616) (hlawful : payload.requestProvider.Lawful)
    (hok : payload.status.isOk) :
    let result := (copyInput inputName expected check payload).1
    let data := payload.requestProvider.inputData inputName
    (result.status.isOk ↔ (fitting expected (data.blocks expected)).length = expected) ∧
      (result.status.isOk →
        result.requestProvider.inputData inputName = data.dropBytes expected) := by
  cases hdata : payload.requestProvider.inputData inputName with
  | left blocks =>
    have hcopy := @copyContent_left inputName expected check payload
      (payload.requestProvider.blocksLeft inputName + 2) [] blocks hcheck hexpected (by omega) hok
      (Nat.zero_le _) hdata
    rw [List.length_nil, Nat.sub_zero] at hcopy
    unfold copyInput
    generalize copyContent inputName expected check
      (payload.requestProvider.blocksLeft inputName + 2) payload [] = result at hcopy
    obtain ⟨payload', copied⟩ := result
    dsimp only [InputData.blocks, InputData.dropBytes] at hcopy ⊢
    by_cases hfit : (fitting expected blocks).length = expected
    · rw [if_pos hfit] at hcopy
      obtain ⟨hok', hlength, hbehind⟩ := hcopy
      rw [if_neg fun h => h.2 hlength]
      exact ⟨iff_of_true hok' hfit, fun _ => hbehind⟩
    · rw [if_neg hfit] at hcopy
      split
      · exact ⟨iff_of_false Bool.false_ne_true hfit, fun h => absurd h Bool.false_ne_true⟩
      · next hnot =>
        have hfailed : ¬ payload'.status.isOk := fun hok' => hnot ⟨hok', hcopy⟩
        exact ⟨iff_of_false hfailed hfit, fun hok' => absurd hok' hfailed⟩
  | null buf =>
    obtain ⟨hoverride, hnull⟩ := null_of_inputData hdata
    have hlength := hlawful buf hnull
    obtain ⟨hbytes, hok', hprovider⟩ := @copyContent_null inputName expected check payload buf
      (payload.requestProvider.blocksLeft inputName) (hcheck expected le_rfl) hexpected hoverride
      hnull hlength hok
    unfold copyInput
    generalize copyContent inputName expected check
      (payload.requestProvider.blocksLeft inputName + 2) payload [] = result
      at hbytes hok' hprovider
    obtain ⟨payload', copied⟩ := result
    dsimp only [InputData.blocks, InputData.dropBytes] at hbytes hok' hprovider ⊢
    rw [if_neg fun h => h.2 (hbytes ▸ hlength expected)]
    refine ⟨iff_of_true hok' ?_, fun _ => hprovider ▸ hdata⟩
    simp only [fitting, hlength, le_refl, if_true, List.append_nil]

end

/-! ## One input tensor -/

/-- The number of the elements of a string input. -/
def InputTensor.elementCnt (input : InputTensor) (batchSize : Nat) : Nat :=
  batchSize * input.batch1ElementCnt

/-- The number of the bytes of a fixed-size input. -/
def InputTensor.byteSize (input : InputTensor) (batchSize : Nat) : Nat :=
  batchSize * (input.batch1ElementCnt * getDataTypeByteSize input.dataType)

/-- The content is good for the input: it is made up of the strings of a string input, and some of
its first blocks are the bytes of a fixed-size input. -/
def InputTensor.Accepts (input : InputTensor) (batchSize : Nat) (data : InputData) : Prop :=
  if input.dataType = .string then
    input.elementCnt batchSize = 0 ∨
      WellFormed (input.elementCnt batchSize)
        (data.blocks (input.elementCnt batchSize * 4)).flatten
  else
    (fitting (input.byteSize batchSize) (data.blocks (input.byteSize batchSize))).length =
      input.byteSize batchSize

instance (input : InputTensor) (batchSize : Nat) (data : InputData) :
    Decidable (input.Accepts batchSize data) :=
  inferInstanceAs (Decidable (if input.dataType = .string then
    input.elementCnt batchSize = 0 ∨
      WellFormed (input.elementCnt batchSize)
        (data.blocks (input.elementCnt batchSize * 4)).flatten
  else
    (fitting (input.byteSize batchSize) (data.blocks (input.byteSize batchSize))).length =
      input.byteSize batchSize))

/-- What is left of a content when the input has been read. A string input reads everything. -/
def InputTensor.behind (input : InputTensor) (batchSize : Nat) (data : InputData) : InputData :=
  if input.dataType = .string then
    match data with
    | .left blocks => .left (if input.elementCnt batchSize = 0 then blocks else [])
    | .null buf => .null buf
  else data.dropBytes (input.byteSize batchSize)

/-- What an input does to a payload. -/
structure Turn (input : InputTensor) (payload payload' : Payload) : Prop where
  header : payload'.requestProvider.requestHeader = payload.requestProvider.requestHeader
  lawful : payload'.requestProvider.Lawful
  others : ∀ name, name ≠ input.name →
    payload'.requestProvider.inputData name = payload.requestProvider.inputData name
  status : payload'.status.isOk ↔ (input.dataType = .string ∨ payload.status.isOk) ∧
    input.Accepts payload.requestProvider.requestHeader.batchSize
      (payload.requestProvider.inputData input.name)
  data : input.dataType = .string ∨ payload'.status.isOk →
    payload'.requestProvider.inputData input.name =
      input.behind payload.requestProvider.requestHeader.batchSize
        (payload.requestProvider.inputData input.name)

section
variable {input : InputTensor} {payload : Payload} {payloads : List Payload}

/-- A fixed-size input at the place of the payload, which ends in the tensor. -/
theorem turn_fixedSized (hfixed : input.dataType ≠ .string)
    (hlawful : payload.requestProvider.Lawful)
    (hsize : payload.byteSize (input.batch1ElementCnt * getDataTypeByteSize input.dataType) <
      18446744073709551616) {offset : Nat} {flat : Bytes}
    (hplace : offset + payload.byteSize
      (input.batch1ElementCnt * getDataTypeByteSize input.dataType) ≤ flat.length) :
    Turn input payload (setFixedSizedPayload input.name
      (input.batch1ElementCnt * getDataTypeByteSize input.dataType) payload offset flat).1 := by
  have hcheck : ∀ size ≤ payload.byteSize
      (input.batch1ElementCnt * getDataTypeByteSize input.dataType),
      endCheck input.name offset flat size = none := fun size hle =>
    if_neg (by omega)
  constructor
  case header => exact (copyInput_frame _ _ _ payload).1
  case lawful =>
    exact copyInput_provider (fun _ size h => lawful_getNextInputContent h _ size false) hlawful
  case others =>
    intro name hne
    exact copyInput_provider
      (P := fun provider => provider.inputData name = payload.requestProvider.inputData name)
      (fun _ size h => (inputData_getNextInputContent_of_ne hne size false).trans h) rfl
  case status =>
    rw [or_iff_right hfixed]
    unfold InputTensor.Accepts
    rw [if_neg hfixed]
    by_cases hok : payload.status.isOk
    · exact (copyInput_data hcheck hsize hlawful hok).1.trans (and_iff_right hok).symm
    · unfold setFixedSizedPayload
      rw [copyInput_of_failed hok]
      exact iff_of_false hok fun h => hok h.1
  case data =>
    rw [or_iff_right hfixed]
    unfold InputTensor.behind
    rw [if_neg hfixed]
    intro hok'
    by_cases hok : payload.status.isOk
    · exact (copyInput_data hcheck hsize hlawful hok).2 hok'
    · unfold setFixedSizedPayload at hok'
      rw [copyInput_of_failed hok] at hok'
      exact absurd hok' hok

/-- A string input, wherever the payload starts. -/
theorem turn_string (hstring : input.dataType = .string)
    (hlawful : payload.requestProvider.Lawful) (idx : Nat) (tensor : List Bytes) :
    Turn input payload
      (setPayload input.name input.batch1ElementCnt payload idx tensor).1 := by
  have hprovider : (setPayload input.name input.batch1ElementCnt payload idx
      tensor).1.requestProvider = (payload.requestProvider.getNextInputContent input.name
        (payload.elementCnt input.batch1ElementCnt * 4) true).2 := by
    unfold setPayload
    dsimp only
    split
    · next heq => rw [heq]
    · next heq => rw [heq]
  constructor
  case header => rw [hprovider, requestHeader_getNextInputContent]
  case lawful =>
    rw [hprovider]
    exact lawful_getNextInputContent hlawful _ _ true
  case others =>
    intro name hne
    rw [hprovider, inputData_getNextInputContent_of_ne hne]
  case status =>
    rw [setPayload_ok_iff, hasStrings_iff]
    unfold InputTensor.Accepts Payload.delivered
    rw [if_pos hstring, blocks_inputData]
    exact (and_iff_right (.inl hstring)).symm
  case data =>
    intro _
    rw [hprovider]
    unfold InputTensor.behind
    rw [if_pos hstring, show input.elementCnt payload.requestProvider.requestHeader.batchSize =
      payload.elementCnt input.batch1ElementCnt from rfl]
    rcases Nat.eq_zero_or_pos (payload.elementCnt input.batch1ElementCnt) with hzero | hpos
    · rw [hzero, InferRequestProvider.getNextInputContent, if_pos (Nat.zero_mul 4)]
      cases payload.requestProvider.inputData input.name <;> rfl
    · generalize hnext : payload.requestProvider.getNextInputContent input.name
        (payload.elementCnt input.batch1ElementCnt * 4) true = next
      obtain ⟨result, provider⟩ := next
      rw [inputData_getNextInputContent (by omega) hnext]
      simp only [hpos.ne', if_false, if_true]

/-- Every payload has its turn at a fixed-size input. -/
theorem setFixedSizedInputTensor_turns (hfixed : input.dataType ≠ .string)
    (hlawful : ∀ payload ∈ payloads, payload.requestProvider.Lawful)
    (hsize : ∀ payload ∈ payloads, payload.byteSize
      (input.batch1ElementCnt * getDataTypeByteSize input.dataType) < 18446744073709551616)
    {offset : Nat} {flat : Bytes}
    (hplaces : offset + byteSum (input.batch1ElementCnt * getDataTypeByteSize input.dataType)
      payloads ≤ flat.length) :
    List.Forall₂ (Turn input) payloads (setFixedSizedInputTensor input.name
      (input.batch1ElementCnt * getDataTypeByteSize input.dataType) payloads offset flat).1 := by
  induction payloads generalizing offset flat with
  | nil => exact .nil
  | cons payload payloads ih =>
    rw [List.forall_mem_cons] at hlawful hsize
    rw [byteSum_cons] at hplaces
    rw [setFixedSizedInputTensor_cons]
    refine .cons (turn_fixedSized hfixed hlawful.1 hsize.1 (by omega)) (ih hlawful.2 hsize.2 ?_)
    unfold setFixedSizedPayload
    rw [length_overwrite]
    omega

/-- Every payload has its turn at a string input. -/
theorem setPayloads_turns (hstring : input.dataType = .string)
    (hlawful : ∀ payload ∈ payloads, payload.requestProvider.Lawful) (idx : Nat)
    (tensor : List Bytes) :
    List.Forall₂ (Turn input) payloads
      (setPayloads input.name input.batch1ElementCnt payloads idx tensor).1 := by
  induction payloads generalizing idx tensor with
  | nil => exact .nil
  | cons payload payloads ih =>
    rw [List.forall_mem_cons] at hlawful
    rw [setPayloads_cons]
    exact .cons (turn_string hstring hlawful.1 idx tensor) (ih hlawful.2 _ _)

theorem setInput_turns {maxBatchSize : Nat}
    (htotal : maxBatchSize ≠ 0 ∨ totalBatchSize payloads = 1)
    (hlawful : ∀ payload ∈ payloads, payload.requestProvider.Lawful)
    (hsize : input.dataType ≠ .string → ∀ payload ∈ payloads, payload.byteSize
      (input.batch1ElementCnt * getDataTypeByteSize input.dataType) < 18446744073709551616) :
    List.Forall₂ (Turn input) payloads
      (setInput maxBatchSize (totalBatchSize payloads) input payloads).1 := by
  unfold setInput
  by_cases hstring : input.dataType = .string
  · simp only [hstring, ne_eq, not_true, if_false]
    exact setPayloads_turns hstring hlawful _ _
  · simp only [ne_eq, hstring, not_false_eq_true, if_true]
    refine setFixedSizedInputTensor_turns hstring hlawful (hsize hstring) ?_
    rw [List.length_replicate, Nat.zero_add, byteSum_setInput input htotal]

end

/-! ## One input tensor after another -/

/-- What a payload has for the input `name` behind the inputs `seen`, if it has been read by all
that have this name. -/
def Payload.dataBehind (seen : List InputTensor) (name : String) (payload : Payload) : InputData :=
  (seen.filter fun input => input.name = name).foldl
    (fun data input => input.behind payload.requestProvider.requestHeader.batchSize data)
    (payload.requestProvider.inputData name)

/-- The content of the payload for the input `k` is bad: an input accepts what those of its name in
front of it have left. -/
def Payload.BadAt (inputs : List InputTensor) (k : Nat) (payload : Payload) : Prop :=
  ∃ input, inputs[k]? = some input ∧
    ¬ input.Accepts payload.requestProvider.requestHeader.batchSize
      (payload.dataBehind (inputs.take k) input.name)

theorem dataBehind_concat (seen : List InputTensor) (input : InputTensor) (name : String)
    (payload : Payload) :
    payload.dataBehind (seen ++ [input]) name =
      if input.name = name then
        input.behind payload.requestProvider.requestHeader.batchSize
          (payload.dataBehind seen name)
      else payload.dataBehind seen name := by
  unfold Payload.dataBehind
  rw [List.filter_append, List.foldl_append]
  split
  · next heq => rw [List.filter_cons_of_pos (by simpa using heq)]; rfl
  · next hne => rw [List.filter_cons_of_neg (by simpa using hne)]; rfl

/-- A payload behind the first `k` inputs. The contents for string inputs have been read whatever
the status of the payload was. -/
structure Behind (inputs : List InputTensor) (k : Nat) (payload payload' : Payload) : Prop where
  header : payload'.requestProvider.requestHeader = payload.requestProvider.requestHeader
  lawful : payload'.requestProvider.Lawful
  strings : ∀ name, (∀ input ∈ inputs.take k, input.name = name → input.dataType = .string) →
    payload'.requestProvider.inputData name = payload.dataBehind (inputs.take k) name
  good : (∀ j < k, ¬ payload.BadAt inputs j) → payload'.status.isOk ∧
    ∀ name, payload'.requestProvider.inputData name = payload.dataBehind (inputs.take k) name

section
variable {inputs : List InputTensor} {input : InputTensor} {payload payload' payload'' : Payload}
  {k : Nat}

theorem Behind.start (hlawful : payload.requestProvider.Lawful) (hok : payload.status.isOk) :
    Behind inputs 0 payload payload where
  header := rfl
  lawful := hlawful
  strings := fun _ _ => rfl
  good := fun _ => ⟨hok, fun _ => rfl⟩

/-- The input `k` finds what those of its name in front of it have left, if all of them are string
inputs or nothing bad was found. -/
theorem Behind.accepts_iff (h : Behind inputs k payload payload') (hk : inputs[k]? = some input)
    (hdata : payload'.requestProvider.inputData input.name =
      payload.dataBehind (inputs.take k) input.name) :
    input.Accepts payload'.requestProvider.requestHeader.batchSize
        (payload'.requestProvider.inputData input.name) ↔ ¬ payload.BadAt inputs k := by
  rw [h.header, hdata]
  unfold Payload.BadAt
  simp only [hk, Option.some.injEq, exists_eq_left', not_not]

theorem Behind.step (h : Behind inputs k payload payload') (hk : inputs[k]? = some input)
    (hturn : Turn input payload' payload'') : Behind inputs (k + 1) payload payload'' := by
  have htake : inputs.take (k + 1) = inputs.take k ++ [input] := by
    rw [List.take_add_one, hk]
    rfl
  -- the input reads what is there under its name, and nothing else
  have hread {name : String} (hdata : payload'.requestProvider.inputData name =
      payload.dataBehind (inputs.take k) name)
      (hreads : input.name = name → input.dataType = .string ∨ payload''.status.isOk) :
      payload''.requestProvider.inputData name =
        payload.dataBehind (inputs.take (k + 1)) name := by
    rw [htake, dataBehind_concat]
    split
    · next heq =>
      subst heq
      rw [hturn.data (hreads rfl), h.header, hdata]
    · next hne => rw [hturn.others name (Ne.symm hne), hdata]
  constructor
  case header => exact hturn.header.trans h.header
  case lawful => exact hturn.lawful
  case strings =>
    intro name hstrings
    rw [htake, List.forall_mem_append, List.forall_mem_singleton] at hstrings
    exact hread (h.strings name hstrings.1) fun heq => .inl (hstrings.2 heq)
  case good =>
    intro hgood
    obtain ⟨hok, hdata⟩ := h.good fun j hj => hgood j (hj.trans (Nat.lt_succ_self k))
    have hok' : payload''.status.isOk :=
      hturn.status.mpr ⟨.inr hok, (h.accepts_iff hk (hdata _)).mpr (hgood k (Nat.lt_succ_self k))⟩
    exact ⟨hok', fun name => hread (hdata name) fun _ => .inr hok'⟩

end

/-! ## The inputs of a run -/

section
variable {α β γ : Type} {R : α → β → Prop} {S : β → γ → Prop} {T : α → γ → Prop} {xs : List α}
  {ys : List β} {zs : List γ}

theorem forall₂_trans (h : List.Forall₂ R xs ys) (h' : List.Forall₂ S ys zs)
    (htrans : ∀ x y z, R x y → S y z → T x z) : List.Forall₂ T xs zs := by
  induction h generalizing zs with
  | nil =>
    cases h'
    exact .nil
  | cons hxy _ ih =>
    cases h' with
    | cons hyz h' => exact .cons (htrans _ _ _ hxy hyz) (ih h')

end

section
variable {config : ModelConfig} {name : String} {maxBatchSize : Nat}
  {overrides inputs : List InputTensor} {payloads : List Payload}

/-- The inputs of the request have the types of the configuration. -/
theorem dataType_of_mem_requestInputs {ios : List InferInput} {input : InputTensor}
    (h : input ∈ (requestInputs config ios).1) :
    ∃ inputConfig, getInput config input.name = .ok inputConfig ∧
      input.dataType = inputConfig.dataType := by
  induction ios with
  | nil => cases h
  | cons io ios ih =>
    rw [requestInputs] at h
    split at h
    · cases h
    · next inputConfig hconfig =>
      rcases List.mem_cons.mp h with rfl | h
      · exact ⟨inputConfig, hconfig, rfl⟩
      · exact ih h

/-- The inputs that `Run` sets, if there are any. -/
theorem inputsOfRun_eq (h : (inputsOfRun config name maxBatchSize overrides payloads).2 ≠ []) :
    (∀ payload ∈ payloads, payload.status.isOk) ∧
      (maxBatchSize ≠ 0 ∨ totalBatchSize payloads = 1) ∧
      ∃ ios tail, (inputsOfRun config name maxBatchSize overrides payloads).2 =
        (requestInputs config ios).1 ++ tail ∧ tail ⊆ overrides := by
  unfold inputsOfRun at h ⊢
  split at h
  · exact absurd rfl h
  next hok =>
  rw [if_neg hok]
  have hok' : ∀ payload ∈ payloads, payload.status.isOk := by simpa using hok
  dsimp only at h ⊢
  split at h
  · exact absurd rfl h
  next representative hlast =>
  split at h
  · exact absurd rfl h
  next hzero =>
  split at h
  · exact absurd rfl h
  next hsize =>
  rw [if_neg hzero, if_neg hsize]
  refine ⟨hok', by omega, representative.requestProvider.requestHeader.input, ?_⟩
  split
  · exact ⟨overrides, rfl, fun _ h => h⟩
  · exact ⟨[], (List.append_nil _).symm, List.nil_subset _⟩

/-- In front of a string input, all inputs of its name are string inputs. -/
theorem string_of_same_name (hoverrides : ∀ input ∈ overrides, input.dataType ≠ .string)
    {l : Nat} {input : InputTensor}
    (hl : (inputsOfRun config name maxBatchSize overrides payloads).2[l]? = some input)
    (hstring : input.dataType = .string) :
    ∀ input' ∈ (inputsOfRun config name maxBatchSize overrides payloads).2.take l,
      input'.name = input.name → input'.dataType = .string := by
  obtain ⟨-, -, ios, tail, heq, htail⟩ :=
    inputsOfRun_eq (List.ne_nil_of_mem (List.mem_of_getElem? hl))
  rw [heq] at hl ⊢
  have hlt : l < (requestInputs config ios).1.length := by
    by_contra hge
    rw [List.getElem?_append_right (Nat.le_of_not_lt hge)] at hl
    exact hoverrides input (htail (List.mem_of_getElem? hl)) hstring
  rw [List.getElem?_append_left hlt] at hl
  rw [List.take_append_of_le_length hlt.le]
  intro input' hmem hname
  obtain ⟨inputConfig, hconfig, htype⟩ := dataType_of_mem_requestInputs (List.mem_of_getElem? hl)
  obtain ⟨inputConfig', hconfig', htype'⟩ :=
    dataType_of_mem_requestInputs (List.mem_of_mem_take hmem)
  rw [hname, hconfig] at hconfig'
  rw [htype', ← Except.ok.inj hconfig', ← htype, hstring]

/-- The headers of the payloads stay, and so does their total batch size. -/
theorem totalBatchSize_of_behind {k : Nat} {payloads' : List Payload}
    (h : List.Forall₂ (Behind inputs k) payloads payloads') :
    totalBatchSize payloads' = totalBatchSize payloads := by
  unfold totalBatchSize
  refine congrArg List.sum ?_
  rw [← List.forall₂_eq_eq_eq, List.forall₂_map_left_iff, List.forall₂_map_right_iff]
  exact h.flip.imp fun _ _ hbehind => congrArg (·.batchSize) hbehind.header

/-- Every payload has its turn at the input `k`. -/
theorem turns_of_behind {k : Nat} {input : InputTensor} {payloads' : List Payload}
    (h : List.Forall₂ (Behind inputs k) payloads payloads') (hk : inputs[k]? = some input)
    (htotal : maxBatchSize ≠ 0 ∨ totalBatchSize payloads = 1)
    (hsizes : ∀ input ∈ inputs, input.dataType ≠ .string → ∀ payload ∈ payloads,
      payload.byteSize (input.batch1ElementCnt * getDataTypeByteSize input.dataType) <
        18446744073709551616) :
    List.Forall₂ (Turn input) payloads'
      (setInput maxBatchSize (totalBatchSize payloads) input payloads').1 := by
  have hbehind : ∀ payload' ∈ payloads', ∃ payload ∈ payloads,
      Behind inputs k payload payload' := by
    intro payload' hmem
    obtain ⟨i, hi⟩ := List.mem_iff_getElem?.mp hmem
    obtain ⟨-, hnone⟩ | ⟨payload, payload'', hpayload, hi', hpair⟩ := getElem?_of_forall₂ h i
    · exact absurd (hnone.symm.trans hi) nofun
    · obtain rfl := Option.some.inj (hi'.symm.trans hi)
      exact ⟨payload, List.mem_of_getElem? hpayload, hpair⟩
  rw [← totalBatchSize_of_behind h] at htotal ⊢
  refine setInput_turns htotal (fun payload' hmem => ?_) fun hfixed payload' hmem => ?_
  · obtain ⟨payload, -, hpair⟩ := hbehind payload' hmem
    exact hpair.lawful
  · obtain ⟨payload, hpayload, hpair⟩ := hbehind payload' hmem
    unfold Payload.byteSize
    rw [hpair.header]
    exact hsizes input (List.mem_of_getElem? hk) hfixed payload hpayload

/-- Every payload behind the first `k` inputs. -/
theorem behind_afterInputs (hok : ∀ payload ∈ payloads, payload.status.isOk)
    (htotal : maxBatchSize ≠ 0 ∨ totalBatchSize payloads = 1)
    (hlawful : ∀ payload ∈ payloads, payload.requestProvider.Lawful)
    (hsizes : ∀ input ∈ inputs, input.dataType ≠ .string → ∀ payload ∈ payloads,
      payload.byteSize (input.batch1ElementCnt * getDataTypeByteSize input.dataType) <
        18446744073709551616) {k : Nat} (hk : k ≤ inputs.length) :
    List.Forall₂ (Behind inputs k) payloads
      (afterInputs maxBatchSize (totalBatchSize payloads) inputs payloads k) := by
  induction k with
  | zero =>
    exact List.forall₂_same.mpr fun payload hmem =>
      .start (hlawful payload hmem) (hok payload hmem)
  | succ k ih =>
    have hinput : inputs[k]? = some inputs[k] := List.getElem?_eq_getElem hk
    have hbehind := ih (Nat.le_of_succ_le hk)
    have hturns := turns_of_behind hbehind hinput htotal hsizes
    rw [afterInputs_succ hinput]
    refine forall₂_trans hbehind hturns fun _ _ _ h hturn => h.step hinput hturn

end

/-! ## A payload that has failed -/

/-- A payload that fails at an input of the list, or before, is failed behind all later inputs,
the last one included. -/
def FailedStays (maxBatchSize total : Nat) (inputs : List InputTensor) (payloads : List Payload) :
    Prop :=
  ∀ i k l, k ≤ l → l ≤ inputs.length →
    FailedAt (afterInputs maxBatchSize total inputs payloads k) i →
      FailedAt (afterInputs maxBatchSize total inputs payloads l) i

/-- Once the content of a payload for an input is bad, all its later contents for string inputs
are bad. -/
def BadStays (inputs : List InputTensor) (payloads : List Payload) : Prop :=
  ∀ payload ∈ payloads, ∀ k l input, k < l → inputs[l]? = some input → input.dataType = .string →
    payload.BadAt inputs k → payload.BadAt inputs l

/-- A status over the steps `0, …, n`: a string step sets it from what it finds, another step only
keeps it or loses it, and the first bad step is noticed. -/
theorem stays_iff_of_steps {n : Nat} {ok bad string : Nat → Prop} (hzero : ok 0)
    (hstring : ∀ l < n, string l → (ok (l + 1) ↔ ¬ bad l))
    (hfixed : ∀ l < n, ¬ string l → ok (l + 1) → ok l)
    (hfirst : ∀ l < n, (∀ j < l, ¬ bad j) → (ok (l + 1) ↔ ¬ bad l)) :
    (∀ k l, k ≤ l → l ≤ n → ¬ ok k → ¬ ok l) ↔
      ∀ k l, k < l → l < n → string l → bad k → bad l := by
  classical
  constructor
  · intro hstays k l hkl hl hstr hbad
    have hex : ∃ j, bad j := ⟨k, hbad⟩
    have hle : Nat.find hex ≤ k := Nat.find_min' hex hbad
    -- the first bad step fails, and the string step `l` is still behind it
    have hfailed : ¬ ok (Nat.find hex + 1) := fun hok =>
      (hfirst _ (by omega) fun j hj => Nat.find_min hex hj).mp hok (Nat.find_spec hex)
    have hlater := hstays _ (l + 1) (by omega) hl hfailed
    exact not_not.mp fun hgood => hlater ((hstring l hl hstr).mpr hgood)
  · intro hbad
    have hok : ∀ l ≤ n, (ok l ↔ ∀ j < l, ¬ bad j) := by
      intro l hl
      induction l with
      | zero => exact iff_of_true hzero fun j hj => absurd hj (Nat.not_lt_zero j)
      | succ l ih =>
        have ih := ih (Nat.le_of_succ_le hl)
        by_cases hgood : ∀ j < l, ¬ bad j
        · rw [hfirst l hl hgood, Nat.forall_lt_succ_right, and_iff_right hgood]
        · refine iff_of_false (fun hok => ?_) fun hall =>
            hgood fun j hj => hall j (hj.trans (Nat.lt_succ_self l))
          push Not at hgood
          obtain ⟨j, hj, hbadj⟩ := hgood
          by_cases hstr : string l
          · exact (hstring l hl hstr).mp hok (hbad j l hj hl hstr hbadj)
          · exact ih.mp (hfixed l hl hstr hok) j hj hbadj
    intro k l hkl hl hfailed hokl
    exact hfailed ((hok k (hkl.trans hl)).mpr fun j hj => (hok l hl).mp hokl j (hj.trans_le hkl))

section
variable {maxBatchSize total : Nat} {inputs : List InputTensor} {payloads : List Payload}

theorem failedAt_iff {i : Nat} {payload : Payload} (hi : payloads[i]? = some payload) :
    FailedAt payloads i ↔ ¬ payload.status.isOk := by
  unfold FailedAt
  simp only [hi, Option.some.injEq, exists_eq_left']

/-- One payload: what the inputs do to it is what the steps do to the status. -/
theorem failedStays_payload {i : Nat} {payload : Payload} (hi : payloads[i]? = some payload)
    (hok : payload.status.isOk)
    (hbehind : ∀ k ≤ inputs.length,
      List.Forall₂ (Behind inputs k) payloads (afterInputs maxBatchSize total inputs payloads k))
    (hturns : ∀ k input, inputs[k]? = some input → List.Forall₂ (Turn input)
      (afterInputs maxBatchSize total inputs payloads k)
      (afterInputs maxBatchSize total inputs payloads (k + 1)))
    (hsame : ∀ l input, inputs[l]? = some input → input.dataType = .string →
      ∀ input' ∈ inputs.take l, input'.name = input.name → input'.dataType = .string) :
    (∀ k l, k ≤ l → l ≤ inputs.length →
        FailedAt (afterInputs maxBatchSize total inputs payloads k) i →
          FailedAt (afterInputs maxBatchSize total inputs payloads l) i) ↔
      ∀ k l input, k < l → inputs[l]? = some input → input.dataType = .string →
        payload.BadAt inputs k → payload.BadAt inputs l := by
  have hstep : ∀ l input, inputs[l]? = some input → ∃ payload' payload'',
      (FailedAt (afterInputs maxBatchSize total inputs payloads l) i ↔ ¬ payload'.status.isOk) ∧
      (FailedAt (afterInputs maxBatchSize total inputs payloads (l + 1)) i ↔
        ¬ payload''.status.isOk) ∧
      Behind inputs l payload payload' ∧ Turn input payload' payload'' := by
    intro l input hinput
    have hle := (List.getElem?_eq_some_iff.mp hinput).1.le
    obtain ⟨hnone, -⟩ | ⟨_, payload', hpayload, hi', hpair⟩ := getElem?_of_forall₂ (hbehind l hle) i
    · exact absurd (hi.symm.trans hnone) nofun
    obtain rfl := Option.some.inj (hi.symm.trans hpayload)
    obtain ⟨hnone, -⟩ | ⟨_, payload'', hpayload', hi'', hturn⟩ :=
      getElem?_of_forall₂ (hturns l input hinput) i
    · exact absurd (hi'.symm.trans hnone) nofun
    obtain rfl := Option.some.inj (hi'.symm.trans hpayload')
    exact ⟨payload', payload'', failedAt_iff hi', failedAt_iff hi'', hpair, hturn⟩
  have hsteps := @stays_iff_of_steps inputs.length
    (fun l => ¬ FailedAt (afterInputs maxBatchSize total inputs payloads l) i)
    (payload.BadAt inputs) (fun l => ∃ input, inputs[l]? = some input ∧ input.dataType = .string)
    (fun hfailed => (failedAt_iff hi).mp hfailed hok) ?_ ?_ ?_
  · simp only [not_not] at hsteps
    refine hsteps.trans ⟨fun h k l input hkl hl hstr => ?_,
      fun h k l hkl hl ⟨input, hinput, hstr⟩ => h k l input hkl hinput hstr⟩
    exact h k l hkl (List.getElem?_eq_some_iff.mp hl).1 ⟨input, hl, hstr⟩
  · rintro l - ⟨input, hinput, hstr⟩
    obtain ⟨payload', payload'', -, hfailed, hpair, hturn⟩ := hstep l input hinput
    rw [hfailed, not_not, hturn.status, and_iff_right (.inl hstr)]
    exact hpair.accepts_iff hinput (hpair.strings _ (hsame l input hinput hstr))
  · intro l hl hfixed
    have hinput : inputs[l]? = some inputs[l] := List.getElem?_eq_getElem hl
    obtain ⟨payload', payload'', hfailed, hfailed', -, hturn⟩ := hstep l _ hinput
    rw [hfailed, hfailed', not_not, not_not]
    exact fun hok' => (hturn.status.mp hok').1.resolve_left fun hstr => hfixed ⟨_, hinput, hstr⟩
  · intro l hl hgood
    have hinput : inputs[l]? = some inputs[l] := List.getElem?_eq_getElem hl
    obtain ⟨payload', payload'', -, hfailed, hpair, hturn⟩ := hstep l _ hinput
    obtain ⟨hok', hdata⟩ := hpair.good hgood
    rw [hfailed, not_not, hturn.status, and_iff_right (.inr hok')]
    exact hpair.accepts_iff hinput (hdata _)

end

/-- For every run whose overrides are of fixed-size data types: a payload that has failed stays
failed if and only if none of its contents for string inputs is good behind a bad one. -/
theorem failedStays_iff (config : ModelConfig) (name : String) (maxBatchSize : Nat)
    (overrides : List InputTensor) (payloads : List Payload)
    (hoverrides : ∀ input ∈ overrides, input.dataType ≠ .string)
    (hlawful : ∀ payload ∈ payloads, payload.requestProvider.Lawful)
    (hsizes : ∀ input ∈ (inputsOfRun config name maxBatchSize overrides payloads).2,
      input.dataType ≠ .string → ∀ payload ∈ payloads, payload.byteSize
        (input.batch1ElementCnt * getDataTypeByteSize input.dataType) < 18446744073709551616) :
    FailedStays maxBatchSize (totalBatchSize payloads)
        (inputsOfRun config name maxBatchSize overrides payloads).2 payloads ↔
      BadStays (inputsOfRun config name maxBatchSize overrides payloads).2 payloads := by
  rcases eq_or_ne (inputsOfRun config name maxBatchSize overrides payloads).2 [] with hnil | hne
  · rw [hnil]
    refine iff_of_true (fun i k l hkl hl hfailed => ?_) fun _ _ k l input _ hl => nomatch hl
    obtain rfl := Nat.le_zero.mp hl
    rwa [Nat.le_zero.mp hkl] at hfailed
  obtain ⟨hok, htotal, -⟩ := inputsOfRun_eq hne
  have hsame := fun l input => @string_of_same_name config name maxBatchSize overrides payloads
    hoverrides l input
  generalize (inputsOfRun config name maxBatchSize overrides payloads).2 = inputs at hsizes hsame ⊢
  have hbehind : ∀ k ≤ inputs.length, List.Forall₂ (Behind inputs k) payloads
      (afterInputs maxBatchSize (totalBatchSize payloads) inputs payloads k) := fun k hk =>
    behind_afterInputs hok htotal hlawful hsizes hk
  have hturns : ∀ k input, inputs[k]? = some input → List.Forall₂ (Turn input)
      (afterInputs maxBatchSize (totalBatchSize payloads) inputs payloads k)
      (afterInputs maxBatchSize (totalBatchSize payloads) inputs payloads (k + 1)) := by
    intro k input hinput
    rw [afterInputs_succ hinput]
    have hk := (List.getElem?_eq_some_iff.mp hinput).1.le
    exact turns_of_behind (hbehind k hk) hinput htotal hsizes
  constructor
  · intro hstays payload hmem
    obtain ⟨i, hi⟩ := List.mem_iff_getElem?.mp hmem
    exact (failedStays_payload hi (hok payload hmem) hbehind hturns hsame).mp (hstays i)
  · intro hbad i
    cases hi : payloads[i]? with
    | some payload =>
      have hmem := List.mem_of_getElem? hi
      exact (failedStays_payload hi (hok payload hmem) hbehind hturns hsame).mpr (hbad payload hmem)
    | none =>
      rintro k l hkl hl ⟨payload', hi', -⟩
      obtain ⟨-, hnone⟩ | ⟨_, _, hpayload, -⟩ := getElem?_of_forall₂ (hbehind k (hkl.trans hl)) i
      · exact absurd (hi'.symm.trans hnone) nofun
      · exact absurd (hpayload.symm.trans hi) nofun

/-- Then every payload that has failed at an input is completed with an error. -/
theorem run_reports {config : ModelConfig} {name : String} {maxBatchSize : Nat}
    {overrides : List InputTensor} {payloads : List Payload}
    (h : FailedStays maxBatchSize (totalBatchSize payloads)
      (inputsOfRun config name maxBatchSize overrides payloads).2 payloads) {i k : Nat}
    (hk : k ≤ (inputsOfRun config name maxBatchSize overrides payloads).2.length)
    (hfailed : FailedAt (afterInputs maxBatchSize (totalBatchSize payloads)
      (inputsOfRun config name maxBatchSize overrides payloads).2 payloads k) i) :
    ∃ payload, (run config name maxBatchSize overrides payloads).2.1[i]? = some payload ∧
      ¬ (finalStatus (run config name maxBatchSize overrides payloads).1 payload).isOk := by
  obtain ⟨payload, hi, hnot⟩ := h i k _ hk le_rfl hfailed
  refine ⟨payload, ?_, not_isOk_finalStatus hnot _⟩
  rw [← hi, afterInputs, List.take_length]
  rfl

/-- A model with the string inputs `a` and `b`, and without batching. -/
def stringsModel : ModelConfig where
  name := "strings"
  input := [{ name := "a", dataType := .string, dims := [1] },
    { name := "b", dataType := .string, dims := [1] }]

/-- A payload with too few bytes for the input `a`, and with the bytes `content` for the
input `b`. -/
def oneBadInput (content : Bytes) : Payload where
  requestProvider :=
    { requestHeader :=
        { batchSize := 1
          input := [{ name := "a", dims := [1], batchByteSize := 1 },
            { name := "b", dims := [1], batchByteSize := content.length }] }
      data := .inputBuffer
        ((AList.singleton "a" ({ blocks := [[0]] }, 0)).insert "b" ({ blocks := [content] }, 0)) }

/-- The content for `a` is refused, but the payload has an OK status behind `b`. -/
theorem not_failedStays_twoStrings :
    ¬ FailedStays 0 1
      (inputsOfRun stringsModel "strings" 0 [] [oneBadInput [2, 0, 0, 0, 104, 105]]).2
      [oneBadInput [2, 0, 0, 0, 104, 105]] := by
  intro h
  obtain ⟨payload, hi, hnot⟩ := h 0 1 2 (by decide) (by decide) ⟨_, rfl, by decide⟩
  obtain rfl := Option.some.inj hi
  exact hnot (by decide)

/-- The contents for `a` and for `b` are refused. -/
theorem failedStays_twoBadContents :
    FailedStays 0 1 (inputsOfRun stringsModel "strings" 0 [] [oneBadInput [1, 0]]).2
      [oneBadInput [1, 0]] := by
  refine (failedStays_iff stringsModel "strings" 0 [] [oneBadInput [1, 0]] nofun
    (fun payload hmem _ hdata => ?_) (fun input hinput hfixed => ?_)).mpr ?_
  · rw [List.mem_singleton.mp hmem] at hdata
    cases hdata
  · revert input
    decide
  · intro payload hmem k l input hkl hl hstring hbad
    rw [List.mem_singleton.mp hmem]
    have hlt : l < 2 := (List.getElem?_eq_some_iff.mp hl).1
    obtain rfl : l = 1 := by omega
    exact ⟨_, rfl, by decide⟩

end FinBert.Serving
