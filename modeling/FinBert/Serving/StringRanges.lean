import FinBert.Lib.Overwrite
import FinBert.Serving.StringTensor

/-!
# The ranges of a string tensor

`SetStringInputTensor` gives each payload of a batch the range of the tensor behind the ranges
of the payloads in front of it. `SetStringInputTensor` and `ReadStringOutputTensor` are modelled
in `StringTensor`; here the strings that a payload leaves in the tensor are given by what its
content encodes.

Results:
1. `readContent_spec`: what is read from a content is what `decode` reads, with empty strings
   for what is missing.
2. `setPayload_tensor`: a payload overwrites one range of the tensor.
3. `apart_iff`: when every payload has its own range.
-/

namespace FinBert.Serving

open LengthPrefixed

/-! ## What is read from a content -/

/-- The first `cnt` of the strings, with empty ones behind them when there are fewer. -/
def padded (cnt : Nat) (strings : List Bytes) : List Bytes :=
  strings ++ List.replicate (cnt - strings.length) []

theorem length_padded_of_le {cnt : Nat} {strings : List Bytes} (h : strings.length ≤ cnt) :
    (padded cnt strings).length = cnt := by
  rw [padded, List.length_append, List.length_replicate]
  exact Nat.add_sub_of_le h

theorem padded_of_length {cnt : Nat} {strings : List Bytes} (h : strings.length = cnt) :
    padded cnt strings = strings := by
  rw [padded, h, Nat.sub_self, List.replicate_zero, List.append_nil]

/-- The content is made up of `cnt` strings; a rest of fewer than four bytes is not read. -/
def WellFormed (cnt : Nat) (content : Bytes) : Prop :=
  (decode cnt content).1.length = cnt ∧ (decode cnt content).2.length < 4

instance (cnt : Nat) (content : Bytes) : Decidable (WellFormed cnt content) :=
  inferInstanceAs (Decidable (_ ∧ _))

section
variable {inputName : String} {idx expected : Nat} {tensor tensor' : List Bytes}

theorem fillStringTensor_eq (tensor : List Bytes) (idx cnt : Nat) :
    fillStringTensor tensor idx cnt = overwrite tensor idx (List.replicate cnt []) := by
  unfold fillStringTensor
  induction cnt with
  | zero => rfl
  | succ cnt ih =>
    rw [List.range_succ, List.foldl_append, ih, List.replicate_succ', overwrite_append,
      List.length_replicate]
    rfl

/-- The loop over a content reads what `decode` reads. -/
theorem parseStrings_spec {remaining elementIdx elementIdx' : Nat} {content : Bytes}
    {status : Status} (hsum : elementIdx + remaining = expected)
    (h : parseStrings inputName idx expected remaining elementIdx content tensor =
      (status, tensor', elementIdx')) :
    elementIdx' = elementIdx + (decode remaining content).1.length ∧
      (status.isOk ↔ (decode remaining content).2.length < 4) ∧
      (status.isOk → tensor' =
        overwrite tensor (idx + elementIdx) (decode remaining content).1) ∧
      (¬ status.isOk → tensor' = overwrite tensor (idx + elementIdx)
        (padded remaining (decode remaining content).1)) := by
  induction remaining generalizing elementIdx content tensor with
  | zero =>
    rw [decode_zero]
    unfold parseStrings at h
    split at h
    · next hlen =>
      cases h
      refine ⟨rfl, iff_of_false Bool.false_ne_true (Nat.not_lt.mpr hlen),
        fun hok => absurd hok Bool.false_ne_true, fun _ => rfl⟩
    · next hlen =>
      cases h
      exact ⟨rfl, iff_of_true rfl (Nat.not_le.mp hlen), fun _ => rfl, fun hnot => absurd rfl hnot⟩
  | succ remaining ih =>
    rcases content with _ | ⟨b₀, _ | ⟨b₁, _ | ⟨b₂, _ | ⟨b₃, content⟩⟩⟩⟩
    -- less than the four bytes of a length
    iterate 4
      cases h
      rw [decode_of_short _ (by simp)]
      exact ⟨rfl, iff_of_true rfl (by simp), fun _ => rfl, fun hnot => absurd rfl hnot⟩
    simp only [parseStrings] at h
    rw [decode]
    split at h
    · next hlen =>
      cases h
      rw [if_pos hlen]
      refine ⟨rfl, iff_of_false Bool.false_ne_true ?_,
        fun hok => absurd hok Bool.false_ne_true, fun _ => ?_⟩
      · simp only [List.length_cons]
        omega
      · rw [fillStringTensor_eq, show expected - elementIdx' = remaining + 1 by omega]
        rfl
    · next hlen =>
      rw [if_neg hlen]
      obtain ⟨hidx, hok, htensor, hfill⟩ := ih (by omega) h
      refine ⟨?_, hok, fun hstatus => ?_, fun hstatus => ?_⟩
      · rw [hidx, List.length_cons]
        omega
      · rw [htensor hstatus, overwrite, Nat.add_assoc]
      · rw [hfill hstatus, padded, padded, List.length_cons, Nat.add_sub_add_right,
          List.cons_append, overwrite, Nat.add_assoc]

/-- What is read from a content, with empty strings for what is missing. -/
theorem readContent_spec {content : Bytes} {status : Status}
    (h : readContent inputName idx expected content tensor = (status, tensor')) :
    (status.isOk ↔ WellFormed expected content) ∧
      tensor' = overwrite tensor idx (padded expected (decode expected content).1) := by
  unfold readContent at h
  generalize hparse : parseStrings inputName idx expected expected 0 content tensor = result at h
  obtain ⟨status', tensor'', elementIdx⟩ := result
  obtain ⟨hidx, hok, htensor, hfill⟩ := parseStrings_spec (Nat.zero_add expected) hparse
  rw [Nat.zero_add] at hidx
  simp only at h
  unfold WellFormed
  split at h
  · next hfew =>
    cases h
    rw [htensor hfew.1, fillStringTensor_eq, padded, overwrite_append, hidx]
    exact ⟨iff_of_false Bool.false_ne_true fun hwell => hfew.2 (hidx.trans hwell.1), rfl⟩
  · next hfew =>
    cases h
    rcases Bool.eq_false_or_eq_true status.isOk with hstatus | hstatus
    · have hall : elementIdx = expected := by_contra fun hne => hfew ⟨hstatus, hne⟩
      refine ⟨iff_of_true hstatus ⟨hidx.symm.trans hall, hok.mp hstatus⟩, ?_⟩
      rw [htensor hstatus, padded, ← hidx, hall, Nat.sub_self, List.replicate_zero,
        List.append_nil]
      rfl
    · have hnot : ¬ status.isOk := by
        rw [hstatus]
        exact Bool.false_ne_true
      exact ⟨iff_of_false hnot fun hwell => hnot (hok.mpr hwell.2), hfill hnot⟩

end

/-! ## What a payload writes -/

section
variable {inputName : String} {batch1ElementCnt idx : Nat} {payload : Payload}
  {payloads : List Payload} {tensor : List Bytes}

/-- The strings of a payload: the ones that its content encodes, at most as many as it has
elements, and empty ones for the elements that are missing. -/
def Payload.strings (inputName : String) (batch1ElementCnt : Nat) (payload : Payload) :
    List Bytes :=
  let expected := payload.elementCnt batch1ElementCnt
  match payload.requestProvider.getNextInputContent inputName (expected * 4) true with
  | (.error _, _) => List.replicate expected []
  | (.ok content, _) => padded expected (decode expected (content.getD [])).1

@[simp] theorem Payload.length_strings (inputName : String) (batch1ElementCnt : Nat)
    (payload : Payload) :
    (payload.strings inputName batch1ElementCnt).length = payload.elementCnt batch1ElementCnt := by
  unfold Payload.strings
  simp only
  split
  · exact List.length_replicate
  · exact length_padded_of_le (length_decode_le _ _)

/-- A payload overwrites one range of the tensor. -/
theorem setPayload_tensor (inputName : String) (batch1ElementCnt : Nat) (payload : Payload)
    (idx : Nat) (tensor : List Bytes) :
    (setPayload inputName batch1ElementCnt payload idx tensor).2.2 =
      overwrite tensor idx (payload.strings inputName batch1ElementCnt) := by
  unfold setPayload Payload.strings
  simp only
  generalize payload.requestProvider.getNextInputContent inputName
    (payload.elementCnt batch1ElementCnt * 4) true = result
  obtain ⟨_ | content, provider⟩ := result
  · exact fillStringTensor_eq tensor idx _
  · exact (readContent_spec rfl).2

/-- The payload sets the element `j` of the tensor, when it starts at the index `idx`: behind the
body of the loop, the element is the same whatever it was before. -/
def Payload.Sets (inputName : String) (batch1ElementCnt : Nat) (payload : Payload) (idx j : Nat) :
    Prop :=
  ∀ tensor tensor' : List Bytes, j < tensor.length → tensor'.length = tensor.length →
    (setPayload inputName batch1ElementCnt payload idx tensor').2.2[j]? =
      (setPayload inputName batch1ElementCnt payload idx tensor).2.2[j]?

theorem Payload.sets_iff {j : Nat} : payload.Sets inputName batch1ElementCnt idx j ↔
    idx ≤ j ∧ j < idx + payload.elementCnt batch1ElementCnt := by
  have hlength := payload.length_strings inputName batch1ElementCnt
  constructor
  · intro h
    by_contra hout
    -- outside of its range, a payload leaves both tensors as they are
    have heq := h (List.replicate (j + 1) []) (List.replicate (j + 1) [0]) (by simp) (by simp)
    rw [setPayload_tensor, setPayload_tensor, getElem?_overwrite_of_outside (by omega),
      getElem?_overwrite_of_outside (by omega)] at heq
    simp at heq
  · rintro ⟨hle, hlt⟩ tensor tensor' hj hsize
    obtain ⟨k, rfl⟩ := Nat.exists_eq_add_of_le hle
    rw [setPayload_tensor, setPayload_tensor, getElem?_overwrite_inside (by omega) (by omega),
      getElem?_overwrite_inside (by omega) hj]

/-! ## The ranges -/

theorem eq_take_append_drop {i : Nat} (h : payloads[i]? = some payload) :
    payloads = payloads.take i ++ payload :: payloads.drop (i + 1) := by
  obtain ⟨hi, rfl⟩ := List.getElem?_eq_some_iff.mp h
  rw [List.getElem_cons_drop, List.take_append_drop]

/-- The range of a payload ends where the one of the next payload begins. -/
theorem elementSum_take_succ (batch1ElementCnt : Nat) {i : Nat}
    (h : payloads[i]? = some payload) :
    elementSum batch1ElementCnt (payloads.take (i + 1)) =
      elementSum batch1ElementCnt (payloads.take i) + payload.elementCnt batch1ElementCnt := by
  rw [List.take_add_one, h, elementSum_append]
  rfl

theorem elementSum_take_mono (batch1ElementCnt : Nat) (payloads : List Payload) {i i' : Nat}
    (h : i ≤ i') : elementSum batch1ElementCnt (payloads.take i) ≤
      elementSum batch1ElementCnt (payloads.take i') := by
  obtain ⟨k, rfl⟩ := Nat.exists_eq_add_of_le h
  rw [List.take_add, elementSum_append]
  exact Nat.le_add_right _ _

theorem elementSum_take_add_drop (batch1ElementCnt : Nat) (payloads : List Payload) (i : Nat) :
    elementSum batch1ElementCnt (payloads.take i) +
      elementSum batch1ElementCnt (payloads.drop i) = elementSum batch1ElementCnt payloads := by
  rw [← elementSum_append, List.take_append_drop]

/-- The index of the tensor at which the payload `i` starts. -/
def startIdx (inputName : String) (batch1ElementCnt : Nat) (payloads : List Payload)
    (tensor : List Bytes) (i : Nat) : Nat :=
  (setPayloads inputName batch1ElementCnt (payloads.take i) 0 tensor).2.1

/-- Every payload has its own range of the tensor: its strings are there, the results are read
from there, and every element of the tensor is set by exactly one payload. -/
structure Apart (inputName : String) (batch1ElementCnt : Nat) (payloads : List Payload)
    (tensor : List Bytes) : Prop where
  strings : ∀ i payload, payloads[i]? = some payload →
    ((setStringInputTensor inputName batch1ElementCnt payloads tensor).2.drop
      (elementSum batch1ElementCnt (payloads.take i))).take
        (payload.elementCnt batch1ElementCnt) = payload.strings inputName batch1ElementCnt
  results : ∀ (outputName : String) (shape : List Int) (output : List Bytes) i payload,
    payloads[i]? = some payload →
      (readStringOutputTensor outputName shape batch1ElementCnt output 0 payloads)[i]? =
        some (readPayload outputName shape batch1ElementCnt output
          (elementSum batch1ElementCnt (payloads.take i)) payload)
  once : ∀ j < tensor.length, ∃! i, ∃ payload : Payload, payloads[i]? = some payload ∧
    payload.Sets inputName batch1ElementCnt
      (startIdx inputName batch1ElementCnt payloads tensor i) j

/-- Every payload with elements behind it supplies the input. -/
def AllSupply (inputName : String) (batch1ElementCnt : Nat) (payloads : List Payload) : Prop :=
  ∀ i payload, payloads[i]? = some payload →
    payload.Supplies inputName batch1ElementCnt ∨
      elementSum batch1ElementCnt (payloads.drop (i + 1)) = 0

/-- With elements behind it, a payload starts behind the ranges of the payloads in front. -/
theorem startIdx_of_allSupply (h : AllSupply inputName batch1ElementCnt payloads)
    (tensor : List Bytes) {i : Nat} (hi : payloads[i]? = some payload)
    (hsize : payload.elementCnt batch1ElementCnt ≠ 0) :
    startIdx inputName batch1ElementCnt payloads tensor i =
      elementSum batch1ElementCnt (payloads.take i) := by
  unfold startIdx
  rw [setPayloads_idx, Nat.zero_add]
  intro payload' hmem
  obtain ⟨i', hi'⟩ := List.mem_iff_getElem?.mp hmem
  have hlt : i' < i := by
    have hlength := (List.getElem?_eq_some_iff.mp hi').1
    rw [List.length_take] at hlength
    omega
  rw [List.getElem?_take_of_lt hlt] at hi'
  refine (h i' payload' hi').resolve_right fun hzero => hsize ?_
  -- the payload is one of those behind `payload'`
  have hmono := elementSum_take_mono batch1ElementCnt payloads (show _ + 1 ≤ _ from hlt)
  have htake := elementSum_take_succ batch1ElementCnt hi
  have hdrop := elementSum_take_add_drop batch1ElementCnt payloads (i' + 1)
  have hdrop' := elementSum_take_add_drop batch1ElementCnt payloads (i + 1)
  omega

/-- Payloads do not write behind the end of the last range. -/
theorem startIdx_le (inputName : String) (batch1ElementCnt : Nat) (payloads : List Payload)
    (tensor : List Bytes) (i : Nat) :
    startIdx inputName batch1ElementCnt payloads tensor i ≤
      elementSum batch1ElementCnt (payloads.take i) := by
  have hle := setPayloads_idx_le inputName batch1ElementCnt (payloads.take i) 0 tensor
  rwa [Nat.zero_add] at hle

/-- Payloads without elements write nothing. -/
theorem setPayloads_of_elementSum_eq_zero (h : elementSum batch1ElementCnt payloads = 0)
    (idx : Nat) (tensor : List Bytes) :
    (setPayloads inputName batch1ElementCnt payloads idx tensor).2.2 = tensor := by
  induction payloads generalizing idx tensor with
  | nil => rfl
  | cons payload payloads ih =>
    rw [elementSum_cons] at h
    have hstrings : payload.strings inputName batch1ElementCnt = [] :=
      List.eq_nil_of_length_eq_zero (by rw [Payload.length_strings]; omega)
    rw [setPayloads_cons]
    simp only [ih (by omega), setPayload_tensor, hstrings]
    rfl

/-- With elements behind it, a payload leaves its strings at its own range. -/
theorem strings_of_allSupply (h : AllSupply inputName batch1ElementCnt payloads)
    (htensor : tensor.length = elementSum batch1ElementCnt payloads) {i : Nat}
    (hi : payloads[i]? = some payload) :
    ((setStringInputTensor inputName batch1ElementCnt payloads tensor).2.drop
      (elementSum batch1ElementCnt (payloads.take i))).take
        (payload.elementCnt batch1ElementCnt) = payload.strings inputName batch1ElementCnt := by
  have hlength := payload.length_strings inputName batch1ElementCnt
  rcases eq_or_ne (payload.elementCnt batch1ElementCnt) 0 with hzero | hsize
  · rw [hzero, List.take_zero, List.eq_nil_of_length_eq_zero (hlength.trans hzero)]
  have hstart := startIdx_of_allSupply h tensor hi hsize
  have htake := elementSum_take_succ batch1ElementCnt hi
  have hsum := elementSum_take_add_drop batch1ElementCnt payloads (i + 1)
  -- the tensor behind the payloads in front, and behind the payload
  have hfront := (setPayloads_sameAt inputName batch1ElementCnt (payloads.take i) 0 tensor).length
  generalize hpre : setPayloads inputName batch1ElementCnt (payloads.take i) 0 tensor = pre
    at hfront
  obtain ⟨payloads', idx, tensor'⟩ := pre
  have hidx : idx = elementSum batch1ElementCnt (payloads.take i) := by
    rw [← hstart, startIdx, hpre]
  have hrange : idx + (payload.strings inputName batch1ElementCnt).length ≤ tensor'.length := by
    rw [hlength, hfront, htensor]
    omega
  have hresult : (setStringInputTensor inputName batch1ElementCnt payloads tensor).2 =
      (setPayloads inputName batch1ElementCnt (payloads.drop (i + 1))
        (setPayload inputName batch1ElementCnt payload idx tensor').2.1
        (overwrite tensor' idx (payload.strings inputName batch1ElementCnt))).2.2 := by
    rw [← setPayload_tensor, setStringInputTensor]
    conv_lhs => rw [eq_take_append_drop hi, setPayloads_append, hpre]
    rfl
  refine (range_eq_iff hlength).mpr fun j hj => ?_
  rw [hresult, ← hidx]
  rcases h i payload hi with hsupplies | hlast
  · rw [setPayload_idx hsupplies, (setPayloads_sameAt inputName batch1ElementCnt _ _ _).same _
      (by omega), getElem?_overwrite_inside (by omega) (by omega)]
  · rw [setPayloads_of_elementSum_eq_zero hlast,
      getElem?_overwrite_inside (by omega) (by omega)]

/-- Every index of the tensor is in the range of a payload. -/
theorem exists_range {j : Nat} (hj : j < elementSum batch1ElementCnt payloads) :
    ∃ i payload, payloads[i]? = some payload ∧
      elementSum batch1ElementCnt (payloads.take i) ≤ j ∧
      j < elementSum batch1ElementCnt (payloads.take i) + payload.elementCnt batch1ElementCnt := by
  induction payloads generalizing j with
  | nil => cases hj
  | cons payload payloads ih =>
    rw [elementSum_cons] at hj
    rcases Nat.lt_or_ge j (payload.elementCnt batch1ElementCnt) with hlt | hge
    · exact ⟨0, payload, rfl, Nat.zero_le j, by
        rw [List.take_zero]
        exact lt_of_lt_of_eq hlt (Nat.zero_add _).symm⟩
    · obtain ⟨i, payload', hi, hle, hlt⟩ :=
        ih (show j - payload.elementCnt batch1ElementCnt < _ by omega)
      refine ⟨i + 1, payload', by rwa [List.getElem?_cons_succ], ?_, ?_⟩
      · rw [List.take_succ_cons, elementSum_cons]
        omega
      · rw [List.take_succ_cons, elementSum_cons]
        omega

theorem apart_of_allSupply (h : AllSupply inputName batch1ElementCnt payloads)
    (htensor : tensor.length = elementSum batch1ElementCnt payloads) :
    Apart inputName batch1ElementCnt payloads tensor where
  strings i payload hi := strings_of_allSupply h htensor hi
  results outputName shape output i payload hi := by
    have hread : (readStringOutputTensor outputName shape batch1ElementCnt output 0
        (payloads.take i ++ payload :: payloads.drop (i + 1)))[(payloads.take i).length]? = _ :=
      readStringOutputTensor_getElem? outputName shape output 0
    have hlength : (payloads.take i).length = i :=
      List.length_take_of_le (List.getElem?_eq_some_iff.mp hi).1.le
    rwa [← eq_take_append_drop hi, hlength, Nat.zero_add] at hread
  once j hj := by
    rw [htensor] at hj
    obtain ⟨i, payload, hi, hle, hlt⟩ := exists_range hj
    refine ⟨i, ⟨payload, hi, Payload.sets_iff.mpr ?_⟩, ?_⟩
    · rw [startIdx_of_allSupply h tensor hi (by omega)]
      exact ⟨hle, hlt⟩
    · rintro i' ⟨payload', hi', hsets⟩
      obtain ⟨hle', hlt'⟩ := Payload.sets_iff.mp hsets
      have hsize' : payload'.elementCnt batch1ElementCnt ≠ 0 := by omega
      rw [startIdx_of_allSupply h tensor hi' hsize'] at hle' hlt'
      have htake := elementSum_take_succ batch1ElementCnt hi
      have htake' := elementSum_take_succ batch1ElementCnt hi'
      -- the ranges of two payloads do not overlap
      rcases Nat.lt_trichotomy i' i with hlt | heq | hgt
      · have hmono := elementSum_take_mono batch1ElementCnt payloads (show _ + 1 ≤ _ from hlt)
        omega
      · exact heq
      · have hmono := elementSum_take_mono batch1ElementCnt payloads (show _ + 1 ≤ _ from hgt)
        omega

/-- When a payload with elements behind it does not supply the input, no payload sets the last
element of the tensor. -/
theorem allSupply_of_apart (htensor : tensor.length = elementSum batch1ElementCnt payloads)
    (h : Apart inputName batch1ElementCnt payloads tensor) :
    AllSupply inputName batch1ElementCnt payloads := by
  intro i payload hi
  by_contra hnot
  rw [not_or] at hnot
  obtain ⟨hsupplies, hbehind⟩ := hnot
  have hsum := elementSum_take_add_drop batch1ElementCnt payloads (i + 1)
  obtain ⟨i', ⟨payload', hi', hsets⟩, -⟩ := h.once (tensor.length - 1) (by omega)
  obtain ⟨hle, hlt⟩ := Payload.sets_iff.mp hsets
  have hstart := startIdx_le inputName batch1ElementCnt payloads tensor i'
  have htake' := elementSum_take_succ batch1ElementCnt hi'
  have hsum' := elementSum_take_add_drop batch1ElementCnt payloads (i' + 1)
  rcases Nat.lt_or_ge i i' with hfront | hback
  · -- the payload that sets it starts too early
    have hmem : payload ∈ payloads.take i' :=
      List.mem_iff_getElem?.mpr ⟨i, by rwa [List.getElem?_take_of_lt hfront]⟩
    have hearly := setPayloads_idx_lt hmem hsupplies 0 tensor
    rw [Nat.zero_add] at hearly
    unfold startIdx at hle hlt
    omega
  · have hmono := elementSum_take_mono batch1ElementCnt payloads (Nat.add_le_add_right hback 1)
    omega

/-- Every payload has its own range if and only if every payload with elements behind it supplies
the input. -/
theorem apart_iff (inputName : String) (batch1ElementCnt : Nat) (payloads : List Payload)
    (tensor : List Bytes) (htensor : tensor.length = elementSum batch1ElementCnt payloads) :
    Apart inputName batch1ElementCnt payloads tensor ↔
      AllSupply inputName batch1ElementCnt payloads :=
  ⟨allSupply_of_apart htensor, fun h => apart_of_allSupply h htensor⟩

/-- A batch of two payloads that both supply the input, the second one with too few bytes. -/
theorem apart_twoPayloads :
    Apart "b" 1 [.deliver 1 "b" [[104, 105]], .deliver 1 "b" []] [[], []] := by
  refine (apart_iff "b" 1 _ [[], []] rfl).mpr fun i payload hi => .inl (.inr (.inr ?_))
  match i, hi with
  | 0, rfl => exact List.mem_cons_self
  | 1, rfl => exact List.mem_cons_self

/-- The first payload of the batch has no data for the input: the string of the second one is in
the range of the first. -/
theorem not_apart_withoutInput :
    ¬ Apart "b" 1 [withoutInput, .deliver 1 "b" [[104, 105]]] [[], []] := by
  intro h
  have hstrings := h.strings 1 _ rfl
  revert hstrings
  decide

end

end FinBert.Serving
