import FinBert.Serving.InputCopy
import FinBert.Serving.StringRanges

/-!
# String inputs of an ONNX model

`OnnxBackend::Context::SetInputTensor` (`onnx_backend.cc`) copies the contents of the payloads of
a batch into one buffer and passes the strings to the runtime as C strings: a string ends where a
zero is written over the first byte of the next length. The sizes come from the headers of the
payloads; a payload whose header does not name the input adds none, so that the sizes behind it
belong to the wrong payloads and the last payloads are not visited. The bytes of the buffer that
no payload writes are arbitrary (`fresh`).

Results:
1. `setStringInputBuffer_spec`: the buffer and the pointers behind the loop over the payloads.
2. `setInputTensor_spec`: the statuses and the C strings of all payloads.
3. `separate_iff`: when the C strings of a payload are the strings of its own content.
-/

namespace FinBert.Serving

open LengthPrefixed

/-! ## `SetInputTensor` -/

/-- The size that the header of a payload gives for the input, if it names the input. -/
def Payload.batchByteSize? (inputName : String) (payload : Payload) : Option Nat :=
  (payload.requestProvider.requestHeader.input.find? (·.name = inputName)).map (·.batchByteSize)

/-- The loop that fills `expected_byte_sizes`, behind the sizes that it holds already, and
`total_byte_size`. A payload whose header does not name the input adds no size, and the last size
counts once more in the total; without any size, `back` of the empty vector is undefined. -/
def expectedByteSizes (inputName : String) :
    List Payload → List Nat → Nat → Option (List Nat × Nat)
  | [], sizes, total => some (sizes, total)
  | payload :: payloads, sizes, total =>
    let sizes := sizes ++ (payload.batchByteSize? inputName).toList
    match sizes.getLast? with
    | none => none
    | some back => expectedByteSizes inputName payloads sizes (total + back)

/-- A payload that the loops below visit, with the elements of `expected_byte_sizes` and
`expected_element_cnts` at its index. -/
structure BatchEntry where
  payload : Payload
  expectedByteSize : Nat
  expectedElementCnt : Nat

/-- The payloads that are visited: as many as there are sizes, the size of another payload
included. -/
def batchEntries (batch1ElementCnt : Nat) (payloads : List Payload) (sizes : List Nat) :
    List BatchEntry :=
  List.zipWith (fun payload size =>
    { payload := payload, expectedByteSize := size,
      expectedElementCnt := payload.elementCnt batch1ElementCnt }) payloads sizes

/-- What the payload of an entry copies for the input. -/
def BatchEntry.copy (inputName : String) (entry : BatchEntry) : Payload × Bytes :=
  copyInput inputName entry.expectedByteSize (fun size =>
    if size > entry.expectedByteSize then
      some { code := .invalidArg,
             message := "unexpected size " ++ toString size ++ " for inference input '" ++
               inputName ++ "', expecting " ++ toString entry.expectedByteSize }
    else none) entry.payload

/-- `SetInputBuffer`, from the entry on whose place begins at `bufferCopyOffset`. -/
def setInputBuffer (inputName : String) :
    List BatchEntry → Nat → Bytes → List BatchEntry × Bytes
  | [], _, inputBuffer => ([], inputBuffer)
  | entry :: entries, bufferCopyOffset, inputBuffer =>
    let (payload, copied) := entry.copy inputName
    let (entries, inputBuffer) := setInputBuffer inputName entries
      (bufferCopyOffset + entry.expectedByteSize) (overwrite inputBuffer bufferCopyOffset copied)
    ({ entry with payload := payload } :: entries, inputBuffer)

/-- A `const char*` of `string_data`: a place of the input buffer, or the static empty string. -/
inductive CharPtr
  | buffer (offset : Nat)
  | empty
deriving DecidableEq

/-- The C string of a pointer: the bytes up to the first zero. -/
def CharPtr.cString (inputBuffer : Bytes) : CharPtr → Bytes
  | .buffer offset => (inputBuffer.drop offset).takeWhile (· ≠ 0)
  | .empty => []

/-- The loop over the bytes of a payload from `dataContent` on, which may still hold `remaining`
elements: the status, the pointers, and the buffer. -/
def terminateStrings (inputName : String) (expected : Nat) :
    Nat → Nat → Nat → Nat → Bytes → Status × List CharPtr × Bytes
  | 0, elementCnt, _, remainingBytes, inputBuffer =>
    if remainingBytes ≥ 4 then
      ({ code := .invalidArg,
         message := "unexpected number of string elements " ++ toString (elementCnt + 1) ++
           " for inference input '" ++ inputName ++ "', expecting " ++ toString expected },
        [], inputBuffer)
    else (.ok, [], inputBuffer)
  | remaining + 1, elementCnt, dataContent, remainingBytes, inputBuffer =>
    if remainingBytes ≥ 4 then
      let len := wordAt inputBuffer dataContent
      let inputBuffer := inputBuffer.set dataContent 0
      if len > remainingBytes - 4 then
        ({ code := .invalidArg,
           message := "incomplete string data for inference input '" ++ inputName ++
             "', expecting string of length " ++ toString len ++ " but only " ++
             toString (remainingBytes - 4) ++ " bytes available" }, [], inputBuffer)
      else
        let (status, stringData, inputBuffer) := terminateStrings inputName expected remaining
          (elementCnt + 1) (dataContent + 4 + len) (remainingBytes - 4 - len) inputBuffer
        (status, .buffer (dataContent + 4) :: stringData, inputBuffer)
    else (.ok, [], inputBuffer)

/-- `FillStringData`, behind the pointers that a payload has pushed. -/
def fillStringData (stringData : List CharPtr) (cnt : Nat) : List CharPtr :=
  stringData ++ List.replicate cnt .empty

/-- `SetStringInputBuffer`, from the entry on whose place begins at `bufferCopyOffset`. The
pointers of the payloads are in a list each; `string_data` holds them one behind the other. -/
def setStringInputBuffer (inputName : String) :
    List BatchEntry → Nat → Bytes → List Payload × List (List CharPtr) × Bytes
  | [], _, inputBuffer => ([], [], inputBuffer)
  | entry :: entries, bufferCopyOffset, inputBuffer =>
    let (status, stringData, inputBuffer) :=
      if entry.payload.status.isOk then
        terminateStrings inputName entry.expectedElementCnt entry.expectedElementCnt 0
          bufferCopyOffset entry.expectedByteSize inputBuffer
      else (entry.payload.status, [], inputBuffer)
    let filled := fillStringData stringData (entry.expectedElementCnt - stringData.length)
    let (payloads, stringDatas, inputBuffer) := setStringInputBuffer inputName entries
      (bufferCopyOffset + entry.expectedByteSize) inputBuffer
    ({ entry.payload with status := status } :: payloads, filled :: stringDatas, inputBuffer)

/-- The part of `SetInputTensor` that fills the buffer, which is `fresh` at first, with the zero
at its end. -/
def setStringBuffer (inputName : String) (entries : List BatchEntry) (total : Nat)
    (fresh : Bytes) : List Payload × List (List CharPtr) × Bytes :=
  let (entries, inputBuffer) := setInputBuffer inputName entries 0 fresh
  let (payloads, stringDatas, inputBuffer) := setStringInputBuffer inputName entries 0 inputBuffer
  (payloads, stringDatas, inputBuffer.set total 0)

/-- `SetInputTensor` for a string input: the payloads, and the C strings that the runtime gets for
each of them, of which there are none for a payload that is not visited. -/
def setInputTensor (inputName : String) (batch1ElementCnt : Nat) (payloads : List Payload)
    (fresh : Bytes) : Option (List Payload × List (List Bytes)) :=
  match expectedByteSizes inputName payloads [] 0 with
  | none => none
  | some (sizes, total) =>
    let (visited, stringDatas, inputBuffer) :=
      setStringBuffer inputName (batchEntries batch1ElementCnt payloads sizes) total fresh
    let unvisited := payloads.drop visited.length
    some (visited ++ unvisited,
      stringDatas.map (fun stringData => stringData.map (·.cString inputBuffer)) ++
        unvisited.map fun _ => [])

/-! ## The bytes of one payload -/

/-- The bytes of a payload with a zero over the first byte of every length that is read. -/
def marked : Nat → Bytes → Bytes
  | n + 1, b₀ :: b₁ :: b₂ :: b₃ :: bytes =>
    if bytes.length < ofBytes b₀ b₁ b₂ b₃ then 0 :: b₁ :: b₂ :: b₃ :: bytes
    else
      0 :: b₁ :: b₂ :: b₃ :: (bytes.take (ofBytes b₀ b₁ b₂ b₃) ++
        marked n (bytes.drop (ofBytes b₀ b₁ b₂ b₃)))
  | _, bytes => bytes

@[simp] theorem length_marked (n : Nat) (bytes : Bytes) :
    (marked n bytes).length = bytes.length := by
  fun_induction marked n bytes with
  | case1 => rfl
  | case2 n b₀ b₁ b₂ b₃ bytes hlen ih =>
    simp only [List.length_cons, List.length_append, ih, List.length_take, List.length_drop]
    omega
  | case3 => rfl

/-- The C strings that begin behind the lengths of a payload, with the bytes `behind` it. -/
def stringsBefore (behind : Bytes) : Nat → Bytes → List Bytes
  | n + 1, b₀ :: b₁ :: b₂ :: b₃ :: bytes =>
    if bytes.length < ofBytes b₀ b₁ b₂ b₃ then []
    else
      (bytes.take (ofBytes b₀ b₁ b₂ b₃) ++ (marked n (bytes.drop (ofBytes b₀ b₁ b₂ b₃)) ++
        behind)).takeWhile (· ≠ 0) :: stringsBefore behind n (bytes.drop (ofBytes b₀ b₁ b₂ b₃))
  | _, _ => []

section
variable {inputName : String} {expected : Nat}

/-- The loop over the bytes of a payload, which are `region` in the buffer. -/
theorem terminateStrings_spec {remaining elementCnt : Nat} (before region after : Bytes)
    {status : Status} {stringData : List CharPtr} {inputBuffer : Bytes}
    (h : terminateStrings inputName expected remaining elementCnt before.length region.length
      (before ++ (region ++ after)) = (status, stringData, inputBuffer)) :
    (status.isOk ↔ (decode remaining region).2.length < 4) ∧
      inputBuffer = before ++ (marked remaining region ++ after) ∧
      ∀ before' behind : Bytes, before'.length = before.length →
        stringData.map (·.cString (before' ++ (marked remaining region ++ behind))) =
          stringsBefore behind remaining region := by
  induction remaining generalizing elementCnt before region status stringData inputBuffer with
  | zero =>
    rw [decode_zero]
    unfold terminateStrings at h
    split at h
    · next hlen =>
      cases h
      exact ⟨iff_of_false Bool.false_ne_true (Nat.not_lt.mpr hlen), rfl, fun _ _ _ => rfl⟩
    · next hlen =>
      cases h
      exact ⟨iff_of_true rfl (Nat.not_le.mp hlen), rfl, fun _ _ _ => rfl⟩
  | succ remaining ih =>
    match region with
    | b₀ :: b₁ :: b₂ :: b₃ :: bytes =>
      have hfour : (b₀ :: b₁ :: b₂ :: b₃ :: bytes).length ≥ 4 := by simp
      rw [terminateStrings, if_pos hfour, List.cons_append, List.cons_append, List.cons_append,
        List.cons_append] at h
      simp only [wordAt_append] at h
      have hset : (before ++ b₀ :: b₁ :: b₂ :: b₃ :: (bytes ++ after)).set before.length 0 =
          before ++ 0 :: b₁ :: b₂ :: b₃ :: (bytes ++ after) := by
        rw [List.set_append_right _ _ le_rfl, Nat.sub_self]
        rfl
      have hfewer : (b₀ :: b₁ :: b₂ :: b₃ :: bytes).length - 4 = bytes.length := rfl
      rw [hset, hfewer] at h
      simp only [decode, marked, stringsBefore]
      split at h
      · next hlen =>
        cases h
        simp only [if_pos hlen]
        refine ⟨iff_of_false Bool.false_ne_true (Nat.not_lt.mpr hfour), ?_, fun _ _ _ => rfl⟩
        simp only [List.cons_append]
      · next hlen =>
        simp only [if_neg hlen]
        -- what follows the first string begins behind `before'`
        let before' := before ++ 0 :: b₁ :: b₂ :: b₃ :: bytes.take (ofBytes b₀ b₁ b₂ b₃)
        have hbefore : before'.length = before.length + 4 + ofBytes b₀ b₁ b₂ b₃ := by
          simp only [before', List.length_append, List.length_cons, List.length_take]
          omega
        have hbuffer : before ++ 0 :: b₁ :: b₂ :: b₃ :: (bytes ++ after) =
            before' ++ (bytes.drop (ofBytes b₀ b₁ b₂ b₃) ++ after) := by
          simp only [before', List.append_assoc, List.cons_append]
          rw [← List.append_assoc (bytes.take _), List.take_append_drop]
        rw [hbuffer, ← hbefore, ← List.length_drop] at h
        generalize hrest : terminateStrings inputName expected remaining (elementCnt + 1)
          before'.length (bytes.drop (ofBytes b₀ b₁ b₂ b₃)).length
          (before' ++ (bytes.drop (ofBytes b₀ b₁ b₂ b₃) ++ after)) = result at h
        obtain ⟨status', stringData', inputBuffer'⟩ := result
        obtain ⟨hok, hmarked, hstrings⟩ := ih before' _ hrest
        cases h
        refine ⟨hok, ?_, fun before₁ behind hbefore₁ => ?_⟩
        · rw [hmarked]
          simp only [before', List.append_assoc, List.cons_append]
        · let before₂ := before₁ ++ 0 :: b₁ :: b₂ :: b₃ :: bytes.take (ofBytes b₀ b₁ b₂ b₃)
          have hbefore₂ : before₂.length = before'.length := by
            simp only [before₂, before', List.length_append, hbefore₁]
          have hall : before₁ ++ (0 :: b₁ :: b₂ :: b₃ :: (bytes.take (ofBytes b₀ b₁ b₂ b₃) ++
              marked remaining (bytes.drop (ofBytes b₀ b₁ b₂ b₃))) ++ behind) =
              before₂ ++ (marked remaining (bytes.drop (ofBytes b₀ b₁ b₂ b₃)) ++ behind) := by
            simp only [before₂, List.append_assoc, List.cons_append]
          rw [List.map_cons]
          refine congrArg₂ List.cons ?_ ?_
          · unfold CharPtr.cString
            simp only [← hbefore₁, List.drop_length_add_append, List.cons_append,
              List.drop_succ_cons, List.drop_zero, List.append_assoc]
          · rw [hall]
            exact hstrings before₂ behind hbefore₂
    | [] | [_] | [_, _] | [_, _, _] =>
      cases h
      rw [decode_of_short _ (by simp)]
      exact ⟨iff_of_true rfl (by simp), rfl, fun _ _ _ => rfl⟩

end

/-! ## The bytes of the batch -/

section
variable {inputName : String} {entry : BatchEntry} {entries : List BatchEntry}

/-- The size of an entry is a `uint64`, and its provider shows as many bytes as it is asked for. -/
structure BatchEntry.Sound (entry : BatchEntry) : Prop where
  lawful : entry.payload.requestProvider.Lawful
  expectedByteSize_lt : entry.expectedByteSize < 18446744073709551616

/-- The bytes of the places of the entries. -/
def placesSize (entries : List BatchEntry) : Nat :=
  (entries.map BatchEntry.expectedByteSize).sum

/-- The bytes of the input that fit into the place of an entry. -/
def BatchEntry.content (inputName : String) (entry : BatchEntry) : Bytes :=
  entry.payload.content inputName entry.expectedByteSize

/-- The payload has not failed, and its content fills its place. -/
def BatchEntry.Complete (inputName : String) (entry : BatchEntry) : Prop :=
  entry.payload.status.isOk ∧ (entry.content inputName).length = entry.expectedByteSize

instance : Decidable (entry.Complete inputName) :=
  inferInstanceAs (Decidable (_ ∧ _))

/-- At most as many strings as are expected are read, with fewer than four bytes behind them. -/
def BatchEntry.Accepted (inputName : String) (entry : BatchEntry) : Prop :=
  entry.Complete inputName ∧
    (decode entry.expectedElementCnt (entry.content inputName)).2.length < 4

/-- The strings that are read in the place of an entry. -/
def BatchEntry.placedStrings (inputName : String) (entry : BatchEntry) : List Bytes :=
  (decode entry.expectedElementCnt (entry.content inputName)).1

/-- The strings that the content of an entry encodes, with the bytes that are behind its place. -/
def BatchEntry.ownStrings (inputName : String) (entry : BatchEntry) : List Bytes :=
  (decode entry.expectedElementCnt (entry.payload.delivered inputName entry.expectedByteSize)).1

/-- The bytes of an entry behind `SetInputBuffer`. -/
def BatchEntry.region (inputName : String) (entry : BatchEntry) (fresh : Bytes) : Bytes :=
  overwrite (fresh.take entry.expectedByteSize) 0 (entry.content inputName)

/-- The bytes of an entry behind `SetStringInputBuffer`. -/
def BatchEntry.final (inputName : String) (entry : BatchEntry) (fresh : Bytes) : Bytes :=
  if entry.Complete inputName then
    marked entry.expectedElementCnt (entry.region inputName fresh)
  else entry.region inputName fresh

/-- The C strings of an entry, with the bytes `behind` it. -/
def BatchEntry.readStrings (inputName : String) (entry : BatchEntry) (fresh behind : Bytes) :
    List Bytes :=
  padded entry.expectedElementCnt
    (if entry.Complete inputName then
      stringsBefore behind entry.expectedElementCnt (entry.region inputName fresh)
    else [])

/-- The bytes of the entries behind `SetInputBuffer`, and `last` behind them. -/
def regions (inputName : String) (last : Bytes) : List BatchEntry → Bytes → Bytes
  | [], _ => last
  | entry :: entries, fresh =>
    entry.region inputName fresh ++
      regions inputName last entries (fresh.drop entry.expectedByteSize)

/-- The bytes of the entries behind `SetStringInputBuffer`, and `last` behind them. -/
def finalBytes (inputName : String) (last : Bytes) : List BatchEntry → Bytes → Bytes
  | [], _ => last
  | entry :: entries, fresh =>
    entry.final inputName fresh ++
      finalBytes inputName last entries (fresh.drop entry.expectedByteSize)

/-- The C strings of the entries. -/
def readStrings (inputName : String) (last : Bytes) :
    List BatchEntry → Bytes → List (List Bytes)
  | [], _ => []
  | entry :: entries, fresh =>
    entry.readStrings inputName fresh
        (finalBytes inputName last entries (fresh.drop entry.expectedByteSize)) ::
      readStrings inputName last entries (fresh.drop entry.expectedByteSize)

theorem placesSize_cons (entry : BatchEntry) (entries : List BatchEntry) :
    placesSize (entry :: entries) = entry.expectedByteSize + placesSize entries :=
  rfl

/-- The content is what is copied. -/
theorem BatchEntry.copy_spec (hsound : entry.Sound) :
    (entry.copy inputName).2 = entry.content inputName ∧
      ((entry.copy inputName).1.status.isOk ↔ entry.Complete inputName) := by
  refine copyInput_spec (fun size => ?_) hsound.expectedByteSize_lt hsound.lawful
  split
  · next hgt => exact iff_of_false (Option.some_ne_none _) (Nat.not_le.mpr hgt)
  · next hle => exact iff_of_true rfl (Nat.not_lt.mp hle)

/-- An entry copies at most the bytes that are expected. -/
theorem BatchEntry.length_content_le (inputName : String) (entry : BatchEntry) :
    (entry.content inputName).length ≤ entry.expectedByteSize := by
  unfold BatchEntry.content Payload.content
  split
  · exact length_fitting_le _ _
  · exact Nat.zero_le _

theorem BatchEntry.length_region {fresh : Bytes} (h : entry.expectedByteSize ≤ fresh.length) :
    (entry.region inputName fresh).length = entry.expectedByteSize := by
  rw [BatchEntry.region, length_overwrite, List.length_take_of_le h]

theorem BatchEntry.length_final (inputName : String) {fresh : Bytes}
    (h : entry.expectedByteSize ≤ fresh.length) :
    (entry.final inputName fresh).length = entry.expectedByteSize := by
  unfold BatchEntry.final
  split
  · rw [length_marked, BatchEntry.length_region h]
  · exact BatchEntry.length_region h

/-- A content that is complete fills the place of the payload. -/
theorem BatchEntry.region_of_complete {fresh : Bytes}
    (h : entry.expectedByteSize ≤ fresh.length) (hcomplete : entry.Complete inputName) :
    entry.region inputName fresh = entry.content inputName := by
  refine overwrite_zero ?_
  rw [List.length_take_of_le h]
  exact hcomplete.2

/-- `SetInputBuffer` writes the contents one behind the other. -/
theorem setInputBuffer_spec (inputName : String) (before fresh : Bytes)
    (h : placesSize entries ≤ fresh.length)
    (hsound : ∀ entry ∈ entries, entry.Sound) :
    setInputBuffer inputName entries before.length (before ++ fresh) =
      (entries.map fun entry => { entry with payload := (entry.copy inputName).1 },
        before ++ regions inputName (fresh.drop (placesSize entries)) entries fresh) := by
  induction entries generalizing before fresh with
  | nil => rfl
  | cons entry entries ih =>
    rw [placesSize_cons] at h ⊢
    rw [List.forall_mem_cons] at hsound
    have hcopied := entry.length_content_le inputName
    have htake : (fresh.take entry.expectedByteSize).length = entry.expectedByteSize :=
      List.length_take_of_le (by omega)
    have hwrite : overwrite (before ++ fresh) before.length (entry.copy inputName).2 =
        (before ++ entry.region inputName fresh) ++ fresh.drop entry.expectedByteSize := by
      have hright := overwrite_append_right before fresh 0 (entry.content inputName)
      rw [Nat.add_zero] at hright
      rw [(BatchEntry.copy_spec hsound.1).1, hright, List.append_assoc]
      congr 1
      conv_lhs => rw [← List.take_append_drop entry.expectedByteSize fresh]
      exact overwrite_append_left _ (by omega)
    have hlength : before.length + entry.expectedByteSize =
        (before ++ entry.region inputName fresh).length := by
      rw [List.length_append, BatchEntry.length_region (by omega)]
    rw [setInputBuffer]
    simp only [hwrite, hlength]
    rw [ih _ _ (by rw [List.length_drop]; omega) hsound.2, List.map_cons, regions,
      List.drop_drop, List.append_assoc]

/-- The pointers and the bytes of one payload in `SetStringInputBuffer`. -/
theorem setStringInputBuffer_entry (before fresh after : Bytes)
    (h : entry.expectedByteSize ≤ fresh.length)
    (hsound : entry.Sound) {status : Status}
    {stringData : List CharPtr} {inputBuffer : Bytes}
    (hset : (if (entry.copy inputName).1.status.isOk then
        terminateStrings inputName entry.expectedElementCnt entry.expectedElementCnt 0
          before.length entry.expectedByteSize
          (before ++ (entry.region inputName fresh ++ after))
      else ((entry.copy inputName).1.status, [],
        before ++ (entry.region inputName fresh ++ after))) = (status, stringData, inputBuffer)) :
    (status.isOk ↔ entry.Accepted inputName) ∧
      inputBuffer = before ++ (entry.final inputName fresh ++ after) ∧
      ∀ before' behind : Bytes, before'.length = before.length →
        (fillStringData stringData (entry.expectedElementCnt - stringData.length)).map
            (·.cString (before' ++ (entry.final inputName fresh ++ behind))) =
          entry.readStrings inputName fresh behind := by
  unfold BatchEntry.Accepted BatchEntry.final BatchEntry.readStrings fillStringData padded
  split at hset
  · next hok =>
    have hcomplete := (BatchEntry.copy_spec hsound).2.mp hok
    rw [← BatchEntry.length_region h] at hset
    obtain ⟨hstatus, hmarked, hstrings⟩ := terminateStrings_spec before _ after hset
    rw [BatchEntry.region_of_complete h hcomplete] at *
    simp only [hcomplete, if_true, true_and]
    refine ⟨hstatus, hmarked, ?_⟩
    intro before' behind hbefore
    have hread := hstrings before' behind hbefore
    rw [List.map_append, hread, ← hread, List.length_map, List.map_replicate]
    rfl
  · next hok =>
    cases hset
    have hnot := mt (BatchEntry.copy_spec hsound).2.mpr hok
    simp only [if_neg hnot]
    refine ⟨iff_of_false hok fun h => hnot h.1, trivial, fun _ _ _ => ?_⟩
    rw [List.map_append, List.map_replicate]
    rfl

/-- `SetStringInputBuffer` makes C strings of them. -/
theorem setStringInputBuffer_spec (before fresh last : Bytes)
    (h : placesSize entries ≤ fresh.length)
    (hsound : ∀ entry ∈ entries, entry.Sound) {payloads : List Payload}
    {stringDatas : List (List CharPtr)} {inputBuffer : Bytes}
    (hset : setStringInputBuffer inputName
      (entries.map fun entry => { entry with payload := (entry.copy inputName).1 }) before.length
      (before ++ regions inputName last entries fresh) = (payloads, stringDatas, inputBuffer)) :
    List.Forall₂ (fun entry payload => payload.status.isOk ↔ entry.Accepted inputName) entries
        payloads ∧
      inputBuffer = before ++ finalBytes inputName last entries fresh ∧
      ∀ before' last' : Bytes, before'.length = before.length →
        stringDatas.map (fun stringData => stringData.map
            (·.cString (before' ++ finalBytes inputName last' entries fresh))) =
          readStrings inputName last' entries fresh := by
  induction entries generalizing before fresh payloads stringDatas inputBuffer with
  | nil =>
    cases hset
    exact ⟨.nil, rfl, fun _ _ _ => rfl⟩
  | cons entry entries ih =>
    rw [placesSize_cons] at h
    rw [List.forall_mem_cons] at hsound
    rw [List.map_cons, regions, setStringInputBuffer] at hset
    simp only at hset
    generalize hentry : (if (entry.copy inputName).1.status.isOk then
        terminateStrings inputName entry.expectedElementCnt entry.expectedElementCnt 0
          before.length entry.expectedByteSize (before ++ (entry.region inputName fresh ++
            regions inputName last entries (fresh.drop entry.expectedByteSize)))
      else ((entry.copy inputName).1.status, [], before ++ (entry.region inputName fresh ++
        regions inputName last entries (fresh.drop entry.expectedByteSize)))) = result at hset
    obtain ⟨status, stringData, inputBuffer'⟩ := result
    obtain ⟨hstatus, hbuffer, hread⟩ :=
      setStringInputBuffer_entry before fresh _ (by omega) hsound.1 hentry
    have hfinal : (before ++ entry.final inputName fresh).length =
        before.length + entry.expectedByteSize := by
      rw [List.length_append, BatchEntry.length_final inputName (by omega)]
    simp only [hbuffer, ← hfinal, ← List.append_assoc] at hset
    generalize hrest : setStringInputBuffer inputName
      (entries.map fun entry => { entry with payload := (entry.copy inputName).1 })
      (before ++ entry.final inputName fresh).length (before ++ entry.final inputName fresh ++
        regions inputName last entries (fresh.drop entry.expectedByteSize)) = result at hset
    obtain ⟨payloads', stringDatas', inputBuffer''⟩ := result
    obtain ⟨hstatuses, hbuffer', hreads⟩ :=
      ih _ _ (by rw [List.length_drop]; omega) hsound.2 hrest
    cases hset
    refine ⟨.cons hstatus hstatuses, ?_, fun before' last' hbefore => ?_⟩
    · rw [hbuffer', finalBytes, List.append_assoc]
    · rw [List.map_cons, readStrings, finalBytes, hread before' _ hbefore, ← List.append_assoc]
      congr 1
      exact hreads _ last' (by rw [List.length_append, List.length_append, hbefore])

theorem finalBytes_append (last : Bytes) (entries : List BatchEntry) (fresh : Bytes) :
    finalBytes inputName last entries fresh = finalBytes inputName [] entries fresh ++ last := by
  induction entries generalizing fresh with
  | nil => rfl
  | cons entry entries ih => rw [finalBytes, finalBytes, ih, List.append_assoc]

theorem length_finalBytes (inputName : String) {fresh : Bytes}
    (h : placesSize entries ≤ fresh.length) :
    (finalBytes inputName [] entries fresh).length = placesSize entries := by
  induction entries generalizing fresh with
  | nil => rfl
  | cons entry entries ih =>
    rw [placesSize_cons] at h ⊢
    rw [finalBytes, List.length_append, BatchEntry.length_final inputName (by omega),
      ih (by rw [List.length_drop]; omega)]

/-- The bytes behind the places, with the zero at the end of the buffer. -/
def terminated (fresh : Bytes) : Bytes := fresh.dropLast ++ [0]

/-- The zero is the first of these bytes, or a byte in front of it is. -/
theorem head?_terminated {fresh : Bytes} (h : fresh ≠ []) :
    (terminated fresh).head? = some 0 ↔ fresh.length = 1 ∨ fresh.head? = some 0 := by
  unfold terminated
  match fresh, h with
  | [byte], _ => exact iff_of_true rfl (.inl rfl)
  | byte :: byte' :: fresh, _ => simp

/-- The statuses and the C strings, behind the last zero. -/
theorem setStringBuffer_spec {total : Nat} {fresh : Bytes} (hle : placesSize entries ≤ total)
    (h : fresh.length = total + 1) (hsound : ∀ entry ∈ entries, entry.Sound)
    {payloads : List Payload} {stringDatas : List (List CharPtr)} {inputBuffer : Bytes}
    (hset : setStringBuffer inputName entries total fresh =
      (payloads, stringDatas, inputBuffer)) :
    List.Forall₂ (fun entry payload => payload.status.isOk ↔ entry.Accepted inputName) entries
        payloads ∧
      stringDatas.map (fun stringData => stringData.map (·.cString inputBuffer)) =
        readStrings inputName (terminated (fresh.drop (placesSize entries))) entries fresh := by
  have hcopied := setInputBuffer_spec inputName [] fresh (by omega) hsound
  rw [List.length_nil, List.nil_append, List.nil_append] at hcopied
  unfold setStringBuffer at hset
  rw [hcopied] at hset
  dsimp only at hset
  generalize hstrings : setStringInputBuffer inputName
    (entries.map fun entry => { entry with payload := (entry.copy inputName).1 }) 0
    (regions inputName (fresh.drop (placesSize entries)) entries fresh) = result at hset
  obtain ⟨payloads', stringDatas', inputBuffer'⟩ := result
  obtain ⟨hstatuses, hbuffer, hread⟩ :=
    setStringInputBuffer_spec [] fresh _ (by omega) hsound hstrings
  cases hset
  refine ⟨hstatuses, ?_⟩
  have hlength := length_finalBytes inputName (show placesSize entries ≤ fresh.length by omega)
  -- the last zero is the last byte of the buffer
  have hlast : (fresh.drop (placesSize entries)).set (total - placesSize entries) 0 =
      terminated (fresh.drop (placesSize entries)) := by
    have hne : fresh.drop (placesSize entries) ≠ [] :=
      List.ne_nil_of_length_pos (by rw [List.length_drop]; omega)
    have hdrop : (fresh.drop (placesSize entries)).dropLast.length =
        total - placesSize entries := by
      rw [List.length_dropLast, List.length_drop]
      omega
    unfold terminated
    conv_lhs => rw [← List.dropLast_append_getLast hne]
    rw [← hdrop, List.set_append_right _ _ le_rfl, Nat.sub_self]
    rfl
  have hterminated : inputBuffer'.set total 0 =
      finalBytes inputName (terminated (fresh.drop (placesSize entries))) entries fresh := by
    rw [hbuffer, List.nil_append, finalBytes_append, finalBytes_append (terminated _),
      List.set_append_right _ _ (hlength.trans_le hle), hlength, hlast]
  rw [hterminated]
  exact hread [] _ rfl

end

/-! ## The strings of one payload -/

section
variable {behind rest : Bytes}

theorem length_stringsBefore (behind : Bytes) (n : Nat) (bytes : Bytes) :
    (stringsBefore behind n bytes).length = (decode n bytes).1.length := by
  fun_induction decode n bytes with
  | case1 n b₀ b₁ b₂ b₃ bytes hlen => rw [stringsBefore, if_pos hlen]
  | case2 n b₀ b₁ b₂ b₃ bytes hlen strings rest hdecode ih =>
    rw [hdecode] at ih
    rw [stringsBefore, if_neg hlen, List.length_cons, List.length_cons, ih]
  | case3 _ bytes hnot =>
    unfold stringsBefore
    split
    · next n b₀ b₁ b₂ b₃ bytes => exact (hnot n b₀ b₁ b₂ b₃ bytes rfl rfl).elim
    · rfl

theorem takeWhile_append_of_nul {s : Bytes} (hs : 0 ∉ s) (behind : Bytes) :
    (s ++ behind).takeWhile (· ≠ 0) = s ++ behind.takeWhile (· ≠ 0) := by
  refine List.takeWhile_append_of_pos fun byte hbyte => ?_
  exact decide_eq_true fun hzero => hs (hzero ▸ hbyte)

theorem takeWhile_eq_nil_iff :
    behind.takeWhile (· ≠ 0) = [] ↔ behind = [] ∨ behind.head? = some 0 := by
  cases behind with
  | nil => simp
  | cons byte behind => simp [List.takeWhile_cons]

/-- The zero over the length of a string that is read. -/
theorem head_marked {n : Nat} {bytes : Bytes} (h : (decode n bytes).1 ≠ []) :
    (marked n bytes).head? = some 0 := by
  match n, bytes with
  | n + 1, b₀ :: b₁ :: b₂ :: b₃ :: bytes =>
    rw [marked]
    split
    · rfl
    · rfl
  | 0, bytes => exact absurd (by rw [decode_zero]) h
  | _ + 1, [] | _ + 1, [_] | _ + 1, [_, _] | _ + 1, [_, _, _] =>
    exact absurd (by rw [decode_of_short _ (by simp)]) h

theorem marked_of_none {n : Nat} {bytes : Bytes} (h : (decode n bytes).1 = [])
    (hrest : (decode n bytes).2.length < 4) : marked n bytes = bytes := by
  have hall := encodeAll_decode n bytes
  rw [h, encodeAll_nil, List.nil_append] at hall
  rw [hall] at hrest
  match n, bytes with
  | _ + 1, _ :: _ :: _ :: _ :: _ =>
    simp only [List.length_cons] at hrest
    omega
  | 0, _ => rw [marked]; nofun
  | _ + 1, [] | _ + 1, [_] | _ + 1, [_, _] | _ + 1, [_, _, _] => rfl

/-- The strings of a payload come out whole if and only if the byte behind the last one is a
zero. -/
theorem stringsBefore_eq_iff (behind : Bytes) {n : Nat} {bytes : Bytes}
    (hrest : (decode n bytes).2.length < 4)
    (hnul : ∀ s ∈ (decode n bytes).1, 0 ∉ s) :
    stringsBefore behind n bytes = (decode n bytes).1 ↔
      (decode n bytes).1 = [] ∨ ((decode n bytes).2 ++ behind).takeWhile (· ≠ 0) = [] := by
  fun_induction decode n bytes with
  | case1 n b₀ b₁ b₂ b₃ bytes hlen =>
    rw [stringsBefore, if_pos hlen]
    exact iff_of_true rfl (.inl rfl)
  | case2 n b₀ b₁ b₂ b₃ bytes hlen strings rest hdecode ih =>
    rw [List.forall_mem_cons] at hnul
    simp only [hdecode] at ih
    rw [stringsBefore, if_neg hlen, takeWhile_append_of_nul hnul.1]
    simp only [List.cons.injEq, List.append_right_eq_self, reduceCtorEq, false_or]
    rw [ih hrest hnul.2]
    cases strings with
    | nil =>
      have hall := encodeAll_decode n (bytes.drop (ofBytes b₀ b₁ b₂ b₃))
      rw [hdecode, encodeAll_nil, List.nil_append] at hall
      rw [marked_of_none (by rw [hdecode]) (by rwa [hdecode]), ← hall]
      simp only [true_or, and_true]
    | cons s strings =>
      have hhead := head_marked (n := n)
        (show (decode n (bytes.drop (ofBytes b₀ b₁ b₂ b₃))).1 ≠ [] by
          rw [hdecode]
          exact List.cons_ne_nil s strings)
      have hnil : (marked n (bytes.drop (ofBytes b₀ b₁ b₂ b₃)) ++ behind).takeWhile (· ≠ 0) = [] :=
        takeWhile_eq_nil_iff.mpr (.inr (by rw [List.head?_append, hhead]; rfl))
      simp only [hnil, true_and, reduceCtorEq, false_or]
  | case3 _ bytes hnot =>
    unfold stringsBefore
    split
    · next n b₀ b₁ b₂ b₃ bytes => exact (hnot n b₀ b₁ b₂ b₃ bytes rfl rfl).elim
    · exact iff_of_true rfl (.inl rfl)

theorem head?_marked {n : Nat} {bytes : Bytes} :
    (marked n bytes).head? = some 0 ↔ 0 < n ∧ 4 ≤ bytes.length ∨ bytes.head? = some 0 := by
  match n, bytes with
  | n + 1, b₀ :: b₁ :: b₂ :: b₃ :: bytes =>
    refine iff_of_true ?_ (.inl ⟨Nat.succ_pos n, by simp⟩)
    rw [marked]
    split
    · rfl
    · rfl
  | 0, bytes =>
    rw [marked]
    · simp
    · nofun
  | _ + 1, [] | _ + 1, [_] | _ + 1, [_, _] | _ + 1, [_, _, _] => simp [marked]

end

/-! ## Sizes -/

section
variable {inputName : String} {batch1ElementCnt : Nat} {payload : Payload}
  {payloads : List Payload} {sizes : List Nat}

/-- The sizes that the headers of the payloads give for the input. -/
def namedSizes (inputName : String) (payloads : List Payload) : List Nat :=
  payloads.filterMap (Payload.batchByteSize? inputName)

/-- The payloads whose headers name the input give the sizes, and the total is at least their
sum. -/
theorem expectedByteSizes_of_ne_nil (hsizes : sizes ≠ []) (total : Nat) :
    ∃ more, expectedByteSizes inputName payloads sizes total =
        some (sizes ++ namedSizes inputName payloads, total + more) ∧
      (namedSizes inputName payloads).sum ≤ more := by
  induction payloads generalizing sizes total with
  | nil =>
    exact ⟨0, by rw [expectedByteSizes, namedSizes, List.filterMap_nil, List.append_nil,
      Nat.add_zero], le_rfl⟩
  | cons payload payloads ih =>
    unfold namedSizes at ih ⊢
    rw [expectedByteSizes]
    cases hsize : payload.batchByteSize? inputName with
    | none =>
      rw [Option.toList_none, List.append_nil, List.getLast?_eq_some_getLast hsizes,
        List.filterMap_cons_none hsize]
      obtain ⟨more, heq, hle⟩ := ih hsizes (total + sizes.getLast hsizes)
      exact ⟨sizes.getLast hsizes + more, by rw [← Nat.add_assoc]; exact heq, by omega⟩
    | some size =>
      rw [Option.toList_some, List.getLast?_concat, List.filterMap_cons_some hsize]
      obtain ⟨more, heq, hle⟩ := @ih (sizes ++ [size]) (by simp) (total + size)
      refine ⟨size + more, ?_, by rw [List.sum_cons]; omega⟩
      rw [← Nat.add_assoc]
      exact heq.trans (by rw [List.append_assoc, List.singleton_append])

/-- The header of the first payload, if there is one, names the input. -/
def NamedFirst (inputName : String) (payloads : List Payload) : Prop :=
  ∀ payload ∈ payloads.head?, (payload.batchByteSize? inputName).isSome

theorem expectedByteSizes_of_named (h : NamedFirst inputName payloads) :
    ∃ total, expectedByteSizes inputName payloads [] 0 =
        some (namedSizes inputName payloads, total) ∧
      (namedSizes inputName payloads).sum ≤ total := by
  cases payloads with
  | nil => exact ⟨0, rfl, le_rfl⟩
  | cons payload payloads =>
    obtain ⟨size, hsize⟩ := Option.isSome_iff_exists.mp (h payload rfl)
    obtain ⟨more, heq, hle⟩ := @expectedByteSizes_of_ne_nil inputName payloads [size]
      (List.cons_ne_nil _ _) (0 + size)
    unfold namedSizes at heq hle ⊢
    rw [expectedByteSizes, hsize, List.filterMap_cons_some hsize]
    exact ⟨0 + size + more, heq, by rw [List.sum_cons]; omega⟩

theorem expectedByteSizes_of_unnamed (h : ¬ NamedFirst inputName payloads) :
    expectedByteSizes inputName payloads [] 0 = none := by
  cases payloads with
  | nil => exact absurd (fun _ hmem => nomatch hmem) h
  | cons payload payloads =>
    cases hsize : payload.batchByteSize? inputName with
    | none =>
      rw [expectedByteSizes, hsize]
      rfl
    | some size =>
      refine absurd (fun payload' hmem => ?_) h
      cases hmem
      rw [hsize]
      rfl

/-- The entries of the payloads that are visited. -/
def visitedEntries (inputName : String) (batch1ElementCnt : Nat) (payloads : List Payload) :
    List BatchEntry :=
  batchEntries batch1ElementCnt payloads (namedSizes inputName payloads)

theorem placesSize_batchEntries (h : sizes.length ≤ payloads.length) :
    placesSize (batchEntries batch1ElementCnt payloads sizes) = sizes.sum := by
  unfold placesSize batchEntries
  congr 1
  induction sizes generalizing payloads with
  | nil => rw [List.zipWith_nil_right, List.map_nil]
  | cons size sizes ih =>
    obtain ⟨payload, payloads, rfl⟩ :=
      List.exists_cons_of_length_pos (Nat.lt_of_lt_of_le (Nat.succ_pos _) h)
    rw [List.zipWith_cons_cons, List.map_cons, ih (Nat.le_of_succ_le_succ h)]

theorem placesSize_visitedEntries :
    placesSize (visitedEntries inputName batch1ElementCnt payloads) =
      (namedSizes inputName payloads).sum :=
  placesSize_batchEntries (List.length_filterMap_le _ _)

theorem visitedEntries_getElem? {i : Nat} {entry : BatchEntry}
    (h : (visitedEntries inputName batch1ElementCnt payloads)[i]? = some entry) :
    payloads[i]? = some entry.payload ∧
      (namedSizes inputName payloads)[i]? = some entry.expectedByteSize ∧
      entry.expectedElementCnt = entry.payload.elementCnt batch1ElementCnt := by
  unfold visitedEntries batchEntries at h
  obtain ⟨payload, size, hpayload, hsize, rfl⟩ := List.getElem?_zipWith_eq_some.mp h
  exact ⟨hpayload, hsize, rfl⟩

/-- A header gives a `uint64` for the size, and a provider shows as many bytes as it is asked
for. -/
structure Payload.Sound (inputName : String) (payload : Payload) : Prop where
  lawful : payload.requestProvider.Lawful
  batchByteSize_lt : ∀ size ∈ payload.batchByteSize? inputName, size < 18446744073709551616

theorem sound_visitedEntries (hsound : ∀ payload ∈ payloads, payload.Sound inputName) :
    ∀ entry ∈ visitedEntries inputName batch1ElementCnt payloads, entry.Sound := by
  intro entry hmem
  obtain ⟨i, hi⟩ := List.mem_iff_getElem?.mp hmem
  obtain ⟨hpayload, hsize, -⟩ := visitedEntries_getElem? hi
  obtain ⟨payload', hmem', hsize'⟩ := List.mem_filterMap.mp (List.mem_of_getElem? hsize)
  exact ⟨(hsound _ (List.mem_of_getElem? hpayload)).lawful,
    (hsound _ hmem').batchByteSize_lt _ hsize'⟩

/-- What `SetInputTensor` does to the payloads, and the C strings of each. -/
theorem setInputTensor_spec {fresh : Bytes} (hnamed : NamedFirst inputName payloads)
    (hfresh : ∀ sizes total, expectedByteSizes inputName payloads [] 0 = some (sizes, total) →
      fresh.length = total + 1)
    (hsound : ∀ payload ∈ payloads, payload.Sound inputName) :
    let entries := visitedEntries inputName batch1ElementCnt payloads
    placesSize entries < fresh.length ∧
      ∃ visited, setInputTensor inputName batch1ElementCnt payloads fresh =
          some (visited ++ payloads.drop entries.length,
            readStrings inputName (terminated (fresh.drop (placesSize entries))) entries fresh ++
              (payloads.drop entries.length).map fun _ => []) ∧
        List.Forall₂ (fun entry payload => payload.status.isOk ↔ entry.Accepted inputName)
          entries visited := by
  intro entries
  obtain ⟨total, hsizes, hle⟩ := expectedByteSizes_of_named hnamed
  have hlength := hfresh _ _ hsizes
  have hplaces : placesSize entries ≤ total := placesSize_visitedEntries.trans_le hle
  refine ⟨by omega, ?_⟩
  generalize hset : setStringBuffer inputName entries total fresh = result
  obtain ⟨visited, stringDatas, inputBuffer⟩ := result
  obtain ⟨hstatuses, hstrings⟩ :=
    setStringBuffer_spec hplaces hlength (sound_visitedEntries hsound) hset
  refine ⟨visited, ?_, hstatuses⟩
  unfold setInputTensor
  rw [hsizes]
  dsimp only
  rw [show batchEntries batch1ElementCnt payloads
    (namedSizes inputName payloads) = entries from rfl, hset]
  dsimp only
  rw [hstrings, hstatuses.length_eq]

end

/-! ## Neighbours -/

section
variable {inputName : String} {batch1ElementCnt : Nat} {entry : BatchEntry}
  {entries : List BatchEntry} {payloads : List Payload} {fresh : Bytes}

/-- The byte in front of the entries is followed by a zero: when no entry has bytes, the one at
the end of the buffer, or a fresh byte in front of it; else the first length of the next payload,
which must be read, or its first byte. -/
def ZeroNext (inputName : String) : List BatchEntry → Bytes → Prop
  | [], fresh => fresh.length = 1 ∨ fresh.head? = some 0
  | entry :: entries, fresh =>
    if entry.expectedByteSize = 0 then ZeroNext inputName entries fresh
    else
      entry.Complete inputName ∧ 0 < entry.expectedElementCnt ∧ 4 ≤ entry.expectedByteSize ∨
        (entry.content inputName ++ fresh).head? = some 0

/-- The content of an entry encodes as many strings as are expected, of which those behind its
place are empty, and a zero follows the last one in the place: in the place itself, when there are
bytes behind the strings, or behind the entry. -/
def BatchEntry.Ends (inputName : String) (entry : BatchEntry) (entries : List BatchEntry)
    (fresh : Bytes) : Prop :=
  entry.ownStrings inputName =
      padded entry.expectedElementCnt (entry.placedStrings inputName) ∧
    (entry.placedStrings inputName = [] ∨
      match (decode entry.expectedElementCnt (entry.content inputName)).2 with
      | [] => ZeroNext inputName entries fresh
      | byte :: _ => byte = 0)

/-- The strings that the content of a payload encodes: all bytes that its provider has for the
input, or as many zeros as the size says. -/
def Payload.encodedStrings (inputName : String) (cnt size : Nat) (payload : Payload) : List Bytes :=
  (decode cnt (payload.delivered inputName size)).1

/-- Every payload has as many C strings as are expected; when its status is OK, these are the
strings that its content encodes, if they contain no zeros. -/
def Separate (inputName : String) (batch1ElementCnt : Nat) (payloads : List Payload)
    (fresh : Bytes) : Prop :=
  ∃ payloads' strings, setInputTensor inputName batch1ElementCnt payloads fresh =
      some (payloads', strings) ∧
    ∀ (i : Nat) (payload : Payload), payloads[i]? = some payload →
      ∃ (payload' : Payload) (cStrings : List Bytes), payloads'[i]? = some payload' ∧
        strings[i]? = some cStrings ∧
        cStrings.length = payload.elementCnt batch1ElementCnt ∧
        let own := payload.encodedStrings inputName (payload.elementCnt batch1ElementCnt)
          ((namedSizes inputName payloads).getD i 0)
        payload'.status.isOk → (∀ s ∈ own, 0 ∉ s) → cStrings = own

theorem head?_region (hsize : entry.expectedByteSize ≠ 0)
    (h : entry.expectedByteSize ≤ fresh.length) :
    (entry.region inputName fresh).head? = (entry.content inputName ++ fresh).head? := by
  have hle := entry.length_content_le inputName
  unfold BatchEntry.region
  rw [List.head?_eq_getElem?, List.head?_eq_getElem?]
  rcases Nat.eq_zero_or_pos (entry.content inputName).length with hnil | hpos
  · rw [List.eq_nil_of_length_eq_zero hnil, overwrite, List.nil_append,
      List.getElem?_take_of_lt (by omega)]
  · have hinside : (overwrite (fresh.take entry.expectedByteSize) 0
        (entry.content inputName))[0 + 0]? = (entry.content inputName)[0]? :=
      getElem?_overwrite_inside hpos (by rw [List.length_take]; omega)
    rw [List.getElem?_append_left hpos, ← hinside]

/-- What follows an entry begins with a zero. -/
theorem head?_finalBytes (h : placesSize entries < fresh.length) :
    (finalBytes inputName (terminated (fresh.drop (placesSize entries))) entries fresh).head? =
      some 0 ↔ ZeroNext inputName entries fresh := by
  induction entries generalizing fresh with
  | nil => exact head?_terminated (List.ne_nil_of_length_pos (by rw [List.length_drop]; omega))
  | cons entry entries ih =>
    rw [placesSize_cons] at h ⊢
    have hlength := BatchEntry.length_final inputName
      (show entry.expectedByteSize ≤ fresh.length by omega)
    rw [finalBytes, ZeroNext]
    split
    · next hzero =>
      rw [List.eq_nil_of_length_eq_zero (hlength.trans hzero), List.nil_append, hzero,
        List.drop_zero, Nat.zero_add]
      exact ih (by omega)
    · next hsize =>
      have hnonempty : entry.final inputName fresh ≠ [] := fun hnil => by
        rw [hnil] at hlength
        exact hsize hlength.symm
      rw [List.head?_append_of_ne_nil _ hnonempty, ← head?_region hsize (by omega)]
      unfold BatchEntry.final
      split
      · next hcomplete =>
        rw [head?_marked, BatchEntry.length_region (by omega)]
        simp only [hcomplete, true_and]
      · next hnot => simp only [hnot, false_and, false_or]

theorem placesSize_take_add_drop (entries : List BatchEntry) (i : Nat) :
    placesSize (entries.take i) + placesSize (entries.drop i) = placesSize entries := by
  unfold placesSize
  rw [← List.sum_append, ← List.map_append, List.take_append_drop]

theorem placesSize_take_succ {i : Nat} (hi : entries[i]? = some entry) :
    placesSize (entries.take (i + 1)) =
      placesSize (entries.take i) + entry.expectedByteSize := by
  unfold placesSize
  rw [List.take_add_one, hi, List.map_append, List.sum_append]
  rfl

/-- As many C strings as are expected. -/
theorem length_readStrings {behind : Bytes} :
    (entry.readStrings inputName fresh behind).length = entry.expectedElementCnt := by
  unfold BatchEntry.readStrings
  refine length_padded_of_le ?_
  split
  · rw [length_stringsBefore]
    exact length_decode_le _ _
  · exact Nat.zero_le _

/-- The strings in the place of an entry are the first ones of its content. -/
theorem placedStrings_isPrefix :
    entry.placedStrings inputName <+: entry.ownStrings inputName := by
  unfold BatchEntry.placedStrings BatchEntry.ownStrings BatchEntry.content Payload.content
    Payload.delivered
  split
  · obtain ⟨behind, hbehind⟩ := fitting_isPrefix entry.expectedByteSize
      (entry.payload.requestProvider.blocks inputName entry.expectedByteSize)
    rw [← hbehind]
    exact decode_append_isPrefix _ _ behind
  · rw [decode_nil]
    exact List.nil_prefix

/-- The strings that are read from a payload with an OK status. -/
theorem readStrings_eq_iff (behind : Bytes) (h : entry.expectedByteSize ≤ fresh.length)
    (haccepted : entry.Accepted inputName) (hnul : ∀ s ∈ entry.ownStrings inputName, 0 ∉ s) :
    entry.readStrings inputName fresh behind = entry.ownStrings inputName ↔
      entry.ownStrings inputName =
          padded entry.expectedElementCnt (entry.placedStrings inputName) ∧
        (entry.placedStrings inputName = [] ∨
          ((decode entry.expectedElementCnt (entry.content inputName)).2 ++ behind).takeWhile
            (· ≠ 0) = []) := by
  obtain ⟨hcomplete, hrest⟩ := haccepted
  obtain ⟨more, hmore⟩ := @placedStrings_isPrefix inputName entry
  have hread := stringsBefore_eq_iff behind hrest fun s hs =>
    hnul s (hmore ▸ List.mem_append_left more hs)
  have hlength := length_stringsBefore behind entry.expectedElementCnt (entry.content inputName)
  unfold BatchEntry.readStrings
  rw [if_pos hcomplete, BatchEntry.region_of_complete h hcomplete]
  change stringsBefore _ _ _ = entry.placedStrings inputName ↔
    entry.placedStrings inputName = [] ∨ _ at hread
  change _ = (entry.placedStrings inputName).length at hlength
  unfold padded
  rw [← hread, hlength, ← hmore]
  constructor
  · intro heq
    obtain ⟨hplaced, hempty⟩ := List.append_inj heq hlength
    exact ⟨congrArg _ hempty.symm, hplaced⟩
  · rintro ⟨hempty, hplaced⟩
    rw [hplaced, hempty]

/-- The place of a payload in the buffer. -/
theorem readStrings_getElem? (inputName : String) (fresh : Bytes) {i : Nat} (last : Bytes)
    (hi : entries[i]? = some entry) :
    (readStrings inputName last entries fresh)[i]? =
      some (entry.readStrings inputName (fresh.drop (placesSize (entries.take i)))
        (finalBytes inputName last (entries.drop (i + 1))
          (fresh.drop (placesSize (entries.take (i + 1)))))) := by
  induction entries generalizing i fresh with
  | nil => cases hi
  | cons entry' entries ih =>
    cases i with
    | zero =>
      cases hi
      rfl
    | succ i =>
      rw [readStrings, List.getElem?_cons_succ, ih _ hi, List.take_succ_cons, List.take_succ_cons,
        placesSize_cons, placesSize_cons, List.drop_drop, List.drop_drop,
        List.drop_succ_cons]

theorem length_readStrings_list (inputName : String) (last : Bytes) (entries : List BatchEntry)
    (fresh : Bytes) : (readStrings inputName last entries fresh).length = entries.length := by
  induction entries generalizing fresh with
  | nil => rfl
  | cons entry entries ih => rw [readStrings, List.length_cons, List.length_cons, ih]

/-- A zero behind the last string, in the bytes that are behind it in the buffer. -/
theorem ends_iff (inputName : String) (entry : BatchEntry)
    (h : placesSize entries < fresh.length) :
    entry.Ends inputName entries fresh ↔
      entry.ownStrings inputName =
          padded entry.expectedElementCnt (entry.placedStrings inputName) ∧
        (entry.placedStrings inputName = [] ∨
          ((decode entry.expectedElementCnt (entry.content inputName)).2 ++
            finalBytes inputName (terminated (fresh.drop (placesSize entries))) entries
              fresh).takeWhile (· ≠ 0) = []) := by
  unfold BatchEntry.Ends
  refine and_congr_right fun _ => or_congr_right ?_
  rw [takeWhile_eq_nil_iff]
  split
  · next hnone =>
    rw [hnone, List.nil_append, ← head?_finalBytes h, or_iff_right]
    intro hnil
    rw [finalBytes_append] at hnil
    exact List.append_ne_nil_of_right_ne_nil _ (List.cons_ne_nil _ _)
      (List.append_eq_nil_iff.mp hnil).2
  · next hsome =>
    rw [hsome]
    simp

/-- The first payload and all payloads with elements are visited, and the content of every visited
payload with an OK status, if its strings contain no zeros, is one that ends. -/
structure AllEnd (inputName : String) (batch1ElementCnt : Nat) (payloads : List Payload)
    (fresh : Bytes) : Prop where
  named : NamedFirst inputName payloads
  unvisited : ∀ payload ∈
    payloads.drop (visitedEntries inputName batch1ElementCnt payloads).length,
    payload.elementCnt batch1ElementCnt = 0
  ends : ∀ (i : Nat) (entry : BatchEntry),
    (visitedEntries inputName batch1ElementCnt payloads)[i]? = some entry →
      entry.Accepted inputName → (∀ s ∈ entry.ownStrings inputName, 0 ∉ s) →
        entry.Ends inputName
          ((visitedEntries inputName batch1ElementCnt payloads).drop (i + 1))
          (fresh.drop (placesSize
            ((visitedEntries inputName batch1ElementCnt payloads).take (i + 1))))

/-- The C strings of a payload that is visited. -/
theorem readStrings_visited {i : Nat} (hi : entries[i]? = some entry)
    (h : placesSize entries < fresh.length) :
    ∃ strings, (readStrings inputName (terminated (fresh.drop (placesSize entries))) entries
        fresh)[i]? = some strings ∧
      strings.length = entry.expectedElementCnt ∧
      (entry.Accepted inputName → (∀ s ∈ entry.ownStrings inputName, 0 ∉ s) →
        (strings = entry.ownStrings inputName ↔
          entry.Ends inputName (entries.drop (i + 1))
            (fresh.drop (placesSize (entries.take (i + 1)))))) := by
  -- the bytes of the entries in front, of the entry, and of those behind it
  have hsum := placesSize_take_add_drop entries (i + 1)
  have hnext := placesSize_take_succ hi
  have hbehind : placesSize (entries.drop (i + 1)) <
      (fresh.drop (placesSize (entries.take (i + 1)))).length := by
    rw [List.length_drop]
    omega
  have hown : entry.expectedByteSize ≤
      (fresh.drop (placesSize (entries.take i))).length := by
    rw [List.length_drop]
    omega
  refine ⟨_, readStrings_getElem? inputName fresh _ hi, length_readStrings,
    fun haccepted hnul => ?_⟩
  rw [ends_iff inputName entry hbehind, List.drop_drop, hsum]
  exact readStrings_eq_iff _ hown haccepted hnul

/-- The strings of a payload that is visited are those of its entry. -/
theorem encodedStrings_visited {i : Nat}
    (hi : (visitedEntries inputName batch1ElementCnt payloads)[i]? = some entry) :
    entry.payload.encodedStrings inputName (entry.payload.elementCnt batch1ElementCnt)
        ((namedSizes inputName payloads).getD i 0) =
      entry.ownStrings inputName := by
  obtain ⟨-, hsize, hcnt⟩ := visitedEntries_getElem? hi
  rw [List.getD_eq_getElem?_getD, hsize, ← hcnt]
  rfl

/-- What the payloads get: those that are visited have the statuses and the C strings of their
entries, and the others stay, without C strings. -/
theorem setInputTensor_getElem? (hnamed : NamedFirst inputName payloads)
    (hfresh : ∀ sizes total, expectedByteSizes inputName payloads [] 0 = some (sizes, total) →
      fresh.length = total + 1)
    (hsound : ∀ payload ∈ payloads, payload.Sound inputName) :
    let entries := visitedEntries inputName batch1ElementCnt payloads
    ∃ payloads' strings, setInputTensor inputName batch1ElementCnt payloads fresh =
        some (payloads', strings) ∧
      (∀ (i : Nat) (entry : BatchEntry), entries[i]? = some entry →
        ∃ (payload' : Payload) (cStrings : List Bytes),
        payloads'[i]? = some payload' ∧ strings[i]? = some cStrings ∧
        cStrings.length = entry.expectedElementCnt ∧
        (payload'.status.isOk ↔ entry.Accepted inputName) ∧
        (entry.Accepted inputName → (∀ s ∈ entry.ownStrings inputName, 0 ∉ s) →
          (cStrings = entry.ownStrings inputName ↔ entry.Ends inputName (entries.drop (i + 1))
            (fresh.drop (placesSize (entries.take (i + 1))))))) ∧
      ∀ (i : Nat) (payload : Payload), entries.length ≤ i → payloads[i]? = some payload →
        payloads'[i]? = some payload ∧ strings[i]? = some [] := by
  have hspec := @setInputTensor_spec inputName batch1ElementCnt _ _ hnamed hfresh hsound
  dsimp only at hspec ⊢
  generalize visitedEntries inputName batch1ElementCnt payloads = entries at hspec ⊢
  obtain ⟨hplaces, visited, hset, hstatuses⟩ := hspec
  have hlength := hstatuses.length_eq
  have hstrings := length_readStrings_list inputName (terminated (fresh.drop (placesSize entries)))
    entries fresh
  refine ⟨_, _, hset, fun i entry hi => ?_, fun i payload hge hi => ?_⟩
  · have hlt := (List.getElem?_eq_some_iff.mp hi).1
    obtain ⟨hnone, -⟩ | ⟨_, payload', hi', hvisited, hok⟩ := getElem?_of_forall₂ hstatuses i
    · cases hnone.symm.trans hi
    cases hi.symm.trans hi'
    obtain ⟨cStrings, hread, hcount, hends⟩ := readStrings_visited hi hplaces
    rw [List.getElem?_append_left (by omega), List.getElem?_append_left (by omega)]
    exact ⟨payload', cStrings, hvisited, hread, hcount, hok, hends⟩
  · rw [List.getElem?_append_right (by omega), List.getElem?_append_right (by omega), hstrings,
      ← hlength, List.getElem?_map, List.getElem?_drop, Nat.add_sub_cancel' hge, hi]
    exact ⟨rfl, rfl⟩

/-- Payloads do not leak into each other if and only if all of them are visited, the byte behind
the last string of every payload is a zero, and no string is missing. -/
theorem separate_iff (inputName : String) (batch1ElementCnt : Nat) (payloads : List Payload)
    (fresh : Bytes)
    (hfresh : ∀ sizes total, expectedByteSizes inputName payloads [] 0 = some (sizes, total) →
      fresh.length = total + 1)
    (hsound : ∀ payload ∈ payloads, payload.Sound inputName) :
    Separate inputName batch1ElementCnt payloads fresh ↔
      AllEnd inputName batch1ElementCnt payloads fresh := by
  by_cases hnamed : NamedFirst inputName payloads
  case neg =>
    refine iff_of_false ?_ fun hend => hnamed hend.named
    rintro ⟨payloads', strings, hset, -⟩
    rw [setInputTensor, expectedByteSizes_of_unnamed hnamed] at hset
    cases hset
  obtain ⟨payloads', strings, hset, hvisited, hothers⟩ :=
    @setInputTensor_getElem? inputName batch1ElementCnt _ _ hnamed hfresh hsound
  constructor
  · rintro ⟨payloads₁, strings₁, hset', hall⟩
    cases hset.symm.trans hset'
    refine ⟨hnamed, fun payload hmem => ?_, fun i entry hi haccepted hnul => ?_⟩
    · obtain ⟨i, hi⟩ := List.mem_iff_getElem?.mp hmem
      rw [List.getElem?_drop] at hi
      obtain ⟨-, cStrings, -, hcStrings, hcnt, -⟩ := hall _ payload hi
      cases hcStrings.symm.trans (hothers _ payload (Nat.le_add_right _ i) hi).2
      exact hcnt.symm
    · obtain ⟨hpayload, -, -⟩ := visitedEntries_getElem? hi
      obtain ⟨payload', cStrings, hpayload', hcStrings, -, heq⟩ := hall i _ hpayload
      obtain ⟨_, _, hget, hread, -, hok, hends⟩ := hvisited i entry hi
      cases hpayload'.symm.trans hget
      cases hcStrings.symm.trans hread
      rw [encodedStrings_visited hi] at heq
      exact (hends haccepted hnul).mp (heq (hok.mpr haccepted) hnul)
  · intro hend
    refine ⟨payloads', strings, hset, fun i payload hi => ?_⟩
    rcases Nat.lt_or_ge i (visitedEntries inputName batch1ElementCnt payloads).length with hlt | hge
    · have hentry := List.getElem?_eq_getElem hlt
      obtain ⟨hpayload, -, hcnt⟩ := visitedEntries_getElem? hentry
      cases hi.symm.trans hpayload
      obtain ⟨payload', cStrings, hget, hread, hcount, hok, hends⟩ := hvisited i _ hentry
      refine ⟨payload', cStrings, hget, hread, hcount.trans hcnt, ?_⟩
      rw [encodedStrings_visited hentry]
      intro _ hstatus hnul
      have haccepted := hok.mp hstatus
      exact (hends haccepted hnul).mpr (hend.ends i _ hentry haccepted hnul)
    · have hmem : payload ∈
          payloads.drop (visitedEntries inputName batch1ElementCnt payloads).length := by
        rw [List.mem_iff_getElem?]
        refine ⟨i - (visitedEntries inputName batch1ElementCnt payloads).length, ?_⟩
        rw [List.getElem?_drop, Nat.add_sub_cancel' hge, hi]
      have hzero := hend.unvisited payload hmem
      obtain ⟨hget, hread⟩ := hothers i payload hge hi
      refine ⟨payload, [], hget, hread, hzero.symm, ?_⟩
      unfold Payload.encodedStrings
      rw [hzero, decode_zero]
      exact fun _ _ => rfl

/-- A payload of batch size 1 with this content for the input. -/
def Payload.ofContent (inputName : String) (content : Bytes) : Payload where
  requestProvider :=
    { requestHeader :=
        { batchSize := 1
          input := [{ name := inputName, dims := [1], batchByteSize := content.length }] }
      data := .inputBuffer (AList.singleton inputName ({ blocks := [content] }, 0)) }

/-- Two payloads with one string each. -/
theorem separate_twoStrings :
    Separate "b" 1 [.ofContent "b" (encodeAll [[104, 105]]), .ofContent "b" (encodeAll [[33]])]
      (List.replicate 12 7) := by
  refine (separate_iff "b" 1 _ (List.replicate 12 7) ?_ ?_).mpr ⟨?_, ?_, ?_⟩
  · rintro sizes total ⟨⟩
    rfl
  · rintro payload (_ | ⟨_, _ | ⟨_, ⟨⟩⟩⟩)
    · exact ⟨nofun, by decide⟩
    · exact ⟨nofun, by decide⟩
  · rintro payload ⟨⟩
    rfl
  · nofun
  · intro i entry hi _ _
    match i, hi with
    | 0, rfl => exact ⟨by decide, .inr (.inl ⟨⟨rfl, rfl⟩, by decide, by decide⟩)⟩
    | 1, rfl => exact ⟨by decide, .inr (.inl rfl)⟩

/-- The second payload has three bytes, which is no string: they are read as a part of the string
of the first payload. -/
theorem not_separate_strayBytes :
    ¬ Separate "b" 1 [.ofContent "b" (encodeAll [[104, 105]]), .ofContent "b" [65, 66, 67]]
      (List.replicate 10 0) := by
  rintro ⟨payloads', strings, ⟨⟩, hall⟩
  obtain ⟨payload, cStrings, hpayload, hstrings, -, heq⟩ := hall 0 _ rfl
  cases hpayload
  cases hstrings
  have hown := heq (by decide) (by decide)
  revert hown
  decide

/-- The header of the second payload does not name the input: nothing is pushed for it. -/
example : ¬ Separate "b" 1
    [.ofContent "b" (encodeAll [[104, 105]]), .ofContent "a" (encodeAll [[33]])]
    (List.replicate 13 0) := by
  rintro ⟨payloads', strings, ⟨⟩, hall⟩
  obtain ⟨payload, cStrings, -, hstrings, hcnt, -⟩ := hall 1 _ rfl
  cases hstrings
  cases hcnt

end

end FinBert.Serving
