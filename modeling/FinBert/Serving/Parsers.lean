import FinBert.Serving.BaseBackend
import FinBert.Serving.OnnxBackend

/-!
# Two parsers for string inputs

The TensorFlow backend (`SetStringInputTensor`) and the ONNX backend (`SetInputBuffer`,
`SetStringInputBuffer`) read the strings of one payload from the same content. The TensorFlow
parser reports missing strings, the ONNX parser makes them empty; the TensorFlow parser reads a
string by its length, the ONNX parser hands it over up to the next zero.

Results:
1. `setStringInputTensor_single`, `setInputTensor_single`: what the parsers do to one payload.
2. `agree_iff`: when they agree.
-/

namespace FinBert.Serving

open LengthPrefixed

section
variable {inputName : String} {batch1ElementCnt : Nat} {content : Bytes}

/-- All blocks fit into a place of their size. -/
theorem fitting_of_length {blocks : List Bytes} {limit : Nat}
    (h : blocks.flatten.length = limit) : fitting limit blocks = blocks.flatten := by
  subst h
  induction blocks with
  | nil => rfl
  | cons block blocks ih =>
    rw [List.flatten_cons, List.length_append, fitting, if_pos (Nat.le_add_right _ _),
      Nat.add_sub_cancel_left, ih]

/-- The content that a payload gets is the one that the ONNX backend copies. -/
theorem content_of_delivers {payload : Payload} (hdelivers : payload.Delivers inputName content)
    (hok : payload.status.isOk) : payload.content inputName content.length = content := by
  have hdelivered := delivered_of_delivers hdelivers content.length
  unfold Payload.delivered at hdelivered
  unfold Payload.content
  rw [if_pos hok, fitting_of_length (congrArg List.length hdelivered), hdelivered]

/-- What `SetStringInputTensor` does to a single payload. Without elements, no content is asked
for. -/
theorem setStringInputTensor_single {payload : Payload} {tensor : List Bytes}
    (hdelivers : payload.Delivers inputName content)
    (htensor : tensor.length = payload.elementCnt batch1ElementCnt) :
    ∃ payload', setStringInputTensor inputName batch1ElementCnt [payload] tensor =
        ([payload'], padded (payload.elementCnt batch1ElementCnt)
          (decode (payload.elementCnt batch1ElementCnt) content).1) ∧
      (payload'.status.isOk ↔ payload.elementCnt batch1ElementCnt = 0 ∨
        WellFormed (payload.elementCnt batch1ElementCnt) content) := by
  have hcontent := delivered_of_delivers hdelivers (payload.elementCnt batch1ElementCnt * 4)
  have hstrings := @strings_delivered inputName batch1ElementCnt payload
  have hstatus := @setPayload_ok_iff inputName batch1ElementCnt payload 0 tensor
  have hwritten := setPayload_tensor inputName batch1ElementCnt payload 0 tensor
  rw [hasStrings_iff, hcontent] at hstatus
  rw [overwrite_zero (by rw [htensor, Payload.length_strings]), hstrings, hcontent] at hwritten
  exact ⟨_, Prod.ext rfl hwritten, hstatus⟩

/-- A single payload, whose header gives the size of its content, is the only one that is
visited. -/
theorem setInputTensor_visited {payload : Payload} {fresh : Bytes}
    (hdelivers : payload.Delivers inputName content)
    (hsize : payload.batchByteSize? inputName = some content.length)
    (hlt : content.length < 18446744073709551616) (hfresh : fresh.length = content.length + 1) :
    let entry : BatchEntry := ⟨payload, content.length, payload.elementCnt batch1ElementCnt⟩
    ∃ payload' strings, setInputTensor inputName batch1ElementCnt [payload] fresh =
        some ([payload'], [strings]) ∧
      (payload'.status.isOk ↔ entry.Accepted inputName) ∧
      (entry.Accepted inputName → (∀ s ∈ entry.ownStrings inputName, 0 ∉ s) →
        (strings = entry.ownStrings inputName ↔
          entry.Ends inputName [] (fresh.drop content.length))) := by
  intro entry
  have hentries : visitedEntries inputName batch1ElementCnt [payload] = [entry] := by
    unfold visitedEntries namedSizes
    rw [List.filterMap_cons_some hsize]
    rfl
  have hspec := @setInputTensor_spec inputName batch1ElementCnt [payload] fresh ?_ ?_ ?_
  case refine_1 =>
    rintro _ ⟨⟩
    rw [hsize]
    rfl
  case refine_2 =>
    intro sizes total h
    rw [expectedByteSizes, hsize] at h
    cases h
    rw [hfresh]
    exact congrArg Nat.succ (Nat.zero_add _).symm
  case refine_3 =>
    intro payload' hmem
    cases List.mem_singleton.mp hmem
    refine ⟨fun buf hnull => ?_, fun size hmem => ?_⟩
    · obtain ⟨-, buffers, memory, hdata, -⟩ := hdelivers
      cases hdata.symm.trans hnull
    · cases hsize.symm.trans hmem
      exact hlt
  rw [hentries] at hspec
  obtain ⟨hplaces, visited, hset, hstatuses⟩ := hspec
  obtain ⟨payload', _, hstatus, hnil, rfl⟩ := List.forall₂_cons_left_iff.mp hstatuses
  obtain rfl := List.forall₂_nil_left_iff.mp hnil
  obtain ⟨strings, hread, -, hends⟩ :=
    @readStrings_visited inputName entry [entry] fresh 0 rfl hplaces
  refine ⟨payload', strings, ?_, hstatus, hends⟩
  rw [hset]
  cases hread
  rfl

/-- What `SetInputTensor` does to a single payload, whose header gives the size of its content. -/
theorem setInputTensor_single {payload : Payload} {fresh : Bytes}
    (hdelivers : payload.Delivers inputName content)
    (hsize : payload.batchByteSize? inputName = some content.length)
    (hlt : content.length < 18446744073709551616) (hok : payload.status.isOk)
    (hfresh : fresh.length = content.length + 1) :
    ∃ payload' strings, setInputTensor inputName batch1ElementCnt [payload] fresh =
        some ([payload'], [strings]) ∧
      (payload'.status.isOk ↔
        (decode (payload.elementCnt batch1ElementCnt) content).2.length < 4) ∧
      (payload'.status.isOk →
        (∀ s ∈ (decode (payload.elementCnt batch1ElementCnt) content).1, 0 ∉ s) →
        (strings = (decode (payload.elementCnt batch1ElementCnt) content).1 ↔
          (decode (payload.elementCnt batch1ElementCnt) content).1.length =
              payload.elementCnt batch1ElementCnt ∧
            ((decode (payload.elementCnt batch1ElementCnt) content).1 = [] ∨
              match (decode (payload.elementCnt batch1ElementCnt) content).2 with
              | [] => True
              | byte :: _ => byte = 0))) := by
  obtain ⟨payload', strings, hresult, hstatus, hends⟩ :=
    @setInputTensor_visited inputName batch1ElementCnt content payload fresh hdelivers hsize hlt
      hfresh
  generalize hentry : (⟨payload, content.length, payload.elementCnt batch1ElementCnt⟩ : BatchEntry)
    = entry at hstatus hends
  -- the content fills the place of the payload
  have hcontent : entry.content inputName = content := by
    rw [← hentry]
    exact content_of_delivers hdelivers hok
  have hown : entry.ownStrings inputName =
      (decode (payload.elementCnt batch1ElementCnt) content).1 := by
    rw [BatchEntry.ownStrings, ← hentry, delivered_of_delivers hdelivers]
  have hcomplete : entry.Complete inputName := by
    unfold BatchEntry.Complete
    rw [hcontent, ← hentry]
    exact ⟨hok, rfl⟩
  have hbehind : (fresh.drop content.length).length = 1 := by
    rw [List.length_drop]
    omega
  unfold BatchEntry.Accepted at hstatus hends
  unfold BatchEntry.Ends BatchEntry.placedStrings at hends
  rw [hcontent, hown] at hends
  rw [hcontent, and_iff_right hcomplete] at hstatus
  subst hentry
  refine ⟨payload', strings, hresult, hstatus, fun hstatus' hnul => ?_⟩
  rw [hends ⟨hcomplete, hstatus.mp hstatus'⟩ hnul]
  refine and_congr ⟨fun heq => ?_, fun hall => (padded_of_length hall).symm⟩
    (or_congr_right ?_)
  · rw [heq]
    exact length_padded_of_le (length_decode_le _ _)
  · cases (decode (payload.elementCnt batch1ElementCnt) content).2 with
    | nil => exact iff_of_true (.inl hbehind) trivial
    | cons byte rest => exact Iff.rfl

/-- The two parsers leave the same status, and the same strings when it is OK. -/
def Agree (inputName : String) (batch1ElementCnt : Nat) (payload : Payload)
    (tensor : List Bytes) (fresh : Bytes) : Prop :=
  ∃ payload' tensor' payload'' strings,
    setStringInputTensor inputName batch1ElementCnt [payload] tensor =
        ([payload'], tensor') ∧
      setInputTensor inputName batch1ElementCnt [payload] fresh =
        some ([payload''], [strings]) ∧
      (payload'.status.isOk ↔ payload''.status.isOk) ∧
      (payload'.status.isOk → tensor' = strings)

/-- Without elements, a content is shorter than a length. With elements, either a part of the
content is no string, or there are as many strings as elements, and what follows them begins with
a zero. -/
def SameReading (cnt : Nat) (content : Bytes) : Prop :=
  if cnt = 0 then content.length < 4
  else (decode cnt content).2.length < 4 →
    (decode cnt content).1.length = cnt ∧
      match (decode cnt content).2 with
      | [] => True
      | byte :: _ => byte = 0

/-- The parsers agree about the content of a payload, whose strings contain no zeros and whose
header gives the size of the content, if and only if both read it in the same way. -/
theorem agree_iff (inputName : String) (batch1ElementCnt : Nat) (payload : Payload)
    (content : Bytes) (tensor : List Bytes) (fresh : Bytes) (hok : payload.status.isOk)
    (hdelivers : payload.Delivers inputName content)
    (hsize : payload.batchByteSize? inputName = some content.length)
    (hlt : content.length < 18446744073709551616)
    (hnul : ∀ s ∈ (decode (payload.elementCnt batch1ElementCnt) content).1, 0 ∉ s)
    (htensor : tensor.length = payload.elementCnt batch1ElementCnt)
    (hfresh : fresh.length = content.length + 1) :
    Agree inputName batch1ElementCnt payload tensor fresh ↔
      SameReading (payload.elementCnt batch1ElementCnt) content := by
  obtain ⟨payload', htf, hstatus⟩ := setStringInputTensor_single hdelivers htensor
  obtain ⟨payload'', strings, honnx, hstatus', hread⟩ :=
    @setInputTensor_single _ batch1ElementCnt _ _ _ hdelivers hsize hlt hok hfresh
  generalize payload.elementCnt batch1ElementCnt = cnt at *
  have hagree : Agree inputName batch1ElementCnt payload tensor fresh ↔
      (payload'.status.isOk ↔ payload''.status.isOk) ∧
        (payload'.status.isOk → padded cnt (decode cnt content).1 = strings) := by
    constructor
    · rintro ⟨payload₁, tensor₁, payload₂, strings₁, htf₁, honnx₁, hsame, heq⟩
      cases htf.symm.trans htf₁
      cases honnx.symm.trans honnx₁
      exact ⟨hsame, heq⟩
    · rintro ⟨hsame, heq⟩
      exact ⟨_, _, _, _, htf, honnx, hsame, heq⟩
  rw [hagree]
  unfold SameReading
  split
  · next hzero =>
    cases hzero
    rw [decode_zero] at *
    constructor
    · rintro ⟨hsame, -⟩
      exact hstatus'.mp (hsame.mp (hstatus.mpr (.inl rfl)))
    · intro hshort
      have hok' := hstatus'.mpr hshort
      exact ⟨iff_of_true (hstatus.mpr (.inl rfl)) hok',
        fun _ => ((hread hok' hnul).mpr ⟨rfl, .inl rfl⟩).symm⟩
  · next hpos =>
    have hwell := hstatus.trans (or_iff_right hpos)
    constructor
    · rintro ⟨hsame, heq⟩ hshort
      have hok' := hstatus'.mpr hshort
      have hall := (hwell.mp (hsame.mpr hok')).1
      have hstrings := heq (hsame.mpr hok')
      rw [padded_of_length hall] at hstrings
      obtain ⟨-, hend⟩ := (hread hok' hnul).mp hstrings.symm
      refine ⟨hall, hend.resolve_left fun hnil => hpos ?_⟩
      rw [← hall, hnil, List.length_nil]
    · intro hends
      refine ⟨⟨fun h => hstatus'.mpr (hwell.mp h).2, fun h => ?_⟩, fun h => ?_⟩
      · have hshort := hstatus'.mp h
        exact hwell.mpr ⟨(hends hshort).1, hshort⟩
      · obtain ⟨hall, hshort⟩ := hwell.mp h
        rw [padded_of_length hall]
        exact ((hread (hstatus'.mpr hshort) hnul).mpr ⟨hall, .inr (hends hshort).2⟩).symm

theorem delivers_ofContent (inputName : String) (content : Bytes) :
    (Payload.ofContent inputName content).Delivers inputName content := by
  refine ⟨rfl, _, { blocks := [content] }, rfl, ?_, ?_⟩
  · show List.dlookup inputName [⟨inputName, _⟩] = _
    exact List.dlookup_cons_eq _ _ _
  · rw [SystemMemory.bytes_eq, List.flatten_singleton]

/-- A content of one string for one element. -/
theorem agree_oneString :
    Agree "b" 1 (.ofContent "b" (encodeAll [[104, 105]])) [[]] (List.replicate 7 7) := by
  refine (agree_iff "b" 1 _ (encodeAll [[104, 105]]) [[]] _ rfl (delivers_ofContent _ _) rfl
    (by decide) (by decide) rfl rfl).mpr ?_
  exact fun _ => ⟨rfl, trivial⟩

/-- A content of one string for two elements: only the TensorFlow parser reports it. -/
theorem not_agree_missingString :
    ¬ Agree "b" 2 (.ofContent "b" (encodeAll [[104, 105]])) [[], []] (List.replicate 7 7) := by
  rintro ⟨payload, tensor', payload', strings, htf, honnx, hsame, -⟩
  cases htf
  cases honnx
  revert hsame
  decide

end

end FinBert.Serving
