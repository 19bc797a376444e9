import FinBert.Serving.BaseBackend

/-!
# Which contents `SetStringInputTensor` accepts

The loop over a content goes on while there are four bytes for a length. It counts the strings,
but what is left behind the last one may be up to three bytes long, and no check looks at it. For
no elements, no bytes are asked for, so that the content is not looked at.

Results:
1. `raggedEnd_iff`: the contents that are accepted with a rest.
2. `parsesExactly_iff`: an accepted content is the encoding of its strings exactly when it has no
   such rest, and is empty when no strings are expected.
-/

namespace FinBert.Serving

open LengthPrefixed

/-- The content is `cnt` strings, each behind its length, and nothing else. -/
structure IsEncoding (cnt : Nat) (strings : List Bytes) (content : Bytes) : Prop where
  length : strings.length = cnt
  short : ∀ str ∈ strings, str.length < 4294967296
  encoded : encodeAll strings = content

/-- The content is `cnt` strings, and behind them at least one byte, but fewer than a length
has. -/
def RaggedEnd (cnt : Nat) (content : Bytes) : Prop :=
  ∃ strings content' rest, IsEncoding cnt strings content' ∧ content = content' ++ rest ∧
    0 < rest.length ∧ rest.length < 4

/-- The content of a payload for a string input: all bytes that its provider has for it. -/
def Payload.stringContent (inputName : String) (batch1ElementCnt : Nat) (payload : Payload) :
    Bytes :=
  payload.delivered inputName (payload.elementCnt batch1ElementCnt * 4)

/-- In a batch, a payload is accepted only if its content encodes the strings that the payload
leaves in the tensor. -/
def ParsesExactly (inputName : String) (batch1ElementCnt : Nat) (pre post : List Payload)
    (payload : Payload) (tensor : List Bytes) : Prop :=
  ∀ payload', (setStringInputTensor inputName batch1ElementCnt (pre ++ payload :: post)
      tensor).1[pre.length]? = some payload' → payload'.status.isOk →
    IsEncoding (payload.elementCnt batch1ElementCnt) (payload.strings inputName batch1ElementCnt)
      (payload.stringContent inputName batch1ElementCnt)

section
variable {cnt : Nat} {content : Bytes} {payload : Payload}

theorem isEncoding_decode (hall : (decode cnt content).1.length = cnt) :
    ∃ content', IsEncoding cnt (decode cnt content).1 content' ∧
      content = content' ++ (decode cnt content).2 :=
  ⟨_, ⟨hall, fun _ hstr => length_lt_of_mem_decode hstr, rfl⟩, (encodeAll_decode cnt content).symm⟩

theorem raggedEnd_iff :
    RaggedEnd cnt content ↔ WellFormed cnt content ∧ 0 < (decode cnt content).2.length := by
  constructor
  · rintro ⟨strings, content', rest, ⟨rfl, hshort, rfl⟩, rfl, hpos, hlt⟩
    unfold WellFormed
    rw [decode_encodeAll_append hshort]
    exact ⟨⟨rfl, hlt⟩, hpos⟩
  · rintro ⟨⟨hall, hlt⟩, hpos⟩
    obtain ⟨content', hencoding, hcontent⟩ := isEncoding_decode hall
    exact ⟨_, content', _, hencoding, hcontent, hpos, hlt⟩

end

/-- For every batch and every payload, whatever its provider has for the input: the payload is
accepted only with the encoding of its strings, exactly when its content does not end in one to
three more bytes, and is empty if the payload has no elements. -/
theorem parsesExactly_iff (inputName : String) (batch1ElementCnt : Nat) (pre post : List Payload)
    (payload : Payload) (tensor : List Bytes) :
    ParsesExactly inputName batch1ElementCnt pre post payload tensor ↔
      ¬ RaggedEnd (payload.elementCnt batch1ElementCnt)
          (payload.stringContent inputName batch1ElementCnt) ∧
        (payload.elementCnt batch1ElementCnt = 0 →
          payload.stringContent inputName batch1ElementCnt = []) := by
  have hi : (pre ++ payload :: post)[pre.length]? = some payload := by
    rw [List.getElem?_append_right (Nat.le_refl _), Nat.sub_self, List.getElem?_cons_zero]
  obtain ⟨payload', hget, hstatus⟩ :=
    @setStringInputTensor_ok_iff inputName batch1ElementCnt _ _ _ hi tensor
  unfold ParsesExactly
  rw [hget, raggedEnd_iff, strings_delivered]
  simp only [Option.some.injEq, forall_eq', hstatus, hasStrings_iff]
  unfold Payload.stringContent
  generalize payload.delivered inputName (payload.elementCnt batch1ElementCnt * 4) = content
  generalize payload.elementCnt batch1ElementCnt = cnt
  have hcontent := encodeAll_decode cnt content
  constructor
  · intro hexact
    refine ⟨fun ⟨hwell, hpos⟩ => ?_, fun hzero => ?_⟩
    · have hencoded := (hexact (.inr hwell)).encoded
      rw [padded_of_length hwell.1] at hencoded
      -- the strings encode the whole content already, so that there is nothing behind them
      have hnil : (decode cnt content).2 = [] :=
        List.append_right_eq_self.mp (hcontent.trans hencoded.symm)
      rw [hnil] at hpos
      exact Nat.lt_irrefl 0 hpos
    · have hencoded := (hexact (.inl hzero)).encoded
      rw [hzero, decode_zero] at hencoded
      exact hencoded.symm
  · rintro ⟨hragged, hempty⟩ hwell
    rcases Nat.eq_zero_or_pos cnt with rfl | hpos
    · rw [hempty rfl, decode_zero]
      exact ⟨rfl, fun _ hstr => absurd hstr List.not_mem_nil, rfl⟩
    · have hwell := hwell.resolve_left hpos.ne'
      have hnil := List.eq_nil_of_length_eq_zero
        (Nat.eq_zero_of_not_pos fun hrest => hragged ⟨hwell, hrest⟩)
      rw [hnil, List.append_nil] at hcontent
      rw [padded_of_length hwell.1]
      exact ⟨hwell.1, fun _ hstr => length_lt_of_mem_decode hstr, hcontent⟩

/-- A payload of batch size 1 with the string "hi" and one more byte. -/
def oneByteMore : Payload where
  requestProvider :=
    { requestHeader := { batchSize := 1 }
      data := .inputBuffer (AList.singleton "b" ({ blocks := [[2, 0, 0, 0, 104, 105, 0]] }, 0)) }

/-- The byte behind the string is not looked at, and of the same content nothing is looked at when
the input has no elements. -/
theorem not_parsesExactly_oneByteMore :
    oneByteMore.Delivers "b" [2, 0, 0, 0, 104, 105, 0] ∧
      ¬ ParsesExactly "b" 1 [] [] oneByteMore [[]] ∧ ¬ ParsesExactly "b" 0 [] [] oneByteMore [] :=
  ⟨⟨rfl, _, _, rfl, rfl, rfl⟩, fun h => absurd (h _ rfl rfl).encoded (by decide),
    fun h => absurd (h _ rfl rfl).encoded (by decide)⟩

example : ParsesExactly "b" 1 [] [] (.deliver 1 "b" [[104, 105]]) [[]] := by
  intro payload' hget hok
  exact ⟨by decide, by decide, by decide⟩

end FinBert.Serving
