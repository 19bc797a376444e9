import FinBert.Lib.UnorderedMap
import FinBert.Squad.Windows

/-!
# The features of an example

`convert_examples_to_features` (`run_squad.py`) turns the words of a document into the pieces of a
tokenizer, moves the annotated answer from words to pieces, and makes one feature for each window of
the document.

* `indexDocTokens`, `improveAnswerSpan`, `docSpanFeature`, `convertExample`: the functions.
* `indexDocTokens_eq`: where the pieces of a word begin.
* `convertExample_spec`: the features that are made, one for each window up to the first one with a
  token without an id, with the tokens of the window behind those of the query.
* `convertExamplesToFeatures_spec`: the features of all examples are made.
-/

namespace FinBert.Squad

/-- `SquadExample`. The positions are `-1` for an example that is impossible, and missing when it is
not for training. -/
structure SquadExample where
  qasId : String
  questionText : String
  docTokens : List String
  origAnswerText : String := ""
  startPosition : Option Int := none
  endPosition : Option Int := none
  isImpossible : Bool := false

/-- `FullTokenizer`: what `tokenize` makes of a text, and the ids of `vocab`. -/
structure Tokenizer where
  tokenize : String → List String
  vocab : String → Option Nat

/-- `convert_tokens_to_ids`; nothing if a token has no id (`KeyError`). -/
def Tokenizer.convertTokensToIds (tokenizer : Tokenizer) : List String → Option (List Nat)
  | [] => some []
  | token :: tokens => do
    let id ← tokenizer.vocab token
    let ids ← tokenizer.convertTokensToIds tokens
    return id :: ids

/-- `InputFeatures`. -/
structure InputFeatures where
  uniqueId : Nat
  exampleIndex : Nat
  docSpanIndex : Nat
  tokens : List String
  tokenToOrigMap : UnorderedMap Nat Nat
  tokenIsMaxContext : UnorderedMap Nat Bool
  inputIds : List Nat
  inputMask : List Nat
  segmentIds : List Nat
  startPosition : Option Int
  endPosition : Option Int
  isImpossible : Bool

/-! ## Words and pieces -/

/-- `tok_to_orig_index`, `orig_to_tok_index` and `all_doc_tokens`. -/
structure DocIndex where
  tokToOrigIndex : List Nat := []
  origToTokIndex : List Nat := []
  allDocTokens : List String := []

/-- The loop over the words of the document, from the word `i` on. -/
def indexDocTokens (tokenize : String → List String) : List String → Nat → DocIndex → DocIndex
  | [], _, d => d
  | token :: tokens, i, d =>
    let subTokens := tokenize token
    indexDocTokens tokenize tokens (i + 1)
      { tokToOrigIndex := d.tokToOrigIndex ++ subTokens.map fun _ => i
        origToTokIndex := d.origToTokIndex ++ [d.allDocTokens.length]
        allDocTokens := d.allDocTokens ++ subTokens }

/-- `xs[i]`, where a negative index counts from the end. -/
def itemAt (xs : List Nat) (i : Int) : Option Nat :=
  if 0 ≤ i then xs[i.toNat]?
  else if 0 ≤ xs.length + i then xs[(xs.length + i).toNat]?
  else none

/-- `xs[i:j]`, for indexes that are not negative. -/
def slice (xs : List String) (i j : Int) : List String := (xs.drop i.toNat).take (j - i).toNat

/-- `range(i, j)`. -/
def rangeUp (i j : Int) : List Int := (List.range (j - i).toNat).map fun k : Nat => i + k

/-- `range(i, j, -1)`. -/
def rangeDown (i j : Int) : List Int := (List.range (i - j).toNat).map fun k : Nat => i - k

/-- `_improve_answer_span`. -/
def improveAnswerSpan (docTokens : List String) (inputStart inputEnd : Int)
    (tokenize : String → List String) (origAnswerText : String) : Int × Int :=
  let tokAnswerText := " ".intercalate (tokenize origAnswerText)
  let found := (rangeUp inputStart (inputEnd + 1)).findSome? fun newStart =>
    (rangeDown inputEnd (newStart - 1)).findSome? fun newEnd =>
      if " ".intercalate (slice docTokens newStart (newEnd + 1)) = tokAnswerText then
        some (newStart, newEnd)
      else none
  found.getD (inputStart, inputEnd)

/-- `tok_end_position`, before a better span is looked for. -/
def annotatedEnd (d : DocIndex) (e : SquadExample) (endPosition : Int) : Option Int :=
  if endPosition < e.docTokens.length - 1 then
    (itemAt d.origToTokIndex (endPosition + 1)).map fun tok : Nat => (tok : Int) - 1
  else some ((d.allDocTokens.length : Int) - 1)

/-- The span of the answer, for an example that has one. -/
def answerSpan (tokenize : String → List String) (d : DocIndex) (e : SquadExample) :
    Option (Int × Int) := do
  let startPosition ← e.startPosition
  let endPosition ← e.endPosition
  let tokStartPosition ← itemAt d.origToTokIndex startPosition
  let tokEndPosition ← annotatedEnd d e endPosition
  return improveAnswerSpan d.allDocTokens tokStartPosition tokEndPosition tokenize e.origAnswerText

/-- `tok_start_position` and `tok_end_position`, which are missing when the example is not for
training. -/
def tokSpanOf (tokenize : String → List String) (isTraining : Bool) (d : DocIndex)
    (e : SquadExample) : Option (Option (Int × Int)) :=
  if !isTraining then some none
  else if e.isImpossible then some (some (-1, -1))
  else (answerSpan tokenize d e).map some

/-! ## The features of the windows -/

/-- The lists and dictionaries that the loop over the tokens of a window fills. -/
structure DocPart where
  tokens : List String
  tokenToOrigMap : UnorderedMap Nat Nat := ∅
  tokenIsMaxContext : UnorderedMap Nat Bool := ∅

/-- The turn of this loop for the token `i` of the window. -/
def addDocToken (d : DocIndex) (docSpans : List DocSpan) (docSpanIndex : Nat) (docSpan : DocSpan)
    (i : Nat) (part : DocPart) : Option DocPart := do
  let splitTokenIndex := docSpan.start + i
  let origIndex ← d.tokToOrigIndex[splitTokenIndex]?
  let token ← d.allDocTokens[splitTokenIndex]?
  let isMaxContext := checkIsMaxContext docSpans docSpanIndex splitTokenIndex
  return {
    tokens := part.tokens ++ [token]
    tokenToOrigMap := part.tokenToOrigMap.insert part.tokens.length origIndex
    tokenIsMaxContext := part.tokenIsMaxContext.insert part.tokens.length isMaxContext }

/-- The loop over the first `length` tokens of the window. -/
def addDocTokens (d : DocIndex) (docSpans : List DocSpan) (docSpanIndex : Nat) (docSpan : DocSpan) :
    Nat → DocPart → Option DocPart
  | 0, part => some part
  | length + 1, part =>
    (addDocTokens d docSpans docSpanIndex docSpan length part).bind
      (addDocToken d docSpans docSpanIndex docSpan length)

/-- `start_position` and `end_position` of a feature: `tokSpan` is missing when the example is not
for training. -/
def targetPositions (isImpossible : Bool) (tokSpan : Option (Int × Int)) (queryCount : Nat)
    (docSpan : DocSpan) : Option (Int × Int) :=
  tokSpan.map fun (tokStartPosition, tokEndPosition) =>
    if isImpossible then (0, 0)
    else
      let docStart : Int := docSpan.start
      let docEnd : Int := docSpan.start + docSpan.length - 1
      if ¬ (tokStartPosition ≥ docStart ∧ tokEndPosition ≤ docEnd) then (0, 0)
      else
        let docOffset : Int := queryCount + 2
        (tokStartPosition - docStart + docOffset, tokEndPosition - docStart + docOffset)

/-- A list with zeros behind it, up to the sequence length. -/
def zeroPad (maxSeqLength : Nat) (xs : List Nat) : List Nat :=
  xs ++ List.replicate (maxSeqLength - xs.length) 0

/-- The body of the loop over the windows. The assertions on the lengths hold if the tokens are not
too many to be padded. -/
def docSpanFeature (tokenizer : Tokenizer) (d : DocIndex) (queryTokens : List String)
    (maxSeqLength : Nat) (tokSpan : Option (Int × Int)) (docSpans : List DocSpan)
    (exampleIndex uniqueId : Nat) (e : SquadExample) (docSpanIndex : Nat) (docSpan : DocSpan) :
    Option InputFeatures := do
  let part ← addDocTokens d docSpans docSpanIndex docSpan docSpan.length
    { tokens := "[CLS]" :: queryTokens ++ ["[SEP]"] }
  let tokens := part.tokens ++ ["[SEP]"]
  let ids ← tokenizer.convertTokensToIds tokens
  guard (ids.length ≤ maxSeqLength)
  let positions := targetPositions e.isImpossible tokSpan queryTokens.length docSpan
  return {
    uniqueId := uniqueId + docSpanIndex
    exampleIndex := exampleIndex
    docSpanIndex := docSpanIndex
    tokens := tokens
    tokenToOrigMap := part.tokenToOrigMap
    tokenIsMaxContext := part.tokenIsMaxContext
    inputIds := zeroPad maxSeqLength ids
    inputMask := zeroPad maxSeqLength (List.replicate ids.length 1)
    segmentIds := zeroPad maxSeqLength (List.replicate (queryTokens.length + 2) 0 ++
      List.replicate (docSpan.length + 1) 1)
    startPosition := positions.map Prod.fst
    endPosition := positions.map Prod.snd
    isImpossible := e.isImpossible }

/-- The loop over the windows, from the window `docSpanIndex` on: the features that the callback
gets, and whether the loop ends without an exception. -/
def docSpanFeatures (feature : Nat → DocSpan → Option InputFeatures) :
    Nat → List DocSpan → List InputFeatures × Bool
  | _, [] => ([], true)
  | docSpanIndex, docSpan :: docSpans =>
    match feature docSpanIndex docSpan with
    | none => ([], false)
    | some first =>
      let (others, ended) := docSpanFeatures feature (docSpanIndex + 1) docSpans
      (first :: others, ended)

/-- The pieces of the question that are kept. -/
def queryTokensOf (tokenize : String → List String) (maxQueryLength : Nat) (e : SquadExample) :
    List String :=
  (tokenize e.questionText).take maxQueryLength

/-- The body of the loop of `convert_examples_to_features` over the examples: the features that
the callback gets, and whether no exception is raised. -/
def convertExample (tokenizer : Tokenizer) (maxSeqLength docStride maxQueryLength : Nat)
    (isTraining : Bool) (exampleIndex uniqueId : Nat) (e : SquadExample) :
    List InputFeatures × Bool :=
  let queryTokens := queryTokensOf tokenizer.tokenize maxQueryLength e
  let d := indexDocTokens tokenizer.tokenize e.docTokens 0 {}
  match tokSpanOf tokenizer.tokenize isTraining d e with
  | none => ([], false)
  | some tokSpan =>
    let maxTokensForDoc := maxSeqLength - queryTokens.length - 3
    match docSpanLoop d.allDocTokens.length maxTokensForDoc docStride d.allDocTokens.length 0 with
    | none => ([], false)
    | some docSpans =>
      docSpanFeatures (docSpanFeature tokenizer d queryTokens maxSeqLength tokSpan docSpans
        exampleIndex uniqueId e) 0 docSpans

/-- The loop over the examples. -/
def convertExamplesToFeatures (tokenizer : Tokenizer)
    (maxSeqLength docStride maxQueryLength : Nat) (isTraining : Bool) :
    Nat → Nat → List SquadExample → List InputFeatures × Bool
  | _, _, [] => ([], true)
  | exampleIndex, uniqueId, e :: examples =>
    let (features, ended) := convertExample tokenizer maxSeqLength docStride maxQueryLength
      isTraining exampleIndex uniqueId e
    if ended then
      let (others, ended) := convertExamplesToFeatures tokenizer maxSeqLength docStride
        maxQueryLength isTraining (exampleIndex + 1) (uniqueId + features.length) examples
      (features ++ others, ended)
    else (features, false)

/-! ## Where the pieces of a word begin -/

section
variable (tokenize : String → List String)

/-- The number of the pieces of the first `k` words. -/
def pieceCount (docTokens : List String) (k : Nat) : Nat :=
  ((docTokens.take k).flatMap tokenize).length

theorem indexDocTokens_spec (docTokens : List String) (i : Nat) (d : DocIndex) :
    let result := indexDocTokens tokenize docTokens i d
    result.allDocTokens = d.allDocTokens ++ docTokens.flatMap tokenize ∧
      result.tokToOrigIndex.length =
        d.tokToOrigIndex.length + (docTokens.flatMap tokenize).length ∧
      result.origToTokIndex = d.origToTokIndex ++ (List.range docTokens.length).map fun k =>
        d.allDocTokens.length + pieceCount tokenize docTokens k := by
  induction docTokens generalizing i d with
  | nil => exact ⟨(List.append_nil _).symm, rfl, (List.append_nil _).symm⟩
  | cons token docTokens ih =>
    obtain ⟨hall, hlength, horig⟩ := ih (i + 1)
      { tokToOrigIndex := d.tokToOrigIndex ++ (tokenize token).map fun _ => i
        origToTokIndex := d.origToTokIndex ++ [d.allDocTokens.length]
        allDocTokens := d.allDocTokens ++ tokenize token }
    refine ⟨?_, ?_, ?_⟩
    · rw [indexDocTokens, hall, List.flatMap_cons, List.append_assoc]
    · rw [indexDocTokens, hlength, List.flatMap_cons, List.length_append, List.length_append,
        List.length_map, Nat.add_assoc]
    · rw [indexDocTokens, horig, List.length_cons, List.range_succ_eq_map, List.map_cons,
        List.map_map, List.append_assoc]
      refine congrArg (d.origToTokIndex ++ ·) (congrArg (d.allDocTokens.length :: ·) ?_)
      refine List.map_congr_left fun k _ => ?_
      simp only [Function.comp_apply, Nat.succ_eq_add_one, pieceCount, List.take_succ_cons,
        List.flatMap_cons, List.length_append, Nat.add_assoc]

/-- The lists for a whole document. -/
theorem indexDocTokens_eq (docTokens : List String) :
    let d := indexDocTokens tokenize docTokens 0 {}
    d.allDocTokens = docTokens.flatMap tokenize ∧
      d.tokToOrigIndex.length = d.allDocTokens.length ∧
      ∀ k < docTokens.length, d.origToTokIndex[k]? = some (pieceCount tokenize docTokens k) := by
  obtain ⟨hall, hlength, horig⟩ := indexDocTokens_spec tokenize docTokens 0 {}
  refine ⟨hall, ?_, fun k hk => ?_⟩
  · rw [hall, hlength]
    exact Nat.zero_add _
  · rw [horig, List.nil_append, List.getElem?_map, List.getElem?_range hk]
    exact congrArg some (Nat.zero_add _)

end

/-! ## The features of a document -/

section
variable {d : DocIndex} {docSpans : List DocSpan} {docSpanIndex : Nat} {docSpan : DocSpan}

/-- The loop over the tokens of a window appends them. -/
theorem addDocTokens_spec (hindex : d.tokToOrigIndex.length = d.allDocTokens.length) {length : Nat}
    (hinside : docSpan.start + length ≤ d.allDocTokens.length) (part : DocPart) :
    ∃ part', addDocTokens d docSpans docSpanIndex docSpan length part = some part' ∧
      part'.tokens = part.tokens ++ (d.allDocTokens.drop docSpan.start).take length := by
  induction length with
  | zero => exact ⟨part, rfl, (List.append_nil _).symm⟩
  | succ length ih =>
    obtain ⟨part', hloop, htokens⟩ := ih ((Nat.le_succ _).trans hinside)
    have hlt : docSpan.start + length < d.allDocTokens.length := hinside
    rw [addDocTokens, hloop, Option.bind_some, addDocToken,
      List.getElem?_eq_getElem (hindex.symm ▸ hlt), List.getElem?_eq_getElem hlt]
    refine ⟨_, rfl, ?_⟩
    show part'.tokens ++ [d.allDocTokens[docSpan.start + length]] = _
    rw [htokens, List.append_assoc, List.take_add_one, List.getElem?_drop,
      List.getElem?_eq_getElem hlt]
    rfl

/-- The tokens of a window: those of the document, behind those of the query. -/
def windowTokens (queryTokens allDocTokens : List String) (docSpan : DocSpan) : List String :=
  "[CLS]" :: queryTokens ++ ["[SEP]"] ++ (allDocTokens.drop docSpan.start).take docSpan.length ++
    ["[SEP]"]

theorem length_windowTokens {queryTokens allDocTokens : List String}
    (hinside : docSpan.start + docSpan.length ≤ allDocTokens.length) :
    (windowTokens queryTokens allDocTokens docSpan).length =
      queryTokens.length + docSpan.length + 3 := by
  unfold windowTokens
  simp only [List.length_append, List.length_cons, List.length_nil, List.length_take,
    List.length_drop]
  omega

theorem length_zeroPad {maxSeqLength : Nat} {xs : List Nat} (h : xs.length ≤ maxSeqLength) :
    (zeroPad maxSeqLength xs).length = maxSeqLength := by
  rw [zeroPad, List.length_append, List.length_replicate]
  exact Nat.add_sub_of_le h

variable {tokenizer : Tokenizer} {tokens : List String}

/-- There are ids if and only if every token has one. -/
theorem convertTokensToIds_isSome_iff :
    (tokenizer.convertTokensToIds tokens).isSome ↔
      ∀ token ∈ tokens, (tokenizer.vocab token).isSome := by
  induction tokens with
  | nil => exact iff_of_true rfl (List.forall_mem_nil _)
  | cons token tokens ih =>
    rw [List.forall_mem_cons, ← ih, Tokenizer.convertTokensToIds]
    cases tokenizer.vocab token with
    | none => simp
    | some id =>
      cases tokenizer.convertTokensToIds tokens with
      | none => simp
      | some ids => simp

theorem length_convertTokensToIds {ids : List Nat}
    (h : tokenizer.convertTokensToIds tokens = some ids) : ids.length = tokens.length := by
  induction tokens generalizing ids with
  | nil =>
    cases h
    rfl
  | cons token tokens ih =>
    rw [Tokenizer.convertTokensToIds] at h
    obtain ⟨id, -, h⟩ := Option.bind_eq_some_iff.mp h
    obtain ⟨ids', hids, h⟩ := Option.bind_eq_some_iff.mp h
    cases h
    rw [List.length_cons, List.length_cons, ih hids]

/-- What a feature says about its window. -/
structure FeatureOf (tokenizer : Tokenizer) (queryTokens : List String) (d : DocIndex)
    (maxSeqLength : Nat) (tokSpan : Option (Int × Int)) (isImpossible : Bool) (docSpan : DocSpan)
    (feature : InputFeatures) : Prop where
  tokens : feature.tokens = windowTokens queryTokens d.allDocTokens docSpan
  inputIds : ∃ ids, tokenizer.convertTokensToIds feature.tokens = some ids ∧
    feature.inputIds = zeroPad maxSeqLength ids
  lengths : feature.inputIds.length = maxSeqLength ∧ feature.inputMask.length = maxSeqLength ∧
    feature.segmentIds.length = maxSeqLength
  startPosition : feature.startPosition =
    (targetPositions isImpossible tokSpan queryTokens.length docSpan).map Prod.fst
  endPosition : feature.endPosition =
    (targetPositions isImpossible tokSpan queryTokens.length docSpan).map Prod.snd
  isImpossible : feature.isImpossible = isImpossible

/-- The indexes of a feature. -/
structure Numbered (exampleIndex uniqueId docSpanIndex : Nat) (feature : InputFeatures) :
    Prop where
  uniqueId : feature.uniqueId = uniqueId + docSpanIndex
  docSpanIndex : feature.docSpanIndex = docSpanIndex
  exampleIndex : feature.exampleIndex = exampleIndex

section
variable {queryTokens : List String} {maxSeqLength : Nat}

/-- A feature is made for a window if and only if its tokens have ids. -/
theorem docSpanFeature_spec (hindex : d.tokToOrigIndex.length = d.allDocTokens.length)
    (hinside : docSpan.start + docSpan.length ≤ d.allDocTokens.length)
    (hfits : queryTokens.length + docSpan.length + 3 ≤ maxSeqLength)
    (tokSpan : Option (Int × Int)) (exampleIndex uniqueId : Nat) (e : SquadExample) :
    ((docSpanFeature tokenizer d queryTokens maxSeqLength tokSpan docSpans exampleIndex uniqueId e
        docSpanIndex docSpan).isSome ↔
      ∀ token ∈ windowTokens queryTokens d.allDocTokens docSpan,
        (tokenizer.vocab token).isSome) ∧
    ∀ feature, docSpanFeature tokenizer d queryTokens maxSeqLength tokSpan docSpans exampleIndex
        uniqueId e docSpanIndex docSpan = some feature →
      FeatureOf tokenizer queryTokens d maxSeqLength tokSpan e.isImpossible docSpan feature ∧
        Numbered exampleIndex uniqueId docSpanIndex feature := by
  obtain ⟨part, hloop, htokens⟩ := @addDocTokens_spec d docSpans docSpanIndex docSpan hindex
    docSpan.length hinside { tokens := "[CLS]" :: queryTokens ++ ["[SEP]"] }
  have hwindow : part.tokens ++ ["[SEP]"] = windowTokens queryTokens d.allDocTokens docSpan :=
    congrArg (· ++ ["[SEP]"]) htokens
  rw [← convertTokensToIds_isSome_iff]
  unfold docSpanFeature
  rw [hloop]
  dsimp only [Option.bind_eq_bind, Option.bind_some]
  rw [hwindow]
  cases hids : tokenizer.convertTokensToIds (windowTokens queryTokens d.allDocTokens docSpan) with
  | none => exact ⟨Iff.rfl, nofun⟩
  | some ids =>
    have hlength := (length_convertTokensToIds hids).trans (length_windowTokens hinside)
    rw [Option.bind_some, guard, if_pos (by omega)]
    refine ⟨iff_of_true rfl rfl, ?_⟩
    rintro feature ⟨⟩
    refine ⟨⟨rfl, ⟨ids, hids, rfl⟩, ⟨?_, ?_, ?_⟩, rfl, rfl, rfl⟩, rfl, rfl, rfl⟩
    · exact length_zeroPad (by omega)
    · exact length_zeroPad (by rw [List.length_replicate]; omega)
    · refine length_zeroPad ?_
      rw [List.length_append, List.length_replicate, List.length_replicate]
      omega

end

/-- The features are those of the first windows, one for each, up to the first window that has
none. -/
theorem docSpanFeatures_spec (feature : Nat → DocSpan → Option InputFeatures) (docSpanIndex : Nat)
    (docSpans : List DocSpan) :
    let result := docSpanFeatures feature docSpanIndex docSpans
    (∀ (k : Nat) (f : InputFeatures), result.1[k]? = some f →
      ∃ docSpan, docSpans[k]? = some docSpan ∧ feature (docSpanIndex + k) docSpan = some f) ∧
    (∀ k < docSpans.length, k < result.1.length ↔
      ∀ j docSpan, (docSpans.take (k + 1))[j]? = some docSpan →
        (feature (docSpanIndex + j) docSpan).isSome) ∧
    (result.2 = true ↔ result.1.length = docSpans.length) := by
  induction docSpans generalizing docSpanIndex with
  | nil => exact ⟨nofun, fun k hk => absurd hk (Nat.not_lt_zero k), iff_of_true rfl rfl⟩
  | cons docSpan docSpans ih =>
    obtain ⟨hmade, hlength, hended⟩ := ih (docSpanIndex + 1)
    rw [docSpanFeatures]
    cases hfirst : feature docSpanIndex docSpan with
    | none =>
      refine ⟨nofun, fun k _ => iff_of_false (Nat.not_lt_zero k) fun hall => ?_,
        iff_of_false Bool.false_ne_true nofun⟩
      have hsome := hall 0 docSpan rfl
      rw [Nat.add_zero, hfirst] at hsome
      cases hsome
    | some first =>
      refine ⟨fun k f hk => ?_, fun k hk => ?_, ?_⟩
      · cases k with
        | zero =>
          cases hk
          exact ⟨docSpan, rfl, hfirst⟩
        | succ k =>
          obtain ⟨docSpan', hget, hone⟩ := hmade k f hk
          rw [Nat.add_assoc, Nat.add_comm 1 k] at hone
          exact ⟨docSpan', hget, hone⟩
      · cases k with
        | zero =>
          refine iff_of_true (Nat.zero_lt_succ _) fun j docSpan' hj => ?_
          cases j with
          | zero =>
            cases hj
            rw [Nat.add_zero, hfirst]
            rfl
          | succ j => cases hj
        | succ k =>
          refine (Nat.succ_lt_succ_iff.trans (hlength k (Nat.lt_of_succ_lt_succ hk))).trans ?_
          constructor
          · intro hall j docSpan' hj
            cases j with
            | zero =>
              cases hj
              rw [Nat.add_zero, hfirst]
              rfl
            | succ j =>
              have hsome := hall j docSpan' hj
              rwa [Nat.add_assoc, Nat.add_comm 1 j] at hsome
          · intro hall j docSpan' hj
            have hsome := hall (j + 1) docSpan' hj
            rwa [Nat.add_comm j 1, ← Nat.add_assoc] at hsome
      · exact hended.trans (Nat.succ_inj).symm

end

/-- The features of the first windows of an example, one for each. -/
structure FeaturesOf (tokenizer : Tokenizer) (maxSeqLength maxQueryLength : Nat)
    (tokSpan : Option (Int × Int)) (exampleIndex uniqueId : Nat) (e : SquadExample)
    (docSpans : List DocSpan) (features : List InputFeatures) : Prop where
  windows : WindowsFrom (e.docTokens.flatMap tokenizer.tokenize).length
    (maxSeqLength - (queryTokensOf tokenizer.tokenize maxQueryLength e).length - 3) 0 docSpans
  made : ∀ (k : Nat) (feature : InputFeatures), features[k]? = some feature →
    ∃ docSpan, docSpans[k]? = some docSpan ∧
      FeatureOf tokenizer (queryTokensOf tokenizer.tokenize maxQueryLength e)
        (indexDocTokens tokenizer.tokenize e.docTokens 0 {}) maxSeqLength tokSpan e.isImpossible
        docSpan feature ∧
      Numbered exampleIndex uniqueId k feature

section
variable {tokenizer : Tokenizer} {maxSeqLength docStride maxQueryLength : Nat} {isTraining : Bool}
  {e : SquadExample} {tokSpan : Option (Int × Int)}

theorem FeaturesOf.length_le {docSpans : List DocSpan} {features : List InputFeatures}
    {exampleIndex uniqueId : Nat}
    (h : FeaturesOf tokenizer maxSeqLength maxQueryLength tokSpan exampleIndex uniqueId e docSpans
      features) : features.length ≤ docSpans.length := by
  refine Nat.le_of_not_lt fun hlt => ?_
  obtain ⟨docSpan, hget, -⟩ := h.made _ _ (List.getElem?_eq_getElem hlt)
  exact Nat.lt_irrefl _ (List.getElem?_eq_some_iff.mp hget).1

/-- The tokens of the windows that make up the first `count` pieces of an example have ids. -/
def HasIds (tokenizer : Tokenizer) (maxQueryLength : Nat) (e : SquadExample) (count : Nat) : Prop :=
  ∀ token ∈ "[CLS]" :: "[SEP]" :: queryTokensOf tokenizer.tokenize maxQueryLength e ++
    (e.docTokens.flatMap tokenizer.tokenize).take count, (tokenizer.vocab token).isSome

theorem mem_windowTokens {queryTokens allDocTokens : List String} {docSpan : DocSpan}
    {token : String} :
    token ∈ windowTokens queryTokens allDocTokens docSpan ↔
      token = "[CLS]" ∨ token = "[SEP]" ∨ token ∈ queryTokens ∨
        token ∈ (allDocTokens.drop docSpan.start).take docSpan.length := by
  unfold windowTokens
  simp only [List.mem_append, List.mem_cons, List.not_mem_nil, or_false]
  tauto

/-- A piece is in the tokens of a window that contains its position. -/
theorem mem_window_of_contains {allDocTokens : List String} {docSpan : DocSpan} {position : Nat}
    {token : String} (hat : allDocTokens[position]? = some token)
    (h : docSpan.Contains position) :
    token ∈ (allDocTokens.drop docSpan.start).take docSpan.length := by
  obtain ⟨hge, hlt⟩ := h
  refine List.mem_iff_getElem?.mpr ⟨position - docSpan.start, ?_⟩
  rw [List.getElem?_take_of_lt (by omega), List.getElem?_drop, Nat.add_sub_cancel' hge, hat]

/-- The tokens of windows that make up the first `count` pieces of the document are the special
ones, those of the query, and these pieces, if there are any. -/
theorem forall_windowTokens_iff {queryTokens allDocTokens : List String} {P : String → Prop}
    {maxTokensForDoc count : Nat} {docSpans : List DocSpan} (hcount : count ≤ allDocTokens.length)
    (hwindows : WindowsFrom count maxTokensForDoc 0 docSpans) :
    (∀ docSpan ∈ docSpans, ∀ token ∈ windowTokens queryTokens allDocTokens docSpan, P token) ↔
      (∀ token ∈ "[CLS]" :: "[SEP]" :: queryTokens ++ allDocTokens.take count, P token) ∨
        count = 0 := by
  constructor
  · intro h
    refine or_iff_not_imp_right.mpr fun hne token hmem => ?_
    obtain ⟨docSpan, hdocSpan, -⟩ := hwindows.covers 0 (Nat.le_refl 0) (Nat.pos_of_ne_zero hne)
    have hspan := fun hin => h docSpan hdocSpan token (mem_windowTokens.mpr hin)
    simp only [List.cons_append, List.mem_cons, List.mem_append] at hmem
    rcases hmem with hcls | hsep | hquery | hdoc
    · exact hspan (.inl hcls)
    · exact hspan (.inr (.inl hsep))
    · exact hspan (.inr (.inr (.inl hquery)))
    · obtain ⟨position, hat⟩ := List.mem_iff_getElem?.mp hdoc
      have hlt := (List.getElem?_eq_some_iff.mp hat).1
      rw [List.length_take_of_le hcount] at hlt
      rw [List.getElem?_take_of_lt hlt] at hat
      obtain ⟨docSpan', hdocSpan', hcontains⟩ := hwindows.covers position (Nat.zero_le _) hlt
      exact h docSpan' hdocSpan' token
        (mem_windowTokens.mpr (.inr (.inr (.inr (mem_window_of_contains hat hcontains)))))
  · rintro (h | rfl) docSpan hdocSpan token hmem
    · refine h token ?_
      simp only [List.cons_append, List.mem_cons, List.mem_append]
      refine (mem_windowTokens.mp hmem).imp_right (.imp_right (.imp_right fun hdoc => ?_))
      have hinside := (hwindows.inside docSpan hdocSpan).2
      rw [← List.take_append_drop count allDocTokens,
        List.drop_append_of_le_length (by rw [List.length_take]; omega),
        List.take_append_of_le_length (by rw [List.length_drop, List.length_take]; omega)] at hdoc
      exact List.mem_of_mem_drop (List.mem_of_mem_take hdoc)
    · rw [hwindows.eq_nil] at hdocSpan
      cases hdocSpan

/-- The features of an example whose answer has been found, or that has none: one for each window up
to the first one with a token without an id. Without such a token no exception is raised. -/
theorem convertExample_spec
    (hspan : tokSpanOf tokenizer.tokenize isTraining
      (indexDocTokens tokenizer.tokenize e.docTokens 0 {}) e = some tokSpan)
    (hmax : (queryTokensOf tokenizer.tokenize maxQueryLength e).length + 4 ≤ maxSeqLength)
    (hstride : 1 ≤ docStride) (exampleIndex uniqueId : Nat) :
    let result := convertExample tokenizer maxSeqLength docStride maxQueryLength isTraining
      exampleIndex uniqueId e
    ∃ docSpans, docSpanLoop (e.docTokens.flatMap tokenizer.tokenize).length
        (maxSeqLength - (queryTokensOf tokenizer.tokenize maxQueryLength e).length - 3) docStride
        (e.docTokens.flatMap tokenizer.tokenize).length 0 = some docSpans ∧
      FeaturesOf tokenizer maxSeqLength maxQueryLength tokSpan exampleIndex uniqueId e docSpans
        result.1 ∧
      (∀ k < docSpans.length, k < result.1.length ↔
        ∀ docSpan ∈ docSpans.take (k + 1),
          ∀ token ∈ windowTokens (queryTokensOf tokenizer.tokenize maxQueryLength e)
            (e.docTokens.flatMap tokenizer.tokenize) docSpan, (tokenizer.vocab token).isSome) ∧
      (result.2 = true ↔ result.1.length = docSpans.length) := by
  obtain ⟨hall, hindex, -⟩ := indexDocTokens_eq tokenizer.tokenize e.docTokens
  obtain ⟨docSpans, hwindows, hloop⟩ :=
    @docSpanLoop_spec (e.docTokens.flatMap tokenizer.tokenize).length
      (maxSeqLength - (queryTokensOf tokenizer.tokenize maxQueryLength e).length - 3) docStride
      (by omega) hstride (e.docTokens.flatMap tokenizer.tokenize).length 0 (Nat.le_refl _)
  have hloop := Nat.add_zero _ ▸ hloop 0
  have hfeature : ∀ docSpan ∈ docSpans, ∀ index, _ := fun docSpan hmem index =>
    @docSpanFeature_spec _ docSpans index docSpan tokenizer
      (queryTokensOf tokenizer.tokenize maxQueryLength e) maxSeqLength hindex
      (hall ▸ (hwindows.inside docSpan hmem).2)
      (by have hlength := (hwindows.length docSpan hmem).2; omega) tokSpan exampleIndex uniqueId e
  have hconvert : convertExample tokenizer maxSeqLength docStride maxQueryLength isTraining
      exampleIndex uniqueId e = docSpanFeatures (docSpanFeature tokenizer
        (indexDocTokens tokenizer.tokenize e.docTokens 0 {})
        (queryTokensOf tokenizer.tokenize maxQueryLength e) maxSeqLength tokSpan docSpans
        exampleIndex uniqueId e) 0 docSpans := by
    unfold convertExample
    dsimp only
    rw [hspan]
    dsimp only
    rw [hall, hloop]
  obtain ⟨hmade, hlength, hended⟩ := docSpanFeatures_spec (docSpanFeature tokenizer
    (indexDocTokens tokenizer.tokenize e.docTokens 0 {})
    (queryTokensOf tokenizer.tokenize maxQueryLength e) maxSeqLength tokSpan docSpans
    exampleIndex uniqueId e) 0 docSpans
  intro result
  rw [show result = _ from hconvert]
  refine ⟨docSpans, hloop, ⟨hwindows, fun k feature hk => ?_⟩, fun k hk => ?_, hended⟩
  · obtain ⟨docSpan, hget, hone⟩ := hmade k feature hk
    rw [Nat.zero_add] at hone
    exact ⟨docSpan, hget, (hfeature docSpan (List.mem_of_getElem? hget) k).2 feature hone⟩
  · rw [hlength k hk, ← hall]
    constructor
    · intro hsome docSpan hmem
      obtain ⟨j, hj⟩ := List.mem_iff_getElem?.mp hmem
      exact (hfeature docSpan (List.mem_of_mem_take hmem) _).1.mp (hsome j docSpan hj)
    · intro hids j docSpan hj
      have hmem := List.mem_of_getElem? hj
      exact (hfeature docSpan (List.mem_of_mem_take hmem) _).1.mpr (hids docSpan hmem)

/-- The features of all examples: the ones of each example behind those of the examples in front
of it, with indexes that go on. -/
inductive AllMade (tokenizer : Tokenizer) (maxSeqLength maxQueryLength : Nat) (isTraining : Bool) :
    Nat → Nat → List SquadExample → List InputFeatures → Prop
  | nil (exampleIndex uniqueId : Nat) :
    AllMade tokenizer maxSeqLength maxQueryLength isTraining exampleIndex uniqueId [] []
  | cons {exampleIndex uniqueId : Nat} {e : SquadExample} {examples : List SquadExample}
      {tokSpan : Option (Int × Int)} {docSpans : List DocSpan} {own others : List InputFeatures}
      (hspan : tokSpanOf tokenizer.tokenize isTraining
        (indexDocTokens tokenizer.tokenize e.docTokens 0 {}) e = some tokSpan)
      (hown : FeaturesOf tokenizer maxSeqLength maxQueryLength tokSpan exampleIndex uniqueId e
        docSpans own)
      (hlength : own.length = docSpans.length)
      (hothers : AllMade tokenizer maxSeqLength maxQueryLength isTraining (exampleIndex + 1)
        (uniqueId + own.length) examples others) :
    AllMade tokenizer maxSeqLength maxQueryLength isTraining exampleIndex uniqueId (e :: examples)
      (own ++ others)

/-- If the answer of every example is found, and its tokens have ids, then all features are made. -/
theorem convertExamplesToFeatures_spec {examples : List SquadExample}
    (hspan : ∀ e ∈ examples, ∃ tokSpan, tokSpanOf tokenizer.tokenize isTraining
      (indexDocTokens tokenizer.tokenize e.docTokens 0 {}) e = some tokSpan)
    (hids : ∀ e ∈ examples, ∀ count, HasIds tokenizer maxQueryLength e count)
    (hmax : maxQueryLength + 4 ≤ maxSeqLength) (hstride : 1 ≤ docStride)
    (exampleIndex uniqueId : Nat) :
    ∃ features, convertExamplesToFeatures tokenizer maxSeqLength docStride maxQueryLength isTraining
        exampleIndex uniqueId examples = (features, true) ∧
      AllMade tokenizer maxSeqLength maxQueryLength isTraining exampleIndex uniqueId examples
        features := by
  induction examples generalizing exampleIndex uniqueId with
  | nil => exact ⟨[], rfl, .nil exampleIndex uniqueId⟩
  | cons e examples ih =>
    obtain ⟨⟨tokSpan, htokSpan⟩, hspans⟩ := List.forall_mem_cons.mp hspan
    obtain ⟨hfirst, hothers⟩ := List.forall_mem_cons.mp hids
    have hquery : (queryTokensOf tokenizer.tokenize maxQueryLength e).length + 4 ≤ maxSeqLength :=
      (Nat.add_le_add_right (List.length_take_le ..) 4).trans hmax
    obtain ⟨docSpans, -, hown, hmade, hended⟩ :=
      convertExample_spec htokSpan hquery hstride exampleIndex uniqueId
    have hwindows := (forall_windowTokens_iff (P := fun token => (tokenizer.vocab token).isSome)
      (Nat.le_refl _) hown.windows).mpr (.inl (hfirst _))
    generalize hresult : convertExample tokenizer maxSeqLength docStride maxQueryLength isTraining
      exampleIndex uniqueId e = result at hown hmade hended
    obtain ⟨own, ended⟩ := result
    have hlength : own.length = docSpans.length :=
      Nat.le_antisymm hown.length_le (Nat.le_of_not_lt fun hlt =>
        Nat.lt_irrefl _ ((hmade _ hlt).mpr fun docSpan hmem =>
          hwindows docSpan (List.mem_of_mem_take hmem)))
    obtain rfl : ended = true := hended.mpr hlength
    obtain ⟨others, hloop, hothersMade⟩ :=
      ih hspans hothers (exampleIndex + 1) (uniqueId + own.length)
    refine ⟨own ++ others, ?_, .cons htokSpan hown hlength hothersMade⟩
    rw [convertExamplesToFeatures, hresult]
    dsimp only
    rw [if_pos rfl, hloop]

end

end FinBert.Squad
