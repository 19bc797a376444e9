import FinBert.Lib.Random
import Mathlib.Data.List.Sort

/-!
# Training instances

`create_instances_from_document` and what it calls, from
`src/data/prep/create_pretraining_data.py` and its two copies, the sentiment generator
(`src/data/prep/create_sentiment_data.py`) and the GPU generator
(`src/bert-gpu/utils/create_pretraining_data.py`). The copies differ in the masking alone,
so the loop over a document is one definition with the masking as a parameter.
-/

namespace FinBert.Prep

open Random

/-- A Python `str`: its code points. -/
abbrev Text := List Char

abbrev Token := Text

instance : LawfulBEq Token := List.instLawfulBEq

/-- The tokens of one line of the input. -/
abbrev Segment := List Token

abbrev Document := List Segment

def CLS : Token := "[CLS]".toList
def SEP : Token := "[SEP]".toList
def MASK : Token := "[MASK]".toList
def UNK : Token := "[UNK]".toList

/-- `xs[-1].append(x)`. -/
def appendToLast {α : Type} (xs : List (List α)) (x : α) : List (List α) :=
  match xs.getLast? with
  | some last => xs.dropLast ++ [last ++ [x]]
  | none => xs

@[simp] theorem appendToLast_concat {α : Type} (init : List (List α)) (last : List α) (x : α) :
    appendToLast (init ++ [last]) x = init ++ [last ++ [x]] := by
  unfold appendToLast
  rw [List.getLast?_concat, List.dropLast_concat]

/-- `token == "[CLS]" or token == "[SEP]"`. -/
def isSpecial (token : Token) : Bool := token == CLS || token == SEP

/-- `token.startswith("##")`. -/
def isContinuation (token : Token) : Bool := "##".toList.isPrefixOf token

/-- The `float` 0.5. -/
def half : ℚ where
  num := 1
  den := 2
  den_nz := by decide
  reduced := by decide

/-- The `float` 0.8. -/
def fourFifths : ℚ where
  num := 3602879701896397
  den := 4503599627370496
  den_nz := by decide
  reduced := by decide

/-- `TrainingInstance`. -/
structure TrainingInstance where
  tokens : List Token
  segmentIds : List Nat
  isRandomNext : Bool
  maskedLmPositions : List Nat
  maskedLmLabels : List Token
deriving DecidableEq

/-! ## `create_masked_lm_predictions` -/

/-- The arguments that the masking takes from the flags and the tokenizer. `rounded n` is
`int(round(n * masked_lm_prob))`, and the maximum is a count. -/
structure MaskConfig where
  doWholeWordMask : Bool
  rounded : Nat → Int
  maxPredictionsPerSeq : Nat
  vocabWords : List Token

/-- `num_to_predict`. -/
def MaskConfig.numToPredict (cfg : MaskConfig) (tokens : List Token) : Int :=
  min cfg.maxPredictionsPerSeq (max 1 (cfg.rounded tokens.length))

/-- The grouping of one token: a new candidate, or a further index of the last one. -/
def addCandidate (doWholeWordMask : Bool) (candIndexes : List (List Nat)) (i : Nat)
    (token : Token) : List (List Nat) :=
  if doWholeWordMask && !candIndexes.isEmpty && isContinuation token then
    appendToLast candIndexes i
  else candIndexes ++ [[i]]

/-- The first loop of `create_masked_lm_predictions`, from the index `i` on. `forced` is
what the sentiment generator does before it groups a token. -/
def groupFrom (doWholeWordMask : Bool) (forced : Token → Bool) :
    Nat → List Token → List (List Nat) → List (List Nat)
  | _, [], candIndexes => candIndexes
  | i, token :: tokens, candIndexes =>
    if isSpecial token then groupFrom doWholeWordMask forced (i + 1) tokens candIndexes
    else
      let candIndexes := if forced token then candIndexes ++ [[i]] else candIndexes
      groupFrom doWholeWordMask forced (i + 1) tokens
        (addCandidate doWholeWordMask candIndexes i token)

/-- The local variables of the second loop: `output_tokens`, `masked_lms`, a list of index
and label, and `covered_indexes`. -/
structure MaskState where
  outputTokens : List Token
  maskedLms : List (Nat × Token) := []
  coveredIndexes : List Nat := []

/-- What `create_masked_lm_predictions` returns. -/
structure Predictions where
  outputTokens : List Token
  maskedLmPositions : List Nat
  maskedLmLabels : List Token

/-- The token that replaces the one at `index`. -/
def maskedToken (vocabWords tokens : List Token) (index : Nat) : Py Token := do
  if ← randomBelow fourFifths then return MASK
  else if ← randomBelow half then getItem tokens index
  else
    let k ← randint 0 ((vocabWords.length : Int) - 1)
    getItem vocabWords k.toNat

/-- The body of the loop over an index set. -/
def maskIndex (vocabWords tokens : List Token) (s : MaskState) (index : Nat) : Py MaskState := do
  let masked ← maskedToken vocabWords tokens index
  let label ← getItem tokens index
  return { outputTokens := s.outputTokens.set index masked
           maskedLms := s.maskedLms ++ [(index, label)]
           coveredIndexes := index :: s.coveredIndexes }

def maskIndexSet (vocabWords tokens : List Token) : List Nat → MaskState → Py MaskState
  | [], s => pure s
  | index :: indexSet, s => do
    let s ← maskIndex vocabWords tokens s index
    maskIndexSet vocabWords tokens indexSet s

/-- The loop over the shuffled candidates. -/
def maskCandidates (cfg : MaskConfig) (tokens : List Token) :
    List (List Nat) → MaskState → Py MaskState
  | [], s => pure s
  | indexSet :: candIndexes, s =>
    if cfg.numToPredict tokens ≤ s.maskedLms.length then pure s
    else if cfg.numToPredict tokens < s.maskedLms.length + indexSet.length then
      maskCandidates cfg tokens candIndexes s
    else if indexSet.any (· ∈ s.coveredIndexes) then maskCandidates cfg tokens candIndexes s
    else do
      let s ← maskIndexSet cfg.vocabWords tokens indexSet s
      maskCandidates cfg tokens candIndexes s

/-- `sorted(masked_lms, key=lambda x: x.index)`, taken apart again. -/
def MaskState.predictions (s : MaskState) : Predictions :=
  let maskedLms := s.maskedLms.insertionSort (fun p q => p.1 ≤ q.1)
  { outputTokens := s.outputTokens
    maskedLmPositions := maskedLms.map (·.1)
    maskedLmLabels := maskedLms.map (·.2) }

/-- `create_masked_lm_predictions` behind its first loop. -/
def predictFrom (cfg : MaskConfig) (candIndexes : List (List Nat)) (tokens : List Token) :
    Py Predictions := do
  let candIndexes ← shuffle candIndexes
  let s ← maskCandidates cfg tokens candIndexes { outputTokens := tokens }
  assert ((s.maskedLms.length : Int) ≤ cfg.numToPredict tokens)
  return s.predictions

/-! ## `truncate_seq_pair` -/

/-- `truncate_seq_pair`, with a bound on the number of turns of the `while` loop. -/
def truncateLoop (maxNumTokens : Int) :
    Nat → List Token → List Token → Py (List Token × List Token)
  | fuel, tokensA, tokensB =>
    if (tokensA.length : Int) + tokensB.length ≤ maxNumTokens then pure (tokensA, tokensB)
    else
      match fuel with
      | 0 => throw .outOfFuel
      | fuel + 1 => do
        let truncatesA := decide (tokensB.length < tokensA.length)
        let truncTokens := if truncatesA then tokensA else tokensB
        assert (1 ≤ truncTokens.length)
        let front ← randomBelow half
        let truncTokens := if front then truncTokens.tail else truncTokens.dropLast
        if truncatesA then truncateLoop maxNumTokens fuel truncTokens tokensB
        else truncateLoop maxNumTokens fuel tokensA truncTokens

/-- `truncate_seq_pair`: each turn removes a token. -/
def truncateSeqPair (tokensA tokensB : List Token) (maxNumTokens : Int) :
    Py (List Token × List Token) :=
  truncateLoop maxNumTokens (tokensA.length + tokensB.length) tokensA tokensB

/-! ## `create_instances_from_document` -/

/-- The arguments of `create_instances_from_document` apart from those of the masking. -/
structure DocumentArgs where
  allDocuments : List Document
  documentIndex : Nat
  maxSeqLength : Int
  shortSeqProb : ℚ

/-- Account for `[CLS]`, `[SEP]`, `[SEP]`. -/
def DocumentArgs.maxNumTokens (args : DocumentArgs) : Int := args.maxSeqLength - 3

/-- The local variables behind one training instance, which the code forgets. `bDocument`
is the index of the document that the segments of B come from, `choiceRng` the generator
before B was chosen and `truncateRng` the generator before the truncation. -/
structure Draft where
  aSegments : List Segment
  bSegments : List Segment
  isRandomNext : Bool
  bDocument : Nat
  choiceRng : Rng
  truncateRng : Rng
  tokensA : List Token
  tokensB : List Token

/-- `tokens`, as they are before the masking. -/
def Draft.tokens (draft : Draft) : List Token :=
  CLS :: draft.tokensA ++ SEP :: draft.tokensB ++ [SEP]

/-- `segment_ids`. -/
def Draft.segmentIds (draft : Draft) : List Nat :=
  0 :: draft.tokensA.map (fun _ => 0) ++ 0 :: draft.tokensB.map (fun _ => 1) ++ [1]

/-- The segments of the document that the instance uses up. -/
def Draft.used (draft : Draft) : List Segment :=
  draft.aSegments ++ if draft.isRandomNext then [] else draft.bSegments

/-- The loop of at most ten tries for a document other than the one being processed;
the last try stands, whatever it is. -/
def chooseDocument (count documentIndex : Nat) : Nat → Nat → Py Nat
  | 0, randomDocumentIndex => pure randomDocumentIndex
  | tries + 1, _ => do
    let k ← randint 0 ((count : Int) - 1)
    if k.toNat ≠ documentIndex then pure k.toNat
    else chooseDocument count documentIndex tries k.toNat

/-- The loop over the random document: segments until B has the target length. -/
def segmentsUntil (targetBLength : Int) : Nat → List Segment → List Segment
  | _, [] => []
  | length, segment :: segments =>
    if targetBLength ≤ ((length + segment.length : Nat) : Int) then [segment]
    else segment :: segmentsUntil targetBLength (length + segment.length) segments

/-- Random next: the document and the segments of B. -/
def randomNext (args : DocumentArgs) (targetBLength : Int) : Py (Nat × List Segment) := do
  let k ← chooseDocument args.allDocuments.length args.documentIndex 10 0
  let randomDocument ← getItem args.allDocuments k
  let randomStart ← randint 0 ((randomDocument.length : Int) - 1)
  return (k, segmentsUntil targetBLength 0 (randomDocument.drop randomStart.toNat))

/-- `a_end`: how many segments of a chunk go into A. -/
def drawAEnd (currentChunk : List Segment) : Py Nat :=
  if 2 ≤ currentChunk.length then Int.toNat <$> randint 1 ((currentChunk.length : Int) - 1)
  else pure 1

/-- `is_random_next`: a chunk of one segment has no actual next. -/
def drawIsRandomNext (currentChunk : List Segment) : Py Bool :=
  if currentChunk.length = 1 then pure true else randomBelow half

/-- The document and the segments of B. -/
def drawB (args : DocumentArgs) (targetBLength : Int) (isRandomNext : Bool)
    (actualNext : List Segment) : Py (Nat × List Segment) :=
  if isRandomNext then randomNext args targetBLength else pure (args.documentIndex, actualNext)

/-- The draft made of `current_chunk`, and the number of its segments that are put back. -/
def draftOfChunk (args : DocumentArgs) (targetSeqLength : Int) (currentChunk : List Segment) :
    Py (Draft × Nat) := do
  let aEnd ← drawAEnd currentChunk
  let aSegments := currentChunk.take aEnd
  let isRandomNext ← drawIsRandomNext currentChunk
  let choiceRng ← get
  let (bDocument, bSegments) ←
    drawB args (targetSeqLength - aSegments.flatten.length) isRandomNext (currentChunk.drop aEnd)
  let truncateRng ← get
  let (tokensA, tokensB) ←
    truncateSeqPair aSegments.flatten bSegments.flatten args.maxNumTokens
  assert (1 ≤ tokensA.length)
  assert (1 ≤ tokensB.length)
  let numUnusedSegments := if isRandomNext then currentChunk.length - aEnd else 0
  return ({ aSegments, bSegments, isRandomNext, bDocument, choiceRng, truncateRng, tokensA,
            tokensB }, numUnusedSegments)

/-- The instance made of a draft and of what the masking returns for its tokens. -/
def Draft.toInstance (draft : Draft) (predictions : Predictions) : TrainingInstance where
  tokens := predictions.outputTokens
  segmentIds := draft.segmentIds
  isRandomNext := draft.isRandomNext
  maskedLmPositions := predictions.maskedLmPositions
  maskedLmLabels := predictions.maskedLmLabels

/-- The `while` loop of `create_instances_from_document`, with a bound on the number of
its turns. A chunk that is closed is never empty: it ends with the segment at `i`. -/
def documentLoop (args : DocumentArgs) (mask : List Token → Py Predictions)
    (targetSeqLength : Int) (document : Document) :
    Nat → Nat → List Segment → Nat → Py (List (Draft × TrainingInstance))
  | fuel, i, currentChunk, currentLength =>
    match document[i]? with
    | none => pure []
    | some segment =>
      match fuel with
      | 0 => throw .outOfFuel
      | fuel + 1 => do
        let currentChunk := currentChunk ++ [segment]
        let currentLength := currentLength + segment.length
        if i + 1 = document.length ∨ targetSeqLength ≤ currentLength then
          let (draft, numUnusedSegments) ← draftOfChunk args targetSeqLength currentChunk
          let predictions ← mask draft.tokens
          -- the unused segments, of those up to `i`, are put back
          let rest ← documentLoop args mask targetSeqLength document fuel
            (i - numUnusedSegments + 1) [] 0
          return (draft, draft.toInstance predictions) :: rest
        else
          documentLoop args mask targetSeqLength document fuel (i + 1) currentChunk currentLength

/-- `target_seq_length`. -/
def targetSeqLength (args : DocumentArgs) : Py Int := do
  if ← randomBelow args.shortSeqProb then randint 2 args.maxNumTokens
  else return args.maxNumTokens

/-- `create_instances_from_document`, each instance with the draft that it was made of.
After each closed chunk, the next one starts at a later segment. -/
def tracedInstances (args : DocumentArgs) (mask : List Token → Py Predictions) :
    Py (List (Draft × TrainingInstance)) := do
  let document ← getItem args.allDocuments args.documentIndex
  let target ← targetSeqLength args
  documentLoop args mask target document ((document.length + 1) * (document.length + 1)) 0 [] 0

/-- `create_instances_from_document`. -/
def instancesFromDocument (args : DocumentArgs) (mask : List Token → Py Predictions) :
    Py (List TrainingInstance) :=
  (fun traced => traced.map (·.2)) <$> tracedInstances args mask

/-! ## The three generators -/

namespace Pretraining

def candIndexes (doWholeWordMask : Bool) (tokens : List Token) : List (List Nat) :=
  groupFrom doWholeWordMask (fun _ => false) 0 tokens []

def createMaskedLmPredictions (cfg : MaskConfig) (tokens : List Token) : Py Predictions :=
  predictFrom cfg (candIndexes cfg.doWholeWordMask tokens) tokens

def createInstancesFromDocument (args : DocumentArgs) (cfg : MaskConfig) :
    Py (List TrainingInstance) :=
  instancesFromDocument args (createMaskedLmPredictions cfg)

end Pretraining

namespace Sentiment

/-- A token of `must_mask` is a candidate of its own before it is grouped. -/
def candIndexes (doWholeWordMask : Bool) (mustMask tokens : List Token) : List (List Nat) :=
  groupFrom doWholeWordMask (fun token => decide (token ∈ mustMask)) 0 tokens []

def createMaskedLmPredictions (cfg : MaskConfig) (mustMask tokens : List Token) :
    Py Predictions :=
  predictFrom cfg (candIndexes cfg.doWholeWordMask mustMask tokens) tokens

def createInstancesFromDocument (args : DocumentArgs) (cfg : MaskConfig) (mustMask : List Token) :
    Py (List TrainingInstance) :=
  instancesFromDocument args (createMaskedLmPredictions cfg mustMask)

end Sentiment

namespace Gpu

/-- The candidates are single indexes. -/
def candIndexes (tokens : List Token) : List Nat :=
  (List.range tokens.length).filter fun i => !isSpecial (tokens.getD i [])

/-- The loop over the shuffled candidates, without index sets. -/
def maskCandidates (cfg : MaskConfig) (tokens : List Token) :
    List Nat → MaskState → Py MaskState
  | [], s => pure s
  | index :: candIndexes, s =>
    if cfg.numToPredict tokens ≤ s.maskedLms.length then pure s
    else if index ∈ s.coveredIndexes then maskCandidates cfg tokens candIndexes s
    else do
      let s ← maskIndex cfg.vocabWords tokens s index
      maskCandidates cfg tokens candIndexes s

/-- This generator has no flag for whole words and no final assertion. -/
def createMaskedLmPredictions (cfg : MaskConfig) (tokens : List Token) : Py Predictions := do
  let candIndexes ← shuffle (candIndexes tokens)
  let s ← maskCandidates cfg tokens candIndexes { outputTokens := tokens }
  return s.predictions

def createInstancesFromDocument (args : DocumentArgs) (cfg : MaskConfig) :
    Py (List TrainingInstance) :=
  instancesFromDocument args (createMaskedLmPredictions cfg)

end Gpu

end FinBert.Prep
