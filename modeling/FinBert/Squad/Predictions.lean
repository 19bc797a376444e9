import FinBert.Lib.StableSort
import FinBert.Squad.Features
import FinBert.Squad.FinalText

/-!
# Writing the predictions

`write_predictions` (`run_squad.py`) turns the logits of the features into one answer for each
example. The spans with the best logits are filtered, sorted and given their texts; with
`version_2_with_negative` the empty answer takes part as well. The logits are of any type with a
linear order, addition and division; `exp` is an argument.

* `isValidSpan`, `scanFeatures`: the spans of the features and the least score of the empty answer.
* `nbestLoop`, `completeNbest`: the entries with their texts.
* `computeSoftmax`, `answerOf`: the answer of an example.
* `writePredictions`: the dictionaries that are written.
-/

namespace FinBert.Squad

open Prep (Text Unicode)
open StableSort (sortedDesc)

/-! ## Inputs and outputs -/

/-- The exceptions that `write_predictions` may raise. -/
inductive PyError
  | keyError
  | indexError
  | attributeError
  | assertionError
  | zeroDivisionError
deriving DecidableEq

/-- `RawResult`. -/
structure RawResult (L : Type) where
  uniqueId : Nat
  startLogits : List L
  endLogits : List L

/-- `_PrelimPrediction`. -/
structure PrelimPrediction (L : Type) where
  featureIndex : Nat
  startIndex : Nat
  endIndex : Nat
  startLogit : L
  endLogit : L

/-- `_NbestPrediction`. -/
structure NbestPrediction (L : Type) where
  text : Text
  startLogit : L
  endLogit : L
deriving DecidableEq

/-- An element of `nbest_json`. -/
structure NbestOutput (L : Type) extends NbestPrediction L where
  probability : L
deriving DecidableEq

/-- The dictionaries that are written to the files. -/
structure Outputs (L : Type) where
  allPredictions : OrderedDict String Text := []
  allNbestJson : OrderedDict String (List (NbestOutput L)) := []
  scoresDiffJson : OrderedDict String L := []
deriving DecidableEq

/-- The arguments and flags, with `math.exp` and the Unicode database. -/
structure PredictionArgs (L : Type) where
  nBestSize : Nat
  maxAnswerLength : Int
  doLowerCase : Bool
  version2WithNegative : Bool
  nullScoreDiffThreshold : L
  unicode : Unicode
  exp : L → L

/-- The result of a key, or `KeyError`. -/
def valueOf {ν : Type} (m : UnorderedMap Nat ν) (k : Nat) : Except PyError ν :=
  match m.find k with
  | some v => .ok v
  | none => .error .keyError

section
variable {L : Type} [LinearOrder L] [Add L] [Sub L] [Div L] [NatCast L]

/-! ## The spans -/

/-- `_get_best_indexes`. -/
def getBestIndexes (logits : List L) (nBestSize : Nat) : List Nat :=
  ((sortedDesc Prod.fst logits.zipIdx).take nBestSize).map Prod.snd

/-- The conditions under which the loops over the indexes do not go on with the next one. -/
def isValidSpan (maxAnswerLength : Int) (feature : InputFeatures) (startIndex endIndex : Nat) :
    Bool :=
  if startIndex ≥ feature.tokens.length then false
  else if endIndex ≥ feature.tokens.length then false
  else if (feature.tokenToOrigMap.find startIndex).isNone then false
  else if (feature.tokenToOrigMap.find endIndex).isNone then false
  else if !(feature.tokenIsMaxContext.find startIndex).getD false then false
  else if endIndex < startIndex then false
  else
    let length : Int := endIndex - startIndex + 1
    if length > maxAnswerLength then false else true

/-- The loops over the start and end indexes of a feature. The logits of the indexes are always
there, so that no span is left out for them. -/
def spansOf (args : PredictionArgs L) (featureIndex : Nat) (feature : InputFeatures)
    (result : RawResult L) : List (PrelimPrediction L) :=
  (getBestIndexes result.startLogits args.nBestSize).flatMap fun startIndex =>
    (getBestIndexes result.endLogits args.nBestSize).filterMap fun endIndex => do
      let startLogit ← result.startLogits[startIndex]?
      let endLogit ← result.endLogits[endIndex]?
      guard (isValidSpan args.maxAnswerLength feature startIndex endIndex)
      return { featureIndex, startIndex, endIndex, startLogit, endLogit }

/-- `score_null`, `min_null_feature_index`, `null_start_logit` and `null_end_logit`. -/
structure NullScore (L : Type) [NatCast L] where
  scoreNull : L := (1000000 : Nat)
  minNullFeatureIndex : Nat := 0
  nullStartLogit : L := (0 : Nat)
  nullEndLogit : L := (0 : Nat)

/-- The logits of position 0 of a feature. -/
def NullScore.update (featureIndex : Nat) (startLogit endLogit : L) (null : NullScore L) :
    NullScore L :=
  let featureNullScore := startLogit + endLogit
  if featureNullScore < null.scoreNull then
    { scoreNull := featureNullScore
      minNullFeatureIndex := featureIndex
      nullStartLogit := startLogit
      nullEndLogit := endLogit }
  else null

/-- The step of the loop over the features that looks for the least score of position 0. -/
def lookAtNull (args : PredictionArgs L) (featureIndex : Nat) (result : RawResult L)
    (null : NullScore L) : Except PyError (NullScore L) :=
  if args.version2WithNegative then
    match result.startLogits, result.endLogits with
    | startLogit :: _, endLogit :: _ => .ok (null.update featureIndex startLogit endLogit)
    | _, _ => .error .indexError
  else .ok null

/-- `prelim_predictions`, and what is known of the empty answer. -/
structure Scan (L : Type) [NatCast L] where
  prelimPredictions : List (PrelimPrediction L) := []
  null : NullScore L := {}

/-- The loop over the features of an example, from the index `featureIndex` on. -/
def scanFeatures (args : PredictionArgs L) (uniqueIdToResult : UnorderedMap Nat (RawResult L)) :
    Nat → List InputFeatures → Scan L → Except PyError (Scan L)
  | _, [], scan => .ok scan
  | featureIndex, feature :: features, scan => do
    let result ← valueOf uniqueIdToResult feature.uniqueId
    let null ← lookAtNull args featureIndex result scan.null
    scanFeatures args uniqueIdToResult (featureIndex + 1) features
      { prelimPredictions :=
          scan.prelimPredictions ++ spansOf args featureIndex feature result
        null }

/-- The prediction of the empty answer. -/
def NullScore.prediction (null : NullScore L) : PrelimPrediction L where
  featureIndex := null.minNullFeatureIndex
  startIndex := 0
  endIndex := 0
  startLogit := null.nullStartLogit
  endLogit := null.nullEndLogit

/-- `x.start_logit + x.end_logit`. -/
def PrelimPrediction.score (pred : PrelimPrediction L) : L := pred.startLogit + pred.endLogit

/-- The predictions of an example, before they are sorted. -/
def Scan.candidates (args : PredictionArgs L) (scan : Scan L) : List (PrelimPrediction L) :=
  if args.version2WithNegative then scan.prelimPredictions ++ [scan.null.prediction]
  else scan.prelimPredictions

/-! ## The texts -/

/-- `final_text` of a prediction, from the words of the document where it starts and ends. -/
def finalText (args : PredictionArgs L) (e : SquadExample) (feature : InputFeatures)
    (pred : PrelimPrediction L) (origDocStart origDocEnd : Nat) : Text :=
  let tokTokens := (feature.tokens.drop pred.startIndex).take (pred.endIndex + 1 - pred.startIndex)
  let origTokens := (e.docTokens.drop origDocStart).take (origDocEnd + 1 - origDocStart)
  let tokText := detokenize (tokTokens.map String.toList)
  let origText := joinWords (origTokens.map String.toList)
  getFinalText args.unicode tokText origText args.doLowerCase

/-- `seen_predictions` and `nbest`. -/
structure NbestState (L : Type) where
  seenPredictions : List Text := []
  nbest : List (NbestPrediction L) := []

/-- An entry of `nbest`, with a text that is seen from now on. -/
def NbestState.add (s : NbestState L) (text : Text) (pred : PrelimPrediction L) : NbestState L where
  seenPredictions := text :: s.seenPredictions
  nbest := s.nbest ++ [{ text, startLogit := pred.startLogit, endLogit := pred.endLogit }]

/-- A prediction that is not for the empty answer: its text may have been seen. -/
def addSpan (args : PredictionArgs L) (e : SquadExample) (feature : InputFeatures)
    (pred : PrelimPrediction L) (s : NbestState L) : Except PyError (NbestState L) := do
  let origDocStart ← valueOf feature.tokenToOrigMap pred.startIndex
  let origDocEnd ← valueOf feature.tokenToOrigMap pred.endIndex
  let text := finalText args e feature pred origDocStart origDocEnd
  return if text ∈ s.seenPredictions then s else s.add text pred

/-- The loop over the sorted predictions. -/
def nbestLoop (args : PredictionArgs L) (e : SquadExample) (features : List InputFeatures) :
    List (PrelimPrediction L) → NbestState L → Except PyError (NbestState L)
  | [], s => .ok s
  | pred :: preds, s =>
    if s.nbest.length ≥ args.nBestSize then .ok s
    else
      match features[pred.featureIndex]? with
      | none => .error .indexError
      | some feature =>
        if pred.startIndex > 0 then
          (addSpan args e feature pred s).bind (nbestLoop args e features preds)
        else nbestLoop args e features preds (s.add [] pred)

/-- The empty answer if it is not among the entries, and the nonce prediction if there is none. -/
def completeNbest (args : PredictionArgs L) (null : NullScore L) (s : NbestState L) :
    List (NbestPrediction L) :=
  let nbest :=
    if args.version2WithNegative && decide ([] ∉ s.seenPredictions) then
      (s.add [] null.prediction).nbest
    else s.nbest
  if nbest.isEmpty then
    [{ text := "empty".toList, startLogit := (0 : Nat), endLogit := (0 : Nat) }]
  else nbest

/-! ## The answer -/

/-- `max_score`, from the first score on. -/
def maxScore (first : L) (scores : List L) : L :=
  scores.foldl (fun maxScore score => if score > maxScore then score else maxScore) first

/-- `exp_scores`. -/
def expScores (exp : L → L) : List L → List L
  | [] => []
  | first :: scores => (first :: scores).map fun score => exp (score - maxScore first scores)

/-- `total_sum`. -/
def totalSum (exp : L → L) (scores : List L) : L :=
  (expScores exp scores).foldl (· + ·) (0 : Nat)

/-- `_compute_softmax`. -/
def computeSoftmax (exp : L → L) (scores : List L) : Except PyError (List L) :=
  if scores.isEmpty then .ok []
  else if totalSum exp scores = (0 : Nat) then .error .zeroDivisionError
  else .ok ((expScores exp scores).map (· / totalSum exp scores))

/-- `nbest_json`. -/
def nbestJson (nbest : List (NbestPrediction L)) (probs : List L) : List (NbestOutput L) :=
  List.zipWith (fun entry probability => { entry with probability }) nbest probs

/-- `best_non_null_entry`. -/
def bestNonNullEntry (nbest : List (NbestPrediction L)) : Option (NbestPrediction L) :=
  nbest.find? fun entry => !entry.text.isEmpty

/-- The answer to an example, and the difference of the scores that it was taken by. -/
def answerOf (args : PredictionArgs L) (null : NullScore L) (nbest : List (NbestPrediction L))
    (json : List (NbestOutput L)) : Except PyError (Text × Option L) :=
  if !args.version2WithNegative then
    match json with
    | [] => .error .indexError
    | first :: _ => .ok (first.text, none)
  else
    match bestNonNullEntry nbest with
    | none => .error .attributeError
    | some entry =>
      let scoreDiff := null.scoreNull - entry.startLogit - entry.endLogit
      if scoreDiff > args.nullScoreDiffThreshold then .ok ([], some scoreDiff)
      else .ok (entry.text, some scoreDiff)

/-- `assert len(xs) >= 1`. -/
def assertNonempty {α : Type} (xs : List α) : Except PyError Unit :=
  if xs.isEmpty then .error .assertionError else .ok ()

/-- What an example is given in the dictionaries. -/
structure ExampleOutput (L : Type) where
  text : Text
  nbestJson : List (NbestOutput L)
  scoreDiff : Option L

/-- The body of the loop over the examples, but for the dictionaries. -/
def predictExample (args : PredictionArgs L) (uniqueIdToResult : UnorderedMap Nat (RawResult L))
    (e : SquadExample) (features : List InputFeatures) : Except PyError (ExampleOutput L) := do
  let scan ← scanFeatures args uniqueIdToResult 0 features {}
  let prelimPredictions := sortedDesc PrelimPrediction.score (scan.candidates args)
  let s ← nbestLoop args e features prelimPredictions {}
  let nbest := completeNbest args scan.null s
  assertNonempty nbest
  let probs ← computeSoftmax args.exp (nbest.map fun entry => entry.startLogit + entry.endLogit)
  let json := nbestJson nbest probs
  assertNonempty json
  let (text, scoreDiff) ← answerOf args scan.null nbest json
  return { text, nbestJson := json, scoreDiff }

/-- The assignments to the dictionaries. -/
def Outputs.assign (out : Outputs L) (qasId : String) (o : ExampleOutput L) : Outputs L where
  allPredictions := out.allPredictions.assign qasId o.text
  allNbestJson := out.allNbestJson.assign qasId o.nbestJson
  scoresDiffJson :=
    match o.scoreDiff with
    | some scoreDiff => out.scoresDiffJson.assign qasId scoreDiff
    | none => out.scoresDiffJson

/-- `example_index_to_features[example_index]`. -/
def featuresOf (allFeatures : List InputFeatures) (exampleIndex : Nat) : List InputFeatures :=
  allFeatures.filter fun feature => feature.exampleIndex = exampleIndex

/-- `unique_id_to_result`. -/
def resultsById (allResults : List (RawResult L)) : UnorderedMap Nat (RawResult L) :=
  (∅ : UnorderedMap Nat (RawResult L)).insertAll
    (allResults.map fun result => (result.uniqueId, result))

/-- The loop over the examples, from the index `exampleIndex` on. -/
def predictLoop (args : PredictionArgs L) (allFeatures : List InputFeatures)
    (uniqueIdToResult : UnorderedMap Nat (RawResult L)) :
    Nat → List SquadExample → Outputs L → Except PyError (Outputs L)
  | _, [], out => .ok out
  | exampleIndex, e :: examples, out => do
    let o ← predictExample args uniqueIdToResult e (featuresOf allFeatures exampleIndex)
    predictLoop args allFeatures uniqueIdToResult (exampleIndex + 1) examples
      (out.assign e.qasId o)

/-- `write_predictions`, up to the files that the dictionaries are written to. -/
def writePredictions (args : PredictionArgs L) (allExamples : List SquadExample)
    (allFeatures : List InputFeatures) (allResults : List (RawResult L)) :
    Except PyError (Outputs L) :=
  predictLoop args allFeatures (resultsById allResults) 0 allExamples {}

end

end FinBert.Squad
