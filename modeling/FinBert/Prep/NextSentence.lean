import FinBert.Prep.Drafts
import FinBert.Prep.Masking

/-!
# The next-sentence label

The choice of a random document is a loop of ten tries, and a document that is the one
being processed stands when all ten tries drew it. So the label of a random next sentence
is right exactly when one of the tries drew another document.

Results:
1. `traced_truthful`: the instances of a random next sentence, for every sound masking.
2. `isRandomNext_truthful`: the three generators.
-/

namespace FinBert.Prep

open Random Program

/-- Where the tokens of an instance come from, and when B has another source than A. With the
labels written back, the tokens are `[CLS]` A `[SEP]` B `[SEP]`, A is a part of segments of
the document that is being processed, and B of segments of the document that was chosen. -/
structure Truthful (args : DocumentArgs) (draft : Draft) (inst : TrainingInstance) : Prop where
  aSource : ∃ document, args.allDocuments[args.documentIndex]? = some document ∧
    draft.aSegments <:+: document
  bSource : ∃ document, args.allDocuments[draft.bDocument]? = some document ∧
    draft.bSegments <:+: document ∧ draft.bSegments ≠ []
  partA : draft.tokensA <:+: draft.aSegments.flatten
  partB : draft.tokensB <:+: draft.bSegments.flatten
  nonempty : draft.tokensA ≠ [] ∧ draft.tokensB ≠ []
  restored : restoreLabels inst.maskedLmPositions inst.maskedLmLabels inst.tokens =
    [CLS] ++ draft.tokensA ++ [SEP] ++ draft.tokensB ++ [SEP]
  segmentIds : inst.segmentIds = List.replicate (draft.tokensA.length + 2) 0 ++
    List.replicate (draft.tokensB.length + 1) 1
  differ : draft.bDocument ≠ args.documentIndex ↔ ¬ AllTriesFail args draft.choiceRng

theorem Draft.Spec.truthful {args : DocumentArgs} {draft : Draft} (h : draft.Spec args)
    (hrandom : draft.isRandomNext) {cfg : MaskConfig} {predictions : Predictions} {most : Int}
    (hp : predictions.Sound cfg draft.tokens most) :
    Truthful args draft (draft.toInstance predictions) := by
  obtain ⟨document, hdocument, hsub, -⟩ := h.aSource
  exact
    { aSource := ⟨document, hdocument, hsub⟩
      bSource := h.bSource
      partA := h.parts.1
      partB := h.parts.2
      nonempty := h.nonempty
      restored := hp.restored.trans draft.tokens_eq
      segmentIds := draft.segmentIds_eq
      differ := not_congr (h.random hrandom) }

/-- Whatever a masking does that keeps the books about its labels. -/
theorem traced_truthful (args : DocumentArgs) {cfg : MaskConfig}
    {mask : List Token → Py Predictions} {E : PyError → Prop} (rng : Rng)
    (hmask : ∀ tokens rng, Ensures (mask tokens)
      (fun p _ => p.Sound cfg tokens (cfg.numToPredict tokens)) E rng) :
    Ensures (tracedInstances args mask)
      (fun traced _ => ∀ p ∈ traced, p.2.isRandomNext → Truthful args p.1 p.2) (fun _ => True)
      rng := by
  refine (ensures_tracedInstances args rng hmask).mono ?_ fun _ _ => trivial
  rintro traced t ⟨document, -, hcollected⟩ p hp hrandom
  obtain ⟨predictions, hmasked, hmade⟩ := hcollected.made p hp
  rw [hmade] at hrandom ⊢
  exact (hcollected.spec p hp).truthful hrandom hmasked

/-- In each of the three generators, for every corpus and every outcome of the draws, the B
part of an instance labelled random next comes from another document than its A part,
except when ten draws in a row returned the document that is being processed. -/
theorem isRandomNext_truthful (args : DocumentArgs) (cfg : MaskConfig) (mustMask : List Token)
    (rng : Rng) :
    Ensures (tracedInstances args (Pretraining.createMaskedLmPredictions cfg))
      (fun traced _ => ∀ p ∈ traced, p.2.isRandomNext → Truthful args p.1 p.2)
      (fun _ => True) rng ∧
    Ensures (tracedInstances args (Sentiment.createMaskedLmPredictions cfg mustMask))
      (fun traced _ => ∀ p ∈ traced, p.2.isRandomNext → Truthful args p.1 p.2)
      (fun _ => True) rng ∧
    Ensures (tracedInstances args (Gpu.createMaskedLmPredictions cfg))
      (fun traced _ => ∀ p ∈ traced, p.2.isRandomNext → Truthful args p.1 p.2)
      (fun _ => True) rng :=
  ⟨traced_truthful args rng fun _ _ => ensures_createMaskedLmPredictions,
    traced_truthful args rng fun _ _ => Sentiment.ensures_createMaskedLmPredictions,
    traced_truthful args rng fun _ _ => Gpu.ensures_createMaskedLmPredictions⟩

/-- A document of two lines and one of a single line, for sequences of at most 8 tokens. -/
def twoDocuments : DocumentArgs where
  allDocuments := [[[['a'], ['b']], [['c'], ['d']]], [[['e']]]]
  documentIndex := 0
  maxSeqLength := 8
  shortSeqProb := half

def onePrediction : MaskConfig where
  doWholeWordMask := false
  rounded := fun _ => 1
  maxPredictionsPerSeq := 20
  vocabWords := [MASK]

/-- The ten tries return document 0, and the draw behind them the second line of it: the first
instance of document 0 is labelled random next although its B part is the line that follows
its A part. -/
theorem not_truthful_of_tenTries :
    ∃ traced t, tracedInstances twoDocuments (Pretraining.createMaskedLmPredictions onePrediction)
        (fun k => if k = 12 then 1 else 0) = .ok traced t ∧
      ∃ p ∈ traced, p.2.isRandomNext ∧ p.1.bDocument = twoDocuments.documentIndex ∧
        restoreLabels p.2.maskedLmPositions p.2.maskedLmLabels p.2.tokens =
          [CLS, ['a'], ['b'], SEP, ['c'], ['d'], SEP] := by
  have hrun : returns (tracedInstances twoDocuments
      (Pretraining.createMaskedLmPredictions onePrediction))
      (fun traced => traced.any fun p => p.2.isRandomNext &&
        p.1.bDocument == twoDocuments.documentIndex &&
        restoreLabels p.2.maskedLmPositions p.2.maskedLmLabels p.2.tokens ==
          [CLS, ['a'], ['b'], SEP, ['c'], ['d'], SEP])
      (fun k => if k = 12 then 1 else 0) = true := by decide
  obtain ⟨traced, t, hresult, hany⟩ := exists_of_returns hrun
  obtain ⟨p, hp, hfacts⟩ := List.any_eq_true.mp hany
  simp only [Bool.and_eq_true, beq_iff_eq] at hfacts
  exact ⟨traced, t, hresult, p, hp, hfacts.1.1, hfacts.1.2, hfacts.2⟩

end FinBert.Prep
