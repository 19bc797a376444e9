import FinBert.Prep.Drafts
import FinBert.Prep.Masking

/-!
# The instances of a document cover it

Results:
1. `Draft.Spec.wellFormed`: an instance has the shape that the model expects.
2. `createInstancesFromDocument_covers`: for sound arguments the pre-training generator
   returns, its instances are well formed, and every segment of the document is used once.
-/

namespace FinBert.Prep

open Random Program

variable {args : DocumentArgs} {rng : Rng}

/-- An instance made of a draft fits. Its tokens, with its labels written back at their
positions, are `[CLS]` A `[SEP]` B `[SEP]` for parts A and B of the segments of the draft, and
its segment ids tell A from B. -/
structure WellFormed (args : DocumentArgs) (draft : Draft) (inst : TrainingInstance) : Prop where
  fits : (inst.tokens.length : Int) ≤ args.maxSeqLength
  length : inst.tokens.length = draft.tokens.length
  restored : restoreLabels inst.maskedLmPositions inst.maskedLmLabels inst.tokens = draft.tokens
  shape : draft.tokens = [CLS] ++ draft.tokensA ++ [SEP] ++ draft.tokensB ++ [SEP]
  nonempty : draft.tokensA ≠ [] ∧ draft.tokensB ≠ []
  partA : draft.tokensA <:+: draft.aSegments.flatten
  partB : draft.tokensB <:+: draft.bSegments.flatten
  segmentIds : inst.segmentIds = List.replicate (draft.tokensA.length + 2) 0 ++
    List.replicate (draft.tokensB.length + 1) 1
  isRandomNext : inst.isRandomNext = draft.isRandomNext

/-- The truncation leaves room for `[CLS]` and the two `[SEP]`. -/
theorem Draft.Spec.length_le {draft : Draft} (h : draft.Spec args) (hsound : args.Sound) :
    (draft.tokensA.length : Int) + draft.tokensB.length ≤ args.maxNumTokens := by
  have hmax : 2 ≤ args.maxNumTokens := by
    have := hsound.maxSeqLength
    unfold DocumentArgs.maxNumTokens
    omega
  obtain ⟨aSource, haSource, haInfix, haNe⟩ := h.aSource
  obtain ⟨bSource, hbSource, hbInfix, hbNe⟩ := h.bSource
  have hA : draft.aSegments.flatten ≠ [] := flatten_ne_nil haNe fun segment hmem =>
    hsound.segments aSource (List.mem_of_getElem? haSource) segment (haInfix.subset hmem)
  have hB : draft.bSegments.flatten ≠ [] := flatten_ne_nil hbNe fun segment hmem =>
    hsound.segments bSource (List.mem_of_getElem? hbSource) segment (hbInfix.subset hmem)
  obtain ⟨-, htokensA, htokensB⟩ := h.truncated
  obtain ⟨-, -, hle, -, -⟩ := truncated_spec hmax hA hB draft.truncateRng
  rwa [htokensA, htokensB]

theorem Draft.Spec.wellFormed {draft : Draft} (h : draft.Spec args) (hsound : args.Sound)
    {cfg : MaskConfig} {predictions : Predictions} {most : Int}
    (hp : predictions.Sound cfg draft.tokens most) :
    WellFormed args draft (draft.toInstance predictions) := by
  refine
    { fits := ?_
      length := hp.length
      restored := hp.restored
      shape := draft.tokens_eq
      nonempty := h.nonempty
      partA := h.parts.1
      partB := h.parts.2
      segmentIds := draft.segmentIds_eq
      isRandomNext := rfl }
  have hle := h.length_le hsound
  have hthree := draft.length_tokens
  unfold DocumentArgs.maxNumTokens at hle
  show (predictions.outputTokens.length : Int) ≤ args.maxSeqLength
  rw [hp.length]
  omega

/-- A run of the traced generator is a run of the generator. -/
theorem instancesFromDocument_of_traced {mask : List Token → Py Predictions}
    {traced : List (Draft × TrainingInstance)} {t : Rng}
    (h : tracedInstances args mask rng = .ok traced t) :
    instancesFromDocument args mask rng = .ok (traced.map (·.2)) t := by
  unfold instancesFromDocument
  rw [← bind_pure_comp]
  exact bind_eq_ok.mpr ⟨traced, t, h, rfl⟩

/-- For every corpus without empty documents and segments, every document, every sequence
length from 5 on and every outcome of the draws: the loop ends and no assertion fails (the
one possible exception is a random word of an empty vocabulary), and the instances that are
returned are well formed and use up the segments of the document, each once and in order. -/
theorem createInstancesFromDocument_covers (args : DocumentArgs) (cfg : MaskConfig) (rng : Rng)
    (hsound : args.Sound) :
    Ensures (tracedInstances args (Pretraining.createMaskedLmPredictions cfg))
      (fun traced t =>
        Pretraining.createInstancesFromDocument args cfg rng = .ok (traced.map (·.2)) t ∧
        args.allDocuments[args.documentIndex]? = some (traced.map (·.1.used)).flatten ∧
        ∀ p ∈ traced, WellFormed args p.1 p.2)
      (NoVocabulary cfg) rng := by
  have hmask : ∀ tokens rng, Ensures (Pretraining.createMaskedLmPredictions cfg tokens)
      (fun p _ => p.Sound cfg tokens (cfg.numToPredict tokens)) (NoVocabulary cfg) rng :=
    fun tokens rng => ensures_createMaskedLmPredictions
  have hrun := ensures_tracedInstances args rng hmask
  refine ⟨fun traced t htraced => ?_, fun e t he => hrun.error e t he hsound⟩
  obtain ⟨document, hdocument, hcollected⟩ := hrun.ok traced t htraced
  refine ⟨instancesFromDocument_of_traced htraced, ?_, fun p hp => ?_⟩
  · rw [hcollected.used]
    exact hdocument
  · obtain ⟨predictions, hmasked, hp2⟩ := hcollected.made p hp
    rw [hp2]
    exact (hcollected.spec p hp).wellFormed hsound hmasked

/-- Two documents, of three lines and of one, for sequences of at most 5 tokens. -/
def shortCorpus : DocumentArgs where
  allDocuments := [[[['a']], [['b'], ['c']], [['d']]], [[['e'], ['f']]]]
  documentIndex := 0
  maxSeqLength := 5
  shortSeqProb := half

/-- One prediction for each instance, and two words to draw from. -/
def shortMask : MaskConfig where
  doWholeWordMask := true
  rounded := fun _ => 1
  maxPredictionsPerSeq := 20
  vocabWords := [MASK, ['a']]

theorem shortCorpus_sound : shortCorpus.Sound where
  documents := by decide
  segments := by decide
  index := by decide
  maxSeqLength := by decide

theorem createInstancesFromDocument_covers_shortCorpus :
    ∃ traced t, tracedInstances shortCorpus (Pretraining.createMaskedLmPredictions shortMask)
        (fun k => k) = .ok traced t ∧
      (traced.map (·.1.used)).flatten = [[['a']], [['b'], ['c']], [['d']]] ∧
      ∀ p ∈ traced, WellFormed shortCorpus p.1 p.2 := by
  have h := createInstancesFromDocument_covers shortCorpus shortMask (fun k => k)
    shortCorpus_sound
  obtain ⟨traced, t, hrun, -, hused, hwell⟩ :=
    (h.mono (fun _ _ hq => hq) fun e he => absurd he.2 (by decide)).exists_ok
  exact ⟨traced, t, hrun, (Option.some.inj hused).symm, hwell⟩

end FinBert.Prep
