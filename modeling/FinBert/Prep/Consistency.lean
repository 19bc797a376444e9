import FinBert.Lib.RoundRobin
import FinBert.Prep.Coverage
import FinBert.Prep.Records

/-!
# The training records are consistent

What is relied on by the records (all tokens are words of the vocabulary, the lengths) is
established by the tokenizer, the truncation and the masking.

Results:
1. `ensures_createTrainingInstances`: the instances fit the records.
2. `exampleOf_eq`: the record of such an instance.
3. `writeInstances_eq`: how the records are spread over the output files.
4. `trainingRecords_consistent`: the generator from the input files to the records.
-/

namespace FinBert.Prep

open Random Program RoundRobin

variable {rng : Rng} {words : List Token} {E : PyError → Prop}

/-! ## Documents -/

/-- Segments are not empty and consist of words. -/
def WordsOnly (words : List Token) (documents : List Document) : Prop :=
  ∀ document ∈ documents, ∀ segment ∈ document,
    segment ≠ [] ∧ ∀ token ∈ segment, token ∈ words

theorem wordsOnly_appendToLast {documents : List Document} {segment : Segment}
    (h : WordsOnly words documents) (hne : segment ≠ [])
    (hsegment : ∀ token ∈ segment, token ∈ words) :
    WordsOnly words (appendToLast documents segment) := by
  rcases List.eq_nil_or_concat' documents with rfl | ⟨init, last, rfl⟩
  · exact h
  · rw [appendToLast_concat]
    intro document hdocument segment' hsegment'
    rcases List.mem_append.mp hdocument with hdocument | hdocument
    · exact h document (List.mem_append_left _ hdocument) segment' hsegment'
    · rw [List.mem_singleton.mp hdocument] at hsegment'
      rcases List.mem_append.mp hsegment' with hsegment' | hsegment'
      · exact h last List.mem_concat_self segment' hsegment'
      · rw [List.mem_singleton.mp hsegment']
        exact ⟨hne, hsegment⟩

theorem wordsOnly_addLine {tokenizer : FullTokenizer} (hUNK : UNK ∈ tokenizer.vocab.keys)
    {documents : List Document} (h : WordsOnly tokenizer.vocab.keys documents) (line : Text) :
    WordsOnly tokenizer.vocab.keys (addLine tokenizer documents line) := by
  have hstart : WordsOnly tokenizer.vocab.keys
      (if (strip line).isEmpty then documents ++ [[]] else documents) := by
    split
    · intro document hdocument segment hsegment
      rcases List.mem_append.mp hdocument with hdocument | hdocument
      · exact h document hdocument segment hsegment
      · rw [List.mem_singleton.mp hdocument] at hsegment
        cases hsegment
    · exact h
  unfold addLine
  simp only
  generalize (if (strip line).isEmpty then documents ++ [[]] else documents) = documents'
    at hstart ⊢
  split
  · exact hstart
  · next hne =>
    exact wordsOnly_appendToLast hstart (fun hnil => hne (List.isEmpty_iff.mpr hnil))
      fun token htoken => mem_keys_of_mem_tokenize hUNK htoken

theorem wordsOnly_foldl_addLine {tokenizer : FullTokenizer} (hUNK : UNK ∈ tokenizer.vocab.keys)
    (lines : List Text) {documents : List Document}
    (h : WordsOnly tokenizer.vocab.keys documents) :
    WordsOnly tokenizer.vocab.keys (lines.foldl (addLine tokenizer) documents) := by
  induction lines generalizing documents with
  | nil => exact h
  | cons line lines ih =>
    rw [List.foldl_cons]
    exact ih (wordsOnly_addLine hUNK h line)

theorem wordsOnly_readDocuments {tokenizer : FullTokenizer} (hUNK : UNK ∈ tokenizer.vocab.keys)
    (inputFiles : List (List Text)) :
    WordsOnly tokenizer.vocab.keys (readDocuments tokenizer inputFiles) := by
  have hstart : WordsOnly tokenizer.vocab.keys [[]] := by
    intro document hdocument segment hsegment
    rw [List.mem_singleton.mp hdocument] at hsegment
    cases hsegment
  have hlines := wordsOnly_foldl_addLine hUNK (inputFiles.flatMap readLines) hstart
  unfold readDocuments
  intro document hdocument
  obtain ⟨hmem, -⟩ := List.mem_filter.mp hdocument
  exact hlines document hmem

theorem readDocuments_ne_nil {tokenizer : FullTokenizer} {inputFiles : List (List Text)}
    {document : Document} (h : document ∈ readDocuments tokenizer inputFiles) : document ≠ [] := by
  intro hnil
  have := (List.mem_filter.mp h).2
  rw [hnil] at this
  cases this

/-! ## Instances -/

/-- What the records rely on. -/
structure Fits (words : List Token) (flags : Flags) (inst : TrainingInstance) : Prop where
  tokens : ∀ token ∈ inst.tokens, token ∈ words
  labels : ∀ token ∈ inst.maskedLmLabels, token ∈ words
  length : (inst.tokens.length : Int) ≤ flags.maxSeqLength
  segmentIds : inst.segmentIds.length = inst.tokens.length
  positions : inst.maskedLmPositions.length = inst.maskedLmLabels.length
  most : inst.maskedLmPositions.length ≤ flags.maxPredictionsPerSeq

/-- The tokens of a draft are tokens of the corpus and special tokens. -/
theorem Draft.Spec.mem_tokens {args : DocumentArgs} {draft : Draft} (h : draft.Spec args)
    (hwords : WordsOnly words args.allDocuments) (hCLS : CLS ∈ words) (hSEP : SEP ∈ words) :
    ∀ token ∈ draft.tokens, token ∈ words := by
  obtain ⟨hA, hB⟩ := h.parts
  obtain ⟨aSource, haSource, haInfix, -⟩ := h.aSource
  obtain ⟨bSource, hbSource, hbInfix, -⟩ := h.bSource
  have hpart : ∀ (document : Document) (segments : List Segment) (tokens : List Token),
      document ∈ args.allDocuments → segments <:+: document → tokens <:+: segments.flatten →
      ∀ token ∈ tokens, token ∈ words := by
    intro document segments tokens hdocument hsub htokens token htoken
    obtain ⟨segment, hsegment, hmem⟩ := List.mem_flatten.mp (htokens.subset htoken)
    exact (hwords document hdocument segment (hsub.subset hsegment)).2 token hmem
  intro token htoken
  unfold Draft.tokens at htoken
  simp only [List.cons_append, List.mem_cons, List.mem_append, List.not_mem_nil, or_false]
    at htoken
  rcases htoken with rfl | (htoken | rfl | htoken) | rfl
  · exact hCLS
  · exact hpart aSource _ _ (List.mem_of_getElem? haSource) haInfix hA token htoken
  · exact hSEP
  · exact hpart bSource _ _ (List.mem_of_getElem? hbSource) hbInfix hB token htoken
  · exact hSEP

section
variable {flags : Flags} {tokenizer : FullTokenizer}

theorem Draft.Spec.fits {allDocuments : List Document} {documentIndex : Nat} {draft : Draft}
    (h : draft.Spec (flags.documentArgs allDocuments documentIndex))
    (hsound : (flags.documentArgs allDocuments documentIndex).Sound)
    (hwords : WordsOnly tokenizer.vocab.keys allDocuments)
    (hspecial : ∀ token ∈ [CLS, SEP, MASK], token ∈ tokenizer.vocab.keys)
    {predictions : Predictions}
    (hp : predictions.Sound (flags.maskConfig tokenizer) draft.tokens
      ((flags.maskConfig tokenizer).numToPredict draft.tokens)) :
    Fits tokenizer.vocab.keys flags (draft.toInstance predictions) := by
  have hCLS : CLS ∈ tokenizer.vocab.keys := hspecial CLS (by decide)
  have hSEP : SEP ∈ tokenizer.vocab.keys := hspecial SEP (by decide)
  have hMASK : MASK ∈ tokenizer.vocab.keys := hspecial MASK (by decide)
  have htokens := h.mem_tokens hwords hCLS hSEP
  constructor
  case tokens =>
    intro token htoken
    rcases hp.output token htoken with hmem | rfl | hmem
    · exact htokens token hmem
    · exact hMASK
    · exact hmem
  case labels =>
    intro label hlabel
    obtain ⟨hlength, hget⟩ := List.forall₂_iff_get.mp hp.labels
    obtain ⟨k, rfl⟩ := List.mem_iff_get.mp hlabel
    exact htokens _ (List.mem_of_getElem? (hget k (by rw [hlength]; exact k.isLt) k.isLt))
  case length => exact (h.wellFormed hsound hp).fits
  case segmentIds =>
    show draft.segmentIds.length = predictions.outputTokens.length
    rw [hp.length, draft.length_tokens, draft.segmentIds_eq, List.length_append,
      List.length_replicate, List.length_replicate]
    omega
  case positions => exact hp.labels.length_eq
  case most =>
    have hle := numToPredict_le (flags.maskConfig tokenizer) draft.tokens
    exact_mod_cast hp.most.trans hle

theorem ensures_createInstancesFromDocument_fits {allDocuments : List Document}
    {documentIndex : Nat} (hsound : (flags.documentArgs allDocuments documentIndex).Sound)
    (hwords : WordsOnly tokenizer.vocab.keys allDocuments)
    (hspecial : ∀ token ∈ [CLS, SEP, MASK], token ∈ tokenizer.vocab.keys) :
    Ensures (Pretraining.createInstancesFromDocument
        (flags.documentArgs allDocuments documentIndex) (flags.maskConfig tokenizer))
      (fun instances _ => ∀ inst ∈ instances, Fits tokenizer.vocab.keys flags inst) E rng := by
  have hmask : ∀ tokens rng,
      Ensures (Pretraining.createMaskedLmPredictions (flags.maskConfig tokenizer) tokens)
        (fun p _ => p.Sound (flags.maskConfig tokenizer) tokens
          ((flags.maskConfig tokenizer).numToPredict tokens))
        (NoVocabulary (flags.maskConfig tokenizer)) rng :=
    fun tokens rng => ensures_createMaskedLmPredictions
  have hrun := ensures_tracedInstances (flags.documentArgs allDocuments documentIndex) rng hmask
  unfold Pretraining.createInstancesFromDocument instancesFromDocument
  rw [← bind_pure_comp]
  refine Ensures.bind (hrun.mono (fun _ _ h => h) fun e he => ?_) fun traced t htraced => ?_
  · -- the vocabulary is not empty
    have hnil : tokenizer.vocab.keys = [] := (he hsound).2
    have hCLS := hspecial CLS (by decide)
    rw [hnil] at hCLS
    cases hCLS
  · obtain ⟨document, -, hcollected⟩ := htraced
    refine ensures_pure fun inst hinst => ?_
    obtain ⟨p, hp, rfl⟩ := List.mem_map.mp hinst
    obtain ⟨predictions, hpredictions, hmade⟩ := hcollected.made p hp
    rw [hmade]
    exact (hcollected.spec p hp).fits hsound hwords hspecial hpredictions

/-- The loops collect what every turn yields. -/
theorem ensures_extendInstances (P : TrainingInstance → Prop)
    {create : Nat → Py (List TrainingInstance)} {indexes : List Nat}
    (h : ∀ documentIndex ∈ indexes, ∀ rng,
      Ensures (create documentIndex) (fun instances _ => ∀ inst ∈ instances, P inst) E rng) :
    Ensures (extendInstances create indexes) (fun instances _ => ∀ inst ∈ instances, P inst)
      E rng := by
  induction indexes generalizing rng with
  | nil => exact ensures_pure fun inst hinst => absurd hinst List.not_mem_nil
  | cons documentIndex indexes ih =>
    unfold extendInstances
    refine (h documentIndex List.mem_cons_self rng).bind fun instances t hinstances => ?_
    refine (ih fun index hindex => h index (List.mem_cons_of_mem _ hindex)).bind
      fun rest t' hrest => ensures_pure fun inst hinst => ?_
    rcases List.mem_append.mp hinst with hinst | hinst
    · exact hinstances inst hinst
    · exact hrest inst hinst

/-- Whatever is drawn, the generator returns, and its instances fit the records. -/
theorem ensures_createTrainingInstances (hmax : 5 ≤ flags.maxSeqLength)
    (hspecial : ∀ token ∈ [UNK, CLS, SEP, MASK], token ∈ tokenizer.vocab.keys)
    (inputFiles : List (List Text)) :
    Ensures (createTrainingInstances flags tokenizer inputFiles)
      (fun instances _ => ∀ inst ∈ instances, Fits tokenizer.vocab.keys flags inst) E rng := by
  unfold createTrainingInstances
  refine (ensures_shuffle _).bind fun allDocuments t hdocuments => ?_
  have hwords : WordsOnly tokenizer.vocab.keys allDocuments := fun document hdocument =>
    wordsOnly_readDocuments (hspecial UNK List.mem_cons_self) inputFiles document
      (hdocuments.mem_iff.mp hdocument)
  have hne : ∀ document ∈ allDocuments, document ≠ [] := fun document hdocument =>
    readDocuments_ne_nil (hdocuments.mem_iff.mp hdocument)
  refine (ensures_extendInstances (Fits tokenizer.vocab.keys flags)
    fun documentIndex hindex rng => ?_).bind fun instances t' hinstances => ?_
  · have hlt : documentIndex < allDocuments.length := by
      obtain ⟨indexes, hindexes, hmem⟩ := List.mem_flatten.mp hindex
      rw [List.eq_of_mem_replicate hindexes] at hmem
      exact List.mem_range.mp hmem
    have hsegments : ∀ document ∈ allDocuments, ∀ segment ∈ document, segment ≠ [] :=
      fun document hdocument segment hsegment => (hwords document hdocument segment hsegment).1
    exact ensures_createInstancesFromDocument_fits ⟨hne, hsegments, hlt, hmax⟩ hwords
      fun token htoken => hspecial token (List.mem_cons_of_mem _ htoken)
  · refine (ensures_shuffle instances).imp fun shuffled _ hshuffled inst hinst => ?_
    exact hinstances inst (hshuffled.mem_iff.mp hinst)

end

/-! ## Records -/

/-- `convert_by_vocab` finds every item. -/
theorem convertByVocab_eq {κ ν : Type} [DecidableEq κ] {vocab : OrderedDict κ ν} {items : List κ}
    {values : List ν} (h : List.Forall₂ (fun item value => vocab.lookup item = some value)
      items values) : convertByVocab vocab items = pure values := by
  induction h with
  | nil => rfl
  | cons hlookup _ ih =>
    unfold convertByVocab
    rw [hlookup, ih]
    rfl

theorem exists_forall₂ {α β : Type} {R : α → β → Prop} {xs : List α} (h : ∀ x ∈ xs, ∃ y, R x y) :
    ∃ ys, List.Forall₂ R xs ys := by
  induction xs with
  | nil => exact ⟨[], .nil⟩
  | cons x xs ih =>
    obtain ⟨y, hy⟩ := h x List.mem_cons_self
    obtain ⟨ys, hys⟩ := ih fun x' hx' => h x' (List.mem_cons_of_mem x hx')
    exact ⟨y :: ys, .cons hy hys⟩

/-- Keys have values, and without repeated values the inverse leads back to the keys. -/
theorem convertByVocab_inverse {κ ν : Type} [DecidableEq κ] [DecidableEq ν]
    {vocab : OrderedDict κ ν} {items : List κ} (hnodup : vocab.values.Nodup)
    (hitems : ∀ item ∈ items, item ∈ vocab.keys) :
    ∃ values, convertByVocab vocab items = pure values ∧ values.length = items.length ∧
      convertByVocab vocab.inverse values = pure items := by
  obtain ⟨values, hvalues⟩ :=
    exists_forall₂ fun item hitem => OrderedDict.exists_lookup (hitems item hitem)
  refine ⟨values, convertByVocab_eq (hvalues.imp fun _ _ h => h.1), hvalues.length_eq.symm,
    convertByVocab_eq (hvalues.flip.imp fun value item h => ?_)⟩
  exact OrderedDict.lookup_inverse hnodup h.2

/-- What a record tells about its instance: the lengths, the marks of the padding, and the
instance itself without the padding. -/
structure Consistent (tokenizer : FullTokenizer) (flags : Flags) (inst : TrainingInstance)
    (record : Example) : Prop where
  inputIds_length : (record.inputIds.length : Int) = flags.maxSeqLength
  inputMask_length : (record.inputMask.length : Int) = flags.maxSeqLength
  segmentIds_length : (record.segmentIds.length : Int) = flags.maxSeqLength
  positions_length : record.maskedLmPositions.length = flags.maxPredictionsPerSeq
  ids_length : record.maskedLmIds.length = flags.maxPredictionsPerSeq
  weights_length : record.maskedLmWeights.length = flags.maxPredictionsPerSeq
  inputMask : ∃ padding,
    record.inputMask = List.replicate inst.tokens.length 1 ++ List.replicate padding 0
  weights : ∃ padding,
    record.maskedLmWeights =
      List.replicate inst.maskedLmLabels.length 1 ++ List.replicate padding 0
  tokens : tokenizer.convertIdsToTokens (record.inputIds.take inst.tokens.length) =
    pure inst.tokens
  segmentIds : record.segmentIds.take inst.tokens.length = inst.segmentIds
  positions : record.maskedLmPositions.take inst.maskedLmLabels.length = inst.maskedLmPositions
  labels : tokenizer.convertIdsToTokens (record.maskedLmIds.take inst.maskedLmLabels.length) =
    pure inst.maskedLmLabels
  nextSentenceLabels : record.nextSentenceLabels = [if inst.isRandomNext then 1 else 0]

theorem length_padded {α : Type} [Zero α] (n : Nat) (xs : List α) :
    (padded n xs).length = xs.length + n := by
  unfold padded
  rw [List.length_append, List.length_replicate]

/-- The padding is cut off again. -/
theorem take_padded {α : Type} [Zero α] (n : Nat) {k : Nat} {xs : List α} (h : xs.length = k) :
    (padded n xs).take k = xs := by
  unfold padded
  exact List.take_left' h

theorem exampleOf_eq {tokenizer : FullTokenizer} {flags : Flags} {inst : TrainingInstance}
    (hnodup : tokenizer.vocab.values.Nodup) (h : Fits tokenizer.vocab.keys flags inst) :
    ∃ record, exampleOf tokenizer flags.maxSeqLength flags.maxPredictionsPerSeq inst =
        pure record ∧ Consistent tokenizer flags inst record := by
  obtain ⟨inputIds, hids, hidsLength, hidsBack⟩ := convertByVocab_inverse hnodup h.tokens
  obtain ⟨labelIds, hlabels, hlabelsLength, hlabelsBack⟩ :=
    convertByVocab_inverse hnodup h.labels
  have hlength := h.length
  have hmost := h.most
  have hsegmentIds := h.segmentIds
  have hpositions := h.positions
  unfold exampleOf FullTokenizer.convertTokensToIds
  rw [hids, pure_bind, assert_eq (by omega), pure_bind]
  simp only
  rw [assert_eq (by rw [length_padded]; omega), pure_bind,
    assert_eq (by rw [length_padded, List.length_replicate]; omega), pure_bind,
    assert_eq (by rw [length_padded]; omega), pure_bind, hlabels, pure_bind]
  refine ⟨_, rfl, ?_⟩
  constructor
  case inputIds_length => rw [length_padded]; omega
  case inputMask_length => rw [length_padded, List.length_replicate]; omega
  case segmentIds_length => rw [length_padded]; omega
  case positions_length => rw [length_padded]; omega
  case ids_length => rw [length_padded]; omega
  case weights_length => rw [length_padded, List.length_replicate]; omega
  case inputMask => exact ⟨_, by rw [hidsLength]; rfl⟩
  case weights => exact ⟨_, by rw [hlabelsLength]; rfl⟩
  case tokens =>
    rw [take_padded _ hidsLength]
    exact hidsBack
  case segmentIds => exact take_padded _ hsegmentIds
  case positions => exact take_padded _ hpositions
  case labels =>
    rw [take_padded _ hlabelsLength]
    exact hlabelsBack
  case nextSentenceLabels => rfl

/-! ## Files -/

/-- The state of the loop over the instances: the records so far are dealt out, and the next
one goes to the file whose turn it is. -/
theorem writeInstances_eq {tokenizer : FullTokenizer} {maxSeqLength : Int}
    {maxPredictionsPerSeq n : Nat} (hn : 0 < n) {instances : List TrainingInstance}
    {records : List Example}
    (h : List.Forall₂ (fun inst record =>
      exampleOf tokenizer maxSeqLength maxPredictionsPerSeq inst = pure record) instances records)
    (done : List Example) :
    writeInstances tokenizer maxSeqLength maxPredictionsPerSeq instances (deal n done)
      (done.length % n) = pure (deal n (done ++ records)) := by
  induction h generalizing done with
  | nil =>
    rw [List.append_nil]
    rfl
  | @cons inst record instances records hrecord _ ih =>
    have hwrite : writeTo (deal n done) (done.length % n) record =
        pure (deal n (done ++ [record])) := by
      unfold writeTo getItem
      rw [getElem?_deal (Nat.mod_lt _ hn)]
      simp only
      rw [pure_bind, deal_concat]
    have hnext : (done.length % n + 1) % n = (done ++ [record]).length % n := by
      rw [List.length_append, List.length_singleton, Nat.mod_add_mod]
    unfold writeInstances
    rw [hrecord, pure_bind, hwrite, pure_bind, length_deal, hnext, ih, List.append_assoc]
    rfl

theorem length_outputFiles_pos (outputFile : Text) : 0 < (outputFiles outputFile).length :=
  List.length_pos_iff.mpr (List.splitOnP_ne_nil _ _)

/-- From the input files to the records: for every vocabulary file with the special tokens, all
flags, all input files and every outcome of the draws, the instances are created and
written, no exception is raised, each record is consistent with its instance, and the records
are dealt out to the output files in turn. -/
theorem trainingRecords_consistent (unicode : Unicode) (vocabFile : List Text) (doLowerCase : Bool)
    (flags : Flags) (inputFiles : List (List Text)) (outputFile : Text) (rng : Rng)
    {tokenizer : FullTokenizer}
    (htokenizer : tokenizer = FullTokenizer.create unicode vocabFile doLowerCase)
    (hspecial : ∀ token ∈ [UNK, CLS, SEP, MASK], token ∈ tokenizer.vocab.keys)
    (hmax : 5 ≤ flags.maxSeqLength) :
    ∃ instances t, createTrainingInstances flags tokenizer inputFiles rng = .ok instances t ∧
      ∃ records,
        writeInstanceToExampleFiles tokenizer flags.maxSeqLength flags.maxPredictionsPerSeq
          (outputFiles outputFile) instances = pure (deal (outputFiles outputFile).length records) ∧
        List.Forall₂ (Consistent tokenizer flags) instances records := by
  have hnodup : tokenizer.vocab.values.Nodup := by
    rw [htokenizer]
    exact nodup_values_loadVocab vocabFile
  obtain ⟨instances, t, hrun, hfits⟩ :=
    (ensures_createTrainingInstances hmax hspecial inputFiles).exists_ok (s := rng)
  obtain ⟨records, hrecords⟩ :=
    exists_forall₂ fun inst hinst => exampleOf_eq hnodup (hfits inst hinst)
  refine ⟨instances, t, hrun, records, ?_, hrecords.imp fun _ _ h => h.2⟩
  have hwrite :=
    writeInstances_eq (length_outputFiles_pos outputFile) (hrecords.imp fun _ _ h => h.1) []
  unfold writeInstanceToExampleFiles
  rw [List.map_const', ← deal_nil]
  rwa [List.length_nil, Nat.zero_mod] at hwrite

/-- The Unicode database, for letters without accents, blanks and ends of lines. -/
def plainUnicode : Unicode where
  category := fun c =>
    if c.isUpper then .Lu else if c.isLower then .Ll else if c == ' ' then .Zs else .Cc
  lower := fun text => text.map Char.toLower
  nfd := fun text => text

def shortVocab : List Text :=
  ["[UNK]\n".toList, "[CLS]\n".toList, "[SEP]\n".toList, "[MASK]\n".toList, "un\n".toList,
    "##able\n".toList]

def shortFlags : Flags where
  maxSeqLength := 8
  maxPredictionsPerSeq := 2
  dupeFactor := 1
  shortSeqProb := half
  doWholeWordMask := true
  rounded := fun _ => 1

/-- Two documents, of two lines and of one; a word that is not in the vocabulary. -/
def shortLines : List Text :=
  ["Unable\n".toList, "un x\n".toList, "\n".toList, "un un\n".toList]

theorem trainingRecords_consistent_shortLines :
    ∃ instances t,
      createTrainingInstances shortFlags (FullTokenizer.create plainUnicode shortVocab true)
        [shortLines] (fun k => k) = .ok instances t ∧
      ∃ records,
        writeInstanceToExampleFiles (FullTokenizer.create plainUnicode shortVocab true) 8 2
          ["a".toList, "b".toList] instances = pure (deal 2 records) ∧
        List.Forall₂ (Consistent (FullTokenizer.create plainUnicode shortVocab true) shortFlags)
          instances records :=
  trainingRecords_consistent plainUnicode shortVocab true shortFlags [shortLines] "a,b".toList
    (fun k => k) rfl (by decide) (by decide)

end FinBert.Prep
