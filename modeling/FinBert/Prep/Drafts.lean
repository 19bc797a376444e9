import FinBert.Prep.Truncation

/-!
# The instances of a document

`create_instances_from_document` walks over the segments of a document, closes a chunk
from time to time, and goes back over the segments of the chunk that it did not use.

Results:
1. `ensures_draftOfChunk`: what the draft of a chunk is made of, for every outcome of the
   draws, and that only unsound arguments make it fail.
2. `ensures_documentLoop`: the loop ends, and the segments that the drafts use up are the
   segments from the start of the current chunk on.
3. `ensures_tracedInstances`: the same for a whole document.
-/

namespace FinBert.Prep

open Random Program

variable {args : DocumentArgs} {rng : Rng}

/-- Documents and segments are not empty, and there is room for two tokens. -/
structure DocumentArgs.Sound (args : DocumentArgs) : Prop where
  documents : ∀ document ∈ args.allDocuments, document ≠ []
  segments : ∀ document ∈ args.allDocuments, ∀ segment ∈ document, segment ≠ []
  index : args.documentIndex < args.allDocuments.length
  maxSeqLength : 5 ≤ args.maxSeqLength

theorem Draft.tokens_eq (draft : Draft) :
    draft.tokens = [CLS] ++ draft.tokensA ++ [SEP] ++ draft.tokensB ++ [SEP] := by
  simp only [Draft.tokens, List.cons_append, List.nil_append, List.append_assoc]

theorem Draft.length_tokens (draft : Draft) :
    draft.tokens.length = draft.tokensA.length + draft.tokensB.length + 3 := by
  unfold Draft.tokens
  simp only [List.length_append, List.length_cons, List.length_nil]
  omega

theorem Draft.segmentIds_eq (draft : Draft) :
    draft.segmentIds = List.replicate (draft.tokensA.length + 2) 0 ++
      List.replicate (draft.tokensB.length + 1) 1 := by
  unfold Draft.segmentIds
  rw [List.map_const', List.map_const', List.replicate_succ, List.replicate_succ',
    List.replicate_succ']
  simp only [List.cons_append, List.append_assoc, List.nil_append]

/-- All ten tries drew the document that is being processed. -/
def AllTriesFail (args : DocumentArgs) (rng : Rng) : Prop :=
  ∀ k < 10, inRange 0 ((args.allDocuments.length : Int) - 1) (rng k) = args.documentIndex

/-- What a draft is made of. -/
structure Draft.Spec (args : DocumentArgs) (draft : Draft) : Prop where
  aSource : ∃ document, args.allDocuments[args.documentIndex]? = some document ∧
    draft.aSegments <:+: document ∧ draft.aSegments ≠ []
  bSource : ∃ document, args.allDocuments[draft.bDocument]? = some document ∧
    draft.bSegments <:+: document ∧ draft.bSegments ≠ []
  actual : ¬ draft.isRandomNext → draft.bDocument = args.documentIndex
  random : draft.isRandomNext →
    (draft.bDocument = args.documentIndex ↔ AllTriesFail args draft.choiceRng)
  truncated : 0 ≤ args.maxNumTokens ∧
    draft.tokensA = truncatedA draft.aSegments.flatten draft.bSegments.flatten
      args.maxNumTokens draft.truncateRng ∧
    draft.tokensB = truncatedB draft.aSegments.flatten draft.bSegments.flatten
      args.maxNumTokens draft.truncateRng
  nonempty : draft.tokensA ≠ [] ∧ draft.tokensB ≠ []

/-! ## The choice of B -/

theorem ensures_chooseDocument {count documentIndex tries last : Nat} {E : PyError → Prop}
    (hE : count = 0 → E .valueError) :
    Ensures (chooseDocument count documentIndex tries last)
      (fun k _ => (tries ≠ 0 → k < count) ∧
        (k = documentIndex ↔ (tries = 0 → last = documentIndex) ∧
          ∀ j < tries, inRange 0 ((count : Int) - 1) (rng j) = documentIndex)) E rng := by
  induction tries generalizing last rng with
  | zero =>
    refine ensures_pure ⟨fun h => absurd rfl h, fun h => ⟨fun _ => h, fun j hj => ?_⟩,
      fun h => h.1 rfl⟩
    omega
  | succ tries ih =>
    unfold chooseDocument
    refine ensures_bind ?_
    refine ensures_randint (fun h => hE (by omega)) fun hlo hhi => ?_
    have hcast : ∀ k : Nat, inRange 0 ((count : Int) - 1) (rng 0) = k ↔
        (inRange 0 ((count : Int) - 1) (rng 0)).toNat = k := by
      intro k
      omega
    split
    · next hne =>
      refine ensures_pure ⟨fun _ => by omega, fun h => absurd h hne, fun h => ?_⟩
      exact (hcast _).mp (h.2 0 (Nat.succ_pos tries))
    · next heq =>
      rw [not_not] at heq
      refine ih.imp fun k t ⟨hlt, hiff⟩ => ⟨fun _ => ?_, ?_⟩
      · rcases Nat.eq_zero_or_pos tries with rfl | hpos
        · have := hiff.mpr ⟨fun _ => heq, fun j hj => absurd hj (Nat.not_lt_zero j)⟩
          omega
        · exact hlt hpos.ne'
      · rw [hiff]
        constructor
        · rintro ⟨-, h⟩
          refine ⟨fun h0 => (nomatch h0), fun j hj => ?_⟩
          cases j with
          | zero => exact (hcast _).mpr heq
          | succ j => exact h j (Nat.lt_of_succ_lt_succ hj)
        · rintro ⟨-, h⟩
          exact ⟨fun _ => heq, fun j hj => h (j + 1) (Nat.succ_lt_succ hj)⟩

theorem segmentsUntil_isPrefix (target : Int) (length : Nat) (segments : List Segment) :
    segmentsUntil target length segments <+: segments := by
  induction segments generalizing length with
  | nil => exact List.nil_prefix
  | cons segment segments ih =>
    unfold segmentsUntil
    split
    · exact List.prefix_append [segment] segments
    · exact List.cons_prefix_cons.mpr ⟨rfl, ih _⟩

theorem segmentsUntil_ne_nil (target : Int) (length : Nat) {segments : List Segment}
    (h : segments ≠ []) : segmentsUntil target length segments ≠ [] := by
  cases segments with
  | nil => exact absurd rfl h
  | cons segment segments =>
    unfold segmentsUntil
    split
    · exact List.cons_ne_nil _ _
    · exact List.cons_ne_nil _ _

/-- The random next segments come from the document that was chosen. -/
theorem ensures_randomNext {target : Int} (hindex : args.documentIndex < args.allDocuments.length) :
    Ensures (randomNext args target)
      (fun choice _ => (∃ document, args.allDocuments[choice.1]? = some document ∧
          choice.2 <:+: document ∧ choice.2 ≠ []) ∧
        (choice.1 = args.documentIndex ↔ AllTriesFail args rng))
      (fun _ => ¬ args.Sound) rng := by
  unfold randomNext
  refine (ensures_chooseDocument (fun h => by omega)).bind fun k t hk => ?_
  obtain ⟨hlt, hiff⟩ := hk
  refine ensures_bind ?_
  refine ensures_getItem (absurd (hlt (by decide))) fun document hdocument => ?_
  have hmem : document ∈ args.allDocuments := List.mem_of_getElem? hdocument
  refine ensures_bind ?_
  refine ensures_randint (fun h hsound => ?_) fun hlo hhi => ?_
  · have := List.length_pos_iff.mpr (hsound.documents document hmem)
    omega
  · refine ensures_pure ⟨⟨document, hdocument, ?_, ?_⟩, ?_⟩
    · exact (segmentsUntil_isPrefix _ _ _).isInfix.trans (List.drop_suffix _ document).isInfix
    · refine segmentsUntil_ne_nil _ _ fun hnil => ?_
      have := List.drop_eq_nil_iff.mp hnil
      omega
    · exact hiff.trans ⟨fun h => h.2, fun h => ⟨fun h0 => (nomatch h0), h⟩⟩

/-! ## A chunk -/

theorem flatten_ne_nil {segments : List Segment} (h : segments ≠ [])
    (hsegments : ∀ segment ∈ segments, segment ≠ []) : segments.flatten ≠ [] := by
  cases segments with
  | nil => exact absurd rfl h
  | cons segment segments =>
    intro hnil
    exact hsegments segment List.mem_cons_self
      (List.append_eq_nil_iff.mp (List.flatten_cons ▸ hnil)).1

theorem ensures_truncateSeqPair (tokensA tokensB : List Token) (maxNumTokens : Int) :
    Ensures (truncateSeqPair tokensA tokensB maxNumTokens)
      (fun result _ => 0 ≤ maxNumTokens ∧
        result = (truncatedA tokensA tokensB maxNumTokens rng,
          truncatedB tokensA tokensB maxNumTokens rng))
      (fun _ => ¬ 0 ≤ maxNumTokens) rng := by
  rcases Decidable.em (0 ≤ maxNumTokens) with h | h
  · exact ensures_of_eq_ok (truncateSeqPair_eq h tokensA tokensB rng) ⟨h, rfl⟩
  · exact ensures_truncateLoop_nonneg.mono (fun _ _ h' => absurd h' h) fun _ _ => h

/-- `a_end` leaves a segment for B whenever the chunk has two. -/
theorem ensures_drawAEnd {E : PyError → Prop} {chunk : List Segment} (hne : chunk ≠ []) :
    Ensures (drawAEnd chunk)
      (fun aEnd _ => 1 ≤ aEnd ∧ aEnd ≤ chunk.length ∧ (chunk.length ≠ 1 → aEnd < chunk.length))
      E rng := by
  have hlength := List.length_pos_iff.mpr hne
  unfold drawAEnd
  split
  · rw [← bind_pure_comp]
    refine ensures_bind ?_
    refine ensures_randint (fun h => by omega) fun hlo hhi => ensures_pure ?_
    exact ⟨by omega, by omega, fun _ => by omega⟩
  · exact ensures_pure ⟨Nat.le_refl 1, hlength, fun _ => by omega⟩

theorem ensures_drawIsRandomNext {E : PyError → Prop} (chunk : List Segment) :
    Ensures (drawIsRandomNext chunk)
      (fun isRandomNext _ => isRandomNext = false → chunk.length ≠ 1) E rng := by
  unfold drawIsRandomNext
  split
  · exact ensures_pure fun h => nomatch h
  · next h => exact ensures_randomBelow fun _ => h

/-- Where B comes from. -/
theorem ensures_drawB {target : Int} {isRandomNext : Bool} {document : Document}
    {actualNext : List Segment}
    (hdocument : args.allDocuments[args.documentIndex]? = some document)
    (hsub : actualNext <:+: document) (hne : isRandomNext = false → actualNext ≠ []) :
    Ensures (drawB args target isRandomNext actualNext)
      (fun choice _ => (∃ document, args.allDocuments[choice.1]? = some document ∧
          choice.2 <:+: document ∧ choice.2 ≠ []) ∧
        (isRandomNext = false → choice = (args.documentIndex, actualNext)) ∧
        (isRandomNext = true → (choice.1 = args.documentIndex ↔ AllTriesFail args rng)))
      (fun _ => ¬ args.Sound) rng := by
  unfold drawB
  cases isRandomNext with
  | true =>
    rw [if_pos rfl]
    obtain ⟨hindex, -⟩ := List.getElem?_eq_some_iff.mp hdocument
    exact (ensures_randomNext hindex).imp fun choice t h =>
      ⟨h.1, fun h' => (nomatch h'), fun _ => h.2⟩
  | false =>
    rw [if_neg Bool.false_ne_true]
    exact ensures_pure ⟨⟨document, hdocument, hsub, hne rfl⟩, fun _ => rfl, fun h => nomatch h⟩

/-- What the draft of a chunk is made of, and how many segments of the chunk it leaves. -/
theorem ensures_draftOfChunk {target : Int} {document : Document} {chunk : List Segment}
    (hdocument : args.allDocuments[args.documentIndex]? = some document)
    (hchunk : chunk <:+: document) (hne : chunk ≠ []) :
    Ensures (draftOfChunk args target chunk)
      (fun r _ => r.1.Spec args ∧ r.2 < chunk.length ∧
        r.1.used = chunk.take (chunk.length - r.2))
      (fun _ => ¬ args.Sound) rng := by
  have hlength := List.length_pos_iff.mpr hne
  unfold draftOfChunk
  refine (ensures_drawAEnd hne).bind fun aEnd rng₁ haEnd => ?_
  obtain ⟨hpos, hle, hlt⟩ := haEnd
  refine (ensures_drawIsRandomNext chunk).bind fun isRandomNext choiceRng hrandom => ?_
  refine ensures_bind ?_
  refine ensures_of_eq_ok rfl ?_
  have hdrop : chunk.drop aEnd <:+: document := (List.drop_suffix aEnd chunk).isInfix.trans hchunk
  have hdropNe : isRandomNext = false → chunk.drop aEnd ≠ [] := by
    intro h hnil
    have := hlt (hrandom h)
    have := List.drop_eq_nil_iff.mp hnil
    omega
  refine (ensures_drawB hdocument hdrop hdropNe).bind fun choice truncateRng hchoice => ?_
  obtain ⟨bDocument, bSegments⟩ := choice
  obtain ⟨⟨bSource, hbSource, hbInfix, hbNe⟩, hactual, hrandomNext⟩ := hchoice
  have haInfix : chunk.take aEnd <:+: document := (List.take_prefix aEnd chunk).isInfix.trans hchunk
  have haNe : chunk.take aEnd ≠ [] := by
    intro hnil
    rcases List.take_eq_nil_iff.mp hnil with h | h
    · omega
    · exact hne h
  -- with sound arguments both parts have a token before and after the truncation
  have hsound : args.Sound → (chunk.take aEnd).flatten ≠ [] ∧ bSegments.flatten ≠ [] := by
    intro h
    refine ⟨flatten_ne_nil haNe fun segment hmem => ?_, flatten_ne_nil hbNe fun segment hmem => ?_⟩
    · exact h.segments document (List.mem_of_getElem? hdocument) segment
        (haInfix.subset hmem)
    · exact h.segments bSource (List.mem_of_getElem? hbSource) segment (hbInfix.subset hmem)
  refine ensures_bind ?_
  refine ensures_of_eq_ok rfl ?_
  refine ((ensures_truncateSeqPair _ _ _).mono (fun _ _ h => h) fun e h hs => ?_).bind ?_
  · have := hs.maxSeqLength
    unfold DocumentArgs.maxNumTokens at h
    omega
  rintro ⟨tokensA, tokensB⟩ rng₂ htruncate
  have hkept : args.Sound → 1 ≤ tokensA.length ∧ 1 ≤ tokensB.length := by
    intro h
    have hmax : 2 ≤ args.maxNumTokens := by
      have := h.maxSeqLength
      unfold DocumentArgs.maxNumTokens
      omega
    obtain ⟨rfl, rfl⟩ := Prod.mk.inj htruncate.2
    obtain ⟨-, -, -, hA, hB⟩ := truncated_spec hmax (hsound h).1 (hsound h).2 truncateRng
    exact ⟨hA, hB⟩
  refine ensures_bind ?_
  refine ensures_assert (fun h hs => h (hkept hs).1) fun hA => ?_
  refine ensures_bind ?_
  refine ensures_assert (fun h hs => h (hkept hs).2) fun hB => ?_
  refine ensures_pure ⟨?_, ?_, ?_⟩
  · exact
      { aSource := ⟨document, hdocument, haInfix, haNe⟩
        bSource := ⟨bSource, hbSource, hbInfix, hbNe⟩
        actual := fun h => by
          have := hactual (Bool.eq_false_iff.mpr h)
          exact (Prod.mk.inj this).1
        random := hrandomNext
        truncated := ⟨htruncate.1, Prod.mk.inj htruncate.2⟩
        nonempty := ⟨List.length_pos_iff.mp hA, List.length_pos_iff.mp hB⟩ }
  · show (if isRandomNext then chunk.length - aEnd else 0) < chunk.length
    split <;> omega
  · unfold Draft.used
    cases isRandomNext with
    | true =>
      show chunk.take aEnd ++ [] = chunk.take (chunk.length - (chunk.length - aEnd))
      rw [List.append_nil, Nat.sub_sub_self hle]
    | false =>
      obtain ⟨-, rfl⟩ := Prod.mk.inj (hactual rfl)
      show chunk.take aEnd ++ chunk.drop aEnd = chunk.take (chunk.length - 0)
      rw [List.take_append_drop, Nat.sub_zero, List.take_length]

/-- The parts of a draft are contiguous parts of its segments. -/
theorem Draft.Spec.parts {draft : Draft} (h : draft.Spec args) :
    draft.tokensA <:+: draft.aSegments.flatten ∧ draft.tokensB <:+: draft.bSegments.flatten := by
  obtain ⟨-, htokensA, htokensB⟩ := h.truncated
  rw [htokensA, htokensB]
  exact ⟨window_isInfix _ _ _, window_isInfix _ _ _⟩

/-! ## The loop -/

/-- What the loop collects: the drafts use up the segments of `document`, each once and in
their order, and each instance is its draft with a result of the masking. -/
structure Collected (args : DocumentArgs) (masked : List Token → Predictions → Prop)
    (document : List Segment) (traced : List (Draft × TrainingInstance)) : Prop where
  used : (traced.map (·.1.used)).flatten = document
  spec : ∀ p ∈ traced, p.1.Spec args
  made : ∀ p ∈ traced, ∃ predictions, masked p.1.tokens predictions ∧
    p.2 = p.1.toInstance predictions

/-- The bound on the number of turns: the segments behind the start of the chunk count
more than the segments of a whole document. -/
def turnsLeft (length start i : Nat) : Nat := (length - start) * (length + 1) + (length - i)

theorem turnsLeft_advance (start : Nat) {length i : Nat} (h : i < length) :
    turnsLeft length start (i + 1) < turnsLeft length start i := by
  unfold turnsLeft
  omega

theorem turnsLeft_restart {length i : Nat} (start start' : Nat) (h : start < start')
    (h' : start' ≤ length) (hi : i < length) :
    turnsLeft length start' start' < turnsLeft length start i := by
  unfold turnsLeft
  have hmul : (length - start' + 1) * (length + 1) ≤ (length - start) * (length + 1) :=
    Nat.mul_le_mul_right _ (by omega)
  rw [Nat.add_mul, Nat.one_mul] at hmul
  omega

theorem Collected.nil {masked : List Token → Predictions → Prop} : Collected args masked [] [] where
  used := rfl
  spec := fun _ hp => absurd hp List.not_mem_nil
  made := fun _ hp => absurd hp List.not_mem_nil

theorem Collected.cons {masked : List Token → Predictions → Prop} {draft : Draft}
    {predictions : Predictions} {document rest : List Segment}
    {traced : List (Draft × TrainingInstance)} (hspec : draft.Spec args)
    (hmade : masked draft.tokens predictions) (hused : draft.used ++ rest = document)
    (h : Collected args masked rest traced) :
    Collected args masked document ((draft, draft.toInstance predictions) :: traced) where
  used := by
    rw [List.map_cons, List.flatten_cons, h.used]
    exact hused
  spec := fun p hp => by
    rcases List.mem_cons.mp hp with rfl | hp
    · exact hspec
    · exact h.spec p hp
  made := fun p hp => by
    rcases List.mem_cons.mp hp with rfl | hp
    · exact ⟨predictions, hmade, rfl⟩
    · exact h.made p hp

/-- The chunk that starts at `start`, with one more segment. -/
theorem chunk_concat {document chunk : List Segment} {segment : Segment} {start i : Nat}
    (hi : i = start + chunk.length) (hchunk : chunk = (document.drop start).take chunk.length)
    (hget : document[i]? = some segment) :
    chunk ++ [segment] = (document.drop start).take (chunk ++ [segment]).length := by
  have hsegment : (document.drop start)[chunk.length]? = some segment := by
    rw [List.getElem?_drop, ← hi, hget]
  rw [List.length_append, List.length_singleton, List.take_add_one, ← hchunk, hsegment]
  rfl

/-- What is used of the chunk, and what comes after it. -/
theorem chunk_take_append {document chunk : List Segment} {start k : Nat}
    (hchunk : chunk = (document.drop start).take chunk.length) (hk : k ≤ chunk.length) :
    chunk.take k ++ document.drop (start + k) = document.drop start := by
  have htake : chunk.take k = (document.drop start).take k := by
    conv_lhs => rw [hchunk, List.take_take, Nat.min_eq_left hk]
  rw [htake, ← List.drop_drop, List.take_append_drop]

theorem drop_start_of_end {document chunk : List Segment} {start i : Nat}
    (hi : i = start + chunk.length) (hopen : chunk ≠ [] → i < document.length)
    (hend : document.length ≤ i) : document.drop start = [] := by
  obtain rfl : chunk = [] := by
    refine Decidable.byContradiction fun hne => ?_
    have := hopen hne
    omega
  rw [List.length_nil, Nat.add_zero] at hi
  exact List.drop_eq_nil_of_le (hi ▸ hend)

/-- The invariant of the loop: the chunk is the segments from `start` up to `i`. The loop
is left only at the end of the document with an empty chunk, because the last segment
closes its chunk; after a chunk was closed, the next one starts at a later segment. -/
theorem ensures_documentLoop {mask : List Token → Py Predictions}
    {masked : List Token → Predictions → Prop} {E : PyError → Prop} {target : Int}
    {document : Document}
    (hmask : ∀ tokens rng, Ensures (mask tokens) (fun p _ => masked tokens p) E rng)
    (hdocument : args.allDocuments[args.documentIndex]? = some document)
    (start : Nat) {fuel i length : Nat} {chunk : List Segment} (hi : i = start + chunk.length)
    (hchunk : chunk = (document.drop start).take chunk.length)
    (hopen : chunk ≠ [] → i < document.length)
    (hfuel : turnsLeft document.length start i ≤ fuel) :
    Ensures (documentLoop args mask target document fuel i chunk length)
      (fun traced _ => Collected args masked (document.drop start) traced)
      (fun e => args.Sound → E e) rng := by
  induction fuel generalizing start i length chunk rng with
  | zero =>
    have hend : document.length ≤ i := by
      unfold turnsLeft at hfuel
      omega
    unfold documentLoop
    rw [List.getElem?_eq_none hend, drop_start_of_end hi hopen hend]
    exact ensures_pure .nil
  | succ fuel ih =>
    unfold documentLoop
    split
    · next hnone =>
      rw [drop_start_of_end hi hopen (List.getElem?_eq_none_iff.mp hnone)]
      exact ensures_pure .nil
    · next segment hget =>
      obtain ⟨hlt, -⟩ := List.getElem?_eq_some_iff.mp hget
      have hconcat := chunk_concat hi hchunk hget
      have hne : chunk ++ [segment] ≠ [] := List.concat_ne_nil segment chunk
      have hlength : (chunk ++ [segment]).length = chunk.length + 1 := List.length_append
      simp only
      generalize chunk ++ [segment] = chunk' at hconcat hne hlength ⊢
      split
      · -- the chunk is closed
        have hsub : chunk' <:+: document := by
          rw [hconcat]
          exact (List.take_prefix _ _).isInfix.trans (List.drop_suffix start document).isInfix
        refine ((ensures_draftOfChunk hdocument hsub hne).mono (fun _ _ h => h)
          fun _ h hs => absurd hs h).bind ?_
        rintro ⟨draft, unused⟩ t ⟨hspec, hunused, hused⟩
        simp only at hspec hunused hused ⊢
        refine ((hmask draft.tokens t).mono (fun _ _ h => h) fun _ h _ => h).bind
          fun predictions t' hmade => ?_
        have hnext : Ensures (documentLoop args mask target document fuel (i - unused + 1) [] 0)
            (fun traced _ => Collected args masked
              (document.drop (start + (chunk'.length - unused))) traced)
            (fun e => args.Sound → E e) t' := by
          refine ih _ ?_ rfl (fun h => absurd rfl h) ?_
          · rw [List.length_nil]
            omega
          · have := turnsLeft_restart start (start + (chunk'.length - unused)) (by omega)
              (by omega) hlt
            have hrestart : i - unused + 1 = start + (chunk'.length - unused) := by omega
            rw [hrestart]
            omega
        refine hnext.bind fun traced t'' htraced => ensures_pure ?_
        refine .cons hspec hmade ?_ htraced
        rw [hused]
        exact chunk_take_append hconcat (Nat.sub_le _ _)
      · next hopen' =>
        rw [not_or] at hopen'
        refine ih start (by omega) hconcat (fun _ => by omega) ?_
        have := turnsLeft_advance start hlt
        omega

/-- A whole document: the bound on the number of turns is never reached. -/
theorem ensures_tracedInstances (args : DocumentArgs) (rng : Rng)
    {mask : List Token → Py Predictions} {masked : List Token → Predictions → Prop}
    {E : PyError → Prop}
    (hmask : ∀ tokens rng, Ensures (mask tokens) (fun p _ => masked tokens p) E rng) :
    Ensures (tracedInstances args mask)
      (fun traced _ => ∃ document, args.allDocuments[args.documentIndex]? = some document ∧
        Collected args masked document traced)
      (fun e => args.Sound → E e) rng := by
  unfold tracedInstances
  refine ensures_bind ?_
  refine ensures_getItem (fun h hs => absurd hs.index h) fun document hdocument => ?_
  have htarget : Ensures (targetSeqLength args) (fun _ _ => True)
      (fun e => args.Sound → E e) rng := by
    unfold targetSeqLength
    refine ensures_bind ?_
    refine ensures_randomBelow ?_
    split
    · refine ensures_randint (fun h hs => ?_) fun _ _ => trivial
      have := hs.maxSeqLength
      unfold DocumentArgs.maxNumTokens at h
      omega
    · exact ensures_pure trivial
  refine htarget.bind fun target t _ => ?_
  refine (ensures_documentLoop hmask hdocument 0 rfl rfl (fun h => absurd rfl h) ?_).imp
    fun traced _ h => ⟨document, hdocument, h⟩
  unfold turnsLeft
  rw [Nat.sub_zero, Nat.succ_mul]
  omega

end FinBert.Prep
