import FinBert.Squad.Features

/-!
# The targets of the features

For training, a feature of `convert_examples_to_features` (`run_squad.py`) has the positions of the
answer as its target, or `(0, 0)` when the answer is not in its window. The answer begins with the
first piece of its first word and ends in front of the word behind its last one: when none of its
words has a piece, it ends before it begins.

Results:
1. `improveAnswerSpan_cases`: a better span lies inside of the annotated one.
2. `answerSpan_spec`: the span of the answer in pieces.
3. `realTargets_iff`: when all targets are real spans.
-/

namespace FinBert.Squad

/-! ## The span of the answer -/

theorem mem_rangeUp {i j k : Int} : k ∈ rangeUp i j ↔ i ≤ k ∧ k < j := by
  unfold rangeUp
  rw [List.mem_map]
  constructor
  · rintro ⟨n, hn, rfl⟩
    have hlt := List.mem_range.mp hn
    omega
  · rintro ⟨hge, hlt⟩
    exact ⟨(k - i).toNat, List.mem_range.mpr (by omega), by omega⟩

theorem mem_rangeDown {i j k : Int} : k ∈ rangeDown i j ↔ j < k ∧ k ≤ i := by
  unfold rangeDown
  rw [List.mem_map]
  constructor
  · rintro ⟨n, hn, rfl⟩
    have hlt := List.mem_range.mp hn
    omega
  · rintro ⟨hgt, hle⟩
    exact ⟨(i - k).toNat, List.mem_range.mpr (by omega), by omega⟩

/-- A better span lies inside of the annotated one; without one, the annotated one stays. -/
theorem improveAnswerSpan_cases (docTokens : List String) (inputStart inputEnd : Int)
    (tokenize : String → List String) (origAnswerText : String) :
    let span := improveAnswerSpan docTokens inputStart inputEnd tokenize origAnswerText
    span = (inputStart, inputEnd) ∨
      inputStart ≤ span.1 ∧ span.1 ≤ span.2 ∧ span.2 ≤ inputEnd := by
  unfold improveAnswerSpan
  dsimp only
  generalize hfound : (rangeUp inputStart (inputEnd + 1)).findSome? _ = found
  cases found with
  | none => exact .inl rfl
  | some span =>
    obtain ⟨newStart, hstart, hinner⟩ := List.exists_of_findSome?_eq_some hfound
    obtain ⟨newEnd, hend, hspan⟩ := List.exists_of_findSome?_eq_some hinner
    split at hspan
    · obtain rfl := Option.some.inj hspan
      have hup := mem_rangeUp.mp hstart
      have hdown := mem_rangeDown.mp hend
      exact .inr ⟨hup.1, Int.sub_one_lt_iff.mp hdown.1, hdown.2⟩
    · cases hspan

section
variable (tokenize : String → List String)

theorem pieceCount_le (docTokens : List String) {k l : Nat} (h : k ≤ l) :
    pieceCount tokenize docTokens l = pieceCount tokenize docTokens k +
      (((docTokens.drop k).take (l - k)).flatMap tokenize).length := by
  unfold pieceCount
  rw [← List.length_append, ← List.flatMap_append, ← List.take_add, Nat.add_sub_cancel' h]

theorem pieceCount_length (docTokens : List String) :
    pieceCount tokenize docTokens docTokens.length = (docTokens.flatMap tokenize).length := by
  rw [pieceCount, List.take_length]

/-- The words of the answer. -/
def answerWords (docTokens : List String) (startPosition endPosition : Nat) : List String :=
  (docTokens.drop startPosition).take (endPosition + 1 - startPosition)

/-- The answer in pieces: from the first piece of its first word to the one in front of the word
behind it, or a better span inside of these pieces. -/
theorem answerSpan_spec {e : SquadExample} {startPosition endPosition : Nat}
    (hstart : e.startPosition = some (startPosition : Int))
    (hend : e.endPosition = some (endPosition : Int)) (hle : startPosition ≤ endPosition)
    (hlt : endPosition < e.docTokens.length) :
    let tokStart := pieceCount tokenize e.docTokens startPosition
    let pieces := ((answerWords e.docTokens startPosition endPosition).flatMap tokenize).length
    ∃ span, answerSpan tokenize (indexDocTokens tokenize e.docTokens 0 {}) e = some span ∧
      (span = ((tokStart : Int), (tokStart : Int) + pieces - 1) ∨
        (tokStart : Int) ≤ span.1 ∧ span.1 ≤ span.2 ∧ span.2 ≤ (tokStart : Int) + pieces - 1) := by
  intro tokStart pieces
  obtain ⟨hall, -, horig⟩ := indexDocTokens_eq tokenize e.docTokens
  have hpieces : pieceCount tokenize e.docTokens (endPosition + 1) = tokStart + pieces :=
    pieceCount_le tokenize e.docTokens (Nat.le_succ_of_le hle)
  have htokStart : itemAt (indexDocTokens tokenize e.docTokens 0 {}).origToTokIndex
      (startPosition : Int) = some tokStart := by
    rw [itemAt, if_pos (Int.natCast_nonneg _), Int.toNat_natCast]
    exact horig _ (hle.trans_lt hlt)
  have htokEnd : annotatedEnd (indexDocTokens tokenize e.docTokens 0 {}) e endPosition =
      some ((tokStart : Int) + pieces - 1) := by
    unfold annotatedEnd
    split
    · next hbefore =>
      have hnext : ((endPosition : Int) + 1).toNat = endPosition + 1 := by omega
      rw [itemAt, if_pos (by omega), hnext, horig _ (by omega), hpieces]
      rfl
    · next hlast =>
      have htotal : pieceCount tokenize e.docTokens (endPosition + 1) =
          (e.docTokens.flatMap tokenize).length := by
        unfold pieceCount
        rw [List.take_of_length_le (by omega)]
      rw [hall, ← htotal, hpieces]
      rfl
  refine ⟨_, ?_, improveAnswerSpan_cases (indexDocTokens tokenize e.docTokens 0 {}).allDocTokens
    tokStart ((tokStart : Int) + pieces - 1) tokenize e.origAnswerText⟩
  unfold answerSpan
  rw [hstart, hend]
  dsimp only [Option.bind_eq_bind, Option.bind_some]
  rw [htokStart, Option.bind_some, htokEnd]
  rfl

end

section
variable {span : Int × Int} {tokStart pieces : Nat}
  (h : span = ((tokStart : Int), (tokStart : Int) + pieces - 1) ∨
    (tokStart : Int) ≤ span.1 ∧ span.1 ≤ span.2 ∧ span.2 ≤ (tokStart : Int) + pieces - 1)

include h in
/-- Without a piece the span of the answer is empty. -/
theorem span_of_no_pieces (hnone : pieces = 0) :
    span = ((tokStart : Int), (tokStart : Int) - 1) := by
  subst hnone
  rcases h with heq | ⟨hge, hspanLe, hbefore⟩
  · rw [heq]
    simp only [Int.natCast_zero, Int.add_zero]
  · rw [Int.natCast_zero, Int.add_zero] at hbefore
    exact absurd ((hge.trans hspanLe).trans hbefore) (Int.not_le.mpr (Int.sub_one_lt_of_le le_rfl))

include h in
/-- With a piece the span of the answer has a first and a last piece. -/
theorem span_of_pieces (hpos : 0 < pieces) : ∃ first last : Nat, first ≤ last ∧
    span = ((first : Int), (last : Int)) := by
  obtain ⟨first, last⟩ := span
  have hbounds : 0 ≤ first ∧ first ≤ last := by
    rcases h with heq | ⟨hge, hspanLe, -⟩
    · obtain ⟨rfl, rfl⟩ := Prod.mk.inj heq
      omega
    · exact ⟨(Int.natCast_nonneg _).trans hge, hspanLe⟩
  refine ⟨first.toNat, last.toNat, Int.toNat_le_toNat hbounds.2, ?_⟩
  rw [Int.toNat_of_nonneg hbounds.1, Int.toNat_of_nonneg (hbounds.1.trans hbounds.2)]

end

/-! ## The targets of the windows -/

/-- The positions are those of tokens of the document, between the query and the last `[SEP]`, and
these tokens are the answer. -/
structure PointsAt (queryCount : Nat) (answer : List String) (feature : InputFeatures)
    (startPosition endPosition : Nat) : Prop where
  start_eq : feature.startPosition = some (startPosition : Int)
  end_eq : feature.endPosition = some (endPosition : Int)
  ordered : startPosition ≤ endPosition
  inDocument : queryCount + 2 ≤ startPosition ∧ endPosition + 1 < feature.tokens.length
  tokens : (feature.tokens.drop startPosition).take (endPosition + 1 - startPosition) = answer

/-- The target is `(0, 0)`, or the positions of the answer. -/
def RealTarget (queryCount : Nat) (answer : List String) (feature : InputFeatures) : Prop :=
  feature.startPosition = some 0 ∧ feature.endPosition = some 0 ∨
    ∃ startPosition endPosition,
      PointsAt queryCount answer feature startPosition endPosition

section
variable {tokenizer : Tokenizer} {queryTokens : List String} {d : DocIndex} {maxSeqLength : Nat}
  {docSpan : DocSpan} {feature : InputFeatures}

/-- A part of a window, counted from the beginning of the feature. -/
theorem drop_take_frame (doc : List String) {start length i n : Nat} (hin : i + n ≤ length)
    (hinside : start + length ≤ doc.length) :
    (("[CLS]" :: queryTokens ++ ["[SEP]"] ++ (doc.drop start).take length ++ ["[SEP]"]).drop
      (queryTokens.length + 2 + i)).take n = (doc.drop (start + i)).take n := by
  have hframe : ("[CLS]" :: queryTokens ++ ["[SEP]"]).length = queryTokens.length + 2 := by
    rw [List.length_append, List.length_cons, List.length_singleton]
  have hwindow : ((doc.drop start).take length).length = length := by
    rw [List.length_take, List.length_drop]
    omega
  rw [List.append_assoc, ← hframe, List.drop_length_add_append, List.drop_append_of_le_length
    (by omega), List.take_append_of_le_length (by rw [List.length_drop]; omega), List.drop_take,
    List.drop_drop, List.take_take, Nat.min_eq_left (by omega)]

/-- The target is `(0, 0)` in a window that the span is not inside of. -/
theorem realTarget_of_apart {tokStart tokEnd : Int}
    (hapart : ¬ (tokStart ≥ docSpan.start ∧ tokEnd ≤ docSpan.start + docSpan.length - 1))
    (answer : List String)
    (h : FeatureOf tokenizer queryTokens d maxSeqLength (some (tokStart, tokEnd)) false docSpan
      feature) : RealTarget queryTokens.length answer feature := by
  have hstart := h.startPosition
  have hend := h.endPosition
  unfold targetPositions at hstart hend
  dsimp only [Option.map_some] at hstart hend
  rw [if_neg Bool.false_ne_true, if_pos hapart] at hstart hend
  exact .inl ⟨hstart, hend⟩

/-- A span of pieces is the target of a window that contains it, and `(0, 0)` of the others. -/
theorem realTarget_of_le {tokStart tokEnd : Nat} (hle : tokStart ≤ tokEnd)
    (hinside : docSpan.start + docSpan.length ≤ d.allDocTokens.length)
    (h : FeatureOf tokenizer queryTokens d maxSeqLength
      (some ((tokStart : Int), (tokEnd : Int))) false docSpan feature) :
    RealTarget queryTokens.length (slice d.allDocTokens tokStart (tokEnd + 1)) feature := by
  have hstart := h.startPosition
  have hend := h.endPosition
  unfold targetPositions at hstart hend
  dsimp only [Option.map_some] at hstart hend
  by_cases hin : (tokStart : Int) ≥ docSpan.start ∧
      (tokEnd : Int) ≤ docSpan.start + docSpan.length - 1
  · rw [if_neg Bool.false_ne_true, if_neg (not_not.mpr hin)] at hstart hend
    refine .inr ⟨queryTokens.length + 2 + (tokStart - docSpan.start),
      queryTokens.length + 2 + (tokEnd - docSpan.start), ?_, ?_, by omega, ⟨by omega, ?_⟩, ?_⟩
    · rw [hstart]
      dsimp only
      congr 1
      omega
    · rw [hend]
      dsimp only
      congr 1
      omega
    · rw [h.tokens, windowTokens]
      simp only [List.length_append, List.length_cons, List.length_nil, List.length_take,
        List.length_drop]
      omega
    · rw [h.tokens, windowTokens, @drop_take_frame queryTokens d.allDocTokens docSpan.start
        docSpan.length _ _ (by omega) hinside]
      unfold slice
      congr 1
      · omega
      · congr 1
        omega
  · exact realTarget_of_apart hin _ h

/-- An empty span that lies inside of a window, or at its end, is taken for a target that ends
before it begins. -/
theorem not_realTarget_of_empty {tokStart : Nat} (hge : docSpan.start ≤ tokStart)
    (hle : tokStart ≤ docSpan.start + docSpan.length) (answer : List String)
    (h : FeatureOf tokenizer queryTokens d maxSeqLength
      (some ((tokStart : Int), (tokStart : Int) - 1)) false docSpan feature) :
    ¬ RealTarget queryTokens.length answer feature := by
  have hstart := h.startPosition
  have hend := h.endPosition
  unfold targetPositions at hstart hend
  dsimp only [Option.map_some] at hstart hend
  rw [if_neg Bool.false_ne_true, if_neg (not_not.mpr ⟨by omega, by omega⟩)] at hstart hend
  rintro (⟨hzero, -⟩ | ⟨startPosition, endPosition, hpoints⟩)
  · have heq := Option.some.inj (hstart.symm.trans hzero)
    dsimp only at heq
    omega
  · have hstart' := Option.some.inj (hstart.symm.trans hpoints.start_eq)
    have hend' := Option.some.inj (hend.symm.trans hpoints.end_eq)
    have hordered := hpoints.ordered
    dsimp only at hstart' hend'
    omega

end

section
variable {tokenizer : Tokenizer} {maxSeqLength maxQueryLength exampleIndex uniqueId : Nat}
  {e : SquadExample} {docSpans : List DocSpan} {features : List InputFeatures}

/-- A document without a piece has no features. -/
theorem FeaturesOf.eq_nil {tokSpan : Option (Int × Int)}
    (h : FeaturesOf tokenizer maxSeqLength maxQueryLength tokSpan exampleIndex uniqueId e docSpans
      features) (hnone : e.docTokens.flatMap tokenizer.tokenize = []) : features = [] := by
  have hwindows := h.windows
  rw [hnone] at hwindows
  have hlength := h.length_le
  rw [hwindows.eq_nil] at hlength
  exact List.eq_nil_of_length_eq_zero (Nat.le_zero.mp hlength)

/-- A span of pieces is a real target of every feature. -/
theorem FeaturesOf.realTargets {tokStart tokEnd : Nat}
    (h : FeaturesOf tokenizer maxSeqLength maxQueryLength
      (some ((tokStart : Int), (tokEnd : Int))) exampleIndex uniqueId e docSpans features)
    (hpossible : e.isImpossible = false) (hle : tokStart ≤ tokEnd) :
    ∀ feature ∈ features, RealTarget (queryTokensOf tokenizer.tokenize maxQueryLength e).length
      (slice (indexDocTokens tokenizer.tokenize e.docTokens 0 {}).allDocTokens tokStart
        (tokEnd + 1)) feature := by
  intro feature hfeature
  obtain ⟨j, hj⟩ := List.mem_iff_getElem?.mp hfeature
  obtain ⟨docSpan, hget, hof, -⟩ := h.made j feature hj
  have hinside := (h.windows.inside docSpan (List.mem_of_getElem? hget)).2
  rw [hpossible] at hof
  rw [← (indexDocTokens_eq tokenizer.tokenize e.docTokens).1] at hinside
  exact realTarget_of_le hle hinside hof

/-- An empty span is a real target of all features if and only if there is none for the first window
that reaches its place. -/
theorem FeaturesOf.realTargets_empty_iff {position maxTokensForDoc docStride k : Nat}
    {docSpan : DocSpan}
    (h : FeaturesOf tokenizer maxSeqLength maxQueryLength
      (some ((position : Int), (position : Int) - 1)) exampleIndex uniqueId e docSpans features)
    (hpossible : e.isImpossible = false)
    (hfirst : FirstReaching (e.docTokens.flatMap tokenizer.tokenize).length maxTokensForDoc
      docStride 0 position docSpans k docSpan) (answer : List String) :
    (∀ feature ∈ features, RealTarget (queryTokensOf tokenizer.tokenize maxQueryLength e).length
      answer feature) ↔ ¬ k < features.length := by
  constructor
  · intro htargets hlength
    obtain ⟨docSpan', hget, hof, -⟩ := h.made k _ (List.getElem?_eq_getElem hlength)
    obtain rfl := Option.some.inj (hget.symm.trans hfirst.at_index)
    rw [hpossible] at hof
    exact not_realTarget_of_empty hfirst.reaches.1 hfirst.reaches.2 _ hof
      (htargets _ (List.getElem_mem hlength))
  · intro hnot feature hfeature
    obtain ⟨j, hj⟩ := List.mem_iff_getElem?.mp hfeature
    obtain ⟨docSpan', hget, hof, -⟩ := h.made j feature hj
    rw [hpossible] at hof
    -- the windows of the features are in front of the first one that reaches the place
    refine realTarget_of_apart (fun hin => hnot ?_) _ hof
    exact (hfirst.first j docSpan' hget (by omega)).trans_lt (List.getElem?_eq_some_iff.mp hj).1

/-- A feature is made for the first window that reaches a place if and only if all tokens up to the
end of this window have ids. -/
theorem reached_iff {maxTokensForDoc docStride position k : Nat} {docSpan : DocSpan}
    (hmade : ∀ k < docSpans.length, k < features.length ↔ ∀ docSpan ∈ docSpans.take (k + 1),
      ∀ token ∈ windowTokens (queryTokensOf tokenizer.tokenize maxQueryLength e)
        (e.docTokens.flatMap tokenizer.tokenize) docSpan, (tokenizer.vocab token).isSome)
    (hfirst : FirstReaching (e.docTokens.flatMap tokenizer.tokenize).length maxTokensForDoc
      docStride 0 position docSpans k docSpan) :
    k < features.length ↔
      HasIds tokenizer maxQueryLength e (reach maxTokensForDoc docStride position) := by
  have hk := (List.getElem?_eq_some_iff.mp hfirst.at_index).1
  have hend := hfirst.end_eq
  rw [Nat.zero_add, Nat.sub_zero] at hend
  have hpos : docSpan.start + docSpan.length ≠ 0 := by
    have hlength := (hfirst.windows.length docSpan (List.mem_of_getElem?
      (hfirst.at_index ▸ List.getElem?_take_of_lt (Nat.lt_succ_self k)))).1
    omega
  have htake : (e.docTokens.flatMap tokenizer.tokenize).take (docSpan.start + docSpan.length) =
      (e.docTokens.flatMap tokenizer.tokenize).take (reach maxTokensForDoc docStride position) := by
    rw [List.take_eq_take_iff]
    omega
  rw [hmade k hk, forall_windowTokens_iff (P := fun token => (tokenizer.vocab token).isSome)
    (by omega) hfirst.windows, or_iff_left hpos, htake]
  rfl

end

/-- The features that are made of an answerable example for training have real targets if and only
if a word of the answer has a piece, or no word of the document has one, or no feature is made for
the first window that reaches the place of the answer, because a token has no id. -/
theorem realTargets_iff (tokenizer : Tokenizer) {e : SquadExample}
    {startPosition endPosition : Nat} (hstart : e.startPosition = some (startPosition : Int))
    (hend : e.endPosition = some (endPosition : Int)) (hle : startPosition ≤ endPosition)
    (hlt : endPosition < e.docTokens.length) (hpossible : e.isImpossible = false)
    {maxSeqLength docStride maxQueryLength : Nat}
    (hmax : (queryTokensOf tokenizer.tokenize maxQueryLength e).length + 4 ≤ maxSeqLength)
    (hstride : 1 ≤ docStride) (exampleIndex uniqueId : Nat) :
    let d := indexDocTokens tokenizer.tokenize e.docTokens 0 {}
    let queryCount := (queryTokensOf tokenizer.tokenize maxQueryLength e).length
    ∃ span, answerSpan tokenizer.tokenize d e = some span ∧
      ((∀ feature ∈ (convertExample tokenizer maxSeqLength docStride maxQueryLength true
          exampleIndex uniqueId e).1,
          RealTarget queryCount (slice d.allDocTokens span.1 (span.2 + 1)) feature) ↔
        (∃ word ∈ answerWords e.docTokens startPosition endPosition,
            tokenizer.tokenize word ≠ []) ∨
          (∀ word ∈ e.docTokens, tokenizer.tokenize word = []) ∨
          ¬ HasIds tokenizer maxQueryLength e (reach (maxSeqLength - queryCount - 3) docStride
            (pieceCount tokenizer.tokenize e.docTokens startPosition))) := by
  intro d queryCount
  obtain ⟨span, hspan, hcases⟩ := answerSpan_spec tokenizer.tokenize hstart hend hle hlt
  have htokSpan : tokSpanOf tokenizer.tokenize true d e = some (some span) := by
    unfold tokSpanOf
    rw [hpossible, hspan]
    rfl
  obtain ⟨docSpans, hloop, hown, hmade, -⟩ :=
    convertExample_spec htokSpan hmax hstride exampleIndex uniqueId
  refine ⟨span, hspan, ?_⟩
  generalize (convertExample tokenizer maxSeqLength docStride maxQueryLength true exampleIndex
    uniqueId e).1 = features at hown hmade ⊢
  have htotal : pieceCount tokenizer.tokenize e.docTokens startPosition ≤
      (e.docTokens.flatMap tokenizer.tokenize).length := by
    rw [← pieceCount_length, pieceCount_le tokenizer.tokenize e.docTokens (hle.trans hlt.le)]
    exact Nat.le_add_right _ _
  by_cases hpieces :
      (answerWords e.docTokens startPosition endPosition).flatMap tokenizer.tokenize = []
  · obtain rfl := span_of_no_pieces hcases (by rw [hpieces]; rfl)
    have hnot : ¬ ∃ word ∈ answerWords e.docTokens startPosition endPosition,
        tokenizer.tokenize word ≠ [] := fun ⟨word, hword, hpiece⟩ =>
      hpiece (List.flatMap_eq_nil_iff.mp hpieces word hword)
    rw [or_iff_right hnot]
    by_cases hnone : e.docTokens.flatMap tokenizer.tokenize = []
    · refine iff_of_true ?_ (.inl (List.flatMap_eq_nil_iff.mp hnone))
      rw [hown.eq_nil hnone]
      exact List.forall_mem_nil _
    · obtain ⟨k, docSpan, hfirst⟩ := docSpanLoop_reach (by omega) hstride hloop
        (List.length_pos_of_ne_nil hnone) (Nat.zero_le _) htotal
      rw [hown.realTargets_empty_iff hpossible hfirst, reached_iff hmade hfirst,
        or_iff_right (mt List.flatMap_eq_nil_iff.mpr hnone)]
  · obtain ⟨tokStart, tokEnd, hordered, rfl⟩ :=
      span_of_pieces hcases (List.length_pos_of_ne_nil hpieces)
    refine iff_of_true (hown.realTargets hpossible hordered) (.inl (by_contra fun hnone => ?_))
    refine hpieces (List.flatMap_eq_nil_iff.mpr fun word hword => by_contra fun hpiece => ?_)
    exact hnone ⟨word, hword, hpiece⟩

/-- A tokenizer that drops a word without a visible character, and knows every token. -/
def visiblePieces : Tokenizer where
  tokenize word := if word = "\u200b" then [] else [word]
  vocab _ := some 0

/-- An example with the answer `word` in a document of two words. -/
def exampleWithAnswer (docTokens : List String) (word : Nat) : SquadExample where
  qasId := "q"
  questionText := "who"
  docTokens := docTokens
  origAnswerText := docTokens.getD word ""
  startPosition := some word
  endPosition := some word

/-- The answer is the second word, behind one without a piece. -/
theorem realTargets_visible :
    let e := exampleWithAnswer ["\u200b", "a"] 1
    let d := indexDocTokens visiblePieces.tokenize e.docTokens 0 {}
    ∃ span, answerSpan visiblePieces.tokenize d e = some span ∧
      ((∀ feature ∈ (convertExample visiblePieces 8 2 4 true 0 1000000000 e).1,
          RealTarget (queryTokensOf visiblePieces.tokenize 4 e).length
            (slice d.allDocTokens span.1 (span.2 + 1)) feature) ↔
        (∃ word ∈ answerWords e.docTokens 1 1, visiblePieces.tokenize word ≠ []) ∨
          (∀ word ∈ e.docTokens, visiblePieces.tokenize word = []) ∨
          ¬ HasIds visiblePieces 4 e (reach 4 2 0)) :=
  realTargets_iff visiblePieces rfl rfl (by decide) (by decide) rfl (by decide) (by decide) 0
    1000000000

/-- The answer is a word without a piece: the target ends before it begins. -/
theorem not_realTargets_invisible :
    let e := exampleWithAnswer ["a", "\u200b"] 1
    let d := indexDocTokens visiblePieces.tokenize e.docTokens 0 {}
    ¬ ∀ span, answerSpan visiblePieces.tokenize d e = some span →
      ∀ feature ∈ (convertExample visiblePieces 8 2 4 true 0 1000000000 e).1,
        RealTarget (queryTokensOf visiblePieces.tokenize 4 e).length
          (slice d.allDocTokens span.1 (span.2 + 1)) feature := by
  intro e d h
  have hpositions : (convertExample visiblePieces 8 2 4 true 0 1000000000 e).1.map
      (fun feature => (feature.startPosition, feature.endPosition)) = [(some 4, some 3)] := by
    decide
  obtain ⟨feature, heq, hpair⟩ := List.map_eq_singleton_iff.mp hpositions
  obtain ⟨hstart, hend⟩ := Prod.mk.inj hpair
  rcases h (1, 0) (by decide) feature (heq ▸ List.mem_singleton_self feature) with
    ⟨hzero, -⟩ | ⟨startPosition, endPosition, hpoints⟩
  · cases hstart.symm.trans hzero
  · have hstart' := Option.some.inj (hstart.symm.trans hpoints.start_eq)
    have hend' := Option.some.inj (hend.symm.trans hpoints.end_eq)
    have hordered := hpoints.ordered
    omega

end FinBert.Squad
