import FinBert.Prep.Instances

/-!
# What the masking returns

Results:
1. `ensures_maskIndexSet`, `ensures_maskCandidates`: the loops keep the state sound and
   never mask more tokens than there are to predict.
2. `ensures_createMaskedLmPredictions`: `create_masked_lm_predictions` of the pre-training
   generator fails only for want of a vocabulary, and its result is sound. The same holds of
   the masking of the two copies.
3. `Predictions.Sound.restored`: the labels, written back at their positions, give the input.
-/

namespace FinBert.Prep

open Random Program

variable {cfg : MaskConfig} {tokens : List Token} {rng : Rng}

/-- The only exception of the masking: `randint` finds no word in an empty vocabulary. -/
def NoVocabulary (cfg : MaskConfig) (e : PyError) : Prop :=
  e = .valueError ∧ cfg.vocabWords = []

/-- A token that the masking may put into the output. -/
def Replacement (cfg : MaskConfig) (tokens : List Token) (token : Token) : Prop :=
  token ∈ tokens ∨ token = MASK ∨ token ∈ cfg.vocabWords

/-- The masked positions, in the order in which they were masked. -/
def MaskState.positions (s : MaskState) : List Nat := s.maskedLms.map (·.1)

@[simp] theorem MaskState.length_positions (s : MaskState) :
    s.positions.length = s.maskedLms.length := List.length_map _

theorem MaskState.maskedLmPositions_predictions (s : MaskState) :
    s.predictions.maskedLmPositions = s.positions.insertionSort (· ≤ ·) :=
  List.map_insertionSort _ _ _ _ fun _ _ _ _ => Iff.rfl

/-- The output is as long as the input and holds replacements only, it is the input at the
positions that are not masked, and each masked position has the token of the input as its
label. -/
structure MaskState.Sound (cfg : MaskConfig) (tokens : List Token) (s : MaskState) : Prop where
  length : s.outputTokens.length = tokens.length
  output : ∀ token ∈ s.outputTokens, Replacement cfg tokens token
  labels : ∀ p ∈ s.maskedLms, tokens[p.1]? = some p.2
  unchanged : ∀ i, i ∉ s.positions → s.outputTokens[i]? = tokens[i]?

/-- The same for the lists that `create_masked_lm_predictions` returns, at most `most` of
the positions. -/
structure Predictions.Sound (cfg : MaskConfig) (tokens : List Token) (most : Int)
    (p : Predictions) : Prop where
  length : p.outputTokens.length = tokens.length
  output : ∀ token ∈ p.outputTokens, Replacement cfg tokens token
  labels : List.Forall₂ (fun i label => tokens[i]? = some label) p.maskedLmPositions
    p.maskedLmLabels
  unchanged : ∀ i, i ∉ p.maskedLmPositions → p.outputTokens[i]? = tokens[i]?
  most : (p.maskedLmPositions.length : Int) ≤ most

theorem numToPredict_nonneg (cfg : MaskConfig) (tokens : List Token) :
    0 ≤ cfg.numToPredict tokens := by
  unfold MaskConfig.numToPredict
  omega

theorem numToPredict_le (cfg : MaskConfig) (tokens : List Token) :
    cfg.numToPredict tokens ≤ cfg.maxPredictionsPerSeq := by
  unfold MaskConfig.numToPredict
  omega

theorem MaskState.sound_start (cfg : MaskConfig) (tokens : List Token) :
    MaskState.Sound cfg tokens { outputTokens := tokens } :=
  ⟨rfl, fun _ htoken => .inl htoken, fun _ hp => absurd hp List.not_mem_nil, fun _ _ => rfl⟩

/-! ## Candidates -/

/-- Every index of every candidate is the index of a token. -/
def InRange (n : Nat) (candIndexes : List (List Nat)) : Prop :=
  ∀ indexSet ∈ candIndexes, ∀ i ∈ indexSet, i < n

section
variable {P : List Nat → Prop} {candIndexes : List (List Nat)} {i : Nat}

theorem forall_concat (h : ∀ indexSet ∈ candIndexes, P indexSet) (hi : P [i]) :
    ∀ indexSet ∈ candIndexes ++ [[i]], P indexSet := by
  intro indexSet hmem
  rcases List.mem_append.mp hmem with hmem | hmem
  · exact h indexSet hmem
  · rwa [List.mem_singleton.mp hmem]

theorem forall_appendToLast (h : ∀ indexSet ∈ candIndexes, P indexSet)
    (hi : ∀ indexSet, P indexSet → P (indexSet ++ [i])) :
    ∀ indexSet ∈ appendToLast candIndexes i, P indexSet := by
  unfold appendToLast
  split
  · next last hlast =>
    intro indexSet hmem
    rcases List.mem_append.mp hmem with hmem | hmem
    · exact h indexSet (List.dropLast_subset _ hmem)
    · rw [List.mem_singleton.mp hmem]
      exact hi last (h last (List.mem_of_getLast? hlast))
  · exact h

theorem forall_addCandidate (wholeWord : Bool) (token : Token)
    (h : ∀ indexSet ∈ candIndexes, P indexSet) (hnew : P [i])
    (hmore : ∀ indexSet, P indexSet → P (indexSet ++ [i])) :
    ∀ indexSet ∈ addCandidate wholeWord candIndexes i token, P indexSet := by
  unfold addCandidate
  split
  · exact forall_appendToLast h hmore
  · exact forall_concat h hnew

/-- A property of the single positions that survives a further position holds of every
candidate. -/
theorem forall_groupFrom (wholeWord : Bool) (forced : Token → Bool) {tokens : List Token}
    (h : ∀ indexSet ∈ candIndexes, P indexSet) (hnew : ∀ k, k < i + tokens.length → P [k])
    (hmore : ∀ k, k < i + tokens.length → ∀ indexSet, P indexSet → P (indexSet ++ [k])) :
    ∀ indexSet ∈ groupFrom wholeWord forced i tokens candIndexes, P indexSet := by
  induction tokens generalizing i candIndexes with
  | nil => exact h
  | cons token tokens ih =>
    have hlength : i + (token :: tokens).length = (i + 1) + tokens.length := by
      rw [List.length_cons, Nat.add_comm tokens.length, Nat.add_assoc]
    rw [hlength] at hnew hmore
    have hi : i < (i + 1) + tokens.length := Nat.lt_of_succ_le (Nat.le_add_right _ _)
    unfold groupFrom
    split
    · exact ih h hnew hmore
    · refine ih (forall_addCandidate wholeWord token ?_ (hnew i hi) (hmore i hi)) hnew hmore
      split
      · exact forall_concat h (hnew i hi)
      · exact h

end

theorem inRange_groupFrom (wholeWord : Bool) (forced : Token → Bool) (tokens : List Token) :
    InRange tokens.length (groupFrom wholeWord forced 0 tokens []) := by
  refine forall_groupFrom wholeWord forced (fun _ h => absurd h List.not_mem_nil)
    (fun k hk => ?_) fun k hk indexSet hindexSet j hj => ?_
  · rw [Nat.zero_add] at hk
    exact fun j hj => List.mem_singleton.mp hj ▸ hk
  · rw [Nat.zero_add] at hk
    rcases List.mem_append.mp hj with hj | hj
    · exact hindexSet j hj
    · exact List.mem_singleton.mp hj ▸ hk

/-! ## The loops -/

theorem ensures_maskedToken {i : Nat} (hi : i < tokens.length) :
    Ensures (maskedToken cfg.vocabWords tokens i)
      (fun token _ => Replacement cfg tokens token) (NoVocabulary cfg) rng := by
  unfold maskedToken
  refine ensures_bind ?_
  refine ensures_randomBelow ?_
  split
  · exact ensures_pure (.inr (.inl rfl))
  · refine ensures_bind ?_
    refine ensures_randomBelow ?_
    split
    · exact ensures_getItem (absurd hi) fun token htoken =>
        .inl (List.mem_of_getElem? htoken)
    · refine ensures_bind ?_
      refine ensures_randint (fun hempty => ?_) fun hlo hhi => ?_
      · -- `randint(0, -1)`
        exact ⟨rfl, List.length_eq_zero_iff.mp (by omega)⟩
      · refine ensures_getItem (fun hlt => ?_) fun token htoken =>
          .inr (.inr (List.mem_of_getElem? htoken))
        omega

theorem ensures_maskIndex {i : Nat} {s : MaskState} (hi : i < tokens.length)
    (hs : s.Sound cfg tokens) :
    Ensures (maskIndex cfg.vocabWords tokens s i)
      (fun s' _ => s'.Sound cfg tokens ∧ s'.maskedLms.length = s.maskedLms.length + 1)
      (NoVocabulary cfg) rng := by
  unfold maskIndex
  refine (ensures_maskedToken hi).bind fun masked t hmasked => ?_
  refine ensures_bind ?_
  refine ensures_getItem (absurd hi) fun label hlabel => ?_
  refine ensures_pure ⟨⟨?_, ?_, ?_, ?_⟩, ?_⟩
  · rw [List.length_set]
    exact hs.length
  · intro token htoken
    rcases List.mem_or_eq_of_mem_set htoken with htoken | rfl
    · exact hs.output token htoken
    · exact hmasked
  · intro p hp
    rcases List.mem_append.mp hp with hp | hp
    · exact hs.labels p hp
    · rw [List.mem_singleton.mp hp]
      exact hlabel
  · intro j hj
    simp only [MaskState.positions, List.map_append, List.map_cons, List.map_nil,
      List.mem_append, List.mem_singleton, not_or] at hj
    rw [List.getElem?_set_ne (Ne.symm hj.2)]
    exact hs.unchanged j hj.1
  · exact List.length_append

/-- A whole index set is masked, one position after the other. -/
theorem ensures_maskIndexSet {indexSet : List Nat} {s : MaskState}
    (hindexes : ∀ i ∈ indexSet, i < tokens.length) (hs : s.Sound cfg tokens) :
    Ensures (maskIndexSet cfg.vocabWords tokens indexSet s)
      (fun s' _ => s'.Sound cfg tokens ∧
        s'.maskedLms.length = s.maskedLms.length + indexSet.length) (NoVocabulary cfg) rng := by
  induction indexSet generalizing s rng with
  | nil => exact ensures_pure ⟨hs, rfl⟩
  | cons i indexSet ih =>
    unfold maskIndexSet
    refine (ensures_maskIndex (hindexes i List.mem_cons_self) hs).bind ?_
    rintro s' t ⟨hs', hlength⟩
    refine (ih (fun j hj => hindexes j (List.mem_cons_of_mem i hj)) hs').imp ?_
    rintro s'' - ⟨hs'', hlength'⟩
    refine ⟨hs'', ?_⟩
    rw [hlength', hlength, List.length_cons]
    omega

/-- The number of masked tokens never exceeds the number to predict: a candidate that
would exceed it is skipped. -/
theorem ensures_maskCandidates {candIndexes : List (List Nat)} {s : MaskState}
    (hrange : InRange tokens.length candIndexes) (hs : s.Sound cfg tokens)
    (hmost : (s.maskedLms.length : Int) ≤ cfg.numToPredict tokens) :
    Ensures (maskCandidates cfg tokens candIndexes s)
      (fun s' _ => s'.Sound cfg tokens ∧
        (s'.maskedLms.length : Int) ≤ cfg.numToPredict tokens) (NoVocabulary cfg) rng := by
  induction candIndexes generalizing s rng with
  | nil => exact ensures_pure ⟨hs, hmost⟩
  | cons indexSet candIndexes ih =>
    have hrest : InRange tokens.length candIndexes :=
      fun indexSet' hmem => hrange indexSet' (List.mem_cons_of_mem indexSet hmem)
    unfold maskCandidates
    split
    · exact ensures_pure ⟨hs, hmost⟩
    · split
      · exact ih hrest hs hmost
      · split
        · exact ih hrest hs hmost
        · refine (ensures_maskIndexSet (hrange indexSet List.mem_cons_self) hs).bind ?_
          rintro s' t ⟨hs', hlength⟩
          exact ih hrest hs' (by omega)

/-! ## The result -/

theorem MaskState.Sound.predictions {s : MaskState} (hs : s.Sound cfg tokens) {most : Int}
    (hmost : (s.maskedLms.length : Int) ≤ most) : s.predictions.Sound cfg tokens most where
  length := hs.length
  output := hs.output
  labels := by
    unfold MaskState.predictions
    rw [List.forall₂_map_left_iff, List.forall₂_map_right_iff, List.forall₂_same]
    intro p hp
    exact hs.labels p ((List.mem_insertionSort _).mp hp)
  unchanged := fun i hi => by
    rw [s.maskedLmPositions_predictions, List.mem_insertionSort] at hi
    exact hs.unchanged i hi
  most := by
    unfold MaskState.predictions
    simpa using hmost

/-- The part of the masking that the generators share, on candidates that are in range. -/
theorem ensures_predictFrom {candIndexes : List (List Nat)}
    (hrange : InRange tokens.length candIndexes) :
    Ensures (predictFrom cfg candIndexes tokens)
      (fun p _ => p.Sound cfg tokens (cfg.numToPredict tokens)) (NoVocabulary cfg) rng := by
  unfold predictFrom
  refine (ensures_shuffle candIndexes).bind fun candIndexes' t hperm => ?_
  have hrange' : InRange tokens.length candIndexes' :=
    fun indexSet hmem => hrange indexSet (hperm.mem_iff.mp hmem)
  refine (ensures_maskCandidates hrange' (MaskState.sound_start cfg tokens)
    (numToPredict_nonneg cfg tokens)).bind ?_
  rintro s t' ⟨hs, hmost⟩
  exact ensures_bind <| ensures_assert (absurd hmost) fun _ => ensures_pure (hs.predictions hmost)

/-- `create_masked_lm_predictions` of the pre-training generator. -/
theorem ensures_createMaskedLmPredictions :
    Ensures (Pretraining.createMaskedLmPredictions cfg tokens)
      (fun p _ => p.Sound cfg tokens (cfg.numToPredict tokens)) (NoVocabulary cfg) rng :=
  ensures_predictFrom (inRange_groupFrom cfg.doWholeWordMask (fun _ => false) tokens)

namespace Sentiment

/-- `create_masked_lm_predictions` of the sentiment generator. -/
theorem ensures_createMaskedLmPredictions {mustMask : List Token} :
    Ensures (createMaskedLmPredictions cfg mustMask tokens)
      (fun p _ => p.Sound cfg tokens (cfg.numToPredict tokens)) (NoVocabulary cfg) rng :=
  ensures_predictFrom (inRange_groupFrom cfg.doWholeWordMask _ tokens)

end Sentiment

namespace Gpu

/-- The loop over single indexes. -/
theorem ensures_maskCandidates {candIndexes : List Nat} {s : MaskState}
    (hrange : ∀ i ∈ candIndexes, i < tokens.length) (hs : s.Sound cfg tokens)
    (hmost : (s.maskedLms.length : Int) ≤ cfg.numToPredict tokens) :
    Ensures (maskCandidates cfg tokens candIndexes s)
      (fun s' _ => s'.Sound cfg tokens ∧
        (s'.maskedLms.length : Int) ≤ cfg.numToPredict tokens) (NoVocabulary cfg) rng := by
  induction candIndexes generalizing s rng with
  | nil => exact ensures_pure ⟨hs, hmost⟩
  | cons i candIndexes ih =>
    have hrest : ∀ j ∈ candIndexes, j < tokens.length :=
      fun j hj => hrange j (List.mem_cons_of_mem i hj)
    unfold maskCandidates
    split
    · exact ensures_pure ⟨hs, hmost⟩
    · split
      · exact ih hrest hs hmost
      · refine (ensures_maskIndex (hrange i List.mem_cons_self) hs).bind ?_
        rintro s' t ⟨hs', hlength⟩
        exact ih hrest hs' (by omega)

/-- `create_masked_lm_predictions` of the GPU generator. -/
theorem ensures_createMaskedLmPredictions :
    Ensures (createMaskedLmPredictions cfg tokens)
      (fun p _ => p.Sound cfg tokens (cfg.numToPredict tokens)) (NoVocabulary cfg) rng := by
  unfold createMaskedLmPredictions
  refine (ensures_shuffle (candIndexes tokens)).bind fun order t hperm => ?_
  have hrange : ∀ i ∈ order, i < tokens.length := fun i hi =>
    List.mem_range.mp (List.mem_of_mem_filter (hperm.mem_iff.mp hi))
  refine (ensures_maskCandidates hrange (MaskState.sound_start cfg tokens)
    (numToPredict_nonneg cfg tokens)).bind ?_
  rintro s t' ⟨hs, hmost⟩
  exact ensures_pure (hs.predictions hmost)

end Gpu

/-! ## The labels are written back -/

/-- `output_tokens` with the labels written back at their positions. -/
def restoreLabels : List Nat → List Token → List Token → List Token
  | i :: positions, label :: labels, outputTokens =>
    restoreLabels positions labels (outputTokens.set i label)
  | _, _, outputTokens => outputTokens

theorem getElem?_restoreLabels {positions : List Nat} {labels outputTokens : List Token}
    (hlabels : List.Forall₂ (fun i label => tokens[i]? = some label) positions labels)
    (hlength : outputTokens.length = tokens.length)
    (hunchanged : ∀ i, i ∉ positions → outputTokens[i]? = tokens[i]?) (i : Nat) :
    (restoreLabels positions labels outputTokens)[i]? = tokens[i]? := by
  induction hlabels generalizing outputTokens with
  | nil => exact hunchanged i List.not_mem_nil
  | @cons j label positions labels hlabel hlabels ih =>
    refine ih (List.length_set.trans hlength) fun k hk => ?_
    by_cases hjk : j = k
    · subst hjk
      obtain ⟨hj, -⟩ := List.getElem?_eq_some_iff.mp hlabel
      rw [List.getElem?_set_self (hj.trans_eq hlength.symm), hlabel]
    · rw [List.getElem?_set_ne hjk]
      exact hunchanged k (List.not_mem_cons_of_ne_of_not_mem (Ne.symm hjk) hk)

/-- Also where a position is masked twice: both labels are the token of the input. -/
theorem Predictions.Sound.restored {p : Predictions} {most : Int} (hp : p.Sound cfg tokens most) :
    restoreLabels p.maskedLmPositions p.maskedLmLabels p.outputTokens = tokens :=
  List.ext_getElem? (getElem?_restoreLabels hp.labels hp.length hp.unchanged)

end FinBert.Prep
