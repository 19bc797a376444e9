import FinBert.Lib.Packing
import FinBert.Prep.Masking

/-!
# Which positions are masked

The loop over the shuffled candidates packs them greedily, with `num_to_predict` as the
quota: the draws decide the order of the candidates, and the order decides what is masked.

Results:
1. `ensures_predictFrom_packed`: the positions are those that the packing takes in some
   order of the candidates.
2. `exists_predictFrom`: every order of the candidates comes out of some draws.
-/

namespace FinBert.Prep

open Random Program Packing

variable {cfg : MaskConfig} {tokens : List Token} {rng : Rng}

/-- `num_to_predict` as the quota of the packing. -/
def MaskConfig.quota (cfg : MaskConfig) (tokens : List Token) : Nat :=
  (cfg.numToPredict tokens).toNat

@[simp] theorem natCast_quota (cfg : MaskConfig) (tokens : List Token) :
    (cfg.quota tokens : Int) = cfg.numToPredict tokens :=
  Int.toNat_of_nonneg (numToPredict_nonneg cfg tokens)

/-- The covered indexes are the masked positions. -/
def MaskState.Tracks (s : MaskState) : Prop := s.coveredIndexes = s.positions.reverse

theorem MaskState.tracks_start (tokens : List Token) :
    MaskState.Tracks { outputTokens := tokens } := rfl

/-! ## The loops -/

theorem ensures_maskIndex_tracks {i : Nat} {s : MaskState} (hs : s.Tracks) :
    Ensures (maskIndex cfg.vocabWords tokens s i)
      (fun s' _ => s'.Tracks ∧ s'.positions = s.positions ++ [i]) (fun _ => True) rng := by
  unfold maskIndex
  refine ensures_trivial.bind fun masked t _ => ensures_trivial.bind fun label t' _ => ?_
  have hpositions : (s.maskedLms ++ [(i, label)]).map (·.1) = s.positions ++ [i] :=
    List.map_append
  refine ensures_pure ⟨?_, hpositions⟩
  unfold MaskState.Tracks at hs ⊢
  unfold MaskState.positions
  rw [hpositions, List.reverse_append, hs]
  rfl

theorem ensures_maskIndexSet_tracks {indexSet : List Nat} {s : MaskState} (hs : s.Tracks) :
    Ensures (maskIndexSet cfg.vocabWords tokens indexSet s)
      (fun s' _ => s'.Tracks ∧ s'.positions = s.positions ++ indexSet)
      (fun _ => True) rng := by
  induction indexSet generalizing s rng with
  | nil => exact ensures_pure ⟨hs, (List.append_nil _).symm⟩
  | cons i indexSet ih =>
    unfold maskIndexSet
    refine (ensures_maskIndex_tracks hs).bind ?_
    rintro s' t ⟨hs', hpositions⟩
    refine (ih hs').imp ?_
    rintro s'' - ⟨hs'', hpositions'⟩
    exact ⟨hs'', by rw [hpositions', hpositions, List.append_assoc, List.singleton_append]⟩

/-- The loop over the candidates is the packing. -/
theorem ensures_maskCandidates_tracks {candIndexes : List (List Nat)} {s : MaskState}
    (hs : s.Tracks) :
    Ensures (maskCandidates cfg tokens candIndexes s)
      (fun s' _ => s'.Tracks ∧ s'.positions =
        s.positions ++ (pack (cfg.quota tokens) candIndexes s.positions).flatten)
      (fun _ => True) rng := by
  induction candIndexes generalizing s rng with
  | nil => exact ensures_pure ⟨hs, (List.append_nil _).symm⟩
  | cons indexSet candIndexes ih =>
    have hany : indexSet.any (· ∈ s.coveredIndexes) = indexSet.any (· ∈ s.positions) := by
      rw [show s.coveredIndexes = s.positions.reverse from hs]
      simp only [List.mem_reverse]
    unfold maskCandidates pack
    rw [← natCast_quota, hany, s.length_positions]
    norm_cast
    split
    · exact ensures_pure ⟨hs, (List.append_nil _).symm⟩
    · split
      · exact ih hs
      · split
        · exact ih hs
        · refine (ensures_maskIndexSet_tracks hs).bind ?_
          rintro s' t ⟨hs', hpositions⟩
          refine (ih hs').imp ?_
          rintro s'' - ⟨hs'', hpositions'⟩
          exact ⟨hs'', by rw [hpositions', hpositions, List.flatten_cons, List.append_assoc]⟩

/-! ## The result -/

/-- What is masked when the candidates are shuffled into `order`. -/
def maskedBy (cfg : MaskConfig) (tokens : List Token) (order : List (List Nat)) : List Nat :=
  (pack (cfg.quota tokens) order []).flatten

/-- The positions of a run whose candidates are shuffled into `order`. -/
structure Predictions.Packed (cfg : MaskConfig) (tokens : List Token) (order : List (List Nat))
    (p : Predictions) : Prop where
  positions : p.maskedLmPositions = (maskedBy cfg tokens order).insertionSort (· ≤ ·)

theorem MaskState.packed_predictions {s : MaskState} {order : List (List Nat)}
    (hpositions : s.positions = maskedBy cfg tokens order) :
    s.predictions.Packed cfg tokens order where
  positions := by rw [s.maskedLmPositions_predictions, hpositions]

theorem Predictions.Packed.mem_positions {order : List (List Nat)} {p : Predictions}
    (hp : p.Packed cfg tokens order) (i : Nat) :
    i ∈ p.maskedLmPositions ↔ i ∈ maskedBy cfg tokens order := by
  rw [hp.positions, List.mem_insertionSort]

/-- `create_masked_lm_predictions` behind the shuffle. -/
def predictInOrder (cfg : MaskConfig) (tokens : List Token) (order : List (List Nat)) :
    Py Predictions := do
  let s ← maskCandidates cfg tokens order { outputTokens := tokens }
  assert ((s.maskedLms.length : Int) ≤ cfg.numToPredict tokens)
  return s.predictions

theorem predictFrom_eq (cfg : MaskConfig) (candIndexes : List (List Nat)) (tokens : List Token) :
    predictFrom cfg candIndexes tokens = shuffle candIndexes >>= predictInOrder cfg tokens := rfl

theorem ensures_predictInOrder (order : List (List Nat)) :
    Ensures (predictInOrder cfg tokens order) (fun p _ => p.Packed cfg tokens order)
      (fun _ => True) rng := by
  unfold predictInOrder
  refine (ensures_maskCandidates_tracks (MaskState.tracks_start tokens)).bind ?_
  rintro s t ⟨-, hpositions⟩
  exact ensures_trivial.bind fun _ _ _ => ensures_pure (s.packed_predictions hpositions)

theorem ensures_predictFrom_packed (candIndexes : List (List Nat)) :
    Ensures (predictFrom cfg candIndexes tokens)
      (fun p _ => ∃ order, order.Perm candIndexes ∧ p.Packed cfg tokens order)
      (fun _ => True) rng := by
  rw [predictFrom_eq]
  refine (ensures_shuffle candIndexes).bind fun order t hperm => ?_
  exact (ensures_predictInOrder order).imp fun p _ hp => ⟨order, hperm, hp⟩

/-! ## Every order of the candidates -/

/-- The generator that produces zeros: every masked token becomes `[MASK]`. -/
def zeros : Rng := fun _ => 0

theorem maskedToken_zeros (vocabWords tokens : List Token) (i : Nat) :
    maskedToken vocabWords tokens i zeros = .ok MASK zeros := rfl

theorem ensures_maskIndexSet_zeros {indexSet : List Nat} {s : MaskState}
    (hindexes : ∀ i ∈ indexSet, i < tokens.length) :
    Ensures (maskIndexSet cfg.vocabWords tokens indexSet s) (fun _ t => t = zeros)
      (fun _ => False) zeros := by
  induction indexSet generalizing s with
  | nil => exact ensures_pure rfl
  | cons i indexSet ih =>
    have hi := hindexes i List.mem_cons_self
    unfold maskIndexSet maskIndex
    refine ensures_bind (ensures_bind (ensures_of_eq_ok (maskedToken_zeros _ _ _) ?_))
    refine ensures_bind (ensures_getItem (absurd hi) fun label _ => ensures_pure ?_)
    exact ih fun j hj => hindexes j (List.mem_cons_of_mem i hj)

theorem ensures_maskCandidates_zeros {candIndexes : List (List Nat)} {s : MaskState}
    (hrange : InRange tokens.length candIndexes) :
    Ensures (maskCandidates cfg tokens candIndexes s) (fun _ t => t = zeros)
      (fun _ => False) zeros := by
  induction candIndexes generalizing s with
  | nil => exact ensures_pure rfl
  | cons indexSet candIndexes ih =>
    have hrest : InRange tokens.length candIndexes :=
      fun indexSet' hmem => hrange indexSet' (List.mem_cons_of_mem indexSet hmem)
    unfold maskCandidates
    split
    · exact ensures_pure rfl
    · split
      · exact ih hrest
      · split
        · exact ih hrest
        · refine (ensures_maskIndexSet_zeros (hrange indexSet List.mem_cons_self)).bind ?_
          rintro s' t rfl
          exact ih hrest

theorem ensures_predictInOrder_zeros {order : List (List Nat)}
    (hrange : InRange tokens.length order) :
    Ensures (predictInOrder cfg tokens order) (fun _ _ => True) (fun _ => False) zeros := by
  unfold predictInOrder
  refine ((ensures_maskCandidates hrange (MaskState.sound_start cfg tokens)
    (numToPredict_nonneg cfg tokens)).returns (ensures_maskCandidates_zeros hrange)).bind ?_
  rintro s t ⟨-, hmost⟩
  exact ensures_bind (ensures_assert (absurd hmost) fun _ => ensures_pure trivial)

/-- Some draws shuffle the candidates into `order` and let the masking return. -/
theorem exists_predictFrom {candIndexes order : List (List Nat)}
    (hrange : InRange tokens.length candIndexes) (hperm : order.Perm candIndexes) :
    ∃ rng p t, predictFrom cfg candIndexes tokens rng = .ok p t ∧ p.Packed cfg tokens order := by
  have hrange' : InRange tokens.length order :=
    fun indexSet hmem => hrange indexSet (hperm.mem_iff.mp hmem)
  have hreturns : Ensures (predictInOrder cfg tokens order)
      (fun p _ => p.Packed cfg tokens order) (fun _ => False) zeros :=
    (ensures_predictInOrder order).returns (ensures_predictInOrder_zeros hrange')
  obtain ⟨p, t, hrun, hpacked⟩ := hreturns.exists_ok
  obtain ⟨rng, hrng⟩ := exists_shuffle hperm zeros
  exact ⟨rng, p, t, bind_eq_ok.mpr ⟨order, zeros, hrng, hrun⟩, hpacked⟩

end FinBert.Prep
