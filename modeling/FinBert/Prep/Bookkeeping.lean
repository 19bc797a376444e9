import FinBert.Prep.Candidates
import FinBert.Prep.Selection

/-!
# What the pre-training generator masks

Result: `createMaskedLmPredictions_kept`, the positions and labels that
`create_masked_lm_predictions` returns, against the tokens that it was given.
-/

namespace FinBert.Prep

open Random Program Packing

variable {cfg : MaskConfig} {tokens : List Token} {rng : Rng}

/-- The books that the masking keeps about the tokens that it was given. -/
structure Predictions.Kept (cfg : MaskConfig) (tokens : List Token) (p : Predictions) : Prop where
  increasing : p.maskedLmPositions.Pairwise (· < ·)
  maskable : ∀ i ∈ p.maskedLmPositions, ∃ token, tokens[i]? = some token ∧ token ≠ CLS ∧
    token ≠ SEP
  labels : List.Forall₂ (fun i label => tokens[i]? = some label) p.maskedLmPositions
    p.maskedLmLabels
  length : p.outputTokens.length = tokens.length
  unchanged : ∀ i, i ∉ p.maskedLmPositions → p.outputTokens[i]? = tokens[i]?
  restored : restoreLabels p.maskedLmPositions p.maskedLmLabels p.outputTokens = tokens
  most : (p.maskedLmPositions.length : Int) ≤ cfg.numToPredict tokens
  exact : cfg.doWholeWordMask = false → (p.maskedLmPositions.length : Int) =
    min (cfg.numToPredict tokens) (tokens.countP fun token => token ≠ CLS ∧ token ≠ SEP)

theorem isMaskable_iff {token : Token} : isMaskable token ↔ token ≠ CLS ∧ token ≠ SEP := by
  simp [isMaskable, isSpecial]

/-! ## The positions -/

section
variable {order : List (List Nat)} {wholeWord : Bool}

theorem flatten_perm_maskable (horder : order.Perm (Pretraining.candIndexes wholeWord tokens)) :
    order.flatten.Perm (maskablePositions tokens) :=
  (flatten_candIndexes wholeWord tokens) ▸ horder.flatten

theorem maskedBy_sublist (cfg : MaskConfig) (tokens : List Token) (order : List (List Nat)) :
    (maskedBy cfg tokens order).Sublist order.flatten :=
  (pack_sublist _ _ _).flatten

theorem nodup_maskablePositions (tokens : List Token) : (maskablePositions tokens).Nodup :=
  (pairwise_positionsFrom isMaskable 0 tokens).imp fun h => Nat.ne_of_lt h

theorem pairwise_insertionSort_of_nodup {positions : List Nat} (h : positions.Nodup) :
    (positions.insertionSort (· ≤ ·)).Pairwise (· < ·) := by
  have hsorted := List.pairwise_insertionSort (· ≤ ·) positions
  have hnodup := (List.perm_insertionSort (· ≤ ·) positions).nodup_iff.mpr h
  exact hsorted.imp₂ (fun _ _ hle hne => lt_of_le_of_ne hle hne) hnodup

/-- With the flag off, the number of masked tokens is known. -/
theorem length_maskedBy (horder : order.Perm (Pretraining.candIndexes false tokens)) :
    (maskedBy cfg tokens order).length = min (cfg.quota tokens) (tokens.countP isMaskable) := by
  have hflatten := flatten_perm_maskable horder
  have hsingle : ∀ indexSet ∈ order, ∃ k, indexSet = [k] := fun indexSet hmem =>
    singleton_of_mem_groupFrom (by simp) indexSet (horder.mem_iff.mp hmem)
  unfold maskedBy
  rw [length_pack_of_singletons hsingle (hflatten.nodup_iff.mpr (nodup_maskablePositions tokens)),
    hflatten.length_eq, maskablePositions, length_positionsFrom]

theorem Predictions.Packed.kept {p : Predictions} (hp : p.Packed cfg tokens order)
    (horder : order.Perm (Pretraining.candIndexes cfg.doWholeWordMask tokens))
    (hsound : p.Sound cfg tokens (cfg.numToPredict tokens)) : p.Kept cfg tokens := by
  have hflatten := flatten_perm_maskable horder
  have hsub := maskedBy_sublist cfg tokens order
  refine ⟨?_, fun i hi => ?_, hsound.labels, hsound.length, hsound.unchanged, hsound.restored,
    hsound.most, fun hoff => ?_⟩
  · rw [hp.positions]
    have hnodup := hflatten.nodup_iff.mpr (nodup_maskablePositions tokens)
    exact pairwise_insertionSort_of_nodup (hnodup.sublist hsub)
  · have hmem := hflatten.mem_iff.mp (hsub.mem ((hp.mem_positions i).mp hi))
    obtain ⟨token, htoken, hspecial⟩ := mem_maskablePositions.mp hmem
    exact ⟨token, htoken, isMaskable_iff.mp (by rw [isMaskable, hspecial]; rfl)⟩
  · rw [hoff] at horder
    have hcount : tokens.countP isMaskable =
        tokens.countP fun token => token ≠ CLS ∧ token ≠ SEP :=
      List.countP_congr fun token _ => by rw [isMaskable_iff, decide_eq_true_iff]
    rw [hp.positions, List.length_insertionSort, length_maskedBy horder, hcount, Nat.cast_min,
      natCast_quota]

end

/-- `create_masked_lm_predictions`, on every input and every outcome of the draws: it keeps
the books, and it fails only for want of a vocabulary. -/
theorem createMaskedLmPredictions_kept (cfg : MaskConfig) (tokens : List Token) (rng : Rng) :
    Ensures (Pretraining.createMaskedLmPredictions cfg tokens) (fun p _ => p.Kept cfg tokens)
      (NoVocabulary cfg) rng := by
  have hpacked : Ensures (Pretraining.createMaskedLmPredictions cfg tokens) _ _ rng :=
    ensures_predictFrom_packed _
  refine (ensures_createMaskedLmPredictions.and hpacked).mono ?_ fun e he => he.1
  rintro p t ⟨hsound, order, horder, hp⟩
  exact hp.kept horder hsound

end FinBert.Prep
