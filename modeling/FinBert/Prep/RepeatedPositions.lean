import FinBert.Prep.Bookkeeping
import FinBert.Prep.ForcedMasking

/-!
# Positions that are masked twice

A continuation of `must_mask` opens a candidate with its index, and with the flag for whole
words on it then extends that very candidate with its index once more. The loop looks at the
covered indexes before it enters a candidate, so the position is masked twice.

Results:
1. `repeated_groupFrom`: the candidates that hold an index twice, and how large they are.
2. `keepsBooks_iff`: the books are kept in every run exactly when none of these candidates
   fits into `num_to_predict`.
-/

namespace FinBert.Prep.Sentiment

open Random Program Packing

variable {cfg : MaskConfig} {mustMask tokens : List Token} {forced : Token → Bool} {token : Token}
  {i n : Nat}

/-! ## The candidates -/

/-- How many of the next tokens go into the candidate of the token before them: the
continuations that are not forced, up to the next word. Special tokens are passed over. -/
def joinedAfter (forced : Token → Bool) : List Token → Nat
  | [] => 0
  | token :: tokens =>
    if isSpecial token then joinedAfter forced tokens
    else if isContinuation token && !forced token then joinedAfter forced tokens + 1
    else 0

/-- A forced continuation, and the number of indexes in its candidate: its own one twice. -/
def Repeats (forced : Token → Bool) (tokens : List Token) (n : Nat) : Prop :=
  ∃ before token after, tokens = before ++ token :: after ∧ forced token = true ∧
    isContinuation token = true ∧ n = 2 + joinedAfter forced after

theorem not_repeats_nil : ¬ Repeats forced [] n := by
  rintro ⟨before, token, after, heq, -⟩
  exact absurd heq.symm (List.append_ne_nil_of_right_ne_nil before (List.cons_ne_nil token after))

theorem repeats_cons :
    Repeats forced (token :: tokens) n ↔
      (forced token = true ∧ isContinuation token = true ∧ n = 2 + joinedAfter forced tokens) ∨
        Repeats forced tokens n := by
  constructor
  · rintro ⟨before, token', after, heq, hrepeat⟩
    cases before with
    | nil =>
      obtain ⟨rfl, rfl⟩ := List.cons.inj heq
      exact .inl hrepeat
    | cons _ before =>
      obtain ⟨-, rfl⟩ := List.cons.inj heq
      exact .inr ⟨before, token', after, rfl, hrepeat⟩
  · rintro (hrepeat | ⟨before, token', after, rfl, hrepeat⟩)
    · exact ⟨[], token, tokens, rfl, hrepeat⟩
    · exact ⟨token :: before, token', after, rfl, hrepeat⟩

/-- Only a forced continuation repeats its index. -/
theorem repeats_cons_of_not
    (h : (forced token && isContinuation token) = false) :
    Repeats forced (token :: tokens) n ↔ Repeats forced tokens n := by
  rw [repeats_cons, or_iff_right]
  rintro ⟨hforced, hcontinuation, -⟩
  rw [hforced, hcontinuation] at h
  cases h

/-- The candidates with an index twice are those of the forced continuations. -/
structure RepeatsIn (forced : Token → Bool) (tokens : List Token) (sets : List (List Nat)) :
    Prop where
  sound : ∀ set ∈ sets, set.Nodup ∨ Repeats forced tokens set.length
  complete : ∀ n, Repeats forced tokens n → ∃ set ∈ sets, ¬ set.Nodup ∧ set.length = n

theorem RepeatsIn.of_iff {tokens' : List Token} {sets : List (List Nat)}
    (h : RepeatsIn forced tokens sets)
    (hiff : ∀ n, Repeats forced tokens' n ↔ Repeats forced tokens n) :
    RepeatsIn forced tokens' sets where
  sound set hset := (h.sound set hset).imp_right (hiff _).mpr
  complete n hn := h.complete n ((hiff n).mp hn)

/-- A candidate without a repetition makes no difference. -/
theorem RepeatsIn.cons {set : List Nat} {sets : List (List Nat)}
    (h : RepeatsIn forced tokens sets) (hnodup : set.Nodup) :
    RepeatsIn forced tokens (set :: sets) where
  sound := List.forall_mem_cons.mpr ⟨.inl hnodup, h.sound⟩
  complete n hn := by
    obtain ⟨set', hset', hrepeat⟩ := h.complete n hn
    exact ⟨set', List.mem_cons_of_mem set hset', hrepeat⟩

/-- The candidate of a forced continuation. -/
theorem RepeatsIn.cons_of_forced {set : List Nat} {sets : List (List Nat)}
    (h : RepeatsIn forced tokens sets) (hforced : forced token = true)
    (hcontinuation : isContinuation token = true) (hrepeat : ¬ set.Nodup)
    (hlength : set.length = 2 + joinedAfter forced tokens) :
    RepeatsIn forced (token :: tokens) (set :: sets) where
  sound := List.forall_mem_cons.mpr
    ⟨.inr (repeats_cons.mpr (.inl ⟨hforced, hcontinuation, hlength⟩)),
      fun set' hset' => (h.sound set' hset').imp_right fun h => repeats_cons.mpr (.inr h)⟩
  complete n hn := by
    rcases repeats_cons.mp hn with ⟨-, -, rfl⟩ | hn
    · exact ⟨set, List.mem_cons_self, hrepeat, hlength⟩
    · obtain ⟨set', hset', hrepeat'⟩ := h.complete n hn
      exact ⟨set', List.mem_cons_of_mem set hset', hrepeat'⟩

/-- What the later tokens append to the last candidate is increasing, and the candidates
behind it repeat the indexes of the forced continuations only. -/
structure Grows (forced : Token → Bool) (i : Nat) (tokens : List Token)
    (more : List Nat) (new : List (List Nat)) : Prop where
  increasing : more.Pairwise (· < ·)
  le : ∀ j ∈ more, i ≤ j
  length : more.length = joinedAfter forced tokens
  repeated : RepeatsIn forced tokens new

/-- The last candidate is closed. -/
theorem grows_nil {new : List (List Nat)} (hjoined : joinedAfter forced tokens = 0)
    (h : RepeatsIn forced tokens new) : Grows forced i tokens [] new where
  increasing := List.Pairwise.nil
  le _ hj := absurd hj List.not_mem_nil
  length := hjoined.symm
  repeated := h

/-- The candidate that a single position opens. -/
theorem Grows.repeatsIn_single {more : List Nat} {new : List (List Nat)}
    (h : Grows forced (i + 1) tokens more new)
    (hnot : (forced token && isContinuation token) = false) :
    RepeatsIn forced (token :: tokens) (([i] ++ more) :: new) :=
  (h.repeated.of_iff fun _ => repeats_cons_of_not hnot).cons <| List.nodup_cons.mpr
    ⟨fun hi => Nat.not_succ_le_self i (h.le i hi), h.increasing.imp Nat.ne_of_lt⟩

/-- The candidate that a forced continuation opens. -/
theorem Grows.repeatsIn_double {more : List Nat} {new : List (List Nat)}
    (h : Grows forced (i + 1) tokens more new) (hforced : forced token = true)
    (hcontinuation : isContinuation token = true) :
    RepeatsIn forced (token :: tokens) (([i, i] ++ more) :: new) := by
  refine h.repeated.cons_of_forced hforced hcontinuation (fun hnodup => ?_) ?_
  · exact (List.nodup_cons.mp hnodup).1 List.mem_cons_self
  · rw [List.length_append, h.length]
    rfl

/-- What the later tokens make of the candidates of a forced one. -/
theorem Grows.repeatsIn_forced (hforced : forced token = true) (init : List (List Nat))
    (ih : ∀ (init : List (List Nat)) (indexSet : List Nat),
      ∃ more new, groupFrom true forced (i + 1) tokens (init ++ [indexSet]) =
        init ++ (indexSet ++ more) :: new ∧ Grows forced (i + 1) tokens more new) :
    ∃ new, groupFrom true forced (i + 1) tokens (init ++ forcedCandidates true i token) =
      init ++ new ∧ RepeatsIn forced (token :: tokens) new := by
  rw [forcedCandidates, Bool.true_and]
  split
  · next hcontinuation =>
    obtain ⟨more, new, hgroup, h⟩ := ih init [i, i]
    exact ⟨_, hgroup, h.repeatsIn_double hforced hcontinuation⟩
  · next hcontinuation =>
    obtain ⟨more, new, hgroup, h⟩ := ih (init ++ [[i]]) [i]
    have hnot : (forced token && isContinuation token) = false := by
      rw [Bool.eq_false_of_not_eq_true hcontinuation, Bool.and_false]
    refine ⟨[i] :: ([i] ++ more) :: new, ?_,
      (h.repeatsIn_single hnot).cons (List.nodup_singleton i)⟩
    rw [List.append_cons, hgroup, List.append_assoc]
    rfl

theorem not_forced_continuation_of_isSpecial (hspecial : isSpecial token = true) :
    (forced token && isContinuation token) = false := by
  rw [Bool.and_eq_false_imp]
  rintro -
  by_contra hcontinuation
  rw [isSpecial_of_isContinuation (Bool.of_not_eq_false hcontinuation)] at hspecial
  cases hspecial

theorem exists_grows (forced : Token → Bool) (i : Nat) (tokens : List Token)
    (init : List (List Nat)) (indexSet : List Nat) :
    ∃ more new, groupFrom true forced i tokens (init ++ [indexSet]) =
      init ++ (indexSet ++ more) :: new ∧ Grows forced i tokens more new := by
  induction tokens generalizing i init indexSet with
  | nil =>
    exact ⟨[], [], by rw [List.append_nil]; rfl, grows_nil rfl
      ⟨fun _ h => absurd h List.not_mem_nil, fun n h => absurd h not_repeats_nil⟩⟩
  | cons token tokens ih =>
    rw [groupFrom_cons]
    cases hspecial : isSpecial token with
    | true =>
      obtain ⟨more, new, hgroup, h⟩ := ih (i + 1) init indexSet
      refine ⟨more, new, ?_, h.increasing, fun j hj => Nat.le_of_succ_le (h.le j hj), ?_,
        h.repeated.of_iff fun n =>
          repeats_cons_of_not (not_forced_continuation_of_isSpecial hspecial)⟩
      · rw [groupToken, if_pos hspecial, hgroup]
      · rw [h.length, joinedAfter, if_pos hspecial]
    | false =>
      cases hforced : forced token with
      | true =>
        obtain ⟨new, hgroup, h⟩ :=
          Grows.repeatsIn_forced hforced (init ++ [indexSet]) (ih (i + 1))
        refine ⟨[], new, ?_, grows_nil ?_ h⟩
        · rw [groupToken_of_forced _ i hspecial hforced, hgroup, List.append_nil,
            List.append_assoc]
          rfl
        · rw [joinedAfter, hspecial, hforced, Bool.not_true, Bool.and_false]
          rfl
      | false =>
        have hnot : (forced token && isContinuation token) = false := by
          rw [hforced, Bool.false_and]
        rw [groupToken_concat init indexSet i hspecial hforced, Bool.true_and]
        split
        · next hcontinuation =>
          obtain ⟨more, new, hgroup, h⟩ := ih (i + 1) init (indexSet ++ [i])
          refine ⟨i :: more, new, ?_, ?_, ?_, ?_,
            h.repeated.of_iff fun n => repeats_cons_of_not hnot⟩
          · rw [hgroup, List.append_assoc, List.singleton_append]
          · exact List.pairwise_cons.mpr ⟨fun j hj => h.le j hj, h.increasing⟩
          · exact List.forall_mem_cons.mpr
              ⟨Nat.le_refl i, fun j hj => Nat.le_of_succ_le (h.le j hj)⟩
          · rw [List.length_cons, h.length, joinedAfter, hspecial, hforced, hcontinuation]
            rfl
        · next hcontinuation =>
          obtain ⟨more, new, hgroup, h⟩ := ih (i + 1) (init ++ [indexSet]) [i]
          refine ⟨[], ([i] ++ more) :: new, ?_, grows_nil ?_ (h.repeatsIn_single hnot)⟩
          · rw [hgroup, List.append_nil, List.append_assoc]
            rfl
          · rw [joinedAfter, hspecial, Bool.eq_false_of_not_eq_true hcontinuation]
            rfl

/-- With the flag for whole words on, the candidates that hold an index twice are those of
the forced continuations. -/
theorem repeated_groupFrom (forced : Token → Bool) (i : Nat) (tokens : List Token) :
    RepeatsIn forced tokens (groupFrom true forced i tokens []) := by
  induction tokens generalizing i with
  | nil => exact ⟨fun _ h => absurd h List.not_mem_nil, fun n h => absurd h not_repeats_nil⟩
  | cons token tokens ih =>
    rw [groupFrom_cons]
    cases hspecial : isSpecial token with
    | true =>
      rw [groupToken, if_pos hspecial]
      exact (ih (i + 1)).of_iff fun n =>
        repeats_cons_of_not (not_forced_continuation_of_isSpecial hspecial)
    | false =>
      cases hforced : forced token with
      | true =>
        obtain ⟨new, hgroup, h⟩ :=
          Grows.repeatsIn_forced hforced [] (exists_grows forced (i + 1) tokens)
        rw [groupToken_of_forced _ i hspecial hforced, hgroup]
        exact h
      | false =>
        -- the first token opens a candidate even if it is a continuation
        obtain ⟨more, new, hgroup, h⟩ := exists_grows forced (i + 1) tokens [] [i]
        rw [groupToken, hspecial, if_neg Bool.false_ne_true, hforced, if_neg Bool.false_ne_true,
          addCandidate_nil, ← List.nil_append [[i]], hgroup]
        exact h.repeatsIn_single (by rw [hforced, Bool.false_and])

/-! ## The books -/

/-- The books that the masking keeps about the tokens that it was given. -/
structure BooksKept (cfg : MaskConfig) (tokens : List Token) (p : Predictions) : Prop where
  increasing : p.maskedLmPositions.Pairwise (· < ·)
  maskable : ∀ i ∈ p.maskedLmPositions, ∃ token, tokens[i]? = some token ∧ token ≠ CLS ∧
    token ≠ SEP
  labels : List.Forall₂ (fun i label => tokens[i]? = some label) p.maskedLmPositions
    p.maskedLmLabels
  length : p.outputTokens.length = tokens.length
  unchanged : ∀ i, i ∉ p.maskedLmPositions → p.outputTokens[i]? = tokens[i]?
  most : (p.maskedLmPositions.length : Int) ≤ cfg.numToPredict tokens

/-- The books are kept on every outcome of the draws, and the masking fails only for want of
a vocabulary. -/
def KeepsBooks (cfg : MaskConfig) (mustMask tokens : List Token) : Prop :=
  ∀ rng, Ensures (createMaskedLmPredictions cfg mustMask tokens)
    (fun p _ => BooksKept cfg tokens p) (NoVocabulary cfg) rng

/-- A run keeps the books as soon as no candidate that it takes repeats an index. -/
theorem booksKept_of_packed {order : List (List Nat)} {p : Predictions}
    (hsound : p.Sound cfg tokens (cfg.numToPredict tokens)) (hp : p.Packed cfg tokens order)
    (horder : order.Perm (candIndexes cfg.doWholeWordMask mustMask tokens))
    (hnodup : ∀ set ∈ pack (cfg.quota tokens) order [], set.Nodup) : BooksKept cfg tokens p where
  increasing := by
    rw [hp.positions]
    exact pairwise_insertionSort_of_nodup
      (List.nodup_flatten.mpr ⟨hnodup, disjoint_pack _ _ _⟩)
  maskable i hi := by
    obtain ⟨set, hset, hiset⟩ := List.mem_flatten.mp ((hp.mem_positions i).mp hi)
    have hmem := horder.mem_iff.mp ((pack_sublist _ _ _).mem hset)
    obtain ⟨token, htoken, hspecial⟩ :=
      mem_maskablePositions.mp (mem_maskable_of_mem_candidate hmem hiset)
    exact ⟨token, htoken, isMaskable_iff.mp (by rw [isMaskable, hspecial]; rfl)⟩
  labels := hsound.labels
  length := hsound.length
  unchanged := hsound.unchanged
  most := hsound.most

/-- A candidate with an index twice that fits, shuffled to the front, masks a position
twice. -/
theorem not_keepsBooks_of_repeats (hwhole : cfg.doWholeWordMask = true)
    (hrepeats : Repeats (fun token => decide (token ∈ mustMask)) tokens n)
    (hfits : n ≤ cfg.quota tokens) : ¬ KeepsBooks cfg mustMask tokens := by
  intro hkeeps
  obtain ⟨set, hset, hrepeat, rfl⟩ := (repeated_groupFrom _ 0 tokens).complete n hrepeats
  have hmem : set ∈ candIndexes cfg.doWholeWordMask mustMask tokens := by rwa [hwhole]
  obtain ⟨rng, p, t, hrun, hp⟩ := exists_run (List.perm_cons_erase hmem).symm
  have hincreasing := ((hkeeps rng).ok p t hrun).increasing
  have hpositions : p.maskedLmPositions.Nodup := hincreasing.imp Nat.ne_of_lt
  rw [hp.positions, (List.perm_insertionSort (· ≤ ·) _).nodup_iff, maskedBy,
    pack_cons_of_fits (candIndexes_ne_nil _ _ _ set hmem) hfits, List.flatten_cons] at hpositions
  exact hrepeat hpositions.of_append_left

/-- The candidates that are taken have no index twice, unless a forced continuation fits. -/
theorem nodup_of_mem_pack {order : List (List Nat)}
    (horder : order.Perm (candIndexes cfg.doWholeWordMask mustMask tokens))
    (hlarge : cfg.doWholeWordMask = true →
      ∀ n, Repeats (fun token => decide (token ∈ mustMask)) tokens n →
        cfg.numToPredict tokens < n) :
    ∀ set ∈ pack (cfg.quota tokens) order [], set.Nodup := by
  intro set hset
  have hmem := horder.mem_iff.mp ((pack_sublist _ _ _).mem hset)
  cases hwhole : cfg.doWholeWordMask with
  | false =>
    rw [hwhole] at hmem
    obtain ⟨k, rfl⟩ := singleton_of_mem_groupFrom (by simp) set hmem
    exact List.nodup_singleton k
  | true =>
    rw [hwhole] at hmem
    refine ((repeated_groupFrom _ 0 tokens).sound set hmem).resolve_right fun hrepeats => ?_
    have hfits := (List.sublist_flatten_of_mem hset).length_le.trans (admissible_pack _ _).fits
    have hquota := hlarge hwhole _ hrepeats
    rw [← natCast_quota, Int.ofNat_lt] at hquota
    exact Nat.not_lt_of_le hfits hquota

/-- For every input: the books are kept in every run exactly when words are not masked as a
whole, or the candidate of no forced continuation fits into `num_to_predict`. -/
theorem keepsBooks_iff (cfg : MaskConfig) (mustMask tokens : List Token) :
    KeepsBooks cfg mustMask tokens ↔
      (cfg.doWholeWordMask = true →
        ∀ n, Repeats (fun token => decide (token ∈ mustMask)) tokens n →
          cfg.numToPredict tokens < n) := by
  constructor
  · intro hkeeps hwhole n hrepeats
    by_contra hfits
    refine not_keepsBooks_of_repeats hwhole hrepeats ?_ hkeeps
    rwa [← natCast_quota, Int.ofNat_lt, Nat.not_lt] at hfits
  · intro hlarge rng
    have hsound : Ensures (createMaskedLmPredictions cfg mustMask tokens) _ _ rng :=
      ensures_predictFrom (inRange_groupFrom _ _ tokens)
    refine (hsound.and (ensures_predictFrom_packed _)).mono ?_ fun e he => he.1
    rintro p t ⟨hp, order, horder, hpacked⟩
    exact booksKept_of_packed hp hpacked horder (nodup_of_mem_pack horder hlarge)

/-- Two of the four tokens are to be predicted, in whole words. -/
def twoOfFour : MaskConfig where
  doWholeWordMask := true
  rounded := fun _ => 2
  maxPredictionsPerSeq := 20
  vocabWords := [MASK]

/-- `##ing` is to be masked, and its position is returned twice. -/
theorem not_keepsBooks_playing : ¬ KeepsBooks twoOfFour ["##ing".toList] playing := by
  intro h
  have hrun : returns (createMaskedLmPredictions twoOfFour ["##ing".toList] playing)
      (fun p => p.maskedLmPositions == [2, 2]) (zeros.cons 0) = true := by decide
  obtain ⟨p, t, hresult, hpositions⟩ := exists_of_returns hrun
  have hincreasing := ((h _).ok p t hresult).increasing
  rw [beq_iff_eq.mp hpositions] at hincreasing
  exact absurd hincreasing (by decide)

end FinBert.Prep.Sentiment
