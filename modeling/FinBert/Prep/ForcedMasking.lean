import FinBert.Prep.Candidates
import FinBert.Prep.Selection

/-!
# Forced masking

The sentiment generator makes a candidate of every token of `must_mask`, and then shuffles
it among the others: nothing puts it before them, and nothing keeps it in its word.

Results:
1. `forcesMustMask_iff`: the forced positions are masked in every run exactly when the other
   candidates cannot crowd one of them out.
2. `forall_not_crowdedOut_iff_of_off`: with the flag for whole words off, they cannot when
   there are no more positions than `num_to_predict`.
3. `keepsWordsWhole_iff`: words are masked as a whole in every run exactly when no word of
   two tokens or more has a forced one.
-/

namespace FinBert.Prep.Sentiment

open Random Program Packing

variable {cfg : MaskConfig} {mustMask tokens : List Token} {i : Nat}

/-- A token that is masked by force: in `must_mask`, and neither `[CLS]` nor `[SEP]`. -/
def isForced (mustMask : List Token) (token : Token) : Bool :=
  isMaskable token && decide (token ∈ mustMask)

def forcedPositions (mustMask tokens : List Token) : List Nat :=
  positionsFrom (isForced mustMask) 0 tokens

theorem mem_forcedPositions :
    i ∈ forcedPositions mustMask tokens ↔
      ∃ token, tokens[i]? = some token ∧ isSpecial token = false ∧ token ∈ mustMask := by
  simp only [forcedPositions, isForced, isMaskable, mem_positionsFrom, Nat.zero_add,
    exists_and_left, exists_eq_left', Bool.and_eq_true, Bool.not_eq_true', decide_eq_true_iff]

theorem candIndexes_ne_nil (wholeWord : Bool) (mustMask tokens : List Token) :
    ∀ indexSet ∈ candIndexes wholeWord mustMask tokens, indexSet ≠ [] :=
  groupFrom_ne_nil (fun _ h => absurd h List.not_mem_nil)

/-- A run shuffles the candidates into some order. -/
theorem exists_order {rng t : Rng} {p : Predictions}
    (hrun : createMaskedLmPredictions cfg mustMask tokens rng = .ok p t) :
    ∃ order, order.Perm (candIndexes cfg.doWholeWordMask mustMask tokens) ∧
      p.Packed cfg tokens order :=
  (ensures_predictFrom_packed _).ok p t hrun

/-- Every order of the candidates is the order of some run. -/
theorem exists_run {order : List (List Nat)}
    (horder : order.Perm (candIndexes cfg.doWholeWordMask mustMask tokens)) :
    ∃ rng p t, createMaskedLmPredictions cfg mustMask tokens rng = .ok p t ∧
      p.Packed cfg tokens order :=
  exists_predictFrom (inRange_groupFrom _ _ tokens) horder

/-! ## The forced positions -/

/-- In every run, all forced positions are masked if there are no more than
`num_to_predict`. -/
def ForcesMustMask (cfg : MaskConfig) (mustMask tokens : List Token) : Prop :=
  ∀ rng p t, createMaskedLmPredictions cfg mustMask tokens rng = .ok p t →
    ((forcedPositions mustMask tokens).length : Int) ≤ cfg.numToPredict tokens →
    ∀ i ∈ forcedPositions mustMask tokens, i ∈ p.maskedLmPositions

/-- Disjoint candidates without the position `i`, within `num_to_predict`, leave too little
room for each of those with it. -/
def CrowdedOut (cfg : MaskConfig) (mustMask tokens : List Token) (i : Nat) : Prop :=
  ∃ others, others.Subperm (candIndexes cfg.doWholeWordMask mustMask tokens) ∧
    Admissible (cfg.quota tokens) others ∧ i ∉ others.flatten ∧
    ∀ indexSet ∈ candIndexes cfg.doWholeWordMask mustMask tokens, i ∈ indexSet →
      cfg.quota tokens < others.flatten.length + indexSet.length

/-- A position that the loop can leave out is crowded out: its smallest candidate overlaps
none without it. -/
theorem exists_order_without_iff (cfg : MaskConfig)
    (hforced : i ∈ forcedPositions mustMask tokens) :
    (∃ order, order.Perm (candIndexes cfg.doWholeWordMask mustMask tokens) ∧
        i ∉ maskedBy cfg tokens order) ↔ CrowdedOut cfg mustMask tokens i := by
  obtain ⟨token, htoken, hspecial, hmem⟩ := mem_forcedPositions.mp hforced
  obtain ⟨own, hown, hiown, hoverlap⟩ := exists_candidate_of_forced cfg.doWholeWordMask
    (fun token => decide (token ∈ mustMask)) htoken hspecial (decide_eq_true hmem)
  unfold maskedBy
  rw [exists_leftOut_iff (candIndexes_ne_nil _ _ _)]
  constructor
  · rintro ⟨others, hsub, hadmissible, hi, hleft⟩
    refine ⟨others, hsub, hadmissible, hi, fun indexSet hset hiset => ?_⟩
    have hroom := (hleft own hown hiown).resolve_left fun h => ?_
    · exact hroom.trans_le (Nat.add_le_add_left ((hoverlap indexSet hset).2 hiset) _)
    · refine h fun j hj hjothers => ?_
      obtain ⟨other, hother, hjother⟩ := List.mem_flatten.mp hjothers
      refine hi (List.mem_flatten_of_mem hother ((hoverlap other (hsub.subset hother)).1 ?_))
      exact fun hdisjoint => hdisjoint hj hjother
  · rintro ⟨others, hsub, hadmissible, hi, hleft⟩
    exact ⟨others, hsub, hadmissible, hi, fun indexSet hset hiset =>
      .inr (hleft indexSet hset hiset)⟩

/-- For every input: forced masking forces, in every run, exactly when there are too many
forced positions to be promised, or none of them is crowded out. -/
theorem forcesMustMask_iff (cfg : MaskConfig) (mustMask tokens : List Token) :
    ForcesMustMask cfg mustMask tokens ↔
      (((forcedPositions mustMask tokens).length : Int) ≤ cfg.numToPredict tokens →
        ∀ i ∈ forcedPositions mustMask tokens, ¬ CrowdedOut cfg mustMask tokens i) := by
  constructor
  · intro h hfew i hi hcrowded
    obtain ⟨order, horder, hout⟩ := (exists_order_without_iff cfg hi).mpr hcrowded
    obtain ⟨rng, p, t, hrun, hp⟩ := exists_run horder
    exact hout ((hp.mem_positions i).mp (h rng p t hrun hfew i hi))
  · intro h rng p t hrun hfew i hi
    obtain ⟨order, horder, hp⟩ := exists_order hrun
    by_contra hout
    rw [hp.mem_positions] at hout
    exact h hfew i hi ((exists_order_without_iff cfg hi).mp ⟨order, horder, hout⟩)

/-- A sentence of two words, `good` and `day`, and one of them to predict. -/
def goodDay : List Token := [CLS, "good".toList, "day".toList, SEP]

def oneOfTwo (doWholeWordMask : Bool) : MaskConfig where
  doWholeWordMask := doWholeWordMask
  rounded := fun _ => 1
  maxPredictionsPerSeq := 20
  vocabWords := [MASK]

/-- `good` is to be masked, and the candidate of `day` is shuffled to the front. -/
theorem not_forcesMustMask_goodDay :
    ¬ ForcesMustMask (oneOfTwo false) ["good".toList] goodDay := by
  intro h
  have hrun : returns (createMaskedLmPredictions (oneOfTwo false) ["good".toList] goodDay)
      (fun p => p.maskedLmPositions == [2]) ((zeros.cons 1).cons 0) = true := by decide
  obtain ⟨p, t, hresult, hpositions⟩ := exists_of_returns hrun
  have hmasked := h _ p t hresult (by decide) 1 (by decide)
  rw [beq_iff_eq.mp hpositions] at hmasked
  exact absurd hmasked (by decide)

/-! ## Single positions -/

theorem singleton_mem_candIndexes (h : i ∈ maskablePositions tokens) :
    [i] ∈ candIndexes false mustMask tokens := by
  have hmem : i ∈ (candIndexes false mustMask tokens).flatten :=
    mem_flatten_groupFrom.mpr (.inr h)
  obtain ⟨indexSet, hset, hi⟩ := List.mem_flatten.mp hmem
  obtain ⟨k, rfl⟩ := singleton_of_mem_groupFrom (by simp) indexSet hset
  rwa [List.mem_singleton.mp hi]

theorem mem_maskable_of_mem_candidate {wholeWord : Bool} {indexSet : List Nat}
    (hset : indexSet ∈ candIndexes wholeWord mustMask tokens) (hi : i ∈ indexSet) :
    i ∈ maskablePositions tokens :=
  (mem_flatten_groupFrom.mp (List.mem_flatten_of_mem hset hi)).resolve_left List.not_mem_nil

theorem mem_maskable_of_forced (h : i ∈ forcedPositions mustMask tokens) :
    i ∈ maskablePositions tokens := by
  obtain ⟨token, htoken, hspecial, -⟩ := mem_forcedPositions.mp h
  exact mem_maskablePositions.mpr ⟨token, htoken, hspecial⟩

theorem nodup_flatten_of_singletons {sets : List (List Nat)}
    (hsingle : ∀ set ∈ sets, ∃ k, set = [k]) (hdisjoint : sets.Pairwise List.Disjoint) :
    sets.flatten.Nodup := by
  refine List.nodup_flatten.mpr ⟨fun set hset => ?_, hdisjoint⟩
  obtain ⟨k, rfl⟩ := hsingle set hset
  exact List.nodup_singleton k

/-- Without whole words, a forced position is crowded out exactly when there are more
positions than `num_to_predict`. -/
theorem crowdedOut_iff_of_off (hoff : cfg.doWholeWordMask = false)
    (hi : i ∈ forcedPositions mustMask tokens) :
    CrowdedOut cfg mustMask tokens i ↔ cfg.quota tokens < (maskablePositions tokens).length := by
  have hmaskable := mem_maskable_of_forced hi
  unfold CrowdedOut
  rw [hoff]
  constructor
  · rintro ⟨others, hsub, hadmissible, hout, hleft⟩
    have hfull := hleft [i] (singleton_mem_candIndexes hmaskable) (List.mem_singleton_self i)
    have hsingle : ∀ set ∈ others, ∃ k, set = [k] := fun set hset =>
      singleton_of_mem_groupFrom (by simp) set (hsub.subset hset)
    have hnodup : (i :: others.flatten).Nodup :=
      List.nodup_cons.mpr ⟨hout, nodup_flatten_of_singletons hsingle hadmissible.disjoint⟩
    have hsubset : i :: others.flatten ⊆ maskablePositions tokens := by
      refine List.cons_subset.mpr ⟨hmaskable, fun j hj => ?_⟩
      obtain ⟨set, hset, hjset⟩ := List.mem_flatten.mp hj
      exact mem_maskable_of_mem_candidate (hsub.subset hset) hjset
    exact hfull.trans_le (hnodup.subperm hsubset).length_le
  · intro hmany
    have hnodup : (maskablePositions tokens).Nodup :=
      (pairwise_positionsFrom isMaskable 0 tokens).imp Nat.ne_of_lt
    have htake := List.take_sublist (cfg.quota tokens) ((maskablePositions tokens).erase i)
    have hothers : ∀ j ∈ ((maskablePositions tokens).erase i).take (cfg.quota tokens),
        j ≠ i ∧ j ∈ maskablePositions tokens := fun j hj => by
      rw [← List.Nodup.mem_erase_iff hnodup]
      exact htake.mem hj
    have hlength : (((maskablePositions tokens).erase i).take (cfg.quota tokens)).length =
        cfg.quota tokens := by
      refine List.length_take_of_le ?_
      rw [List.length_erase_of_mem hmaskable]
      exact Nat.le_sub_one_of_lt hmany
    have hflatten := List.flatMap_singleton'
      (((maskablePositions tokens).erase i).take (cfg.quota tokens))
    -- as many other positions as there are to predict, each a candidate
    refine ⟨(((maskablePositions tokens).erase i).take (cfg.quota tokens)).map ([·]), ?_,
      ⟨?_, ?_⟩, ?_, fun set _ hiset => ?_⟩
    · refine List.Nodup.subperm ?_ fun set hset => ?_
      · exact ((hnodup.erase i).sublist htake).map fun j k h => List.singleton_inj.mp h
      · obtain ⟨j, hj, rfl⟩ := List.mem_map.mp hset
        exact singleton_mem_candIndexes (hothers j hj).2
    · rw [List.pairwise_map]
      refine ((hnodup.erase i).sublist htake).imp fun h => ?_
      rwa [List.singleton_disjoint, List.mem_singleton]
    · rw [← List.flatMap_def, hflatten]
      exact hlength.le
    · rw [← List.flatMap_def, hflatten]
      exact fun h => (hothers i h).1 rfl
    · rw [← List.flatMap_def, hflatten, hlength]
      exact Nat.lt_add_of_pos_right (List.length_pos_of_mem hiset)

/-- Without whole words, none is crowded out exactly when nothing is forced, or there are
no more positions than `num_to_predict`. -/
theorem forall_not_crowdedOut_iff_of_off (hoff : cfg.doWholeWordMask = false) :
    (∀ i ∈ forcedPositions mustMask tokens, ¬ CrowdedOut cfg mustMask tokens i) ↔
      forcedPositions mustMask tokens = [] ∨
        ((maskablePositions tokens).length : Int) ≤ cfg.numToPredict tokens := by
  rw [← natCast_quota, Int.ofNat_le, ← Nat.not_lt, List.eq_nil_iff_forall_not_mem,
    ← forall_or_right]
  refine forall_congr' fun i => ?_
  rw [← imp_iff_not_or]
  exact forall_congr' fun hi => (crowdedOut_iff_of_off hoff hi).not

/-! ## Whole words -/

/-- The word from `start` up to `stop`: a token that is no continuation, and all the
continuations behind it. -/
structure IsWord (tokens : List Token) (start stop : Nat) : Prop where
  lt : start < stop
  first : ∃ token, tokens[start]? = some token ∧ isSpecial token = false ∧
    isContinuation token = false
  rest : ∀ i, start < i → i < stop →
    ∃ token, tokens[i]? = some token ∧ isContinuation token = true
  maximal : ∀ token, tokens[stop]? = some token → isContinuation token = false

/-- With the flag for whole words on, every run masks each word as a whole or not at all. -/
def KeepsWordsWhole (mustMask tokens : List Token) : Prop :=
  ∀ cfg : MaskConfig, cfg.doWholeWordMask = true → ∀ rng p t,
    createMaskedLmPredictions cfg mustMask tokens rng = .ok p t →
    ∀ start stop, IsWord tokens start stop →
      (∀ i, start ≤ i → i < stop → i ∈ p.maskedLmPositions) ∨
        ∀ i, start ≤ i → i < stop → i ∉ p.maskedLmPositions

theorem isSpecial_of_isContinuation {token : Token} (h : isContinuation token = true) :
    isSpecial token = false := by
  rw [isSpecial, Bool.or_eq_false_iff]
  refine ⟨beq_false_of_ne fun heq => ?_, beq_false_of_ne fun heq => ?_⟩ <;>
  · rw [heq] at h
    exact absurd h (by decide)

theorem IsWord.exists_token {start stop : Nat} (h : IsWord tokens start stop) (hstart : start ≤ i)
    (hstop : i < stop) : ∃ token, tokens[i]? = some token ∧ isSpecial token = false := by
  rcases Nat.eq_or_lt_of_le hstart with rfl | hlt
  · obtain ⟨token, htoken, hspecial, -⟩ := h.first
    exact ⟨token, htoken, hspecial⟩
  · obtain ⟨token, htoken, hcontinuation⟩ := h.rest i hlt hstop
    exact ⟨token, htoken, isSpecial_of_isContinuation hcontinuation⟩

/-- Neighbours in a word without forced tokens are masked together. -/
theorem mem_maskedBy_iff_succ {start stop : Nat} {order : List (List Nat)}
    (hword : IsWord tokens start stop)
    (hfree : ∀ i ∈ forcedPositions mustMask tokens, ¬ (start ≤ i ∧ i < stop))
    (horder : order.Perm (candIndexes true mustMask tokens)) (hstart : start ≤ i)
    (hstop : i + 1 < stop) :
    i ∈ maskedBy cfg tokens order ↔ i + 1 ∈ maskedBy cfg tokens order := by
  have hnotForced : ∀ j token, start ≤ j → j < stop → tokens[j]? = some token →
      isSpecial token = false → decide (token ∈ mustMask) = false :=
    fun j token hj hj' htoken hspecial => decide_eq_false fun hmem =>
      hfree j (mem_forcedPositions.mpr ⟨token, htoken, hspecial, hmem⟩) ⟨hj, hj'⟩
  obtain ⟨token, htoken, hspecial⟩ := hword.exists_token hstart (Nat.lt_of_succ_lt hstop)
  obtain ⟨token', htoken', hcontinuation⟩ := hword.rest (i + 1) (Nat.lt_succ_of_le hstart) hstop
  have hspecial' := isSpecial_of_isContinuation hcontinuation
  have hsame := mem_candidate_iff_succ (fun token => decide (token ∈ mustMask)) htoken hspecial
    (hnotForced i token hstart (Nat.lt_of_succ_lt hstop) htoken hspecial) htoken' hspecial'
    hcontinuation (hnotForced (i + 1) token' (Nat.le_succ_of_le hstart) hstop htoken' hspecial')
  have hcandidate : ∀ set ∈ pack (cfg.quota tokens) order [], i ∈ set ↔ i + 1 ∈ set :=
    fun set hset => hsame set (horder.mem_iff.mp ((pack_sublist _ _ _).mem hset))
  simp only [maskedBy, List.mem_flatten]
  exact exists_congr fun set => and_congr_right (hcandidate set)

/-- A forced token of a longer word leaves a candidate that has a part of the word only. -/
theorem exists_part_of_forced {start stop : Nat} (hword : IsWord tokens start stop)
    (hlong : start + 1 < stop) (hi : i ∈ forcedPositions mustMask tokens) (hstart : start ≤ i)
    (hstop : i < stop) :
    ∃ part ∈ candIndexes true mustMask tokens, start ∈ part ∧
      ∃ j, start ≤ j ∧ j < stop ∧ j ∉ part := by
  obtain ⟨token, htoken, hspecial, hmem⟩ := mem_forcedPositions.mp hi
  have hforced : decide (token ∈ mustMask) = true := decide_eq_true hmem
  obtain ⟨before, after, rfl, rfl⟩ := exists_split htoken
  rcases Nat.eq_or_lt_of_le hstart with heq | hlt
  · -- the first token is forced: it is a candidate without the rest of its word
    subst heq
    obtain ⟨first, hfirst, -, hcontinuation⟩ := hword.first
    rw [htoken] at hfirst
    obtain rfl := Option.some.inj hfirst
    obtain ⟨more, new, hgroup, -⟩ := groupFrom_of_forced true
      (fun token => decide (token ∈ mustMask)) before after hspecial hforced
    rw [hcontinuation, Bool.and_false, if_neg Bool.false_ne_true] at hgroup
    refine ⟨[before.length], ?_, List.mem_singleton_self _, before.length + 1, Nat.le_succ _, hlong,
      fun h => Nat.succ_ne_self _ (List.mem_singleton.mp h)⟩
    rw [candIndexes, hgroup]
    exact List.mem_append_right _ List.mem_cons_self
  · -- a continuation is forced: it closes the candidate of the first token
    obtain ⟨first, hfirst, hspecial', -⟩ := hword.first
    have hbefore : start ∈ (groupFrom true (fun token => decide (token ∈ mustMask)) 0 before
        []).flatten := by
      refine mem_flatten_groupFrom.mpr (.inr (mem_maskablePositions.mpr ⟨first, ?_, hspecial'⟩))
      rwa [List.getElem?_append_left hlt] at hfirst
    obtain ⟨part, hpart, hin⟩ := List.mem_flatten.mp hbefore
    refine ⟨part, mem_groupFrom_of_before hspecial hforced hpart, hin, before.length, hstart, hstop,
      fun h => Nat.lt_irrefl _ (inRange_groupFrom _ _ before part hpart _ h)⟩

/-- For every input: words are masked as a whole in every run, whatever the configuration,
exactly when no word of two tokens or more has a forced one. -/
theorem keepsWordsWhole_iff (mustMask tokens : List Token) :
    KeepsWordsWhole mustMask tokens ↔
      ∀ start stop, IsWord tokens start stop → start + 1 < stop →
        ∀ i ∈ forcedPositions mustMask tokens, ¬ (start ≤ i ∧ i < stop) := by
  constructor
  · rintro hwhole start stop hword hlong i hi ⟨hstart, hstop⟩
    obtain ⟨part, hpart, hin, j, hj, hj', hout⟩ :=
      exists_part_of_forced hword hlong hi hstart hstop
    have hne := candIndexes_ne_nil true mustMask tokens part hpart
    -- a run that has room for this candidate alone, and takes it first
    let cfg : MaskConfig := ⟨true, fun _ => part.length, part.length, []⟩
    have hquota : cfg.quota tokens = part.length := by
      have hpos : 1 ≤ part.length := List.length_pos_iff.mpr hne
      show (min (part.length : Int) (max 1 (part.length : Int))).toNat = part.length
      omega
    obtain ⟨order, horder, hpack⟩ := exists_pack_eq_singleton hpart hne
    obtain ⟨rng, p, t, hrun, hp⟩ := @exists_run cfg _ _ _ horder
    have hpositions : ∀ k, k ∈ p.maskedLmPositions ↔ k ∈ part := fun k => by
      rw [hp.mem_positions, maskedBy, hquota, hpack, List.flatten_singleton]
    rcases hwhole cfg rfl rng p t hrun start stop hword with hall | hnone
    · exact hout ((hpositions j).mp (hall j hj hj'))
    · exact hnone start (Nat.le_refl _) hword.lt ((hpositions start).mpr hin)
  · intro hfree cfg hcfg rng p t hrun start stop hword
    obtain ⟨order, horder, hp⟩ := exists_order hrun
    rw [hcfg] at horder
    have hsame : ∀ i, start ≤ i → i < stop →
        (i ∈ p.maskedLmPositions ↔ start ∈ p.maskedLmPositions) := by
      intro i hstart
      induction i, hstart using Nat.le_induction with
      | base => exact fun _ => Iff.rfl
      | succ i hstart ih =>
        intro hstop
        have hlong : start + 1 < stop := (Nat.succ_le_succ hstart).trans_lt hstop
        rw [← ih (Nat.lt_of_succ_lt hstop), hp.mem_positions, hp.mem_positions]
        exact (mem_maskedBy_iff_succ hword (hfree start stop hword hlong) horder hstart
          hstop).symm
    by_cases hmasked : start ∈ p.maskedLmPositions
    · exact .inl fun i hi hi' => (hsame i hi hi').mpr hmasked
    · exact .inr fun i hi hi' => (hsame i hi hi').not.mpr hmasked

/-- A sentence of one word in two pieces. -/
def playing : List Token := [CLS, "play".toList, "##ing".toList, SEP]

/-- `play` is to be masked, and it is a candidate without `##ing`. -/
theorem not_keepsWordsWhole_playing : ¬ KeepsWordsWhole ["play".toList] playing := by
  intro h
  have hrun : returns (createMaskedLmPredictions (oneOfTwo true) ["play".toList] playing)
      (fun p => p.maskedLmPositions == [1]) zeros = true := by decide
  obtain ⟨p, t, hresult, hpositions⟩ := exists_of_returns hrun
  have hword : IsWord playing 1 3 :=
    ⟨by decide, ⟨"play".toList, by decide⟩,
      fun i hlo hhi => ⟨"##ing".toList, by
        obtain rfl : i = 2 := Nat.le_antisymm (Nat.le_of_lt_succ hhi) hlo
        decide⟩,
      fun token htoken => by
        obtain rfl : SEP = token := Option.some.inj htoken
        decide⟩
  have hmasked := h (oneOfTwo true) rfl _ p t hresult 1 3 hword
  rw [beq_iff_eq.mp hpositions] at hmasked
  rcases hmasked with hall | hnone
  · exact absurd (hall 2 (by decide) (by decide)) (by decide)
  · exact absurd (hnone 1 (by decide) (by decide)) (by decide)

end FinBert.Prep.Sentiment
