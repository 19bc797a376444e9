import FinBert.Prep.Candidates
import FinBert.Prep.Drafts

/-!
# Whole words and the segment boundary

With `do_whole_word_mask`, a token that begins with `##` joins the candidate before it.
The grouping passes over `[SEP]`, so a continuation at the start of B joins the last word
of A; and B starts with a continuation when the truncation cuts the front of a word off.

Results:
1. `groupFrom_oneSided`: tokens that start a candidate keep to their side.
2. `groupFrom_crosses`: a continuation at the start joins the last candidate, for good.
3. `candIndexes_apart_iff`: when the candidates of `[CLS]` A `[SEP]` B `[SEP]` are one-sided.
4. `wholeWords_apart_iff`: the same for every instance of a document, in terms of its
   segments and of the draws of the truncation.
-/

namespace FinBert.Prep

open Random Program

/-! ## Grouping -/

theorem addCandidate_true_concat (init : List (List Nat)) (indexSet : List Nat) (i : Nat)
    (token : Token) :
    addCandidate true (init ++ [indexSet]) i token =
      if isContinuation token then init ++ [indexSet ++ [i]] else init ++ [indexSet] ++ [[i]] := by
  rw [addCandidate_concat, Bool.true_and]

/-- The candidates of the pre-training generator, from the index `i` on. -/
def grouped (i : Nat) (tokens : List Token) (candIndexes : List (List Nat)) : List (List Nat) :=
  groupFrom true (fun _ => false) i tokens candIndexes

theorem grouped_cons (i : Nat) (token : Token) (tokens : List Token)
    (candIndexes : List (List Nat)) :
    grouped i (token :: tokens) candIndexes =
      if isSpecial token then grouped (i + 1) tokens candIndexes
      else grouped (i + 1) tokens (addCandidate true candIndexes i token) := by
  unfold grouped
  conv_lhs => unfold groupFrom
  simp only [Bool.false_eq_true, if_false]

theorem grouped_append (i : Nat) (xs ys : List Token) (candIndexes : List (List Nat)) :
    grouped i (xs ++ ys) candIndexes = grouped (i + xs.length) ys (grouped i xs candIndexes) :=
  groupFrom_append true _ i xs ys candIndexes

/-- The first token that is a candidate. -/
def firstCandidate (tokens : List Token) : Option Token :=
  tokens.find? fun token => !isSpecial token

theorem firstCandidate_cons (token : Token) (tokens : List Token) :
    firstCandidate (token :: tokens) =
      if isSpecial token then firstCandidate tokens else some token := by
  unfold firstCandidate
  rw [List.find?_cons]
  cases isSpecial token <;> rfl

/-! ## Candidates that keep to their side -/

/-- Every candidate lies in `P` or in `Q`. -/
def OneSided (P Q : Nat → Prop) (candIndexes : List (List Nat)) : Prop :=
  ∀ indexSet ∈ candIndexes, (∀ i ∈ indexSet, P i) ∨ ∀ i ∈ indexSet, Q i

instance (P Q : Nat → Prop) [DecidablePred P] [DecidablePred Q] (candIndexes : List (List Nat)) :
    Decidable (OneSided P Q candIndexes) :=
  inferInstanceAs (Decidable (∀ indexSet ∈ candIndexes, _))

/-- What an index in `Q` joins: the last candidate is in `Q` already, unless the tokens to
come start a candidate of their own. -/
def Joinable (Q : Nat → Prop) (candIndexes : List (List Nat)) (first : Option Token) : Prop :=
  ∀ init indexSet, candIndexes = init ++ [indexSet] →
    (∀ i ∈ indexSet, Q i) ∨ ∀ token, first = some token → isContinuation token = false

section
variable {P Q : Nat → Prop} {candIndexes : List (List Nat)} {i : Nat}

theorem OneSided.concat (h : OneSided P Q candIndexes) (hi : Q i) :
    OneSided P Q (candIndexes ++ [[i]]) := by
  intro indexSet hmem
  rcases List.mem_append.mp hmem with hmem | hmem
  · exact h indexSet hmem
  · rw [List.mem_singleton.mp hmem]
    exact .inr fun j hj => (List.mem_singleton.mp hj) ▸ hi

/-- One candidate token with an index in `Q`: the last candidate is in `Q` from then on. -/
theorem addCandidate_oneSided {token : Token} (h : OneSided P Q candIndexes) (hi : Q i)
    (hjoin : Joinable Q candIndexes (some token)) :
    OneSided P Q (addCandidate true candIndexes i token) ∧
      ∀ init indexSet, addCandidate true candIndexes i token = init ++ [indexSet] →
        ∀ j ∈ indexSet, Q j := by
  rcases List.eq_nil_or_concat' candIndexes with rfl | ⟨init, indexSet, rfl⟩
  · rw [addCandidate_nil]
    refine ⟨OneSided.concat h hi, fun init indexSet heq => ?_⟩
    rw [← List.nil_append [[i]]] at heq
    obtain ⟨-, rfl⟩ := List.append_singleton_inj.mp heq
    exact fun j hj => (List.mem_singleton.mp hj) ▸ hi
  · rw [addCandidate_true_concat]
    split
    · next hcontinuation =>
      have hlast : ∀ j ∈ indexSet ++ [i], Q j := by
        rcases hjoin init indexSet rfl with hQ | hfirst
        · intro j hj
          rcases List.mem_append.mp hj with hj | hj
          · exact hQ j hj
          · exact (List.mem_singleton.mp hj) ▸ hi
        · rw [hfirst token rfl] at hcontinuation
          cases hcontinuation
      refine ⟨fun indexSet' hmem => ?_, fun init' indexSet' heq => ?_⟩
      · rcases List.mem_append.mp hmem with hmem | hmem
        · exact h indexSet' (List.mem_append_left _ hmem)
        · exact .inr ((List.mem_singleton.mp hmem) ▸ hlast)
      · obtain ⟨-, rfl⟩ := List.append_singleton_inj.mp heq
        exact hlast
    · refine ⟨h.concat hi, fun init' indexSet' heq => ?_⟩
      obtain ⟨-, rfl⟩ := List.append_singleton_inj.mp heq
      exact fun j hj => (List.mem_singleton.mp hj) ▸ hi

/-- Tokens whose indexes are in `Q`, behind candidates that they may not join. -/
theorem grouped_oneSided {tokens : List Token} (hQ : ∀ k < tokens.length, Q (i + k))
    (h : OneSided P Q candIndexes) (hjoin : Joinable Q candIndexes (firstCandidate tokens)) :
    OneSided P Q (grouped i tokens candIndexes) := by
  induction tokens generalizing i candIndexes with
  | nil => exact h
  | cons token tokens ih =>
    have hrest : ∀ k < tokens.length, Q (i + 1 + k) := by
      intro k hk
      have := hQ (k + 1) (Nat.succ_lt_succ hk)
      rwa [Nat.add_assoc, Nat.add_comm 1 k]
    rw [firstCandidate_cons] at hjoin
    rw [grouped_cons]
    split
    · next hspecial =>
      rw [if_pos hspecial] at hjoin
      exact ih hrest h hjoin
    · next hspecial =>
      rw [if_neg hspecial] at hjoin
      obtain ⟨hone, hlast⟩ := addCandidate_oneSided h (hQ 0 (Nat.succ_pos _)) hjoin
      exact ih hrest hone fun init indexSet heq => .inl (hlast init indexSet heq)

/-! ## Candidates that cross -/

/-- A candidate only grows. -/
theorem addCandidate_extends {indexSet : List Nat} (token : Token) (hmem : indexSet ∈ candIndexes) :
    ∃ indexSet' ∈ addCandidate true candIndexes i token, indexSet ⊆ indexSet' := by
  rcases List.eq_nil_or_concat' candIndexes with rfl | ⟨init, last, rfl⟩
  · exact absurd hmem List.not_mem_nil
  · rw [addCandidate_true_concat]
    split
    · rcases List.mem_append.mp hmem with hmem | hmem
      · exact ⟨indexSet, List.mem_append_left _ hmem, List.Subset.refl _⟩
      · rw [List.mem_singleton.mp hmem]
        exact ⟨last ++ [i], List.mem_concat_self, List.subset_append_left _ _⟩
    · exact ⟨indexSet, List.mem_append_left _ hmem, List.Subset.refl _⟩

theorem grouped_extends (i : Nat) (tokens : List Token) {indexSet : List Nat}
    (hmem : indexSet ∈ candIndexes) :
    ∃ indexSet' ∈ grouped i tokens candIndexes, indexSet ⊆ indexSet' := by
  induction tokens generalizing i candIndexes indexSet with
  | nil => exact ⟨indexSet, hmem, List.Subset.refl _⟩
  | cons token tokens ih =>
    rw [grouped_cons]
    split
    · exact ih (i + 1) hmem
    · obtain ⟨indexSet', hmem', hsub⟩ := addCandidate_extends (i := i) token hmem
      obtain ⟨indexSet'', hmem'', hsub'⟩ := ih (i + 1) hmem'
      exact ⟨indexSet'', hmem'', List.Subset.trans hsub hsub'⟩

/-- When the tokens start with a continuation, the last candidate gets one of their indexes. -/
theorem grouped_crosses (i : Nat) (init : List (List Nat)) (indexSet : List Nat)
    {tokens : List Token} {token : Token} (hfirst : firstCandidate tokens = some token)
    (hcontinuation : isContinuation token = true) :
    ∃ indexSet' ∈ grouped i tokens (init ++ [indexSet]), indexSet ⊆ indexSet' ∧
      ∃ k < tokens.length, i + k ∈ indexSet' := by
  induction tokens generalizing i with
  | nil => cases hfirst
  | cons token' tokens ih =>
    rw [firstCandidate_cons] at hfirst
    rw [grouped_cons]
    split
    · next hspecial =>
      rw [if_pos hspecial] at hfirst
      obtain ⟨indexSet', hmem, hsub, k, hk, hindex⟩ := ih (i + 1) hfirst
      refine ⟨indexSet', hmem, hsub, k + 1, Nat.succ_lt_succ hk, ?_⟩
      rwa [Nat.add_comm k 1, ← Nat.add_assoc]
    · next hspecial =>
      rw [if_neg hspecial] at hfirst
      obtain rfl := Option.some.inj hfirst
      rw [addCandidate_true_concat, if_pos hcontinuation]
      have hlast : indexSet ++ [i] ∈ init ++ [indexSet ++ [i]] := List.mem_concat_self
      obtain ⟨indexSet', hmem, hsub⟩ := grouped_extends (i + 1) tokens hlast
      refine ⟨indexSet', hmem, fun j hj => hsub (List.mem_append_left _ hj), 0,
        Nat.succ_pos _, hsub List.mem_concat_self⟩

end

/-! ## The candidates of an instance -/

/-- Special tokens leave the candidates as they are. -/
theorem grouped_of_none {tokens : List Token} {candIndexes : List (List Nat)} {i : Nat}
    (h : firstCandidate tokens = none) : grouped i tokens candIndexes = candIndexes := by
  induction tokens generalizing i with
  | nil => rfl
  | cons token tokens ih =>
    rw [firstCandidate_cons] at h
    rw [grouped_cons]
    split
    · next hspecial =>
      rw [if_pos hspecial] at h
      exact ih h
    · next hspecial =>
      rw [if_neg hspecial] at h
      cases h

/-- The first candidate token opens a candidate. -/
theorem grouped_of_some {tokens : List Token} {token : Token} {i : Nat}
    (h : firstCandidate tokens = some token) : grouped i tokens [] ≠ [] := by
  induction tokens generalizing i with
  | nil => cases h
  | cons token' tokens ih =>
    rw [firstCandidate_cons] at h
    rw [grouped_cons]
    split
    · next hspecial =>
      rw [if_pos hspecial] at h
      exact ih h
    · rw [addCandidate_nil]
      obtain ⟨indexSet, hmem, -⟩ := grouped_extends (i + 1) tokens (List.mem_singleton_self [i])
      exact List.ne_nil_of_mem hmem

/-- `i` is the position of a token of A, in the tokens of the draft. -/
def Draft.InA (draft : Draft) (i : Nat) : Prop := 1 ≤ i ∧ i < draft.tokensA.length + 1

/-- `i` is the position of a token of B. -/
def Draft.InB (draft : Draft) (i : Nat) : Prop :=
  draft.tokensA.length + 2 ≤ i ∧ i < draft.tokensA.length + 2 + draft.tokensB.length

instance (draft : Draft) (i : Nat) : Decidable (draft.InA i) := inferInstanceAs (Decidable (_ ∧ _))

instance (draft : Draft) (i : Nat) : Decidable (draft.InB i) := inferInstanceAs (Decidable (_ ∧ _))

theorem candIndexes_eq (draft : Draft) :
    Pretraining.candIndexes true draft.tokens =
      grouped (draft.tokensA.length + 2) draft.tokensB (grouped 1 draft.tokensA []) := by
  show grouped 0 draft.tokens [] = _
  unfold Draft.tokens
  have hCLS : isSpecial CLS = true := by decide
  have hSEP : isSpecial SEP = true := by decide
  rw [List.append_assoc, List.cons_append, List.cons_append, grouped_cons, if_pos hCLS,
    grouped_append, grouped_cons, if_pos hSEP, grouped_append, grouped_cons, if_pos hSEP]
  have hstart : 0 + 1 + draft.tokensA.length + 1 = draft.tokensA.length + 2 := by omega
  rw [hstart]
  rfl

/-- B starts with a piece of a word whose beginning it does not have, and A has a candidate
that the piece can join. -/
def JoinsAcross (tokensA tokensB : List Token) : Prop :=
  (firstCandidate tokensA).isSome ∧ (firstCandidate tokensB).any isContinuation

instance (tokensA tokensB : List Token) : Decidable (JoinsAcross tokensA tokensB) :=
  inferInstanceAs (Decidable (_ ∧ _))

theorem candIndexes_apart_iff (draft : Draft) :
    OneSided draft.InA draft.InB (Pretraining.candIndexes true draft.tokens) ↔
      ¬ JoinsAcross draft.tokensA draft.tokensB := by
  rw [candIndexes_eq]
  -- the candidates of A alone
  have hA : OneSided draft.InA draft.InA (grouped 1 draft.tokensA []) := by
    refine grouped_oneSided (fun k hk => ⟨by omega, by omega⟩) (fun _ hmem => ?_) ?_
    · exact absurd hmem List.not_mem_nil
    · exact fun init indexSet heq => absurd heq.symm (List.concat_ne_nil _ _)
  have hA' : ∀ indexSet ∈ grouped 1 draft.tokensA [], ∀ i ∈ indexSet, draft.InA i :=
    fun indexSet hmem => (hA indexSet hmem).elim id id
  have hne : ∀ indexSet ∈ grouped 1 draft.tokensA [], indexSet ≠ [] :=
    groupFrom_ne_nil fun indexSet hmem => absurd hmem List.not_mem_nil
  constructor
  · rintro hone ⟨hsome, hany⟩
    obtain ⟨tokenA, htokenA⟩ := Option.isSome_iff_exists.mp hsome
    obtain ⟨tokenB, htokenB, hcontinuation⟩ := (Option.any_eq_true _ _).mp hany
    obtain ⟨init, last, hlast⟩ := (List.eq_nil_or_concat' (grouped 1 draft.tokensA [])).resolve_left
      (grouped_of_some htokenA)
    rw [hlast] at hone hne hA'
    obtain ⟨indexSet, hmem, hsub, k, hk, hindex⟩ :=
      grouped_crosses (draft.tokensA.length + 2) init last htokenB hcontinuation
    obtain ⟨j, hj⟩ := List.exists_mem_of_ne_nil last (hne last List.mem_concat_self)
    have hjA := hA' last List.mem_concat_self j hj
    rcases hone indexSet hmem with hall | hall
    · have := hall _ hindex
      unfold Draft.InA at this
      omega
    · have := hall j (hsub hj)
      unfold Draft.InA at hjA
      unfold Draft.InB at this
      omega
  · intro hjoins
    refine grouped_oneSided (fun k hk => ⟨by omega, by omega⟩)
      (fun indexSet hmem => .inl (hA' indexSet hmem)) fun init indexSet heq => .inr ?_
    intro token hfirst
    refine Bool.eq_false_iff.mpr fun hcontinuation =>
      hjoins ⟨?_, (Option.any_eq_true _ _).mpr ⟨token, hfirst, hcontinuation⟩⟩
    cases htokenA : firstCandidate draft.tokensA with
    | some tokenA => rfl
    | none =>
      rw [grouped_of_none htokenA] at heq
      exact absurd heq.symm (List.concat_ne_nil _ _)

/-! ## The instances of a document -/

/-- With whole-word masking, for every corpus, every sequence length and every outcome of the
draws, the candidates of an instance keep to one segment exactly when the
truncation, whose cuts depend on the lengths of A and B and on the draws, leaves a B that
does not start inside a word, or an A without any candidate. -/
theorem wholeWords_apart_iff (args : DocumentArgs) (cfg : MaskConfig) (rng : Rng)
    (hwhole : cfg.doWholeWordMask = true) :
    Ensures (tracedInstances args (Pretraining.createMaskedLmPredictions cfg))
      (fun traced _ => ∀ p ∈ traced,
        (OneSided p.1.InA p.1.InB (Pretraining.candIndexes cfg.doWholeWordMask p.1.tokens) ↔
          ¬ JoinsAcross
            (truncatedA p.1.aSegments.flatten p.1.bSegments.flatten args.maxNumTokens
              p.1.truncateRng)
            (truncatedB p.1.aSegments.flatten p.1.bSegments.flatten args.maxNumTokens
              p.1.truncateRng)))
      (fun _ => True) rng := by
  have hmask : ∀ tokens rng, Ensures (Pretraining.createMaskedLmPredictions cfg tokens)
      (fun _ _ => True) (fun _ => True) rng :=
    fun _ _ => ⟨fun _ _ _ => trivial, fun _ _ _ => trivial⟩
  refine (ensures_tracedInstances args rng hmask).mono ?_ fun _ _ => trivial
  rintro traced t ⟨document, -, hcollected⟩ p hp
  obtain ⟨-, htokensA, htokensB⟩ := (hcollected.spec p hp).truncated
  rw [hwhole, candIndexes_apart_iff, ← htokensA, ← htokensB]

/-- One document of two lines, `x` and `unable`, the second one in two pieces. -/
def twoPieces : DocumentArgs where
  allDocuments := [[["x".toList], ["un".toList, "##able".toList]]]
  documentIndex := 0
  maxSeqLength := 5
  shortSeqProb := half

def wholeWordMask : MaskConfig where
  doWholeWordMask := true
  rounded := fun _ => 1
  maxPredictionsPerSeq := 20
  vocabWords := [MASK]

/-- No short sequence, an actual next sentence, and then draws that are all `n`. -/
def actualNextDraws (n : Nat) : Rng := fun k => if k < 3 then 4503599627370496 else n

/-- B is cut at its front and starts with `##able`, which joins `x` in one candidate. -/
theorem not_apart_of_frontCut :
    ∃ traced t, tracedInstances twoPieces (Pretraining.createMaskedLmPredictions wholeWordMask)
        (actualNextDraws 0) = .ok traced t ∧
      ∃ p ∈ traced, p.1.tokens = [CLS, "x".toList, SEP, "##able".toList, SEP] ∧
        ¬ OneSided p.1.InA p.1.InB (Pretraining.candIndexes true p.1.tokens) := by
  have hrun : returns (tracedInstances twoPieces
      (Pretraining.createMaskedLmPredictions wholeWordMask))
      (fun traced => traced.any fun p =>
        p.1.tokens == [CLS, "x".toList, SEP, "##able".toList, SEP] &&
        !decide (OneSided p.1.InA p.1.InB (Pretraining.candIndexes true p.1.tokens)))
      (actualNextDraws 0) = true := by decide
  obtain ⟨traced, t, hresult, hany⟩ := exists_of_returns hrun
  obtain ⟨p, hp, hfacts⟩ := List.any_eq_true.mp hany
  simp only [Bool.and_eq_true, beq_iff_eq, Bool.not_eq_true', decide_eq_false_iff_not] at hfacts
  exact ⟨traced, t, hresult, p, hp, hfacts.1, hfacts.2⟩

/-- B is cut at its end and starts with `un`: the candidates keep to one segment. -/
theorem wholeWords_apart_twoPieces :
    ∃ traced t, tracedInstances twoPieces (Pretraining.createMaskedLmPredictions wholeWordMask)
        (actualNextDraws 4503599627370496) = .ok traced t ∧
      ∃ p ∈ traced, p.1.tokens = [CLS, "x".toList, SEP, "un".toList, SEP] ∧
        OneSided p.1.InA p.1.InB (Pretraining.candIndexes true p.1.tokens) := by
  have hrun : returns (tracedInstances twoPieces
      (Pretraining.createMaskedLmPredictions wholeWordMask))
      (fun traced => traced.any fun p =>
        p.1.tokens == [CLS, "x".toList, SEP, "un".toList, SEP] &&
        !decide (JoinsAcross
          (truncatedA p.1.aSegments.flatten p.1.bSegments.flatten twoPieces.maxNumTokens
            p.1.truncateRng)
          (truncatedB p.1.aSegments.flatten p.1.bSegments.flatten twoPieces.maxNumTokens
            p.1.truncateRng)))
      (actualNextDraws 4503599627370496) = true := by decide
  obtain ⟨traced, t, hresult, hany⟩ := exists_of_returns hrun
  obtain ⟨p, hp, hfacts⟩ := List.any_eq_true.mp hany
  simp only [Bool.and_eq_true, beq_iff_eq, Bool.not_eq_true', decide_eq_false_iff_not] at hfacts
  have hiff := (wholeWords_apart_iff twoPieces wholeWordMask _ rfl).ok traced t
    hresult p hp
  exact ⟨traced, t, hresult, p, hp, hfacts.1, hiff.mpr hfacts.2⟩

end FinBert.Prep
