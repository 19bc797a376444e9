import FinBert.Prep.Masking

/-!
# The candidates

The first loop of `create_masked_lm_predictions` takes the tokens one after the other. A
token extends the last candidate or opens a new one, so a candidate that is not the last
one any more stays as it is.

Results:
1. `flatten_candIndexes`: the candidates of the pre-training generator hold the position of
   every token that is not special, once and in order.
2. `groupFrom_concat`: what the later tokens do to the candidates.
3. `mem_candidate_iff_succ`: a continuation shares the candidate of the token before it,
   unless one of the two is forced.
4. `exists_candidate_of_forced`: the smallest candidate of a forced position.
-/

namespace FinBert.Prep

variable {wholeWord : Bool} {forced : Token → Bool} {candIndexes : List (List Nat)} {i j : Nat}
  {token : Token} {tokens : List Token}

/-! ## Positions -/

/-- The positions of the tokens with `p`, from the index `i` on. -/
def positionsFrom (p : Token → Bool) : Nat → List Token → List Nat
  | _, [] => []
  | i, token :: tokens =>
    if p token then i :: positionsFrom p (i + 1) tokens else positionsFrom p (i + 1) tokens

/-- The tokens that can be masked: neither `[CLS]` nor `[SEP]`. -/
def isMaskable (token : Token) : Bool := !isSpecial token

/-- The positions of the tokens that can be masked. -/
def maskablePositions (tokens : List Token) : List Nat := positionsFrom isMaskable 0 tokens

theorem mem_positionsFrom {p : Token → Bool} :
    j ∈ positionsFrom p i tokens ↔ ∃ k token, j = i + k ∧ tokens[k]? = some token ∧ p token := by
  induction tokens generalizing i with
  | nil => simp [positionsFrom]
  | cons token tokens ih =>
    have hstep : (∃ k token', j = i + k ∧ (token :: tokens)[k]? = some token' ∧ p token') ↔
        (j = i ∧ p token) ∨ j ∈ positionsFrom p (i + 1) tokens := by
      rw [ih]
      constructor
      · rintro ⟨k, token', rfl, htoken, hp⟩
        cases k with
        | zero =>
          obtain rfl := Option.some.inj htoken
          exact .inl ⟨rfl, hp⟩
        | succ k => exact .inr ⟨k, token', Nat.add_right_comm i k 1, htoken, hp⟩
      · rintro (⟨rfl, hp⟩ | ⟨k, token', rfl, htoken, hp⟩)
        · exact ⟨0, token, rfl, rfl, hp⟩
        · exact ⟨k + 1, token', Nat.add_right_comm i 1 k, htoken, hp⟩
    rw [hstep, positionsFrom]
    split
    · next hp => rw [List.mem_cons, and_iff_left hp]
    · next hp => rw [iff_or_self]; exact fun h => absurd h.2 hp

theorem le_of_mem_positionsFrom {p : Token → Bool} (h : j ∈ positionsFrom p i tokens) : i ≤ j := by
  obtain ⟨k, -, rfl, -⟩ := mem_positionsFrom.mp h
  exact Nat.le_add_right i k

theorem pairwise_positionsFrom (p : Token → Bool) (i : Nat) (tokens : List Token) :
    (positionsFrom p i tokens).Pairwise (· < ·) := by
  induction tokens generalizing i with
  | nil => exact List.Pairwise.nil
  | cons token tokens ih =>
    rw [positionsFrom]
    split
    · exact List.pairwise_cons.mpr ⟨fun j hj => le_of_mem_positionsFrom hj, ih (i + 1)⟩
    · exact ih (i + 1)

theorem length_positionsFrom (p : Token → Bool) (i : Nat) (tokens : List Token) :
    (positionsFrom p i tokens).length = tokens.countP p := by
  induction tokens generalizing i with
  | nil => rfl
  | cons token tokens ih =>
    rw [positionsFrom, List.countP_cons]
    split
    · rw [List.length_cons, ih]
    · exact ih (i + 1)

theorem mem_maskablePositions :
    j ∈ maskablePositions tokens ↔ ∃ token, tokens[j]? = some token ∧ isSpecial token = false := by
  unfold maskablePositions isMaskable
  simp only [mem_positionsFrom, Nat.zero_add, exists_and_left, exists_eq_left', Bool.not_eq_true']

/-! ## One token -/

theorem addCandidate_nil (wholeWord : Bool) (i : Nat) (token : Token) :
    addCandidate wholeWord [] i token = [[i]] := by
  unfold addCandidate
  rw [List.isEmpty_nil, Bool.not_true, Bool.and_false, Bool.false_and, if_neg Bool.false_ne_true]
  rfl

theorem addCandidate_concat (wholeWord : Bool) (init : List (List Nat)) (indexSet : List Nat)
    (i : Nat) (token : Token) :
    addCandidate wholeWord (init ++ [indexSet]) i token =
      if wholeWord && isContinuation token then init ++ [indexSet ++ [i]]
      else init ++ [indexSet] ++ [[i]] := by
  unfold addCandidate
  simp only [List.isEmpty_eq_false_iff.mpr (List.concat_ne_nil _ _), Bool.not_false, Bool.and_true,
    appendToLast_concat]

/-- What the loop makes of one token. -/
def groupToken (wholeWord : Bool) (forced : Token → Bool) (candIndexes : List (List Nat)) (i : Nat)
    (token : Token) : List (List Nat) :=
  if isSpecial token then candIndexes
  else addCandidate wholeWord (if forced token then candIndexes ++ [[i]] else candIndexes) i token

theorem groupFrom_cons (wholeWord : Bool) (forced : Token → Bool) (i : Nat) (token : Token)
    (tokens : List Token) (candIndexes : List (List Nat)) :
    groupFrom wholeWord forced i (token :: tokens) candIndexes =
      groupFrom wholeWord forced (i + 1) tokens
        (groupToken wholeWord forced candIndexes i token) := by
  rw [groupFrom, groupToken]
  split <;> rfl

theorem groupFrom_append (wholeWord : Bool) (forced : Token → Bool) (i : Nat)
    (xs ys : List Token) (candIndexes : List (List Nat)) :
    groupFrom wholeWord forced i (xs ++ ys) candIndexes =
      groupFrom wholeWord forced (i + xs.length) ys
        (groupFrom wholeWord forced i xs candIndexes) := by
  induction xs generalizing i candIndexes with
  | nil => rfl
  | cons token xs ih =>
    rw [List.cons_append, groupFrom_cons, groupFrom_cons, ih, List.length_cons,
      Nat.add_comm xs.length, Nat.add_assoc]

/-- The candidates that a forced token adds. -/
def forcedCandidates (wholeWord : Bool) (i : Nat) (token : Token) : List (List Nat) :=
  if wholeWord && isContinuation token then [[i, i]] else [[i], [i]]

theorem groupToken_of_forced (candIndexes : List (List Nat)) (i : Nat)
    (hspecial : isSpecial token = false) (hforced : forced token = true) :
    groupToken wholeWord forced candIndexes i token =
      candIndexes ++ forcedCandidates wholeWord i token := by
  rw [groupToken, hspecial, if_neg Bool.false_ne_true, if_pos hforced, addCandidate_concat,
    forcedCandidates]
  split
  · rfl
  · rw [List.append_assoc]
    rfl

/-- A token that is not forced. -/
theorem groupToken_concat (init : List (List Nat)) (indexSet : List Nat) (i : Nat)
    (hspecial : isSpecial token = false) (hforced : forced token = false) :
    groupToken wholeWord forced (init ++ [indexSet]) i token =
      if wholeWord && isContinuation token then init ++ [indexSet ++ [i]]
      else init ++ [indexSet] ++ [[i]] := by
  rw [groupToken, hspecial, if_neg Bool.false_ne_true, hforced, if_neg Bool.false_ne_true,
    addCandidate_concat]

/-- What one token does to the candidates: nothing, or it extends the last one, or it opens
candidates that hold its own index only. -/
theorem groupToken_cases (wholeWord : Bool) (forced : Token → Bool) (init : List (List Nat))
    (indexSet : List Nat) (i : Nat) (token : Token) :
    groupToken wholeWord forced (init ++ [indexSet]) i token = init ++ [indexSet] ∨
      groupToken wholeWord forced (init ++ [indexSet]) i token = init ++ [indexSet ++ [i]] ∨
      ∃ front last, (∀ set ∈ front ++ [last], ∀ k ∈ set, k = i) ∧
        groupToken wholeWord forced (init ++ [indexSet]) i token =
          init ++ [indexSet] ++ front ++ [last] := by
  cases hspecial : isSpecial token with
  | true => exact .inl (if_pos hspecial)
  | false =>
    cases hforced : forced token with
    | true =>
      refine .inr (.inr ?_)
      rw [groupToken_of_forced _ i hspecial hforced, forcedCandidates]
      split
      · exact ⟨[], [i, i], by simp, by rw [List.append_nil]⟩
      · exact ⟨[[i]], [i], by simp, by simp⟩
    | false =>
      rw [groupToken_concat init indexSet i hspecial hforced]
      split
      · exact .inr (.inl rfl)
      · exact .inr (.inr ⟨[], [i], by simp, by rw [List.append_nil]⟩)

/-! ## The later tokens -/

/-- The later tokens extend the last candidate, and then open new ones. -/
theorem groupFrom_concat (wholeWord : Bool) (forced : Token → Bool) (i : Nat)
    (tokens : List Token) (init : List (List Nat)) (indexSet : List Nat) :
    ∃ more new, groupFrom wholeWord forced i tokens (init ++ [indexSet]) =
        init ++ (indexSet ++ more) :: new ∧
      (∀ j ∈ more, i ≤ j ∧ ∀ set ∈ new, ∀ k ∈ set, j < k) ∧ ∀ set ∈ new, ∀ k ∈ set, i ≤ k := by
  induction tokens generalizing i init indexSet with
  | nil => exact ⟨[], [], by rw [List.append_nil]; rfl, by simp, by simp⟩
  | cons token tokens ih =>
    rw [groupFrom_cons]
    obtain heq | heq | ⟨front, last, hindex, heq⟩ :=
      groupToken_cases wholeWord forced init indexSet i token
    · obtain ⟨more, new, hgroup, hmore, hnew⟩ := ih (i + 1) init indexSet
      rw [heq]
      exact ⟨more, new, hgroup, fun j hj => ⟨Nat.le_of_succ_le (hmore j hj).1, (hmore j hj).2⟩,
        fun set hset k hk => Nat.le_of_succ_le (hnew set hset k hk)⟩
    · obtain ⟨more, new, hgroup, hmore, hnew⟩ := ih (i + 1) init (indexSet ++ [i])
      rw [heq]
      refine ⟨i :: more, new, ?_, fun j hj => ?_,
        fun set hset k hk => Nat.le_of_succ_le (hnew set hset k hk)⟩
      · rw [hgroup, List.append_assoc, List.singleton_append]
      · rcases List.mem_cons.mp hj with rfl | hj
        · exact ⟨Nat.le_refl j, hnew⟩
        · exact ⟨Nat.le_of_succ_le (hmore j hj).1, (hmore j hj).2⟩
    · obtain ⟨more, new, hgroup, hmore, hnew⟩ := ih (i + 1) (init ++ [indexSet] ++ front) last
      rw [heq]
      refine ⟨[], front ++ (last ++ more) :: new, ?_, by simp, fun set hset k hk => ?_⟩
      · rw [hgroup]
        simp
      · rcases List.mem_append.mp hset with hset | hset
        · exact (hindex set (List.mem_append_left _ hset) k hk).ge
        · rcases List.mem_cons.mp hset with rfl | hset
          · rcases List.mem_append.mp hk with hk | hk
            · exact (hindex last List.mem_concat_self k hk).ge
            · exact Nat.le_of_succ_le (hmore k hk).1
          · exact Nat.le_of_succ_le (hnew set hset k hk)

/-- No candidate is empty. -/
theorem groupFrom_ne_nil (h : ∀ indexSet ∈ candIndexes, indexSet ≠ []) :
    ∀ indexSet ∈ groupFrom wholeWord forced i tokens candIndexes, indexSet ≠ [] :=
  forall_groupFrom wholeWord forced h (fun k _ => List.cons_ne_nil k [])
    fun k _ indexSet _ => List.concat_ne_nil k indexSet

/-! ## The positions that the candidates hold -/

theorem flatten_addCandidate (wholeWord : Bool) (candIndexes : List (List Nat)) (i : Nat)
    (token : Token) :
    (addCandidate wholeWord candIndexes i token).flatten = candIndexes.flatten ++ [i] := by
  rcases List.eq_nil_or_concat' candIndexes with rfl | ⟨init, last, rfl⟩
  · rw [addCandidate_nil]
    rfl
  · rw [addCandidate_concat]
    split <;> simp

/-- Where nothing is forced, every position is held once, in order. -/
theorem flatten_groupFrom (wholeWord : Bool) (i : Nat) (tokens : List Token)
    (candIndexes : List (List Nat)) :
    (groupFrom wholeWord (fun _ => false) i tokens candIndexes).flatten =
      candIndexes.flatten ++ positionsFrom isMaskable i tokens := by
  induction tokens generalizing i candIndexes with
  | nil => exact (List.append_nil _).symm
  | cons token tokens ih =>
    rw [groupFrom_cons, ih, groupToken, positionsFrom, isMaskable]
    cases isSpecial token with
    | true => rfl
    | false =>
      simp only [Bool.false_eq_true, if_false, Bool.not_false, if_true, flatten_addCandidate,
        List.append_assoc, List.singleton_append]

theorem flatten_candIndexes (wholeWord : Bool) (tokens : List Token) :
    (Pretraining.candIndexes wholeWord tokens).flatten = maskablePositions tokens :=
  flatten_groupFrom wholeWord 0 tokens []

theorem mem_flatten_groupToken :
    j ∈ (groupToken wholeWord forced candIndexes i token).flatten ↔
      j ∈ candIndexes.flatten ∨ (isMaskable token ∧ j = i) := by
  unfold groupToken isMaskable
  cases isSpecial token with
  | true => simp
  | false =>
    cases forced token with
    | true => simp [flatten_addCandidate]
    | false => simp [flatten_addCandidate]

/-- The candidates hold the positions of the tokens that are not special. -/
theorem mem_flatten_groupFrom :
    j ∈ (groupFrom wholeWord forced i tokens candIndexes).flatten ↔
      j ∈ candIndexes.flatten ∨ j ∈ positionsFrom isMaskable i tokens := by
  induction tokens generalizing i candIndexes with
  | nil => exact (or_iff_left List.not_mem_nil).symm
  | cons token tokens ih =>
    rw [groupFrom_cons, ih, mem_flatten_groupToken, or_assoc, positionsFrom]
    split
    · next hmaskable => rw [List.mem_cons, and_iff_right hmaskable]
    · next hmaskable =>
      have hnot : ¬ (isMaskable token = true ∧ j = i) := fun h => hmaskable h.1
      rw [or_iff_right hnot]

/-- With the flag for whole words off, a candidate is a single position. -/
theorem singleton_of_mem_groupFrom (h : ∀ indexSet ∈ candIndexes, ∃ k, indexSet = [k]) :
    ∀ indexSet ∈ groupFrom false forced i tokens candIndexes, ∃ k, indexSet = [k] := by
  induction tokens generalizing i candIndexes with
  | nil => exact h
  | cons token tokens ih =>
    rw [groupFrom_cons]
    refine ih ?_
    have hconcat : ∀ candIndexes : List (List Nat),
        (∀ indexSet ∈ candIndexes, ∃ k, indexSet = [k]) →
          ∀ indexSet ∈ candIndexes ++ [[i]], ∃ k, indexSet = [k] :=
      fun _ h => forall_concat h ⟨i, rfl⟩
    unfold groupToken addCandidate
    rw [Bool.false_and, Bool.false_and, if_neg Bool.false_ne_true]
    split
    · exact h
    · split
      · exact hconcat _ (hconcat _ h)
      · exact hconcat _ h

/-! ## A token between the others -/

theorem exists_split (h : tokens[i]? = some token) :
    ∃ before after, tokens = before ++ token :: after ∧ before.length = i := by
  obtain ⟨hi, rfl⟩ := List.getElem?_eq_some_iff.mp h
  refine ⟨tokens.take i, tokens.drop (i + 1), ?_, List.length_take_of_le (Nat.le_of_lt hi)⟩
  rw [List.getElem_cons_drop, List.take_append_drop]

theorem groupFrom_split (wholeWord : Bool) (forced : Token → Bool) (before after : List Token)
    (token : Token) :
    groupFrom wholeWord forced 0 (before ++ token :: after) [] =
      groupFrom wholeWord forced (before.length + 1) after
        (groupToken wholeWord forced (groupFrom wholeWord forced 0 before []) before.length
          token) := by
  rw [groupFrom_append, groupFrom_cons, Nat.zero_add]

/-- A forced token opens its own candidates, and those before it stay as they are. Of the
new ones, the last can still grow. -/
theorem groupFrom_of_forced (wholeWord : Bool) (forced : Token → Bool)
    (before after : List Token) (hspecial : isSpecial token = false)
    (hforced : forced token = true) :
    ∃ more new, groupFrom wholeWord forced 0 (before ++ token :: after) [] =
        groupFrom wholeWord forced 0 before [] ++
          (if wholeWord && isContinuation token then
            ([before.length, before.length] ++ more) :: new
          else [before.length] :: ([before.length] ++ more) :: new) ∧
      (∀ j ∈ more, before.length + 1 ≤ j ∧ ∀ set ∈ new, ∀ k ∈ set, j < k) ∧
      ∀ set ∈ new, ∀ k ∈ set, before.length + 1 ≤ k := by
  rw [groupFrom_split, groupToken_of_forced _ _ hspecial hforced, forcedCandidates]
  split
  · exact groupFrom_concat wholeWord forced (before.length + 1) after _ [_, _]
  · obtain ⟨more, new, hgroup, hordered⟩ := groupFrom_concat wholeWord forced (before.length + 1)
      after (groupFrom wholeWord forced 0 before [] ++ [[before.length]]) [before.length]
    rw [List.append_assoc, List.append_assoc] at hgroup
    exact ⟨more, new, hgroup, hordered⟩

/-- Every candidate from before a forced position is there at the end. -/
theorem mem_groupFrom_of_before {before after : List Token} {indexSet : List Nat}
    (hspecial : isSpecial token = false) (hforced : forced token = true)
    (hmem : indexSet ∈ groupFrom wholeWord forced 0 before []) :
    indexSet ∈ groupFrom wholeWord forced 0 (before ++ token :: after) [] := by
  obtain ⟨more, new, hgroup, -⟩ :=
    groupFrom_of_forced wholeWord forced before after hspecial hforced
  rw [hgroup]
  exact List.mem_append_left _ hmem

/-- The smallest candidate of a forced position. What overlaps it holds the position, too. -/
theorem exists_candidate_of_forced (wholeWord : Bool) (forced : Token → Bool)
    (htoken : tokens[i]? = some token)
    (hspecial : isSpecial token = false) (hforced : forced token = true) :
    ∃ own ∈ groupFrom wholeWord forced 0 tokens [], i ∈ own ∧
      ∀ indexSet ∈ groupFrom wholeWord forced 0 tokens [],
        (¬ own.Disjoint indexSet → i ∈ indexSet) ∧
          (i ∈ indexSet → own.length ≤ indexSet.length) := by
  obtain ⟨before, after, rfl, rfl⟩ := exists_split htoken
  obtain ⟨more, new, hgroup, hmore, hnew⟩ :=
    groupFrom_of_forced wholeWord forced before after hspecial hforced
  have hbefore := inRange_groupFrom wholeWord forced before
  rw [hgroup]
  split
  · -- a continuation: the only candidate with the position also holds what comes next
    refine ⟨_, List.mem_append_right _ List.mem_cons_self, List.mem_cons_self, ?_⟩
    intro indexSet hmem
    have hother : indexSet ∈ groupFrom wholeWord forced 0 before [] ∨ indexSet ∈ new →
        ([before.length, before.length] ++ more).Disjoint indexSet := by
      rintro hmem k hk hk'
      have hk : k = before.length ∨ k ∈ more := by simpa using hk
      rcases hmem with hmem | hmem
      · have := hbefore indexSet hmem k hk'
        rcases hk with rfl | hk
        · exact Nat.lt_irrefl _ this
        · exact Nat.lt_asymm this (hmore k hk).1
      · rcases hk with rfl | hk
        · exact Nat.lt_irrefl _ (hnew indexSet hmem _ hk')
        · exact Nat.lt_irrefl _ ((hmore k hk).2 indexSet hmem k hk')
    by_cases hown : indexSet = [before.length, before.length] ++ more
    · rw [hown]
      exact ⟨fun _ => List.mem_cons_self, fun _ => Nat.le_refl _⟩
    · have hdisjoint := hother ((List.mem_append.mp hmem).imp_right fun h =>
        (List.mem_cons.mp h).resolve_left hown)
      exact ⟨fun h => absurd hdisjoint h, fun h => absurd h (hdisjoint List.mem_cons_self)⟩
  · -- a single position
    refine ⟨[before.length], List.mem_append_right _ List.mem_cons_self, List.mem_cons_self, ?_⟩
    intro indexSet _
    refine ⟨fun h => ?_, fun h => List.length_pos_of_mem h⟩
    rw [List.singleton_disjoint, not_not] at h
    exact h

/-- In whole words, a continuation is in the same candidates as the token before it, when
neither of them is forced. -/
theorem mem_candidate_iff_succ (forced : Token → Bool) {token' : Token}
    (htoken : tokens[i]? = some token)
    (hspecial : isSpecial token = false) (hforced : forced token = false)
    (htoken' : tokens[i + 1]? = some token') (hspecial' : isSpecial token' = false)
    (hcontinuation : isContinuation token' = true) (hforced' : forced token' = false) :
    ∀ indexSet ∈ groupFrom true forced 0 tokens [], i ∈ indexSet ↔ i + 1 ∈ indexSet := by
  obtain ⟨before, rest, rfl, rfl⟩ := exists_split htoken
  obtain ⟨after, rfl⟩ : ∃ after, rest = token' :: after := by
    rw [List.getElem?_append_right (Nat.le_add_right _ 1), Nat.add_sub_cancel_left,
      List.getElem?_cons_succ] at htoken'
    cases rest with
    | nil => cases htoken'
    | cons _ after => exact ⟨after, by rw [Option.some.inj htoken']⟩
  have hbefore := inRange_groupFrom true forced before
  -- the last candidate behind the first of the two tokens
  obtain ⟨init, last, hgroup, hinit, hlast⟩ : ∃ init last,
      groupToken true forced (groupFrom true forced 0 before []) before.length token =
        init ++ [last ++ [before.length]] ∧ (∀ set ∈ init, ∀ k ∈ set, k < before.length) ∧
        ∀ k ∈ last, k < before.length := by
    rcases List.eq_nil_or_concat' (groupFrom true forced 0 before []) with hnil | ⟨init, last, heq⟩
    · refine ⟨[], [], ?_, by simp, by simp⟩
      rw [hnil, groupToken, hspecial, if_neg Bool.false_ne_true, hforced,
        if_neg Bool.false_ne_true, addCandidate_nil]
      rfl
    · rw [heq] at hbefore
      rw [heq, groupToken_concat init last _ hspecial hforced]
      split
      · exact ⟨init, last, rfl, fun set hset => hbefore set (List.mem_append_left _ hset),
          hbefore last List.mem_concat_self⟩
      · exact ⟨init ++ [last], [], rfl, hbefore, by simp⟩
  rw [groupFrom_split, groupFrom_cons, hgroup, groupToken_concat _ _ _ hspecial' hforced',
    Bool.true_and, if_pos hcontinuation]
  obtain ⟨more, new, hgroup', -, hnew⟩ := groupFrom_concat true forced (before.length + 1 + 1) after
    init (last ++ [before.length] ++ [before.length + 1])
  intro indexSet hmem
  rw [hgroup'] at hmem
  rcases List.mem_append.mp hmem with hmem | hmem
  · refine iff_of_false (fun h => ?_) fun h => ?_
    · exact Nat.lt_irrefl _ (hinit indexSet hmem _ h)
    · exact Nat.not_succ_lt_self (hinit indexSet hmem _ h)
  · rcases List.mem_cons.mp hmem with rfl | hmem
    · exact iff_of_true (by simp) (by simp)
    · refine iff_of_false (fun h => ?_) fun h => ?_
      · exact Nat.not_succ_le_self _ (Nat.le_of_succ_le (hnew indexSet hmem _ h))
      · exact Nat.not_succ_le_self _ (hnew indexSet hmem _ h)

end FinBert.Prep
