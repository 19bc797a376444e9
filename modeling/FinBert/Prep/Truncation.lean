import FinBert.Prep.Instances

/-!
# What `truncate_seq_pair` keeps

Which list loses a token in a turn depends on the lengths alone, and the draw of the turn
only decides at which end. So the result is a window of each list: its length is a
function of the two lengths, and its start is the number of cuts at the front.

Results:
1. `truncateSeqPair_eq`: the result and the number of draws, in closed form.
2. `lengthsAfter_sum`, `lengthsAfter_pos`: the total length, and that neither window is empty.
3. `truncates`: what every truncation keeps, whatever is drawn.
-/

namespace FinBert.Prep

open Random Program

/-- The lengths after `n` turns: the longer list is cut, B when they are equally long. -/
def lengthsAfter : Nat → Nat → Nat → Nat × Nat
  | 0, a, b => (a, b)
  | n + 1, a, b => if b < a then lengthsAfter n (a - 1) b else lengthsAfter n a (b - 1)

/-- Whether the next draw cuts at the front, as a number. -/
def frontCut (rng : Rng) : Nat := if isBelow half (rng 0) then 1 else 0

/-- How many of the `n` cuts are at the front of A and of B: those whose draw is below 0.5. -/
def frontCuts : Nat → Nat → Nat → Rng → Nat × Nat
  | 0, _, _, _ => (0, 0)
  | n + 1, a, b, rng =>
    if b < a then
      let cuts := frontCuts n (a - 1) b (rng.skip 1)
      (frontCut rng + cuts.1, cuts.2)
    else
      let cuts := frontCuts n a (b - 1) (rng.skip 1)
      (cuts.1, frontCut rng + cuts.2)

/-- The tokens from the index `start` on, at most `length` of them. -/
def window (start length : Nat) (tokens : List Token) : List Token :=
  (tokens.drop start).take length

/-- The number of turns of the loop for lists of the given lengths. -/
def turns (maxNumTokens : Int) (a b : Nat) : Nat := ((a : Int) + b - maxNumTokens).toNat

/-- What `truncate_seq_pair` leaves of A. -/
def truncatedA (tokensA tokensB : List Token) (maxNumTokens : Int) (rng : Rng) : List Token :=
  let n := turns maxNumTokens tokensA.length tokensB.length
  window (frontCuts n tokensA.length tokensB.length rng).1
    (lengthsAfter n tokensA.length tokensB.length).1 tokensA

/-- What `truncate_seq_pair` leaves of B. -/
def truncatedB (tokensA tokensB : List Token) (maxNumTokens : Int) (rng : Rng) : List Token :=
  let n := turns maxNumTokens tokensA.length tokensB.length
  window (frontCuts n tokensA.length tokensB.length rng).2
    (lengthsAfter n tokensA.length tokensB.length).2 tokensB

/-! ## Lengths -/

theorem lengthsAfter_sum {n a b : Nat} (h : n ≤ a + b) :
    (lengthsAfter n a b).1 + (lengthsAfter n a b).2 = a + b - n := by
  induction n generalizing a b with
  | zero => rfl
  | succ n ih =>
    unfold lengthsAfter
    split
    · rw [ih (by omega)]
      omega
    · rw [ih (by omega)]
      omega

/-- As long as two tokens are kept, one of each list is. -/
theorem lengthsAfter_pos {n a b : Nat} (ha : 1 ≤ a) (hb : 1 ≤ b) (h : n + 2 ≤ a + b) :
    1 ≤ (lengthsAfter n a b).1 ∧ 1 ≤ (lengthsAfter n a b).2 := by
  induction n generalizing a b with
  | zero => exact ⟨ha, hb⟩
  | succ n ih =>
    unfold lengthsAfter
    split
    · exact ih (by omega) hb (by omega)
    · exact ih ha (by omega) (by omega)

theorem frontCut_le (rng : Rng) : frontCut rng ≤ 1 := by
  unfold frontCut
  split <;> omega

/-- The windows lie inside the lists. -/
theorem frontCuts_add_lengthsAfter_le (rng : Rng) {n a b : Nat} (h : n ≤ a + b) :
    (frontCuts n a b rng).1 + (lengthsAfter n a b).1 ≤ a ∧
      (frontCuts n a b rng).2 + (lengthsAfter n a b).2 ≤ b := by
  induction n generalizing rng a b with
  | zero => exact ⟨Nat.le_of_eq (Nat.zero_add a), Nat.le_of_eq (Nat.zero_add b)⟩
  | succ n ih =>
    have hfront := frontCut_le rng
    unfold frontCuts lengthsAfter
    split
    · obtain ⟨hA, hB⟩ := ih (rng.skip 1) (a := a - 1) (b := b) (by omega)
      exact ⟨by simp only; omega, hB⟩
    · obtain ⟨hA, hB⟩ := ih (rng.skip 1) (a := a) (b := b - 1) (by omega)
      exact ⟨hA, by simp only; omega⟩

/-! ## Windows -/

@[simp] theorem window_length {start length : Nat} {tokens : List Token}
    (h : start + length ≤ tokens.length) : (window start length tokens).length = length := by
  unfold window
  rw [List.length_take, List.length_drop]
  omega

theorem window_isInfix (start length : Nat) (tokens : List Token) :
    window start length tokens <:+: tokens :=
  (List.take_prefix length _).isInfix.trans (List.drop_suffix start tokens).isInfix

theorem window_all (tokens : List Token) : window 0 tokens.length tokens = tokens :=
  List.take_length

/-- One turn of the loop on the list that is cut. -/
def cut (rng : Rng) (tokens : List Token) : List Token :=
  if isBelow half (rng 0) then tokens.tail else tokens.dropLast

@[simp] theorem length_cut (rng : Rng) (tokens : List Token) :
    (cut rng tokens).length = tokens.length - 1 := by
  unfold cut
  split
  · exact List.length_tail
  · exact List.length_dropLast

/-- A window of a list that was cut at one end is a window of the whole list. -/
theorem window_cut {rng : Rng} {start length : Nat} {tokens : List Token}
    (h : start + length ≤ tokens.length - 1) :
    window start length (cut rng tokens) = window (frontCut rng + start) length tokens := by
  unfold window cut frontCut
  split
  · rw [← List.drop_one, List.drop_drop]
  · rw [Nat.zero_add, List.dropLast_eq_take, List.drop_take, List.take_take,
      Nat.min_eq_left (by omega)]

/-! ## The loop -/

/-- One turn: the longer list is cut, B when they are equally long. -/
theorem truncateLoop_succ {maxNumTokens : Int} (hmax : 0 ≤ maxNumTokens) {fuel : Nat}
    {tokensA tokensB : List Token} {rng : Rng}
    (hlong : maxNumTokens < (tokensA.length : Int) + tokensB.length) :
    truncateLoop maxNumTokens (fuel + 1) tokensA tokensB rng =
      if tokensB.length < tokensA.length then
        truncateLoop maxNumTokens fuel (cut rng tokensA) tokensB (rng.skip 1)
      else truncateLoop maxNumTokens fuel tokensA (cut rng tokensB) (rng.skip 1) := by
  conv_lhs => unfold truncateLoop
  rw [if_neg (by omega)]
  have hassert : assert (1 ≤ (if decide (tokensB.length < tokensA.length) then tokensA
      else tokensB).length) = pure () := by
    refine assert_eq ?_
    split
    · next hlt => exact Nat.one_le_of_lt (of_decide_eq_true hlt)
    · next hge =>
      have hle := Nat.not_lt.mp (of_decide_eq_false (Bool.eq_false_iff.mpr hge))
      omega
  simp only [hassert]
  rcases Nat.lt_or_ge tokensB.length tokensA.length with hlt | hge
  · simp only [decide_eq_true hlt, if_pos hlt, if_true]
    rfl
  · simp only [decide_eq_false hge.not_gt, if_neg hge.not_gt, Bool.false_eq_true, if_false]
    rfl

/-- The induction is on the number of turns that are left. -/
theorem truncateLoop_eq {maxNumTokens : Int} (hmax : 0 ≤ maxNumTokens) {n fuel : Nat}
    (hfuel : n ≤ fuel) {tokensA tokensB : List Token} {rng : Rng}
    (hn : turns maxNumTokens tokensA.length tokensB.length = n) :
    truncateLoop maxNumTokens fuel tokensA tokensB rng =
      .ok (window (frontCuts n tokensA.length tokensB.length rng).1
            (lengthsAfter n tokensA.length tokensB.length).1 tokensA,
          window (frontCuts n tokensA.length tokensB.length rng).2
            (lengthsAfter n tokensA.length tokensB.length).2 tokensB) (rng.skip n) := by
  unfold turns at hn
  induction n generalizing fuel tokensA tokensB rng with
  | zero =>
    unfold truncateLoop
    rw [if_pos (by omega)]
    simp only [frontCuts, lengthsAfter, window_all]
    rfl
  | succ n ih =>
    obtain ⟨fuel, rfl⟩ : ∃ k, fuel = k + 1 := ⟨fuel - 1, by omega⟩
    have hskip : (rng.skip 1).skip n = rng.skip (n + 1) := by
      funext k
      show rng (k + n + 1) = rng (k + (n + 1))
      rw [Nat.add_assoc]
    rw [truncateLoop_succ hmax (by omega)]
    unfold frontCuts lengthsAfter
    split
    · next hlt =>
      obtain ⟨hA, -⟩ := frontCuts_add_lengthsAfter_le (rng.skip 1) (n := n)
        (a := tokensA.length - 1) (b := tokensB.length) (by omega)
      rw [ih (by omega) (by rw [length_cut]; omega), length_cut, window_cut hA, hskip]
    · next hge =>
      obtain ⟨-, hB⟩ := frontCuts_add_lengthsAfter_le (rng.skip 1) (n := n)
        (a := tokensA.length) (b := tokensB.length - 1) (by omega)
      rw [ih (by omega) (by rw [length_cut]; omega), length_cut, window_cut hB, hskip]

/-- `truncate_seq_pair` in closed form: no assertion fails, and one draw is made for each
token that has to go. -/
theorem truncateSeqPair_eq {maxNumTokens : Int} (hmax : 0 ≤ maxNumTokens)
    (tokensA tokensB : List Token) (rng : Rng) :
    truncateSeqPair tokensA tokensB maxNumTokens rng =
      .ok (truncatedA tokensA tokensB maxNumTokens rng,
          truncatedB tokensA tokensB maxNumTokens rng)
        (rng.skip (turns maxNumTokens tokensA.length tokensB.length)) := by
  unfold truncateSeqPair truncatedA truncatedB
  exact truncateLoop_eq hmax (by unfold turns; omega) rfl

/-- Only lists that fit are returned, so there is room for them. -/
theorem ensures_truncateLoop_nonneg {maxNumTokens : Int} {fuel : Nat}
    {tokensA tokensB : List Token} {rng : Rng} :
    Ensures (truncateLoop maxNumTokens fuel tokensA tokensB) (fun _ _ => 0 ≤ maxNumTokens)
      (fun _ => True) rng := by
  induction fuel generalizing tokensA tokensB rng with
  | zero =>
    unfold truncateLoop
    split
    · exact ensures_pure (by omega)
    · exact ensures_throw trivial
  | succ fuel ih =>
    unfold truncateLoop
    split
    · exact ensures_pure (by omega)
    · refine ensures_trivial.bind fun _ _ _ => ensures_trivial.bind fun front _ _ => ?_
      cases front <;> cases decide (tokensB.length < tokensA.length) <;> exact ih

/-- Both results are contiguous parts of what was truncated, they fit, and they are not
empty when nothing was empty before. -/
theorem truncated_spec {maxNumTokens : Int} (hmax : 2 ≤ maxNumTokens)
    {tokensA tokensB : List Token} (hA : tokensA ≠ []) (hB : tokensB ≠ []) (rng : Rng) :
    truncatedA tokensA tokensB maxNumTokens rng <:+: tokensA ∧
    truncatedB tokensA tokensB maxNumTokens rng <:+: tokensB ∧
    ((truncatedA tokensA tokensB maxNumTokens rng).length : Int) +
      (truncatedB tokensA tokensB maxNumTokens rng).length ≤ maxNumTokens ∧
    1 ≤ (truncatedA tokensA tokensB maxNumTokens rng).length ∧
    1 ≤ (truncatedB tokensA tokensB maxNumTokens rng).length := by
  have hlengthA := List.length_pos_iff.mpr hA
  have hlengthB := List.length_pos_iff.mpr hB
  have hturns : turns maxNumTokens tokensA.length tokensB.length + 2 ≤
      tokensA.length + tokensB.length ∧
      (tokensA.length : Int) + tokensB.length -
        turns maxNumTokens tokensA.length tokensB.length ≤ maxNumTokens := by
    unfold turns
    omega
  unfold truncatedA truncatedB
  generalize turns maxNumTokens tokensA.length tokensB.length = n at hturns ⊢
  obtain ⟨hinA, hinB⟩ := frontCuts_add_lengthsAfter_le rng (n := n) (a := tokensA.length)
    (b := tokensB.length) (by omega)
  have hsum := lengthsAfter_sum (n := n) (a := tokensA.length) (b := tokensB.length) (by omega)
  obtain ⟨hposA, hposB⟩ := lengthsAfter_pos (n := n) hlengthA hlengthB (by omega)
  refine ⟨window_isInfix _ _ _, window_isInfix _ _ _, ?_⟩
  simp only [window_length hinA, window_length hinB]
  refine ⟨?_, hposA, hposB⟩
  omega

/-! ## Every truncation -/

theorem lengthsAfter_le (n a b : Nat) :
    (lengthsAfter n a b).1 ≤ a ∧ (lengthsAfter n a b).2 ≤ b := by
  induction n generalizing a b with
  | zero => exact ⟨Nat.le_refl a, Nat.le_refl b⟩
  | succ n ih =>
    unfold lengthsAfter
    split
    · exact ⟨(ih (a - 1) b).1.trans (Nat.sub_le a 1), (ih (a - 1) b).2⟩
    · exact ⟨(ih a (b - 1)).1, (ih a (b - 1)).2.trans (Nat.sub_le b 1)⟩

/-- A list that is cut has more than half of the tokens before, so at least half of what fits
remains. -/
theorem le_lengthsAfter {n a b m : Nat} (h : n = 0 ∨ n + m ≤ a + b) :
    min a (m / 2) ≤ (lengthsAfter n a b).1 ∧ min b (m / 2) ≤ (lengthsAfter n a b).2 := by
  induction n generalizing a b with
  | zero => exact ⟨Nat.min_le_left .., Nat.min_le_left ..⟩
  | succ n ih =>
    have hturns := h.resolve_left (Nat.succ_ne_zero n)
    unfold lengthsAfter
    split
    · next hlt =>
      obtain ⟨hA, hB⟩ := ih (a := a - 1) (b := b) (by omega)
      have hhalf : min a (m / 2) ≤ min (a - 1) (m / 2) := by omega
      exact ⟨hhalf.trans hA, hB⟩
    · next hge =>
      obtain ⟨hA, hB⟩ := ih (a := a) (b := b - 1) (by omega)
      have hhalf : min b (m / 2) ≤ min (b - 1) (m / 2) := by omega
      exact ⟨hA, hhalf.trans hB⟩

/-- A list that was cut was the longer one: it is not much shorter than the other one. -/
theorem lengthsAfter_balanced (n a b : Nat) :
    ((lengthsAfter n a b).1 < a → (lengthsAfter n a b).2 ≤ (lengthsAfter n a b).1) ∧
      ((lengthsAfter n a b).2 < b → (lengthsAfter n a b).1 ≤ (lengthsAfter n a b).2 + 1) := by
  induction n generalizing a b with
  | zero => exact ⟨fun h => absurd h (Nat.lt_irrefl a), fun h => absurd h (Nat.lt_irrefl b)⟩
  | succ n ih =>
    unfold lengthsAfter
    split
    · next hlt =>
      obtain ⟨hA, hB⟩ := ih (a - 1) b
      obtain ⟨hleA, hleB⟩ := lengthsAfter_le n (a - 1) b
      refine ⟨fun _ => ?_, hB⟩
      rcases Nat.lt_or_eq_of_le hleA with hcut | heq
      · exact hA hcut
      · rw [heq]
        exact hleB.trans (Nat.le_sub_one_of_lt hlt)
    · next hge =>
      obtain ⟨hA, hB⟩ := ih a (b - 1)
      obtain ⟨hleA, hleB⟩ := lengthsAfter_le n a (b - 1)
      refine ⟨hA, fun _ => ?_⟩
      rcases Nat.lt_or_eq_of_le hleB with hcut | heq
      · exact hB hcut
      · rw [heq]
        exact hleA.trans ((Nat.not_lt.mp hge).trans (Nat.sub_le_iff_le_add.mp (Nat.le_refl _)))

/-- What is left of two lists. -/
structure TruncatedPair (maxNumTokens : Int) (tokensA tokensB a b : List Token) : Prop where
  infixA : a <:+: tokensA
  infixB : b <:+: tokensB
  total : (a.length : Int) + b.length =
    min ((tokensA.length : Int) + tokensB.length) maxNumTokens
  /-- A is cut as long as it is longer than B, and B as long as it is not shorter than A. -/
  longerA : a.length < tokensA.length → b.length ≤ a.length
  longerB : b.length < tokensB.length → a.length ≤ b.length + 1
  halfA : min (tokensA.length : Int) (maxNumTokens / 2) ≤ a.length
  halfB : min (tokensB.length : Int) (maxNumTokens / 2) ≤ b.length
  nonempty : 2 ≤ maxNumTokens → (tokensA ≠ [] → a ≠ []) ∧ (tokensB ≠ [] → b ≠ [])

/-- `truncate_seq_pair` for two lists, whatever is drawn. -/
structure Truncates (maxNumTokens : Int) (tokensA tokensB : List Token) : Prop where
  returns : ∀ rng, ∃ a b rng', truncateSeqPair tokensA tokensB maxNumTokens rng = .ok (a, b) rng' ∧
    TruncatedPair maxNumTokens tokensA tokensB a b
  /-- The draws have no influence on the lengths. -/
  lengths : ∀ rng₁ rng₂ a₁ b₁ a₂ b₂ rng₁' rng₂',
    truncateSeqPair tokensA tokensB maxNumTokens rng₁ = .ok (a₁, b₁) rng₁' →
    truncateSeqPair tokensA tokensB maxNumTokens rng₂ = .ok (a₂, b₂) rng₂' →
    a₁.length = a₂.length ∧ b₁.length = b₂.length

theorem length_truncated {maxNumTokens : Int} (hmax : 0 ≤ maxNumTokens)
    (tokensA tokensB : List Token) (rng : Rng) :
    ((truncatedA tokensA tokensB maxNumTokens rng).length,
        (truncatedB tokensA tokensB maxNumTokens rng).length) =
      lengthsAfter (turns maxNumTokens tokensA.length tokensB.length) tokensA.length
        tokensB.length := by
  obtain ⟨hinA, hinB⟩ := frontCuts_add_lengthsAfter_le rng
    (n := turns maxNumTokens tokensA.length tokensB.length) (a := tokensA.length)
    (b := tokensB.length) (by unfold turns; omega)
  unfold truncatedA truncatedB
  dsimp only
  rw [window_length hinA, window_length hinB]

theorem truncatedPair {maxNumTokens : Int} (hmax : 0 ≤ maxNumTokens)
    (tokensA tokensB : List Token) (rng : Rng) :
    TruncatedPair maxNumTokens tokensA tokensB (truncatedA tokensA tokensB maxNumTokens rng)
      (truncatedB tokensA tokensB maxNumTokens rng) := by
  obtain ⟨hlengthA, hlengthB⟩ := Prod.mk.inj (length_truncated hmax tokensA tokensB rng)
  obtain ⟨m, rfl⟩ := Int.eq_ofNat_of_zero_le hmax
  have hturns : turns m tokensA.length tokensB.length = 0 ∨
      turns m tokensA.length tokensB.length + m ≤ tokensA.length + tokensB.length := by
    unfold turns
    omega
  have hsum := lengthsAfter_sum (n := turns m tokensA.length tokensB.length)
    (a := tokensA.length) (b := tokensB.length) (by unfold turns; omega)
  obtain ⟨hhalfA, hhalfB⟩ := le_lengthsAfter hturns
  obtain ⟨hlongerA, hlongerB⟩ := lengthsAfter_balanced
    (turns m tokensA.length tokensB.length) tokensA.length tokensB.length
  rw [← hlengthA] at hhalfA
  rw [← hlengthB] at hhalfB
  rw [← hlengthA, ← hlengthB] at hsum hlongerA hlongerB
  refine ⟨window_isInfix .., window_isInfix .., ?_, hlongerA, hlongerB, by omega, by omega,
    fun htwo => ⟨fun hne => ?_, fun hne => ?_⟩⟩
  · unfold turns at hsum
    omega
  · have hpos := List.length_pos_iff.mpr hne
    exact List.ne_nil_of_length_pos (by omega)
  · have hpos := List.length_pos_iff.mpr hne
    exact List.ne_nil_of_length_pos (by omega)

theorem truncates {maxNumTokens : Int} (hmax : 0 ≤ maxNumTokens) (tokensA tokensB : List Token) :
    Truncates maxNumTokens tokensA tokensB := by
  constructor
  · intro rng
    exact ⟨_, _, _, truncateSeqPair_eq hmax tokensA tokensB rng,
      truncatedPair hmax tokensA tokensB rng⟩
  · intro rng₁ rng₂ a₁ b₁ a₂ b₂ rng₁' rng₂' h₁ h₂
    rw [truncateSeqPair_eq hmax] at h₁ h₂
    obtain ⟨heq₁, -⟩ := EStateM.Result.ok.inj h₁
    obtain ⟨heq₂, -⟩ := EStateM.Result.ok.inj h₂
    obtain ⟨rfl, rfl⟩ := Prod.mk.inj heq₁
    obtain ⟨rfl, rfl⟩ := Prod.mk.inj heq₂
    exact Prod.mk.inj ((length_truncated hmax tokensA tokensB rng₁).trans
      (length_truncated hmax tokensA tokensB rng₂).symm)

/-- Of three tokens and two, two and one are left. -/
theorem truncates_three : lengthsAfter (turns 3 3 2) 3 2 = (2, 1) ∧
    Truncates 3 [CLS, UNK, SEP] [MASK, SEP] :=
  ⟨rfl, truncates (by decide) _ _⟩

end FinBert.Prep
