import FinBert.Prep.BasicTokens

/-!
# Greedy word pieces

`WordpieceTokenizer.tokenize` cuts the longest piece that the vocabulary has off the front of a
word, and goes on with the rest, where a piece is looked up with a mark. The process ends with the
word (`Greedy`), or sticks where no piece is found (`Sticks`), even if another choice of pieces
would not.

Results:
1. `subTokensFrom_spec`: the two loops are the greedy process, in at most as many turns as
   characters.
2. `wordpieceTokenizer`: the tokens of every word and of every text.
-/

namespace FinBert.Prep

open Words

/-! ## The greedy process -/

/-- A piece as it is looked up: with a mark, unless it is the first of its word. -/
def marked (first : Bool) (piece : Text) : Token := if first then piece else "##".toList ++ piece

/-- The tokens of the pieces of a word. -/
def tokensOf (first : Bool) : List Text → List Token
  | [] => []
  | piece :: pieces => marked first piece :: tokensOf false pieces

variable {vocab : Vocab}

/-- The vocabulary has the piece, and no longer one at the front of `piece ++ rest`. -/
structure LongestPiece (vocab : Vocab) (first : Bool) (piece rest : Text) : Prop where
  nonempty : piece ≠ []
  mem : marked first piece ∈ vocab.keys
  longest : ∀ longer, longer <+: piece ++ rest → piece.length < longer.length →
    marked first longer ∉ vocab.keys

/-- The pieces are cut off the front of a text, each of them the longest, and `rest` is left. -/
inductive Greedy (vocab : Vocab) : Bool → Text → List Text → Text → Prop
  | nil {first : Bool} {text : Text} : Greedy vocab first text [] text
  | cons {first : Bool} {piece text rest : Text} {pieces : List Text}
      (longest : LongestPiece vocab first piece text) (tail : Greedy vocab false text pieces rest) :
      Greedy vocab first (piece ++ text) (piece :: pieces) rest

/-- Something is left at whose front the vocabulary has no piece. -/
def Sticks (vocab : Vocab) (first : Bool) (text : Text) : Prop :=
  ∃ pieces rest, Greedy vocab first text pieces rest ∧ rest ≠ [] ∧
    ∀ piece, piece ≠ [] → piece <+: rest → marked (first && pieces.isEmpty) piece ∉ vocab.keys

/-- The pieces, without the marks, are the text. -/
theorem Greedy.flatten {first : Bool} {text rest : Text} {pieces : List Text}
    (h : Greedy vocab first text pieces rest) : pieces.flatten ++ rest = text := by
  induction h with
  | nil => rfl
  | cons _ _ ih => rw [List.flatten_cons, List.append_assoc, ih]

theorem LongestPiece.unique {first : Bool} {piece piece' rest rest' : Text}
    (h : LongestPiece vocab first piece rest) (h' : LongestPiece vocab first piece' rest')
    (heq : piece ++ rest = piece' ++ rest') : piece = piece' ∧ rest = rest' := by
  have hle : ¬ piece.length < piece'.length := fun hlt =>
    h.longest piece' (heq ▸ List.prefix_append piece' rest') hlt h'.mem
  have hle' : ¬ piece'.length < piece.length := fun hlt =>
    h'.longest piece (heq ▸ List.prefix_append piece rest) hlt h.mem
  exact List.append_inj heq (Nat.le_antisymm (Nat.not_lt.mp hle') (Nat.not_lt.mp hle))

/-- The process does not both end with the word and stick. -/
theorem Greedy.not_sticks {first : Bool} {text : Text} {pieces : List Text}
    (h : Greedy vocab first text pieces []) : ¬ Sticks vocab first text := by
  rintro ⟨pieces', rest, hgreedy, hne, hnone⟩
  induction hgreedy generalizing pieces with
  | nil =>
    cases h with
    | nil => exact hne rfl
    | @cons _ piece text' _ _ longest _ =>
      rw [List.isEmpty_nil, Bool.and_true] at hnone
      exact hnone piece longest.nonempty (List.prefix_append piece text') longest.mem
  | @cons first piece text rest pieces' longest _ ih =>
    generalize htext : piece ++ text = whole at h
    cases h with
    | nil => exact longest.nonempty (List.append_eq_nil_iff.mp htext).1
    | cons longest' tail' =>
      obtain ⟨rfl, rfl⟩ := longest.unique longest' htext
      rw [List.isEmpty_cons, Bool.and_false] at hnone
      exact ih tail' hne hnone

theorem Sticks.cons {first : Bool} {piece text : Text}
    (longest : LongestPiece vocab first piece text) (h : Sticks vocab false text) :
    Sticks vocab first (piece ++ text) := by
  obtain ⟨pieces, rest, hgreedy, hne, hnone⟩ := h
  refine ⟨piece :: pieces, rest, .cons longest hgreedy, hne, ?_⟩
  rw [List.isEmpty_cons, Bool.and_false]
  exact hnone

/-! ## The loops -/

theorem substrOf_eq (chars : Text) (start end_ : Nat) :
    substrOf chars start end_ = marked (start == 0) ((chars.drop start).take (end_ - start)) := by
  unfold substrOf marked
  cases start <;> rfl

/-- The inner loop finds the longest candidate of the vocabulary. -/
theorem longestMatch_some {chars : Text} {start end_ end' : Nat} {token : Token}
    (h : longestMatch vocab chars start end_ = some (token, end')) :
    start < end' ∧ end' ≤ end_ ∧ token = substrOf chars start end' ∧ token ∈ vocab.keys ∧
      ∀ n, end' < n → n ≤ end_ → substrOf chars start n ∉ vocab.keys := by
  induction end_ with
  | zero => cases h
  | succ end_ ih =>
    unfold longestMatch at h
    split at h
    · next hlt =>
      split at h
      · next hmem =>
        obtain ⟨rfl, rfl⟩ := Prod.mk.inj (Option.some.inj h)
        exact ⟨hlt, Nat.le_refl _, rfl, hmem, fun n hgt hle => absurd hgt (Nat.not_lt.mpr hle)⟩
      · next hnot =>
        obtain ⟨hstart, hle, htoken, hmem, hlongest⟩ := ih h
        refine ⟨hstart, Nat.le_succ_of_le hle, htoken, hmem, fun n hgt hn => ?_⟩
        rcases Nat.le_succ_iff.mp hn with hn | rfl
        · exact hlongest n hgt hn
        · exact hnot
    · cases h

theorem longestMatch_none {chars : Text} {start end_ : Nat}
    (h : longestMatch vocab chars start end_ = none) :
    ∀ n, start < n → n ≤ end_ → substrOf chars start n ∉ vocab.keys := by
  induction end_ with
  | zero => exact fun n hlt hle => absurd hle (Nat.not_le.mpr (Nat.zero_lt_of_lt hlt))
  | succ end_ ih =>
    unfold longestMatch at h
    split at h
    · split at h
      · cases h
      · next hnot =>
        intro n hlt hn
        rcases Nat.le_succ_iff.mp hn with hn | rfl
        · exact ih h n hlt hn
        · exact hnot
    · next hge => exact fun n hlt hn => absurd (Nat.lt_of_lt_of_le hlt hn) hge

/-- A piece at the front of what begins at `start` is one of the candidates. -/
theorem substrOf_of_prefix {chars piece : Text} {start : Nat} (h : piece <+: chars.drop start)
    (hne : piece ≠ []) :
    marked (start == 0) piece = substrOf chars start (start + piece.length) ∧
      start + piece.length ≤ chars.length := by
  have hbound := h.length_le
  rw [List.length_drop] at hbound
  have hlt : start < chars.length :=
    Nat.lt_of_sub_pos (Nat.lt_of_lt_of_le (List.length_pos_iff.mpr hne) hbound)
  refine ⟨?_, ?_⟩
  · rw [substrOf_eq, Nat.add_sub_cancel_left, ← List.prefix_iff_eq_take.mp h]
  · exact Nat.add_comm .. ▸ Nat.add_le_of_le_sub hlt.le hbound

/-- What the inner loop finds is the longest piece. -/
theorem longestPiece_of_longestMatch {chars : Text} {start end' : Nat} {token : Token}
    (h : longestMatch vocab chars start chars.length = some (token, end')) :
    ∃ piece, token = marked (start == 0) piece ∧ chars.drop start = piece ++ chars.drop end' ∧
      LongestPiece vocab (start == 0) piece (chars.drop end') := by
  obtain ⟨hlt, hle, rfl, hmem, hlongest⟩ := longestMatch_some h
  have hdrop : chars.drop start =
      (chars.drop start).take (end' - start) ++ chars.drop end' := by
    conv_lhs => rw [← List.take_append_drop (end' - start) (chars.drop start)]
    rw [List.drop_drop, Nat.add_sub_cancel' hlt.le]
  have hlength : ((chars.drop start).take (end' - start)).length = end' - start := by
    rw [List.length_take, List.length_drop]
    exact Nat.min_eq_left (Nat.sub_le_sub_right hle start)
  refine ⟨(chars.drop start).take (end' - start), substrOf_eq .., hdrop, ?_, ?_, ?_⟩
  · intro hnil
    rw [hnil] at hlength
    exact Nat.ne_of_lt (Nat.sub_pos_of_lt hlt) hlength
  · rwa [← substrOf_eq]
  · intro longer hprefix hlonger
    rw [← hdrop] at hprefix
    rw [hlength] at hlonger
    have hne := List.ne_nil_of_length_pos (Nat.zero_lt_of_lt hlonger)
    obtain ⟨hsubstr, hbound⟩ := substrOf_of_prefix hprefix hne
    rw [hsubstr]
    exact hlongest _ (Nat.sub_lt_iff_lt_add' hlt.le |>.mp hlonger) hbound

/-- What the outer loop yields. -/
theorem subTokensFrom_spec (vocab : Vocab) (chars : Text) (turns start : Nat)
    (hturns : chars.length ≤ start + turns) :
    (∃ pieces, Greedy vocab (start == 0) (chars.drop start) pieces [] ∧
      subTokensFrom vocab chars turns start = some (tokensOf (start == 0) pieces)) ∨
    Sticks vocab (start == 0) (chars.drop start) ∧
      subTokensFrom vocab chars turns start = none := by
  have hdone : ∀ turns start, ¬ start < chars.length →
      (∃ pieces, Greedy vocab (start == 0) (chars.drop start) pieces [] ∧
        subTokensFrom vocab chars turns start = some (tokensOf (start == 0) pieces)) := by
    intro turns start hge
    refine ⟨[], ?_, ?_⟩
    · rw [List.drop_of_length_le (Nat.not_lt.mp hge)]
      exact .nil
    · cases turns <;> rw [subTokensFrom, if_neg hge] <;> rfl
  induction turns generalizing start with
  | zero => exact .inl (hdone 0 start (Nat.not_lt.mpr hturns))
  | succ turns ih =>
    by_cases hlt : start < chars.length
    · unfold subTokensFrom
      rw [if_pos hlt]
      cases hmatch : longestMatch vocab chars start chars.length with
      | none =>
        refine .inr ⟨⟨[], chars.drop start, .nil, ?_, fun piece hne hprefix => ?_⟩, rfl⟩
        · exact fun hnil => Nat.not_le.mpr hlt (List.drop_eq_nil_iff.mp hnil)
        · obtain ⟨hsubstr, hbound⟩ := substrOf_of_prefix hprefix hne
          rw [List.isEmpty_nil, Bool.and_true, hsubstr]
          exact longestMatch_none hmatch _
            (Nat.lt_add_of_pos_right (List.length_pos_iff.mpr hne)) hbound
      | some found =>
        obtain ⟨token, end'⟩ := found
        obtain ⟨hstart, -, -⟩ := longestMatch_some hmatch
        obtain ⟨piece, rfl, hdrop, hlongest⟩ := longestPiece_of_longestMatch hmatch
        have hfirst : (end' == 0) = false :=
          beq_eq_false_iff_ne.mpr (Nat.ne_of_gt (Nat.zero_lt_of_lt hstart))
        have hrest := ih end' (by omega)
        rw [hfirst] at hrest
        rw [hdrop]
        rcases hrest with ⟨pieces, hgreedy, htokens⟩ | ⟨hsticks, hnone⟩
        · refine .inl ⟨piece :: pieces, .cons hlongest hgreedy, ?_⟩
          dsimp only
          rw [htokens]
          rfl
        · refine .inr ⟨hsticks.cons hlongest, ?_⟩
          dsimp only
          rw [hnone]
          rfl
    · exact .inl (hdone (turns + 1) start hlt)

/-! ## Words and texts -/

/-- The tokens of a word. -/
structure Wordpieces (vocab : Vocab) (word : Text) (tokens : List Token) : Prop where
  short : word.length ≤ 200 →
    (∃ pieces, Greedy vocab true word pieces [] ∧ tokens = tokensOf true pieces) ∨
      Sticks vocab true word ∧ tokens = [UNK]
  /-- The process does one of the two. -/
  exactly : Sticks vocab true word ↔ ¬ ∃ pieces, Greedy vocab true word pieces []
  long : 200 < word.length → tokens = [UNK]

theorem wordpieces_spec (vocab : Vocab) (word : Text) :
    Wordpieces vocab word (wordpieces vocab word) := by
  have hspec := subTokensFrom_spec vocab word word.length 0 (Nat.le_add_left _ _)
  rw [List.drop_zero] at hspec
  constructor
  · intro hle
    have hshort : ¬ maxInputCharsPerWord < word.length := Nat.not_lt.mpr hle
    rw [wordpieces, if_neg hshort]
    rcases hspec with ⟨pieces, hgreedy, htokens⟩ | ⟨hsticks, hnone⟩
    · rw [htokens]
      exact .inl ⟨pieces, hgreedy, rfl⟩
    · rw [hnone]
      exact .inr ⟨hsticks, rfl⟩
  · rcases hspec with ⟨pieces, hgreedy, -⟩ | ⟨hsticks, -⟩
    · exact iff_of_false hgreedy.not_sticks (not_not_intro ⟨pieces, hgreedy⟩)
    · exact iff_of_true hsticks fun ⟨_, hgreedy⟩ => hgreedy.not_sticks hsticks
  · exact fun hlt => if_pos hlt

/-- A word is the only word of itself. -/
theorem whitespaceTokenize_word {word : Text} (hne : word ≠ [])
    (hspace : ∀ c ∈ word, isSpace c = false) : whitespaceTokenize word = [word] := by
  have hmap : word.map spaceMark = word.map some := List.map_congr_left fun c hc => by
    rw [spaceMark, hspace c hc, if_neg Bool.false_ne_true]
  rw [whitespaceTokenize_eq_words, hmap, words_map_some hne]

theorem wordpieceTokenize_word (vocab : Vocab) {word : Text}
    (hspace : ∀ c ∈ word, isSpace c = false) :
    wordpieceTokenize vocab word = wordpieces vocab word := by
  by_cases hnil : word = []
  · subst hnil
    rfl
  · rw [wordpieceTokenize, whitespaceTokenize_word hnil hspace, List.flatMap_singleton]

/-- What `WordpieceTokenizer.tokenize` does to words and to texts. -/
structure WordpieceTokenizer (vocab : Vocab) : Prop where
  word : ∀ word, (∀ c ∈ word, isSpace c = false) →
    Wordpieces vocab word (wordpieceTokenize vocab word)
  text : ∀ before space after, isSpace space = true →
    wordpieceTokenize vocab (before ++ space :: after) =
      wordpieceTokenize vocab before ++ wordpieceTokenize vocab after

theorem wordpieceTokenizer (vocab : Vocab) : WordpieceTokenizer vocab := by
  constructor
  · intro word hspace
    rw [wordpieceTokenize_word vocab hspace]
    exact wordpieces_spec vocab word
  · intro before space after hspace
    have hmark : spaceMark space = none := if_pos hspace
    unfold wordpieceTokenize
    rw [whitespaceTokenize_eq_words, List.map_append, List.map_cons, hmark, words_append_none,
      List.flatMap_append, ← whitespaceTokenize_eq_words, ← whitespaceTokenize_eq_words]

/-- The greedy process sticks, though there are other pieces. -/
example : wordpieceTokenize [("ab".toList, 0), ("a".toList, 1), ("##b".toList, 2),
    ("##bc".toList, 3)] " abc  ab".toList = [UNK, "ab".toList] := by
  decide

end FinBert.Prep
