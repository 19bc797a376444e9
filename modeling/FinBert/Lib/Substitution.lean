import Mathlib.Tactic.Common

/-!
# Substitution and splitting from left to right

What `re.sub` and `str.replace` do with a pattern that never matches the empty text: the
matches are taken from left to right, and the search goes on behind each match. A pattern
is the length of its match at the start of a text, and 0 where it does not match.

Results:
1. `sub_of_no_match` and `sub_of_match`: one character, or one match.
2. `sub_induction`: the induction that follows the search.
3. `splitOn_induction`: the same for splitting at a separator.
-/

namespace Substitution

variable {α : Type} (pattern : List α → Nat) (new : List α)

/-- The search, with `skip` characters of the last match still to come. -/
def subFrom : Nat → List α → List α
  | _, [] => []
  | skip + 1, _ :: text => subFrom skip text
  | 0, c :: text =>
    match pattern (c :: text) with
    | 0 => c :: subFrom 0 text
    | n + 1 => new ++ subFrom n text

/-- The text with every match replaced by `new`. -/
def sub (text : List α) : List α := subFrom pattern new 0 text

variable {pattern new} {c : α} {text : List α} {n : Nat}

theorem subFrom_eq_sub_drop (skip : Nat) (text : List α) :
    subFrom pattern new skip text = sub pattern new (text.drop skip) := by
  induction skip generalizing text with
  | zero => rfl
  | succ skip ih =>
    cases text with
    | nil => rfl
    | cons c text => exact ih text

theorem sub_of_no_match (h : pattern (c :: text) = 0) :
    sub pattern new (c :: text) = c :: sub pattern new text := by
  unfold sub
  rw [subFrom, h]

theorem sub_of_match (h : pattern (c :: text) = n + 1) :
    sub pattern new (c :: text) = new ++ sub pattern new (text.drop n) := by
  unfold sub
  rw [subFrom, h]
  exact congrArg (new ++ ·) (subFrom_eq_sub_drop n text)

/-- A relation between a text and what becomes of it: it is enough to look at one character
that stays, and at one match. -/
theorem sub_induction {motive : List α → List α → Prop} (nil : motive [] [])
    (keep : ∀ c text, pattern (c :: text) = 0 → motive text (sub pattern new text) →
      motive (c :: text) (c :: sub pattern new text))
    (replace : ∀ c text n, pattern (c :: text) = n + 1 →
      motive (text.drop n) (sub pattern new (text.drop n)) →
      motive (c :: text) (new ++ sub pattern new (text.drop n))) :
    ∀ text, motive text (sub pattern new text)
  | [] => nil
  | c :: text => by
    cases h : pattern (c :: text) with
    | zero =>
      rw [sub_of_no_match h]
      exact keep c text h (sub_induction nil keep replace text)
    | succ n =>
      rw [sub_of_match h]
      exact replace c text n h (sub_induction nil keep replace (text.drop n))
termination_by text => text.length
decreasing_by
  · exact Nat.lt_succ_self _
  · exact Nat.lt_succ_of_le (List.drop_sublist n text).length_le

/-- The pieces between the separators: it is enough to look at the last piece, and at one
piece with its separator. -/
theorem splitOn_induction [DecidableEq α] (sep : α) {motive : List α → List (List α) → Prop}
    (last : ∀ piece, sep ∉ piece → motive piece [piece])
    (more : ∀ piece rest, sep ∉ piece → motive rest (rest.splitOn sep) →
      motive (piece ++ sep :: rest) (piece :: rest.splitOn sep)) (text : List α) :
    motive text (text.splitOn sep) := by
  by_cases hmem : sep ∈ text
  · obtain ⟨piece, rest, htext, hpiece⟩ := List.eq_append_cons_of_mem hmem
    have hshorter : rest.length < text.length := by
      rw [htext, List.length_append, List.length_cons]
      exact Nat.lt_of_lt_of_le (Nat.lt_succ_self _) (Nat.le_add_left _ _)
    rw [htext, List.splitOn_append_cons_self_of_not_mem hpiece]
    exact more piece rest hpiece (splitOn_induction sep last more rest)
  · rw [List.splitOn_eq_singleton hmem]
    exact last text hmem
termination_by text.length

end Substitution
