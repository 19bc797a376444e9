import Mathlib.Data.List.ReduceOption
import Mathlib.Tactic.Common

/-!
# Words between marks

A list of elements and marks (`none`) stands for the words between its marks: the longest runs of
elements, where an empty run is no word. Passes over a text that put in marks, drop elements or cut
at an element are read as one list of this kind.

Results:
1. `flatten_words`: the words are the elements, in order.
2. `sameWord_words_iff`: two neighbouring elements are in one word when no mark is between them.
3. `words_intercalate`: the words of lists that are joined by marks are the words of the lists.
-/

namespace Words

variable {α : Type}

/-- A run that has ended is a word, if it is not empty. -/
def ended : List α → List (List α)
  | [] => []
  | a :: w => [a :: w]

/-- The words, behind the run `w`. -/
def wordsFrom (w : List α) : List (Option α) → List (List α)
  | [] => ended w
  | none :: l => ended w ++ wordsFrom [] l
  | some a :: l => wordsFrom (w ++ [a]) l

/-- The words of a list of elements and marks. -/
def words (l : List (Option α)) : List (List α) := wordsFrom [] l

@[simp] theorem words_nil : words ([] : List (Option α)) = [] := rfl

@[simp] theorem words_none (l : List (Option α)) : words (none :: l) = words l := rfl

theorem ended_of_ne_nil {w : List α} (h : w ≠ []) : ended w = [w] := by
  obtain ⟨a, w, rfl⟩ := List.exists_cons_of_ne_nil h
  rfl

@[simp] theorem flatten_ended (w : List α) : (ended w).flatten = w := by
  cases w with
  | nil => rfl
  | cons a w => simp [ended]

/-- A mark ends the words before it. -/
theorem wordsFrom_append_none (w : List α) (l l' : List (Option α)) :
    wordsFrom w (l ++ none :: l') = wordsFrom w l ++ words l' := by
  induction l generalizing w with
  | nil => rfl
  | cons o l ih =>
    cases o with
    | none => rw [List.cons_append, wordsFrom, ih, wordsFrom, List.append_assoc]
    | some a => rw [List.cons_append, wordsFrom, ih, wordsFrom]

theorem words_append_none (l l' : List (Option α)) :
    words (l ++ none :: l') = words l ++ words l' :=
  wordsFrom_append_none [] l l'

theorem reduceOption_marks {m : List (Option α)} (hm : ∀ o ∈ m, o = none) :
    m.reduceOption = [] :=
  (List.reduceOption_eq_nil_iff m).mpr ⟨m.length, List.eq_replicate_of_mem hm⟩

/-- Marks end a run, however many they are. -/
theorem wordsFrom_marks (w : List α) {m : List (Option α)} (hm : ∀ o ∈ m, o = none) (hne : m ≠ [])
    (l : List (Option α)) : wordsFrom w (m ++ l) = ended w ++ words l := by
  induction m generalizing w with
  | nil => exact absurd rfl hne
  | cons o m ih =>
    obtain rfl := hm o (List.mem_cons_self ..)
    rw [List.cons_append, wordsFrom]
    cases m with
    | nil => rfl
    | cons o m =>
      rw [ih [] (fun o ho => hm o (List.mem_cons_of_mem _ ho)) (List.cons_ne_nil o m)]
      rfl

/-- Marks at the end make no difference. -/
theorem words_append_marks (l : List (Option α)) {m : List (Option α)} (hm : ∀ o ∈ m, o = none) :
    words (l ++ m) = words l := by
  cases m with
  | nil => rw [List.append_nil]
  | cons o m =>
    have hrest : words m = [] := by
      have h := wordsFrom_marks [] hm (List.cons_ne_nil o m) []
      rwa [List.append_nil, hm o (List.mem_cons_self ..)] at h
    rw [hm o (List.mem_cons_self ..), words_append_none, hrest, List.append_nil]

theorem wordsFrom_map_some (w x : List α) (l : List (Option α)) :
    wordsFrom w (x.map some ++ l) = wordsFrom (w ++ x) l := by
  induction x generalizing w with
  | nil => rw [List.map_nil, List.nil_append, List.append_nil]
  | cons a x ih => rw [List.map_cons, List.cons_append, wordsFrom, ih, List.append_assoc]; rfl

/-- A list without a mark is one word. -/
theorem words_map_some {w : List α} (h : w ≠ []) : words (w.map some) = [w] := by
  have hrun := wordsFrom_map_some [] w []
  rw [List.append_nil] at hrun
  exact hrun.trans (ended_of_ne_nil h)

theorem flatten_wordsFrom (w : List α) (l : List (Option α)) :
    (wordsFrom w l).flatten = w ++ l.reduceOption := by
  induction l generalizing w with
  | nil => rw [wordsFrom, flatten_ended, List.reduceOption_nil, List.append_nil]
  | cons o l ih =>
    cases o with
    | none =>
      rw [wordsFrom, List.flatten_append, flatten_ended, ih, List.reduceOption_cons_of_none,
        List.nil_append]
    | some a =>
      rw [wordsFrom, ih, List.reduceOption_cons_of_some, List.append_assoc, List.singleton_append]

/-- No element is lost, repeated or moved. -/
theorem flatten_words (l : List (Option α)) : (words l).flatten = l.reduceOption :=
  flatten_wordsFrom [] l

theorem ne_nil_of_mem_ended {run w : List α} (h : w ∈ ended run) : w ≠ [] := by
  cases run with
  | nil => cases h
  | cons a run =>
    rw [List.mem_singleton.mp h]
    exact List.cons_ne_nil a run

theorem ne_nil_of_mem_wordsFrom {run : List α} {l : List (Option α)} {w : List α}
    (h : w ∈ wordsFrom run l) : w ≠ [] := by
  induction l generalizing run with
  | nil => exact ne_nil_of_mem_ended h
  | cons o l ih =>
    cases o with
    | none => exact (List.mem_append.mp h).elim ne_nil_of_mem_ended ih
    | some a => exact ih h

theorem flatMap_intercalate {β γ : Type} (f : β → List γ) (sep : List β) (ls : List (List β)) :
    (sep.intercalate ls).flatMap f = (sep.flatMap f).intercalate (ls.map (List.flatMap f)) := by
  induction ls with
  | nil => rfl
  | cons l ls ih =>
    cases ls with
    | nil => rw [List.intercalate_singleton, List.map_singleton, List.intercalate_singleton]
    | cons l' ls =>
      rw [List.intercalate_cons_cons, List.flatMap_append, List.flatMap_append, ih, List.map_cons,
        List.map_cons, List.map_cons, List.intercalate_cons_cons]

/-- The words of lists that are joined by marks. -/
theorem words_intercalate (ls : List (List (Option α))) :
    words ([none].intercalate ls) = ls.flatMap words := by
  induction ls with
  | nil => rfl
  | cons l ls ih =>
    cases ls with
    | nil => rw [List.intercalate_singleton, List.flatMap_cons, List.flatMap_nil, List.append_nil]
    | cons l' ls =>
      rw [List.intercalate_cons_cons, List.append_assoc, List.singleton_append, words_append_none,
        ih]
      rfl

/-- To split at some elements and to forget the empty parts. -/
theorem filter_splitOnP (p : α → Bool) (xs : List α) :
    (xs.splitOnP p).filter (fun w => !w.isEmpty) =
      words (xs.map fun a => if p a then none else some a) := by
  have hended : ∀ w : List α, [w].filter (fun w => !w.isEmpty) = ended w := by
    rintro (_ | ⟨a, w⟩) <;> rfl
  have hrun : ∀ run : List α, (xs.splitOnPPrepend p run).filter (fun w => !w.isEmpty) =
      wordsFrom run.reverse (xs.map fun a => if p a then none else some a) := by
    induction xs with
    | nil =>
      intro run
      rw [List.splitOnPPrepend_nil, hended]
      rfl
    | cons a xs ih =>
      intro run
      rw [List.splitOnPPrepend_cons_eq_if, List.map_cons]
      split
      · rw [← List.singleton_append, List.filter_append, hended, wordsFrom]
        exact congrArg (ended run.reverse ++ ·) (ih [])
      · rw [ih, wordsFrom, List.reverse_cons]
  exact hrun []

/-! ## Neighbours -/

/-- The elements `k` and `k + 1` are in one word. -/
def SameWord (ws : List (List α)) (k : Nat) : Prop :=
  ∃ before w after, ws = before ++ w :: after ∧ before.flatten.length ≤ k ∧
    k + 1 < before.flatten.length + w.length

theorem SameWord.append {ws : List (List α)} {k : Nat} (h : SameWord ws k)
    (before : List (List α)) :
    SameWord (before ++ ws) (before.flatten.length + k) := by
  obtain ⟨before', w, after, rfl, hle, hlt⟩ := h
  refine ⟨before ++ before', w, after, (List.append_assoc ..).symm, ?_, ?_⟩
  · rw [List.flatten_append, List.length_append]
    exact Nat.add_le_add_left hle _
  · rw [List.flatten_append, List.length_append, Nat.add_assoc, Nat.add_assoc]
    exact Nat.add_lt_add_left hlt _

/-- No word goes beyond the end of another one. -/
theorem not_sameWord_append (ws ws' : List (List α)) {k : Nat} (hk : ws.flatten.length = k + 1) :
    ¬ SameWord (ws ++ ws') k := by
  rintro ⟨before, w, after, heq, hle, hlt⟩
  rcases List.append_eq_append_iff.mp heq with ⟨rest, hbefore, -⟩ | ⟨rest, hws, hrest⟩
  · -- the words before reach at least to the end
    rw [hbefore, List.flatten_append, List.length_append, hk] at hle
    exact Nat.not_succ_le_self k (Nat.le_trans (Nat.le_add_right _ _) hle)
  · cases rest with
    | nil =>
      rw [hws, List.append_nil] at hk
      rw [hk] at hle
      exact Nat.not_succ_le_self k hle
    | cons w' rest =>
      obtain ⟨rfl, -⟩ := List.cons.inj hrest
      rw [hws, List.flatten_append, List.flatten_cons, List.length_append, List.length_append] at hk
      rw [← hk] at hlt
      exact Nat.not_lt.mpr (Nat.add_le_add_left (Nat.le_add_right _ _) _) hlt

/-- A run goes on with the elements up to the next mark, whatever is in it. -/
theorem exists_wordsFrom (l : List (Option α)) :
    ∃ x ws, ∀ run : List α, run ≠ [] → wordsFrom run l = (run ++ x) :: ws := by
  induction l with
  | nil => exact ⟨[], [], fun run h => by rw [wordsFrom, ended_of_ne_nil h, List.append_nil]⟩
  | cons o l ih =>
    cases o with
    | none =>
      refine ⟨[], words l, fun run h => ?_⟩
      rw [wordsFrom, ended_of_ne_nil h, List.append_nil]
      rfl
    | some a =>
      obtain ⟨x, ws, hrun⟩ := ih
      refine ⟨a :: x, ws, fun run _ => ?_⟩
      rw [wordsFrom, hrun _ (List.concat_ne_nil a run), List.append_assoc, List.singleton_append]

/-- Behind a list, some words have ended and one may go on. -/
theorem exists_closed (w : List α) (l : List (Option α)) :
    ∃ closed run, ∀ l', wordsFrom w (l ++ l') = closed ++ wordsFrom run l' := by
  induction l generalizing w with
  | nil => exact ⟨[], w, fun l' => rfl⟩
  | cons o l ih =>
    cases o with
    | none =>
      obtain ⟨closed, run, hclosed⟩ := ih []
      refine ⟨ended w ++ closed, run, fun l' => ?_⟩
      rw [List.cons_append, wordsFrom, hclosed, List.append_assoc]
    | some a => exact ih (w ++ [a])

/-- The words of a list, from what they are in front of any other one. -/
theorem wordsFrom_of_closed {w : List α} {l : List (Option α)} {closed : List (List α)}
    {run : List α} (h : ∀ l', wordsFrom w (l ++ l') = closed ++ wordsFrom run l') :
    wordsFrom w l = closed ++ ended run := by
  have hl := h []
  rwa [List.append_nil] at hl

/-- Elements with nothing between them are in one word. -/
theorem sameWord_words (l l' : List (Option α)) (a b : α) :
    SameWord (words (l ++ some a :: some b :: l')) l.reduceOption.length := by
  have hrun : ∀ run : List α, SameWord (wordsFrom run (l ++ some a :: some b :: l'))
      (run.length + l.reduceOption.length) := by
    induction l with
    | nil =>
      intro run
      obtain ⟨x, ws, hrun⟩ := exists_wordsFrom l'
      have heq := hrun (run ++ [a, b])
        (List.append_ne_nil_of_right_ne_nil run (List.cons_ne_nil a [b]))
      refine ⟨[], run ++ [a, b] ++ x, ws, ?_, Nat.zero_le _, ?_⟩
      · rw [List.nil_append, List.nil_append, wordsFrom, wordsFrom, List.append_assoc]
        exact heq
      · rw [List.length_append, List.length_append, List.flatten_nil, List.length_nil, Nat.zero_add]
        exact Nat.lt_add_right _ (Nat.lt_succ_self _)
    | cons o l ih =>
      intro run
      cases o with
      | none =>
        have h := (ih []).append (ended run)
        rwa [flatten_ended, List.length_nil, Nat.zero_add] at h
      | some c =>
        have h := ih (run ++ [c])
        rwa [List.length_append, List.length_singleton, Nat.add_assoc, Nat.add_comm 1] at h
  have h := hrun []
  rwa [List.length_nil, Nat.zero_add] at h

/-- Neighbours are in one word exactly if there is no mark between them. -/
theorem sameWord_words_iff (l l' : List (Option α)) (a b : α) {m : List (Option α)}
    (hm : ∀ o ∈ m, o = none) :
    SameWord (words (l ++ some a :: (m ++ some b :: l'))) l.reduceOption.length ↔ m = [] := by
  cases m with
  | nil => exact iff_of_true (sameWord_words l l' a b) rfl
  | cons o m =>
    obtain rfl := hm o (List.mem_cons_self ..)
    refine iff_of_false ?_ (List.cons_ne_nil _ _)
    rw [List.append_cons, List.cons_append, words_append_none]
    refine not_sameWord_append _ _ ?_
    rw [flatten_words, List.reduceOption_append, List.length_append, List.reduceOption_singleton]
    rfl

end Words
