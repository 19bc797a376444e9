import Mathlib.Data.List.Infix
import Mathlib.Tactic.Common

/-!
# Elements of one key stand together

A list is `Grouped` by a key when no other element stands between two elements of the same key:
the key of the last element can be repeated, and every other key of the list is over.

Result: `Grouped.foldl_eq`: a fold that starts anew at the first element of every key has, behind
each element, the value that it has on the elements of that key alone.
-/

variable {α κ σ : Type}

/-- An element is put behind one of its own key, or it is the first one of its key. -/
inductive Grouped (key : α → κ) : List α → Prop
  | nil : Grouped key []
  | first {l : List α} {x : α} : Grouped key l → (∀ y ∈ l, key y ≠ key x) → Grouped key (l ++ [x])
  | next {l : List α} {x y : α} : Grouped key (l ++ [x]) → key y = key x →
      Grouped key (l ++ [x] ++ [y])

namespace Grouped

variable {key : α → κ} {l l' : List α} {x : α}

/-- One more element, by what the list has before it. -/
theorem snoc (h : Grouped key l)
    (hx : (∃ y, l.getLast? = some y ∧ key y = key x) ∨ ∀ y ∈ l, key y ≠ key x) :
    Grouped key (l ++ [x]) := by
  rcases hx with ⟨y, hlast, hkey⟩ | hnew
  · obtain ⟨l', rfl⟩ := List.getLast?_eq_some_iff.mp hlast
    exact .next h hkey.symm
  · exact .first h hnew

theorem of_snoc (h : Grouped key (l ++ [x])) : Grouped key l ∧
    ((∃ y, l.getLast? = some y ∧ key y = key x) ∨ ∀ y ∈ l, key y ≠ key x) := by
  generalize hl : l ++ [x] = l₁ at h
  cases h with
  | nil => exact absurd hl (by simp)
  | first h hnew =>
    obtain ⟨rfl, hx⟩ := List.append_inj' hl rfl
    obtain rfl := List.singleton_inj.mp hx
    exact ⟨h, .inr hnew⟩
  | next h hkey =>
    obtain ⟨rfl, hx⟩ := List.append_inj' hl rfl
    obtain rfl := List.singleton_inj.mp hx
    exact ⟨h, .inl ⟨_, List.getLast?_append_of_ne_nil _ (List.cons_ne_nil _ _), hkey.symm⟩⟩

theorem of_initial (h : Grouped key l') (hl : l <+: l') : Grouped key l := by
  induction l' using List.reverseRecOn with
  | nil =>
    obtain rfl := List.prefix_nil.mp hl
    exact h
  | append_singleton l' x ih =>
    rcases List.prefix_concat_iff.mp hl with rfl | hl
    · exact h
    · exact ih h.of_snoc.1 hl

variable [DecidableEq κ]

/-- A fold that starts anew at the first element of every key. -/
theorem foldl_eq {f : σ → α → σ} (h : Grouped key (l ++ [x]))
    (hfirst : ∀ before y after, l ++ [x] = before ++ y :: after →
      (∀ z ∈ before, key z ≠ key y) → ∀ s s', f s y = f s' y) (s : σ) :
    (l ++ [x]).foldl f s = ((l ++ [x]).filter fun y => key y = key x).foldl f s := by
  generalize hl : l ++ [x] = l₁ at h
  induction h generalizing l x with
  | nil => rfl
  | @first l₁ x₁ _ hnew =>
    obtain ⟨rfl, hx⟩ := List.append_inj' hl rfl
    obtain rfl := List.singleton_inj.mp hx
    have hnone : (l.filter fun y => key y = key x) = [] :=
      List.filter_eq_nil_iff.mpr fun y hy => by simpa using hnew y hy
    rw [List.filter_append, hnone, List.foldl_append]
    simp only [List.filter_cons, decide_true, if_true, List.filter_nil, List.nil_append,
      List.foldl_cons, List.foldl_nil]
    exact hfirst l x [] rfl hnew _ _
  | @next l₁ z x₁ _ hkey ih =>
    obtain ⟨rfl, hx⟩ := List.append_inj' hl rfl
    obtain rfl := List.singleton_inj.mp hx
    have hprev := ih (l := l₁) (x := z) (fun before y after heq hnew =>
      hfirst before y (after ++ [x]) (by rw [heq, List.append_assoc, List.cons_append]) hnew) rfl
    rw [List.foldl_append (l := l₁ ++ [z]), hprev, List.filter_append (l₁ ++ [z]),
      List.foldl_append]
    simp only [hkey, List.filter_cons, decide_true, if_true, List.filter_nil]

end Grouped
