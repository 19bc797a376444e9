import Mathlib.Algebra.Order.Group.Nat
import Mathlib.Data.List.Count
import Mathlib.Data.List.Induction

/-!
# Ranks and selection

The elements of a list that satisfy a predicate are numbered from 0 on. The rank of an index is the
number of them in front of it, and the element with the number `k` is at the index that is selected
by `k`.

Results:
1. `selects_concat`: one more element.
2. `exists_selects`: every number below the count is that of an element.
3. `Selects.le_iff`: the indexes come in the order of the numbers.
-/

namespace RankSelect

variable {α : Type} (p : α → Bool)

/-- The number of the elements with `p` in front of the index `i`. -/
def rank (xs : List α) (i : Nat) : Nat := (xs.take i).countP p

/-- The element at the index `i` satisfies `p` and has the number `k`. -/
def Selects (xs : List α) (k i : Nat) : Prop :=
  (∃ x, xs[i]? = some x ∧ p x = true) ∧ rank p xs i = k

variable {p} {xs : List α} {k l i j : Nat}

theorem rank_mono (xs : List α) (h : i ≤ j) : rank p xs i ≤ rank p xs j :=
  (List.take_sublist_take_left h).countP_le

theorem Selects.lt_length (h : Selects p xs k i) : i < xs.length := by
  obtain ⟨⟨x, hx, -⟩, -⟩ := h
  exact (List.getElem?_eq_some_iff.mp hx).1

/-- Behind an element with `p` the rank is greater by one. -/
theorem Selects.rank_succ (h : Selects p xs k i) : rank p xs (i + 1) = k + 1 := by
  obtain ⟨⟨x, hx, hp⟩, rfl⟩ := h
  rw [rank, List.take_add_one, hx, List.countP_append, Option.toList_some,
    List.countP_cons_of_pos hp]
  rfl

/-- The number of an element is below the count. -/
theorem Selects.lt_countP (h : Selects p xs k i) : k < xs.countP p := by
  have hle : rank p xs (i + 1) ≤ xs.countP p := (List.take_sublist _ _).countP_le
  rw [h.rank_succ] at hle
  exact hle

/-- The indexes come in the order of the numbers. -/
theorem Selects.le_iff (hi : Selects p xs k i) (hj : Selects p xs l j) : i ≤ j ↔ k ≤ l := by
  constructor
  · intro hle
    rw [← hi.2, ← hj.2]
    exact rank_mono xs hle
  · intro hle
    by_contra hlt
    have hrank := rank_mono (p := p) xs (Nat.lt_of_not_le hlt)
    rw [hj.rank_succ, hi.2] at hrank
    exact Nat.not_succ_le_self l (hrank.trans hle)

theorem Selects.index_unique (hi : Selects p xs k i) (hj : Selects p xs k j) : i = j :=
  Nat.le_antisymm ((hi.le_iff hj).mpr le_rfl) ((hj.le_iff hi).mpr le_rfl)

/-- One more element. -/
theorem selects_concat (xs : List α) (x : α) (k i : Nat) :
    Selects p (xs ++ [x]) k i ↔
      Selects p xs k i ∨ p x = true ∧ k = xs.countP p ∧ i = xs.length := by
  unfold Selects rank
  rcases lt_trichotomy i xs.length with hlt | rfl | hgt
  · rw [List.getElem?_append_left hlt, List.take_append_of_le_length hlt.le]
    exact (or_iff_left fun h => hlt.ne h.2.2).symm
  · rw [List.getElem?_concat_length, List.take_left, List.take_length,
      List.getElem?_eq_none (Nat.le_refl xs.length)]
    simp only [Option.some.injEq, exists_eq_left', reduceCtorEq, false_and, exists_false,
      and_true, false_or]
    exact and_congr_right fun _ => eq_comm
  · have hlen : (xs ++ [x]).length ≤ i := by
      rw [List.length_append]
      exact hgt
    rw [List.getElem?_eq_none hlen, List.getElem?_eq_none hgt.le]
    simp only [reduceCtorEq, false_and, exists_false, false_or, hgt.ne', and_false]

/-- Every number below the count is that of an element. -/
theorem exists_selects (h : k < xs.countP p) : ∃ i, Selects p xs k i := by
  induction xs using List.reverseRecOn with
  | nil => exact absurd h (Nat.not_lt_zero k)
  | append_singleton xs x ih =>
    by_cases hk : k < xs.countP p
    · obtain ⟨i, hi⟩ := ih hk
      exact ⟨i, (selects_concat xs x k i).mpr (.inl hi)⟩
    · have hle : k ≤ xs.countP p ∧ p x = true := by
        rw [List.countP_append] at h
        cases hx : p x with
        | true =>
          rw [List.countP_cons_of_pos hx] at h
          exact ⟨Nat.le_of_lt_succ h, rfl⟩
        | false =>
          rw [List.countP_cons_of_neg (Bool.not_eq_true _ ▸ hx)] at h
          exact absurd h hk
      exact ⟨xs.length, (selects_concat xs x k _).mpr
        (.inr ⟨hle.2, Nat.le_antisymm hle.1 (Nat.not_lt.mp hk), rfl⟩)⟩

end RankSelect
