import Mathlib.Data.List.Sort

/-!
# Sets that are ordered by `std::greater`

`std::set<α, std::greater<α>>` as the list of its elements from the greatest one on.

Results:
1. `mem_insert`, `pairwise_insert`: an insertion adds one element.
2. `mem_take_iff`: the first elements are the greatest ones.
-/

namespace DescendingSet

variable {α : Type} [LinearOrder α]

/-- `insert`. -/
def insert (x : α) (xs : List α) : List α := if x ∈ xs then xs else xs.orderedInsert (· ≥ ·) x

theorem mem_insert {x y : α} {xs : List α} : y ∈ insert x xs ↔ y = x ∨ y ∈ xs := by
  unfold insert
  split
  · next hmem => exact ⟨.inr, fun h => h.elim (fun heq => heq ▸ hmem) id⟩
  · exact List.mem_orderedInsert (· ≥ ·)

theorem pairwise_insert (x : α) {xs : List α} (h : xs.Pairwise (· > ·)) :
    (insert x xs).Pairwise (· > ·) := by
  unfold insert
  split
  · exact h
  · next hnew =>
    have hge : (xs.orderedInsert (· ≥ ·) x).Pairwise (· ≥ ·) :=
      List.Pairwise.orderedInsert x xs (h.imp fun hgt => hgt.le)
    have hnodup : (xs.orderedInsert (· ≥ ·) x).Nodup :=
      (List.perm_orderedInsert (· ≥ ·) x xs).nodup_iff.mpr
        (List.nodup_cons.mpr ⟨hnew, h.imp fun hgt => hgt.ne'⟩)
    exact (hge.and hnodup).imp fun ⟨hle, hne⟩ => lt_of_le_of_ne hle hne.symm

/-- The first `n` elements are the ones with less than `n` greater ones. -/
theorem mem_take_iff {x : α} {xs : List α} (h : xs.Pairwise (· > ·)) (n : Nat) :
    x ∈ xs.take n ↔ x ∈ xs ∧ xs.countP (fun y => decide (x < y)) < n := by
  induction xs generalizing n with
  | nil =>
    rw [List.take_nil]
    exact iff_of_false List.not_mem_nil fun h => List.not_mem_nil h.1
  | cons y xs ih =>
    obtain ⟨hy, hxs⟩ := List.pairwise_cons.mp h
    cases n with
    | zero => exact iff_of_false List.not_mem_nil fun h => Nat.not_lt_zero _ h.2
    | succ n =>
      rw [List.take_succ_cons, List.mem_cons, List.mem_cons, ih hxs, List.countP_cons]
      by_cases hmem : x ∈ xs
      · rw [if_pos (decide_eq_true (hy x hmem)), Nat.add_lt_add_iff_right]
        exact ⟨fun h => ⟨.inr hmem, h.elim (fun heq => absurd (hy x hmem) (heq ▸ lt_irrefl x))
          And.right⟩, fun h => .inr ⟨hmem, h.2⟩⟩
      · refine ⟨fun h => ?_, fun h => .inl (h.1.resolve_right hmem)⟩
        obtain rfl := h.resolve_right fun h => hmem h.1
        have hnone : xs.countP (fun y => decide (x < y)) = 0 :=
          List.countP_eq_zero.mpr fun y hmem hlt =>
            absurd (of_decide_eq_true hlt) (hy y hmem).not_gt
        rw [hnone, if_neg (by rw [decide_eq_true_eq]; exact lt_irrefl x)]
        exact ⟨.inl rfl, Nat.succ_pos n⟩

end DescendingSet
