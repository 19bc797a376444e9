import Mathlib.Data.List.Induction

/-!
# Segments between separators

A list that is cut at every separator, without the empty pieces, and where its last segment is.

Results:
1. `segments_append_cons`: a list is cut at a separator.
2. `exists_lastSegment`: a list has only separators, or a last segment.
-/

namespace FinBert.Lib

variable {α : Type} [DecidableEq α] {sep : α} {xs ys seg : List α}

/-- The nonempty pieces between the separators. -/
def segments (sep : α) (xs : List α) : List (List α) :=
  (xs.splitOnP (· == sep)).filter (!·.isEmpty)

/-- A piece that is not empty and has no separator. -/
structure IsSegment (sep : α) (seg : List α) : Prop where
  ne_nil : seg ≠ []
  notMem : sep ∉ seg

/-- What stands before the last segment: nothing, or a list and a separator. -/
def lead (sep : α) : Option (List α) → List α
  | none => []
  | some dir => dir ++ [sep]

@[simp] theorem segments_nil : segments sep [] = [] := rfl

/-- A list is cut at a separator. -/
theorem segments_append_cons (xs ys : List α) :
    segments sep (xs ++ sep :: ys) = segments sep xs ++ segments sep ys := by
  unfold segments
  rw [List.splitOnP_append_cons (p := (· == sep)) xs ys (beq_self_eq_true sep),
    List.filter_append]

@[simp] theorem segments_cons (ys : List α) : segments sep (sep :: ys) = segments sep ys :=
  segments_append_cons [] ys

theorem segments_append_singleton (xs : List α) : segments sep (xs ++ [sep]) = segments sep xs := by
  rw [segments_append_cons, segments_nil, List.append_nil]

/-- A list that ends with a separator is cut at its end. -/
theorem segments_append_of_getLast (h : xs.getLast? = some sep) (ys : List α) :
    segments sep (xs ++ ys) = segments sep xs ++ segments sep ys := by
  obtain ⟨front, rfl⟩ := List.getLast?_eq_some_iff.mp h
  rw [List.append_assoc, List.singleton_append, segments_append_cons, segments_append_singleton]

theorem segments_append_replicate (xs : List α) (k : Nat) :
    segments sep (xs ++ List.replicate k sep) = segments sep xs := by
  induction k with
  | zero => rw [List.replicate_zero, List.append_nil]
  | succ k ih => rw [List.replicate_succ', ← List.append_assoc, segments_append_singleton, ih]

@[simp] theorem segments_replicate (k : Nat) : segments sep (List.replicate k sep) = [] :=
  segments_append_replicate [] k

theorem IsSegment.segments (h : IsSegment sep seg) : segments sep seg = [seg] := by
  have hcut : seg.splitOnP (· == sep) = [seg] := List.splitOnP_eq_singleton fun x hx =>
    beq_eq_false_iff_ne.mpr (ne_of_mem_of_not_mem hx h.notMem)
  rw [Lib.segments, hcut]
  exact List.filter_cons_of_pos (by simpa using h.ne_nil)

/-- What stands before a segment is cut off from it. -/
theorem segments_lead_append (dir : Option (List α)) (h : IsSegment sep seg) :
    segments sep (lead sep dir ++ seg) = segments sep (dir.getD []) ++ [seg] := by
  cases dir with
  | none => exact h.segments
  | some dir =>
    rw [lead, List.append_assoc, List.singleton_append, segments_append_cons, h.segments]
    rfl

/-- A list has only separators, or a last segment. -/
theorem exists_lastSegment (sep : α) (xs : List α) :
    (∃ k, xs = List.replicate k sep) ∨
      ∃ dir seg k, IsSegment sep seg ∧ xs = lead sep dir ++ seg ++ List.replicate k sep := by
  induction xs using List.reverseRecOn with
  | nil => exact .inl ⟨0, rfl⟩
  | append_singleton ys y ih =>
    by_cases hy : y = sep
    · subst hy
      obtain ⟨k, rfl⟩ | ⟨dir, seg, k, hseg, rfl⟩ := ih
      · exact .inl ⟨k + 1, List.replicate_succ'.symm⟩
      · refine .inr ⟨dir, seg, k + 1, hseg, ?_⟩
        rw [List.replicate_succ', ← List.append_assoc]
    · have hsingle : IsSegment sep [y] :=
        ⟨List.cons_ne_nil _ _, fun h => hy (List.mem_singleton.mp h).symm⟩
      obtain ⟨k, rfl⟩ | ⟨dir, seg, k, hseg, rfl⟩ := ih
      · cases k with
        | zero => exact .inr ⟨none, [y], 0, hsingle, rfl⟩
        | succ k =>
          refine .inr ⟨some (List.replicate k sep), [y], 0, hsingle, ?_⟩
          rw [List.replicate_succ', lead, List.replicate_zero, List.append_nil]
      · cases k with
        | zero =>
          -- the list goes on with its last segment
          refine .inr ⟨dir, seg ++ [y], 0, ⟨?_, ?_⟩, ?_⟩
          · exact List.append_ne_nil_of_right_ne_nil _ (List.cons_ne_nil _ _)
          · exact fun h => (List.mem_append.mp h).elim hseg.notMem hsingle.notMem
          · rw [List.replicate_zero, List.append_nil, List.append_nil, List.append_assoc]
        | succ k =>
          refine .inr ⟨some (lead sep dir ++ seg ++ List.replicate k sep), [y], 0, hsingle, ?_⟩
          rw [List.replicate_succ', lead, List.replicate_zero, List.append_nil,
            ← List.append_assoc]

end FinBert.Lib
