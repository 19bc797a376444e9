import Mathlib.Order.Defs.LinearOrder
import Mathlib.Order.Lattice

/-!
# The scan for the best element

A loop over a list that keeps the score and the index of the best element so far. An element
without a score is skipped, and one with the score of the best one so far does not replace it.

Results:
1. `isBest_bestFrom`: the scan ends with an element that has the greatest score of all.
-/

namespace FirstBest

variable {α β : Type} [LinearOrder β]

/-- The best element so far, behind an element at the index `i`. -/
def better (score : Option β) (i : Nat) (best : Option (β × Nat)) : Option (β × Nat) :=
  match score with
  | none => best
  | some s =>
    match best with
    | none => some (s, i)
    | some (bestScore, j) => if s > bestScore then some (s, i) else some (bestScore, j)

/-- The scan, from the index `i` on. -/
def bestFrom (score : α → Option β) : List α → Nat → Option (β × Nat) → Option (β × Nat)
  | [], _, best => best
  | x :: xs, i, best => bestFrom score xs (i + 1) (better (score x) i best)

/-- No element has a score, or this one has the greatest score. -/
def IsBest (score : α → Option β) (xs : List α) : Option (β × Nat) → Prop
  | none => ∀ x ∈ xs, score x = none
  | some (s, j) => (∃ x, xs[j]? = some x ∧ score x = some s) ∧
      ∀ x ∈ xs, ∀ s', score x = some s' → s' ≤ s

variable {score : α → Option β}

theorem le_of_score_eq {x : α} {s : β} (hscore : score x = some s) :
    ∀ s', score x = some s' → s' ≤ s :=
  fun _ hs' => (Option.some.inj (hs'.symm.trans hscore)).le

/-- One more element. -/
theorem isBest_better {xs : List α} {best : Option (β × Nat)} (h : IsBest score xs best) (x : α) :
    IsBest score (xs ++ [x]) (better (score x) xs.length best) := by
  have hlast : (xs ++ [x])[xs.length]? = some x := List.getElem?_concat_length
  have hstays : ∀ {s j}, (∃ y, xs[j]? = some y ∧ score y = some s) →
      ∃ y, (xs ++ [x])[j]? = some y ∧ score y = some s := fun ⟨y, hj, hy⟩ =>
    ⟨y, (List.getElem?_append_left (List.getElem?_eq_some_iff.mp hj).1).trans hj, hy⟩
  cases hscore : score x with
  | none =>
    have hnone : ∀ s' s : β, score x = some s' → s' ≤ s := fun s' s hs' => by
      rw [hscore] at hs'
      cases hs'
    match best with
    | none => exact List.forall_mem_append.mpr ⟨h, List.forall_mem_singleton.mpr hscore⟩
    | some (s, j) =>
      exact ⟨hstays h.1, List.forall_mem_append.mpr
        ⟨h.2, List.forall_mem_singleton.mpr fun s' => hnone s' s⟩⟩
  | some s =>
    have hself := le_of_score_eq hscore
    match best with
    | none =>
      refine ⟨⟨x, hlast, hscore⟩, List.forall_mem_append.mpr
        ⟨fun y hy s' hs' => ?_, List.forall_mem_singleton.mpr hself⟩⟩
      rw [h y hy] at hs'
      cases hs'
    | some (bestScore, j) =>
      unfold better
      dsimp only
      split
      · next hgt =>
        exact ⟨⟨x, hlast, hscore⟩, List.forall_mem_append.mpr
          ⟨fun y hy s' hs' => (h.2 y hy s' hs').trans hgt.le,
            List.forall_mem_singleton.mpr hself⟩⟩
      · next hle =>
        exact ⟨hstays h.1, List.forall_mem_append.mpr ⟨h.2, List.forall_mem_singleton.mpr
          fun s' hs' => (hself s' hs').trans (not_lt.mp hle)⟩⟩

/-- The scan goes on from the best element so far. -/
theorem isBest_bestFrom {before : List α} {best : Option (β × Nat)} (h : IsBest score before best)
    (xs : List α) : IsBest score (before ++ xs) (bestFrom score xs before.length best) := by
  induction xs generalizing before best with
  | nil => rwa [List.append_nil]
  | cons x xs ih =>
    have hnext := ih (isBest_better h x)
    rwa [List.append_assoc, List.length_append] at hnext

end FirstBest
