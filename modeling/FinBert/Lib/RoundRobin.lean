import Mathlib.Data.List.Basic
import Mathlib.Tactic.Common

/-!
# Dealing a list out

The elements of a list go to `n` piles in turn, the first one to pile 0.

Results:
1. `everyNth_concat`: what one more element does to a pile.
2. `deal_concat`: what it does to the piles.
-/

namespace RoundRobin

variable {α : Type}

/-- The elements at the positions that leave the remainder `j`, in order. -/
def everyNth (n j : Nat) (xs : List α) : List α :=
  (xs.zipIdx.filter fun p => p.2 % n == j).map (·.1)

/-- The `n` piles. -/
def deal (n : Nat) (xs : List α) : List (List α) := (List.range n).map fun j => everyNth n j xs

example : deal 2 ['a', 'b', 'c'] = [['a', 'c'], ['b']] := by decide

theorem everyNth_concat (n j : Nat) (xs : List α) (x : α) :
    everyNth n j (xs ++ [x]) =
      if xs.length % n = j then everyNth n j xs ++ [x] else everyNth n j xs := by
  unfold everyNth
  rw [List.zipIdx_append, List.filter_append, List.map_append, Nat.zero_add, List.zipIdx_singleton,
    List.filter_singleton]
  split
  · next h => rw [h, beq_self_eq_true, cond_true, List.map_singleton]
  · next h => rw [beq_eq_false_iff_ne.mpr h, cond_false, List.map_nil, List.append_nil]

theorem length_deal (n : Nat) (xs : List α) : (deal n xs).length = n := by
  unfold deal
  rw [List.length_map, List.length_range]

theorem getElem?_deal {n j : Nat} (h : j < n) (xs : List α) :
    (deal n xs)[j]? = some (everyNth n j xs) := by
  unfold deal
  rw [List.getElem?_map, List.getElem?_range h, Option.map_some]

theorem deal_nil (n : Nat) : deal n ([] : List α) = List.replicate n [] := by
  show (List.range n).map (fun _ => []) = _
  rw [List.map_const', List.length_range]

/-- One more element changes the pile whose turn it is. -/
theorem deal_concat (n : Nat) (xs : List α) (x : α) :
    (deal n xs).set (xs.length % n) (everyNth n (xs.length % n) xs ++ [x]) =
      deal n (xs ++ [x]) := by
  refine List.ext_getElem? fun j => ?_
  rcases Nat.lt_or_ge j n with hj | hj
  · rw [getElem?_deal hj, everyNth_concat, List.getElem?_set]
    split
    · next heq =>
      subst heq
      rw [if_pos (by rwa [length_deal])]
    · exact getElem?_deal hj xs
  · rw [List.getElem?_eq_none (by rwa [List.length_set, length_deal]),
      List.getElem?_eq_none (by rwa [length_deal])]

end RoundRobin
