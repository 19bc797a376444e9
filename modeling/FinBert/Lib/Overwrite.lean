import Mathlib.Tactic.Common

/-!
# Overwriting a part of a list

`overwrite xs i ys` writes the elements of `ys` into `xs` one after another, from the index `i`
on. What would be written behind the end of `xs` is lost.
-/

variable {α : Type}

/-- `xs` with the elements of `ys` from the index `i` on. -/
def overwrite (xs : List α) (i : Nat) : List α → List α
  | [] => xs
  | y :: ys => overwrite (xs.set i y) (i + 1) ys

@[simp] theorem length_overwrite (xs : List α) (i : Nat) (ys : List α) :
    (overwrite xs i ys).length = xs.length := by
  induction ys generalizing xs i with
  | nil => rfl
  | cons y ys ih => rw [overwrite, ih, List.length_set]

/-- Writing two lists one after another. -/
theorem overwrite_append (xs : List α) (i : Nat) (ys zs : List α) :
    overwrite xs i (ys ++ zs) = overwrite (overwrite xs i ys) (i + ys.length) zs := by
  induction ys generalizing xs i with
  | nil => rfl
  | cons y ys ih =>
    rw [List.cons_append, overwrite, ih, overwrite, List.length_cons, Nat.add_assoc,
      Nat.add_comm 1]

/-- Outside of the part, nothing changes. -/
theorem getElem?_overwrite_of_outside {xs : List α} {i j : Nat} {ys : List α}
    (h : j < i ∨ i + ys.length ≤ j) : (overwrite xs i ys)[j]? = xs[j]? := by
  induction ys generalizing xs i with
  | nil => rfl
  | cons y ys ih =>
    rw [List.length_cons] at h
    rw [overwrite, ih (by omega), List.getElem?_set_ne (by omega)]

/-- Inside of the part, the elements are the ones of `ys`. -/
theorem getElem?_overwrite_inside {xs : List α} {i j : Nat} {ys : List α} (hj : j < ys.length)
    (h : i + j < xs.length) : (overwrite xs i ys)[i + j]? = ys[j]? := by
  induction ys generalizing xs i j with
  | nil => cases hj
  | cons y ys ih =>
    rw [List.length_cons] at hj
    rw [overwrite]
    cases j with
    | zero =>
      rw [getElem?_overwrite_of_outside (.inl (by omega)), Nat.add_zero,
        List.getElem?_set_self (by omega)]
      rfl
    | succ j =>
      rw [Nat.add_comm j 1, ← Nat.add_assoc,
        ih (by omega) (by rw [List.length_set]; omega), Nat.add_comm 1 j]
      rfl

/-- The part holds what was written. -/
theorem take_drop_overwrite {xs : List α} {i : Nat} {ys : List α}
    (h : i + ys.length ≤ xs.length) : ((overwrite xs i ys).drop i).take ys.length = ys := by
  refine List.ext_getElem? fun j => ?_
  rcases Nat.lt_or_ge j ys.length with hj | hj
  · rw [List.getElem?_take_of_lt hj, List.getElem?_drop,
      getElem?_overwrite_inside hj (by omega)]
  · rw [List.getElem?_take_eq_none hj, List.getElem?_eq_none hj]

/-- The part is the whole list. -/
theorem overwrite_zero {xs ys : List α} (h : ys.length = xs.length) : overwrite xs 0 ys = ys := by
  have hpart := take_drop_overwrite (i := 0) (Nat.le_of_eq ((Nat.zero_add _).trans h))
  rwa [List.drop_zero, h, ← length_overwrite xs 0 ys, List.take_length] at hpart

/-- Behind a list, the part is written into what follows it. -/
theorem overwrite_append_right (xs xs' : List α) (i : Nat) (ys : List α) :
    overwrite (xs ++ xs') (xs.length + i) ys = xs ++ overwrite xs' i ys := by
  induction ys generalizing xs' i with
  | nil => rfl
  | cons y ys ih =>
    rw [overwrite, overwrite, List.set_append_right _ _ (Nat.le_add_right _ _),
      Nat.add_sub_cancel_left, Nat.add_assoc, ih]

/-- A part that ends with the first list. -/
theorem overwrite_append_left {xs : List α} (xs' : List α) {i : Nat} {ys : List α}
    (h : i + ys.length ≤ xs.length) : overwrite (xs ++ xs') i ys = overwrite xs i ys ++ xs' := by
  induction ys generalizing xs i with
  | nil => rfl
  | cons y ys ih =>
    rw [List.length_cons] at h
    rw [overwrite, overwrite, List.set_append_left _ _ (by omega),
      ih (by rw [List.length_set]; omega)]
