import Mathlib.Algebra.BigOperators.Group.List.Basic
import Mathlib.Algebra.Order.Group.Nat
import Mathlib.Algebra.Order.BigOperators.Group.List
import Mathlib.Algebra.Ring.Nat

/-!
# Consecutive slices of a list

`slices sizes xs` cuts `xs` from the front into consecutive slices of the given sizes. A
slice is shorter when `xs` ends before it.

Results:
1. `getElem?_slices`, `flatten_slices`: each slice, and all of them together.
2. `nil_mem_slices`: more slices than elements leave one empty.
-/

variable {α : Type}

/-- The consecutive slices of `xs`. -/
def slices : List Nat → List α → List (List α)
  | [], _ => []
  | size :: sizes, xs => xs.take size :: slices sizes (xs.drop size)

@[simp] theorem length_slices (sizes : List Nat) (xs : List α) :
    (slices sizes xs).length = sizes.length := by
  induction sizes generalizing xs with
  | nil => rfl
  | cons size sizes ih => rw [slices, List.length_cons, ih, List.length_cons]

/-- One of the slices. -/
theorem getElem?_slices (sizes : List Nat) (xs : List α) (k : Nat) :
    (slices sizes xs)[k]? = sizes[k]?.map fun size => (xs.drop (sizes.take k).sum).take size := by
  induction sizes generalizing xs k with
  | nil => rfl
  | cons size sizes ih =>
    cases k with
    | zero => rfl
    | succ k =>
      rw [slices, List.getElem?_cons_succ, ih, List.getElem?_cons_succ]
      simp only [List.drop_drop, List.take_succ_cons, List.sum_cons]

theorem take_slices (sizes : List Nat) (xs : List α) (k : Nat) :
    (slices sizes xs).take k = slices (sizes.take k) xs := by
  induction sizes generalizing xs k with
  | nil => rw [List.take_nil, slices, List.take_nil]
  | cons size sizes ih =>
    cases k with
    | zero => rfl
    | succ k => rw [slices, List.take_succ_cons, ih, List.take_succ_cons, slices]

/-- The slices together. -/
theorem flatten_slices (sizes : List Nat) (xs : List α) :
    (slices sizes xs).flatten = xs.take sizes.sum := by
  induction sizes generalizing xs with
  | nil => exact List.take_zero.symm
  | cons size sizes ih => rw [slices, List.flatten_cons, ih, List.sum_cons, List.take_add]

/-- Slices of a list that is long enough have their sizes. -/
theorem map_length_slices {sizes : List Nat} {xs : List α} (h : sizes.sum ≤ xs.length) :
    (slices sizes xs).map List.length = sizes := by
  induction sizes generalizing xs with
  | nil => rfl
  | cons size sizes ih =>
    rw [List.sum_cons] at h
    rw [slices, List.map_cons, List.length_take_of_le (Nat.le_of_add_right_le h), ih]
    rw [List.length_drop]
    exact Nat.le_sub_of_add_le' h

theorem length_le_sum_of_pos {sizes : List Nat} (h : ∀ size ∈ sizes, 0 < size) :
    sizes.length ≤ sizes.sum := by
  induction sizes with
  | nil => exact Nat.le_refl 0
  | cons size sizes ih =>
    rw [List.forall_mem_cons] at h
    rw [List.length_cons, List.sum_cons, Nat.add_comm]
    exact Nat.add_le_add h.1 (ih h.2)

/-- More slices than elements leave one empty. -/
theorem nil_mem_slices {sizes : List Nat} {xs : List α} (h : xs.length < sizes.length) :
    [] ∈ slices sizes xs := by
  by_contra hnil
  have hpos : ∀ n ∈ (slices sizes xs).map List.length, 0 < n := by
    intro n hn
    obtain ⟨slice, hslice, rfl⟩ := List.mem_map.mp hn
    exact List.length_pos_of_ne_nil fun heq => hnil (heq ▸ hslice)
  have hle := length_le_sum_of_pos hpos
  rw [List.length_map, length_slices, ← List.length_flatten, flatten_slices] at hle
  exact absurd (hle.trans (List.length_take_le' _ _)) (Nat.not_le_of_lt h)
