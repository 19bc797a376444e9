import Mathlib.Data.List.Basic

/-!
# Lists with at most one terminator

A queue may hold a terminator, an element that satisfies `isEnd`; nothing is ever
put behind it. `EndsLast isEnd l` says that only the last element of `l` can be a
terminator.
-/

variable {α β : Type}

/-- Only the last element of `l` can satisfy `isEnd`. -/
def EndsLast (isEnd : α → Bool) (l : List α) : Prop := ∀ x ∈ l.dropLast, isEnd x = false

namespace EndsLast

variable {isEnd : α → Bool}

theorem nil : EndsLast isEnd [] := by simp [EndsLast]

theorem singleton (x : α) : EndsLast isEnd [x] := by simp [EndsLast]

/-- What may be appended to: a list without a terminator. -/
theorem concat {l : List α} (x : α) (h : ∀ y ∈ l, isEnd y = false) : EndsLast isEnd (l ++ [x]) := by
  simpa [EndsLast] using h

theorem of_forall {l : List α} (h : ∀ y ∈ l, isEnd y = false) : EndsLast isEnd l :=
  fun x hx => h x (List.dropLast_subset l hx)

theorem tail {x : α} {l : List α} (h : EndsLast isEnd (x :: l)) : EndsLast isEnd l := by
  cases l with
  | nil => exact nil
  | cons y l => exact fun z hz => h z (by simp [hz])

theorem append_right {l l' : List α} (h : EndsLast isEnd (l ++ l')) : EndsLast isEnd l' := by
  induction l with
  | nil => exact h
  | cons x l ih => exact ih h.tail

/-- Nothing stands behind a terminator. -/
theorem eq_nil_of_isEnd {x : α} {l : List α} (h : EndsLast isEnd (x :: l)) (hx : isEnd x = true) :
    l = [] := by
  cases l with
  | nil => rfl
  | cons y l =>
    have hfalse := h x (by simp)
    rw [hx] at hfalse
    cases hfalse

/-- A prefix without terminators does not matter. -/
theorem append_left {l l' : List α} (h : ∀ y ∈ l, isEnd y = false) (h' : EndsLast isEnd l') :
    EndsLast isEnd (l ++ l') := by
  cases l' with
  | nil => exact of_forall (by simpa using h)
  | cons y l' =>
    intro x hx
    rw [List.dropLast_append_of_ne_nil (by simp)] at hx
    rcases List.mem_append.mp hx with hx | hx
    · exact h x hx
    · exact h' x hx

theorem map {f : β → α} {l : List β} (h : EndsLast (isEnd ∘ f) l) : EndsLast isEnd (l.map f) := by
  intro x hx
  rw [List.dropLast_eq_take, ← List.map_take, List.length_map, ← List.dropLast_eq_take] at hx
  obtain ⟨y, hy, rfl⟩ := List.mem_map.mp hx
  exact h y hy

/-- At most one terminator. -/
theorem countP_le_one {l : List α} (h : EndsLast isEnd l) : l.countP isEnd ≤ 1 := by
  rcases List.eq_nil_or_concat l with rfl | ⟨init, last, rfl⟩
  · simp
  · rw [List.concat_eq_append] at *
    have hinit : init.countP isEnd = 0 := by
      rw [List.countP_eq_zero]
      intro x hx
      simpa using h x (by simpa using hx)
    rw [List.countP_append, hinit]
    exact Nat.le_trans (Nat.add_le_add_left List.countP_le_length 0) (by simp)

end EndsLast
