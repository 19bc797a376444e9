import Mathlib.Data.List.Basic
import Mathlib.Data.List.Nodup
import Mathlib.Logic.Function.Basic

/-!
# Queues that are collected under a key

A list of queues, each behind an address, in the order in which they will be taken. While a queue is
collected it is attached to the key of its elements; the element that ends it detaches it, and it
stays in the list. A queue that is taken off the front is detached as well.

Results:
1. `Inv.append`, `Inv.start`, `Inv.pop`: each operation keeps the invariant.
2. `Inv.attached_last`: a queue whose last element does not end it is attached to the key of that
   element.
-/

structure KeyedQueues (κ α : Type) where
  attached : κ → Option Nat
  queues : List Nat
  contents : Nat → List α
  next : Nat

namespace KeyedQueues

variable {κ α : Type}

/-- The queues are distinct and nonempty; an attached one holds elements of its key, of which none
is an end, and one that is not attached has its end in the last place. -/
structure Inv (key : α → κ) (isEnd : α → Bool) (t : KeyedQueues κ α) : Prop where
  nodup : t.queues.Nodup
  bound : ∀ q ∈ t.queues, q < t.next
  listed : ∀ k q, t.attached k = some q → q ∈ t.queues
  own : ∀ k q, t.attached k = some q → ∀ x ∈ t.contents q, key x = k ∧ isEnd x = false
  nonempty : ∀ q ∈ t.queues, t.contents q ≠ []
  ended : ∀ q ∈ t.queues, (∀ k, t.attached k ≠ some q) →
    ∃ last, (t.contents q).getLast? = some last ∧ isEnd last = true

section
variable {key : α → κ} {isEnd : α → Bool} {t : KeyedQueues κ α}

/-- A queue is attached to one key at most. -/
theorem Inv.injective (h : Inv key isEnd t) {k k' : κ} {q : Nat} (hk : t.attached k = some q)
    (hk' : t.attached k' = some q) : k = k' := by
  obtain ⟨x, hx⟩ := List.exists_mem_of_ne_nil _ (h.nonempty q (h.listed k q hk))
  exact ((h.own k q hk x hx).1).symm.trans (h.own k' q hk' x hx).1

/-- A queue whose last element does not end it is attached. -/
theorem Inv.attached_last (h : Inv key isEnd t) {q : Nat} (hq : q ∈ t.queues) {last : α}
    (hlast : (t.contents q).getLast? = some last) (hopen : isEnd last = false) :
    t.attached (key last) = some q := by
  by_cases hattached : ∃ k, t.attached k = some q
  · obtain ⟨k, hk⟩ := hattached
    exact (h.own k q hk last (List.mem_of_getLast? hlast)).1 ▸ hk
  · obtain ⟨last', hlast', hend⟩ := h.ended q hq fun k hk => hattached ⟨k, hk⟩
    rw [Option.some.inj (hlast.symm.trans hlast'), hend] at hopen
    cases hopen

end

section
variable [DecidableEq κ] (key : α → κ) (isEnd : α → Bool)

/-- One more element of a queue. -/
def append (t : KeyedQueues κ α) (q : Nat) (x : α) : KeyedQueues κ α :=
  { t with
    attached := if isEnd x then Function.update t.attached (key x) none else t.attached
    contents := Function.update t.contents q (t.contents q ++ [x]) }

/-- A new queue. -/
def start (t : KeyedQueues κ α) (x : α) : KeyedQueues κ α where
  attached := if isEnd x then t.attached else Function.update t.attached (key x) (some t.next)
  queues := t.queues ++ [t.next]
  contents := Function.update t.contents t.next [x]
  next := t.next + 1

/-- The queue at the front, whose last element is `last`, is taken. -/
def pop (t : KeyedQueues κ α) (q : Nat) (rest : List Nat) (last : α) : KeyedQueues κ α :=
  { t with
    attached := if isEnd last then t.attached else Function.update t.attached (key last) none
    queues := rest
    contents := Function.update t.contents q [] }

end

variable [DecidableEq κ] {key : α → κ} {isEnd : α → Bool} {t : KeyedQueues κ α}

/-- The queues that are still attached when one is detached. -/
theorem Inv.detach_iff (h : Inv key isEnd t) {k₀ : κ} {q : Nat} (hq : t.attached k₀ = some q)
    (k : κ) (q' : Nat) :
    Function.update t.attached k₀ none k = some q' ↔ t.attached k = some q' ∧ q' ≠ q := by
  rw [Function.update_apply]
  split
  · next heq =>
    subst heq
    refine iff_of_false (fun hnone => by cases hnone) fun ⟨hk, hne⟩ => ?_
    exact hne (Option.some.inj (hk.symm.trans hq))
  · next hne =>
    refine ⟨fun hk => ⟨hk, ?_⟩, And.left⟩
    rintro rfl
    exact hne (h.injective hk hq)

theorem Inv.append (h : Inv key isEnd t) {q : Nat} {x : α} (hq : t.attached (key x) = some q) :
    Inv key isEnd (t.append key isEnd q x) := by
  have hnonempty : ∀ q' ∈ t.queues,
      Function.update t.contents q (t.contents q ++ [x]) q' ≠ [] := by
    intro q' hmem
    rw [Function.update_apply]
    split
    · exact List.concat_ne_nil x _
    · exact h.nonempty q' hmem
  cases hend : isEnd x with
  | true =>
    have hattached : ∀ k q', (t.append key isEnd q x).attached k = some q' ↔
        t.attached k = some q' ∧ q' ≠ q := by
      simp only [KeyedQueues.append, hend, if_true]
      exact h.detach_iff hq
    refine ⟨h.nodup, h.bound, fun k q' hk => h.listed k q' ((hattached k q').mp hk).1,
      fun k q' hk y hy => ?_, hnonempty, fun q' hmem hnone => ?_⟩
    · obtain ⟨hk, hne⟩ := (hattached k q').mp hk
      simp only [KeyedQueues.append, Function.update_of_ne hne] at hy
      exact h.own k q' hk y hy
    · simp only [KeyedQueues.append, Function.update_apply]
      split
      · exact ⟨x, List.getLast?_concat, hend⟩
      · next hne => exact h.ended q' hmem fun k hk => hnone k ((hattached k q').mpr ⟨hk, hne⟩)
  | false =>
    have hattached : (t.append key isEnd q x).attached = t.attached := by
      simp only [KeyedQueues.append, hend, Bool.false_eq_true, if_false]
    refine ⟨h.nodup, h.bound, ?_, fun k q' hk y hy => ?_, hnonempty, fun q' hmem hnone => ?_⟩
    · rw [hattached]
      exact h.listed
    · rw [hattached] at hk
      simp only [KeyedQueues.append, Function.update_apply] at hy
      split at hy
      · next heq =>
        subst heq
        rcases List.mem_append.mp hy with hy | hy
        · exact h.own k q' hk y hy
        · rw [List.mem_singleton.mp hy]
          exact ⟨h.injective hq hk, hend⟩
      · exact h.own k q' hk y hy
    · rw [hattached] at hnone
      have hne : q' ≠ q := by
        rintro rfl
        exact hnone _ hq
      simp only [KeyedQueues.append, Function.update_of_ne hne]
      exact h.ended q' hmem hnone

theorem Inv.start (h : Inv key isEnd t) {x : α} (hnone : t.attached (key x) = none) :
    Inv key isEnd (t.start key isEnd x) := by
  have hfresh : ∀ q ∈ t.queues, q ≠ t.next := fun q hq => Nat.ne_of_lt (h.bound q hq)
  have hattached : ∀ k q, (t.start key isEnd x).attached k = some q ↔
      t.attached k = some q ∨ k = key x ∧ q = t.next ∧ isEnd x = false := by
    intro k q
    simp only [KeyedQueues.start]
    cases hend : isEnd x with
    | true => simp
    | false =>
      rw [if_neg Bool.false_ne_true, Function.update_apply]
      split
      · next heq =>
        subst heq
        simp [hnone, eq_comm]
      · next hne => simp [hne]
  refine ⟨?_, fun q hq => ?_, fun k q hk => ?_, fun k q hk y hy => ?_, fun q hq => ?_,
    fun q hq hdetached => ?_⟩
  · exact List.nodup_append.mpr ⟨h.nodup, List.nodup_singleton _, fun q hq q' hq' =>
      List.mem_singleton.mp hq' ▸ hfresh q hq⟩
  · rcases List.mem_append.mp hq with hq | hq
    · exact Nat.lt_succ_of_lt (h.bound q hq)
    · exact List.mem_singleton.mp hq ▸ Nat.lt_succ_self _
  · rcases (hattached k q).mp hk with hk | ⟨-, rfl, -⟩
    · exact List.mem_append_left _ (h.listed k q hk)
    · exact List.mem_append_right _ (List.mem_singleton_self _)
  · rcases (hattached k q).mp hk with hk | ⟨rfl, rfl, hend⟩
    · simp only [KeyedQueues.start, Function.update_of_ne (hfresh q (h.listed k q hk))] at hy
      exact h.own k q hk y hy
    · simp only [KeyedQueues.start, Function.update_self] at hy
      rw [List.mem_singleton.mp hy]
      exact ⟨rfl, hend⟩
  · simp only [KeyedQueues.start, Function.update_apply]
    split
    · exact List.cons_ne_nil _ _
    · next hne =>
      exact h.nonempty q ((List.mem_append.mp hq).resolve_right fun hq =>
        hne (List.mem_singleton.mp hq))
  · simp only [KeyedQueues.start, Function.update_apply]
    split
    · next heq =>
      refine ⟨x, rfl, ?_⟩
      by_contra hopen
      exact hdetached (key x) ((hattached _ _).mpr (.inr ⟨rfl, heq, Bool.eq_false_iff.mpr hopen⟩))
    · next hne =>
      refine h.ended q ((List.mem_append.mp hq).resolve_right fun hq =>
        hne (List.mem_singleton.mp hq)) fun k hk => ?_
      exact hdetached k ((hattached k q).mpr (.inl hk))

/-- The queues that are still attached when the front is taken. -/
theorem Inv.attached_pop (h : Inv key isEnd t) {q : Nat} {rest : List Nat} {last : α}
    (hqueues : t.queues = q :: rest) (hlast : (t.contents q).getLast? = some last) (k : κ)
    (q' : Nat) :
    (t.pop key isEnd q rest last).attached k = some q' ↔ t.attached k = some q' ∧ q' ≠ q := by
  simp only [KeyedQueues.pop]
  cases hend : isEnd last with
  | true =>
    rw [if_pos rfl]
    refine ⟨fun hk => ⟨hk, ?_⟩, And.left⟩
    rintro rfl
    have hopen := (h.own k q' hk last (List.mem_of_getLast? hlast)).2
    rw [hend] at hopen
    cases hopen
  | false =>
    rw [if_neg Bool.false_ne_true]
    exact h.detach_iff (h.attached_last (hqueues ▸ List.mem_cons_self) hlast hend) k q'

theorem Inv.pop (h : Inv key isEnd t) {q : Nat} {rest : List Nat} {last : α}
    (hqueues : t.queues = q :: rest) (hlast : (t.contents q).getLast? = some last) :
    Inv key isEnd (t.pop key isEnd q rest last) := by
  have hattached := h.attached_pop hqueues hlast
  have hnodup : (q :: rest).Nodup := hqueues ▸ h.nodup
  have hmem : ∀ q' ∈ rest, q' ∈ t.queues := fun q' hq' => hqueues ▸ List.mem_cons_of_mem q hq'
  have hne : ∀ q' ∈ rest, q' ≠ q := fun q' hq' =>
    ne_of_mem_of_not_mem hq' (List.nodup_cons.mp hnodup).1
  refine ⟨(List.nodup_cons.mp hnodup).2, fun q' hq' => h.bound q' (hmem q' hq'),
    fun k q' hk => ?_, fun k q' hk y hy => ?_, fun q' hq' => ?_, fun q' hq' hdetached => ?_⟩
  · obtain ⟨hk, hother⟩ := (hattached k q').mp hk
    have hlisted := h.listed k q' hk
    rw [hqueues] at hlisted
    exact (List.mem_cons.mp hlisted).resolve_left hother
  · obtain ⟨hk, hother⟩ := (hattached k q').mp hk
    simp only [KeyedQueues.pop, Function.update_of_ne hother] at hy
    exact h.own k q' hk y hy
  · simp only [KeyedQueues.pop, Function.update_of_ne (hne q' hq')]
    exact h.nonempty q' (hmem q' hq')
  · simp only [KeyedQueues.pop, Function.update_of_ne (hne q' hq')]
    exact h.ended q' (hmem q' hq') fun k hk => hdetached k ((hattached k q').mpr ⟨hk, hne q' hq'⟩)

end KeyedQueues
