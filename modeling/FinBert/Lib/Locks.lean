import Mathlib.Data.Set.Basic
import Mathlib.Order.WellFounded
import Mathlib.Order.Basic
import Mathlib.Logic.Function.Basic

/-!
# Cycles of threads that wait for locks

`owner` tells which thread holds a lock, `waits` which lock a thread waits for. A
cycle is a set of threads each of which holds a lock and waits for one that another
thread of the set holds.

Results:
1. `not_waitCycle_of_rank`: there is none when a rank of the threads falls along every
   wait of one blocked holder for another.
2. `Owned.acquire`, `Owned.release`: the table of the owners follows the sections that
   the threads are in.
-/

namespace Locks

variable {T M : Type} {owner : M → Option T} {waits : T → Option M}

/-- The thread holds a lock and waits for one. -/
def BlockedHolder (owner : M → Option T) (waits : T → Option M) (t : T) : Prop :=
  (∃ m, owner m = some t) ∧ waits t ≠ none

/-- A set of threads each of which holds a lock and waits for a lock that another
thread of the set holds. -/
def WaitCycle (owner : M → Option T) (waits : T → Option M) : Prop :=
  ∃ S : Set T, S.Nonempty ∧ ∀ t ∈ S,
    (∃ m, owner m = some t) ∧ ∃ m, waits t = some m ∧ ∃ t' ∈ S, t' ≠ t ∧ owner m = some t'

/-- A cycle of two threads. -/
theorem waitCycle_pair {t t' : T} {m m' : M} (hne : t ≠ t') (hm : owner m = some t)
    (hm' : owner m' = some t') (ht : waits t = some m') (ht' : waits t' = some m) :
    WaitCycle owner waits := by
  refine ⟨{t, t'}, ⟨t, .inl rfl⟩, ?_⟩
  rintro u (rfl | rfl)
  · exact ⟨⟨m, hm⟩, m', ht, t', .inr rfl, hne.symm, hm'⟩
  · exact ⟨⟨m', hm'⟩, m, ht', t, .inl rfl, hne, hm⟩

/-- No cycle when a rank falls along every wait of a blocked holder for another: a
member of least rank would wait for one of lower rank. -/
theorem not_waitCycle_of_rank (rank : T → Nat)
    (h : ∀ t t' m, BlockedHolder owner waits t → BlockedHolder owner waits t' →
      waits t = some m → owner m = some t' → rank t' < rank t) : ¬ WaitCycle owner waits := by
  rintro ⟨S, hne, hS⟩
  have hblocked : ∀ t ∈ S, BlockedHolder owner waits t := by
    intro t ht
    obtain ⟨hold, m, hm, -⟩ := hS t ht
    exact ⟨hold, by simp [hm]⟩
  obtain ⟨t, ht, hmin⟩ := (InvImage.wf rank Nat.lt_wfRel.wf).has_min S hne
  obtain ⟨-, m, hm, t', ht', -, hm'⟩ := hS t ht
  exact hmin t' ht' (h t t' m (hblocked t ht) (hblocked t' ht') hm hm')

/-! ## Owners and sections -/

/-- The owner of a lock is the thread that is in a section of the lock. -/
def Owned (owner : M → Option T) (inside : T → M → Prop) : Prop :=
  ∀ t m, owner m = some t ↔ inside t m

variable {inside inside' : T → M → Prop} {t : T}

/-- A thread moves without entering or leaving a section. -/
theorem Owned.move (h : Owned owner inside) (hothers : ∀ t' ≠ t, inside' t' = inside t')
    (hin : ∀ m', inside' t m' ↔ inside t m') : Owned owner inside' := by
  intro t' m'
  by_cases ht : t' = t
  · rw [ht, hin, h t m']
  · rw [hothers t' ht, h t' m']

variable [DecidableEq M] {m : M}

/-- A thread enters a section of a free lock. -/
theorem Owned.acquire (h : Owned owner inside) (hfree : owner m = none)
    (hothers : ∀ t' ≠ t, inside' t' = inside t')
    (hin : ∀ m', inside' t m' ↔ inside t m' ∨ m' = m) :
    Owned (Function.update owner m (some t)) inside' := by
  intro t' m'
  have hm : ¬ inside t' m := by
    rw [← h t' m, hfree]
    simp
  rw [Function.update_apply]
  by_cases ht : t' = t
  · subst ht
    rw [hin, ← h t' m']
    split
    · next heq => simp [heq]
    · next hne => simp [hne]
  · rw [hothers t' ht]
    split
    · next heq => simpa [heq, Ne.symm ht] using hm
    · exact h t' m'

/-- The owner of a lock leaves its section. -/
theorem Owned.release (h : Owned owner inside) (hm : inside t m)
    (hothers : ∀ t' ≠ t, inside' t' = inside t')
    (hin : ∀ m', inside' t m' ↔ inside t m' ∧ m' ≠ m) :
    Owned (Function.update owner m none) inside' := by
  intro t' m'
  rw [Function.update_apply]
  by_cases ht : t' = t
  · subst ht
    rw [hin, ← h t' m']
    split
    · next heq => simp [heq]
    · next hne => simp [hne]
  · rw [hothers t' ht]
    split
    · next heq =>
      have hown := (h t m).mpr hm
      have hne : ¬ inside t' m := by
        rw [← h t' m, hown]
        simpa using Ne.symm ht
      simpa [heq] using hne
    · exact h t' m'

end Locks
