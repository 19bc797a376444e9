import Mathlib.Logic.Relation
import Mathlib.Tactic.Common

/-!
# Guarded transition systems

A transition system is a partial step function `step : σ → α → Option σ`: the
action `a` is enabled in `s` when `step s a` is `some` state. `ReachableWhen step
ok s₀` are the states of the runs from `s₀` whose steps all meet the condition
`ok`, which reads the state before the step and the action; `Reachable` puts no
condition on the steps.

Results:
1. `ReachableWhen.invariant`: what holds of `s₀` and survives every permitted
   step holds of every reachable state.
2. `ReachableWhen.simulate`: a coarser system, each of whose steps is a
   permitted run of the finer one, reaches only states the finer one reaches.
3. `exists_of_runWhen`: an executable run shows a state to be reachable.
-/

namespace Transition

variable {σ α β : Type}

/-- The states of the runs from `s₀` whose steps all meet `ok`. -/
inductive ReachableWhen (step : σ → α → Option σ) (ok : σ → α → Prop) (s₀ : σ) : σ → Prop
  | start : ReachableWhen step ok s₀ s₀
  | step {s t : σ} {a : α} :
      ReachableWhen step ok s₀ s → ok s a → step s a = some t → ReachableWhen step ok s₀ t

/-- The states of all runs from `s₀`. -/
abbrev Reachable (step : σ → α → Option σ) (s₀ : σ) : σ → Prop :=
  ReachableWhen step (fun _ _ => True) s₀

/-- `runWhen step ok s as`: the state after the actions `as`, when each is enabled
and permitted. -/
def runWhen (step : σ → α → Option σ) (ok : σ → α → Prop) [∀ s a, Decidable (ok s a)] :
    σ → List α → Option σ
  | s, [] => some s
  | s, a :: as => if ok s a then (step s a).bind fun t => runWhen step ok t as else none

section
variable {step : σ → α → Option σ} {ok : σ → α → Prop} {s₀ : σ}

/-- The induction over a run, stated once: an invariant of the permitted steps. -/
theorem ReachableWhen.invariant {P : σ → Prop} (base : P s₀)
    (preserved : ∀ s a t, P s → ok s a → step s a = some t → P t)
    {s : σ} (h : ReachableWhen step ok s₀ s) : P s := by
  induction h with
  | start => exact base
  | step _ hok hs ih => exact preserved _ _ _ ih hok hs

/-- A run of one step. -/
theorem ReachableWhen.single {a : α} {t : σ} (hok : ok s₀ a) (hs : step s₀ a = some t) :
    ReachableWhen step ok s₀ t :=
  .step .start hok hs

theorem ReachableWhen.trans {s t : σ} (h : ReachableWhen step ok s₀ s)
    (h' : ReachableWhen step ok s t) : ReachableWhen step ok s₀ t := by
  induction h' with
  | start => exact h
  | step _ hok hs ih => exact ih.step hok hs

theorem ReachableWhen.weaken {ok' : σ → α → Prop} (hw : ∀ s a, ok s a → ok' s a)
    {s : σ} (h : ReachableWhen step ok s₀ s) : ReachableWhen step ok' s₀ s := by
  induction h with
  | start => exact .start
  | step _ hok hs ih => exact ih.step (hw _ _ hok) hs

/-- A coarser system `step'` whose every step, from a state of the invariant `P`,
is a permitted run of `step` that ends in a state of `P`. -/
theorem ReachableWhen.simulate {step' : σ → β → Option σ} {ok' : σ → β → Prop} {P : σ → Prop}
    (base : P s₀)
    (sim : ∀ s b t, P s → ok' s b → step' s b = some t → ReachableWhen step ok s t ∧ P t)
    {s : σ} (h : ReachableWhen step' ok' s₀ s) : ReachableWhen step ok s₀ s ∧ P s := by
  induction h with
  | start => exact ⟨.start, base⟩
  | step _ hok hs ih =>
    obtain ⟨hreach, hP⟩ := ih
    obtain ⟨hrun, hP'⟩ := sim _ _ _ hP hok hs
    exact ⟨hreach.trans hrun, hP'⟩

variable [∀ s a, Decidable (ok s a)]

theorem reachableWhen_of_runWhen {s t : σ} {as : List α}
    (h : runWhen step ok s as = some t) : ReachableWhen step ok s t := by
  induction as generalizing s with
  | nil =>
    simp only [runWhen, Option.some.injEq] at h
    exact h ▸ .start
  | cons a as ih =>
    rw [runWhen] at h
    split at h
    · next hok =>
      obtain ⟨u, hu, hrun⟩ := Option.bind_eq_some_iff.mp h
      exact (ReachableWhen.start.step hok hu).trans (ih hrun)
    · cases h

/-- A run that ends in a state with the checked property `p`. -/
theorem exists_of_runWhen {s : σ} {as : List α} {p : σ → Bool}
    (h : (runWhen step ok s as).map p = some true) :
    ∃ t, ReachableWhen step ok s t ∧ p t = true := by
  obtain ⟨t, ht, hp⟩ := Option.map_eq_some_iff.mp h
  exact ⟨t, reachableWhen_of_runWhen ht, hp⟩

end

end Transition
