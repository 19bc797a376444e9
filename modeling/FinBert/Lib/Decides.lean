import Mathlib.Tactic.Common

/-!
# Programs that decide a condition

A check that is spread over a program: the program returns a value when the condition holds and
stops with a permitted error when it does not. `Decides R C P x` says this of the program `x`, with
what it returns; `R` are the permitted errors, so that a program that decides something stops in no
other way.

Results:
1. `Decides.bind`: the program behind another one decides both conditions.
2. `Decides.foldlM`, `Decides.foldlM_forall`: a loop decides the condition of all its turns.
-/

namespace Programs

variable {ε α β σ : Type} {R : ε → Prop} {C D : Prop} {P Q : α → Prop} {x : Except ε α}

/-- `x` returns a value with `P` if `C` holds, and stops with one of the errors `R` if not. -/
inductive Decides (R : ε → Prop) (C : Prop) (P : α → Prop) : Except ε α → Prop
  | ok {a : α} (holds : C) (post : P a) : Decides R C P (.ok a)
  | error {e : ε} (fails : ¬ C) (permitted : R e) : Decides R C P (.error e)

theorem decides_pure {a : α} (h : P a) : Decides R True P (pure a) := .ok trivial h

theorem decides_ite [Decidable C] {a : α} {e : ε} (h : C → P a) (he : ¬ C → R e) :
    Decides R C P (if C then .ok a else .error e) := by
  split
  · next hc => exact .ok hc (h hc)
  · next hc => exact .error hc (he hc)

/-- The same condition and a weaker postcondition. -/
theorem Decides.imp (h : Decides R C P x) (hC : C ↔ D) (hP : ∀ a, C → P a → Q a) :
    Decides R D Q x := by
  cases h with
  | ok holds post => exact .ok (hC.mp holds) (hP _ holds post)
  | error fails permitted => exact .error (fun hd => fails (hC.mpr hd)) permitted

theorem Decides.congr (h : Decides R C P x) (hC : C ↔ D) : Decides R D P x :=
  h.imp hC fun _ _ hp => hp

/-- It returns exactly when the condition holds. -/
theorem Decides.returns_iff (h : Decides R C P x) : (∃ a, x = .ok a) ↔ C := by
  cases h with
  | ok holds _ => exact iff_of_true ⟨_, rfl⟩ holds
  | error fails _ => exact iff_of_false (fun ⟨_, heq⟩ => by cases heq) fails

theorem Decides.of_ok {a : α} (h : Decides R C P (.ok a)) : C ∧ P a := by
  cases h with
  | ok holds post => exact ⟨holds, post⟩

theorem Decides.permitted (h : Decides R C P x) {e : ε} (he : x = .error e) : R e := by
  cases h with
  | ok _ _ => cases he
  | error _ permitted => exact Except.error.inj he ▸ permitted

theorem Decides.bind {f : α → Except ε β} {Q : β → Prop} (h : Decides R C P x)
    (hf : ∀ a, C → P a → Decides R D Q (f a)) : Decides R (C ∧ D) Q (x >>= f) := by
  cases h with
  | @ok a holds post =>
    have hfa := hf a holds post
    exact hfa.congr (and_iff_right holds).symm
  | error fails permitted => exact .error (fun hcd => fails hcd.1) permitted

/-- A program behind one that decides a condition that holds. -/
theorem Decides.bind_of {f : α → Except ε β} {Q : β → Prop} (h : Decides R C P x) (hC : C)
    (hf : ∀ a, P a → Decides R D Q (f a)) : Decides R D Q (x >>= f) :=
  (h.bind fun a _ hp => hf a hp).congr (and_iff_right hC)

/-- A loop whose turns decide the condition of what is done so far. -/
theorem Decides.foldlM {f : σ → β → Except ε σ} {C : List β → Prop} {I : List β → σ → Prop}
    {xs : List β} {s : σ} (hmono : ∀ done x, C (done ++ [x]) → C done)
    (hstep : ∀ done x s, x ∈ xs → C done → I done s →
      Decides R (C (done ++ [x])) (I (done ++ [x])) (f s x))
    (hC : C []) (hI : I [] s) : Decides R (C xs) (I xs) (xs.foldlM f s) := by
  have hprefix : ∀ done rest, C (done ++ rest) → C done := by
    intro done rest
    induction rest generalizing done with
    | nil =>
      rw [List.append_nil]
      exact id
    | cons x rest ih =>
      intro h
      rw [List.append_cons] at h
      exact hmono done x (ih (done ++ [x]) h)
  have hloop : ∀ done rest s, xs = done ++ rest → C done → I done s →
      Decides R (C xs) (I xs) (rest.foldlM f s) := by
    intro done rest
    induction rest generalizing done with
    | nil =>
      intro s heq hc hi
      rw [heq, List.append_nil]
      exact .ok hc hi
    | cons x rest ih =>
      intro s heq hc hi
      have hmem : x ∈ xs := heq ▸ List.mem_append_right done (List.mem_cons_self ..)
      have heq' : xs = (done ++ [x]) ++ rest := by rw [heq, List.append_cons]
      have hturn := (hstep done x s hmem hc hi).bind fun s' hc' hi' =>
        ih (done ++ [x]) s' heq' hc' hi'
      rw [List.foldlM_cons]
      refine hturn.congr (and_iff_right_of_imp fun hall => ?_)
      rw [heq'] at hall
      exact hprefix _ _ hall
  exact hloop [] xs s rfl hC hI

/-- A loop whose turns decide conditions of their own. -/
theorem Decides.foldlM_forall {f : σ → β → Except ε σ} {c : β → Prop} {I : List β → σ → Prop}
    {xs : List β} {s : σ}
    (hstep : ∀ done x s, x ∈ xs → I done s → Decides R (c x) (I (done ++ [x])) (f s x))
    (hI : I [] s) : Decides R (∀ x ∈ xs, c x) (I xs) (xs.foldlM f s) := by
  refine .foldlM (C := fun done => ∀ x ∈ done, c x) (fun done x h y hy => ?_)
    (fun done x s hx hc hi => (hstep done x s hx hi).congr ?_) (fun x hx => ?_) hI
  · exact h y (List.mem_append_left _ hy)
  · constructor
    · intro hcx y hy
      rcases List.mem_append.mp hy with hy | hy
      · exact hc y hy
      · rw [List.mem_singleton.mp hy]
        exact hcx
    · exact fun h => h x (List.mem_append_right _ (List.mem_singleton_self x))
  · cases hx

end Programs
