import Mathlib.Tactic.Common

/-!
# Postconditions of programs with a state and exceptions

A program is a value of `EStateM ε σ α`. `Ensures m Q E s` says what a run of `m` from
the state `s` can end with: a value and a state with `Q`, or an exception with `E`.
With `E := fun _ => False` the program returns.

Results:
1. `ensures_pure`, `ensures_throw`, `ensures_bind`: one rule for each way to build a
   program.
2. `Ensures.mono`, `Ensures.and` and `Ensures.bind`: consequence, two postconditions, and
   one program before another.
3. `Ensures.exists_ok` and `bind_eq_ok`: what the postcondition says about a run, and
   what a run of a sequence consists of.
4. `exists_of_returns`: a run that was evaluated.
-/

namespace Program

variable {ε σ α β : Type}

/-- Every way in which `m` can end, from the state `s`. -/
structure Ensures (m : EStateM ε σ α) (Q : α → σ → Prop) (E : ε → Prop) (s : σ) : Prop where
  ok : ∀ a t, m s = .ok a t → Q a t
  error : ∀ e t, m s = .error e t → E e

variable {m : EStateM ε σ α} {f : α → EStateM ε σ β} {Q Q' : α → σ → Prop} {E E' : ε → Prop}
  {s t : σ}

/-- A program whose result is known. -/
theorem ensures_of_eq_ok {a : α} (hm : m s = .ok a t) (h : Q a t) : Ensures m Q E s where
  ok := fun b u hb => by
    rw [hm] at hb
    cases hb
    exact h
  error := fun e u he => by
    rw [hm] at he
    cases he

theorem ensures_pure {a : α} (h : Q a s) : Ensures (pure a) Q E s := ensures_of_eq_ok rfl h

theorem ensures_throw {e : ε} (h : E e) : Ensures (throw e : EStateM ε σ α) Q E s where
  ok := fun _ _ ha => nomatch ha
  error := fun e' t he => by
    obtain ⟨rfl, -⟩ := EStateM.Result.error.inj he
    exact h

/-- A sequence that returns consists of two programs that return. -/
theorem bind_eq_ok {b : β} :
    (m >>= f) s = .ok b t ↔ ∃ a u, m s = .ok a u ∧ f a u = .ok b t := by
  simp only [Bind.bind, EStateM.bind]
  cases m s with
  | ok a u => simp
  | error e u => simp

/-- A sequence raises what its first program raises, or its second one behind the first. -/
theorem bind_eq_error {e : ε} :
    (m >>= f) s = .error e t ↔
      m s = .error e t ∨ ∃ a u, m s = .ok a u ∧ f a u = .error e t := by
  simp only [Bind.bind, EStateM.bind]
  cases m s with
  | ok a u => simp
  | error e u => simp

theorem ensures_bind {Q : β → σ → Prop} (h : Ensures m (fun a => Ensures (f a) Q E) E s) :
    Ensures (m >>= f) Q E s where
  ok := fun b t hb => by
    obtain ⟨a, u, ha, hf⟩ := bind_eq_ok.mp hb
    exact (h.ok a u ha).ok b t hf
  error := fun e t he => by
    rcases bind_eq_error.mp he with hm | ⟨a, u, ha, hf⟩
    · exact h.error e t hm
    · exact (h.ok a u ha).error e t hf

theorem Ensures.mono (h : Ensures m Q E s) (hQ : ∀ a t, Q a t → Q' a t) (hE : ∀ e, E e → E' e) :
    Ensures m Q' E' s :=
  ⟨fun a t ha => hQ a t (h.ok a t ha), fun e t he => hE e (h.error e t he)⟩

/-- Consequence for the result alone. -/
theorem Ensures.imp (h : Ensures m Q E s) (hQ : ∀ a t, Q a t → Q' a t) : Ensures m Q' E s :=
  h.mono hQ fun _ he => he

/-- Nothing is asked. -/
theorem ensures_trivial : Ensures m (fun _ _ => True) (fun _ => True) s :=
  ⟨fun _ _ _ => trivial, fun _ _ _ => trivial⟩

/-- Two postconditions of one program. -/
theorem Ensures.and (h : Ensures m Q E s) (h' : Ensures m Q' E' s) :
    Ensures m (fun a t => Q a t ∧ Q' a t) (fun e => E e ∧ E' e) s :=
  ⟨fun a t ha => ⟨h.ok a t ha, h'.ok a t ha⟩, fun e t he => ⟨h.error e t he, h'.error e t he⟩⟩

/-- The postcondition of a program that is known to return. -/
theorem Ensures.returns (h : Ensures m Q E s) (h' : Ensures m Q' (fun _ => False) s) :
    Ensures m Q (fun _ => False) s :=
  ⟨h.ok, h'.error⟩

/-- One program run before another. -/
theorem Ensures.bind {R : β → σ → Prop} (h : Ensures m Q E s)
    (hf : ∀ a t, Q a t → Ensures (f a) R E t) : Ensures (m >>= f) R E s :=
  ensures_bind (h.imp hf)

/-- A program that can raise nothing returns. -/
theorem Ensures.exists_ok (h : Ensures m Q (fun _ => False) s) :
    ∃ a t, m s = .ok a t ∧ Q a t := by
  cases hm : m s with
  | ok a t => exact ⟨a, t, rfl, h.ok a t hm⟩
  | error e t => exact (h.error e t hm).elim

/-- The program returns a value with the checked property `p`. -/
def returns (m : EStateM ε σ α) (p : α → Bool) (s : σ) : Bool :=
  match m s with
  | .ok a _ => p a
  | .error _ _ => false

theorem exists_of_returns {p : α → Bool} (h : returns m p s = true) :
    ∃ a t, m s = .ok a t ∧ p a = true := by
  unfold returns at h
  cases hm : m s with
  | ok a t =>
    rw [hm] at h
    exact ⟨a, t, rfl, h⟩
  | error e t =>
    rw [hm] at h
    cases h

end Program
