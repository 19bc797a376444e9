import FinBert.Repository.LifeCycle
import Mathlib.Algebra.BigOperators.Group.List.Basic
import Mathlib.Algebra.Ring.Nat

/-!
# The references to handles

How many references to the handles of a version there are outside of `handle_`, and what changes
their number: only `GetBackendHandle`, and the holders that drop what they got.

Results:
1. `kept_held`: a handle that `handle_` has let go of is referenced.
2. `references_step`: what a step does to the references of every version.
3. `after_dead`: nothing happens to a version that is unknown or unavailable.
-/

namespace FinBert.Repository

open FinBert.Serving Transition

/-! ## The references of a version -/

/-- `state_` is neither `MODEL_UNKNOWN` nor `MODEL_UNAVAILABLE`. -/
def Entry.live (e : Entry) : Bool := e.state ≠ .unknown && e.state ≠ .unavailable

/-- The references to the handles of an entry outside of `handle_`. -/
def Entry.references (e : Entry) : Nat :=
  (e.handle.map BackendHandle.refs).getD 0 + (e.released.map BackendHandle.refs).sum

/-- The references to the handles of a version. -/
def BackendLifeCycle.references (s : BackendLifeCycle) (name : String) (version : Int) : Nat :=
  ((s.entry name version).map Entry.references).getD 0

/-- The references that an event takes. -/
def Event.taken : Event → Nat
  | .getBackendHandle => 1
  | _ => 0

/-- The references that an event drops. -/
def Event.dropped : Event → Nat
  | .drop => 1
  | .dropReleased _ => 1
  | _ => 0

def Life.references : Life → Nat
  | .ready handle => handle.refs
  | .released handle _ => handle.refs
  | _ => 0

/-- A handle that `handle_` has let go of is referenced. -/
def Life.Held : Life → Prop
  | .released handle _ => 0 < handle.refs
  | _ => True

@[simp] theorem references_toEntry (v : Version) : v.toEntry.references = v.life.references := by
  obtain ⟨platform, modelConfig, life, lastRequest, lastBuild⟩ := v
  cases life <;> simp [Version.toEntry, Entry.references, Life.references]

theorem references_letGo (handle : BackendHandle) (next : ActionType) :
    (Life.letGo handle next).references = handle.refs := by
  unfold Life.letGo
  split
  · next hrefs => exact hrefs.symm
  · rfl

theorem held_letGo (handle : BackendHandle) (next : ActionType) :
    (Life.letGo handle next).Held := by
  unfold Life.letGo
  split
  · trivial
  · next hrefs => exact Nat.pos_of_ne_zero hrefs

theorem references_unload (life : Life) : life.unload.references = life.references := by
  cases life with
  | ready handle => exact references_letGo handle .noAction
  | _ => rfl

theorem references_reload (life : Life) : life.reload.references = life.references := by
  cases life with
  | ready handle => exact references_letGo handle .load
  | _ => rfl

theorem held_unload {life : Life} (h : life.Held) : life.unload.Held := by
  cases life with
  | ready handle => exact held_letGo handle .noAction
  | released handle next => exact h
  | _ => trivial

theorem held_reload {life : Life} (h : life.Held) : life.reload.Held := by
  cases life with
  | ready handle => exact held_letGo handle .load
  | released handle next => exact h
  | _ => trivial

theorem references_resume (life : Life) (next : ActionType) :
    (life.resume next).references = life.references := by
  cases next with
  | noAction => rfl
  | load => exact references_reload life
  | unload => exact references_unload life

theorem held_resume {life : Life} (h : life.Held) (next : ActionType) :
    (life.resume next).Held := by
  cases next with
  | noAction => exact h
  | load => exact held_reload h
  | unload => exact held_unload h

theorem references_created (result : Status × Option InferenceBackend) :
    (Life.created result).references = 0 := by
  unfold Life.created
  split
  · rfl
  · rfl

theorem held_created (result : Status × Option InferenceBackend) :
    (Life.created result).Held := by
  unfold Life.created
  split
  · trivial
  · trivial

/-- An event takes and drops references, and leaves every other one alone. -/
theorem references_after {v v' : Version} {event : Event} (hv : v.life.Held)
    (h : v.after event = some v') :
    v'.life.references + event.dropped = v.life.references + event.taken := by
  cases event with
  | copyConfig | getBackendHandle =>
    simp only [Version.after] at h
    split at h
    · next hlife =>
      obtain rfl := Option.some.inj h
      rw [hlife]
      rfl
    · cases h
  | create creation w =>
    simp only [Version.after] at h
    split at h
    · next hlife =>
      obtain rfl := Option.some.inj h
      rw [hlife]
      exact congrArg (· + 0) ((references_resume _ _).trans (references_created _))
    · cases h
  | onDestroy callback =>
    simp only [Version.after] at h
    split at h
    · next hlife =>
      obtain rfl := Option.some.inj h
      rw [hlife]
      exact congrArg (· + 0) (references_resume _ _)
    · cases h
  | drop =>
    simp only [Version.after] at h
    split at h
    · next hlife =>
      split at h
      · next hrefs =>
        obtain rfl := Option.some.inj h
        rw [hlife]
        exact Nat.sub_add_cancel hrefs
      · cases h
    · cases h
  | dropReleased idx =>
    simp only [Version.after] at h
    split at h
    · next handle next hlife =>
      rw [hlife] at hv
      have hrefs : 0 < handle.refs := hv
      rw [hlife]
      split at h
      · next hlast =>
        -- the last reference, which runs the destructor
        obtain rfl := Option.some.inj h
        exact Nat.le_antisymm (Nat.zero_add 1 ▸ hrefs) hlast
      · obtain rfl := Option.some.inj h
        exact Nat.sub_add_cancel hrefs
    · cases h

theorem held_after {v v' : Version} {event : Event} (h : v.after event = some v') :
    v'.life.Held := by
  cases event with
  | dropReleased idx =>
    simp only [Version.after] at h
    split at h
    · next handle next hlife =>
      split at h
      · obtain rfl := Option.some.inj h
        trivial
      · next hmore =>
        obtain rfl := Option.some.inj h
        exact Nat.sub_pos_of_lt (Nat.lt_of_not_le hmore)
    · cases h
  | create creation w =>
    simp only [Version.after] at h
    split at h
    · obtain rfl := Option.some.inj h
      exact held_resume (held_created _) _
    · cases h
  | onDestroy callback =>
    simp only [Version.after] at h
    split at h
    · obtain rfl := Option.some.inj h
      exact @held_resume .unavailable trivial _
    · cases h
  | copyConfig | getBackendHandle =>
    simp only [Version.after] at h
    split at h
    · obtain rfl := Option.some.inj h
      trivial
    · cases h
  | drop =>
    simp only [Version.after] at h
    split at h
    · split at h
      · obtain rfl := Option.some.inj h
        trivial
      · cases h
    · cases h

theorem kept_held : Kept (fun _ => True) fun v => v.life.Held where
  created _ _ := trivial
  requestUnload _ hv := held_unload hv
  requestLoad _ _ hv := held_reload hv
  after _ _ _ _ h := held_after h

/-- Nothing happens to a version that is unknown or unavailable. -/
theorem after_dead {v : Version} (hv : v.toEntry.live = false) (event : Event) :
    v.after event = none := by
  cases hlife : v.life with
  | unknown => cases event <;> simp [Version.after, hlife]
  | unavailable => cases event <;> simp [Version.after, hlife]
  | _ => simp [Entry.live, Version.toEntry, hlife] at hv

/-! ## The references of the map -/

/-- The references to the handles of a version that an action takes. -/
def Action.taken (name : String) (version : Int) : Action → Nat
  | .event name' version' ev => if name = name' ∧ version = version' then ev.taken else 0
  | _ => 0

/-- The references to the handles of a version that an action drops. -/
def Action.dropped (name : String) (version : Int) : Action → Nat
  | .event name' version' ev => if name = name' ∧ version = version' then ev.dropped else 0
  | _ => 0

section
variable {s : BackendLifeCycle} (hs : Refines (fun _ => True) (fun v => v.life.Held) s)
include hs

theorem references_requestUnload (name : String) (version : Int) :
    (((s.entry name version).map (requestUnload name version)).map Entry.references).getD 0 =
      s.references name version := by
  unfold BackendLifeCycle.references
  cases he : s.entry name version with
  | none => rfl
  | some e =>
    obtain ⟨v, rfl, -⟩ := hs.version name version e he
    rw [Option.map_some, requestUnload_toEntry, Option.map_some, Option.map_some, Option.getD_some,
      Option.getD_some, references_toEntry, references_toEntry]
    exact references_unload v.life

theorem references_requestLoad (name : String) (version : Int) (config : ModelConfig) :
    (requestLoad name version config ((s.entry name version).getD (.new config))).2.references =
      s.references name version := by
  unfold BackendLifeCycle.references
  cases he : s.entry name version with
  | none => rfl
  | some e =>
    obtain ⟨v, rfl, -⟩ := hs.version name version e he
    rw [Option.getD_some, requestLoad_toEntry, Option.map_some, Option.getD_some,
      references_toEntry, references_toEntry]
    exact references_reload v.life

/-- A turn of the loops of `AsyncLoad`. -/
theorem references_advance (r : Running) (name : String) (version : Int) :
    (s.advance r).references name version = s.references name version := by
  rcases BackendLifeCycle.advance_cases s r with ⟨version', unloads, -, -, -, hentry⟩ |
    ⟨version', loads, -, -, -, -, hentry⟩ | ⟨-, -, hadvance⟩
  · by_cases h : name = r.name ∧ version = version'
    · obtain ⟨rfl, rfl⟩ := h
      rw [BackendLifeCycle.references, hentry, if_pos ⟨rfl, rfl⟩]
      exact references_requestUnload hs _ _
    · rw [BackendLifeCycle.references, hentry, if_neg h]
      rfl
  · by_cases h : name = r.name ∧ version = version'
    · obtain ⟨rfl, rfl⟩ := h
      rw [BackendLifeCycle.references, hentry, if_pos ⟨rfl, rfl⟩]
      exact references_requestLoad hs _ _ _
    · rw [BackendLifeCycle.references, hentry, if_neg h]
      rfl
  · rw [hadvance]
    rfl

/-- A step takes and drops references to the handles of one version at most. -/
theorem references_step {t : BackendLifeCycle} {a : Action} (h : s.step a = some t)
    (name : String) (version : Int) :
    t.references name version + a.dropped name version =
      s.references name version + a.taken name version := by
  rcases BackendLifeCycle.step_cases h with ⟨call, rfl, -, rfl⟩ | ⟨r, rfl, -, rfl⟩ |
    ⟨name', version', event, e, e', rfl, he, he', rfl⟩
  · rw [BackendLifeCycle.references, BackendLifeCycle.entry_asyncLoad]
    rfl
  · exact congrArg (· + 0) (references_advance hs r name version)
  · unfold BackendLifeCycle.references Action.dropped Action.taken
    rw [BackendLifeCycle.entry_setEntry]
    by_cases hkey : name = name' ∧ version = version'
    · obtain ⟨rfl, rfl⟩ := hkey
      obtain ⟨v, rfl, hv⟩ := hs.version name version e he
      rw [after_toEntry] at he'
      obtain ⟨v', hv', rfl⟩ := Option.map_eq_some_iff.mp he'
      simp only [and_self, if_true, he, Option.map_some, Option.getD_some, references_toEntry]
      exact references_after hv hv'
    · simp only [if_neg hkey]

/-- Versions that are unknown or unavailable stay so in every event. -/
theorem dead_event {t : BackendLifeCycle} {name : String} {version : Int} {event : Event}
    (h : s.step (.event name version event) = some t) {name' : String} {version' : Int}
    (hdead : ∀ e, s.entry name' version' = some e → e.live = false) :
    ∀ e, t.entry name' version' = some e → e.live = false := by
  rcases BackendLifeCycle.step_cases h with ⟨call, heq, -, -⟩ | ⟨r, heq, -, -⟩ |
    ⟨name₀, version₀, event₀, e₀, e', heq, he₀, he', rfl⟩
  · cases heq
  · cases heq
  · cases heq
    intro e he
    rw [BackendLifeCycle.entry_setEntry] at he
    split at he
    · next hkey =>
      obtain ⟨rfl, rfl⟩ := hkey
      obtain ⟨v, rfl, -⟩ := hs.version _ _ e₀ he₀
      rw [after_toEntry, after_dead (hdead _ he₀)] at he'
      cases he'
    · exact hdead e he

/-- A version that is unknown or unavailable has no reference. -/
theorem references_dead {name : String} {version : Int} {e : Entry}
    (he : s.entry name version = some e) (hdead : e.live = false) :
    s.references name version = 0 := by
  obtain ⟨⟨platform, modelConfig, life, lastRequest, lastBuild⟩, rfl, -⟩ :=
    hs.version name version e he
  rw [BackendLifeCycle.references, he, Option.map_some, Option.getD_some, references_toEntry]
  cases life with
  | unknown | unavailable => rfl
  | _ => cases hdead

end

end FinBert.Repository
