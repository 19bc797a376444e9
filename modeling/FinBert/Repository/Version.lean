import FinBert.Repository.Model

/-!
# The life of a version

What the entry of a version is for: a version is unknown, being loaded, served, being
destroyed, or unavailable, and while it is being loaded or destroyed one action may be
postponed. A `Life` holds nothing else, so an entry that is ready without a handle, or that
has two threads creating a backend, is not the entry of any `Version`.

Results:
1. `requestUnload_toEntry`, `requestLoad_toEntry`, `after_toEntry`: the code, on the entry of a
   version, does what the operations on lives say.
2. `after_cases`: all that an event can do to a version.
-/

namespace FinBert.Repository

open FinBert.Serving

/-- A life. `released` is the destruction of a handle that is still referenced, `destroyed`
the one whose callback has been started. -/
inductive Life
  | unknown
  | loading (copied : Option ModelConfig) (next : ActionType)
  | ready (handle : BackendHandle)
  | released (handle : BackendHandle) (next : ActionType)
  | destroyed (is : Option InferenceBackend) (next : ActionType)
  | unavailable

namespace Life

/-! ## The fields of an entry -/

@[simp] def state : Life → ModelReadyState
  | .unknown => .unknown
  | .loading _ _ => .loading
  | .ready _ => .ready
  | .released _ _ => .unloading
  | .destroyed _ _ => .unloading
  | .unavailable => .unavailable

@[simp] def nextAction : Life → ActionType
  | .loading _ next => next
  | .released _ next => next
  | .destroyed _ next => next
  | _ => .noAction

@[simp] def handle : Life → Option BackendHandle
  | .ready handle => some handle
  | _ => none

@[simp] def creations : Life → List (Option ModelConfig)
  | .loading copied _ => [copied]
  | _ => []

@[simp] def releasedHandles : Life → List BackendHandle
  | .released handle _ => [handle]
  | _ => []

@[simp] def callbacks : Life → List (Option InferenceBackend)
  | .destroyed is _ => [is]
  | _ => []

/-! ## The operations -/

/-- A handle is let go of, and `next` is postponed. -/
def letGo (handle : BackendHandle) (next : ActionType) : Life :=
  if handle.refs = 0 then .destroyed handle.is next else .released handle next

/-- A version is to be unloaded. -/
def unload : Life → Life
  | .loading copied _ => .loading copied .unload
  | .ready handle => letGo handle .noAction
  | .released handle _ => .released handle .unload
  | .destroyed is _ => .destroyed is .unload
  | life => life

/-- A version is to be unloaded, and then to be loaded. -/
def reload : Life → Life
  | .loading copied _ => .loading copied .load
  | .ready handle => letGo handle .load
  | .released handle _ => .released handle .load
  | .destroyed is _ => .destroyed is .load
  | _ => .loading none .noAction

/-- A life in which nothing happens goes on with the postponed action. -/
def resume (life : Life) : ActionType → Life
  | .noAction => life
  | .load => life.reload
  | .unload => life.unload

/-- What the creation of a backend leaves behind. -/
def created (result : Status × Option InferenceBackend) : Life :=
  if result.1.isOk then .ready { is := result.2 } else .unavailable

end Life

/-- A version: its life, what its entry says besides, and its history. -/
structure Version where
  platform : Platform
  modelConfig : ModelConfig
  life : Life
  lastRequest : Option Request
  lastBuild : Option Build

namespace Version

/-- The entry of a version. -/
def toEntry (v : Version) : Entry where
  platform := v.platform
  state := v.life.state
  nextAction := v.life.nextAction
  modelConfig := v.modelConfig
  handle := v.life.handle
  creations := v.life.creations
  released := v.life.releasedHandles
  callbacks := v.life.callbacks
  lastRequest := v.lastRequest
  lastBuild := v.lastBuild

/-- The version of a new entry. -/
def new (config : ModelConfig) : Version where
  platform := getPlatform config.platform
  modelConfig := config
  life := .unknown
  lastRequest := none
  lastBuild := none

def requestUnload (v : Version) : Version :=
  { v with life := v.life.unload, lastRequest := some .unload }

def requestLoad (config : ModelConfig) (v : Version) : Version :=
  { v with
    modelConfig := config, life := v.life.reload, lastRequest := some (.load config) }

/-- The version after an event, `none` where the event cannot happen. -/
def after (v : Version) : Event → Option Version
  | .copyConfig creation =>
    match creation, v.life with
    | 0, .loading none next => some { v with life := .loading (some v.modelConfig) next }
    | _, _ => none
  | .create creation w =>
    match creation, v.life with
    | 0, .loading (some config) next =>
      let result := createBackend v.platform config w
      some { v with
        life := (Life.created result).resume next
        lastBuild := some { config := config, status := result.1 } }
    | _, _ => none
  | .onDestroy callback =>
    match callback, v.life with
    | 0, .destroyed _ next => some { v with life := Life.unavailable.resume next }
    | _, _ => none
  | .getBackendHandle =>
    match v.life with
    | .ready handle => some { v with life := .ready { handle with refs := handle.refs + 1 } }
    | _ => none
  | .drop =>
    match v.life with
    | .ready handle =>
      if 0 < handle.refs then
        some { v with life := .ready { handle with refs := handle.refs - 1 } }
      else none
    | _ => none
  | .dropReleased idx =>
    match idx, v.life with
    | 0, .released handle next =>
      if handle.refs ≤ 1 then some { v with life := .destroyed handle.is next }
      else some { v with life := .released { handle with refs := handle.refs - 1 } next }
    | _, _ => none

end Version

/-! ## The code on the entry of a version -/

section
variable (name : String) (version : Int) (v : Version)

/-- `Unload` is the operation `Life.unload`. -/
theorem unload_toEntry :
    (unload name version v.toEntry).2 = { v with life := v.life.unload }.toEntry := by
  cases hlife : v.life with
  | ready handle =>
    -- whether the handle is referenced elsewhere decides what its reset starts
    by_cases hrefs : handle.refs = 0
    · simp [unload, resetHandle, Version.toEntry, hlife, Life.unload, Life.letGo, hrefs]
    · simp [unload, resetHandle, Version.toEntry, hlife, Life.unload, Life.letGo, hrefs]
  | _ => simp [unload, Version.toEntry, hlife, Life.unload]

/-- `Load` after `Unload` is the operation `Life.reload`. It never finds the version served. -/
theorem load_unload_toEntry :
    load name version (unload name version v.toEntry).2 =
      (.ok, { v with life := v.life.reload }.toEntry) := by
  rw [unload_toEntry]
  cases hlife : v.life with
  | ready handle =>
    by_cases hrefs : handle.refs = 0
    · simp [load, Version.toEntry, Life.unload, Life.reload, Life.letGo, hrefs]
    · simp [load, Version.toEntry, Life.unload, Life.reload, Life.letGo, hrefs]
  | _ => simp [load, Version.toEntry, Life.unload, Life.reload]

theorem requestUnload_toEntry :
    requestUnload name version v.toEntry = v.requestUnload.toEntry := by
  unfold requestUnload
  rw [unload_toEntry]
  rfl

theorem requestLoad_toEntry (config : ModelConfig) :
    requestLoad name version config v.toEntry = (.ok, (v.requestLoad config).toEntry) :=
  congrArg (fun loaded => (loaded.1, { loaded.2 with lastRequest := some (.load config) }))
    (load_unload_toEntry name version { v with modelConfig := config })

/-- `TriggerNextAction` resumes a life in which nothing happens. -/
theorem triggerNextAction_toEntry (next : ActionType) (hnext : v.life.nextAction = .noAction) :
    (triggerNextAction name version { v.toEntry with nextAction := next }).2 =
      { v with life := v.life.resume next }.toEntry := by
  have hidle : { v.toEntry with nextAction := .noAction } = v.toEntry := by
    simp only [Version.toEntry, hnext]
  cases next with
  | noAction => exact hidle
  | load =>
    show (load name version
      (unload name version { v.toEntry with nextAction := .noAction }).2).2 = _
    rw [hidle, load_unload_toEntry]
    rfl
  | unload =>
    show (unload name version { v.toEntry with nextAction := .noAction }).2 = _
    rw [hidle, unload_toEntry]
    rfl

/-- The second locked section of `CreateBackendHandle` never finds a handle. -/
theorem finishCreation_toEntry (config : ModelConfig) (copied : Option ModelConfig)
    (next : ActionType) (created : Status × Option InferenceBackend)
    (hlife : v.life = .loading copied next) :
    finishCreation name version config created { v.toEntry with creations := [] } =
      { v with
        life := (Life.created created).resume next
        lastBuild := some { config := config, status := created.1 } }.toEntry := by
  have hidle : (Life.created created).nextAction = .noAction := by
    unfold Life.created
    split
    · rfl
    · rfl
  refine .trans ?_ (triggerNextAction_toEntry name version
    { v with
      life := Life.created created
      lastBuild := some { config := config, status := created.1 } } next hidle)
  by_cases hok : created.1.isOk
  · simp [finishCreation, Version.toEntry, hlife, Life.created, hok]
  · simp [finishCreation, Version.toEntry, hlife, Life.created, hok]

/-- The callback of a handle that is destroyed. -/
theorem onDestroy_toEntry (is : Option InferenceBackend) (next : ActionType)
    (hlife : v.life = .destroyed is next) :
    onDestroy name version { v.toEntry with callbacks := [] } =
      { v with life := Life.unavailable.resume next }.toEntry := by
  refine .trans ?_
    (triggerNextAction_toEntry name version { v with life := .unavailable } next rfl)
  simp [onDestroy, Version.toEntry, hlife]

/-- The entry of a version goes through the events of the version, and through no others. -/
theorem after_toEntry (event : Event) :
    v.toEntry.after name version event = (v.after event).map Version.toEntry := by
  cases event with
  | copyConfig creation =>
    cases hlife : v.life with
    | loading copied next =>
      cases creation with
      | zero => cases copied <;> simp [Entry.after, Version.after, Version.toEntry, hlife]
      | succ creation => simp [Entry.after, Version.after, Version.toEntry, hlife]
    | _ => simp [Entry.after, Version.after, Version.toEntry, hlife]
  | create creation w =>
    cases hlife : v.life with
    | loading copied next =>
      cases creation with
      | zero =>
        cases copied with
        | none => simp [Entry.after, Version.after, Version.toEntry, hlife]
        | some config =>
          have hcreations : v.toEntry.creations = [some config] := by
            simp [Version.toEntry, hlife]
          simp only [Entry.after, Version.after, hlife, hcreations]
          exact congrArg some (finishCreation_toEntry name version v config _ next _ hlife)
      | succ creation => simp [Entry.after, Version.after, Version.toEntry, hlife]
    | _ => simp [Entry.after, Version.after, Version.toEntry, hlife]
  | onDestroy callback =>
    cases hlife : v.life with
    | destroyed is next =>
      cases callback with
      | zero =>
        have hcallbacks : v.toEntry.callbacks = [is] := by simp [Version.toEntry, hlife]
        simp only [Entry.after, Version.after, hlife, hcallbacks]
        exact congrArg some (onDestroy_toEntry name version v is next hlife)
      | succ callback => simp [Entry.after, Version.after, Version.toEntry, hlife]
    | _ => simp [Entry.after, Version.after, Version.toEntry, hlife]
  | getBackendHandle =>
    cases hlife : v.life <;> simp [Entry.after, Version.after, Version.toEntry, hlife]
  | drop =>
    cases hlife : v.life with
    | ready handle =>
      by_cases hrefs : 0 < handle.refs
      · simp [Entry.after, Version.after, Version.toEntry, hlife, hrefs]
      · simp [Entry.after, Version.after, Version.toEntry, hlife, hrefs]
    | _ => simp [Entry.after, Version.after, Version.toEntry, hlife]
  | dropReleased idx =>
    cases hlife : v.life with
    | released handle next =>
      cases idx with
      | zero =>
        by_cases hrefs : handle.refs ≤ 1
        · simp [Entry.after, Version.after, Version.toEntry, hlife, hrefs]
        · simp [Entry.after, Version.after, Version.toEntry, hlife, hrefs]
      | succ idx => simp [Entry.after, Version.after, Version.toEntry, hlife]
    | _ => simp [Entry.after, Version.after, Version.toEntry, hlife]

end

/-! ## What happens to a version -/

/-- What an event does: a configuration is copied, a creation ends, a callback runs, or the
references to a handle change. -/
theorem after_cases {v v' : Version} {event : Event} (h : v.after event = some v') :
    (∃ next, v.life = .loading none next ∧
      v' = { v with life := .loading (some v.modelConfig) next }) ∨
    (∃ config next w, v.life = .loading (some config) next ∧
      v' = { v with
        life := (Life.created (createBackend v.platform config w)).resume next
        lastBuild := some { config := config, status := (createBackend v.platform config w).1 } }) ∨
    (∃ is next, v.life = .destroyed is next ∧
      v' = { v with life := Life.unavailable.resume next }) ∨
    (∃ handle refs, v.life = .ready handle ∧
      v' = { v with life := .ready { handle with refs := refs } }) ∨
    (∃ handle next, v.life = .released handle next ∧
      (v' = { v with life := .destroyed handle.is next } ∨
        ∃ refs, v' = { v with life := .released { handle with refs := refs } next })) := by
  cases event with
  | copyConfig creation =>
    simp only [Version.after] at h
    split at h
    · next hlife => exact .inl ⟨_, hlife, (Option.some.inj h).symm⟩
    · cases h
  | create creation w =>
    simp only [Version.after] at h
    split at h
    · next hlife => exact .inr (.inl ⟨_, _, w, hlife, (Option.some.inj h).symm⟩)
    · cases h
  | onDestroy callback =>
    simp only [Version.after] at h
    split at h
    · next hlife => exact .inr (.inr (.inl ⟨_, _, hlife, (Option.some.inj h).symm⟩))
    · cases h
  | getBackendHandle =>
    simp only [Version.after] at h
    split at h
    · next hlife => exact .inr (.inr (.inr (.inl ⟨_, _, hlife, (Option.some.inj h).symm⟩)))
    · cases h
  | drop =>
    simp only [Version.after] at h
    split at h
    · next hlife =>
      split at h
      · exact .inr (.inr (.inr (.inl ⟨_, _, hlife, (Option.some.inj h).symm⟩)))
      · cases h
    · cases h
  | dropReleased idx =>
    simp only [Version.after] at h
    split at h
    · next hlife =>
      refine .inr (.inr (.inr (.inr ⟨_, _, hlife, ?_⟩)))
      split at h
      · exact .inl (Option.some.inj h).symm
      · exact .inr ⟨_, (Option.some.inj h).symm⟩
    · cases h

end FinBert.Repository
