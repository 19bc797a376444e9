import FinBert.Repository.LastRequest
import FinBert.Repository.Manager

/-!
# Readiness

`HandleHealth` (`server.cc`) asks `ServerStatusManager::Get` (`server_status.cc`) for the status
of the models, which asks the life cycle for the states of their versions. `Server.step` is a
server whose repository is polled: one round of `PollAndUpdate` at a time, whose `AsyncLoad` calls
interleave with the threads of the life cycle. The statistics of requests for inference, which
also put versions into the status, are left out.

Results:
1. `exists_run_of_pollAndUpdate`: a round of `PollAndUpdate` is a run of the server.
-/

namespace FinBert.Repository

open FinBert.Serving Transition

/-! ## The status of the server -/

/-- `GetVersionStates`. -/
def BackendLifeCycle.getVersionStates (s : BackendLifeCycle) (name : String) :
    List (Int × ModelReadyState) :=
  (s.versionMap name).entries.map fun e => (e.1, e.2.state)

/-- `SetModelVersionReadyState`. -/
def setModelVersionReadyState (lifeCycle : BackendLifeCycle) (ms : ModelStatus) : ModelStatus :=
  let cleared := (ms.versionStatus.keys.map fun version => (version, .unavailable))
  { ms with
    versionStatus :=
      (ms.versionStatus.insertAll cleared).insertAll
        (lifeCycle.getVersionStates ms.config.name) }

/-- `ServerStatusManager::Get`: the models that it fills in. -/
def ServerStatus.get (status : ServerStatus) (lifeCycle : BackendLifeCycle) : List ModelStatus :=
  status.entries.map fun ms => setModelVersionReadyState lifeCycle ms.2

/-- `ServerReadyState` (`server_status.proto`). -/
inductive ServerReadyState
  | invalid
  | initializing
  | ready
  | exiting
  | failedToInitialize
deriving DecidableEq

/-- `HandleHealth`: the request status, and the answer. -/
def handleHealth (readyState : ServerReadyState) (strictReadiness : Bool) (status : ServerStatus)
    (lifeCycle : BackendLifeCycle) (mode : String) : Status × Bool :=
  if readyState = .exiting then ({ code := .unavailable, message := "Server exiting" }, false)
  else if mode = "live" then
    (.ok, readyState ≠ .invalid && readyState ≠ .failedToInitialize)
  else if mode = "ready" then
    let health := decide (readyState = .ready)
    if health && strictReadiness then
      (.ok, (status.get lifeCycle).all fun ms =>
        ms.versionStatus.entries.all fun vs => vs.2 = .ready)
    else (.ok, health)
  else ({ code := .unknown, message := "unknown health mode '" ++ mode ++ "'" }, false)

/-! ## The server -/

/-- The repository manager, the life cycle, and what the running `PollAndUpdate` has still to go
through. -/
structure Server where
  manager : ModelRepositoryManager := {}
  lifeCycle : BackendLifeCycle := .create
  round : List (Change × String) := []

inductive ServerAction
  /-- `PollAndUpdate` is called, and calls `Poll`. -/
  | poll (snapshot : Snapshot)
  /-- `PollAndUpdate` goes on with the next model, whose directory has these subdirectories. -/
  | update (subdirs : Except Status (List String))
  /-- The running `AsyncLoad` call goes on. -/
  | advance
  | event (name : String) (version : Int) (event : Event)

namespace Server

/-- `PollAndUpdate`, up to its loops. -/
def beginRound (s : Server) (snapshot : Snapshot) : Server :=
  match poll s.manager.infos snapshot with
  | .error _ => s
  | .ok (changes, infos) =>
    { s with manager := { s.manager with infos := infos }, round := changes.work }

/-- The body of a loop of `PollAndUpdate`. No server goes on after an exception. -/
def nextUpdate (s : Server) (subdirs : Except Status (List String)) (change : Change)
    (name : String) (round : List (Change × String)) : Option Server :=
  match s.manager.update subdirs change name with
  | (m, .ok call) =>
    some { manager := m, lifeCycle := s.lifeCycle.asyncLoad call, round := round }
  | (m, .error (.status _)) => some { s with manager := m, round := [] }
  | (_, .error .outOfRange) => none

/-- One step. -/
def step (s : Server) : ServerAction → Option Server
  | .poll snapshot =>
    if s.manager.pollingEnabled ∧ s.round = [] ∧ s.lifeCycle.running = none then
      some (s.beginRound snapshot)
    else none
  | .update subdirs =>
    match s.round with
    | [] => none
    | (change, name) :: round =>
      if s.lifeCycle.running = none then s.nextUpdate subdirs change name round else none
  | .advance => (s.lifeCycle.step .advance).map fun t => { s with lifeCycle := t }
  | .event name version event =>
    (s.lifeCycle.step (.event name version event)).map fun t => { s with lifeCycle := t }

/-- No round is going on, and nothing is being loaded or unloaded. -/
structure Quiescent (s : Server) : Prop where
  round : s.round = []
  lifeCycle : s.lifeCycle.Quiescent

instance (s : Server) : Decidable s.Quiescent :=
  decidable_of_iff (s.round = [] ∧ s.lifeCycle.Quiescent)
    ⟨fun h => ⟨h.1, h.2⟩, fun h => ⟨h.round, h.lifeCycle⟩⟩

/-- Every version is ready that `VersionsToLoad` has selected for a model in the repository. -/
def SelectedReady (s : Server) : Prop :=
  ∀ name ∈ s.manager.infos.keys, ∀ call ∈ s.lifeCycle.lastCall name,
    ∀ version ∈ call.versions, s.lifeCycle.Ready name version

instance (s : BackendLifeCycle) (name : String) (version : Int) :
    Decidable (s.Ready name version) :=
  inferInstanceAs (Decidable (∃ e ∈ s.entry name version, e.state = .ready))

instance (s : Server) : Decidable s.SelectedReady :=
  inferInstanceAs (Decidable (∀ name ∈ s.manager.infos.keys,
    ∀ call ∈ s.lifeCycle.lastCall name, ∀ version ∈ call.versions, s.lifeCycle.Ready name version))

/-- The answer of `HandleHealth` in mode `ready` under strict readiness, in a server that is
ready. -/
def strictlyReady (s : Server) : Bool :=
  (handleHealth .ready true s.manager.status s.lifeCycle "ready").2

/-! ## The rounds of the server -/

variable {s : Server} {dirs : String → Except Status (List String)} {m : ModelRepositoryManager}
  {calls : List LoadCall} {result : Except Failure Unit}

/-- A call that is running can be run to its return. -/
theorem exists_return (s : Server) :
    ∃ lifeCycle, Reachable step s { s with lifeCycle := lifeCycle } ∧
      lifeCycle.running = none ∧ lifeCycle.calls = s.lifeCycle.calls := by
  generalize hn : (s.lifeCycle.running.elim 0 fun r => r.unloads.length + r.loads.length) = n
  -- by induction on the turns of the loops that are left
  induction n using Nat.strong_induction_on generalizing s with
  | _ n ih =>
    cases hr : s.lifeCycle.running with
    | none => exact ⟨s.lifeCycle, .start, hr, rfl⟩
    | some r =>
      rw [hr] at hn
      have hstep : s.step .advance = some { s with lifeCycle := s.lifeCycle.advance r } := by
        simp only [step, BackendLifeCycle.step, hr, Option.map_some]
      have hrest (hcalls : (s.lifeCycle.advance r).calls = s.lifeCycle.calls)
          (hless : ((s.lifeCycle.advance r).running.elim 0 fun r =>
            r.unloads.length + r.loads.length) < n) :
          ∃ lifeCycle, Reachable step s { s with lifeCycle := lifeCycle } ∧
            lifeCycle.running = none ∧ lifeCycle.calls = s.lifeCycle.calls := by
        obtain ⟨lifeCycle, hreach, hnone, hcalls'⟩ :=
          ih _ hless { s with lifeCycle := s.lifeCycle.advance r } rfl
        exact ⟨lifeCycle, (ReachableWhen.single trivial hstep).trans hreach, hnone,
          hcalls'.trans hcalls⟩
      rcases BackendLifeCycle.advance_cases s.lifeCycle r with
        ⟨version, unloads, hunloads, hrunning, hcalls, -⟩ |
        ⟨version, loads, -, hloads, hrunning, hcalls, -⟩ | ⟨-, -, hadvance⟩
      · refine hrest hcalls ?_
        rw [hrunning, ← hn, Option.elim_some, Option.elim_some, hunloads, List.length_cons]
        exact Nat.add_lt_add_right (Nat.lt_succ_self _) _
      · refine hrest hcalls ?_
        rw [hrunning, ← hn, Option.elim_some, hloads, List.length_cons]
        split
        · exact Nat.lt_succ_self _
        · exact Nat.succ_pos _
      · exact ⟨_, .single trivial hstep, by rw [hadvance], by rw [hadvance]⟩

/-- The server can go through the loops of `PollAndUpdate`. -/
theorem exists_run_of_updates {work : List (Change × String)} (hround : s.round = work)
    (hrunning : s.lifeCycle.running = none) (h : s.manager.updates dirs work = (m, calls, result))
    (hresult : result ≠ .error .outOfRange) :
    ∃ t, Reachable step s t ∧ t.manager = m ∧ t.round = [] ∧ t.lifeCycle.running = none ∧
      t.lifeCycle.calls = calls.reverse ++ s.lifeCycle.calls := by
  induction work generalizing s calls with
  | nil =>
    cases h
    exact ⟨s, .start, rfl, hround, hrunning, rfl⟩
  | cons item work ih =>
    obtain ⟨change, name⟩ := item
    have hstep : s.step (.update (dirs name)) = s.nextUpdate (dirs name) change name work := by
      simp only [step, hround, hrunning, if_true]
    unfold ModelRepositoryManager.updates at h
    split at h
    · next m' failure hupdate =>
      cases h
      cases failure with
      | status status =>
        have hnext : s.step (.update (dirs name)) = some { s with manager := m, round := [] } := by
          simp only [hstep, nextUpdate, hupdate]
        exact ⟨_, .single trivial hnext, rfl, rfl, hrunning, rfl⟩
      | outOfRange => exact absurd rfl hresult
    · next m' call hupdate =>
      generalize hrest : m'.updates dirs work = rest at h
      obtain ⟨m'', calls', result'⟩ := rest
      cases h
      have hnext : s.step (.update (dirs name)) = some
          { manager := m', lifeCycle := s.lifeCycle.asyncLoad call, round := work } := by
        simp only [hstep, nextUpdate, hupdate]
      obtain ⟨lifeCycle, hreturns, hnone, hcalls⟩ := exists_return
        { manager := m', lifeCycle := s.lifeCycle.asyncLoad call, round := work }
      obtain ⟨t, hreach, hmanager, hround', hrunning', hcalls'⟩ :=
        ih (s := { manager := m', lifeCycle := lifeCycle, round := work }) rfl hnone hrest
      refine ⟨t, ((ReachableWhen.single trivial hnext).trans hreturns).trans hreach, hmanager,
        hround', hrunning', ?_⟩
      rw [hcalls', hcalls, List.reverse_cons, List.append_assoc]
      rfl

/-- A round of `PollAndUpdate` is a run of the server, with the same calls of `AsyncLoad`. -/
theorem exists_run_of_pollAndUpdate {snapshot : Snapshot}
    (hpolling : s.manager.pollingEnabled = true) (hround : s.round = [])
    (hrunning : s.lifeCycle.running = none)
    (h : s.manager.pollAndUpdate snapshot dirs = (m, calls, result))
    (hresult : result ≠ .error .outOfRange) :
    ∃ t, Reachable step s t ∧ t.manager = m ∧ t.round = [] ∧ t.lifeCycle.running = none ∧
      t.lifeCycle.calls = calls.reverse ++ s.lifeCycle.calls := by
  have hpoll : s.step (.poll snapshot) = some (s.beginRound snapshot) := by
    simp only [step, hpolling, hround, hrunning, and_self, if_true]
  refine Exists.imp (fun t ht => ⟨(ReachableWhen.single trivial hpoll).trans ht.1, ht.2⟩)
    (?_ : ∃ t, Reachable step (s.beginRound snapshot) t ∧ _)
  unfold ModelRepositoryManager.pollAndUpdate at h
  unfold beginRound
  rw [if_neg (by rw [hpolling]; exact Bool.false_ne_true)] at h
  cases hp : poll s.manager.infos snapshot with
  | error status =>
    simp only [hp] at h ⊢
    cases h
    exact ⟨s, .start, rfl, hround, hrunning, rfl⟩
  | ok polled =>
    obtain ⟨changes, infos⟩ := polled
    simp only [hp] at h ⊢
    have hupdates : ModelRepositoryManager.updates dirs changes.work
        { s.manager with infos := infos } = (m, calls, result) := by
      split at h
      · next hnothing =>
        -- a round without changes has no work
        simp only [Bool.and_eq_true, List.isEmpty_iff] at hnothing
        obtain ⟨⟨hadded, hdeleted⟩, hmodified⟩ := hnothing
        simp only [Changes.work, hadded, hmodified, hdeleted, List.map_nil, List.append_nil]
        exact h
      · exact h
    exact exists_run_of_updates (s := { s with
      manager := { s.manager with infos := infos }, round := changes.work }) rfl hrunning hupdates
      hresult

end Server

end FinBert.Repository
