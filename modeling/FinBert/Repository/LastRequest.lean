import FinBert.Repository.Backends

/-!
# The last request wins

Requests that arrive while a version is loading or unloading are collapsed into one postponed
action, and a new configuration overwrites the old one in place. `Obeys` is what each phase of a
version's life still owes to the last request: a thread that may have copied an older
configuration is always followed by another load.

Results:
1. `kept_obeys`: requests and events keep it.
2. `lastRequest_wins`: once nothing is outstanding, every version is what was last asked of it,
   and after an `AsyncLoad` with `force_unload` the ready versions are those it listed and could
   build.
-/

namespace FinBert.Repository

open FinBert.Serving Transition

/-- The last build used `config`, and succeeded. -/
def Succeeded (lastBuild : Option Build) (config : ModelConfig) : Prop :=
  ∃ status : Status, lastBuild = some { config := config, status := status } ∧ status.isOk

/-- The last build used `config`, and failed. -/
def Failed (lastBuild : Option Build) (config : ModelConfig) : Prop :=
  ∃ status : Status, lastBuild = some { config := config, status := status } ∧ ¬ status.isOk

/-- What a life owes to a request to load `config`. -/
def Life.OwesLoad (config : ModelConfig) (lastBuild : Option Build) : Life → Prop
  | .unknown => False
  | .loading copied next =>
    next = .load ∨ next = .noAction ∧ (copied = none ∨ copied = some config)
  | .ready handle => Succeeded lastBuild config ∧ ∃ b, handle.is = some b ∧ b.config = config
  | .released _ next => next = .load
  | .destroyed _ next => next = .load
  | .unavailable => Failed lastBuild config

/-- What a life owes to a request to unload the version. -/
def Life.OwesUnload : Life → Prop
  | .loading _ next => next = .unload
  | .ready _ => False
  | .released _ next => next ≠ .load
  | .destroyed _ next => next ≠ .load
  | _ => True

/-- The version does what was last asked of it. -/
structure Obeys (v : Version) : Prop where
  platform : v.platform ≠ .unknown
  requested : v.lastRequest ≠ none
  load : ∀ config, v.lastRequest = some (.load config) →
    v.modelConfig = config ∧ v.life.OwesLoad config v.lastBuild
  unload : v.lastRequest = some .unload → v.life.OwesUnload

theorem owesUnload_letGo (handle : BackendHandle) (next : ActionType) (hnext : next ≠ .load) :
    (Life.letGo handle next).OwesUnload := by
  unfold Life.letGo
  split
  · exact hnext
  · exact hnext

theorem owesUnload_unload (life : Life) : life.unload.OwesUnload := by
  cases life with
  | unknown => trivial
  | loading copied next => rfl
  | ready handle => exact owesUnload_letGo handle .noAction nofun
  | released handle next => exact nofun
  | destroyed is next => exact nofun
  | unavailable => trivial

theorem owesLoad_letGo (config : ModelConfig) (lastBuild : Option Build) (handle : BackendHandle) :
    (Life.letGo handle .load).OwesLoad config lastBuild := by
  unfold Life.letGo
  split
  · rfl
  · rfl

theorem owesLoad_reload (config : ModelConfig) (lastBuild : Option Build) (life : Life) :
    life.reload.OwesLoad config lastBuild := by
  cases life with
  | unknown => exact .inr ⟨rfl, .inl rfl⟩
  | loading copied next => exact .inl rfl
  | ready handle => exact owesLoad_letGo config lastBuild handle
  | released handle next => rfl
  | destroyed is next => rfl
  | unavailable => exact .inr ⟨rfl, .inl rfl⟩

/-- The life goes on after a postponed action that is not a load. -/
theorem owesUnload_resume {life : Life} {next : ActionType} (hnext : next ≠ .load)
    (hlife : next = .noAction → life.OwesUnload) : (life.resume next).OwesUnload := by
  cases next with
  | noAction => exact hlife rfl
  | load => exact absurd rfl hnext
  | unload => exact owesUnload_unload life

/-- The life goes on after a postponed load, or after none. -/
theorem owesLoad_resume {config : ModelConfig} {lastBuild : Option Build} {life : Life}
    {next : ActionType} (hlife : next = .load ∨ next = .noAction ∧ life.OwesLoad config lastBuild) :
    (life.resume next).OwesLoad config lastBuild := by
  rcases hlife with rfl | ⟨rfl, hlife⟩
  · exact owesLoad_reload config lastBuild life
  · exact hlife

/-- What a creation from the requested configuration leaves behind. -/
theorem owesLoad_created {platform : Platform} (hplatform : platform ≠ .unknown)
    (config : ModelConfig) (w : Surroundings) :
    (Life.created (createBackend platform config w)).OwesLoad config
      (some { config := config, status := (createBackend platform config w).1 }) := by
  unfold Life.created
  split
  · next hok => exact ⟨⟨_, rfl, hok⟩, _, (createBackend_ok hplatform hok).1, rfl⟩
  · next hok => exact ⟨_, rfl, hok⟩

/-- No event is a request. -/
theorem lastRequest_after {v v' : Version} {event : Event} (h : v.after event = some v') :
    v'.lastRequest = v.lastRequest := by
  rcases after_cases h with ⟨_, -, rfl⟩ | ⟨_, _, _, -, rfl⟩ | ⟨_, _, -, rfl⟩ |
    ⟨_, _, -, rfl⟩ | ⟨_, _, -, rfl | ⟨_, rfl⟩⟩ <;> rfl

/-- No event brings an unloaded version back. -/
theorem owesUnload_after {v v' : Version} {event : Event} (howes : v.life.OwesUnload)
    (h : v.after event = some v') : v'.life.OwesUnload := by
  rcases after_cases h with ⟨next, hlife, rfl⟩ | ⟨config, next, w, hlife, rfl⟩ |
    ⟨is, next, hlife, rfl⟩ | ⟨handle, refs, hlife, rfl⟩ |
    ⟨handle, next, hlife, rfl | ⟨refs, rfl⟩⟩
  · rwa [hlife] at howes
  · rw [hlife] at howes
    obtain rfl := howes
    exact owesUnload_unload _
  · rw [hlife] at howes
    exact owesUnload_resume howes fun _ => trivial
  · rw [hlife] at howes
    exact howes.elim
  · rwa [hlife] at howes
  · rwa [hlife] at howes

/-- A version whose life goes on as `life` still obeys, if that life owes no less. -/
theorem Obeys.goesOn {v : Version} (hv : Obeys v) (life : Life)
    (hload : v.life.OwesLoad v.modelConfig v.lastBuild → life.OwesLoad v.modelConfig v.lastBuild)
    (hunload : v.lastRequest = some .unload → life.OwesUnload) :
    Obeys { v with life := life } where
  platform := hv.platform
  requested := hv.requested
  load config h := by
    obtain ⟨rfl, howes⟩ := hv.load config h
    exact ⟨rfl, hload howes⟩
  unload := hunload

/-- The events bring a version closer to what was last asked of it. -/
theorem Obeys.after {v v' : Version} {event : Event} (hv : Obeys v)
    (h : v.after event = some v') : Obeys v' := by
  have hunload (hrequest : v.lastRequest = some .unload) : v'.life.OwesUnload :=
    owesUnload_after (hv.unload hrequest) h
  rcases after_cases h with ⟨next, hlife, rfl⟩ | ⟨config, next, w, hlife, rfl⟩ |
    ⟨is, next, hlife, rfl⟩ | ⟨handle, refs, hlife, rfl⟩ |
    ⟨handle, next, hlife, rfl | ⟨refs, rfl⟩⟩
  · -- the loading thread copies the configuration that stands now
    refine hv.goesOn _ (fun howes => ?_) hunload
    rw [hlife] at howes
    exact howes.imp_right fun ⟨hnext, _⟩ => ⟨hnext, .inr rfl⟩
  · -- the creation ends: its configuration is the requested one, or another load follows
    refine ⟨hv.platform, hv.requested, fun config' hload => ?_, hunload⟩
    obtain ⟨hconfig, howes⟩ := hv.load config' hload
    rw [hlife] at howes
    refine ⟨hconfig, owesLoad_resume (howes.imp_right fun ⟨hnext, hcopied⟩ => ⟨hnext, ?_⟩)⟩
    obtain rfl := Option.some.inj (hcopied.resolve_left nofun)
    exact owesLoad_created hv.platform config w
  · -- the backend is destroyed, and the postponed action runs
    refine hv.goesOn _ (fun howes => ?_) hunload
    rw [hlife] at howes
    exact owesLoad_resume (.inl howes)
  · refine hv.goesOn _ (fun howes => ?_) hunload
    rwa [hlife] at howes
  · refine hv.goesOn _ (fun howes => ?_) hunload
    rwa [hlife] at howes
  · refine hv.goesOn _ (fun howes => ?_) hunload
    rwa [hlife] at howes

theorem obeys_requestLoad {v : Version} (hplatform : v.platform ≠ .unknown)
    (config : ModelConfig) : Obeys (v.requestLoad config) where
  platform := hplatform
  requested := nofun
  load config' h := by
    obtain rfl := Request.load.inj (Option.some.inj h)
    exact ⟨rfl, owesLoad_reload config v.lastBuild v.life⟩
  unload := nofun

theorem kept_obeys : Kept KnownPlatform Obeys where
  created config hknown := obeys_requestLoad (v := Version.new config) hknown config
  requestUnload v hv := ⟨hv.platform, nofun, nofun, fun _ => owesUnload_unload v.life⟩
  requestLoad _ config hv := obeys_requestLoad hv.platform config
  after _ _ _ hv h := hv.after h

/-! ## The last call for a model -/

variable {known : ModelConfig → Prop} {P : Version → Prop}

/-- The versions of a model that the running call is still going to unload. -/
def BackendLifeCycle.pendingUnloads (s : BackendLifeCycle) (name : String) : List Int :=
  match s.running with
  | some r => if r.name = name then r.unloads else []
  | none => []

/-- The versions of a model that the running call is still going to load. -/
def BackendLifeCycle.pendingLoads (s : BackendLifeCycle) (name : String) : List Int :=
  match s.running with
  | some r => if r.name = name then r.loads else []
  | none => []

theorem notMem_pendingUnloads {s : BackendLifeCycle} (hrunning : s.running = none) (name : String)
    (version : Int) : version ∉ s.pendingUnloads name := by
  rw [BackendLifeCycle.pendingUnloads, hrunning]
  exact List.not_mem_nil

theorem notMem_pendingLoads {s : BackendLifeCycle} (hrunning : s.running = none) (name : String)
    (version : Int) : version ∉ s.pendingLoads name := by
  rw [BackendLifeCycle.pendingLoads, hrunning]
  exact List.not_mem_nil

/-- The running call is the last one for its model, and it unloads before it loads. -/
structure RunningLast (s : BackendLifeCycle) (r : Running) : Prop where
  last : s.lastCall r.name = some r.toLoadCall
  unloadsFirst : r.unloads ≠ [] → r.loads = r.versions
  loads : ∀ version ∈ r.loads, version ∈ r.versions

/-- What the last call for a model has asked for so far. -/
structure Requested (s : BackendLifeCycle) : Prop where
  running : ∀ r, s.running = some r → RunningLast s r
  loaded : ∀ name call, s.lastCall name = some call → ∀ version ∈ call.versions,
    version ∉ s.pendingLoads name →
    ∃ e, s.entry name version = some e ∧ e.lastRequest = some (.load call.config)
  unloaded : ∀ name call, s.lastCall name = some call → call.forceUnload → ∀ version e,
    s.entry name version = some e → version ∉ call.versions →
    version ∉ s.pendingUnloads name → e.lastRequest = some .unload

/-- Nothing has been called. -/
theorem requested_create : Requested .create where
  running _ hr := absurd hr.symm (Option.some_ne_none _)
  loaded _ _ hcall := absurd hcall.symm (Option.some_ne_none _)
  unloaded _ _ hcall := absurd hcall.symm (Option.some_ne_none _)

theorem lastCall_asyncLoad (s : BackendLifeCycle) (call : LoadCall) (name : String) :
    (s.asyncLoad call).lastCall name = if call.name = name then some call else s.lastCall name := by
  unfold BackendLifeCycle.lastCall BackendLifeCycle.asyncLoad
  rw [List.find?_cons]
  split <;> simp_all

/-- A new call has asked for nothing so far. -/
theorem requested_asyncLoad {s : BackendLifeCycle} (hs : Requested s) (hrunning : s.running = none)
    (call : LoadCall) : Requested (s.asyncLoad call) := by
  refine ⟨fun r hr => ?_, fun name call' hlast version hmem hpending => ?_,
    fun name call' hlast hforce version e he hmem hpending => ?_⟩
  · obtain rfl := Option.some.inj hr
    refine ⟨?_, fun _ => rfl, fun _ h => h⟩
    rw [lastCall_asyncLoad]
    exact if_pos rfl
  · rw [lastCall_asyncLoad] at hlast
    split at hlast
    · next hname =>
      obtain rfl := Option.some.inj hlast
      refine absurd ?_ hpending
      show version ∈ if call.name = name then call.versions else []
      rwa [if_pos hname]
    · rw [BackendLifeCycle.entry_asyncLoad]
      exact hs.loaded name call' hlast version hmem (notMem_pendingLoads hrunning name version)
  · rw [BackendLifeCycle.entry_asyncLoad] at he
    rw [lastCall_asyncLoad] at hlast
    split at hlast
    · next hname =>
      obtain rfl := Option.some.inj hlast
      refine absurd ?_ hpending
      show version ∈
        if call.name = name then (if call.forceUnload then _ else [] : List Int) else []
      rw [if_pos hname, if_pos hforce, List.mem_insertionSort, UnorderedMap.mem_keys_iff, hname]
      exact Option.isSome_iff_exists.mpr ⟨e, he⟩
    · exact hs.unloaded name call' hlast hforce version e he hmem
        (notMem_pendingUnloads hrunning name version)

section
variable {s t : BackendLifeCycle} {r : Running} {version : Int}

theorem pendingUnloads_of_running (hr : s.running = some r) (name : String) :
    s.pendingUnloads name = if r.name = name then r.unloads else [] := by
  rw [BackendLifeCycle.pendingUnloads, hr]

theorem pendingLoads_of_running (hr : s.running = some r) (name : String) :
    s.pendingLoads name = if r.name = name then r.loads else [] := by
  rw [BackendLifeCycle.pendingLoads, hr]

theorem lastCall_of_calls (hcalls : t.calls = s.calls) (name : String) :
    t.lastCall name = s.lastCall name := by
  rw [BackendLifeCycle.lastCall, hcalls, BackendLifeCycle.lastCall]

/-- The running call unloads a version. -/
theorem requested_unload (hs : Requested s) (hr : s.running = some r) {unloads : List Int}
    (hunloads : r.unloads = version :: unloads)
    (hrunning : t.running = some { r with unloads := unloads }) (hcalls : t.calls = s.calls)
    (hentry : ∀ name' version', t.entry name' version' =
      if name' = r.name ∧ version' = version then
        (s.entry r.name version).map (requestUnload r.name version)
      else s.entry name' version') : Requested t := by
  obtain ⟨hlast, hfirst, hloads⟩ := hs.running r hr
  have hall : r.loads = r.versions := hfirst (by rw [hunloads]; exact List.cons_ne_nil _ _)
  refine ⟨fun r' hr' => ?_, fun name call hcall version' hmem hpending => ?_,
    fun name call hcall hforce version' e he hmem hpending => ?_⟩
  · obtain rfl := Option.some.inj (hrunning.symm.trans hr')
    exact ⟨(lastCall_of_calls hcalls _).trans hlast, fun _ => hall, hloads⟩
  · rw [lastCall_of_calls hcalls] at hcall
    rw [pendingLoads_of_running hrunning] at hpending
    have hname : r.name ≠ name := by
      -- of its own model the running call has everything still to load
      rintro rfl
      obtain rfl := Option.some.inj (hlast.symm.trans hcall)
      rw [if_pos rfl] at hpending
      exact hpending (hall ▸ hmem)
    rw [hentry, if_neg fun h => hname h.1.symm]
    refine hs.loaded name call hcall version' hmem ?_
    rw [pendingLoads_of_running hr, if_neg hname]
    exact List.not_mem_nil
  · rw [lastCall_of_calls hcalls] at hcall
    rw [pendingUnloads_of_running hrunning] at hpending
    rw [hentry] at he
    split at he
    · obtain ⟨e₀, -, rfl⟩ := Option.map_eq_some_iff.mp he
      rfl
    · next hother =>
      refine hs.unloaded name call hcall hforce version' e he hmem ?_
      rw [pendingUnloads_of_running hr]
      split
      · next hname =>
        rw [if_pos hname] at hpending
        rw [hunloads, List.mem_cons]
        rintro (rfl | htail)
        · exact hother ⟨hname.symm, rfl⟩
        · exact hpending htail
      · exact List.not_mem_nil

/-- The running call loads a version. -/
theorem requested_load (hs : Requested s) (hr : s.running = some r) {loads : List Int} {e : Entry}
    (hunloads : r.unloads = []) (hrest : r.loads = version :: loads)
    (hrunning : t.running = some { r with loads := loads }) (hcalls : t.calls = s.calls)
    (hrequest : e.lastRequest = some (.load r.config))
    (hentry : ∀ name' version', t.entry name' version' =
      if name' = r.name ∧ version' = version then some e else s.entry name' version') :
    Requested t := by
  obtain ⟨hlast, -, hloads⟩ := hs.running r hr
  have hversion : version ∈ r.loads := hrest ▸ List.mem_cons_self
  refine ⟨fun r' hr' => ?_, fun name call hcall version' hmem hpending => ?_,
    fun name call hcall hforce version' e' he hmem hpending => ?_⟩
  · obtain rfl := Option.some.inj (hrunning.symm.trans hr')
    exact ⟨(lastCall_of_calls hcalls _).trans hlast, fun hne => absurd hunloads hne,
      fun version' h => hloads version' (hrest ▸ List.mem_cons_of_mem _ h)⟩
  · rw [lastCall_of_calls hcalls] at hcall
    rw [pendingLoads_of_running hrunning] at hpending
    rw [hentry]
    split
    · next h =>
      obtain ⟨rfl, rfl⟩ := h
      obtain rfl := Option.some.inj (hlast.symm.trans hcall)
      exact ⟨e, rfl, hrequest⟩
    · next hother =>
      refine hs.loaded name call hcall version' hmem ?_
      rw [pendingLoads_of_running hr]
      split
      · next hname =>
        rw [if_pos hname] at hpending
        rw [hrest, List.mem_cons]
        rintro (rfl | htail)
        · exact hother ⟨hname.symm, rfl⟩
        · exact hpending htail
      · exact List.not_mem_nil
  · rw [lastCall_of_calls hcalls] at hcall
    rw [hentry] at he
    split at he
    · next h =>
      obtain ⟨rfl, rfl⟩ := h
      obtain rfl := Option.some.inj (hlast.symm.trans hcall)
      exact absurd (hloads version' hversion) hmem
    · refine hs.unloaded name call hcall hforce version' e' he hmem ?_
      rw [pendingUnloads_of_running hr, hunloads, ite_self]
      exact List.not_mem_nil

/-- The running call returns. -/
theorem requested_return (hs : Requested s) (hr : s.running = some r) (hunloads : r.unloads = [])
    (hloads : r.loads = []) : Requested { s with running := none } := by
  refine ⟨fun _ h => absurd h.symm (Option.some_ne_none _),
    fun name call hcall version hmem _ => ?_,
    fun name call hcall hforce version e he hmem _ => ?_⟩
  · refine hs.loaded name call hcall version hmem ?_
    rw [pendingLoads_of_running hr, hloads, ite_self]
    exact List.not_mem_nil
  · refine hs.unloaded name call hcall hforce version e he hmem ?_
    rw [pendingUnloads_of_running hr, hunloads, ite_self]
    exact List.not_mem_nil

/-- A turn of the loops of the running call. -/
theorem requested_advance (hP : Kept known P) (hrefines : Refines known P s) (hs : Requested s)
    (hr : s.running = some r) : Requested (s.advance r) := by
  rcases BackendLifeCycle.advance_cases s r with
    ⟨version, unloads, hunloads, hrunning, hcalls, hentry⟩ |
    ⟨version, loads, hunloads, hrest, hrunning, hcalls, hentry⟩ | ⟨hunloads, hrest, hadvance⟩
  · exact requested_unload hs hr hunloads hrunning hcalls hentry
  · -- the load is not refused, so the call goes on
    obtain ⟨v, hload, -⟩ := exists_version_of_requestLoad hP hrefines
      (hrefines.running r hr version (hrest ▸ List.mem_cons_self))
    have hcontinues : (s.advance r).running = some { r with loads := loads } := by
      rw [hrunning, hload]
      rfl
    exact requested_load hs hr hunloads hrest hcontinues hcalls rfl hentry
  · rw [hadvance]
    exact requested_return hs hr hunloads hrest

end

/-- An event. -/
theorem requested_event {s : BackendLifeCycle} (hrefines : Refines known P s)
    (hs : Requested s) {name : String} {version : Int} {event : Event} {e e' : Entry}
    (he : s.entry name version = some e) (he' : e.after name version event = some e') :
    Requested (s.setEntry name version e') := by
  have hrequest : e'.lastRequest = e.lastRequest := by
    obtain ⟨v, rfl, -⟩ := hrefines.version name version e he
    rw [after_toEntry] at he'
    obtain ⟨v', hv', rfl⟩ := Option.map_eq_some_iff.mp he'
    exact lastRequest_after hv'
  refine ⟨fun r hr => ⟨(hs.running r hr).last, (hs.running r hr).unloadsFirst,
      (hs.running r hr).loads⟩, fun name' call hcall version' hmem hpending => ?_,
    fun name' call hcall hforce version' e'' he'' hmem hpending => ?_⟩
  · obtain ⟨e₀, he₀, hrequest₀⟩ := hs.loaded name' call hcall version' hmem hpending
    rw [BackendLifeCycle.entry_setEntry]
    split
    · next h =>
      obtain ⟨rfl, rfl⟩ := h
      obtain rfl := Option.some.inj (he.symm.trans he₀)
      exact ⟨e', rfl, hrequest.trans hrequest₀⟩
    · exact ⟨e₀, he₀, hrequest₀⟩
  · rw [BackendLifeCycle.entry_setEntry] at he''
    split at he''
    · next h =>
      obtain ⟨rfl, rfl⟩ := h
      obtain rfl := Option.some.inj he''
      exact hrequest.trans (hs.unloaded name' call hcall hforce version' e he hmem hpending)
    · exact hs.unloaded name' call hcall hforce version' e'' he'' hmem hpending

/-- Every step. -/
theorem requested_step {s t : BackendLifeCycle} (hP : Kept known P) (hrefines : Refines known P s)
    (hs : Requested s) {a : Action} (h : s.step a = some t) : Requested t := by
  rcases BackendLifeCycle.step_cases h with ⟨call, rfl, hrunning, rfl⟩ | ⟨r, rfl, hr, rfl⟩ |
    ⟨name, version, event, e, e', rfl, he, he', rfl⟩
  · exact requested_asyncLoad hs hrunning call
  · exact requested_advance hP hrefines hs hr
  · exact requested_event hrefines hs he he'

theorem requested_of_reachable {s : BackendLifeCycle} (hP : Kept known P)
    (h : ReachableWhen BackendLifeCycle.step (Creates known) .create s) :
    Refines known P s ∧ Requested s :=
  h.invariant (P := fun s => Refines known P s ∧ Requested s)
    ⟨refines_of_reachable hP .start, requested_create⟩ fun _ _ _ hs hok hstep =>
      ⟨refines_step hP hs.1 hok hstep, requested_step hP hs.1 hs.2 hstep⟩

/-! ## When nothing is outstanding -/

/-- The version is served with a backend that was built from `config`. -/
def Serves (e : Entry) (config : ModelConfig) : Prop :=
  e.state = .ready ∧ ∃ handle b, e.handle = some handle ∧ handle.is = some b ∧ b.config = config

/-- The version is served. -/
def BackendLifeCycle.Ready (s : BackendLifeCycle) (name : String) (version : Int) : Prop :=
  ∃ e, s.entry name version = some e ∧ e.state = .ready

/-- What a version with nothing outstanding is. -/
theorem quiescent_cases {s : BackendLifeCycle} (hq : s.Quiescent) {name : String} {version : Int}
    {v : Version} (he : s.entry name version = some v.toEntry) :
    v.life = .unknown ∨ (∃ handle, v.life = .ready handle) ∨ v.life = .unavailable := by
  have hcreations := hq.creations name version _ he
  have hreleased := hq.released name version _ he
  have hcallbacks := hq.callbacks name version _ he
  obtain ⟨platform, modelConfig, life, lastRequest, lastBuild⟩ := v
  cases life with
  | unknown => exact .inl rfl
  | ready handle => exact .inr (.inl ⟨handle, rfl⟩)
  | unavailable => exact .inr (.inr rfl)
  | loading copied next => cases hcreations
  | released handle next => cases hreleased
  | destroyed is next => cases hcallbacks

/-- A version that was last asked to be loaded is served from that configuration, or its build
failed. -/
theorem served_or_failed {s : BackendLifeCycle} (hrefines : Refines KnownPlatform Obeys s)
    (hq : s.Quiescent) {name : String} {version : Int} {e : Entry} {config : ModelConfig}
    (he : s.entry name version = some e) (hload : e.lastRequest = some (.load config)) :
    Serves e config ∧ Succeeded e.lastBuild config ∨
      e.state = .unavailable ∧ Failed e.lastBuild config := by
  obtain ⟨v, rfl, hv⟩ := hrefines.version name version e he
  have howes := (hv.load config hload).2
  rcases quiescent_cases hq he with hlife | ⟨handle, hlife⟩ | hlife
  · rw [hlife] at howes
    exact howes.elim
  · rw [hlife] at howes
    obtain ⟨hsucceeded, b, hb, hconfig⟩ := howes
    exact .inl ⟨⟨congrArg Life.state hlife, handle, b, congrArg Life.handle hlife, hb, hconfig⟩,
      hsucceeded⟩
  · rw [hlife] at howes
    exact .inr ⟨congrArg Life.state hlife, howes⟩

/-- A version that was last asked to be unloaded is not served. -/
theorem not_ready_of_unload {s : BackendLifeCycle} (hrefines : Refines known P s)
    (howed : ∀ v, P v → v.lastRequest = some .unload → v.life.OwesUnload)
    {name : String} {version : Int} {e : Entry} (he : s.entry name version = some e)
    (hunload : e.lastRequest = some .unload) : e.state ≠ .ready := by
  obtain ⟨v, rfl, hv⟩ := hrefines.version name version e he
  have howes := howed v hv hunload
  intro hready
  cases hlife : v.life with
  | ready handle => rw [hlife] at howes; exact howes
  | _ => simp [Version.toEntry, hlife] at hready

theorem not_failed_of_succeeded {lastBuild : Option Build} {config : ModelConfig}
    (h : Succeeded lastBuild config) : ¬ Failed lastBuild config := by
  rintro ⟨status, hstatus, hfailed⟩
  obtain ⟨status', hstatus', hok⟩ := h
  obtain rfl := congrArg Build.status (Option.some.inj (hstatus.symm.trans hstatus'))
  exact hfailed hok

/-- When every version is created with a platform that is known, then once nothing is
outstanding, every version is what was last asked of it; and the ready versions of a model whose
last call was an `AsyncLoad` with `force_unload` are those it listed whose build succeeded. -/
theorem lastRequest_wins {s : BackendLifeCycle}
    (h : ReachableWhen BackendLifeCycle.step (Creates KnownPlatform) .create s)
    (hq : s.Quiescent) :
    (∀ name version e config, s.entry name version = some e →
      e.lastRequest = some (.load config) →
      Serves e config ∨ e.state = .unavailable ∧ Failed e.lastBuild config) ∧
    (∀ name version e, s.entry name version = some e → e.lastRequest = some .unload →
      e.state ≠ .ready) ∧
    ∀ name call, s.lastCall name = some call → call.forceUnload → ∀ version,
      s.Ready name version ↔ version ∈ call.versions ∧
        ∃ e, s.entry name version = some e ∧ Succeeded e.lastBuild call.config := by
  obtain ⟨hrefines, hrequested⟩ := requested_of_reachable kept_obeys h
  refine ⟨fun name version e config he hload => ?_,
    fun name version e he hunload =>
      not_ready_of_unload hrefines (fun _ => Obeys.unload) he hunload,
    fun name call hcall hforce version =>
      ⟨fun ⟨e, he, hready⟩ => ?_, fun ⟨hmem, e, he, hbuilt⟩ => ?_⟩⟩
  · exact (served_or_failed hrefines hq he hload).imp_left And.left
  · have hmem : version ∈ call.versions := by
      -- a version that is not listed was unloaded by the call
      refine Decidable.byContradiction fun hnot => ?_
      refine not_ready_of_unload hrefines (fun _ => Obeys.unload) he ?_ hready
      exact hrequested.unloaded name call hcall hforce version e he hnot
        (notMem_pendingUnloads hq.running name version)
    obtain ⟨e', he', hload⟩ := hrequested.loaded name call hcall version hmem
      (notMem_pendingLoads hq.running name version)
    obtain rfl := Option.some.inj (he.symm.trans he')
    rcases served_or_failed hrefines hq he hload with ⟨-, hbuilt⟩ | ⟨hstate, -⟩
    · exact ⟨hmem, e, he, hbuilt⟩
    · cases hready.symm.trans hstate
  · obtain ⟨e', he', hload⟩ := hrequested.loaded name call hcall version hmem
      (notMem_pendingLoads hq.running name version)
    obtain rfl := Option.some.inj (he.symm.trans he')
    rcases served_or_failed hrefines hq he hload with ⟨hserves, -⟩ | ⟨-, hfailed⟩
    · exact ⟨e, he, hserves.1⟩
    · exact absurd hfailed (not_failed_of_succeeded hbuilt)

/-- While the first version of a model is being loaded, a second call asks for the second one
only. The first version is loaded to its end and then unloaded. -/
theorem lastRequest_wins_forced :
    ∃ s, ReachableWhen BackendLifeCycle.step (Creates KnownPlatform) .create s ∧ s.Quiescent ∧
      ∀ version, s.Ready "bert" version ↔ version ∈ [2] ∧
        ∃ e, s.entry "bert" version = some e ∧ Succeeded e.lastBuild customConfig := by
  have hrun : ((runWhen BackendLifeCycle.step (Creates KnownPlatform) .create
      [.asyncLoad { name := "bert", versions := [1], config := customConfig }, .advance, .advance,
        .event "bert" 1 (.copyConfig 0),
        .asyncLoad { name := "bert", versions := [2], config := customConfig }, .advance, .advance,
        .advance, .event "bert" 1 (.create 0 { cuda := .success 1 }),
        .event "bert" 2 (.copyConfig 0), .event "bert" 1 (.onDestroy 0),
        .event "bert" 2 (.create 0 { cuda := .success 1 })]).map fun s =>
      decide (s.Quiescent ∧ s.lastCall "bert" =
        some { name := "bert", versions := [2], config := customConfig })) = some true := by
    decide
  obtain ⟨s, hs, hchecked⟩ := exists_of_runWhen hrun
  obtain ⟨hquiescent, hlast⟩ := of_decide_eq_true hchecked
  exact ⟨s, hs, hquiescent, (lastRequest_wins hs hquiescent).2.2 "bert" _ hlast rfl⟩

/-- The last request does not win for a version that is served without a backend. -/
theorem not_lastRequest_wins :
    ¬ ∀ (cuda : CudaDeviceCount) (s : BackendLifeCycle),
      ReachableWhen BackendLifeCycle.step (LoadsAccepted cuda) .create s → s.Quiescent →
      ∀ name version e config, s.entry name version = some e →
        e.lastRequest = some (.load config) →
        Serves e config ∨ e.state = .unavailable ∧ Failed e.lastBuild config := by
  intro hall
  obtain ⟨s, e, hs, hquiescent, he, hready, hhandle, hload⟩ := exists_backendless
  rcases hall .noDevice s hs hquiescent "bert" 1 e _ he hload with
    ⟨-, handle, b, hhandle', hb, -⟩ | ⟨hstate, -⟩
  · obtain rfl := Option.some.inj (hhandle.symm.trans hhandle')
    cases hb
  · cases hready.symm.trans hstate

end FinBert.Repository
