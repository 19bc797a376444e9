import FinBert.Repository.Poll
import FinBert.Repository.Server

/-!
# Strict readiness

Neither the entries of the life cycle nor those of the status are ever taken out of their maps.
So a version that was loaded once and is not selected any more stays in the answer of
`ServerStatusManager::Get`, as one that is unavailable, also when its model has left the
repository.

Results:
1. `listed_of_reachable`: the entries of the life cycle are the versions that some call listed.
2. `strictlyReady_iff`: strict readiness is about every entry of the life cycle.
3. `strictlyReady_iff_keepsSelected`: when the selected versions are ready, the server is ready
   exactly when no version was dropped that was ever selected.
-/

namespace FinBert.Repository

open FinBert.Serving Transition

/-! ## The entries of the life cycle -/

/-- What was last asked of the version is that it be unloaded, and it obeys. -/
def Unloaded (v : Version) : Prop := v.lastRequest = some .unload → v.life.OwesUnload

theorem kept_unloaded : Kept (fun _ => True) Unloaded where
  created _ _ := by rintro ⟨⟩
  requestUnload v _ _ := owesUnload_unload v.life
  requestLoad _ _ _ := by rintro ⟨⟩
  after _ _ _ hv h hunload := owesUnload_after (hv ((lastRequest_after h).symm.trans hunload)) h

/-- The entries are the versions that were listed by a call, as far as the running call has come. -/
structure Listed (s : BackendLifeCycle) : Prop where
  listed : ∀ name version e, s.entry name version = some e →
    ∃ call ∈ s.calls, call.name = name ∧ version ∈ call.versions
  entry : ∀ call ∈ s.calls, ∀ version ∈ call.versions, version ∉ s.pendingLoads call.name →
    (s.entry call.name version).isSome

section
variable {s t : BackendLifeCycle} {r : Running}

theorem listed_asyncLoad (hs : Listed s) (hrunning : s.running = none) (call : LoadCall) :
    Listed (s.asyncLoad call) where
  listed name version e he := by
    rw [BackendLifeCycle.entry_asyncLoad] at he
    obtain ⟨call', hmem, hcall'⟩ := hs.listed name version e he
    exact ⟨call', List.mem_cons_of_mem _ hmem, hcall'⟩
  entry call' hmem version hversion hpending := by
    rw [pendingLoads_of_running rfl] at hpending
    rw [BackendLifeCycle.entry_asyncLoad]
    rcases List.mem_cons.mp hmem with rfl | hmem
    · rw [if_pos rfl] at hpending
      exact absurd hversion hpending
    · exact hs.entry call' hmem version hversion (notMem_pendingLoads hrunning _ version)

/-- A step that keeps the entries that there are, and adds none but a pending one. -/
theorem listed_goesOn (hs : Listed s) (hcalls : t.calls = s.calls)
    (hold : ∀ name version, (t.entry name version).isSome → (s.entry name version).isSome ∨
      ∃ call ∈ s.calls, call.name = name ∧ version ∈ call.versions)
    (hnew : ∀ name version, (s.entry name version).isSome ∨
      version ∈ s.pendingLoads name ∧ version ∉ t.pendingLoads name →
      (t.entry name version).isSome) : Listed t where
  listed name version e he := by
    rw [hcalls]
    rcases hold name version (Option.isSome_iff_exists.mpr ⟨e, he⟩) with hsome | hlisted
    · obtain ⟨e₀, he₀⟩ := Option.isSome_iff_exists.mp hsome
      exact hs.listed name version e₀ he₀
    · exact hlisted
  entry call hmem version hversion hpending := by
    rw [hcalls] at hmem
    refine hnew call.name version ?_
    by_cases h : version ∈ s.pendingLoads call.name
    · exact .inr ⟨h, hpending⟩
    · exact .inl (hs.entry call hmem version hversion h)

theorem listed_advance (hrefines : Refines (fun _ => True) Unloaded s) (hrequested : Requested s)
    (hs : Listed s) (hr : s.running = some r) : Listed (s.advance r) := by
  obtain ⟨hlast, -, hloads⟩ := hrequested.running r hr
  rcases BackendLifeCycle.advance_cases s r with
    ⟨version, unloads, -, hrunning, hcalls, hentry⟩ |
    ⟨version, loads, -, hrest, hrunning, hcalls, hentry⟩ | ⟨-, hrest, hadvance⟩
  · have hsome (name : String) (version' : Int) :
        ((s.advance r).entry name version').isSome = (s.entry name version').isSome := by
      rw [hentry]
      split
      · next h => rw [Option.isSome_map, h.1, h.2]
      · rfl
    refine listed_goesOn hs hcalls (fun name version' h => .inl (hsome name version' ▸ h))
      fun name version' h => ?_
    rcases h with h | ⟨hpending, hnot⟩
    · rwa [hsome]
    · rw [pendingLoads_of_running hrunning] at hnot
      rw [pendingLoads_of_running hr] at hpending
      exact absurd hpending hnot
  · -- the load is not refused, so the call goes on
    have hknown : s.entry r.name version = none → (fun _ : ModelConfig => True) r.config :=
      fun _ => trivial
    obtain ⟨v, hload, -⟩ := exists_version_of_requestLoad kept_unloaded hrefines hknown
    have hcontinues : (s.advance r).running = some { r with loads := loads } := by
      rw [hrunning, hload]
      rfl
    refine listed_goesOn hs hcalls (fun name version' h => ?_) fun name version' h => ?_
    · rw [hentry] at h
      split at h
      · next heq =>
        obtain ⟨rfl, rfl⟩ := heq
        exact .inr ⟨r.toLoadCall, List.mem_of_find?_eq_some hlast, rfl,
          hloads version' (hrest ▸ List.mem_cons_self)⟩
      · exact .inl h
    · rw [hentry]
      split
      · rfl
      · next hother =>
        refine h.resolve_right fun ⟨hpending, hnot⟩ => ?_
        rw [pendingLoads_of_running hcontinues] at hnot
        rw [pendingLoads_of_running hr] at hpending
        split at hpending
        · next hname =>
          rw [if_pos hname] at hnot
          rw [hrest, List.mem_cons] at hpending
          exact hother ⟨hname.symm, hpending.resolve_right hnot⟩
        · cases hpending
  · rw [hadvance]
    refine listed_goesOn hs rfl (fun _ _ h => .inl h) fun name version' h => ?_
    refine h.resolve_right fun ⟨hpending, _⟩ => ?_
    rw [pendingLoads_of_running hr, hrest, ite_self] at hpending
    cases hpending

theorem listed_setEntry (hs : Listed s) {name : String} {version : Int} {e : Entry}
    (he : s.entry name version = some e) (e' : Entry) : Listed (s.setEntry name version e') := by
  have hsome (name' : String) (version' : Int) :
      ((s.setEntry name version e').entry name' version').isSome =
        (s.entry name' version').isSome := by
    rw [BackendLifeCycle.entry_setEntry]
    split
    · next h => rw [h.1, h.2, he, Option.isSome_some, Option.isSome_some]
    · rfl
  refine listed_goesOn hs rfl (fun name' version' h => .inl (hsome name' version' ▸ h))
    fun name' version' h => ?_
  rw [hsome]
  exact h.resolve_right fun ⟨hpending, hnot⟩ => hnot hpending

end

/-- What holds of the entries, in every state that the life cycle reaches. -/
theorem listed_of_reachable {s : BackendLifeCycle}
    (h : Reachable BackendLifeCycle.step .create s) :
    Refines (fun _ => True) Unloaded s ∧ Requested s ∧ Listed s := by
  refine h.invariant (P := fun s => Refines (fun _ => True) Unloaded s ∧ Requested s ∧ Listed s)
    ⟨refines_of_reachable kept_unloaded .start, requested_create, ?_⟩
    fun s a t ⟨hrefines, hrequested, hlisted⟩ _ hstep =>
      ⟨refines_step kept_unloaded hrefines (creates_true s a) hstep,
        requested_step kept_unloaded hrefines hrequested hstep, ?_⟩
  · refine ⟨fun name version e he => ?_, fun _ hmem => absurd hmem List.not_mem_nil⟩
    simp [BackendLifeCycle.entry, BackendLifeCycle.versionMap, BackendLifeCycle.create] at he
  · rcases BackendLifeCycle.step_cases hstep with ⟨call, rfl, hrunning, rfl⟩ | ⟨r, rfl, hr, rfl⟩ |
      ⟨name, version, event, e, e', rfl, he, -, rfl⟩
    · exact listed_asyncLoad hlisted hrunning call
    · exact listed_advance hrefines hrequested hlisted hr
    · exact listed_setEntry hlisted he e'

/-! ## The status -/

theorem mem_getVersionStates (s : BackendLifeCycle) (name : String) (version : Int)
    (state : ModelReadyState) : (version, state) ∈ s.getVersionStates name ↔
      ∃ e, s.entry name version = some e ∧ e.state = state := by
  unfold BackendLifeCycle.getVersionStates BackendLifeCycle.entry
  rw [List.mem_map]
  constructor
  · rintro ⟨⟨version', e⟩, hmem, heq⟩
    cases heq
    exact ⟨e, (UnorderedMap.mem_entries_iff _ _ _).mp hmem, rfl⟩
  · rintro ⟨e, he, rfl⟩
    exact ⟨⟨version, e⟩, (UnorderedMap.mem_entries_iff _ _ _).mpr he, rfl⟩

theorem nodup_getVersionStates (s : BackendLifeCycle) (name : String) :
    ((s.getVersionStates name).map Prod.fst).Nodup := by
  unfold BackendLifeCycle.getVersionStates
  rw [List.map_map]
  exact (s.versionMap name).keys_nodup

/-- A version is in the state that the life cycle has for it; one that only the status knows is
unavailable. -/
theorem find_versionStatus (lifeCycle : BackendLifeCycle) (ms : ModelStatus) (version : Int) :
    (setModelVersionReadyState lifeCycle ms).versionStatus.find version =
      match lifeCycle.entry ms.config.name version with
      | some e => some e.state
      | none => (ms.versionStatus.find version).map fun _ => .unavailable := by
  unfold setModelVersionReadyState
  simp only
  cases he : lifeCycle.entry ms.config.name version with
  | some e =>
    exact UnorderedMap.find_insertAll_of_mem _ (nodup_getVersionStates lifeCycle _)
      ((mem_getVersionStates _ _ _ _).mpr ⟨e, he, rfl⟩)
  | none =>
    rw [UnorderedMap.find_insertAll_of_notMem]
    · cases hfind : ms.versionStatus.find version with
      | some state =>
        refine UnorderedMap.find_insertAll_of_mem _ ?_ (List.mem_map.mpr ⟨version, ?_, rfl⟩)
        · rw [List.map_map]
          exact (List.map_id _).symm ▸ ms.versionStatus.keys_nodup
        · rw [UnorderedMap.mem_keys_iff, hfind, Option.isSome_some]
      | none =>
        rw [UnorderedMap.find_insertAll_of_notMem, hfind, Option.map_none]
        rw [List.map_map]
        intro hmem
        obtain ⟨version', hkey, heq⟩ := List.mem_map.mp hmem
        rw [UnorderedMap.mem_keys_iff, show version' = version from heq, hfind] at hkey
        cases hkey
    · intro hmem
      obtain ⟨⟨version', state⟩, hstate, rfl⟩ := List.mem_map.mp hmem
      obtain ⟨e, he', -⟩ := (mem_getVersionStates _ _ _ _).mp hstate
      exact Option.some_ne_none e (he'.symm.trans he)

/-! ## The manager -/

/-- Every model in `infos_` is called by the name of its directory. -/
def NamedInfos (infos : ModelInfoMap) : Prop :=
  ∀ name info, infos.find name = some info → info.modelConfig.name = name

/-- `infos_` and the status are about the models that they name, and no version is in the
status. -/
structure Named (m : ModelRepositoryManager) : Prop where
  infos : NamedInfos m.infos
  status : ∀ name ms, m.status.find name = some ms →
    ms.config.name = name ∧ ms.versionStatus = ∅

theorem pollChildren_named {infos newInfos newInfos' : ModelInfoMap} {snapshot : Snapshot}
    {children : List String} {changes changes' : Changes} (hinfos : NamedInfos infos)
    (hnew : NamedInfos newInfos)
    (h : pollChildren infos snapshot children changes newInfos = .ok (changes', newInfos')) :
    NamedInfos newInfos' := by
  induction children generalizing changes newInfos with
  | nil =>
    cases h
    exact hnew
  | cons child children ih =>
    rw [pollChildren] at h
    split at h
    · cases h
    · next hchild =>
      obtain ⟨-, -, info, rfl, -, hname⟩ := pollChild_ok hchild
      refine ih (fun name info' hfind => ?_) h
      rw [UnorderedMap.find_insert_apply] at hfind
      split at hfind
      · next heq =>
        cases hfind
        exact heq ▸ hname.elim id (hinfos child info)
      · exact hnew name info' hfind

theorem poll_named {infos infos' : ModelInfoMap} {snapshot : Snapshot} {changes : Changes}
    (hinfos : NamedInfos infos) (h : poll infos snapshot = .ok (changes, infos')) :
    NamedInfos infos' := by
  unfold poll at h
  split at h
  · cases h
  · obtain ⟨⟨collected, newInfos⟩, hchildren, heq⟩ := ok_of_map h
    cases heq
    refine pollChildren_named hinfos (fun name info hfind => ?_) hchildren
    rw [UnorderedMap.find_empty] at hfind
    cases hfind

section
variable {m m' : ModelRepositoryManager} {change : Change} {name : String}

theorem updateConfigForModel_ok {status status' : ServerStatus} {config : ModelConfig}
    (h : updateConfigForModel status name config = .ok status') :
    ∃ old, status.find name = some old ∧
      status' = status.insert name { old with config := config } := by
  unfold updateConfigForModel at h
  split at h
  · cases h
  · next old hold => exact ⟨old, hold, (Except.ok.inj h).symm⟩

/-- Neither function takes a model out of the status, or puts a version into it. -/
theorem trackStatus_ok {config : ModelConfig} {status : ServerStatus}
    (h : m.trackStatus change name config = .ok status) :
    ∃ ms, status = m.status.insert name ms ∧ ms.config = config ∧
      (ms.versionStatus = ∅ ∨
        ∃ old, m.status.find name = some old ∧ ms.versionStatus = old.versionStatus) := by
  cases change with
  | added =>
    cases h
    exact ⟨_, rfl, rfl, .inl rfl⟩
  | modified =>
    obtain ⟨old, hold, rfl⟩ := updateConfigForModel_ok h
    exact ⟨_, rfl, rfl, .inr ⟨old, hold, rfl⟩⟩
  | deleted =>
    obtain ⟨old, hold, rfl⟩ := updateConfigForModel_ok h
    exact ⟨_, rfl, rfl, .inr ⟨old, hold, rfl⟩⟩

/-- The status after a turn of the loops of `PollAndUpdate` has the models that it had, and the
one that is loaded. -/
theorem update_named {subdirs : Except Status (List String)} {result : Except Failure LoadCall}
    (hm : Named m) (h : m.update subdirs change name = (m', result)) :
    Named m' ∧ (∀ name', (m.status.find name').isSome → (m'.status.find name').isSome) ∧
      ∀ call, result = .ok call → call.forceUnload = true ∧
        (call.versions ≠ [] → (m'.status.find call.name).isSome) := by
  unfold ModelRepositoryManager.update at h
  split at h
  · cases h
    refine ⟨hm, fun _ hsome => hsome, fun call hcall => ?_⟩
    cases hcall
    exact ⟨rfl, fun hne => absurd rfl hne⟩
  split at h
  · cases h
    exact ⟨hm, fun _ hsome => hsome, by rintro _ ⟨⟩⟩
  next config hconfig =>
  have hname : config.name = name := by
    unfold ModelRepositoryManager.getModelConfig at hconfig
    split at hconfig
    · cases hconfig
    · next info hinfo =>
      cases hconfig
      exact hm.infos name info hinfo
  split at h
  · cases h
    exact ⟨hm, fun _ hsome => hsome, by rintro _ ⟨⟩⟩
  · next status htrack =>
    obtain ⟨ms, rfl, hmsConfig, hversions⟩ := trackStatus_ok htrack
    cases h
    refine ⟨⟨hm.infos, fun name' ms' hfind => ?_⟩, fun name' hsome => ?_, fun call hcall => ?_⟩
    · rw [UnorderedMap.find_insert_apply] at hfind
      split at hfind
      · next heq =>
        cases hfind
        refine ⟨by rw [hmsConfig, hname, heq], ?_⟩
        rcases hversions with hempty | ⟨old, hold, hkept⟩
        · exact hempty
        · exact hkept.trans (hm.status name old hold).2
      · exact hm.status name' ms' hfind
    · rw [UnorderedMap.find_insert_apply]
      split
      · rfl
      · exact hsome
    · obtain ⟨versions, -, rfl⟩ := ok_of_map hcall
      refine ⟨rfl, fun _ => ?_⟩
      rw [UnorderedMap.find_insert_apply, if_pos rfl, Option.isSome_some]

end

/-! ## The server -/

namespace Server

variable {s t : Server}

/-- What a step does. -/
theorem step_cases {a : ServerAction} (h : s.step a = some t) :
    (∃ snapshot, a = .poll snapshot ∧ s.round = [] ∧ s.lifeCycle.running = none ∧
      t = s.beginRound snapshot) ∨
    (∃ subdirs change name round, a = .update subdirs ∧ s.round = (change, name) :: round ∧
      s.lifeCycle.running = none ∧ s.nextUpdate subdirs change name round = some t) ∨
    (∃ action lifeCycle, (∀ call, action ≠ .asyncLoad call) ∧
      s.lifeCycle.step action = some lifeCycle ∧ t = { s with lifeCycle := lifeCycle }) := by
  cases a with
  | poll snapshot =>
    simp only [step] at h
    split at h
    · next hguard =>
      exact .inl ⟨snapshot, rfl, hguard.2.1, hguard.2.2, (Option.some.inj h).symm⟩
    · cases h
  | update subdirs =>
    simp only [step] at h
    split at h
    · cases h
    · next change name round hround =>
      split at h
      · next hrunning => exact .inr (.inl ⟨subdirs, change, name, round, rfl, hround, hrunning, h⟩)
      · cases h
  | advance =>
    obtain ⟨lifeCycle, hstep, ht⟩ := Option.map_eq_some_iff.mp h
    exact .inr (.inr ⟨.advance, lifeCycle, by rintro _ ⟨⟩, hstep, ht.symm⟩)
  | event name version event =>
    obtain ⟨lifeCycle, hstep, ht⟩ := Option.map_eq_some_iff.mp h
    exact .inr (.inr ⟨.event name version event, lifeCycle, by rintro _ ⟨⟩, hstep, ht.symm⟩)

theorem nextUpdate_cases {subdirs : Except Status (List String)} {change : Change}
    {name : String} {round : List (Change × String)}
    (h : s.nextUpdate subdirs change name round = some t) :
    (∃ m call, s.manager.update subdirs change name = (m, .ok call) ∧
      t = { manager := m, lifeCycle := s.lifeCycle.asyncLoad call, round := round }) ∨
    (∃ m status, s.manager.update subdirs change name = (m, .error (.status status)) ∧
      t = { s with manager := m, round := [] }) := by
  unfold nextUpdate at h
  split at h
  · next m call hupdate => exact .inl ⟨m, call, hupdate, (Option.some.inj h).symm⟩
  · next m status hupdate => exact .inr ⟨m, status, hupdate, (Option.some.inj h).symm⟩
  · cases h

theorem beginRound_cases (s : Server) (snapshot : Snapshot) : s.beginRound snapshot = s ∨
    ∃ changes infos, poll s.manager.infos snapshot = .ok (changes, infos) ∧
      s.beginRound snapshot =
        { s with manager := { s.manager with infos := infos }, round := changes.work } := by
  unfold beginRound
  split
  · exact .inl rfl
  · next changes infos hpoll => exact .inr ⟨changes, infos, hpoll, rfl⟩

/-- The status has every model that a version was listed for. -/
structure Tracked (s : Server) : Prop where
  named : Named s.manager
  calls : ∀ call ∈ s.lifeCycle.calls, call.forceUnload = true ∧
    (call.versions ≠ [] → (s.manager.status.find call.name).isSome)
  lifeCycle : Reachable BackendLifeCycle.step .create s.lifeCycle

/-- Only `asyncLoad` is a call. -/
theorem calls_of_step {s t : BackendLifeCycle} {action : Action}
    (hcall : ∀ call, action ≠ .asyncLoad call) (h : s.step action = some t) :
    t.calls = s.calls := by
  rcases BackendLifeCycle.step_cases h with ⟨call, rfl, -, -⟩ | ⟨r, -, -, rfl⟩ |
    ⟨_, _, _, _, _, -, -, -, rfl⟩
  · exact absurd rfl (hcall call)
  · rcases BackendLifeCycle.advance_cases s r with ⟨_, _, -, -, hcalls, -⟩ |
      ⟨_, _, -, -, -, hcalls, -⟩ | ⟨-, -, hadvance⟩
    · exact hcalls
    · exact hcalls
    · rw [hadvance]
  · rfl

theorem Tracked.step {a : ServerAction} (hs : s.Tracked) (h : s.step a = some t) : t.Tracked := by
  rcases step_cases h with ⟨snapshot, rfl, -, -, rfl⟩ |
    ⟨subdirs, change, name, round, rfl, -, hrunning, hnext⟩ |
    ⟨action, lifeCycle, hcall, hstep, rfl⟩
  · rcases beginRound_cases s snapshot with heq | ⟨changes, infos, hpoll, heq⟩
    · rwa [heq]
    · rw [heq]
      exact ⟨⟨poll_named hs.named.infos hpoll, hs.named.status⟩, hs.calls, hs.lifeCycle⟩
  · rcases nextUpdate_cases hnext with ⟨m, call, hupdate, rfl⟩ | ⟨m, status, hupdate, rfl⟩
    · obtain ⟨hnamed, hgrows, hcalled⟩ := update_named hs.named hupdate
      refine ⟨hnamed, fun call' hmem => ?_, hs.lifeCycle.step (a := .asyncLoad call) trivial ?_⟩
      · rcases List.mem_cons.mp hmem with rfl | hmem
        · exact hcalled _ rfl
        · exact ⟨(hs.calls call' hmem).1, fun hne => hgrows _ ((hs.calls call' hmem).2 hne)⟩
      · simp only [BackendLifeCycle.step, hrunning, Option.isNone_none, if_true]
    · obtain ⟨hnamed, hgrows, -⟩ := update_named hs.named hupdate
      exact ⟨hnamed, fun call hmem =>
        ⟨(hs.calls call hmem).1, fun hne => hgrows _ ((hs.calls call hmem).2 hne)⟩, hs.lifeCycle⟩
  · refine ⟨hs.named, fun call hmem => ?_, hs.lifeCycle.step trivial hstep⟩
    rw [calls_of_step hcall hstep] at hmem
    exact hs.calls call hmem

theorem tracked_of_reachable (h : Reachable Server.step {} s) : s.Tracked := by
  refine h.invariant ⟨⟨fun name info hfind => ?_, fun name ms hfind => ?_⟩,
      fun _ hmem => absurd hmem List.not_mem_nil, .start⟩
    fun _ _ _ hs _ hstep => hs.step hstep
  · rw [UnorderedMap.find_empty] at hfind
    cases hfind
  · rw [UnorderedMap.find_empty] at hfind
    cases hfind

/-- Strict readiness is about every version that the life cycle has an entry for. -/
theorem strictlyReady_iff (hs : s.Tracked) : s.strictlyReady = true ↔
    ∀ name version e, (s.manager.status.find name).isSome →
      s.lifeCycle.entry name version = some e → e.state = .ready := by
  have hanswer : s.strictlyReady = s.manager.status.entries.all fun ms =>
      (setModelVersionReadyState s.lifeCycle ms.2).versionStatus.entries.all fun vs =>
        vs.2 = .ready := by
    unfold strictlyReady handleHealth ServerStatus.get
    simp [List.all_map, Function.comp_def]
  have hversions (ms : ModelStatus) :
      ((setModelVersionReadyState s.lifeCycle ms).versionStatus.entries.all fun vs =>
        vs.2 = .ready) = true ↔ ∀ version state,
          (setModelVersionReadyState s.lifeCycle ms).versionStatus.find version = some state →
            state = .ready :=
    (UnorderedMap.all_entries_iff _ fun state => decide (state = ModelReadyState.ready)).trans
      (forall₃_congr fun _ _ _ => decide_eq_true_iff)
  rw [hanswer]
  refine (UnorderedMap.all_entries_iff s.manager.status fun ms =>
    (setModelVersionReadyState s.lifeCycle ms).versionStatus.entries.all fun vs =>
      vs.2 = .ready).trans ?_
  simp only [hversions, find_versionStatus]
  constructor
  · intro hall name version e hsome he
    obtain ⟨ms, hms⟩ := Option.isSome_iff_exists.mp hsome
    refine hall name ms hms version e.state ?_
    rw [(hs.named.status name ms hms).1, he]
  · intro hall name ms hms version state hfind
    obtain ⟨hname, hempty⟩ := hs.named.status name ms hms
    rw [hname] at hfind
    cases he : s.lifeCycle.entry name version with
    | some e =>
      rw [he] at hfind
      obtain rfl := Option.some.inj hfind
      exact hall name version e (Option.isSome_iff_exists.mpr ⟨ms, hms⟩) he
    | none =>
      rw [he, hempty, UnorderedMap.find_empty] at hfind
      cases hfind

/-- No version that was ever selected has been dropped: the last call for its model lists it too,
and the model is still in the repository, or its removal was lost and the version is served. -/
def KeepsSelected (s : Server) : Prop :=
  ∀ call ∈ s.lifeCycle.calls, ∀ version ∈ call.versions,
    ∃ last ∈ s.lifeCycle.lastCall call.name, version ∈ last.versions ∧
      (call.name ∈ s.manager.infos.keys ∨ s.lifeCycle.Ready call.name version)

/-- In a quiescent server whose selected versions are all ready, `HandleHealth` reports that the
server is ready exactly when no selected version was ever dropped. -/
theorem strictlyReady_iff_keepsSelected (h : Reachable Server.step {} s) (hq : s.Quiescent)
    (hready : s.SelectedReady) : s.strictlyReady = true ↔ s.KeepsSelected := by
  have htracked := tracked_of_reachable h
  obtain ⟨hrefines, hrequested, hlisted⟩ := listed_of_reachable htracked.lifeCycle
  rw [strictlyReady_iff htracked]
  constructor
  · intro hall call hmem version hversion
    have hne : call.versions ≠ [] := List.ne_nil_of_mem hversion
    have hentry : (s.lifeCycle.entry call.name version).isSome :=
      hlisted.entry call hmem version hversion (notMem_pendingLoads hq.lifeCycle.running _ version)
    obtain ⟨e, he⟩ := Option.isSome_iff_exists.mp hentry
    have hstate := hall call.name version e ((htracked.calls call hmem).2 hne) he
    obtain ⟨last, hlast⟩ := Option.isSome_iff_exists.mp
      (List.find?_isSome.mpr ⟨call, hmem, decide_eq_true rfl⟩ :
        (s.lifeCycle.lastCall call.name).isSome)
    refine ⟨last, hlast, Decidable.byContradiction fun hnot => ?_, .inr ⟨e, he, hstate⟩⟩
    -- a version that the last call does not list was unloaded by it
    have hforce := (htracked.calls last (List.mem_of_find?_eq_some hlast)).1
    have hunload := hrequested.unloaded call.name last hlast hforce version e he hnot
      (notMem_pendingUnloads hq.lifeCycle.running _ version)
    exact not_ready_of_unload hrefines (fun _ hv => hv) he hunload hstate
  · intro hkeeps name version e _ he
    obtain ⟨call, hmem, rfl, hversion⟩ := hlisted.listed name version e he
    obtain ⟨last, hlast, hselected, hstays⟩ := hkeeps call hmem version hversion
    obtain ⟨e', he', hstate⟩ := hstays.elim
      (fun hrepository => hready call.name hrepository last hlast version hselected) id
    obtain rfl := Option.some.inj (he.symm.trans he')
    exact hstate

/-- A repository with one model, all of whose versions are served. -/
def oneModel (mtime : Int) : Snapshot where
  subdirs := .ok ["bert"]
  modifiedTime _ := mtime
  modelConfig _ := .ok { customConfig with versionPolicy := some .all }
  cuda := .noDevice

/-- A repository whose models have been removed. -/
def noModel : Snapshot where
  subdirs := .ok []
  modifiedTime _ := 0
  modelConfig _ := .error { code := .notFound, message := "failed to read config.pbtxt" }
  cuda := .noDevice

/-- The first version of the model is loaded. -/
def loadFirst : List ServerAction :=
  [.poll (oneModel 1), .update (.ok ["1"]), .advance, .advance,
    .event "bert" 1 (.copyConfig 0), .event "bert" 1 (.create 0 { cuda := .noDevice })]

/-- A second version is added, and both are loaded. -/
theorem strictlyReady_iff_keepsSelected_grown :
    ∃ s, Reachable Server.step {} s ∧ s.Quiescent ∧ s.SelectedReady ∧
      s.lifeCycle.Ready "bert" 1 ∧ s.lifeCycle.Ready "bert" 2 ∧
      (s.strictlyReady = true ↔ s.KeepsSelected) := by
  have hrun : ((runWhen Server.step (fun _ _ => True) {} (loadFirst ++
      [.poll (oneModel 2), .update (.ok ["1", "2"]), .advance, .advance, .advance, .advance,
        .event "bert" 1 (.onDestroy 0), .event "bert" 1 (.copyConfig 0),
        .event "bert" 2 (.copyConfig 0), .event "bert" 1 (.create 0 { cuda := .noDevice }),
        .event "bert" 2 (.create 0 { cuda := .noDevice })])).map fun s =>
      decide (s.Quiescent ∧ s.SelectedReady ∧ s.lifeCycle.Ready "bert" 1 ∧
        s.lifeCycle.Ready "bert" 2)) = some true := by
    decide
  obtain ⟨s, hs, hchecked⟩ := exists_of_runWhen hrun
  obtain ⟨hquiescent, hselected, hfirst, hsecond⟩ := of_decide_eq_true hchecked
  exact ⟨s, hs, hquiescent, hselected, hfirst, hsecond,
    strictlyReady_iff_keepsSelected hs hquiescent hselected⟩

/-- A server whose only model has been removed is not ready any more. -/
theorem not_strictlyReady :
    ¬ ∀ s : Server, Reachable Server.step {} s → s.Quiescent → s.SelectedReady →
      s.strictlyReady = true := by
  have hrun : ((runWhen Server.step (fun _ _ => True) {} (loadFirst ++
      [.poll noModel, .update (.ok []), .advance, .advance, .event "bert" 1 (.onDestroy 0)])).map
        fun s => decide (s.Quiescent ∧ s.SelectedReady ∧ s.manager.infos.keys = [] ∧
          s.strictlyReady = false)) = some true := by
    decide
  obtain ⟨s, hs, hchecked⟩ := exists_of_runWhen hrun
  obtain ⟨hquiescent, hselected, -, hanswer⟩ := of_decide_eq_true hchecked
  intro hall
  exact Bool.false_ne_true (hanswer.symm.trans (hall s hs hquiescent hselected))

end Server

end FinBert.Repository
