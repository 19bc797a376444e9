import FinBert.Repository.Version

/-!
# The invariant of the life cycle

Every entry of the map is the entry of a `Version`, in every state that any interleaving of
`AsyncLoad` calls, creations, dropped references and callbacks reaches.

Results:
1. `step_cases`, `advance_cases`: all that a step can do.
2. `Kept.version_of_reachable`: a property of versions that requests and events keep holds of
   every entry.
3. `consistent_of_reachable`: handle, state, postponed action and outstanding threads of an
   entry agree, and the branches that report an inconsistency are never taken.
-/

namespace FinBert.Repository

open FinBert.Serving Transition

namespace BackendLifeCycle

section
variable {s t : BackendLifeCycle} {name name' : String} {version version' : Int}

theorem entry_setEntry (s : BackendLifeCycle) (name : String) (version : Int) (e : Entry)
    (name' : String) (version' : Int) :
    (s.setEntry name version e).entry name' version' =
      if name' = name ∧ version' = version then some e else s.entry name' version' := by
  unfold entry versionMap setEntry
  rw [UnorderedMap.find_insert_apply]
  split
  · next hname =>
    rw [Option.getD_some, UnorderedMap.find_insert_apply]
    split
    · next hversion => rw [if_pos ⟨hname, hversion⟩]
    · next hversion => rw [if_neg fun h => hversion h.2, hname]; rfl
  · next hname => rw [if_neg fun h => hname h.1]

theorem entry_asyncLoad (s : BackendLifeCycle) (call : LoadCall) (name : String) (version : Int) :
    (s.asyncLoad call).entry name version = s.entry name version := by
  unfold entry versionMap asyncLoad
  rw [UnorderedMap.find_insert_apply]
  split
  · next h => rw [h]; rfl
  · rfl

/-- The entries are what the map has under the keys of its keys. -/
theorem entry_eq_some_iff {e : Entry} : s.entry name version = some e ↔
    ∃ versions, ⟨name, versions⟩ ∈ s.map.entries ∧ ⟨version, e⟩ ∈ versions.entries := by
  constructor
  · intro h
    unfold entry versionMap at h
    cases hname : s.map.find name with
    | none => rw [hname] at h; simp at h
    | some versions =>
      rw [hname, Option.getD_some] at h
      exact ⟨versions, AList.mem_lookup_iff.mp hname, AList.mem_lookup_iff.mp h⟩
  · rintro ⟨versions, hname, hversion⟩
    have hfind : s.map.find name = some versions := AList.mem_lookup_iff.mpr hname
    unfold entry versionMap
    rw [hfind, Option.getD_some]
    exact AList.mem_lookup_iff.mpr hversion

instance (s : BackendLifeCycle) : Decidable s.Quiescent :=
  decidable_of_iff
    (s.running = none ∧ ∀ m ∈ s.map.entries, ∀ e ∈ m.2.entries,
      e.2.creations = [] ∧ e.2.released = [] ∧ e.2.callbacks = [])
    ⟨fun ⟨hrunning, hall⟩ =>
      have hentry : ∀ name version e, s.entry name version = some e →
          e.creations = [] ∧ e.released = [] ∧ e.callbacks = [] := fun _ _ _ he =>
        have ⟨_, hname, hversion⟩ := entry_eq_some_iff.mp he
        hall _ hname _ hversion
      ⟨hrunning, fun _ _ _ he => (hentry _ _ _ he).1, fun _ _ _ he => (hentry _ _ _ he).2.1,
        fun _ _ _ he => (hentry _ _ _ he).2.2⟩,
    fun h => ⟨h.running, fun ⟨_, _⟩ hm ⟨_, _⟩ he =>
      have hentry := entry_eq_some_iff.mpr ⟨_, hm, he⟩
      ⟨h.creations _ _ _ hentry, h.released _ _ _ hentry, h.callbacks _ _ _ hentry⟩⟩⟩

/-- What a step does. -/
theorem step_cases {a : Action} (h : s.step a = some t) :
    (∃ call, a = .asyncLoad call ∧ s.running = none ∧ t = s.asyncLoad call) ∨
    (∃ r, a = .advance ∧ s.running = some r ∧ t = s.advance r) ∨
    (∃ name version event e e', a = .event name version event ∧
      s.entry name version = some e ∧ e.after name version event = some e' ∧
      t = s.setEntry name version e') := by
  cases a with
  | asyncLoad call =>
    simp only [step] at h
    split at h
    · next hrunning =>
      exact .inl ⟨call, rfl, Option.isNone_iff_eq_none.mp hrunning, (Option.some.inj h).symm⟩
    · cases h
  | advance =>
    obtain ⟨r, hr, ht⟩ := Option.map_eq_some_iff.mp h
    exact .inr (.inl ⟨r, rfl, hr, ht.symm⟩)
  | event name version event =>
    simp only [step] at h
    split at h
    · cases h
    · split at h
      · next e he =>
        obtain ⟨e', he', ht⟩ := Option.map_eq_some_iff.mp h
        exact .inr (.inr ⟨name, version, event, e, e', rfl, he, he', ht.symm⟩)
      · cases h

/-- What a turn of the loops of `AsyncLoad` does. -/
theorem advance_cases (s : BackendLifeCycle) (r : Running) :
    (∃ version unloads, r.unloads = version :: unloads ∧
      (s.advance r).running = some { r with unloads := unloads } ∧
      (s.advance r).calls = s.calls ∧
      ∀ name' version', (s.advance r).entry name' version' =
        if name' = r.name ∧ version' = version then
          (s.entry r.name version).map (requestUnload r.name version)
        else s.entry name' version') ∨
    (∃ version loads, r.unloads = [] ∧ r.loads = version :: loads ∧
      (s.advance r).running =
        (if (requestLoad r.name version r.config
            ((s.entry r.name version).getD (.new r.config))).1.isOk then
          some { r with loads := loads } else none) ∧
      (s.advance r).calls = s.calls ∧
      ∀ name' version', (s.advance r).entry name' version' =
        if name' = r.name ∧ version' = version then
          some (requestLoad r.name version r.config
            ((s.entry r.name version).getD (.new r.config))).2
        else s.entry name' version') ∨
    (r.unloads = [] ∧ r.loads = [] ∧ s.advance r = { s with running := none }) := by
  cases hunloads : r.unloads with
  | cons version unloads =>
    refine .inl ⟨version, unloads, rfl, ?_⟩
    simp only [advance, hunloads]
    have hentry : BackendLifeCycle.entry { s with running := some { r with unloads := unloads } }
        r.name version = s.entry r.name version := rfl
    rw [hentry]
    cases he : s.entry r.name version with
    | some e => exact ⟨rfl, rfl, fun name' version' => entry_setEntry _ _ _ _ name' version'⟩
    | none =>
      refine ⟨rfl, rfl, fun name' version' => ?_⟩
      by_cases h : name' = r.name ∧ version' = version
      · rw [if_pos h, h.1, h.2]
        exact he
      · rw [if_neg h]
        rfl
  | nil =>
    cases hloads : r.loads with
    | cons version loads =>
      refine .inr (.inl ⟨version, loads, rfl, rfl, ?_⟩)
      simp only [advance, hunloads, hloads]
      exact ⟨trivial, rfl, fun name' version' => entry_setEntry s _ _ _ name' version'⟩
    | nil =>
      refine .inr (.inr ⟨rfl, rfl, ?_⟩)
      simp only [advance, hunloads, hloads]

end

end BackendLifeCycle

/-! ## Properties of versions -/

/-- A property of versions that everything that happens to a version keeps. `known` is what the
configurations satisfy that versions are created with. -/
structure Kept (known : ModelConfig → Prop) (P : Version → Prop) : Prop where
  created : ∀ config, known config → P ((Version.new config).requestLoad config)
  requestUnload : ∀ v, P v → P v.requestUnload
  requestLoad : ∀ v config, P v → P (v.requestLoad config)
  after : ∀ v event v', P v → v.after event = some v' → P v'

/-- The steps in which every version that a call of `AsyncLoad` creates is `known`. -/
def Creates (known : ModelConfig → Prop) (s : BackendLifeCycle) : Action → Prop
  | .asyncLoad call =>
    ∀ version ∈ call.versions, s.entry call.name version = none → known call.config
  | _ => True

/-- Every entry is the entry of a version with the property `P`, and what the running call will
create is `known`. -/
structure Refines (known : ModelConfig → Prop) (P : Version → Prop) (s : BackendLifeCycle) :
    Prop where
  version : ∀ name version e, s.entry name version = some e → ∃ v : Version, e = v.toEntry ∧ P v
  running : ∀ r, s.running = some r →
    ∀ version ∈ r.loads, s.entry r.name version = none → known r.config

section
variable {known : ModelConfig → Prop} {P : Version → Prop} (hP : Kept known P)
include hP

/-- What `AsyncLoad` does to an entry that it loads, also to a new one. -/
theorem exists_version_of_requestLoad {s : BackendLifeCycle} (hs : Refines known P s)
    {name : String} {version : Int} {config : ModelConfig}
    (hknown : s.entry name version = none → known config) :
    ∃ v : Version, requestLoad name version config ((s.entry name version).getD (.new config)) =
      (.ok, v.toEntry) ∧ P v := by
  cases he : s.entry name version with
  | none =>
    exact ⟨_, requestLoad_toEntry name version (Version.new config) config,
      hP.created config (hknown he)⟩
  | some e =>
    obtain ⟨v, rfl, hv⟩ := hs.version name version e he
    exact ⟨_, requestLoad_toEntry name version v config,
      hP.requestLoad v config hv⟩

/-- A turn of the loops of `AsyncLoad`. -/
theorem refines_advance {s : BackendLifeCycle} (hs : Refines known P s) {r : Running}
    (hr : s.running = some r) : Refines known P (s.advance r) := by
  rcases BackendLifeCycle.advance_cases s r with ⟨version, unloads, hunloads, hrunning, -, hentry⟩ |
    ⟨version, loads, hunloads, hloads, hrunning, -, hentry⟩ | ⟨-, -, hadvance⟩
  · refine ⟨fun name' version' e he => ?_, fun r' hr' version' hmem hnone => ?_⟩
    · rw [hentry] at he
      split at he
      · obtain ⟨e₀, he₀, rfl⟩ := Option.map_eq_some_iff.mp he
        obtain ⟨v, rfl, hv⟩ := hs.version _ _ e₀ he₀
        exact ⟨_, requestUnload_toEntry _ _ v, hP.requestUnload v hv⟩
      · exact hs.version _ _ e he
    · obtain rfl := Option.some.inj (hrunning.symm.trans hr')
      refine hs.running r hr version' hmem ?_
      rw [hentry] at hnone
      split at hnone
      · next h => rw [h.2]; exact Option.map_eq_none_iff.mp hnone
      · exact hnone
  · have hmem : version ∈ r.loads := hloads ▸ List.mem_cons_self
    obtain ⟨v, hload, hv⟩ :=
      exists_version_of_requestLoad hP hs (hs.running r hr version hmem)
    rw [hload] at hrunning hentry
    refine ⟨fun name' version' e he => ?_, fun r' hr' version' hmem' hnone => ?_⟩
    · rw [hentry] at he
      split at he
      · exact ⟨v, (Option.some.inj he).symm, hv⟩
      · exact hs.version _ _ e he
    · obtain rfl := Option.some.inj (hrunning.symm.trans hr')
      refine hs.running r hr version' (hloads ▸ List.mem_cons_of_mem _ hmem') ?_
      rw [hentry] at hnone
      split at hnone
      · cases hnone
      · exact hnone
  · rw [hadvance]
    exact ⟨hs.version, nofun⟩

/-- Every step. -/
theorem refines_step {s t : BackendLifeCycle} {a : Action} (hs : Refines known P s)
    (hok : Creates known s a) (h : s.step a = some t) : Refines known P t := by
  rcases BackendLifeCycle.step_cases h with ⟨call, rfl, -, rfl⟩ | ⟨r, rfl, hr, rfl⟩ |
    ⟨name, version, event, e, e', rfl, he, he', rfl⟩
  · refine ⟨fun name' version' e he => ?_, fun r hr version' hmem hnone => ?_⟩
    · rw [BackendLifeCycle.entry_asyncLoad] at he
      exact hs.version _ _ e he
    · obtain rfl := Option.some.inj hr
      rw [BackendLifeCycle.entry_asyncLoad] at hnone
      exact hok version' hmem hnone
  · exact refines_advance hP hs hr
  · obtain ⟨v, rfl, hv⟩ := hs.version _ _ e he
    rw [after_toEntry] at he'
    obtain ⟨v', hv', rfl⟩ := Option.map_eq_some_iff.mp he'
    refine ⟨fun name' version' e'' he'' => ?_, fun r hr version' hmem hnone => ?_⟩
    · rw [BackendLifeCycle.entry_setEntry] at he''
      split at he''
      · exact ⟨v', (Option.some.inj he'').symm, hP.after v event v' hv hv'⟩
      · exact hs.version _ _ e'' he''
    · refine hs.running r hr version' hmem ?_
      rw [BackendLifeCycle.entry_setEntry] at hnone
      split at hnone
      · cases hnone
      · exact hnone

/-- Every entry of a reachable state is the entry of a version with the property. -/
theorem refines_of_reachable {s : BackendLifeCycle}
    (h : ReachableWhen BackendLifeCycle.step (Creates known) .create s) : Refines known P s := by
  refine h.invariant
    ⟨fun name version e he => ?_, fun _ hr => absurd hr.symm (Option.some_ne_none _)⟩
    fun s a t hs hok hstep => refines_step hP hs hok hstep
  simp [BackendLifeCycle.entry, BackendLifeCycle.versionMap, BackendLifeCycle.create] at he

end

/-! ## The invariant -/

/-- The parts of an entry agree with each other.

* The version has a handle exactly when it is ready.
* A backend is being created exactly while the version is loading, and only one.
* A handle is being destroyed exactly while the version is unloading, and only one.
* An action is postponed only while the version is loading or unloading.
* `CreateBackendHandle` never found a handle, and `Load` never found the version served. -/
structure Consistent (e : Entry) : Prop where
  handle : e.handle.isSome ↔ e.state = .ready
  loading : e.state = .loading ↔ e.creations.length = 1
  creations : e.creations.length ≤ 1
  unloading : e.state = .unloading ↔ e.released.length + e.callbacks.length = 1
  destructions : e.released.length + e.callbacks.length ≤ 1
  nextAction : e.nextAction ≠ .noAction → e.state = .loading ∨ e.state = .unloading
  sanityErrors : e.sanityErrors = 0
  alreadyExists : e.alreadyExists = 0

theorem consistent_toEntry (v : Version) : Consistent v.toEntry := by
  obtain ⟨platform, modelConfig, life, lastRequest, lastBuild⟩ := v
  cases life <;> constructor <;> simp [Version.toEntry]

/-- The entry of a version keeps no more than the version. -/
theorem kept_true : Kept (fun _ => True) fun _ => True :=
  ⟨fun _ _ => trivial, fun _ _ => trivial, fun _ _ _ => trivial, fun _ _ _ _ _ => trivial⟩

theorem creates_true (s : BackendLifeCycle) (a : Action) : Creates (fun _ => True) s a := by
  cases a with
  | asyncLoad call => exact fun _ _ _ => trivial
  | _ => trivial

/-- In every state that any interleaving of calls, creations, dropped references and callbacks
reaches, every entry is consistent. -/
theorem consistent_of_reachable {s : BackendLifeCycle}
    (h : Reachable BackendLifeCycle.step .create s) {name : String} {version : Int} {e : Entry}
    (he : s.entry name version = some e) : Consistent e := by
  obtain ⟨v, rfl, -⟩ := (refines_of_reachable kept_true
    (h.weaken fun s a _ => creates_true s a)).version name version e he
  exact consistent_toEntry v

/-- A version that is asked for again while it is being loaded. -/
theorem consistent_reloaded :
    ∃ s e, Reachable BackendLifeCycle.step .create s ∧ s.entry "bert" 1 = some e ∧
      e.nextAction = .load ∧ Consistent e := by
  have hrun : ((runWhen BackendLifeCycle.step (fun _ _ => True) .create
      [.asyncLoad { name := "bert", versions := [1, 1], config := { platform := "custom" } },
        .advance, .event "bert" 1 (.copyConfig 0), .advance]).map fun s =>
      decide ((s.entry "bert" 1).map (·.nextAction) = some .load)) = some true := by
    decide
  obtain ⟨s, hs, hnext⟩ := exists_of_runWhen hrun
  obtain ⟨e, he, hnext⟩ := Option.map_eq_some_iff.mp (of_decide_eq_true hnext)
  exact ⟨s, e, hs, he, hnext, consistent_of_reachable hs he⟩

end FinBert.Repository
