import FinBert.Repository.LifeCycle

/-!
# The backend of a ready version

`CreateBackendHandle` chooses the factory by the platform that the entry was created with, and
the `Init` of every factory's backend checks the configuration against the platform of the
factory. So an entry whose platform changes later fails to load. An entry that was created with
a platform that `GetPlatform` does not know reaches no factory at all: the `switch` leaves the
status a success, and the version is served without a backend.

Results:
1. `createBackend_ok`: what a factory makes.
2. `ready_backend_of_reachable`: when versions are created with platforms that are known, the
   handle of a ready version has the backend of the factory of its configuration's platform.
3. `exists_backendless`: a configuration that is accepted, and a run that serves it without a
   backend.
-/

namespace FinBert.Repository

open FinBert.Serving Transition

/-- A configuration whose platform `GetPlatform` knows. -/
def KnownPlatform (config : ModelConfig) : Prop := getPlatform config.platform ≠ .unknown

instance (config : ModelConfig) : Decidable (KnownPlatform config) :=
  inferInstanceAs (Decidable (_ ≠ _))

/-- A configuration that the repository manager passes to `AsyncLoad`. -/
def Loadable (cuda : CudaDeviceCount) (config : ModelConfig) : Prop :=
  (∃ read, getNormalizedModelConfig cuda read = .ok config) ∧
    (validateModelConfig cuda config "").isOk

/-- The calls of `AsyncLoad` with accepted configurations. -/
def LoadsAccepted (cuda : CudaDeviceCount) (_ : BackendLifeCycle) : Action → Prop
  | .asyncLoad call => Loadable cuda call.config
  | _ => True

/-- The handle of the entry has a backend, which the factory for the platform of its
configuration made. -/
def HasBackend (e : Entry) : Prop :=
  ∃ handle b, e.handle = some handle ∧ handle.is = some b ∧ b.factory ≠ .unknown ∧
    b.factory = getPlatform b.config.platform

/-! ## What a factory makes -/

/-- The platform that `Init` checks is the one that chooses the factory. -/
theorem getPlatform_expectedPlatform {platform : Platform} {expected : String}
    (h : expectedPlatform platform = some expected) :
    getPlatform expected = platform ∧ ¬ expected.isEmpty := by
  cases platform <;> cases h <;> decide

/-- A creation that succeeds. -/
theorem createBackend_ok {platform : Platform} {config : ModelConfig} {w : Surroundings}
    (hplatform : platform ≠ .unknown) (h : (createBackend platform config w).1.isOk) :
    (createBackend platform config w).2 = some { factory := platform, config := config } ∧
      getPlatform config.platform = platform := by
  unfold createBackend at h ⊢
  split at h
  · next hnone =>
    cases platform with
    | unknown => exact absurd rfl hplatform
    | _ => cases hnone
  · next expected hexpected =>
    simp only at h ⊢
    refine ⟨if_pos h, ?_⟩
    obtain ⟨hget, hne⟩ := getPlatform_expectedPlatform hexpected
    rw [Status.isOk_andThen, Status.isOk_andThen] at h
    rw [platform_of_validateModelConfig h.2.1 hne, hget]

/-! ## Ready versions -/

/-- The factory of the version is known, and the backend that is served is its work. -/
structure Backed (v : Version) : Prop where
  platform : v.platform ≠ .unknown
  ready : ∀ handle, v.life = .ready handle →
    ∃ b, handle.is = some b ∧ b.factory ≠ .unknown ∧ b.factory = getPlatform b.config.platform

theorem letGo_ne_ready (handle handle' : BackendHandle) (next : ActionType) :
    Life.letGo handle next ≠ .ready handle' := by
  unfold Life.letGo
  split
  · nofun
  · nofun

/-- A version that is to be unloaded is not served any more. -/
theorem unload_ne_ready (life : Life) (handle : BackendHandle) : life.unload ≠ .ready handle := by
  cases life with
  | ready served => exact letGo_ne_ready served handle .noAction
  | _ => nofun

theorem reload_ne_ready (life : Life) (handle : BackendHandle) : life.reload ≠ .ready handle := by
  cases life with
  | ready served => exact letGo_ne_ready served handle .load
  | _ => nofun

/-- A version is served after an action was resumed only when it was served before, and no
action was postponed. -/
theorem resume_eq_ready {life : Life} {next : ActionType} {handle : BackendHandle}
    (h : life.resume next = .ready handle) : next = .noAction ∧ life = .ready handle := by
  cases next with
  | noAction => exact ⟨rfl, h⟩
  | load => exact absurd h (reload_ne_ready life handle)
  | unload => exact absurd h (unload_ne_ready life handle)

/-- The events keep the backend of a served version. -/
theorem Backed.after {v v' : Version} {event : Event} (hv : Backed v)
    (h : v.after event = some v') : Backed v' := by
  rcases after_cases h with ⟨next, -, rfl⟩ | ⟨config, next, w, -, rfl⟩ | ⟨is, next, -, rfl⟩ |
    ⟨handle, refs, hlife, rfl⟩ | ⟨handle, next, -, rfl | ⟨refs, rfl⟩⟩
  · exact ⟨hv.platform, fun _ hready => Life.noConfusion hready⟩
  · refine ⟨hv.platform, fun handle hready => ?_⟩
    -- the backend that has just been created is served, or it was not created
    obtain ⟨-, hcreated⟩ := resume_eq_ready hready
    unfold Life.created at hcreated
    split at hcreated
    · next hok =>
      obtain ⟨hmade, hget⟩ := createBackend_ok hv.platform hok
      obtain rfl := Life.ready.inj hcreated
      exact ⟨_, hmade, hv.platform, hget.symm⟩
    · cases hcreated
  · refine ⟨hv.platform, fun handle hready => ?_⟩
    obtain ⟨-, hdestroyed⟩ := resume_eq_ready hready
    cases hdestroyed
  · refine ⟨hv.platform, fun handle' hready => ?_⟩
    obtain rfl := Life.ready.inj hready
    exact hv.ready handle hlife
  · exact ⟨hv.platform, fun _ hready => Life.noConfusion hready⟩
  · exact ⟨hv.platform, fun _ hready => Life.noConfusion hready⟩

theorem kept_backed : Kept KnownPlatform Backed where
  created _ hknown := ⟨hknown, fun _ hready => Life.noConfusion hready⟩
  requestUnload _ hv := ⟨hv.platform, fun handle h => absurd h (unload_ne_ready _ handle)⟩
  requestLoad _ _ hv := ⟨hv.platform, fun handle h => absurd h (reload_ne_ready _ handle)⟩
  after _ _ _ hv h := hv.after h

/-- When every version is created with a platform that is known, every ready version has a
backend, and the factory for the platform of the backend's configuration made it. -/
theorem ready_backend_of_reachable {s : BackendLifeCycle}
    (h : ReachableWhen BackendLifeCycle.step (Creates KnownPlatform) .create s) {name : String}
    {version : Int} {e : Entry} (he : s.entry name version = some e) (hready : e.state = .ready) :
    HasBackend e := by
  obtain ⟨v, rfl, hv⟩ := (refines_of_reachable kept_backed h).version name version e he
  obtain ⟨platform, modelConfig, life, lastRequest, lastBuild⟩ := v
  cases life with
  | ready handle =>
    obtain ⟨b, hb, hfactory⟩ := hv.ready handle rfl
    exact ⟨handle, b, rfl, hb, hfactory⟩
  | _ => cases hready

instance (s : BackendLifeCycle) : (a : Action) → Decidable (Creates KnownPlatform s a)
  | .asyncLoad call => inferInstanceAs (Decidable (∀ version ∈ call.versions,
      s.entry call.name version = none → KnownPlatform call.config))
  | .advance => isTrue trivial
  | .event _ _ _ => isTrue trivial

/-- A configuration of a custom model. -/
def customConfig : ModelConfig where
  name := "bert"
  platform := kCustomPlatform
  versionPolicy := some (.latest 1)
  instanceGroup := [{ name := "bert_0", kind := .cpu, count := 1 }]
  defaultModelFilename := kCustomFilename

/-- A version that is served while the model is asked for another one. -/
theorem ready_backend_custom :
    ∃ s e, ReachableWhen BackendLifeCycle.step (Creates KnownPlatform) .create s ∧
      s.entry "bert" 1 = some e ∧ e.state = .ready ∧ HasBackend e := by
  have hrun : ((runWhen BackendLifeCycle.step (Creates KnownPlatform) .create
      [.asyncLoad { name := "bert", versions := [1, 2], config := customConfig },
        .advance, .event "bert" 1 (.copyConfig 0), .advance,
        .event "bert" 1 (.create 0 { cuda := .success 1 })]).map fun s =>
      decide ((s.entry "bert" 1).map (·.state) = some .ready)) = some true := by
    decide
  obtain ⟨s, hs, hready⟩ := exists_of_runWhen hrun
  obtain ⟨e, he, hready⟩ := Option.map_eq_some_iff.mp (of_decide_eq_true hready)
  exact ⟨s, e, hs, he, hready, ready_backend_of_reachable hs he hready⟩

/-! ## A version without a backend -/

/-- A configuration whose platform is misspelt, as it is read. -/
def misspelt : ModelConfig where
  name := "bert"
  platform := "tensorflow_graph"
  instanceGroup := [{ kind := .cpu }]
  defaultModelFilename := "model.graphdef"

/-- The configuration after its normalization. -/
def misspeltNormalized : ModelConfig :=
  { misspelt with
    versionPolicy := some (.latest 1)
    instanceGroup := [{ name := "bert_0", kind := .cpu, count := 1 }] }

theorem loadable_misspelt : Loadable .noDevice misspeltNormalized :=
  ⟨⟨misspelt, by decide⟩, by decide⟩

/-- Calls of `AsyncLoad` with one configuration. -/
def LoadsOnly (config : ModelConfig) (_ : BackendLifeCycle) : Action → Prop
  | .asyncLoad call => call.config = config
  | _ => True

instance (config : ModelConfig) (s : BackendLifeCycle) :
    (a : Action) → Decidable (LoadsOnly config s a)
  | .asyncLoad call => inferInstanceAs (Decidable (call.config = config))
  | .advance => isTrue trivial
  | .event _ _ _ => isTrue trivial

/-- The misspelt platform reaches no factory, and the version is served without a backend. -/
theorem exists_backendless :
    ∃ s e, ReachableWhen BackendLifeCycle.step (LoadsAccepted .noDevice) .create s ∧
      s.Quiescent ∧ s.entry "bert" 1 = some e ∧ e.state = .ready ∧
      e.handle = some { is := none } ∧ e.lastRequest = some (.load misspeltNormalized) := by
  have hrun : ((runWhen BackendLifeCycle.step (LoadsOnly misspeltNormalized) .create
      [.asyncLoad { name := "bert", versions := [1], config := misspeltNormalized },
        .advance, .advance, .event "bert" 1 (.copyConfig 0),
        .event "bert" 1 (.create 0 { cuda := .noDevice })]).map fun s =>
      decide (s.Quiescent ∧ (s.entry "bert" 1).map (fun e => (e.state, e.handle, e.lastRequest)) =
        some (.ready, some { is := none }, some (.load misspeltNormalized)))) = some true := by
    decide
  obtain ⟨s, hs, hchecked⟩ := exists_of_runWhen hrun
  obtain ⟨hquiescent, hentry⟩ := of_decide_eq_true hchecked
  obtain ⟨e, he, hfields⟩ := Option.map_eq_some_iff.mp hentry
  simp only [Prod.mk.injEq] at hfields
  obtain ⟨hstate, hhandle, hrequest⟩ := hfields
  refine ⟨s, e, hs.weaken fun s a ha => ?_, hquiescent, he, hstate, hhandle, hrequest⟩
  cases a with
  | asyncLoad call =>
    show Loadable .noDevice call.config
    rw [show call.config = misspeltNormalized from ha]
    exact loadable_misspelt
  | _ => trivial

/-- Not every ready version has a backend, although every configuration was accepted. -/
theorem not_ready_backend :
    ¬ ∀ (cuda : CudaDeviceCount) (s : BackendLifeCycle),
      ReachableWhen BackendLifeCycle.step (LoadsAccepted cuda) .create s →
      ∀ name version e, s.entry name version = some e → e.state = .ready → HasBackend e := by
  intro hall
  obtain ⟨s, e, hs, -, he, hready, hhandle, -⟩ := exists_backendless
  obtain ⟨handle, b, hhandle', hb, -⟩ := hall .noDevice s hs "bert" 1 e he hready
  obtain rfl := Option.some.inj (hhandle.symm.trans hhandle')
  cases hb

end FinBert.Repository
