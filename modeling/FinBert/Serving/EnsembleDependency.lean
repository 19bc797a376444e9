import FinBert.Serving.EnsembleFlow
import Mathlib.Data.List.Perm.Subperm
import Mathlib.Logic.Relation

/-!
# The dependencies between ensembles

What `ValidateEnsembleConfig` decides for a whole map: every ensemble is valid by itself, and so are
the ensembles that it contains, and those that they contain (`Sound`). The condition says nothing of
the order in which maps are iterated. An ensemble that is sound is in no cycle, and the recursion
puts no ensemble more than twice on the way to the present one.

Results:
1. `decides_validateEnsembleConfig`: the recursion decides whether an ensemble is sound.
2. `ensemblesChecked`: the validation of a map returns, uses no entry that is not there, accepts
   whatever the order, and accepts no cycle and no step without a valid model.
-/

namespace FinBert.Serving

open UnorderedMap Programs Relation

/-! ## Sound ensembles -/

section
variable (cuda : CudaDeviceCount) (configMap : UnorderedMap String ModelConfig)

/-- The model is an ensemble of the map. -/
def IsEnsemble (name : String) : Prop :=
  ∃ config, configMap.find name = some config ∧ config.hasEnsembleScheduling = true

/-- An ensemble has a step whose model is the ensemble `name`. -/
def Contains (ensemble name : String) : Prop :=
  IsEnsemble configMap name ∧
    ∃ config, configMap.find ensemble = some config ∧ ∃ step ∈ config.step, step.modelName = name

/-- `ValidateModelConfig` accepts the model. -/
def ModelValid (config : ModelConfig) : Prop := (validateModelConfig cuda config "").isOk

/-- The model of a step exists and is valid, allows the batches of the ensemble, and has its tensors
mapped. -/
def StepOk (ensembleConfig : ModelConfig) (step : EnsembleStep) : Prop :=
  ∃ modelConfig, configMap.find step.modelName = some modelConfig ∧
    (ModelValid cuda modelConfig ∧ ensembleConfig.maxBatchSize ≤ modelConfig.maxBatchSize) ∧
    InputsMapped step modelConfig ∧ OutputsMapped step modelConfig

/-- The types that a step brings, whatever its model. -/
def typesOfStep (step : EnsembleStep) : TensorTypes :=
  fun name type => ∃ modelConfig, configMap.find step.modelName = some modelConfig ∧
    stepTypes step modelConfig name type

/-- All types that an ensemble uses its tensors with. -/
def ensembleTypes (ensemble : String) (config : ModelConfig) : TensorTypes :=
  Also (declaredTypes ensemble config) (typesIn (typesOfStep configMap) config.step)

/-- The links of some steps. -/
def linksOf (steps : List EnsembleStep) : String → String → Prop :=
  fun name name' => ∃ step ∈ steps, stepLinks step name name'

/-- An ensemble that is valid, apart from the ensembles that it contains. -/
structure EnsembleOk (ensemble : String) (config : ModelConfig) : Prop where
  steps : ∀ step ∈ config.step, StepOk cuda configMap config step
  types : Functional (ensembleTypes configMap ensemble config)
  flow : FlowOk (ensembleTypes configMap ensemble config) (linksOf config.step) config

/-- An ensemble that is valid with all ensembles below it. -/
inductive Sound : String → Prop
  | intro {ensemble : String} {config : ModelConfig} (found : configMap.find ensemble = some config)
      (ok : EnsembleOk cuda configMap ensemble config)
      (contained : ∀ name, Contains configMap ensemble name → Sound name) : Sound ensemble

end

variable {cuda : CudaDeviceCount} {configMap : UnorderedMap String ModelConfig}

/-- A sound ensemble is in no cycle. -/
theorem Sound.not_cycle {ensemble : String} (h : Sound cuda configMap ensemble) :
    ¬ TransGen (Contains configMap) ensemble ensemble := by
  induction h with
  | @intro ensemble config _ _ _ ih =>
    intro hcycle
    obtain ⟨name, hcontains, hback⟩ := TransGen.head'_iff.mp hcycle
    exact ih name hcontains (TransGen.tail' hback hcontains)

/-- What is decided about one ensemble, step by step. -/
theorem sound_iff {ensemble : String} {config : ModelConfig}
    (hfind : configMap.find ensemble = some config) :
    ((∀ step ∈ config.step, StepOk cuda configMap config step ∧
        (IsEnsemble configMap step.modelName → Sound cuda configMap step.modelName)) ∧
      Functional (ensembleTypes configMap ensemble config)) ∧
      FlowOk (ensembleTypes configMap ensemble config) (linksOf config.step) config ↔
    Sound cuda configMap ensemble := by
  constructor
  · rintro ⟨⟨hsteps, htypes⟩, hflow⟩
    refine .intro hfind ⟨fun step hstep => (hsteps step hstep).1, htypes, hflow⟩ ?_
    rintro name ⟨hensemble, config', hfind', step, hstep, rfl⟩
    obtain rfl := Option.some.inj (hfind'.symm.trans hfind)
    exact (hsteps step hstep).2 hensemble
  · rintro @⟨_, config', hfind', hok, hcontained⟩
    obtain rfl := Option.some.inj (hfind'.symm.trans hfind)
    refine ⟨⟨fun step hstep => ⟨hok.steps step hstep, fun hensemble => ?_⟩, hok.types⟩, hok.flow⟩
    exact hcontained step.modelName ⟨hensemble, config', hfind, step, hstep, rfl⟩

/-! ## A step -/

/-- The names of the models that are not valid. -/
def NamesInvalid (cuda : CudaDeviceCount) (configMap : UnorderedMap String ModelConfig)
    (invalidModelNames : UnorderedMap String String) : Prop :=
  ∀ name, invalidModelNames.find name = none ↔
    ∀ config, configMap.find name = some config → ModelValid cuda config

variable {invalidModelNames : UnorderedMap String String}

theorem decides_checkStepModel (hinvalid : NamesInvalid cuda configMap invalidModelNames)
    (ensemble : String) (ensembleConfig : ModelConfig) (modelName : String) :
    Decides Returned
      (∃ modelConfig, configMap.find modelName = some modelConfig ∧
        ModelValid cuda modelConfig ∧ ensembleConfig.maxBatchSize ≤ modelConfig.maxBatchSize)
      (fun modelConfig => configMap.find modelName = some modelConfig)
      (checkStepModel configMap invalidModelNames ensemble ensembleConfig modelName) := by
  unfold checkStepModel
  split
  · next message hmessage =>
    refine decides_invalidArg ?_
    rintro ⟨modelConfig, hfind, hvalid, -⟩
    have hnone : invalidModelNames.find modelName = none := by
      refine (hinvalid modelName).mpr fun config hconfig => ?_
      rw [Option.some.inj (hconfig.symm.trans hfind)]
      exact hvalid
    rw [hmessage] at hnone
    cases hnone
  · next hnone =>
    split
    · next hfind =>
      refine decides_invalidArg ?_
      rintro ⟨modelConfig, hfind', -⟩
      rw [hfind] at hfind'
      cases hfind'
    · next modelConfig hfind =>
      split
      · next hlt =>
        refine decides_invalidArg ?_
        rintro ⟨modelConfig', hfind', -, hle⟩
        obtain rfl := Option.some.inj (hfind'.symm.trans hfind)
        exact Int32.not_le.mpr hlt hle
      · next hle =>
        exact .ok ⟨modelConfig, hfind, (hinvalid modelName).mp hnone modelConfig hfind,
          Int32.not_lt.mp hle⟩ hfind

/-- What the recursion keeps: the ensembles of the map, those that are validated are sound. -/
structure Consistent (cuda : CudaDeviceCount) (configMap : UnorderedMap String ModelConfig)
    (s : Validated) : Prop where
  keys : ∀ name, (∃ validated, s.ensembles.find name = some validated) ↔ IsEnsemble configMap name
  sound : ∀ name, s.ensembles.find name = some true → Sound cuda configMap name

/-- The way to an ensemble: it is contained in all ensembles on the way, which has each ensemble at
most twice. -/
structure OnTheWay (configMap : UnorderedMap String ModelConfig) (dependency : List String)
    (ensemble : String) : Prop where
  path : ∀ name ∈ dependency, TransGen (Contains configMap) name ensemble
  keys : ∀ name ∈ dependency, name ∈ configMap.keys
  twice : ∀ name, dependency.count name ≤ 2
  once : dependency.count ensemble ≤ 1

/-- The way to an ensemble is bounded. -/
theorem OnTheWay.length_le {dependency : List String} {ensemble : String}
    (h : OnTheWay configMap dependency ensemble) :
    dependency.length ≤ 2 * configMap.entries.length := by
  have hsubperm : dependency.Subperm (configMap.keys ++ configMap.keys) := by
    refine List.subperm_ext_iff.mpr fun name hname => ?_
    have hpos := List.count_pos_iff.mpr (h.keys name hname)
    rw [List.count_append]
    exact Nat.le_trans (h.twice name) (Nat.add_le_add hpos hpos)
  have hle := hsubperm.length_le
  rw [List.length_append, ← Nat.two_mul, AList.keys, List.keys, List.length_map] at hle
  exact hle

/-- One ensemble further. -/
theorem OnTheWay.push {dependency : List String} {ensemble name : String}
    (h : OnTheWay configMap dependency ensemble) (hcontains : Contains configMap ensemble name)
    (hnot : name ∉ dependency) : OnTheWay configMap (dependency ++ [ensemble]) name := by
  refine ⟨fun name' hname' => ?_, fun name' hname' => ?_, fun name' => ?_, ?_⟩
  · rcases List.mem_append.mp hname' with hname' | hname'
    · exact (h.path name' hname').tail hcontains
    · rw [List.mem_singleton.mp hname']
      exact .single hcontains
  · rcases List.mem_append.mp hname' with hname' | hname'
    · exact h.keys name' hname'
    · rw [List.mem_singleton.mp hname', mem_keys_iff]
      obtain ⟨-, config, hfind, -⟩ := hcontains
      rw [hfind]
      rfl
  · rw [List.count_append, List.count_singleton]
    split
    · next heq =>
      rw [← eq_of_beq heq]
      exact Nat.add_le_add_right h.once 1
    · exact h.twice name'
  · rw [List.count_append, List.count_eq_zero_of_not_mem hnot, Nat.zero_add, List.count_singleton]
    split
    · exact Nat.le_refl 1
    · exact Nat.zero_le 1

/-- A function that validates an ensemble, on a way that leaves `depth` turns. -/
def Validates (cuda : CudaDeviceCount) (configMap : UnorderedMap String ModelConfig) (depth : Nat)
    (recurse : String → Validated → Except Halt Validated) : Prop :=
  ∀ ensemble s, IsEnsemble configMap ensemble → Consistent cuda configMap s →
    OnTheWay configMap s.ensembleDependency ensemble →
    2 * configMap.entries.length < s.ensembleDependency.length + depth →
    Decides Returned (Sound cuda configMap ensemble)
      (fun s' => Consistent cuda configMap s' ∧ s'.ensembleDependency = s.ensembleDependency)
      (recurse ensemble s)

theorem decides_validateContained {recurse : String → Validated → Except Halt Validated}
    {depth : Nat} (hrecurse : Validates cuda configMap depth recurse) {ensemble name : String}
    (hcontains : Contains configMap ensemble name) {s : Validated}
    (hs : Consistent cuda configMap s) (hway : OnTheWay configMap s.ensembleDependency ensemble)
    (hdepth : 2 * configMap.entries.length < s.ensembleDependency.length + (depth + 1)) :
    Decides Returned (Sound cuda configMap name)
      (fun s' => Consistent cuda configMap s' ∧ s'.ensembleDependency = s.ensembleDependency)
      (validateContained recurse ensemble name s) := by
  unfold validateContained
  split
  · next hmem =>
    -- the ensembles from this one on the way to the present one are a cycle
    exact decides_invalidArg fun hsound => hsound.not_cycle ((hway.path name hmem).tail hcontains)
  · next hnot =>
    obtain ⟨validated, hfind⟩ := (hs.keys name).mpr hcontains.1
    refine (decides_secondOf hfind).bind_of trivial fun validated' heq => ?_
    subst heq
    split
    · next htrue =>
      subst htrue
      exact .ok (hs.sound name hfind) ⟨hs, rfl⟩
    · have hrun := hrecurse name
        { s with ensembleDependency := s.ensembleDependency ++ [ensemble] } hcontains.1
        ⟨hs.keys, hs.sound⟩ (hway.push hcontains hnot) (by
          rw [List.length_append, List.length_singleton, Nat.add_assoc, Nat.add_comm 1]
          exact hdepth)
      refine (hrun.bind fun s' _ hs' => decides_pure ⟨⟨hs'.1.keys, hs'.1.sound⟩, ?_⟩).congr
        (iff_of_eq (and_true _))
      rw [hs'.2, List.dropLast_concat]

theorem typesOfStep_eq {step : EnsembleStep} {modelConfig : ModelConfig}
    (hfind : configMap.find step.modelName = some modelConfig) :
    typesOfStep configMap step = stepTypes step modelConfig := by
  funext name type
  refine propext ⟨?_, fun h => ⟨modelConfig, hfind, h⟩⟩
  rintro ⟨modelConfig', hfind', h⟩
  rwa [Option.some.inj (hfind'.symm.trans hfind)] at h

theorem isEnsemble_iff {name : String} {config : ModelConfig}
    (hfind : configMap.find name = some config) :
    IsEnsemble configMap name ↔ config.hasEnsembleScheduling = true := by
  refine ⟨?_, fun h => ⟨config, hfind, h⟩⟩
  rintro ⟨config', hfind', h⟩
  rwa [Option.some.inj (hfind'.symm.trans hfind)] at h

theorem decides_validateStepModel {recurse : String → Validated → Except Halt Validated}
    {depth : Nat} (hrecurse : Validates cuda configMap depth recurse) {ensemble : String}
    {config modelConfig : ModelConfig} (hfind : configMap.find ensemble = some config)
    {step : EnsembleStep} (hstep : step ∈ config.step)
    (hmodel : configMap.find step.modelName = some modelConfig) {s : Validated}
    (hs : Consistent cuda configMap s) (hway : OnTheWay configMap s.ensembleDependency ensemble)
    (hdepth : 2 * configMap.entries.length < s.ensembleDependency.length + (depth + 1)) :
    Decides Returned (IsEnsemble configMap step.modelName → Sound cuda configMap step.modelName)
      (fun s' => Consistent cuda configMap s' ∧ s'.ensembleDependency = s.ensembleDependency)
      (validateStepModel recurse ensemble step modelConfig s) := by
  unfold validateStepModel
  rw [isEnsemble_iff hmodel]
  split
  · next hensemble =>
    have hcontains : Contains configMap ensemble step.modelName :=
      ⟨⟨modelConfig, hmodel, hensemble⟩, config, hfind, step, hstep, rfl⟩
    exact (decides_validateContained hrecurse hcontains hs hway hdepth).congr
      ⟨fun hsound _ => hsound, fun h => h hensemble⟩
  · next hnot => exact .ok (fun hensemble => absurd hensemble hnot) ⟨hs, rfl⟩

/-- The body of the loop over the steps. -/
theorem decides_validateStep {recurse : String → Validated → Except Halt Validated} {depth : Nat}
    (order : IterationOrder String) (hinvalid : NamesInvalid cuda configMap invalidModelNames)
    (hrecurse : Validates cuda configMap depth recurse) {ensemble : String} {config : ModelConfig}
    (hfind : configMap.find ensemble = some config) {step : EnsembleStep}
    (hstep : step ∈ config.step) {known : TensorTypes} {links : String → String → Prop}
    {dependency : List String} {s : TensorNodes × Validated}
    (hrep : Represents known links s.1) (hs : Consistent cuda configMap s.2)
    (hdependency : s.2.ensembleDependency = dependency)
    (hway : OnTheWay configMap dependency ensemble)
    (hdepth : 2 * configMap.entries.length < dependency.length + (depth + 1)) :
    Decides Returned
      (Functional (Also known (typesOfStep configMap step)) ∧ StepOk cuda configMap config step ∧
        (IsEnsemble configMap step.modelName → Sound cuda configMap step.modelName))
      (fun s' => Represents (Also known (typesOfStep configMap step))
          (AlsoLinks links (stepLinks step)) s'.1 ∧
        Consistent cuda configMap s'.2 ∧ s'.2.ensembleDependency = dependency)
      (validateStep order configMap invalidModelNames recurse ensemble config s step) := by
  obtain ⟨tensors, validated⟩ := s
  dsimp only at hrep hs hdependency
  subst hdependency
  refine ((decides_checkStepModel hinvalid ensemble config step.modelName).bind
    (D := (IsEnsemble configMap step.modelName → Sound cuda configMap step.modelName) ∧
      (∀ modelConfig, configMap.find step.modelName = some modelConfig →
        InputsMapped step modelConfig ∧ OutputsMapped step modelConfig) ∧
      Functional (Also known (typesOfStep configMap step)))
    fun modelConfig _ hmodel => ?_).congr ?_
  · rw [typesOfStep_eq hmodel]
    have hcontained := decides_validateStepModel hrecurse hfind hstep hmodel hs hway hdepth
    refine hcontained.bind fun validated' _ hvalidated => ?_
    refine (decides_mapStep order hrep ensemble step modelConfig validated').imp ?_ ?_
    · refine and_congr_left fun _ => ⟨fun hmapped modelConfig' hmodel' => ?_, fun hall =>
        hall modelConfig hmodel⟩
      rwa [Option.some.inj (hmodel'.symm.trans hmodel)]
    · rintro ⟨tensors', validated''⟩ - ⟨hrep', rfl⟩
      exact ⟨hrep', hvalidated⟩
  · constructor
    · rintro ⟨⟨modelConfig, hmodel, hvalid⟩, hsound, hmapped, hfun⟩
      exact ⟨hfun, ⟨modelConfig, hmodel, hvalid, hmapped modelConfig hmodel⟩, hsound⟩
    · rintro ⟨hfun, ⟨modelConfig, hmodel, hvalid, hmapped⟩, hsound⟩
      refine ⟨⟨modelConfig, hmodel, hvalid⟩, hsound, fun modelConfig' hmodel' => ?_, hfun⟩
      rwa [Option.some.inj (hmodel'.symm.trans hmodel)]

/-! ## The recursion -/

/-- What is decided about the first steps of an ensemble. -/
def StepsOk (cuda : CudaDeviceCount) (configMap : UnorderedMap String ModelConfig)
    (ensemble : String) (config : ModelConfig) (steps : List EnsembleStep) : Prop :=
  (∀ step ∈ steps, StepOk cuda configMap config step ∧
    (IsEnsemble configMap step.modelName → Sound cuda configMap step.modelName)) ∧
  Functional (Also (declaredTypes ensemble config) (typesIn (typesOfStep configMap) steps))

theorem stepsOk_concat {ensemble : String} {config : ModelConfig} {steps : List EnsembleStep}
    {step : EnsembleStep} :
    StepsOk cuda configMap ensemble config (steps ++ [step]) ↔
      (∀ step ∈ steps, StepOk cuda configMap config step ∧
        (IsEnsemble configMap step.modelName → Sound cuda configMap step.modelName)) ∧
      Functional (Also (Also (declaredTypes ensemble config)
        (typesIn (typesOfStep configMap) steps)) (typesOfStep configMap step)) ∧
      StepOk cuda configMap config step ∧
        (IsEnsemble configMap step.modelName → Sound cuda configMap step.modelName) := by
  unfold StepsOk
  rw [also_typesIn_concat, List.forall_mem_append, List.forall_mem_singleton, and_assoc,
    and_congr_right_iff]
  exact fun _ => and_comm

theorem linksOf_concat (steps : List EnsembleStep) (step : EnsembleStep) :
    linksOf (steps ++ [step]) = AlsoLinks (linksOf steps) (stepLinks step) := by
  funext name name'
  refine propext ⟨?_, ?_⟩
  · rintro ⟨step', hmem, hlink⟩
    rcases List.mem_append.mp hmem with hmem | hmem
    · exact .inl ⟨step', hmem, hlink⟩
    · exact .inr (List.mem_singleton.mp hmem ▸ hlink)
  · rintro (⟨step', hmem, hlink⟩ | hlink)
    · exact ⟨step', List.mem_append_left _ hmem, hlink⟩
    · exact ⟨step, List.mem_append_right _ (List.mem_singleton_self step), hlink⟩

/-- The loop over the steps. -/
theorem decides_validateSteps {recurse : String → Validated → Except Halt Validated} {depth : Nat}
    (order : IterationOrder String) (hinvalid : NamesInvalid cuda configMap invalidModelNames)
    (hrecurse : Validates cuda configMap depth recurse) {ensemble : String} {config : ModelConfig}
    (hfind : configMap.find ensemble = some config) {s : Validated}
    (hs : Consistent cuda configMap s) (hway : OnTheWay configMap s.ensembleDependency ensemble)
    (hdepth : 2 * configMap.entries.length < s.ensembleDependency.length + (depth + 1)) :
    Decides Returned (StepsOk cuda configMap ensemble config config.step)
      (fun s' => Represents (ensembleTypes configMap ensemble config) (linksOf config.step) s'.1 ∧
        Consistent cuda configMap s'.2 ∧ s'.2.ensembleDependency = s.ensembleDependency)
      (config.step.foldlM (validateStep order configMap invalidModelNames recurse ensemble config)
        (ensembleTensors ensemble config, s)) := by
  refine .foldlM (C := StepsOk cuda configMap ensemble config)
    (I := fun done (s' : TensorNodes × Validated) =>
      Represents (Also (declaredTypes ensemble config) (typesIn (typesOfStep configMap) done))
        (linksOf done) s'.1 ∧
      Consistent cuda configMap s'.2 ∧ s'.2.ensembleDependency = s.ensembleDependency)
    (fun done step hok => ?_) (fun done step s' hstep hok hs' => ?_) ?_ ?_
  · obtain ⟨hsteps, hfun, -⟩ := stepsOk_concat.mp hok
    exact ⟨hsteps, functional_of_also hfun⟩
  · rw [also_typesIn_concat, linksOf_concat]
    refine (decides_validateStep order hinvalid hrecurse hfind hstep hs'.1 hs'.2.1 hs'.2.2 hway
      hdepth).congr ?_
    rw [stepsOk_concat, and_iff_right hok.1]
  · refine ⟨fun step hstep => (List.not_mem_nil hstep).elim, ?_⟩
    rw [also_typesIn_nil]
    exact (represents_ensembleTensors ensemble config).functional
  · refine ⟨?_, hs, rfl⟩
    have hlinks : linksOf [] = fun _ _ => False := by
      funext name name'
      exact eq_false fun ⟨_, hmem, _⟩ => List.not_mem_nil hmem
    rw [also_typesIn_nil, hlinks]
    exact represents_ensembleTensors ensemble config

/-- An ensemble that is found to be sound is validated. -/
theorem Consistent.validate {s : Validated} (hs : Consistent cuda configMap s) {ensemble : String}
    (hensemble : IsEnsemble configMap ensemble) (hsound : Sound cuda configMap ensemble) :
    Consistent cuda configMap { s with ensembles := s.ensembles.insert ensemble true } := by
  constructor
  · intro name
    show (∃ validated, find (s.ensembles.insert ensemble true) name = some validated) ↔ _
    rw [find_insert_apply]
    split
    · next heq => exact iff_of_true ⟨true, rfl⟩ (heq ▸ hensemble)
    · exact hs.keys name
  · intro name hfind
    rw [find_insert_apply] at hfind
    split at hfind
    · next heq => exact heq ▸ hsound
    · exact hs.sound name hfind

/-- The recursion decides whether an ensemble is sound. -/
theorem decides_validateEnsembleConfig (order : IterationOrder String)
    (hinvalid : NamesInvalid cuda configMap invalidModelNames) (depth : Nat) :
    Validates cuda configMap depth
      (validateEnsembleConfig order configMap invalidModelNames depth) := by
  induction depth with
  | zero =>
    intro ensemble s _ _ hway hdepth
    exact absurd hway.length_le (Nat.not_le.mpr hdepth)
  | succ depth ih =>
    intro ensemble s hensemble hs hway hdepth
    obtain ⟨config, hfind, -⟩ := id hensemble
    refine (decides_secondOf hfind).bind_of trivial fun config' heq => ?_
    subst heq
    refine ((decides_validateSteps order hinvalid ih hfind hs hway hdepth).bind
      fun s' hsteps hs' => ?_).congr (sound_iff hfind)
    obtain ⟨hrep, hs', hdependency⟩ := hs'
    have hdeclared : ∀ name ∈ config'.inputNames ++ config'.outputNames,
        ∃ type, ensembleTypes configMap ensemble config' name type := fun name hname =>
      (declaredTypes_of_mem hname).imp fun _ => .inl
    refine ((decides_checkEnsembleFlow order hrep ensemble config'
      (fun name hname => hdeclared name (List.mem_append_left _ hname))
      (fun name hname => hdeclared name (List.mem_append_right _ hname))).bind
      fun _ hflow _ => ?_).congr (iff_of_eq (and_true _))
    obtain ⟨validated, hvalidated⟩ := (hs'.keys ensemble).mpr hensemble
    refine (decides_secondOf hvalidated).bind_of trivial fun _ _ => decides_pure ⟨?_, hdependency⟩
    exact hs'.validate hensemble ((sound_iff hfind).mp ⟨hsteps, hflow⟩)

/-! ## The whole map -/

/-- What the validation of a map decides: the ensembles are valid models, and they are sound. -/
structure EnsemblesValid (cuda : CudaDeviceCount) (configMap : UnorderedMap String ModelConfig) :
    Prop where
  valid : ∀ name config, configMap.find name = some config → config.hasEnsembleScheduling = true →
    ModelValid cuda config
  sound : ∀ name, IsEnsemble configMap name → Sound cuda configMap name

/-- The models are classified as far as the loop has come. -/
structure Classifies (cuda : CudaDeviceCount) (done : List (Σ _ : String, ModelConfig))
    (s : Classified) : Prop where
  invalid : ∀ name, s.invalidModelNames.find name = none ↔
    ∀ pair ∈ done, pair.1 = name → ModelValid cuda pair.2
  ensembles : ∀ name validated, s.ensembles.find name = some validated ↔
    validated = false ∧ ∃ pair ∈ done, pair.1 = name ∧ pair.2.hasEnsembleScheduling = true

theorem Classifies.invalid_concat {done : List (Σ _ : String, ModelConfig)} {s : Classified}
    (hs : Classifies cuda done s) {pair : Σ _ : String, ModelConfig} {name : String}
    (hpair : pair.1 ≠ name ∨ ModelValid cuda pair.2) :
    s.invalidModelNames.find name = none ↔
      ∀ pair' ∈ done ++ [pair], pair'.1 = name → ModelValid cuda pair'.2 := by
  rw [hs.invalid name, List.forall_mem_append, List.forall_mem_singleton]
  exact (and_iff_left fun heq => hpair.resolve_left (absurd heq)).symm

theorem Classifies.ensembles_concat {done : List (Σ _ : String, ModelConfig)} {s : Classified}
    (hs : Classifies cuda done s) {pair : Σ _ : String, ModelConfig} {name : String}
    {validated : Bool} (hpair : pair.1 ≠ name ∨ ¬ pair.2.hasEnsembleScheduling = true) :
    s.ensembles.find name = some validated ↔ validated = false ∧
      ∃ pair' ∈ done ++ [pair], pair'.1 = name ∧ pair'.2.hasEnsembleScheduling = true := by
  rw [hs.ensembles name validated]
  refine and_congr_right fun _ => ⟨?_, ?_⟩
  · rintro ⟨pair', hmem, h⟩
    exact ⟨pair', List.mem_append_left _ hmem, h⟩
  · rintro ⟨pair', hmem, heq, hscheduling⟩
    rcases List.mem_append.mp hmem with hmem | hmem
    · exact ⟨pair', hmem, heq, hscheduling⟩
    · obtain rfl := List.mem_singleton.mp hmem
      rcases hpair with hne | hnot
      · exact absurd heq hne
      · exact absurd hscheduling hnot

theorem decides_classify {done : List (Σ _ : String, ModelConfig)} {s : Classified}
    (hs : Classifies cuda done s) (pair : Σ _ : String, ModelConfig) :
    Decides Returned (pair.2.hasEnsembleScheduling = true → ModelValid cuda pair.2)
      (Classifies cuda (done ++ [pair])) (classify cuda s pair) := by
  have hlast : pair ∈ done ++ [pair] := List.mem_append_right _ (List.mem_singleton_self pair)
  unfold classify
  dsimp only
  split
  · next hnot =>
    have hnot : ¬ ModelValid cuda pair.2 := by simpa [ModelValid] using hnot
    split
    · next hensemble => exact decides_invalidArg fun h => hnot (h hensemble)
    · next hensemble =>
      refine .ok (fun h => absurd h hensemble)
        ⟨fun name => ?_, fun name validated => hs.ensembles_concat (.inr hensemble)⟩
      rw [find_insert_apply]
      split
      · next heq =>
        exact iff_of_false (fun h => by cases h) fun h => hnot (h pair hlast heq.symm)
      · next hne => exact hs.invalid_concat (.inl (Ne.symm hne))
  · next hvalid =>
    have hvalid : ModelValid cuda pair.2 := by simpa [ModelValid] using hvalid
    split
    · next hensemble =>
      refine .ok (fun _ => hvalid)
        ⟨fun name => hs.invalid_concat (.inr hvalid), fun name validated => ?_⟩
      rw [find_insert_apply]
      split
      · next heq =>
        rw [Option.some.injEq]
        exact ⟨fun h => ⟨h.symm, pair, hlast, heq.symm, hensemble⟩, fun h => h.1.symm⟩
      · next hne => exact hs.ensembles_concat (.inl (Ne.symm hne))
    · next hensemble =>
      exact .ok (fun h => absurd h hensemble) ⟨fun name => hs.invalid_concat (.inr hvalid),
        fun name validated => hs.ensembles_concat (.inr hensemble)⟩

/-- The first loop: no ensemble is invalid by itself. -/
theorem decides_classifyAll (order : IterationOrder String) (cuda : CudaDeviceCount)
    (configMap : UnorderedMap String ModelConfig) :
    Decides Returned
      (∀ name config, configMap.find name = some config → config.hasEnsembleScheduling = true →
        ModelValid cuda config)
      (fun s => NamesInvalid cuda configMap s.invalidModelNames ∧
        ∀ name validated, s.ensembles.find name = some validated ↔
          validated = false ∧ IsEnsemble configMap name)
      ((order.entries configMap).foldlM (classify cuda) {}) := by
  have hstart : Classifies cuda [] {} := by
    constructor
    · intro name
      rw [find_empty]
      exact iff_of_true rfl fun pair hmem => (List.not_mem_nil hmem).elim
    · intro name validated
      rw [find_empty]
      exact iff_of_false (fun h => by cases h) fun ⟨_, _, hmem, _⟩ => List.not_mem_nil hmem
  refine (Decides.foldlM_forall (I := Classifies cuda)
    (fun done pair s _ hs => decides_classify hs pair) hstart).imp ?_ fun s _ hs => ⟨?_, ?_⟩
  · exact ⟨fun h name config hfind => h ⟨name, config⟩ (order.mem_entries.mpr hfind),
      fun h pair hmem => h pair.1 pair.2 (order.mem_entries.mp hmem)⟩
  · intro name
    rw [hs.invalid name]
    constructor
    · exact fun h config hfind => h ⟨name, config⟩ (order.mem_entries.mpr hfind) rfl
    · rintro h pair hmem rfl
      exact h pair.2 (order.mem_entries.mp hmem)
  · intro name validated
    rw [hs.ensembles name validated]
    refine and_congr_right fun _ => ⟨?_, ?_⟩
    · rintro ⟨pair, hmem, rfl, hscheduling⟩
      exact ⟨pair.2, order.mem_entries.mp hmem, hscheduling⟩
    · rintro ⟨config, hfind, hscheduling⟩
      exact ⟨⟨name, config⟩, order.mem_entries.mpr hfind, rfl, hscheduling⟩

/-- An ensemble that nothing is on the way to. -/
theorem onTheWay_nil (ensemble : String) : OnTheWay configMap [] ensemble :=
  ⟨fun _ hmem => (List.not_mem_nil hmem).elim, fun _ hmem => (List.not_mem_nil hmem).elim,
    fun _ => Nat.zero_le 2, Nat.zero_le 1⟩

/-- The body of the loop over the ensembles. -/
theorem decides_validateUnlessDone {recurse : String → Validated → Except Halt Validated}
    {depth : Nat} (hrecurse : Validates cuda configMap depth recurse)
    (hdepth : 2 * configMap.entries.length < depth) {ensemble : String}
    (hensemble : IsEnsemble configMap ensemble) {s : Validated}
    (hs : Consistent cuda configMap s ∧ s.ensembleDependency = []) :
    Decides Returned (Sound cuda configMap ensemble)
      (fun s' => Consistent cuda configMap s' ∧ s'.ensembleDependency = [])
      (validateUnlessDone recurse s ensemble) := by
  obtain ⟨hs, hnil⟩ := hs
  obtain ⟨validated, hfind⟩ := (hs.keys ensemble).mpr hensemble
  refine (decides_secondOf hfind).bind_of trivial fun validated' heq => ?_
  subst heq
  split
  · next htrue =>
    subst htrue
    exact .ok (hs.sound ensemble hfind) ⟨hs, hnil⟩
  · have hrun := hrecurse ensemble s hensemble hs (hnil ▸ onTheWay_nil ensemble) (by
      rw [hnil, List.length_nil, Nat.zero_add]
      exact hdepth)
    rw [hnil] at hrun
    exact hrun

/-- The validation of a map, with a turn more than two for each model. -/
theorem decides_validateEnsembleConfigs (order : IterationOrder String) (cuda : CudaDeviceCount)
    (configMap : UnorderedMap String ModelConfig) {depth : Nat}
    (hdepth : 2 * configMap.entries.length < depth) :
    Decides Returned (EnsemblesValid cuda configMap) (fun _ => True)
      (validateEnsembleConfigs order cuda configMap depth) := by
  refine ((decides_classifyAll order cuda configMap).bind
    (D := ∀ name, IsEnsemble configMap name → Sound cuda configMap name)
    fun s _ hs => ?_).congr ⟨fun h => ⟨h.1, h.2⟩, fun h => ⟨h.valid, h.sound⟩⟩
  obtain ⟨hinvalid, hensembles⟩ := hs
  have hmem : ∀ name, name ∈ (order.entries s.ensembles).map Sigma.fst ↔
      IsEnsemble configMap name := by
    intro name
    rw [List.mem_map]
    constructor
    · rintro ⟨pair, hmem, rfl⟩
      exact ((hensembles pair.1 pair.2).mp (order.mem_entries.mp hmem)).2
    · intro hensemble
      exact ⟨⟨name, false⟩, order.mem_entries.mpr ((hensembles name false).mpr ⟨rfl, hensemble⟩),
        rfl⟩
  have hstart : Consistent cuda configMap { ensembles := s.ensembles } := by
    constructor
    · intro name
      constructor
      · rintro ⟨validated, hfind⟩
        exact ((hensembles name validated).mp hfind).2
      · exact fun hensemble => ⟨false, (hensembles name false).mpr ⟨rfl, hensemble⟩⟩
    · intro name hfind
      cases ((hensembles name true).mp hfind).1
  refine (Decides.bind (Decides.foldlM_forall
    (I := fun _ s' => Consistent cuda configMap s' ∧ s'.ensembleDependency = [])
    (fun _ name s' hname hs' => decides_validateUnlessDone
      (decides_validateEnsembleConfig order hinvalid depth) hdepth ((hmem name).mp hname) hs')
    ⟨hstart, rfl⟩) fun _ _ _ => decides_pure trivial).congr ?_
  rw [and_true]
  exact forall_congr' fun name => imp_congr_left (hmem name)

/-- No ensemble of a valid map is in a cycle. -/
theorem EnsemblesValid.acyclic (h : EnsemblesValid cuda configMap) (ensemble : String) :
    ¬ TransGen (Contains configMap) ensemble ensemble := by
  intro hcycle
  obtain ⟨_, -, hlast⟩ := TransGen.tail'_iff.mp hcycle
  exact (h.sound ensemble hlast.1).not_cycle hcycle

theorem EnsemblesValid.stepOk (h : EnsemblesValid cuda configMap) {ensemble : String}
    {config : ModelConfig} (hfind : configMap.find ensemble = some config)
    (hscheduling : config.hasEnsembleScheduling = true) {step : EnsembleStep}
    (hstep : step ∈ config.step) : StepOk cuda configMap config step := by
  obtain ⟨hfind', hok, -⟩ := h.sound ensemble ⟨config, hfind, hscheduling⟩
  obtain rfl := Option.some.inj (hfind'.symm.trans hfind)
  exact hok.steps step hstep

/-- What `ValidateEnsembleConfig` does for a map of model configurations. -/
structure EnsemblesChecked (cuda : CudaDeviceCount)
    (configMap : UnorderedMap String ModelConfig) : Prop where
  /-- It returns, and meets no entry that is not there. -/
  returns : ∀ order depth, 2 * configMap.entries.length < depth →
    validateEnsembleConfigs order cuda configMap depth = .ok () ∨
    ∃ status : Status, ¬ status.isOk ∧
      validateEnsembleConfigs order cuda configMap depth = .error (.status status)
  /-- Whether it succeeds does not depend on the order of the maps. -/
  order : ∀ order order' depth depth', 2 * configMap.entries.length < depth →
    2 * configMap.entries.length < depth' →
    validateEnsembleConfigs order cuda configMap depth = .ok () →
    validateEnsembleConfigs order' cuda configMap depth' = .ok ()
  /-- No ensemble contains itself, also not through others. -/
  acyclic : ∀ order depth, 2 * configMap.entries.length < depth →
    validateEnsembleConfigs order cuda configMap depth = .ok () →
    ∀ ensemble, ¬ TransGen (Contains configMap) ensemble ensemble
  /-- A step of an ensemble names a valid model that allows the batches of the ensemble. -/
  steps : ∀ order depth, 2 * configMap.entries.length < depth →
    validateEnsembleConfigs order cuda configMap depth = .ok () →
    ∀ ensemble config, configMap.find ensemble = some config →
      config.hasEnsembleScheduling = true → ∀ step ∈ config.step,
        ∃ modelConfig, configMap.find step.modelName = some modelConfig ∧
          ModelValid cuda modelConfig ∧ config.maxBatchSize ≤ modelConfig.maxBatchSize

theorem ensemblesChecked (cuda : CudaDeviceCount) (configMap : UnorderedMap String ModelConfig) :
    EnsemblesChecked cuda configMap := by
  have hvalid : ∀ order depth, 2 * configMap.entries.length < depth →
      (validateEnsembleConfigs order cuda configMap depth = .ok () ↔
        EnsemblesValid cuda configMap) := by
    intro order depth hdepth
    rw [← (decides_validateEnsembleConfigs order cuda configMap hdepth).returns_iff]
    exact ⟨fun h => ⟨(), h⟩, fun ⟨_, h⟩ => h⟩
  constructor
  · intro order depth hdepth
    cases hresult : validateEnsembleConfigs order cuda configMap depth with
    | ok => exact .inl rfl
    | error halt =>
      obtain ⟨status, hnot, rfl⟩ :=
        (decides_validateEnsembleConfigs order cuda configMap hdepth).permitted hresult
      exact .inr ⟨status, hnot, rfl⟩
  · intro order order' depth depth' hdepth hdepth' hok
    exact (hvalid order' depth' hdepth').mpr ((hvalid order depth hdepth).mp hok)
  · intro order depth hdepth hok
    exact ((hvalid order depth hdepth).mp hok).acyclic
  · intro order depth hdepth hok ensemble config hfind hscheduling step hstep
    obtain ⟨modelConfig, hmodel, hmodelOk, -⟩ :=
      ((hvalid order depth hdepth).mp hok).stepOk hfind hscheduling hstep
    exact ⟨modelConfig, hmodel, hmodelOk⟩

/-- An ensemble of one step, that runs `modelName`. -/
def singleStep (name modelName : String) : ModelConfig :=
  { name := name, platform := "ensemble", versionPolicy := some .all, maxBatchSize := 8,
    input := [{ name := "x", dataType := .fp32, dims := [4] }],
    output := [{ name := "y", dataType := .fp32, dims := [4] }],
    scheduling := .ensembleScheduling
      [{ modelName := modelName, modelVersion := 1, inputMap := insertAll ∅ [("x", "x")],
         outputMap := insertAll ∅ [("y", "y")] }] }

/-- An ensemble of an ensemble is accepted, if that runs a model. -/
example : validateEnsembleConfigs default (.success 0)
    (insertAll ∅ [("e", singleStep "e" "f"), ("f", singleStep "f" "m"),
      ("m", { singleStep "m" "" with
        platform := "custom", scheduling := .unset,
        instanceGroup := [{ name := "g", kind := .cpu, count := 1 }] })]) 7 = .ok () := by
  decide

/-- Two ensembles that contain each other are not. -/
example : validateEnsembleConfigs default (.success 0)
    (insertAll ∅ [("e", singleStep "e" "f"), ("f", singleStep "f" "e")]) 5 =
    invalidArg "circular dependency between ensembles: e -> ... -> f -> e" := by
  decide

end FinBert.Serving
