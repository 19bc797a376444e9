import FinBert.Lib.LengthPrefixed
import FinBert.Serving.Validation

/-!
# The control tensors

`CreateControlTensors` of the sequence batcher makes the input overrides by which a payload
tells the model whether a sequence starts and whether a slot is ready, from the controls that
`GetSequenceControlProperties` finds.

Results:
1. `controls_of_getSequenceControlProperties`: the one control that it finds.
2. `servesControls_iff`: for an accepted configuration, each map has a tensor for either control
   exactly when no tensor is configured for both.
-/

namespace FinBert.Sequence

open FinBert.Serving LengthPrefixed

/-! ## `CreateControlTensors` -/

/-- `InferRequestProvider::InputOverride`. -/
structure InputOverride where
  content : List UInt8
  dims : List Int
  datatype : DataType
deriving DecidableEq

abbrev InputOverrideMap := UnorderedMap String InputOverride

/-- `insert` has no effect on a name that is there. -/
def InputOverrideMap.insertNew (overrides : InputOverrideMap) (name : String)
    (override : InputOverride) : InputOverrideMap :=
  if name ∈ overrides then overrides else overrides.insert name override

/-- The local variables of `CreateControlTensors`. They start with arbitrary values. -/
structure ControlLocals where
  tensorName : String
  tensorDatatype : DataType
  int32FalseTrue : Int32 × Int32
  fp32FalseTrue : UInt32 × UInt32

/-- `GetSequenceControlProperties` writes only the values of the datatype that it finds. -/
def ControlLocals.write (locals : ControlLocals) (properties : ControlProperties) :
    ControlLocals where
  tensorName := properties.tensorName
  tensorDatatype := properties.tensorDatatype
  int32FalseTrue := properties.int32FalseTrue.getD locals.int32FalseTrue
  fp32FalseTrue := properties.fp32FalseTrue.getD locals.fp32FalseTrue

/-- The override for the control value `value`: four bytes of one of the variables. -/
def ControlLocals.override (locals : ControlLocals) (value : Bool) : InputOverride where
  content :=
    if locals.tensorDatatype = .int32 then
      word (if value then locals.int32FalseTrue.2 else locals.int32FalseTrue.1).toUInt32.toNat
    else word (if value then locals.fp32FalseTrue.2 else locals.fp32FalseTrue.1).toNat
  dims := [1]
  datatype := locals.tensorDatatype

/-- The maps that `CreateControlTensors` makes. -/
structure ControlTensors where
  startInputOverrides : InputOverrideMap := ∅
  continueInputOverrides : InputOverrideMap := ∅
  notreadyInputOverrides : InputOverrideMap := ∅

/-- The inserts for one control, which has the value `continueValue` while a sequence goes on.
It is true when a sequence starts, and false when the slot is not ready. -/
def ControlTensors.insertControl (tensors : ControlTensors) (locals : ControlLocals)
    (continueValue : Bool) : ControlTensors where
  startInputOverrides :=
    tensors.startInputOverrides.insertNew locals.tensorName (locals.override true)
  continueInputOverrides :=
    tensors.continueInputOverrides.insertNew locals.tensorName (locals.override continueValue)
  notreadyInputOverrides :=
    tensors.notreadyInputOverrides.insertNew locals.tensorName (locals.override false)

/-- `sequence_batching()`: an empty message when another choice is set. -/
def sequenceBatching (config : ModelConfig) : SequenceBatching :=
  match config.scheduling with
  | .sequenceBatching batcher => batcher
  | _ => {}

/-- `CreateControlTensors`. -/
def createControlTensors (locals : ControlLocals) (config : ModelConfig) :
    Except Status ControlTensors :=
  match getSequenceControlProperties (sequenceBatching config) config.name .start true with
  | .error status => .error status
  | .ok start =>
    let locals := locals.write start
    let tensors := ControlTensors.insertControl {} locals false
    match getSequenceControlProperties (sequenceBatching config) config.name .ready true with
    | .error status => .error status
    | .ok ready => .ok (tensors.insertControl (locals.write ready) true)

/-! ## The controls of a configuration -/

/-- The controls of a kind, each with the name of its tensor. -/
def controls (kind : ControlKind) (controlInputs : List ControlInput) : List (String × Control) :=
  controlInputs.flatMap fun controlInput =>
    (controlInput.control.filter fun c => c.kind = kind).map fun c => (controlInput.name, c)

section
variable {modelName tensorName : String} {kind : ControlKind} {properties : ControlProperties}
  {seen seen' : Option ControlProperties}

theorem seeControls_ok {cs : List Control}
    (h : seeControls modelName tensorName kind cs seen = .ok seen') :
    (cs.filter (fun c => c.kind = kind) = [] ∧ seen' = seen) ∨
      seen = none ∧ ∃ c properties, cs.filter (fun c => c.kind = kind) = [c] ∧
        controlValues modelName tensorName c = .ok properties ∧ seen' = some properties := by
  induction cs generalizing seen with
  | nil =>
    cases h
    exact .inl ⟨rfl, rfl⟩
  | cons c cs ih =>
    rw [seeControls] at h
    split at h
    · next hkind =>
      rw [List.filter_cons_of_neg (by simpa using hkind)]
      exact ih h
    · next hkind =>
      rw [List.filter_cons_of_pos (by simpa using hkind)]
      split at h
      · cases h
      · next hseen =>
        split at h
        · next properties hvalues =>
          -- the control is seen, and a further one of its kind is an error
          obtain ⟨hnil, rfl⟩ | ⟨hnone, -⟩ := ih h
          · exact .inr ⟨by simpa using hseen, c, properties, by rw [hnil], hvalues, rfl⟩
          · cases hnone
        · cases h

theorem seeControlInputs_ok {controlInputs : List ControlInput} {seenTensors : List String}
    (h : seeControlInputs modelName kind controlInputs seenTensors seen = .ok seen') :
    ((controlInputs.map (·.name)).Nodup ∧
      ∀ controlInput ∈ controlInputs, controlInput.name ∉ seenTensors) ∧
    ((controls kind controlInputs = [] ∧ seen' = seen) ∨
      seen = none ∧ ∃ name c properties, controls kind controlInputs = [(name, c)] ∧
        controlValues modelName name c = .ok properties ∧ seen' = some properties) := by
  induction controlInputs generalizing seenTensors seen with
  | nil =>
    cases h
    exact ⟨⟨List.nodup_nil, fun _ h => absurd h List.not_mem_nil⟩, .inl ⟨rfl, rfl⟩⟩
  | cons controlInput controlInputs ih =>
    rw [seeControlInputs] at h
    split at h
    · cases h
    · split at h
      · cases h
      · next hnew =>
        split at h
        · next seen₁ hcontrols =>
          obtain ⟨⟨hnodup, hnotSeen⟩, hrest⟩ := ih h
          refine ⟨⟨?_, ?_⟩, ?_⟩
          · rw [List.map_cons, List.nodup_cons]
            refine ⟨fun hmem => ?_, hnodup⟩
            obtain ⟨controlInput', hmem, hname⟩ := List.mem_map.mp hmem
            exact hnotSeen controlInput' hmem (hname ▸ List.mem_cons_self)
          · exact List.forall_mem_cons.mpr
              ⟨hnew, fun c hc hseen => hnotSeen c hc (List.mem_cons_of_mem _ hseen)⟩
          · unfold controls at hrest ⊢
            rw [List.flatMap_cons]
            obtain ⟨hnil, rfl⟩ | ⟨rfl, c, properties, hfilter, hvalues, rfl⟩ :=
              seeControls_ok hcontrols
            · rw [hnil, List.map_nil, List.nil_append]
              exact hrest
            · obtain ⟨hnil, rfl⟩ | ⟨hnone, -⟩ := hrest
              · rw [hfilter, hnil]
                exact .inr ⟨rfl, controlInput.name, c, properties, rfl, hvalues, rfl⟩
              · cases hnone
        · cases h

/-- A required control that is found is the only one of its kind, and the names of the tensors
are distinct. -/
theorem controls_of_getSequenceControlProperties {batcher : SequenceBatching}
    (h : getSequenceControlProperties batcher modelName kind true = .ok properties) :
    (batcher.controlInput.map (·.name)).Nodup ∧
      ∃ name c, controls kind batcher.controlInput = [(name, c)] ∧
        controlValues modelName name c = .ok properties := by
  unfold getSequenceControlProperties at h
  split at h
  · cases h
  · next seen hseen =>
    cases h
    obtain ⟨⟨hnodup, -⟩, ⟨-, hnone⟩ | ⟨-, name, c, properties', hcontrols, hvalues, hsome⟩⟩ :=
      seeControlInputs_ok hseen
    · cases hnone
    · cases hsome
      exact ⟨hnodup, name, c, hcontrols, hvalues⟩
  · cases h

end

theorem mem_controls {kind : ControlKind} {controlInputs : List ControlInput} {name : String}
    {c : Control} :
    (name, c) ∈ controls kind controlInputs ↔
      ∃ controlInput ∈ controlInputs, controlInput.name = name ∧ c ∈ controlInput.control ∧
        c.kind = kind := by
  unfold controls
  simp only [List.mem_flatMap, List.mem_map, List.mem_filter, decide_eq_true_eq, Prod.mk.injEq]
  refine exists_congr fun controlInput => and_congr_right fun _ => ?_
  constructor
  · rintro ⟨c', ⟨hmem, hkind⟩, hname, rfl⟩
    exact ⟨hname, hmem, hkind⟩
  · rintro ⟨hname, hmem, hkind⟩
    exact ⟨c, ⟨hmem, hkind⟩, hname, rfl⟩

/-! ## What the maps hold -/

/-- The override for the value `value` of a control, as it is configured: by its
`int32_false_true`, or else by its `fp32_false_true`. -/
def IsOverride (c : Control) (value : Bool) (override : InputOverride) : Prop :=
  override.dims = [1] ∧
    ((override.datatype = .int32 ∧ ∃ falseValue trueValue,
        c.int32FalseTrue = [falseValue, trueValue] ∧
          override.content = word (if value then trueValue else falseValue).toUInt32.toNat) ∨
      (override.datatype = .fp32 ∧ c.int32FalseTrue = [] ∧ ∃ falseValue trueValue,
        c.fp32FalseTrue = [falseValue, trueValue] ∧
          override.content = word (if value then trueValue else falseValue).toNat))

/-- A map has one entry for the START control and one for the READY control, and no other. -/
def HoldsControls (overrides : InputOverrideMap) (start ready : String × Control)
    (startValue readyValue : Bool) : Prop :=
  ∃ startOverride readyOverride,
    overrides.entries.Perm [⟨start.1, startOverride⟩, ⟨ready.1, readyOverride⟩] ∧
      IsOverride start.2 startValue startOverride ∧ IsOverride ready.2 readyValue readyOverride

/-- The maps have, under two names, the values of the only START control and of the only READY
control. -/
structure ServesControls (batcher : SequenceBatching) (tensors : ControlTensors)
    (start ready : String × Control) : Prop where
  onlyStart : controls .start batcher.controlInput = [start]
  onlyReady : controls .ready batcher.controlInput = [ready]
  ne : start.1 ≠ ready.1
  startInputOverrides : HoldsControls tensors.startInputOverrides start ready true true
  continueInputOverrides : HoldsControls tensors.continueInputOverrides start ready false true
  notreadyInputOverrides : HoldsControls tensors.notreadyInputOverrides start ready false false

/-- The values that are found make the override that is configured, whatever the variables
held before. -/
theorem isOverride_of_controlValues {modelName name : String} {c : Control}
    {properties : ControlProperties} (h : controlValues modelName name c = .ok properties)
    (locals : ControlLocals) :
    (locals.write properties).tensorName = name ∧
      ∀ value, IsOverride c value ((locals.write properties).override value) := by
  unfold controlValues at h
  split at h
  · split at h
    · cases h
    · split at h
      · next falseValue trueValue hvalues =>
        cases h
        exact ⟨rfl, fun value =>
          ⟨rfl, .inl ⟨rfl, falseValue, trueValue, hvalues, by cases value <;> rfl⟩⟩⟩
      · cases h
  · next hempty =>
    have hnil : c.int32FalseTrue = [] :=
      List.eq_nil_of_length_eq_zero (Nat.eq_zero_of_not_pos hempty)
    split at h
    · cases h
    · next falseValue trueValue hvalues =>
      cases h
      exact ⟨rfl, fun value =>
        ⟨rfl, .inr ⟨rfl, hnil, falseValue, trueValue, hvalues, by cases value <;> rfl⟩⟩⟩
    · cases h

/-- Two inserts under different names. -/
theorem entries_insertNew_insertNew {name name' : String} (hne : name ≠ name')
    (override override' : InputOverride) :
    ((InputOverrideMap.insertNew ∅ name override).insertNew name' override').entries.Perm
      [⟨name, override⟩, ⟨name', override'⟩] := by
  have hnew : name' ∉ InputOverrideMap.insertNew ∅ name override := by
    rw [InputOverrideMap.insertNew, if_neg (AList.notMem_empty name), AList.mem_insert, not_or]
    exact ⟨hne.symm, AList.notMem_empty name'⟩
  rw [InputOverrideMap.insertNew, if_neg hnew, AList.entries_insert_of_notMem hnew,
    InputOverrideMap.insertNew, if_neg (AList.notMem_empty name),
    AList.entries_insert_of_notMem (AList.notMem_empty name)]
  exact List.Perm.swap _ _ _

theorem holdsControls_insertNew {start ready : String × Control}
    {startOverride readyOverride : InputOverride} {startValue readyValue : Bool}
    (hne : start.1 ≠ ready.1) (hstart : IsOverride start.2 startValue startOverride)
    (hready : IsOverride ready.2 readyValue readyOverride) :
    HoldsControls ((InputOverrideMap.insertNew ∅ start.1 startOverride).insertNew ready.1
      readyOverride) start ready startValue readyValue :=
  ⟨startOverride, readyOverride, entries_insertNew_insertNew hne _ _, hstart, hready⟩

/-! ## Accepted configurations -/

section
variable {modelName tensorName : String} {kind : ControlKind} {status : Status}
  {seen : Option ControlProperties}

theorem controlValues_error {c : Control}
    (h : controlValues modelName tensorName c = .error status) : status.code = .invalidArg := by
  unfold controlValues at h
  split at h
  · split at h
    · cases h
      rfl
    · split at h
      · cases h
      · cases h
        rfl
  · split at h
    · cases h
      rfl
    · cases h
    · cases h
      rfl

theorem seeControls_error {cs : List Control}
    (h : seeControls modelName tensorName kind cs seen = .error status) :
    status.code = .invalidArg := by
  induction cs generalizing seen with
  | nil => cases h
  | cons c cs ih =>
    rw [seeControls] at h
    split at h
    · exact ih h
    · split at h
      · cases h
        rfl
      · split at h
        · exact ih h
        · next hvalues =>
          cases h
          exact controlValues_error hvalues

theorem seeControlInputs_error {controlInputs : List ControlInput} {seenTensors : List String}
    (h : seeControlInputs modelName kind controlInputs seenTensors seen = .error status) :
    status.code = .invalidArg := by
  induction controlInputs generalizing seenTensors seen with
  | nil => cases h
  | cons controlInput controlInputs ih =>
    rw [seeControlInputs] at h
    split at h
    · cases h
      rfl
    · split at h
      · cases h
        rfl
      · split at h
        · exact ih h
        · next hcontrols =>
          cases h
          exact seeControls_error hcontrols

theorem getSequenceControlProperties_error {batcher : SequenceBatching} {required : Bool}
    (h : getSequenceControlProperties batcher modelName kind required = .error status) :
    status.code = .invalidArg := by
  unfold getSequenceControlProperties at h
  split at h
  · next hinputs =>
    cases h
    exact seeControlInputs_error hinputs
  · cases h
  · split at h
    · cases h
      rfl
    · cases h

/-- A check that passes has found the properties. -/
theorem exists_of_isOk_getSequenceControlProperties {batcher : SequenceBatching}
    {required : Bool}
    (h : (statusOf (getSequenceControlProperties batcher modelName kind required)).isOk) :
    ∃ properties,
      getSequenceControlProperties batcher modelName kind required = .ok properties := by
  cases hresult : getSequenceControlProperties batcher modelName kind required with
  | ok properties => exact ⟨properties, rfl⟩
  | error status =>
    have hcode := getSequenceControlProperties_error hresult
    rw [hresult, statusOf, Status.isOk, hcode] at h
    cases h

end

/-- The tensor is configured for a control of the kind. -/
def hasControl (controlInput : ControlInput) (kind : ControlKind) : Bool :=
  controlInput.control.any fun c => c.kind = kind

theorem hasControl_iff {controlInputs : List ControlInput} {kind : ControlKind}
    {only : String × Control} (honly : controls kind controlInputs = [only])
    (hnodup : (controlInputs.map (·.name)).Nodup) {controlInput : ControlInput}
    (hmem : controlInput ∈ controlInputs) :
    hasControl controlInput kind = true ↔ controlInput.name = only.1 := by
  have hiff : ∀ name c, (name, c) ∈ controls kind controlInputs ↔ (name, c) = only :=
    fun name c => by rw [honly, List.mem_singleton]
  unfold hasControl
  simp only [List.any_eq_true, decide_eq_true_eq]
  constructor
  · rintro ⟨c, hc, hkind⟩
    have hcontrol := mem_controls.mpr ⟨controlInput, hmem, rfl, hc, hkind⟩
    exact congrArg Prod.fst ((hiff controlInput.name c).mp hcontrol)
  · intro hname
    obtain ⟨controlInput', hmem', hname', hc, hkind⟩ :=
      mem_controls.mp ((hiff only.1 only.2).mpr rfl)
    obtain rfl := List.inj_on_of_nodup_map hnodup hmem' hmem (hname'.trans hname.symm)
    exact ⟨only.2, hc, hkind⟩

section
variable {cuda : CudaDeviceCount} {config : ModelConfig} {expectedPlatform : String}
  {batcher : SequenceBatching}

/-- The two controls that an accepted configuration has. -/
theorem exists_controls_of_validateModelConfig
    (haccepted : (validateModelConfig cuda config expectedPlatform).isOk)
    (hscheduling : config.scheduling = .sequenceBatching batcher) :
    ∃ start ready,
      getSequenceControlProperties batcher config.name .start true = .ok start ∧
        getSequenceControlProperties batcher config.name .ready true = .ok ready := by
  have hbatching := (isOk_validateModelConfig haccepted).2.2.2.1
  unfold validateBatching at hbatching
  rw [hscheduling] at hbatching
  simp only at hbatching
  split at hbatching
  · cases hbatching
  · rw [Status.isOk_andThen] at hbatching
    obtain ⟨start, hstart⟩ := exists_of_isOk_getSequenceControlProperties hbatching.1
    obtain ⟨ready, hready⟩ := exists_of_isOk_getSequenceControlProperties hbatching.2
    exact ⟨start, ready, hstart, hready⟩

/-- For every accepted configuration of a sequence batcher: the control tensors are made as
configured exactly when no tensor is configured for both controls. -/
theorem servesControls_iff (locals : ControlLocals)
    (haccepted : (validateModelConfig cuda config expectedPlatform).isOk)
    (hscheduling : config.scheduling = .sequenceBatching batcher) :
    (∃ tensors start ready, createControlTensors locals config = .ok tensors ∧
        ServesControls batcher tensors start ready) ↔
      ∀ controlInput ∈ batcher.controlInput,
        ¬ (hasControl controlInput .start = true ∧ hasControl controlInput .ready = true) := by
  obtain ⟨startProperties, readyProperties, hstart, hready⟩ :=
    exists_controls_of_validateModelConfig haccepted hscheduling
  obtain ⟨hnodup, startName, start, honlyStart, hstartValues⟩ :=
    controls_of_getSequenceControlProperties hstart
  obtain ⟨-, readyName, ready, honlyReady, hreadyValues⟩ :=
    controls_of_getSequenceControlProperties hready
  constructor
  · rintro ⟨tensors, start', ready', -, hserves⟩ controlInput hmem ⟨hhasStart, hhasReady⟩
    rw [hasControl_iff hserves.onlyStart hnodup hmem] at hhasStart
    rw [hasControl_iff hserves.onlyReady hnodup hmem] at hhasReady
    exact hserves.ne (hhasStart.symm.trans hhasReady)
  · intro hapart
    have hne : startName ≠ readyName := by
      have hmem : (startName, start) ∈ controls .start batcher.controlInput := by
        rw [honlyStart]
        exact List.mem_singleton_self _
      obtain ⟨controlInput, hinput, hname, -⟩ := mem_controls.mp hmem
      intro heq
      exact hapart controlInput hinput ⟨(hasControl_iff honlyStart hnodup hinput).mpr hname,
        (hasControl_iff honlyReady hnodup hinput).mpr (hname.trans heq)⟩
    obtain ⟨hstartName, hstartOverride⟩ := isOverride_of_controlValues hstartValues locals
    obtain ⟨hreadyName, hreadyOverride⟩ :=
      isOverride_of_controlValues hreadyValues (locals.write startProperties)
    refine ⟨(ControlTensors.insertControl {} (locals.write startProperties) false).insertControl
      ((locals.write startProperties).write readyProperties) true, (startName, start),
      (readyName, ready), ?_, honlyStart, honlyReady, hne, ?_, ?_, ?_⟩
    · unfold createControlTensors sequenceBatching
      rw [hscheduling]
      simp only
      rw [hstart, hready]
    all_goals
      simp only [ControlTensors.insertControl, hstartName, hreadyName]
      exact @holdsControls_insertNew (startName, start) (readyName, ready) _ _ _ _ hne
        (hstartOverride _) (hreadyOverride _)

end

/-- A model with one instance, and a sequence batcher with these controls. -/
def sequenceModel (controlInput : List ControlInput) : ModelConfig where
  name := "model"
  platform := kTensorFlowGraphDefPlatform
  versionPolicy := some (.latest 1)
  maxBatchSize := 4
  scheduling := .sequenceBatching { controlInput := controlInput }
  instanceGroup := [{ name := "model_0", kind := .cpu, count := 1 }]

def zeroOne (kind : ControlKind) : Control := { kind := kind, int32FalseTrue := [0, 1] }

/-- A tensor for either control. -/
def twoTensors : List ControlInput := [⟨"START", [zeroOne .start]⟩, ⟨"READY", [zeroOne .ready]⟩]

theorem servesControls_twoTensors :
    ∃ tensors start ready,
      createControlTensors ⟨"", .invalid, (0, 0), (0, 0)⟩ (sequenceModel twoTensors) = .ok tensors ∧
        ServesControls { controlInput := twoTensors } tensors start ready :=
  (@servesControls_iff (.success 0) (sequenceModel twoTensors) "" _ _ (by decide) rfl).mpr
    (by decide)

/-- One tensor is configured for both controls, and the maps have one entry for it. -/
theorem not_servesControls_oneTensor :
    ¬ ∀ (cuda : CudaDeviceCount) (config : ModelConfig) (expectedPlatform : String)
        (batcher : SequenceBatching) (locals : ControlLocals),
      (validateModelConfig cuda config expectedPlatform).isOk →
        config.scheduling = .sequenceBatching batcher →
          ∃ tensors start ready, createControlTensors locals config = .ok tensors ∧
            ServesControls batcher tensors start ready := by
  intro h
  obtain ⟨tensors, start, ready, -, hserves⟩ := h (.success 0)
    (sequenceModel [⟨"CONTROL", [zeroOne .start, zeroOne .ready]⟩]) "" _
    ⟨"", .invalid, (0, 0), (0, 0)⟩ (by decide) rfl
  have hstart : [("CONTROL", zeroOne .start)] = [start] := hserves.onlyStart
  have hready : [("CONTROL", zeroOne .ready)] = [ready] := hserves.onlyReady
  refine hserves.ne ?_
  rw [← List.singleton_inj.mp hstart, ← List.singleton_inj.mp hready]

end FinBert.Sequence
