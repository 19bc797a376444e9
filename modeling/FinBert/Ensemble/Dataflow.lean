import FinBert.Ensemble.Success
import FinBert.Lib.Dataflow
import FinBert.Serving.Validation

/-!
# An ensemble as a dataflow network

The steps of an ensemble are the steps of a dataflow network over the names of its tensors. Only
an ensemble input that is not an ensemble output too is available from the start.

Results:
1. `starts_iff`: the steps that are prepared are those that start in the network.
2. `singleWriter_network`, `source_or_written`: the network of an accepted ensemble.
3. `prepareSteps_advances`: a call of `PrepareSteps` in the terms of the network.
-/

namespace FinBert.Ensemble

open FinBert.Serving Dataflow

/-- The network of an ensemble. -/
def network (config : ModelConfig) : Network Nat String where
  steps := List.range config.step.length
  reads b := ((config.step[b]?).map (·.reads)).getD []
  writes b := ((config.step[b]?).map (·.writes)).getD []
  sources := config.inputNames.filter (· ∉ config.outputNames)

section
variable (config : ModelConfig)

theorem reads_network {b : Nat} (hb : b < config.step.length) :
    (network config).reads b = config.step[b].reads := by
  show ((config.step[b]?).map _).getD [] = _
  rw [List.getElem?_eq_getElem hb]
  rfl

theorem writes_network {b : Nat} (hb : b < config.step.length) :
    (network config).writes b = config.step[b].writes := by
  show ((config.step[b]?).map _).getD [] = _
  rw [List.getElem?_eq_getElem hb]
  rfl

/-- The tensors of this name have the property `P`. -/
def Named (P : Nat → Prop) (name : String) : Prop :=
  ∃ idx, (layout config).nameToIdx.find name = some idx ∧ P idx

theorem named_or (P Q : Nat → Prop) (name : String) :
    Named config (fun idx => P idx ∨ Q idx) name ↔ Named config P name ∨ Named config Q name := by
  unfold Named
  simp only [and_or_left, exists_or]

end

section
variable {config : ModelConfig}

theorem named_iff {P : Nat → Prop} {name : String} {idx : Nat}
    (h : (layout config).nameToIdx.find name = some idx) : Named config P name ↔ P idx := by
  refine ⟨fun ⟨idx', h', hP⟩ => ?_, fun hP => ⟨idx, h, hP⟩⟩
  rwa [Option.some.inj (h.symm.trans h')]

/-! ## What a step reads and writes -/

/-- The names of a map of a step, and the slots of its tensors. -/
structure Slotted (config : ModelConfig) (names : List String)
    (toTensor : UnorderedMap String Nat) : Prop where
  found : ∀ x ∈ names, ∃ idx, (layout config).nameToIdx.find x = some idx
  mem : ∀ idx, (∃ key, toTensor.find key = some idx) ↔
    ∃ x ∈ names, (layout config).nameToIdx.find x = some idx

theorem slotted_of_mapsTo {names : UnorderedMap String String} {toTensor : UnorderedMap String Nat}
    (h : Layout.MapsTo (layout config).nameToIdx names toTensor) :
    Slotted config (names.entries.map (·.2)) toTensor := by
  have hmem : ∀ x, x ∈ names.entries.map (·.2) ↔ ∃ key, names.find key = some x := fun x => by
    simp only [List.mem_map, Sigma.exists, exists_eq_right, UnorderedMap.find,
      ← AList.mem_lookup_iff, Option.mem_def]
  refine ⟨fun x hx => ?_, fun idx => ⟨?_, ?_⟩⟩
  · obtain ⟨key, hkey⟩ := (hmem x).mp hx
    obtain ⟨idx, hidx, -⟩ := h.forward key x hkey
    exact ⟨idx, hidx⟩
  · rintro ⟨key, hkey⟩
    obtain ⟨x, hx, hidx⟩ := h.backward key idx hkey
    exact ⟨x, (hmem x).mpr ⟨key, hx⟩, hidx⟩
  · rintro ⟨x, hx, hidx⟩
    obtain ⟨key, hkey⟩ := (hmem x).mp hx
    obtain ⟨idx', hidx', hkey'⟩ := h.forward key x hkey
    obtain rfl := Option.some.inj (hidx'.symm.trans hidx)
    exact ⟨key, hkey'⟩

/-- The slots that a step of the ensemble reads and writes. -/
theorem step_slotted {b : Nat} (hb : b ∈ (network config).steps) :
    Slotted config ((network config).reads b) ((ensembleInfo config).step b).inputToTensor ∧
      Slotted config ((network config).writes b) ((ensembleInfo config).step b).outputToTensor := by
  have hlt : b < config.step.length := List.mem_range.mp hb
  have hsteps := (wired_layout config).steps
  have hlt' : b < (layout config).steps.length := hsteps.length_eq ▸ hlt
  have hwired := hsteps.get hlt hlt'
  have hstep : (ensembleInfo config).step b = (layout config).steps[b] :=
    List.getD_eq_getElem _ _ hlt'
  rw [hstep, reads_network config hlt, writes_network config hlt]
  exact ⟨slotted_of_mapsTo hwired.inputs, slotted_of_mapsTo hwired.outputs⟩

/-- The readers of a slot are the steps that read its name. -/
theorem mem_tensorToStep (idx b : Nat) :
    b ∈ (ensembleInfo config).tensorToStep.getD idx [] ↔ b ∈ (network config).steps ∧
      ∃ x ∈ (network config).reads b, (layout config).nameToIdx.find x = some idx := by
  have hlength := (wired_layout config).steps.length_eq
  constructor
  · intro hb
    obtain ⟨stepInfo, hstep, hkey⟩ := ((wired_layout config).readers idx b).mp hb
    obtain ⟨hlt, rfl⟩ := List.getElem?_eq_some_iff.mp hstep
    have hmem : b ∈ (network config).steps := List.mem_range.mpr (hlength ▸ hlt)
    refine ⟨hmem, ((step_slotted hmem).1.mem idx).mp ?_⟩
    rwa [EnsembleInfo.step, List.getD_eq_getElem _ _ (by exact hlt)]
  · rintro ⟨hmem, hx⟩
    have hkey := ((step_slotted hmem).1.mem idx).mpr hx
    have hlt : b < (layout config).steps.length := hlength ▸ List.mem_range.mp hmem
    rw [EnsembleInfo.step, List.getD_eq_getElem _ _ (by exact hlt)] at hkey
    exact ((wired_layout config).readers idx b).mpr ⟨_, List.getElem?_eq_getElem hlt, hkey⟩

theorem stepReady_iff {ctx : EnsembleContext} {b : Nat} (hb : b ∈ (network config).steps) :
    EnsembleContext.stepReady (ensembleInfo config) ctx b ↔
      ∀ x ∈ (network config).reads b, Named config ctx.IsSet x := by
  obtain ⟨hreads, -⟩ := step_slotted hb
  have hready : EnsembleContext.stepReady (ensembleInfo config) ctx b ↔
      ∀ idx, (∃ key, ((ensembleInfo config).step b).inputToTensor.find key = some idx) →
        ctx.IsSet idx := by
    simp only [EnsembleContext.stepReady, List.all_eq_true, Sigma.forall, forall_exists_index,
      ← AList.mem_lookup_iff, Option.mem_def]
    exact forall_comm
  rw [hready]
  constructor
  · intro h x hx
    obtain ⟨idx, hidx⟩ := hreads.found x hx
    exact ⟨idx, hidx, h idx ((hreads.mem idx).mpr ⟨x, hx, hidx⟩)⟩
  · intro h idx hkey
    obtain ⟨x, hx, hidx⟩ := (hreads.mem idx).mp hkey
    exact (named_iff hidx).mp (h x hx)

/-- The steps that are prepared are those that start in the network. -/
theorem starts_iff {updated : List Nat} {ctx : EnsembleContext} {b : Nat} :
    b ∈ EnsembleContext.nextStepIdx (ensembleInfo config) updated ctx ↔
      (network config).Starts (Named config ctx.IsSet) (Named config (· ∈ updated)) b := by
  rw [(EnsembleContext.nextStepIdx_spec updated ctx).2]
  constructor
  · rintro ⟨⟨idx, hidx, hreader⟩, hready⟩
    obtain ⟨hb, x, hx, hfind⟩ := (mem_tensorToStep idx b).mp hreader
    exact ⟨hb, ⟨x, hx, idx, hfind, hidx⟩, (stepReady_iff hb).mp hready⟩
  · rintro ⟨hb, ⟨x, hx, idx, hfind, hidx⟩, havailable⟩
    exact ⟨⟨idx, hidx, (mem_tensorToStep idx b).mpr ⟨hb, x, hx, hfind⟩⟩,
      (stepReady_iff hb).mpr havailable⟩

/-! ## The network of an accepted ensemble -/

/-- No tensor of an accepted ensemble is written by two steps. -/
theorem singleWriter_network (h : Accepted config) : (network config).SingleWriter := by
  intro a ha b hb x hx hx'
  have hlt : a < config.step.length := List.mem_range.mp ha
  have hlt' : b < config.step.length := List.mem_range.mp hb
  rw [writes_network config hlt] at hx
  rw [writes_network config hlt'] at hx'
  have hdisjoint := (List.nodup_flatMap.mp h.nodup).2
  rw [List.pairwise_iff_getElem] at hdisjoint
  rcases Nat.lt_trichotomy a b with hab | rfl | hba
  · exact absurd hx' (hdisjoint a b hlt hlt' hab hx)
  · rfl
  · exact absurd hx (hdisjoint b a hlt' hlt hba hx')

theorem exists_writer {x : String} (hx : x ∈ config.writes) :
    ∃ c ∈ (network config).steps, x ∈ (network config).writes c := by
  obtain ⟨element, helement, hwrites⟩ := List.mem_flatMap.mp hx
  obtain ⟨c, hc, rfl⟩ := List.getElem_of_mem helement
  exact ⟨c, List.mem_range.mpr hc, writes_network config hc ▸ hwrites⟩

theorem mem_steps_of_reads {b : Nat} {x : String} (hx : x ∈ (network config).reads b) :
    b ∈ (network config).steps := by
  refine List.mem_range.mpr (Nat.lt_of_not_le fun hge => ?_)
  have hx : x ∈ ((config.step[b]?).map _).getD [] := hx
  rw [List.getElem?_eq_none hge] at hx
  cases hx

/-- Every step of an accepted ensemble reads a tensor. -/
theorem reads_ne_nil (h : Accepted config) {b : Nat} (hb : b ∈ (network config).steps) :
    (network config).reads b ≠ [] := by
  have hlt : b < config.step.length := List.mem_range.mp hb
  rw [reads_network config hlt]
  exact fun hnil => h.mapped _ (List.getElem_mem hlt) (List.map_eq_nil_iff.mp hnil)

/-- What a step of an accepted ensemble reads is available from the start or written, when the
ensemble outputs are written. -/
theorem source_or_written (h : Accepted config)
    (houtputs : ∀ name ∈ config.outputNames, name ∈ config.writes) {b : Nat}
    (hb : b ∈ (network config).steps) {x : String} (hx : x ∈ (network config).reads b) :
    x ∈ (network config).sources ∨
      ∃ c ∈ (network config).steps, x ∈ (network config).writes c := by
  have hlt : b < config.step.length := List.mem_range.mp hb
  rw [reads_network config hlt] at hx
  rcases h.reads _ (List.getElem_mem hlt) x hx with hinput | hwrites
  · by_cases hout : x ∈ config.outputNames
    · exact .inr (exists_writer (houtputs x hout))
    · exact .inl (List.mem_filter.mpr ⟨hinput, decide_eq_true hout⟩)
  · exact .inr (exists_writer hwrites)

end

/-! ## A call of `PrepareSteps` -/

namespace EnsembleContext

section
variable {info : EnsembleInfo} {server : Server}

theorem isSet_congr {ctx ctx' : EnsembleContext} (h : ctx'.tensorData = ctx.tensorData)
    (idx : Nat) : ctx'.IsSet idx ↔ ctx.IsSet idx := by
  unfold IsSet tensor
  rw [h]

theorem nextStepIdx_congr {ctx ctx' : EnsembleContext} (h : ctx'.tensorData = ctx.tensorData)
    (updated : List Nat) : nextStepIdx info updated ctx' = nextStepIdx info updated ctx := by
  unfold nextStepIdx stepReady tensor
  rw [h]

/-- A call of `PrepareSteps` that reports the tensors `updated` and returns the steps `newly`. -/
structure Advances (info : EnsembleInfo) (server : Server)
    (completed : Option (Step × StepResponse)) (ctx ctx' : EnsembleContext)
    (updated newly : List Nat) : Prop where
  length : ctx'.tensorData.length = ctx.tensorData.length
  isSet : ∀ idx, ctx'.IsSet idx ↔ ctx.IsSet idx ∨ idx ∈ updated
  reported : ∀ idx ∈ updated, Reports info ctx completed idx
  next : newly = [] ∨ newly = nextStepIdx info updated ctx'
  succeeds : ctx.ensembleStatus.isOk → server.Succeeds info completed ctx →
    (∀ idx, Reports info ctx completed idx → idx ∈ updated) ∧
      newly = nextStepIdx info updated ctx'

theorem prepareSteps_advances {completed : Option (Step × StepResponse)}
    {ctx ctx' : EnsembleContext} {readySteps : List Step}
    (hlength : ctx.tensorData.length = info.tensorToStep.length)
    (h : prepareSteps info server completed ctx = (ctx', readySteps)) :
    ∃ updated, Advances info server completed ctx ctx' updated (readySteps.map (·.stepIdx)) := by
  rcases prepareSteps_cases h with ⟨hfail, hdata, rfl⟩ | ⟨hok, hadvance⟩
  · refine ⟨[], by rw [hdata], fun idx => ?_, fun _ hidx => absurd hidx List.not_mem_nil, .inl rfl,
      fun hok => absurd hok hfail⟩
    rw [isSet_congr hdata, or_iff_left List.not_mem_nil]
  · obtain ⟨hdata, hready⟩ := advance_spec hadvance
    have hsucceeds := fun hsucceeds => (prepareSteps_succeeds hlength hok hsucceeds h).1
    generalize hupdate : updateEnsembleState info completed ctx = update at hdata hready hsucceeds
    obtain ⟨status, ctx₁, updated⟩ := update
    have hwrites : ctx₁.tensorData.length = ctx.tensorData.length ∧
        (∀ idx, ctx₁.IsSet idx ↔ ctx.IsSet idx ∨ idx ∈ updated) ∧
        ∀ idx ∈ updated, Reports info ctx completed idx := by
      cases completed with
      | none =>
        obtain ⟨rfl, rfl, hupdated⟩ := hupdate
        have hmem := fun idx => mem_updated_none info ctx idx
        exact ⟨rfl, fun idx => (or_iff_left_of_imp (hmem idx).mp).symm, fun idx => (hmem idx).mp⟩
      | some completed =>
        have hwrites := updateEnsembleState_writes hlength hupdate
        exact ⟨hwrites.length, hwrites.isSet, hwrites.mapped⟩
    refine ⟨updated, by rw [hdata]; exact hwrites.1, fun idx => ?_, hwrites.2.2, ?_,
      fun _ hserver => ⟨?_, ?_⟩⟩
    · rw [isSet_congr hdata]
      exact hwrites.2.1 idx
    · rw [nextStepIdx_congr hdata]
      exact hready.imp_left fun hnil => by rw [hnil]; rfl
    · exact (updateEnsembleState_succeeds hlength hserver.1 hupdate).2.reported
    · rw [nextStepIdx_congr hdata]
      exact hsucceeds hserver

theorem Advances.nodup {completed : Option (Step × StepResponse)} {ctx ctx' : EnsembleContext}
    {updated newly : List Nat} (h : Advances info server completed ctx ctx' updated newly) :
    newly.Nodup := by
  rcases h.next with rfl | rfl
  · exact List.nodup_nil
  · exact (nextStepIdx_spec updated ctx').1

/-- The steps that a call returns start in the network. -/
theorem Advances.starts {config : ModelConfig} {completed : Option (Step × StepResponse)}
    {ctx ctx' : EnsembleContext} {updated newly : List Nat}
    (h : Advances (ensembleInfo config) server completed ctx ctx' updated newly) {b : Nat}
    (hb : b ∈ newly) :
    (network config).Starts (Named config ctx'.IsSet) (Named config (· ∈ updated)) b := by
  rcases h.next with rfl | rfl
  · exact absurd hb List.not_mem_nil
  · exact starts_iff.mp hb

/-- The tensors that are set after a call. -/
theorem Advances.named {config : ModelConfig} {completed : Option (Step × StepResponse)}
    {ctx ctx' : EnsembleContext} {updated newly : List Nat}
    (h : Advances (ensembleInfo config) server completed ctx ctx' updated newly) :
    Named config ctx'.IsSet =
      fun x => Named config ctx.IsSet x ∨ Named config (· ∈ updated) x := by
  funext x
  rw [← propext (named_or config _ _ x), funext fun idx => propext (h.isSet idx)]

end

end EnsembleContext

end FinBert.Ensemble
