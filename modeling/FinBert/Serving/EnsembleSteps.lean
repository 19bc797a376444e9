import FinBert.Serving.EnsembleUtils

/-!
# The steps of a valid ensemble

What the loop over the steps of an ensemble decides, without the order in which it goes over the
maps of a step: every ensemble tensor has one type (`Functional`), every input of a model is mapped,
and every entry of an output map belongs to one output. A loop that succeeds leaves the nodes of
all tensors, with links from what a step reads to what it writes (`Represents`).

Results:
1. `decides_mapStep`: what a step decides, and what it does to the nodes.
2. `represents_ensembleTensors`: the nodes before the first step.
-/

namespace FinBert.Serving

open UnorderedMap Programs

/-- The errors that the source returns. -/
def Returned (halt : Halt) : Prop := ∃ status : Status, ¬ status.isOk ∧ halt = .status status

theorem not_isOk_invalidArg (message : String) :
    ¬ ({ code := .invalidArg, message := message } : Status).isOk := by
  intro h
  cases h

section
variable {α : Type} {C : Prop} {P : α → Prop}

theorem decides_invalidArg {message : String} (h : ¬ C) :
    Decides Returned C P (invalidArg message) :=
  .error h ⟨_, not_isOk_invalidArg message, rfl⟩

theorem decides_ite_invalidArg [Decidable C] {a : α} {message : String} (h : C → P a) :
    Decides Returned C P (if C then .ok a else invalidArg message) :=
  decides_ite h fun _ => ⟨_, not_isOk_invalidArg message, rfl⟩

theorem decides_returnIfError (status : Status) :
    Decides Returned status.isOk (fun _ => True) (returnIfError status) :=
  decides_ite (fun _ => trivial) fun h => ⟨status, h, rfl⟩

theorem decides_secondOf {o : Option α} {a : α} (h : o = some a) :
    Decides Returned True (fun b => b = a) (secondOf o) := by
  subst h
  exact .ok trivial rfl

end

/-! ## Types and links -/

/-- The data type and the dims of a tensor. -/
abbrev TensorType := DataType × List Int

def TensorNode.tensorType (node : TensorNode) : TensorType := (node.type, node.dims)

/-- Which types a tensor is used with. -/
abbrev TensorTypes := String → TensorType → Prop

/-- Every tensor is used with one type. -/
def Functional (known : TensorTypes) : Prop :=
  ∀ name type type', known name type → known name type' → type = type'

def Also (known new : TensorTypes) : TensorTypes := fun name type => known name type ∨ new name type

theorem also_eq_left {known new : TensorTypes} (h : ∀ name type, new name type → known name type) :
    Also known new = known := by
  funext name type
  exact propext (or_iff_left_of_imp (h name type))

/-- The nodes have the types and the links. -/
structure Represents (known : TensorTypes) (links : String → String → Prop)
    (tensors : TensorNodes) : Prop where
  known_iff : ∀ name type,
    (∃ node, tensors.find name = some node ∧ node.tensorType = type) ↔ known name type
  prev : ∀ name node, tensors.find name = some node →
    ∀ name', name' ∈ node.prevNodes ↔ links name' name
  next : ∀ name node, tensors.find name = some node →
    ∀ name', name' ∈ node.nextNodes ↔ links name name'
  linked : ∀ name name', links name name' → (∃ type, known name type) ∧ ∃ type, known name' type
  unready : ∀ name node, tensors.find name = some node → node.ready = false

variable {known : TensorTypes} {links : String → String → Prop} {tensors : TensorNodes}

theorem Represents.functional (h : Represents known links tensors) : Functional known := by
  intro name type type' hknown hknown'
  obtain ⟨node, hfind, rfl⟩ := (h.known_iff name type).mpr hknown
  obtain ⟨node', hfind', rfl⟩ := (h.known_iff name type').mpr hknown'
  rw [Option.some.inj (hfind.symm.trans hfind')]

theorem Represents.find_of_known (h : Represents known links tensors) {name : String}
    {type : TensorType} (hknown : known name type) : ∃ node, tensors.find name = some node := by
  obtain ⟨node, hfind, -⟩ := (h.known_iff name type).mpr hknown
  exact ⟨node, hfind⟩

theorem isOk_validateTensorConsistency (lhs rhs : TensorNode) (message : String) :
    (validateTensorConsistency lhs rhs message).isOk ↔ lhs.tensorType = rhs.tensorType := by
  unfold validateTensorConsistency TensorNode.tensorType
  rw [Prod.mk.injEq]
  split
  · next htype => exact iff_of_false (not_isOk_invalidArg _) fun heq => htype heq.1
  · next htype =>
    split
    · next hdims => exact iff_of_false (not_isOk_invalidArg _) fun heq => hdims heq.2
    · next hdims => exact iff_of_true rfl ⟨not_not.mp htype, not_not.mp hdims⟩

/-! ## The mapped tensors -/

/-- The types that the elements of a list bring. -/
def typesIn {β : Type} (new : β → TensorTypes) (xs : List β) : TensorTypes :=
  fun name type => ∃ x ∈ xs, new x name type

theorem also_typesIn_nil {β : Type} (new : β → TensorTypes) (known : TensorTypes) :
    Also known (typesIn new []) = known := by
  refine also_eq_left ?_
  rintro name type ⟨x, hmem, -⟩
  cases hmem

theorem also_typesIn_concat {β : Type} (new : β → TensorTypes) (xs : List β) (x : β)
    (known : TensorTypes) :
    Also known (typesIn new (xs ++ [x])) = Also (Also known (typesIn new xs)) (new x) := by
  funext name type
  simp only [Also, typesIn, List.mem_append, List.mem_singleton, or_and_right, exists_or,
    exists_eq_left, or_assoc]

theorem functional_of_also {known new : TensorTypes} (h : Functional (Also known new)) :
    Functional known :=
  fun name _ _ hknown hknown' => h name _ _ (.inl hknown) (.inl hknown')

/-- A loop whose turns decide whether the types that they bring agree with those that are known. -/
theorem decides_mapLoop {β : Type} {f : TensorNodes → β → Except Halt TensorNodes}
    {new : β → TensorTypes} {c : β → Prop} (xs : List β) (h : Represents known links tensors)
    (hturn : ∀ known tensors, ∀ x ∈ xs, Represents known links tensors →
      Decides Returned (Functional (Also known (new x)) ∧ c x)
        (Represents (Also known (new x)) links) (f tensors x)) :
    Decides Returned (Functional (Also known (typesIn new xs)) ∧ ∀ x ∈ xs, c x)
      (Represents (Also known (typesIn new xs)) links) (xs.foldlM f tensors) := by
  refine Decides.foldlM
    (C := fun done : List β => Functional (Also known (typesIn new done)) ∧ ∀ x ∈ done, c x)
    (I := fun done => Represents (Also known (typesIn new done)) links)
    (fun done x hdone => ?_) (fun done x tensors hx hdone hrep => ?_) ?_ ?_
  · rw [also_typesIn_concat] at hdone
    exact ⟨functional_of_also hdone.1, fun y hy => hdone.2 y (List.mem_append_left _ hy)⟩
  · rw [also_typesIn_concat]
    refine (hturn _ tensors x hx hrep).congr (and_congr_right fun _ => ⟨fun hcx y hy => ?_, ?_⟩)
    · rcases List.mem_append.mp hy with hy | hy
      · exact hdone.2 y hy
      · rw [List.mem_singleton.mp hy]
        exact hcx
    · exact fun hall => hall x (List.mem_append_right _ (List.mem_singleton_self x))
  · rw [also_typesIn_nil]
    exact ⟨h.functional, fun x hx => by cases hx⟩
  · rw [also_typesIn_nil]
    exact h

/-- The type that a mapping brings. -/
def mappingType (mapping : String × TensorNode) : TensorTypes :=
  fun name type => mapping.1 = name ∧ mapping.2.tensorType = type

/-- A node without links that is not ready. -/
def TensorNode.Fresh (node : TensorNode) : Prop :=
  node.ready = false ∧ node.prevNodes = [] ∧ node.nextNodes = []

theorem Represents.insert (h : Represents known links tensors) {name : String} {node : TensorNode}
    (hnew : tensors.find name = none) (hfresh : node.Fresh) :
    Represents (Also known (mappingType (name, node))) links (tensors.insert name node) := by
  have hunknown : ∀ type, ¬ known name type := by
    intro type hknown
    obtain ⟨node', hfind⟩ := h.find_of_known hknown
    rw [hnew] at hfind
    cases hfind
  refine ⟨fun name' type => ?_, fun name' node' hfind name'' => ?_,
    fun name' node' hfind name'' => ?_, fun name' name'' hlinks => ?_, fun name' node' hfind => ?_⟩
  · rw [Also, mappingType, ← h.known_iff name' type]
    simp only [find_insert_apply]
    split
    · next heq =>
      subst heq
      simp [hnew]
    · next hne => simp [Ne.symm hne]
  all_goals try rw [find_insert_apply] at hfind
  · split at hfind
    · next heq =>
      rw [← Option.some.inj hfind, hfresh.2.1]
      refine iff_of_false List.not_mem_nil fun hlinks => ?_
      obtain ⟨-, type, hknown⟩ := h.linked _ _ hlinks
      exact hunknown type (heq ▸ hknown)
    · exact h.prev name' node' hfind name''
  · split at hfind
    · next heq =>
      rw [← Option.some.inj hfind, hfresh.2.2]
      refine iff_of_false List.not_mem_nil fun hlinks => ?_
      obtain ⟨⟨type, hknown⟩, -⟩ := h.linked _ _ hlinks
      exact hunknown type (heq ▸ hknown)
    · exact h.next name' node' hfind name''
  · obtain ⟨⟨type, hknown⟩, type', hknown'⟩ := h.linked _ _ hlinks
    exact ⟨⟨type, .inl hknown⟩, type', .inl hknown'⟩
  · split at hfind
    · rw [← Option.some.inj hfind]
      exact hfresh.1
    · exact h.unready name' node' hfind

/-- Mapping a tensor decides whether it is used with the type that it has. -/
theorem decides_mapTensor (h : Represents known links tensors) (ensemble : String)
    {mapping : String × TensorNode} (hfresh : mapping.2.Fresh) :
    Decides Returned (Functional (Also known (mappingType mapping)))
      (Represents (Also known (mappingType mapping)) links)
      (mapTensor ensemble tensors mapping) := by
  obtain ⟨name, modelTensor⟩ := mapping
  unfold mapTensor
  dsimp only
  split
  · next node hfind =>
    have hknown : known name node.tensorType := (h.known_iff name _).mp ⟨node, hfind, rfl⟩
    have hsame : node.tensorType = modelTensor.tensorType →
        Also known (mappingType (name, modelTensor)) = known := by
      intro heq
      refine also_eq_left ?_
      rintro name' type ⟨rfl, rfl⟩
      exact heq ▸ hknown
    have hconsistent : Functional (Also known (mappingType (name, modelTensor))) ↔
        node.tensorType = modelTensor.tensorType := by
      constructor
      · exact fun hfun => hfun name _ _ (.inl hknown) (.inr ⟨rfl, rfl⟩)
      · intro heq
        rw [hsame heq]
        exact h.functional
    rw [hconsistent, ← isOk_validateTensorConsistency node modelTensor
      ("in ensemble " ++ ensemble ++ ", ensemble tensor " ++ name ++ ": ")]
    refine ((decides_returnIfError _).bind fun _ hok _ => decides_pure ?_).congr
      (iff_of_eq (and_true _))
    rw [hsame ((isOk_validateTensorConsistency _ _ _).mp hok)]
    exact h
  · next hnone => exact .ok (h.insert hnone hfresh).functional (h.insert hnone hfresh)

/-- The mappings of one tensor of a model, or to one tensor of the ensemble. -/
theorem decides_mapTensors (h : Represents known links tensors) (ensemble : String)
    (mapped : List (String × TensorNode)) (hfresh : ∀ mapping ∈ mapped, mapping.2.Fresh) :
    Decides Returned (Functional (Also known (typesIn mappingType mapped)))
      (Represents (Also known (typesIn mappingType mapped)) links)
      (mapped.foldlM (mapTensor ensemble) tensors) := by
  refine (decides_mapLoop (c := fun _ => True) mapped h
    fun known tensors mapping hmem hrep => ?_).congr (and_iff_left fun _ _ => trivial)
  exact (decides_mapTensor hrep ensemble (hfresh mapping hmem)).congr (iff_of_eq (and_true _)).symm

/-! ## The inputs of a step -/

/-- The type that an input of the model gives to the tensor that is mapped to it. -/
def inputType (step : EnsembleStep) (io : ModelInput) : TensorTypes :=
  fun name type => step.inputMap.find io.name = some name ∧ (io.dataType, io.dims) = type

/-- The keys of the input map are inputs of the model, and every input is mapped. -/
structure InputsMapped (step : EnsembleStep) (modelConfig : ModelConfig) : Prop where
  keys : ∀ key name, step.inputMap.find key = some name → key ∈ modelConfig.inputNames
  mapped : ∀ io ∈ modelConfig.input, ∃ name, step.inputMap.find io.name = some name

/-- The mappings of an input of the model. -/
theorem decides_mapModelInput (order : IterationOrder String) (h : Represents known links tensors)
    (ensemble : String) (step : EnsembleStep) (modelConfig : ModelConfig) (io : ModelInput) :
    Decides Returned
      (Functional (Also known (inputType step io)) ∧
        ∃ name, step.inputMap.find io.name = some name)
      (Represents (Also known (inputType step io)) links)
      (mapModelInput order ensemble step modelConfig tensors io) := by
  unfold mapModelInput
  dsimp only
  rw [order.filter_key step.inputMap io.name]
  cases hfind : step.inputMap.find io.name with
  | none =>
    refine decides_invalidArg ?_
    rintro ⟨-, name, hname⟩
    cases hname
  | some name =>
    have hmap := decides_mapTensors h ensemble
      [(name, { modelName := step.modelName, type := io.dataType, dims := io.dims })]
      (by simp [TensorNode.Fresh])
    have htypes : typesIn mappingType
        [(name, { modelName := step.modelName, type := io.dataType, dims := io.dims })] =
          inputType step io := by
      funext name' type
      simp [typesIn, mappingType, inputType, TensorNode.tensorType, hfind]
    rw [htypes] at hmap
    refine (hmap.bind fun tensors' _ hrep => decides_pure hrep).congr ?_
    exact and_congr_right fun _ => iff_of_true trivial ⟨name, rfl⟩

theorem decides_mapInputs (order : IterationOrder String) (h : Represents known links tensors)
    (ensemble : String) (step : EnsembleStep) (modelConfig : ModelConfig) :
    Decides Returned
      (InputsMapped step modelConfig ∧
        Functional (Also known (typesIn (inputType step) modelConfig.input)))
      (Represents (Also known (typesIn (inputType step) modelConfig.input)) links)
      (mapInputs order ensemble step modelConfig tensors) := by
  have hkeys : Decides Returned (∀ e ∈ order.entries step.inputMap, e.1 ∈ modelConfig.inputNames)
      (fun _ => True) ((order.entries step.inputMap).foldlM (fun _ inputMap =>
        checkInputMap ensemble step modelConfig inputMap) ()) :=
    .foldlM_forall (I := fun _ _ => True) (fun _ e _ _ _ => decides_ite_invalidArg fun _ => trivial)
      trivial
  have hinputs := decides_mapLoop modelConfig.input h fun known tensors io _ hrep =>
    decides_mapModelInput order hrep ensemble step modelConfig io
  refine (hkeys.bind fun _ _ _ => hinputs).congr ?_
  constructor
  · rintro ⟨hkeys, hfun, hmapped⟩
    exact ⟨⟨fun key name hfind => hkeys ⟨key, name⟩ (order.mem_entries.mpr hfind), hmapped⟩, hfun⟩
  · rintro ⟨⟨hkeys, hmapped⟩, hfun⟩
    exact ⟨fun e he => hkeys e.1 e.2 (order.mem_entries.mp he), hfun, hmapped⟩

/-! ## The outputs of a step -/

/-- The type that an output of the model gives to the tensor that it is mapped to. -/
def outputType (step : EnsembleStep) (io : ModelOutput) : TensorTypes :=
  fun name type => step.outputMap.find io.name = some name ∧ (io.dataType, io.dims) = type

/-- Every key of the output map is one output of the model. -/
def OutputsMapped (step : EnsembleStep) (modelConfig : ModelConfig) : Prop :=
  ∀ key name, step.outputMap.find key = some name → modelConfig.outputNames.count key = 1

/-- The types that an entry of the output map brings. -/
def entryType (modelConfig : ModelConfig) (outputMap : Σ _ : String, String) : TensorTypes :=
  fun name type => outputMap.2 = name ∧
    ∃ io ∈ modelConfig.output, io.name = outputMap.1 ∧ (io.dataType, io.dims) = type

/-- The mappings of an entry of the output map. -/
theorem decides_mapModelOutput (h : Represents known links tensors) (ensemble : String)
    (step : EnsembleStep) (modelConfig : ModelConfig) (outputMap : Σ _ : String, String) :
    Decides Returned
      (Functional (Also known (entryType modelConfig outputMap)) ∧
        modelConfig.outputNames.count outputMap.1 ≤ 1)
      (Represents (Also known (entryType modelConfig outputMap)) links)
      (mapModelOutput ensemble step modelConfig tensors outputMap) := by
  unfold mapModelOutput
  dsimp only
  generalize hmapped : ((modelConfig.output.filter fun modelOutput =>
    modelOutput.name = outputMap.1).map fun modelOutput =>
      (outputMap.2, ({ modelName := step.modelName, type := modelOutput.dataType,
                       dims := modelOutput.dims } : TensorNode))) = mapped
  have hlen : mapped.length = modelConfig.outputNames.count outputMap.1 := by
    rw [← hmapped, List.length_map, ← List.countP_eq_length_filter, ModelConfig.outputNames,
      List.count, List.countP_map]
    rfl
  have hfresh : ∀ mapping ∈ mapped, mapping.2.Fresh := by
    rw [← hmapped]
    intro mapping hmem
    obtain ⟨io, -, rfl⟩ := List.mem_map.mp hmem
    exact ⟨rfl, rfl, rfl⟩
  have htypes : typesIn mappingType mapped = entryType modelConfig outputMap := by
    funext name type
    rw [← hmapped]
    simp only [typesIn, mappingType, entryType, TensorNode.tensorType, List.mem_map,
      List.mem_filter, decide_eq_true_eq, eq_iff_iff]
    constructor
    · rintro ⟨_, ⟨io, ⟨hio, hname⟩, rfl⟩, hout, htype⟩
      exact ⟨hout, io, hio, hname, htype⟩
    · rintro ⟨hout, io, hio, hname, htype⟩
      exact ⟨_, ⟨io, ⟨hio, hname⟩, rfl⟩, hout, htype⟩
  have hmap := decides_mapTensors h ensemble mapped hfresh
  rw [htypes] at hmap
  rw [← hlen]
  refine hmap.bind fun tensors' _ hrep => ?_
  split
  · next hmany => exact decides_invalidArg (Nat.not_le.mpr hmany)
  · next hone => exact .ok (Nat.le_of_not_lt hone) hrep

theorem decides_mapOutputs (order : IterationOrder String) (h : Represents known links tensors)
    (ensemble : String) (step : EnsembleStep) (modelConfig : ModelConfig) :
    Decides Returned
      (OutputsMapped step modelConfig ∧
        Functional (Also known (typesIn (outputType step) modelConfig.output)))
      (Represents (Also known (typesIn (outputType step) modelConfig.output)) links)
      (mapOutputs order ensemble step modelConfig tensors) := by
  have hkeys : Decides Returned
      (∀ e ∈ order.entries step.outputMap, e.1 ∈ modelConfig.outputNames)
      (fun _ => True) ((order.entries step.outputMap).foldlM (fun _ outputMap =>
        checkOutputMap ensemble step modelConfig outputMap) ()) :=
    .foldlM_forall (I := fun _ _ => True) (fun _ e _ _ _ => decides_ite_invalidArg fun _ => trivial)
      trivial
  have houtputs := decides_mapLoop (order.entries step.outputMap) h
    fun known tensors outputMap _ hrep =>
      decides_mapModelOutput hrep ensemble step modelConfig outputMap
  have htypes : typesIn (entryType modelConfig) (order.entries step.outputMap) =
      typesIn (outputType step) modelConfig.output := by
    funext name type
    simp only [typesIn, entryType, outputType, eq_iff_iff]
    constructor
    · rintro ⟨e, he, rfl, io, hio, hname, htype⟩
      exact ⟨io, hio, hname ▸ order.mem_entries.mp he, htype⟩
    · rintro ⟨io, hio, hfind, htype⟩
      exact ⟨⟨io.name, name⟩, order.mem_entries.mpr hfind, rfl, io, hio, rfl, htype⟩
  rw [htypes] at houtputs
  refine (hkeys.bind fun _ _ _ => houtputs).congr ?_
  constructor
  · rintro ⟨hkeys, hfun, hcount⟩
    refine ⟨fun key name hfind => Nat.le_antisymm ?_ ?_, hfun⟩
    · exact hcount ⟨key, name⟩ (order.mem_entries.mpr hfind)
    · exact List.count_pos_iff.mpr (hkeys ⟨key, name⟩ (order.mem_entries.mpr hfind))
  · rintro ⟨hmapped, hfun⟩
    have hone : ∀ e ∈ order.entries step.outputMap, modelConfig.outputNames.count e.1 = 1 :=
      fun e he => hmapped e.1 e.2 (order.mem_entries.mp he)
    refine ⟨fun e he => List.count_pos_iff.mp ?_, hfun, fun e he => Nat.le_of_eq (hone e he)⟩
    rw [hone e he]
    exact Nat.one_pos

/-! ## The links of a step -/

/-- The node `name` with the link from `input` to `output`. -/
def TensorNode.link (input output name : String) (node : TensorNode) : TensorNode :=
  { node with
    prevNodes := if name = output then node.prevNodes ++ [input] else node.prevNodes
    nextNodes := if name = input then node.nextNodes ++ [output] else node.nextNodes }

theorem linkTensors_spec {output : String} {inputMap : Σ _ : String, String}
    {node node' : TensorNode}
    (houtput : tensors.find output = some node) (hinput : tensors.find inputMap.2 = some node') :
    ∃ tensors' : TensorNodes, linkTensors output tensors inputMap = .ok tensors' ∧
      ∀ name, tensors'.find name =
        (tensors.find name).map (TensorNode.link inputMap.2 output name) := by
  obtain ⟨key, input⟩ := inputMap
  dsimp only at hinput ⊢
  let linked : TensorNodes :=
    tensors.insert output { node with prevNodes := node.prevNodes ++ [input] }
  have hfirst : ∀ name, linked.find name = (tensors.find name).map fun n =>
      { n with prevNodes := if name = output then n.prevNodes ++ [input] else n.prevNodes } := by
    intro name
    rw [find_insert_apply]
    split
    · next heq => rw [heq, houtput, Option.map_some]
    · exact Option.map_id'.symm
  let linkedInput : TensorNode :=
    { node' with
      prevNodes := if input = output then node'.prevNodes ++ [input] else node'.prevNodes }
  have hlinked : linked.find input = some linkedInput := by
    rw [hfirst, hinput, Option.map_some]
  refine ⟨linked.insert input { linkedInput with nextNodes := linkedInput.nextNodes ++ [output] },
    ?_, fun name => ?_⟩
  · unfold linkTensors
    rw [houtput]
    change (secondOf (linked.find input) >>= _) = _
    rw [hlinked]
    rfl
  · rw [find_insert_apply]
    split
    · next heq =>
      rw [heq, hinput, Option.map_some, TensorNode.link, if_pos rfl]
    · next hne =>
      rw [hfirst name]
      refine congrArg (fun f => (tensors.find name).map f) (funext fun n => ?_)
      rw [TensorNode.link, if_neg hne]

def AlsoLinks (links new : String → String → Prop) : String → String → Prop :=
  fun name name' => links name name' ∨ new name name'

theorem Represents.congr_links {links' : String → String → Prop}
    (h : Represents known links tensors)
    (heq : ∀ name name', links name name' ↔ links' name name') :
    Represents known links' tensors := by
  have : links' = links := by
    funext name name'
    exact propext (heq name name').symm
  exact this ▸ h

/-- A link between tensors that are known. -/
theorem decides_linkTensors (h : Represents known links tensors) {output : String}
    {inputMap : Σ _ : String, String} {type type' : TensorType} (houtput : known output type)
    (hinput : known inputMap.2 type') :
    Decides Returned True
      (Represents known (AlsoLinks links fun name name' => name = inputMap.2 ∧ name' = output))
      (linkTensors output tensors inputMap) := by
  obtain ⟨node, hnode⟩ := h.find_of_known houtput
  obtain ⟨node', hnode'⟩ := h.find_of_known hinput
  obtain ⟨tensors', hok, hfind⟩ := linkTensors_spec hnode hnode'
  rw [hok]
  have hold : ∀ {name : String} {n' : TensorNode}, tensors'.find name = some n' →
      ∃ n, tensors.find name = some n ∧ n' = n.link inputMap.2 output name := by
    intro name n' hn'
    rw [hfind name] at hn'
    obtain ⟨n, hn, heq⟩ := Option.map_eq_some_iff.mp hn'
    exact ⟨n, hn, heq.symm⟩
  refine .ok trivial ⟨fun name type => ?_, fun name n' hn' name' => ?_,
    fun name n' hn' name' => ?_, fun name name' hlinks => ?_, fun name n' hn' => ?_⟩
  · rw [← h.known_iff, hfind name]
    constructor
    · rintro ⟨n', hn', htype⟩
      obtain ⟨n, hn, rfl⟩ := Option.map_eq_some_iff.mp hn'
      exact ⟨n, hn, htype⟩
    · rintro ⟨n, hn, htype⟩
      exact ⟨n.link inputMap.2 output name, by rw [hn, Option.map_some], htype⟩
  · obtain ⟨n, hn, rfl⟩ := hold hn'
    rw [AlsoLinks, ← h.prev name n hn, TensorNode.link]
    dsimp only
    split
    · next heq => rw [List.mem_append, List.mem_singleton, and_iff_left heq]
    · next hne => exact (or_iff_left fun hand => hne hand.2).symm
  · obtain ⟨n, hn, rfl⟩ := hold hn'
    rw [AlsoLinks, ← h.next name n hn, TensorNode.link]
    dsimp only
    split
    · next heq => rw [List.mem_append, List.mem_singleton, and_iff_right heq]
    · next hne => exact (or_iff_left fun hand => hne hand.1).symm
  · rcases hlinks with hlinks | ⟨rfl, rfl⟩
    · exact h.linked name name' hlinks
    · exact ⟨⟨type', hinput⟩, type, houtput⟩
  · obtain ⟨n, hn, rfl⟩ := hold hn'
    exact h.unready name n hn

/-- The links of a step lead from every tensor that it reads to every tensor that it writes. -/
def stepLinks (step : EnsembleStep) : String → String → Prop :=
  fun name name' => name ∈ step.reads ∧ name' ∈ step.writes

theorem mem_reads (order : IterationOrder String) (step : EnsembleStep) (name : String) :
    name ∈ step.reads ↔ ∃ e ∈ order.entries step.inputMap, e.2 = name :=
  List.mem_map.trans (exists_congr fun _ => and_congr_left fun _ => (order.perm _).mem_iff.symm)

theorem mem_writes (order : IterationOrder String) (step : EnsembleStep) (name : String) :
    name ∈ step.writes ↔ ∃ e ∈ order.entries step.outputMap, e.2 = name :=
  List.mem_map.trans (exists_congr fun _ => and_congr_left fun _ => (order.perm _).mem_iff.symm)

/-- The links from all tensors that a step reads to one that it writes. -/
theorem decides_linkOutput (h : Represents known links tensors) {output : String}
    {type : TensorType} (houtput : known output type) {inputMap : List (Σ _ : String, String)}
    (hinputs : ∀ e ∈ inputMap, ∃ type, known e.2 type) :
    Decides Returned True
      (Represents known (AlsoLinks links fun name name' =>
        (∃ e ∈ inputMap, e.2 = name) ∧ name' = output))
      (inputMap.foldlM (linkTensors output) tensors) := by
  refine (Decides.foldlM_forall (c := fun _ => True)
    (I := fun done : List (Σ _ : String, String) => Represents known (AlsoLinks links
      fun name name' => (∃ e ∈ done, e.2 = name) ∧ name' = output))
    (fun done e tensors he hrep => ?_) (h.congr_links fun name name' => ?_)).congr
    (iff_of_true (fun _ _ => trivial) trivial)
  · obtain ⟨type', hinput⟩ := hinputs e he
    refine (decides_linkTensors hrep houtput hinput).imp Iff.rfl fun tensors' _ hrep' => ?_
    refine hrep'.congr_links fun name name' => ?_
    simp only [AlsoLinks, List.mem_append, List.mem_singleton, or_and_right, exists_or,
      exists_eq_left, or_assoc, @eq_comm _ name e.2]
  · refine (or_iff_left ?_).symm
    rintro ⟨⟨e, he, -⟩, -⟩
    cases he

theorem decides_linkStep (order : IterationOrder String) (h : Represents known links tensors)
    (step : EnsembleStep) (hreads : ∀ name ∈ step.reads, ∃ type, known name type)
    (hwrites : ∀ name ∈ step.writes, ∃ type, known name type) :
    Decides Returned True (Represents known (AlsoLinks links (stepLinks step)))
      (linkStep order step tensors) := by
  unfold linkStep
  refine (Decides.foldlM_forall (c := fun _ => True)
    (I := fun done : List (Σ _ : String, String) => Represents known (AlsoLinks links
      fun name name' => name ∈ step.reads ∧ ∃ e ∈ done, e.2 = name'))
    (fun done e tensors he hrep => ?_) (h.congr_links fun name name' => ?_)).imp
    (iff_of_true (fun _ _ => trivial) trivial) fun tensors' _ hrep => ?_
  · obtain ⟨type, houtput⟩ := hwrites e.2 ((mem_writes order step e.2).mpr ⟨e, he, rfl⟩)
    obtain ⟨node, hnode⟩ := hrep.find_of_known houtput
    refine (decides_secondOf hnode).bind_of trivial fun _ _ => ?_
    refine (decides_linkOutput hrep houtput fun e' he' => ?_).imp Iff.rfl fun tensors' _ hrep' => ?_
    · exact hreads e'.2 ((mem_reads order step e'.2).mpr ⟨e', he', rfl⟩)
    · refine hrep'.congr_links fun name name' => ?_
      rw [AlsoLinks, AlsoLinks, AlsoLinks, ← mem_reads order step name]
      simp only [List.mem_append, List.mem_singleton, or_and_right, exists_or, exists_eq_left,
        or_assoc, and_or_left, @eq_comm _ name' e.2]
  · refine (or_iff_left ?_).symm
    rintro ⟨-, e, he, -⟩
    cases he
  · refine hrep.congr_links fun name name' => ?_
    rw [AlsoLinks, AlsoLinks, stepLinks, mem_writes order]

/-! ## A step -/

/-- The types that a step brings. -/
def stepTypes (step : EnsembleStep) (modelConfig : ModelConfig) : TensorTypes :=
  Also (typesIn (inputType step) modelConfig.input) (typesIn (outputType step) modelConfig.output)

theorem InputsMapped.reads {step : EnsembleStep} {modelConfig : ModelConfig}
    (h : InputsMapped step modelConfig) {name : String} (hname : name ∈ step.reads) :
    ∃ type, typesIn (inputType step) modelConfig.input name type := by
  obtain ⟨⟨key, name'⟩, hmem, rfl⟩ := List.mem_map.mp hname
  have hfind := (mem_entries_iff _ _ _).mp hmem
  obtain ⟨io, hio, rfl⟩ := List.mem_map.mp (h.keys key name' hfind)
  exact ⟨_, io, hio, hfind, rfl⟩

theorem OutputsMapped.writes {step : EnsembleStep} {modelConfig : ModelConfig}
    (h : OutputsMapped step modelConfig) {name : String} (hname : name ∈ step.writes) :
    ∃ type, typesIn (outputType step) modelConfig.output name type := by
  obtain ⟨⟨key, name'⟩, hmem, rfl⟩ := List.mem_map.mp hname
  have hfind := (mem_entries_iff _ _ _).mp hmem
  have hkey : key ∈ modelConfig.outputNames := by
    refine List.count_pos_iff.mp ?_
    rw [h key name' hfind]
    exact Nat.one_pos
  obtain ⟨io, hio, rfl⟩ := List.mem_map.mp hkey
  exact ⟨_, io, hio, hfind, rfl⟩

/-- What a step does to the tensors. -/
theorem decides_mapStep {α : Type} (order : IterationOrder String)
    (h : Represents known links tensors) (ensemble : String) (step : EnsembleStep)
    (modelConfig : ModelConfig) (a : α) :
    Decides Returned
      ((InputsMapped step modelConfig ∧ OutputsMapped step modelConfig) ∧
        Functional (Also known (stepTypes step modelConfig)))
      (fun r => Represents (Also known (stepTypes step modelConfig))
        (AlsoLinks links (stepLinks step)) r.1 ∧ r.2 = a)
      (do
        let tensors ← mapInputs order ensemble step modelConfig tensors
        let tensors ← mapOutputs order ensemble step modelConfig tensors
        let tensors ← linkStep order step tensors
        pure (tensors, a)) := by
  have hknown : Also (Also known (typesIn (inputType step) modelConfig.input))
      (typesIn (outputType step) modelConfig.output) =
        Also known (stepTypes step modelConfig) := by
    funext name type
    exact propext or_assoc
  refine ((decides_mapInputs order h ensemble step modelConfig).bind fun tensors₁ hinputs h₁ =>
    ((decides_mapOutputs order h₁ ensemble step modelConfig).bind fun tensors₂ houtputs h₂ => ?_
      ).congr (iff_of_eq (and_true _))).congr ?_
  · rw [hknown] at h₂
    refine (decides_linkStep order h₂ step (fun name hname => ?_) fun name hname => ?_).bind_of
      trivial fun tensors₃ h₃ => decides_pure ⟨h₃, rfl⟩
    · obtain ⟨type, htype⟩ := hinputs.1.reads hname
      exact ⟨type, .inr (.inl htype)⟩
    · obtain ⟨type, htype⟩ := houtputs.1.writes hname
      exact ⟨type, .inr (.inr htype)⟩
  · rw [hknown]
    constructor
    · rintro ⟨⟨hinputs, -⟩, houtputs, hfun⟩
      exact ⟨⟨hinputs, houtputs⟩, hfun⟩
    · rintro ⟨⟨hinputs, houtputs⟩, hfun⟩
      rw [← hknown] at hfun
      exact ⟨⟨hinputs, functional_of_also hfun⟩, houtputs, hknown ▸ hfun⟩

/-! ## The tensors that an ensemble declares -/

/-- The nodes of the tensors that are declared, before the first step. -/
structure Declares (names : List String) (tensors : TensorNodes) : Prop where
  fresh : ∀ name node, tensors.find name = some node → node.Fresh
  found : ∀ name ∈ names, ∃ node, tensors.find name = some node

theorem Declares.emplace {names : List String} (h : Declares names tensors) (name : String)
    {node : TensorNode} (hfresh : node.Fresh) :
    Declares (names ++ [name]) (tensors.emplace name node) := by
  unfold TensorNodes.emplace
  split
  · next node' hfind =>
    refine ⟨h.fresh, fun name' hname' => ?_⟩
    rcases List.mem_append.mp hname' with hname' | hname'
    · exact h.found name' hname'
    · exact ⟨node', List.mem_singleton.mp hname' ▸ hfind⟩
  · constructor
    · intro name' node' hfind
      rw [find_insert_apply] at hfind
      split at hfind
      · exact Option.some.inj hfind ▸ hfresh
      · exact h.fresh name' node' hfind
    · intro name' hname'
      rw [find_insert_apply]
      split
      · exact ⟨node, rfl⟩
      · next hne =>
        rcases List.mem_append.mp hname' with hname' | hname'
        · exact h.found name' hname'
        · exact absurd (List.mem_singleton.mp hname') hne

theorem Declares.foldl {β : Type} {names : List String} (h : Declares names tensors)
    (nameOf : β → String) (nodeOf : β → TensorNode) (hfresh : ∀ x, (nodeOf x).Fresh) (xs : List β) :
    Declares (names ++ xs.map nameOf)
      (xs.foldl (fun tensors x => TensorNodes.emplace tensors (nameOf x) (nodeOf x)) tensors) := by
  induction xs generalizing names tensors with
  | nil =>
    rw [List.map_nil, List.append_nil]
    exact h
  | cons x xs ih =>
    rw [List.map_cons, List.append_cons]
    exact ih (h.emplace (nameOf x) (hfresh x))

theorem declares_ensembleTensors (ensemble : String) (config : ModelConfig) :
    Declares (config.inputNames ++ config.outputNames) (ensembleTensors ensemble config) := by
  have hempty : Declares [] (∅ : TensorNodes) := by
    refine ⟨fun name node hfind => ?_, fun name hname => by cases hname⟩
    rw [find_empty] at hfind
    cases hfind
  have hinputs := hempty.foldl ModelInput.name
    (fun io => { modelName := ensemble, type := io.dataType, dims := io.dims })
    (fun _ => ⟨rfl, rfl, rfl⟩) config.input
  exact hinputs.foldl ModelOutput.name
    (fun io => { modelName := ensemble, type := io.dataType, dims := io.dims })
    (fun _ => ⟨rfl, rfl, rfl⟩) config.output

/-- The types with which an ensemble declares its inputs and outputs. -/
def declaredTypes (ensemble : String) (config : ModelConfig) : TensorTypes :=
  fun name type => ∃ node, (ensembleTensors ensemble config).find name = some node ∧
    node.tensorType = type

theorem represents_ensembleTensors (ensemble : String) (config : ModelConfig) :
    Represents (declaredTypes ensemble config) (fun _ _ => False)
      (ensembleTensors ensemble config) := by
  have hfresh := (declares_ensembleTensors ensemble config).fresh
  refine ⟨fun _ _ => Iff.rfl, fun name node hfind name' => ?_, fun name node hfind name' => ?_,
    fun _ _ hlinks => hlinks.elim, fun name node hfind => (hfresh name node hfind).1⟩
  · rw [(hfresh name node hfind).2.1]
    exact iff_of_false List.not_mem_nil id
  · rw [(hfresh name node hfind).2.2]
    exact iff_of_false List.not_mem_nil id

theorem declaredTypes_of_mem {ensemble : String} {config : ModelConfig} {name : String}
    (h : name ∈ config.inputNames ++ config.outputNames) :
    ∃ type, declaredTypes ensemble config name type := by
  obtain ⟨node, hfind⟩ := (declares_ensembleTensors ensemble config).found name h
  exact ⟨node.tensorType, node, hfind, rfl⟩

end FinBert.Serving
