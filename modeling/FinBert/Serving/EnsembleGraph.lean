import FinBert.Serving.ModelConfig
import Mathlib.Data.List.Nodup

/-!
# Validation of an ensemble's graph

`BuildEnsembleGraph` and `ValidateEnsembleSchedulingConfig` of `model_config_utils.cc`. The
nodes of the graph are the ensemble's tensors, keyed by their names; the pointers from
node to node are names.

Results:
1. `buildEnsembleGraph_spec`: what the graph says about the steps.
2. `accepted_of_validate`: what the steps of an accepted ensemble write and read.
-/

namespace FinBert.Serving

/-- The ensemble tensors that a step reads. -/
def EnsembleStep.reads (step : EnsembleStep) : List String := step.inputMap.entries.map (·.2)

/-- The ensemble tensors that a step writes. -/
def EnsembleStep.writes (step : EnsembleStep) : List String := step.outputMap.entries.map (·.2)

def ModelConfig.inputNames (config : ModelConfig) : List String := config.input.map (·.name)

def ModelConfig.outputNames (config : ModelConfig) : List String := config.output.map (·.name)

/-- The ensemble tensors that some step writes. -/
def ModelConfig.writes (config : ModelConfig) : List String := config.step.flatMap (·.writes)

/-! ## `BuildEnsembleGraph` -/

/-- `EnsembleTensor`. -/
structure EnsembleTensor where
  ready : Bool := false
  isOutput : Bool
  prevNodes : List String := []
  nextNodes : List String := []
deriving DecidableEq

abbrev EnsembleGraph := UnorderedMap String EnsembleTensor

/-- A change of one node. -/
def EnsembleGraph.modify (graph : EnsembleGraph) (name : String)
    (f : EnsembleTensor → EnsembleTensor) : EnsembleGraph :=
  match graph.lookup name with
  | some tensor => graph.insert name (f tensor)
  | none => graph

/-- The loop over the output map of a step. -/
def addOutputs (config : ModelConfig) :
    List (Σ _ : String, String) → EnsembleGraph → Except Status EnsembleGraph
  | [], graph => .ok graph
  | ⟨_, name⟩ :: outputMap, graph =>
    match graph.lookup name with
    | some tensor =>
      if tensor.isOutput then
        .error { code := .invalidArg,
                 message := "ensemble tensor " ++ name ++
                   " can appear in an output map only once for ensemble " ++ config.name }
      else addOutputs config outputMap (graph.insert name { tensor with isOutput := true })
    | none => addOutputs config outputMap (graph.insert name { isOutput := true })

/-- The links between an input of a step and one of its outputs. -/
def link (input : String) (graph : EnsembleGraph) (output : String) : EnsembleGraph :=
  let graph := graph.modify output fun node => { node with prevNodes := node.prevNodes ++ [input] }
  graph.modify input fun node => { node with nextNodes := node.nextNodes ++ [output] }

/-- The node of an input, which exists already when it was mapped before. -/
def addInput (graph : EnsembleGraph) (name : String) : EnsembleGraph :=
  if name ∈ graph then graph else graph.insert name { isOutput := false }

/-- The loop over the input map of a step. -/
def addInputs (config : ModelConfig) (element : EnsembleStep) :
    List (Σ _ : String, String) → List String → EnsembleGraph → Except Status EnsembleGraph
  | [], _, graph => .ok graph
  | ⟨modelInput, name⟩ :: inputMap, modelInputs, graph =>
    if modelInput ∈ modelInputs then
      .error { code := .invalidArg,
               message := "input " ++ modelInput ++ " in model " ++ element.modelName ++
                 " is mapped to multiple ensemble tensors in one step for ensemble " ++
                 config.name }
    else
      addInputs config element inputMap (modelInput :: modelInputs)
        (element.writes.foldl (link name) (addInput graph name))

/-- The body of the loop over the steps. -/
def addStep (config : ModelConfig) (element : EnsembleStep) (graph : EnsembleGraph) :
    Except Status EnsembleGraph :=
  if element.modelName.isEmpty then
    .error { code := .invalidArg,
             message := "must specify 'model_name' in step of ensemble " ++ config.name }
  else if element.inputMap.entries.isEmpty then
    .error { code := .invalidArg,
             message := "must specify one or more 'input_map' in step of ensemble " ++
               config.name }
  else if element.outputMap.entries.isEmpty then
    .error { code := .invalidArg,
             message := "must specify one or more 'output_map' in step of ensemble " ++
               config.name }
  else
    match addOutputs config element.outputMap.entries graph with
    | .ok graph => addInputs config element element.inputMap.entries [] graph
    | .error status => .error status

/-- The loop over the steps. -/
def addSteps (config : ModelConfig) : List EnsembleStep → EnsembleGraph →
    Except Status EnsembleGraph
  | [], graph => .ok graph
  | element :: step, graph =>
    match addStep config element graph with
    | .ok graph => addSteps config step graph
    | .error status => .error status

/-- `BuildEnsembleGraph`. -/
def buildEnsembleGraph (config : ModelConfig) : Except Status EnsembleGraph :=
  addSteps config config.step ∅

/-! ## `ValidateEnsembleSchedulingConfig` -/

def EnsembleGraph.isReady (graph : EnsembleGraph) (name : String) : Bool :=
  ((graph.lookup name).map (·.ready)).getD false

/-- The loop over the ensemble inputs: they are ready. -/
def markInputs (config : ModelConfig) :
    List ModelInput → EnsembleGraph → Except Status EnsembleGraph
  | [], graph => .ok graph
  | input :: inputs, graph =>
    match graph.lookup input.name with
    | none =>
      .error { code := .invalidArg,
               message := "must map ensemble input " ++ input.name ++ " for ensemble " ++
                 config.name }
    | some tensor =>
      markInputs config inputs (graph.insert input.name { tensor with ready := true })

/-- The loop over the next nodes of a ready node, with the nodes that became ready. -/
def markNext (graph : EnsembleGraph) : List String → EnsembleGraph × List String
  | [] => (graph, [])
  | next :: names =>
    match graph.lookup next with
    | none => markNext graph names
    | some node =>
      if node.ready then markNext graph names
      else if node.prevNodes.all graph.isReady then
        let (graph, pushed) := markNext (graph.insert next { node with ready := true }) names
        (graph, next :: pushed)
      else markNext graph names

/-- The loop over the queue of the ready nodes. Every node becomes ready once, so that the
number of the nodes bounds the turns. -/
def checkDataFlow : Nat → List String → EnsembleGraph → EnsembleGraph
  | 0, _, graph => graph
  | _ + 1, [], graph => graph
  | turns + 1, name :: readyQueue, graph =>
    let (graph, pushed) := markNext graph (((graph.lookup name).map (·.nextNodes)).getD [])
    checkDataFlow turns (readyQueue ++ pushed) graph

/-- The test of an ensemble output. -/
def checkOutput (config : ModelConfig) (graph : EnsembleGraph) (output : ModelOutput) : Status :=
  match graph.lookup output.name with
  | none =>
    { code := .invalidArg,
      message := "must map ensemble output " ++ output.name ++ " for ensemble " ++ config.name }
  | some tensor =>
    if tensor.ready then .ok
    else
      { code := .invalidArg,
        message := "no data will be written to ensemble output " ++ output.name ++
          " for ensemble " ++ config.name }

/-- The test for a redundant tensor. -/
def checkTensor (config : ModelConfig) (tensor : Σ _ : String, EnsembleTensor) : Status :=
  if tensor.1 ∈ config.outputNames then .ok
  else if !tensor.2.ready then
    { code := .invalidArg,
      message := "ensemble tensor " ++ tensor.1 ++
        " is redundant as no data will be written to it for ensemble " ++ config.name }
  else if tensor.2.nextNodes.isEmpty then
    { code := .invalidArg,
      message := "ensemble tensor " ++ tensor.1 ++
        " is redundant as it will not be used in any models for ensemble " ++ config.name }
  else .ok

/-- The part of `ValidateEnsembleSchedulingConfig` behind the checks of single fields. -/
def validateEnsembleGraph (config : ModelConfig) : Status :=
  match buildEnsembleGraph config with
  | .error status => status
  | .ok graph =>
    match markInputs config config.input graph with
    | .error status => status
    | .ok graph =>
      let tensors := checkDataFlow (config.input.length + graph.entries.length)
        config.inputNames graph
      (Status.forEach (checkOutput config tensors) config.output).andThen
        (Status.forEach (checkTensor config) tensors.entries)

/-- `ValidateEnsembleSchedulingConfig`. -/
def validateEnsembleSchedulingConfig (config : ModelConfig) : Status :=
  if config.platform ≠ kEnsemblePlatform then
    { code := .invalidArg,
      message := "ensemble scheduling can not be set for model " ++ config.name ++
        " whose platform is not " ++ kEnsemblePlatform }
  else if config.instanceGroup.length ≠ 0 then
    { code := .invalidArg,
      message := "instance group should not be specified for ensemble " ++ config.name }
  else if config.hasOptimization then
    { code := .invalidArg,
      message := "optimization should not be specified for ensemble " ++ config.name }
  else if config.step.length = 0 then
    { code := .invalidArg,
      message := "must specify 'step' for ensemble " ++ config.name }
  else validateEnsembleGraph config

/-! ## What the graph says about the steps -/

/-- The graph of steps that read `reads` and write `writes`: it has a node for each of these
tensors, knows which ones are written, no tensor is written twice, and links lead to
written tensors. -/
structure GraphSpec (reads writes : List String) (graph : EnsembleGraph) : Prop where
  read : ∀ name ∈ reads, name ∈ graph
  written : ∀ name ∈ writes, name ∈ graph
  output : ∀ name tensor, graph.lookup name = some tensor → (tensor.isOutput ↔ name ∈ writes)
  next : ∀ name tensor, graph.lookup name = some tensor → ∀ name' ∈ tensor.nextNodes, name' ∈ writes
  unready : ∀ name tensor, graph.lookup name = some tensor → tensor.ready = false
  nodup : writes.Nodup

section
variable {config : ModelConfig} {reads writes : List String} {graph graph' : EnsembleGraph}

theorem graphSpec_empty : GraphSpec [] [] ∅ where
  read := fun _ hname => absurd hname List.not_mem_nil
  written := fun _ hname => absurd hname List.not_mem_nil
  output := fun name tensor h => by
    rw [AList.lookup_empty] at h
    cases h
  next := fun name tensor h => by
    rw [AList.lookup_empty] at h
    cases h
  unready := fun name tensor h => by
    rw [AList.lookup_empty] at h
    cases h
  nodup := List.nodup_nil

/-- What a lookup finds after an insertion. -/
theorem lookup_insert_cases {name name' : String} {tensor tensor' : EnsembleTensor}
    (h : AList.lookup name' (graph.insert name tensor) = some tensor') :
    (name' = name ∧ tensor' = tensor) ∨ (name' ≠ name ∧ graph.lookup name' = some tensor') := by
  rcases eq_or_ne name' name with rfl | hne
  · rw [AList.lookup_insert] at h
    exact .inl ⟨rfl, (Option.some.inj h).symm⟩
  · rw [AList.lookup_insert_ne hne] at h
    exact .inr ⟨hne, h⟩

theorem mem_of_lookup {name : String} {tensor : EnsembleTensor}
    (h : graph.lookup name = some tensor) : name ∈ graph :=
  AList.lookup_isSome.mp (by rw [h]; rfl)

/-- A tensor that is written for the first time. -/
theorem GraphSpec.write (h : GraphSpec reads writes graph) (name : String) (tensor : EnsembleTensor)
    (hname : name ∉ writes) (hnext : ∀ name' ∈ tensor.nextNodes, name' ∈ writes)
    (hready : tensor.ready = false) (houtput : tensor.isOutput) :
    GraphSpec reads (writes ++ [name]) (graph.insert name tensor) where
  read := fun name' hname' => (AList.mem_insert _).mpr (.inr (h.read name' hname'))
  written := fun name' hname' => by
    rcases List.mem_append.mp hname' with hname' | hname'
    · exact (AList.mem_insert _).mpr (.inr (h.written name' hname'))
    · exact (AList.mem_insert _).mpr (.inl (List.mem_singleton.mp hname'))
  output := fun name' tensor' hlookup => by
    rcases lookup_insert_cases hlookup with ⟨rfl, rfl⟩ | ⟨hne, hlookup⟩
    · exact iff_of_true houtput List.mem_concat_self
    · rw [h.output name' tensor' hlookup, List.mem_append, List.mem_singleton, or_iff_left hne]
  next := fun name' tensor' hlookup name'' hmem => by
    rcases lookup_insert_cases hlookup with ⟨rfl, rfl⟩ | ⟨-, hlookup⟩
    · exact List.mem_append_left _ (hnext name'' hmem)
    · exact List.mem_append_left _ (h.next name' tensor' hlookup name'' hmem)
  unready := fun name' tensor' hlookup => by
    rcases lookup_insert_cases hlookup with ⟨rfl, rfl⟩ | ⟨-, hlookup⟩
    · exact hready
    · exact h.unready name' tensor' hlookup
  nodup := List.nodup_append.mpr ⟨h.nodup, List.nodup_singleton name, fun name' hname' name'' h'' =>
    fun heq => hname (by rwa [← List.mem_singleton.mp h'', ← heq])⟩

theorem GraphSpec.addOutputs (h : GraphSpec reads writes graph)
    {outputMap : List (Σ _ : String, String)}
    (hok : addOutputs config outputMap graph = .ok graph') :
    GraphSpec reads (writes ++ outputMap.map (·.2)) graph' := by
  induction outputMap generalizing graph writes with
  | nil =>
    obtain rfl := Except.ok.inj hok
    rwa [List.map_nil, List.append_nil]
  | cons pair outputMap ih =>
    obtain ⟨modelOutput, name⟩ := pair
    unfold Serving.addOutputs at hok
    rw [List.map_cons, List.append_cons]
    split at hok
    · next tensor hlookup =>
      split at hok
      · cases hok
      · next hnot =>
        have hname : name ∉ writes := by rwa [h.output name tensor hlookup] at hnot
        exact ih (h.write name { tensor with isOutput := true } hname (h.next name tensor hlookup)
          (h.unready name tensor hlookup) rfl) hok
    · next hnone =>
      have hname : name ∉ writes := fun hname => by
        have := AList.lookup_isSome.mpr (h.written name hname)
        rw [hnone] at this
        cases this
      exact ih (h.write name { isOutput := true } hname
        (fun _ hmem => absurd hmem List.not_mem_nil) rfl rfl) hok

/-- A change of a node that keeps what the graph says of it. -/
theorem GraphSpec.modify (h : GraphSpec reads writes graph) (name : String)
    {f : EnsembleTensor → EnsembleTensor}
    (houtput : ∀ tensor, (f tensor).isOutput = tensor.isOutput)
    (hready : ∀ tensor, (f tensor).ready = tensor.ready)
    (hnext : ∀ tensor, (∀ name' ∈ tensor.nextNodes, name' ∈ writes) →
      ∀ name' ∈ (f tensor).nextNodes, name' ∈ writes) :
    GraphSpec reads writes (graph.modify name f) := by
  unfold EnsembleGraph.modify
  split
  · next tensor htensor =>
    constructor
    · exact fun name' hname' => (AList.mem_insert _).mpr (.inr (h.read name' hname'))
    · exact fun name' hname' => (AList.mem_insert _).mpr (.inr (h.written name' hname'))
    · intro name' tensor' hlookup
      rcases lookup_insert_cases hlookup with ⟨rfl, rfl⟩ | ⟨-, hlookup⟩
      · rw [houtput]
        exact h.output _ tensor htensor
      · exact h.output name' tensor' hlookup
    · intro name' tensor' hlookup
      rcases lookup_insert_cases hlookup with ⟨rfl, rfl⟩ | ⟨-, hlookup⟩
      · exact hnext tensor (h.next _ tensor htensor)
      · exact h.next name' tensor' hlookup
    · intro name' tensor' hlookup
      rcases lookup_insert_cases hlookup with ⟨rfl, rfl⟩ | ⟨-, hlookup⟩
      · rw [hready]
        exact h.unready _ tensor htensor
      · exact h.unready name' tensor' hlookup
    · exact h.nodup
  · exact h

/-- Links to tensors that the steps write. -/
theorem GraphSpec.links (h : GraphSpec reads writes graph) (input : String) {outputs : List String}
    (houtputs : ∀ output ∈ outputs, output ∈ writes) :
    GraphSpec reads writes (outputs.foldl (link input) graph) := by
  induction outputs generalizing graph with
  | nil => exact h
  | cons output outputs ih =>
    rw [List.forall_mem_cons] at houtputs
    have hprev := h.modify output
      (f := fun node => { node with prevNodes := node.prevNodes ++ [input] })
      (fun _ => rfl) (fun _ => rfl) (fun _ hnext => hnext)
    have hnext := hprev.modify input
      (f := fun node => { node with nextNodes := node.nextNodes ++ [output] })
      (fun _ => rfl) (fun _ => rfl) (fun tensor hnext name hname => by
        rcases List.mem_append.mp hname with hname | hname
        · exact hnext name hname
        · rw [List.mem_singleton.mp hname]
          exact houtputs.1)
    exact ih hnext houtputs.2

/-- A tensor that is read. -/
theorem GraphSpec.addInput (h : GraphSpec reads writes graph) (name : String) :
    GraphSpec (reads ++ [name]) writes (addInput graph name) := by
  unfold Serving.addInput
  split
  · next hmem =>
    refine { h with read := fun name' hname' => ?_ }
    rcases List.mem_append.mp hname' with hname' | hname'
    · exact h.read name' hname'
    · rwa [List.mem_singleton.mp hname']
  · next hnot =>
    constructor
    · intro name' hname'
      rcases List.mem_append.mp hname' with hname' | hname'
      · exact (AList.mem_insert _).mpr (.inr (h.read name' hname'))
      · exact (AList.mem_insert _).mpr (.inl (List.mem_singleton.mp hname'))
    · exact fun name' hname' => (AList.mem_insert _).mpr (.inr (h.written name' hname'))
    · intro name' tensor' hlookup
      rcases lookup_insert_cases hlookup with ⟨rfl, rfl⟩ | ⟨-, hlookup⟩
      · -- the graph has no node for a tensor that is not written yet
        exact iff_of_false (by decide) fun hname => hnot (h.written _ hname)
      · exact h.output name' tensor' hlookup
    · intro name' tensor' hlookup
      rcases lookup_insert_cases hlookup with ⟨rfl, rfl⟩ | ⟨-, hlookup⟩
      · exact fun _ hmem => absurd hmem List.not_mem_nil
      · exact h.next name' tensor' hlookup
    · intro name' tensor' hlookup
      rcases lookup_insert_cases hlookup with ⟨rfl, rfl⟩ | ⟨-, hlookup⟩
      · rfl
      · exact h.unready name' tensor' hlookup
    · exact h.nodup

theorem GraphSpec.addInputs (h : GraphSpec reads writes graph) {element : EnsembleStep}
    (helement : ∀ output ∈ element.writes, output ∈ writes)
    {inputMap : List (Σ _ : String, String)} {modelInputs : List String}
    (hok : addInputs config element inputMap modelInputs graph = .ok graph') :
    GraphSpec (reads ++ inputMap.map (·.2)) writes graph' := by
  induction inputMap generalizing graph reads modelInputs with
  | nil =>
    obtain rfl := Except.ok.inj hok
    rwa [List.map_nil, List.append_nil]
  | cons pair inputMap ih =>
    obtain ⟨modelInput, name⟩ := pair
    unfold Serving.addInputs at hok
    rw [List.map_cons, List.append_cons]
    split at hok
    · cases hok
    · exact ih ((h.addInput name).links name helement) hok

theorem GraphSpec.addStep (h : GraphSpec reads writes graph) {element : EnsembleStep}
    (hok : addStep config element graph = .ok graph') :
    GraphSpec (reads ++ element.reads) (writes ++ element.writes) graph' ∧
      element.inputMap.entries ≠ [] := by
  unfold Serving.addStep at hok
  split at hok
  · cases hok
  · split at hok
    · cases hok
    · next hinputs =>
      split at hok
      · cases hok
      · split at hok
        · next outputsGraph houtputs =>
          refine ⟨(h.addOutputs houtputs).addInputs (fun output => List.mem_append_right _) hok, ?_⟩
          rwa [List.isEmpty_iff] at hinputs
        · cases hok

theorem GraphSpec.addSteps (h : GraphSpec reads writes graph) {step : List EnsembleStep}
    (hok : addSteps config step graph = .ok graph') :
    GraphSpec (reads ++ step.flatMap (·.reads)) (writes ++ step.flatMap (·.writes)) graph' ∧
      ∀ element ∈ step, element.inputMap.entries ≠ [] := by
  induction step generalizing graph reads writes with
  | nil =>
    obtain rfl := Except.ok.inj hok
    rw [List.flatMap_nil, List.flatMap_nil, List.append_nil, List.append_nil]
    exact ⟨h, fun _ hmem => absurd hmem List.not_mem_nil⟩
  | cons element step ih =>
    unfold Serving.addSteps at hok
    split at hok
    · next stepGraph hstep =>
      obtain ⟨hspec, hinputs⟩ := h.addStep hstep
      obtain ⟨hrest, hall⟩ := ih hspec hok
      rw [List.append_assoc, List.append_assoc] at hrest
      exact ⟨hrest, List.forall_mem_cons.mpr ⟨hinputs, hall⟩⟩
    · cases hok

/-- What the graph says about the steps. -/
theorem buildEnsembleGraph_spec (hok : buildEnsembleGraph config = .ok graph) :
    GraphSpec (config.step.flatMap (·.reads)) config.writes graph ∧
      ∀ element ∈ config.step, element.inputMap.entries ≠ [] :=
  graphSpec_empty.addSteps hok

/-! ## What the data flow marks -/

/-- Every ready tensor is an ensemble input or is written, and links lead to written
tensors. -/
def Marked (inputs writes : List String) (graph : EnsembleGraph) : Prop :=
  ∀ name tensor, graph.lookup name = some tensor →
    (tensor.ready → name ∈ inputs ∨ name ∈ writes) ∧ ∀ name' ∈ tensor.nextNodes, name' ∈ writes

/-- A node becomes ready. -/
theorem Marked.ready {inputs : List String} (h : Marked inputs writes graph) {name : String}
    {tensor : EnsembleTensor} (htensor : graph.lookup name = some tensor)
    (hname : name ∈ inputs ∨ name ∈ writes) :
    Marked inputs writes (graph.insert name { tensor with ready := true }) := by
  intro name' tensor' hlookup
  rcases lookup_insert_cases hlookup with ⟨rfl, rfl⟩ | ⟨-, hlookup⟩
  · exact ⟨fun _ => hname, (h _ tensor htensor).2⟩
  · exact h name' tensor' hlookup

/-- Marking a node adds no node and removes none. -/
theorem mem_insert_of_lookup {name name' : String} {tensor tensor' : EnsembleTensor}
    (h : graph.lookup name = some tensor) :
    name' ∈ AList.insert name tensor' graph ↔ name' ∈ graph := by
  rw [AList.mem_insert]
  refine or_iff_right_of_imp fun heq => ?_
  rw [heq]
  exact mem_of_lookup h

theorem markInputs_marked {inputs : List ModelInput} (h : Marked config.inputNames writes graph)
    (hinputs : ∀ input ∈ inputs, input ∈ config.input)
    (hok : markInputs config inputs graph = .ok graph') :
    Marked config.inputNames writes graph' ∧ (∀ name, name ∈ graph' ↔ name ∈ graph) := by
  induction inputs generalizing graph with
  | nil =>
    obtain rfl := Except.ok.inj hok
    exact ⟨h, fun _ => Iff.rfl⟩
  | cons input inputs ih =>
    unfold markInputs at hok
    rw [List.forall_mem_cons] at hinputs
    split at hok
    · cases hok
    · next tensor htensor =>
      have hname : input.name ∈ config.inputNames := List.mem_map_of_mem hinputs.1
      obtain ⟨hmarked, hmem⟩ := ih (h.ready htensor (.inl hname)) hinputs.2 hok
      exact ⟨hmarked, fun name => (hmem name).trans (mem_insert_of_lookup htensor)⟩

theorem markNext_marked {inputs names : List String} (h : Marked inputs writes graph)
    (hnames : ∀ name ∈ names, name ∈ writes) :
    Marked inputs writes (markNext graph names).1 ∧
      ∀ name, name ∈ (markNext graph names).1 ↔ name ∈ graph := by
  induction names generalizing graph with
  | nil => exact ⟨h, fun _ => Iff.rfl⟩
  | cons next names ih =>
    unfold markNext
    rw [List.forall_mem_cons] at hnames
    split
    · exact ih h hnames.2
    · next node hnode =>
      split
      · exact ih h hnames.2
      · split
        · obtain ⟨hmarked, hmem⟩ := ih (h.ready hnode (.inr hnames.1)) hnames.2
          exact ⟨hmarked, fun name => (hmem name).trans (mem_insert_of_lookup hnode)⟩
        · exact ih h hnames.2

theorem checkDataFlow_marked {inputs : List String} (turns : Nat) (readyQueue : List String)
    (h : Marked inputs writes graph) :
    Marked inputs writes (checkDataFlow turns readyQueue graph) ∧
      ∀ name, name ∈ checkDataFlow turns readyQueue graph ↔ name ∈ graph := by
  induction turns generalizing graph readyQueue with
  | zero => exact ⟨h, fun _ => Iff.rfl⟩
  | succ turns ih =>
    cases readyQueue with
    | nil => exact ⟨h, fun _ => Iff.rfl⟩
    | cons name readyQueue =>
      have hnext : ∀ name' ∈ ((graph.lookup name).map (·.nextNodes)).getD [], name' ∈ writes := by
        cases hlookup : graph.lookup name with
        | none => exact fun _ hmem => absurd hmem List.not_mem_nil
        | some tensor => exact (h name tensor hlookup).2
      obtain ⟨hmarked, hmem⟩ := markNext_marked h hnext
      obtain ⟨hrest, hmem'⟩ := ih _ hmarked
      exact ⟨hrest, fun name => (hmem' name).trans (hmem name)⟩

/-! ## The turns of the queue -/

/-- The number of the nodes that are not ready. -/
def EnsembleGraph.unready (graph : EnsembleGraph) : Nat :=
  graph.entries.countP fun tensor => !tensor.2.ready

theorem unready_insert {name : String} {tensor : EnsembleTensor}
    (hlookup : graph.lookup name = some tensor) (hready : ¬ tensor.ready) :
    EnsembleGraph.unready (graph.insert name { tensor with ready := true }) + 1 =
      graph.unready := by
  refine UnorderedMap.countP_insert (p := fun tensor : EnsembleTensor => !tensor.ready) hlookup ?_
    rfl
  rw [Bool.not_eq_true', Bool.eq_false_iff]
  exact hready

/-- Every node that is pushed was not ready and is ready now. -/
theorem markNext_unready (graph : EnsembleGraph) (names : List String) :
    (markNext graph names).2.length + (markNext graph names).1.unready = graph.unready := by
  induction names generalizing graph with
  | nil => exact Nat.zero_add _
  | cons next names ih =>
    unfold markNext
    split
    · exact ih graph
    · next node hnode =>
      split
      · exact ih graph
      · next hready =>
        split
        · have := ih (graph.insert next { node with ready := true })
          rw [← unready_insert hnode hready, ← this, List.length_cons]
          exact Nat.add_right_comm _ _ _
        · exact ih graph

/-- With a turn for every node that is queued or not ready, the queue runs empty. -/
theorem checkDataFlow_turns {turns : Nat} {readyQueue : List String}
    (h : readyQueue.length + graph.unready ≤ turns) (more : Nat) :
    checkDataFlow (turns + more) readyQueue graph = checkDataFlow turns readyQueue graph := by
  induction turns generalizing graph readyQueue with
  | zero =>
    obtain rfl : readyQueue = [] := List.eq_nil_of_length_eq_zero (by omega)
    cases more <;> rfl
  | succ turns ih =>
    rw [Nat.succ_add]
    cases readyQueue with
    | nil => rfl
    | cons name readyQueue =>
      unfold checkDataFlow
      have hpushed := markNext_unready graph (((graph.lookup name).map (·.nextNodes)).getD [])
      refine ih ?_
      rw [List.length_append, Nat.add_assoc, hpushed]
      rw [List.length_cons] at h
      omega

/-- The turns that the validation takes suffice. -/
theorem checkDataFlow_validate (config : ModelConfig) (graph : EnsembleGraph) (more : Nat) :
    checkDataFlow (config.input.length + graph.entries.length + more) config.inputNames graph =
      checkDataFlow (config.input.length + graph.entries.length) config.inputNames graph := by
  refine checkDataFlow_turns ?_ more
  unfold ModelConfig.inputNames
  rw [List.length_map]
  exact Nat.add_le_add_left List.countP_le_length _

/-! ## Accepted ensembles -/

theorem addOutputs_error {status : Status} {outputMap : List (Σ _ : String, String)}
    (h : addOutputs config outputMap graph = .error status) : ¬ status.isOk := by
  induction outputMap generalizing graph with
  | nil => cases h
  | cons pair outputMap ih =>
    unfold addOutputs at h
    split at h
    · split at h
      · obtain rfl := Except.error.inj h
        nofun
      · exact ih h
    · exact ih h

theorem addInputs_error {status : Status} {element : EnsembleStep}
    {inputMap : List (Σ _ : String, String)} {modelInputs : List String}
    (h : addInputs config element inputMap modelInputs graph = .error status) :
    ¬ status.isOk := by
  induction inputMap generalizing graph modelInputs with
  | nil => cases h
  | cons pair inputMap ih =>
    unfold addInputs at h
    split at h
    · obtain rfl := Except.error.inj h
      nofun
    · exact ih h

theorem addStep_error {status : Status} {element : EnsembleStep}
    (h : addStep config element graph = .error status) : ¬ status.isOk := by
  unfold addStep at h
  split at h
  · obtain rfl := Except.error.inj h
    nofun
  · split at h
    · obtain rfl := Except.error.inj h
      nofun
    · split at h
      · obtain rfl := Except.error.inj h
        nofun
      · split at h
        · exact addInputs_error h
        · next houtputs =>
          obtain rfl := Except.error.inj h
          exact addOutputs_error houtputs

theorem addSteps_error {status : Status} {step : List EnsembleStep}
    (h : addSteps config step graph = .error status) : ¬ status.isOk := by
  induction step generalizing graph with
  | nil => cases h
  | cons element step ih =>
    unfold addSteps at h
    split at h
    · exact ih h
    · next hstep =>
      obtain rfl := Except.error.inj h
      exact addStep_error hstep

theorem markInputs_error {status : Status} {inputs : List ModelInput}
    (h : markInputs config inputs graph = .error status) : ¬ status.isOk := by
  induction inputs generalizing graph with
  | nil => cases h
  | cons input inputs ih =>
    unfold markInputs at h
    split at h
    · obtain rfl := Except.error.inj h
      nofun
    · exact ih h

/-- What holds of the steps of an ensemble that the validation accepts. -/
structure Accepted (config : ModelConfig) : Prop where
  mapped : ∀ element ∈ config.step, element.inputMap.entries ≠ []
  nodup : config.writes.Nodup
  reads : ∀ element ∈ config.step, ∀ name ∈ element.reads,
    name ∈ config.inputNames ∨ name ∈ config.writes
  outputs : ∀ name ∈ config.outputNames, name ∈ config.inputNames ∨ name ∈ config.writes

theorem accepted_of_validateEnsembleGraph (h : (validateEnsembleGraph config).isOk) :
    Accepted config := by
  unfold validateEnsembleGraph at h
  split at h
  · next status hbuild => exact absurd h (addSteps_error hbuild)
  · next built hbuild =>
    split at h
    · next status hmark => exact absurd h (markInputs_error hmark)
    · next marked hmark =>
      obtain ⟨hspec, hmapped⟩ := buildEnsembleGraph_spec hbuild
      have hbuilt : Marked config.inputNames config.writes built := fun name tensor hlookup =>
        ⟨fun hready => by simp [hspec.unready name tensor hlookup] at hready,
          hspec.next name tensor hlookup⟩
      obtain ⟨hmarked, hmem⟩ := markInputs_marked hbuilt (fun _ hinput => hinput) hmark
      obtain ⟨hflow, hmem'⟩ := checkDataFlow_marked
        (config.input.length + marked.entries.length) config.inputNames hmarked
      simp only [Status.isOk_andThen, Status.isOk_forEach] at h
      generalize checkDataFlow (config.input.length + marked.entries.length) config.inputNames
        marked = tensors at h hflow hmem'
      obtain ⟨houtputs, htensors⟩ := h
      have houtput : ∀ name ∈ config.outputNames,
          name ∈ config.inputNames ∨ name ∈ config.writes := by
        intro name hname
        obtain ⟨output, houtput, rfl⟩ := List.mem_map.mp hname
        have hok := houtputs output houtput
        unfold checkOutput at hok
        split at hok
        · cases hok
        · next tensor hlookup =>
          split at hok
          · next hready => exact (hflow _ tensor hlookup).1 hready
          · cases hok
      refine ⟨hmapped, hspec.nodup, fun element helement name hname => ?_, houtput⟩
      have hnode : name ∈ tensors := by
        rw [hmem', hmem]
        exact hspec.read name (List.mem_flatMap.mpr ⟨element, helement, hname⟩)
      obtain ⟨tensor, hlookup⟩ := Option.isSome_iff_exists.mp (AList.lookup_isSome.mpr hnode)
      have hok := htensors ⟨name, tensor⟩ (AList.mem_lookup_iff.mp hlookup)
      unfold checkTensor at hok
      split at hok
      · next hname => exact houtput name hname
      · split at hok
        · cases hok
        · next hready => exact (hflow name tensor hlookup).1 (by simpa using hready)

/-- What the steps of an accepted ensemble write and read. -/
theorem accepted_of_validate (h : (validateEnsembleSchedulingConfig config).isOk) :
    Accepted config := by
  unfold validateEnsembleSchedulingConfig at h
  split at h
  · cases h
  · split at h
    · cases h
    · split at h
      · cases h
      · split at h
        · cases h
        · exact accepted_of_validateEnsembleGraph h

end

end FinBert.Serving
