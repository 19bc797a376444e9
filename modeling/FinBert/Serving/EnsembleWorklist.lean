import FinBert.Lib.Worklist
import FinBert.Serving.EnsembleDependency

/-!
# The worklist of the data flow

The loop that finds the tensors to which data flows is written twice, for the graph of
`BuildEnsembleGraph` in `model_config_utils.cc` and for the nodes of `ValidateEnsembleConfig` in
`ensemble_utils.cc`. Both are the loop of `Worklist`, over the pointers from node to node.

Results:
1. `hasEdges_buildEnsembleGraph`: the pointers lead from what a step reads to what it writes.
2. `looks_markNext`, `turn_flowTurn`: a turn of the loop is a turn of the worklist.
3. `dataFlow_least`: the loop ends, and exactly the least set is ready.
-/

namespace FinBert.Serving

/-- The pointers from node to node. -/
def EnsembleGraph.pointers (graph : EnsembleGraph) : Worklist.Graph String where
  prev name := ((graph.lookup name).map (·.prevNodes)).getD []
  next name := ((graph.lookup name).map (·.nextNodes)).getD []

/-- One turn of the loop over the queue. -/
def flowTurn : List String × EnsembleGraph → List String × EnsembleGraph
  | ([], graph) => ([], graph)
  | (name :: readyQueue, graph) =>
    let (graph, pushed) := markNext graph (((graph.lookup name).map (·.nextNodes)).getD [])
    (readyQueue ++ pushed, graph)

theorem checkDataFlow_eq (turns : Nat) (readyQueue : List String) (graph : EnsembleGraph) :
    checkDataFlow turns readyQueue graph = (flowTurn^[turns] (readyQueue, graph)).2 := by
  induction turns generalizing readyQueue graph with
  | zero => rfl
  | succ turns ih =>
    cases readyQueue with
    | nil =>
      have hfixed : flowTurn ([], graph) = ([], graph) := rfl
      rw [Function.iterate_fixed hfixed]
      rfl
    | cons name readyQueue => exact ih _ _

/-! ## The pointers of `BuildEnsembleGraph` -/

section
variable {config : ModelConfig} {graph graph' : EnsembleGraph} {edge : String → String → Prop}

theorem prev_insert (name : String) (tensor : EnsembleTensor) (name' : String) :
    (EnsembleGraph.pointers (graph.insert name tensor)).prev name' =
      if name' = name then tensor.prevNodes else graph.pointers.prev name' := by
  unfold EnsembleGraph.pointers
  dsimp only
  rw [show AList.lookup name' (graph.insert name tensor) = _ from
    UnorderedMap.find_insert_apply graph name tensor name']
  split
  · rfl
  · rfl

theorem next_insert (name : String) (tensor : EnsembleTensor) (name' : String) :
    (EnsembleGraph.pointers (graph.insert name tensor)).next name' =
      if name' = name then tensor.nextNodes else graph.pointers.next name' := by
  unfold EnsembleGraph.pointers
  dsimp only
  rw [show AList.lookup name' (graph.insert name tensor) = _ from
    UnorderedMap.find_insert_apply graph name tensor name']
  split
  · rfl
  · rfl

/-- A node that keeps its pointers, or a new one without any. -/
theorem pointers_insert {name : String} {tensor : EnsembleTensor}
    (hprev : tensor.prevNodes = graph.pointers.prev name)
    (hnext : tensor.nextNodes = graph.pointers.next name) :
    EnsembleGraph.pointers (graph.insert name tensor) = graph.pointers := by
  apply Worklist.Graph.ext
  · funext name'
    rw [prev_insert]
    split
    · next heq => rw [hprev, heq]
    · rfl
  · funext name'
    rw [next_insert]
    split
    · next heq => rw [hnext, heq]
    · rfl

theorem pointers_of_lookup {name : String} {tensor : EnsembleTensor}
    (h : graph.lookup name = some tensor) : graph.pointers.prev name = tensor.prevNodes ∧
      graph.pointers.next name = tensor.nextNodes := by
  unfold EnsembleGraph.pointers
  dsimp only
  rw [h]
  exact ⟨rfl, rfl⟩

theorem pointers_of_lookup_none {name : String} (h : graph.lookup name = none) :
    graph.pointers.prev name = [] ∧ graph.pointers.next name = [] := by
  unfold EnsembleGraph.pointers
  dsimp only
  rw [h]
  exact ⟨rfl, rfl⟩

/-- A node becomes an output, or ready. -/
theorem pointers_mark {name : String} {tensor tensor' : EnsembleTensor}
    (h : graph.lookup name = some tensor) (hprev : tensor'.prevNodes = tensor.prevNodes)
    (hnext : tensor'.nextNodes = tensor.nextNodes) :
    EnsembleGraph.pointers (graph.insert name tensor') = graph.pointers :=
  pointers_insert (hprev.trans (pointers_of_lookup h).1.symm)
    (hnext.trans (pointers_of_lookup h).2.symm)

theorem pointers_addOutputs {outputMap : List (Σ _ : String, String)}
    (hok : addOutputs config outputMap graph = .ok graph') : graph'.pointers = graph.pointers := by
  induction outputMap generalizing graph with
  | nil =>
    obtain rfl := Except.ok.inj hok
    rfl
  | cons pair outputMap ih =>
    unfold addOutputs at hok
    split at hok
    · next tensor hlookup =>
      split at hok
      · cases hok
      · exact (ih hok).trans (pointers_mark hlookup rfl rfl)
    · next hnone =>
      obtain ⟨hprev, hnext⟩ := pointers_of_lookup_none hnone
      exact (ih hok).trans (pointers_insert hprev.symm hnext.symm)

theorem pointers_addInput (graph : EnsembleGraph) (name : String) :
    (addInput graph name).pointers = graph.pointers := by
  unfold addInput
  split
  · rfl
  · next hnot =>
    obtain ⟨hprev, hnext⟩ := pointers_of_lookup_none (AList.lookup_eq_none.mpr hnot)
    exact pointers_insert hprev.symm hnext.symm

theorem mem_addInput (graph : EnsembleGraph) (name name' : String) :
    name' ∈ addInput graph name ↔ name' = name ∨ name' ∈ graph := by
  unfold addInput
  split
  · next hmem => exact (or_iff_right_of_imp fun heq => heq ▸ hmem).symm
  · exact AList.mem_insert _

/-- The node of a tensor is changed. -/
theorem exists_modify {name : String} (h : name ∈ graph) (f : EnsembleTensor → EnsembleTensor) :
    ∃ tensor, graph.lookup name = some tensor ∧
      graph.modify name f = graph.insert name (f tensor) := by
  obtain ⟨tensor, htensor⟩ := Option.isSome_iff_exists.mp (AList.lookup_isSome.mpr h)
  refine ⟨tensor, htensor, ?_⟩
  unfold EnsembleGraph.modify
  rw [htensor]

/-- What a link adds to the lists of its ends. -/
theorem link_spec {input output : String} (hinput : input ∈ graph) (houtput : output ∈ graph) :
    (∀ name, (link input graph output).pointers.prev name =
      if name = output then graph.pointers.prev name ++ [input] else graph.pointers.prev name) ∧
    (∀ name, (link input graph output).pointers.next name =
      if name = input then graph.pointers.next name ++ [output] else graph.pointers.next name) ∧
    ∀ name, name ∈ link input graph output ↔ name ∈ graph := by
  obtain ⟨tensor, htensor, hmodify⟩ := exists_modify houtput fun node =>
    { node with prevNodes := node.prevNodes ++ [input] }
  have hinput' : input ∈ graph.modify output fun node =>
      { node with prevNodes := node.prevNodes ++ [input] } := by
    rw [hmodify]
    exact (mem_insert_of_lookup htensor).mpr hinput
  obtain ⟨tensor', htensor', hmodify'⟩ := exists_modify hinput' fun node =>
    { node with nextNodes := node.nextNodes ++ [output] }
  have hlink : link input graph output = _ := hmodify'
  rw [hmodify] at htensor' hlink
  obtain ⟨hprev, hnext⟩ := pointers_of_lookup htensor
  obtain ⟨hprev', hnext'⟩ := pointers_of_lookup htensor'
  have hnextSame : ∀ name, (EnsembleGraph.pointers (graph.insert output
      { tensor with prevNodes := tensor.prevNodes ++ [input] })).next name =
        graph.pointers.next name := fun name => by
    rw [next_insert]
    split
    · next heq => rw [heq, hnext]
    · rfl
  rw [hlink]
  refine ⟨fun name => ?_, fun name => ?_, fun name => ?_⟩
  · have hsame : (if name = input then tensor'.prevNodes else (EnsembleGraph.pointers
        (graph.insert output { tensor with prevNodes := tensor.prevNodes ++ [input] })).prev name) =
        (EnsembleGraph.pointers (graph.insert output
          { tensor with prevNodes := tensor.prevNodes ++ [input] })).prev name := by
      split
      · next heq => rw [heq, hprev']
      · rfl
    rw [prev_insert]
    refine hsame.trans ?_
    rw [prev_insert]
    split
    · next heq => rw [heq, hprev]
    · rfl
  · rw [next_insert, hnextSame]
    split
    · next heq => rw [heq, ← hnextSame, hnext']
    · rfl
  · exact (mem_insert_of_lookup htensor').trans (mem_insert_of_lookup htensor)

/-- A link is one more edge. -/
theorem hasEdges_link {input output : String} (h : graph.pointers.HasEdges edge)
    (hinput : input ∈ graph) (houtput : output ∈ graph) :
    (link input graph output).pointers.HasEdges fun p n =>
      edge p n ∨ p = input ∧ n = output := by
  obtain ⟨hprev, hnext, -⟩ := link_spec hinput houtput
  refine ⟨fun p n => ?_, fun p n => ?_⟩
  · rw [hprev]
    split
    · next heq => rw [List.mem_append, List.mem_singleton, h.prev, and_iff_left heq]
    · next hne => rw [h.prev, or_iff_left fun hnew => hne hnew.2]
  · rw [hnext]
    split
    · next heq => rw [List.mem_append, List.mem_singleton, h.next, and_iff_right heq]
    · next hne => rw [h.next, or_iff_left fun hnew => hne hnew.1]

theorem hasEdges_links {input : String} {outputs : List String}
    (h : graph.pointers.HasEdges edge) (hinput : input ∈ graph)
    (houtputs : ∀ output ∈ outputs, output ∈ graph) :
    ((outputs.foldl (link input) graph).pointers.HasEdges fun p n =>
        edge p n ∨ p = input ∧ n ∈ outputs) ∧
      ∀ name, name ∈ outputs.foldl (link input) graph ↔ name ∈ graph := by
  induction outputs generalizing graph edge with
  | nil => exact ⟨h.congr fun p n => by simp, fun _ => Iff.rfl⟩
  | cons output outputs ih =>
    rw [List.forall_mem_cons] at houtputs
    obtain ⟨-, -, hmem⟩ := link_spec hinput houtputs.1
    obtain ⟨hrest, hmem'⟩ := ih (hasEdges_link h hinput houtputs.1) ((hmem input).mpr hinput)
      fun output' houtput' => (hmem output').mpr (houtputs.2 output' houtput')
    refine ⟨hrest.congr fun p n => ?_, fun name => (hmem' name).trans (hmem name)⟩
    rw [or_assoc, ← and_or_left, List.mem_cons]

theorem hasEdges_addInputs {element : EnsembleStep} (h : graph.pointers.HasEdges edge)
    (hwrites : ∀ output ∈ element.writes, output ∈ graph) {inputMap : List (Σ _ : String, String)}
    {modelInputs : List String}
    (hok : addInputs config element inputMap modelInputs graph = .ok graph') :
    graph'.pointers.HasEdges fun p n =>
      edge p n ∨ p ∈ inputMap.map (·.2) ∧ n ∈ element.writes := by
  induction inputMap generalizing graph edge modelInputs with
  | nil =>
    obtain rfl := Except.ok.inj hok
    exact h.congr fun p n => by simp
  | cons pair inputMap ih =>
    obtain ⟨modelInput, name⟩ := pair
    unfold addInputs at hok
    split at hok
    · cases hok
    · have hadded : (addInput graph name).pointers.HasEdges edge :=
        pointers_addInput graph name ▸ h
      have hwrites' : ∀ output ∈ element.writes, output ∈ addInput graph name :=
        fun output houtput => (mem_addInput graph name output).mpr (.inr (hwrites output houtput))
      obtain ⟨hlinks, hmem⟩ :=
        hasEdges_links hadded ((mem_addInput graph name name).mpr (.inl rfl)) hwrites'
      refine (ih hlinks (fun output houtput => (hmem output).mpr (hwrites' output houtput))
        hok).congr fun p n => ?_
      rw [or_assoc, ← or_and_right, List.map_cons, List.mem_cons]

theorem hasEdges_addStep {reads writes : List String} {element : EnsembleStep}
    (hspec : GraphSpec reads writes graph) (h : graph.pointers.HasEdges edge)
    (hok : addStep config element graph = .ok graph') :
    graph'.pointers.HasEdges fun p n => edge p n ∨ stepLinks element p n := by
  unfold addStep at hok
  split at hok
  · cases hok
  · split at hok
    · cases hok
    · split at hok
      · cases hok
      · split at hok
        · next outputsGraph houtputs =>
          refine hasEdges_addInputs (pointers_addOutputs houtputs ▸ h) ?_ hok
          exact fun output houtput =>
            (hspec.addOutputs houtputs).written output (List.mem_append_right _ houtput)
        · cases hok

theorem hasEdges_addSteps {reads writes : List String} {step : List EnsembleStep}
    (hspec : GraphSpec reads writes graph) (h : graph.pointers.HasEdges edge)
    (hok : addSteps config step graph = .ok graph') :
    graph'.pointers.HasEdges fun p n => edge p n ∨ linksOf step p n := by
  induction step generalizing graph edge reads writes with
  | nil =>
    obtain rfl := Except.ok.inj hok
    exact h.congr fun p n => by simp [linksOf]
  | cons element step ih =>
    unfold addSteps at hok
    split at hok
    · next stepGraph hstep =>
      refine (ih (hspec.addStep hstep).1 (hasEdges_addStep hspec h hstep) hok).congr
        fun p n => ?_
      unfold linksOf
      rw [or_assoc, List.exists_mem_cons_iff]
    · cases hok

/-- The pointers lead from what a step reads to what it writes. -/
theorem hasEdges_buildEnsembleGraph (hok : buildEnsembleGraph config = .ok graph) :
    graph.pointers.HasEdges (linksOf config.step) := by
  have hempty : (∅ : EnsembleGraph).pointers.HasEdges fun _ _ => False := by
    refine ⟨fun p n => ?_, fun p n => ?_⟩
    · rw [(pointers_of_lookup_none (AList.lookup_empty n)).1]
      exact iff_of_false List.not_mem_nil id
    · rw [(pointers_of_lookup_none (AList.lookup_empty p)).2]
      exact iff_of_false List.not_mem_nil id
  exact (hasEdges_addSteps graphSpec_empty hempty hok).congr fun _ _ => or_iff_right id

/-! ## The turns of the loop -/

/-- The state of the worklist. -/
def EnsembleGraph.state (graph : EnsembleGraph) (readyQueue : List String) :
    Worklist.State String :=
  { marked := graph.isReady, queue := readyQueue }

theorem isReady_mark (name : String) {tensor : EnsembleTensor} (h : tensor.ready = true) :
    EnsembleGraph.isReady (graph.insert name tensor) =
      Function.update graph.isReady name true := by
  funext name'
  unfold EnsembleGraph.isReady
  rw [Function.update_apply, show AList.lookup name' (graph.insert name tensor) = _ from
    UnorderedMap.find_insert_apply graph name tensor name']
  split
  · exact h
  · rfl

/-- The loop over the inputs: it succeeds, and they are ready. -/
theorem markInputs_ok (inputs : List ModelInput) (h : ∀ input ∈ inputs, input.name ∈ graph) :
    ∃ marked, markInputs config inputs graph = .ok marked ∧ marked.pointers = graph.pointers ∧
      ∀ name, marked.isReady name = true ↔
        graph.isReady name = true ∨ name ∈ inputs.map (·.name) := by
  induction inputs generalizing graph with
  | nil => exact ⟨graph, rfl, rfl, fun _ => (or_iff_left List.not_mem_nil).symm⟩
  | cons input inputs ih =>
    rw [List.forall_mem_cons] at h
    obtain ⟨tensor, htensor⟩ := Option.isSome_iff_exists.mp (AList.lookup_isSome.mpr h.1)
    obtain ⟨marked, hmarked, hpointers, hready⟩ :=
      @ih (graph.insert input.name { tensor with ready := true }) fun input' hinput' =>
        (mem_insert_of_lookup htensor).mpr (h.2 input' hinput')
    refine ⟨marked, ?_, hpointers.trans (pointers_mark htensor rfl rfl), fun name => ?_⟩
    · unfold markInputs
      rw [htensor]
      exact hmarked
    · rw [hready, isReady_mark input.name rfl, Function.update_apply, List.map_cons, List.mem_cons]
      split
      · next heq => simp [heq]
      · next hne => simp [hne]

theorem mem_of_next (h : graph.pointers.HasEdges edge) {p n : String}
    (hn : n ∈ graph.pointers.next p) : n ∈ graph := by
  by_contra hnot
  have hprev := (h.prev p n).mpr ((h.next p n).mp hn)
  rw [(pointers_of_lookup_none (AList.lookup_eq_none.mpr hnot)).1] at hprev
  cases hprev

/-- The loop over the next nodes. -/
theorem looks_markNext {names : List String} (h : ∀ name ∈ names, name ∈ graph)
    (readyQueue : List String) :
    (markNext graph names).1.pointers = graph.pointers ∧
      names.foldl (Worklist.look graph.pointers) (graph.state readyQueue) =
        (markNext graph names).1.state (readyQueue ++ (markNext graph names).2) := by
  induction names generalizing graph readyQueue with
  | nil =>
    refine ⟨rfl, ?_⟩
    rw [markNext, List.append_nil]
    rfl
  | cons next names ih =>
    rw [List.forall_mem_cons] at h
    obtain ⟨node, hnode⟩ := Option.isSome_iff_exists.mp (AList.lookup_isSome.mpr h.1)
    have hready : graph.isReady next = node.ready := by
      unfold EnsembleGraph.isReady
      rw [hnode]
      rfl
    rw [List.foldl_cons]
    unfold markNext Worklist.look
    simp only [hnode, EnsembleGraph.state, hready, (pointers_of_lookup hnode).1]
    split
    · exact ih h.2 readyQueue
    · split
      · have hsame : EnsembleGraph.pointers (graph.insert next { node with ready := true }) =
            graph.pointers := pointers_mark hnode rfl rfl
        have hnames : ∀ name ∈ names, name ∈ AList.insert next { node with ready := true } graph :=
          fun name hname => (mem_insert_of_lookup hnode).mpr (h.2 name hname)
        obtain ⟨hpointers, hlooks⟩ := ih hnames (readyQueue ++ [next])
        rw [hsame] at hpointers hlooks
        refine ⟨hpointers, ?_⟩
        rw [EnsembleGraph.state, isReady_mark next rfl, List.append_assoc] at hlooks
        exact hlooks
      · exact ih h.2 readyQueue

/-- A turn of the loop. -/
theorem turn_flowTurn (h : graph.pointers.HasEdges edge) (readyQueue : List String) :
    (flowTurn (readyQueue, graph)).2.pointers = graph.pointers ∧
      Worklist.turn graph.pointers (graph.state readyQueue) =
        (flowTurn (readyQueue, graph)).2.state (flowTurn (readyQueue, graph)).1 := by
  cases readyQueue with
  | nil => exact ⟨rfl, rfl⟩
  | cons name readyQueue =>
    exact looks_markNext (fun name' hname' => mem_of_next h hname') readyQueue

theorem iterate_flowTurn (h : graph.pointers.HasEdges edge) (readyQueue : List String)
    (turns : Nat) :
    (Worklist.turn graph.pointers)^[turns] (graph.state readyQueue) =
      (flowTurn^[turns] (readyQueue, graph)).2.state (flowTurn^[turns] (readyQueue, graph)).1 := by
  induction turns generalizing graph readyQueue with
  | zero => rfl
  | succ turns ih =>
    obtain ⟨hpointers, hturn⟩ := turn_flowTurn h readyQueue
    have hrest := @ih (flowTurn (readyQueue, graph)).2 (hpointers ▸ h)
      (flowTurn (readyQueue, graph)).1
    rw [hpointers] at hrest
    rw [Function.iterate_succ_apply, Function.iterate_succ_apply, hturn]
    exact hrest

/-- The loop ends, and exactly the least set is ready. -/
theorem checkDataFlow_least (hok : buildEnsembleGraph config = .ok graph)
    (inputs : List ModelInput) (hinputs : ∀ input ∈ inputs, input.name ∈ graph) :
    ∃ marked, markInputs config inputs graph = .ok marked ∧
      (flowTurn^[inputs.length + marked.entries.length] (inputs.map (·.name), marked)).1 = [] ∧
      IsLeast {t | Worklist.Closed (linksOf config.step) {name | name ∈ inputs.map (·.name)} t}
        {name | (checkDataFlow (inputs.length + marked.entries.length) (inputs.map (·.name))
          marked).isReady name = true} := by
  obtain ⟨marked, hmark, hpointers, hready⟩ := markInputs_ok inputs hinputs
  have hedges : marked.pointers.HasEdges (linksOf config.step) :=
    hpointers ▸ hasEdges_buildEnsembleGraph hok
  have hunready : ∀ name, graph.isReady name ≠ true := fun name hname => by
    unfold EnsembleGraph.isReady at hname
    cases hlookup : graph.lookup name with
    | none =>
      rw [hlookup] at hname
      cases hname
    | some tensor =>
      rw [hlookup] at hname
      rw [Option.map_some, (buildEnsembleGraph_spec hok).1.unready name tensor hlookup] at hname
      cases hname
  have hstart : Worklist.Flowing (linksOf config.step) {name | name ∈ inputs.map (·.name)}
      (marked.state (inputs.map (·.name))) [] :=
    .start (fun name => (hready name).trans (or_iff_right (hunready name))) fun _ hname => hname
  have hturns : Worklist.measure marked.keys.toFinset (marked.state (inputs.map (·.name))) ≤
      inputs.length + marked.entries.length :=
    (Worklist.measure_le _ _).trans
      (Nat.add_le_add (Nat.le_of_eq (List.length_map _)) (UnorderedMap.card_keys_le marked))
  have hflow := hstart.iterate hedges (inputs.length + marked.entries.length)
  have hempty := Worklist.queue_iterate_turn (fun _ _ hname => List.mem_toFinset.mpr
    (AList.mem_keys.mp (mem_of_next hedges hname))) hturns
  rw [iterate_flowTurn hedges] at hflow hempty
  refine ⟨marked, hmark, hempty, ?_⟩
  rw [checkDataFlow_eq]
  exact hflow.isLeast hempty

end

/-! ## The nodes of `ValidateEnsembleConfig` -/

theorem flowThrough_least {known : TensorTypes} {links : String → String → Prop}
    {tensors : TensorNodes} (h : Represents known links tensors) {inputs : List String}
    (hinputs : ∀ name ∈ inputs, ∃ type, known name type) :
    ∃ marked tensors', inputs.foldlM markReady tensors = .ok marked ∧
      flowThrough (inputs.length + marked.entries.length) marked inputs = .ok tensors' ∧
      IsLeast {t | Worklist.Closed links {name | name ∈ inputs} t}
        {name | IsReady tensors' name} := by
  have hmarks := decides_markInputs h hinputs
  obtain ⟨marked, hmarked⟩ := hmarks.returns_iff.mpr trivial
  rw [hmarked] at hmarks
  obtain ⟨hsame, hready⟩ := hmarks.of_ok.2
  have hloop := decides_flowThrough_inputs h hinputs hsame hready
  obtain ⟨tensors', htensors⟩ := hloop.returns_iff.mpr trivial
  rw [htensors] at hloop
  exact ⟨marked, tensors', hmarked, htensors, hloop.of_ok.2.2⟩

/-- For every ensemble whose graph is built and every set of inputs among its tensors, the loop
ends with an empty queue, and the ready tensors are the least set that has the inputs and every
tensor that some step writes and all of whose sources it has; and so does the loop over nodes with
any links. -/
theorem dataFlow_least :
    (∀ (config : ModelConfig) (graph : EnsembleGraph), buildEnsembleGraph config = .ok graph →
      ∀ inputs : List ModelInput, (∀ input ∈ inputs, input.name ∈ graph) →
      ∃ marked, markInputs config inputs graph = .ok marked ∧
        (flowTurn^[inputs.length + marked.entries.length] (inputs.map (·.name), marked)).1 = [] ∧
        IsLeast {t | Worklist.Closed (linksOf config.step) {name | name ∈ inputs.map (·.name)} t}
          {name | (checkDataFlow (inputs.length + marked.entries.length) (inputs.map (·.name))
            marked).isReady name = true}) ∧
    ∀ (known : TensorTypes) (links : String → String → Prop) (tensors : TensorNodes),
      Represents known links tensors →
      ∀ inputs : List String, (∀ name ∈ inputs, ∃ type, known name type) →
      ∃ marked tensors', inputs.foldlM markReady tensors = .ok marked ∧
        flowThrough (inputs.length + marked.entries.length) marked inputs = .ok tensors' ∧
        IsLeast {t | Worklist.Closed links {name | name ∈ inputs} t}
          {name | IsReady tensors' name} :=
  ⟨fun _ _ hok inputs hinputs => checkDataFlow_least hok inputs hinputs,
    fun _ _ _ h _ hinputs => flowThrough_least h hinputs⟩

/-- The tensors `c` and `d` need each other, and the step that writes `b` reads `a` twice. -/
def needEachOther : ModelConfig :=
  { singleStep "e" "m" with
    input := List.replicate 2 { name := "a", dataType := .fp32, dims := [4] }
    scheduling := .ensembleScheduling
      [{ modelName := "m", modelVersion := 1,
         inputMap := UnorderedMap.insertAll ∅ [("x", "a"), ("y", "a")],
         outputMap := UnorderedMap.insertAll ∅ [("z", "b")] },
       { modelName := "m", modelVersion := 1,
         inputMap := UnorderedMap.insertAll ∅ [("x", "b"), ("y", "d")],
         outputMap := UnorderedMap.insertAll ∅ [("z", "c")] },
       { modelName := "n", modelVersion := 1, inputMap := UnorderedMap.insertAll ∅ [("x", "c")],
         outputMap := UnorderedMap.insertAll ∅ [("y", "d")] }] }

theorem dataFlow_needEachOther :
    ∃ marked, (checkDataFlow (2 + marked.entries.length) ["a", "a"] marked).isReady "b" = true ∧
      (checkDataFlow (2 + marked.entries.length) ["a", "a"] marked).isReady "c" = false ∧
      IsLeast {t | Worklist.Closed (linksOf needEachOther.step) {name | name ∈ ["a", "a"]} t}
        {name | (checkDataFlow (2 + marked.entries.length) ["a", "a"] marked).isReady name =
          true} := by
  have hrun : ((buildEnsembleGraph needEachOther).toOption.bind fun graph =>
      (markInputs needEachOther needEachOther.input graph).toOption.map fun marked =>
        [("b", true), ("c", false)].all fun (name, ready) =>
          (checkDataFlow (2 + marked.entries.length) ["a", "a"] marked).isReady name == ready) =
      some true := by decide
  cases hbuild : buildEnsembleGraph needEachOther with
  | error status =>
    rw [hbuild] at hrun
    cases hrun
  | ok graph =>
    have hinputs : ∀ input ∈ needEachOther.input, input.name ∈ graph := fun input hinput =>
      (buildEnsembleGraph_spec hbuild).1.read input.name (by
        rw [List.eq_of_mem_replicate hinput]
        decide)
    obtain ⟨marked, hmark, -, hleast⟩ :=
      dataFlow_least.1 needEachOther graph hbuild needEachOther.input hinputs
    rw [hbuild, Except.toOption, Option.bind_some, hmark, Except.toOption, Option.map_some,
      Option.some.injEq] at hrun
    simp only [List.all_cons, List.all_nil, Bool.and_true, Bool.and_eq_true, beq_iff_eq] at hrun
    exact ⟨marked, hrun.1, hrun.2, hleast⟩

end FinBert.Serving
