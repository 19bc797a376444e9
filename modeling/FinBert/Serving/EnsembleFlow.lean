import FinBert.Lib.Worklist
import FinBert.Serving.EnsembleSteps

/-!
# The data flow of a valid ensemble

What the part behind the loop over the steps decides. A tensor is ready when data flows to it: it
is an input of the ensemble, or it is linked to and all tensors that link to it are ready (`Flows`).
The queue finds exactly these tensors, in whatever order it meets them.

Results:
1. `decides_flowThrough`: the queue runs empty in the turns that it is given, and the ready tensors
   are those that the worklist of `Worklist` finds.
2. `isLeast_flows`: they are the tensors to which data flows.
3. `decides_checkEnsembleFlow`: what the checks of the outputs and of all tensors decide.
-/

namespace FinBert.Serving

open UnorderedMap Programs

/-- Data flows to a tensor. -/
inductive Flows (links : String → String → Prop) (inputs : List String) : String → Prop
  | input {name : String} (mem : name ∈ inputs) : Flows links inputs name
  | linked {prev name : String} (link : links prev name)
      (all : ∀ name', links name' name → Flows links inputs name') : Flows links inputs name

/-- Data flows to the outputs; and to every other tensor that is used, and it is read. -/
structure FlowOk (known : TensorTypes) (links : String → String → Prop) (config : ModelConfig) :
    Prop where
  outputs : ∀ name ∈ config.outputNames, Flows links config.inputNames name
  used : ∀ name type, known name type → name ∉ config.outputNames →
    Flows links config.inputNames name ∧ ∃ name', links name name'

/-! ## Nodes that become ready -/

/-- The node of the tensor is ready. -/
def IsReady (tensors : TensorNodes) (name : String) : Prop :=
  ∃ node, tensors.find name = some node ∧ node.ready = true

/-- The nodes are those of `tensors₀`, some of them ready. -/
def SameNodes (tensors₀ tensors : TensorNodes) : Prop :=
  ∀ name, (tensors.find name).map (fun node => { node with ready := false }) = tensors₀.find name

variable {known : TensorTypes} {links : String → String → Prop} {inputs : List String}
  {tensors₀ tensors : TensorNodes}

theorem isReady_iff {name : String} {node : TensorNode} (h : tensors.find name = some node) :
    node.ready = true ↔ IsReady tensors name := by
  constructor
  · exact fun hready => ⟨node, h, hready⟩
  · rintro ⟨node', h', hready⟩
    exact Option.some.inj (h'.symm.trans h) ▸ hready

theorem Represents.same (h : Represents known links tensors₀) : SameNodes tensors₀ tensors₀ := by
  intro name
  cases hfind : tensors₀.find name with
  | none => rfl
  | some node =>
    have hunready := h.unready name node hfind
    rw [Option.map_some, ← hunready]

/-- The node of a tensor that is known, and its links. -/
theorem SameNodes.find_of_known (hsame : SameNodes tensors₀ tensors)
    (h : Represents known links tensors₀) {name : String} {type : TensorType}
    (hknown : known name type) :
    ∃ node, tensors.find name = some node ∧ (∀ name', name' ∈ node.prevNodes ↔ links name' name) ∧
      ∀ name', name' ∈ node.nextNodes ↔ links name name' := by
  obtain ⟨node₀, hfind₀⟩ := h.find_of_known hknown
  have hprev := h.prev name node₀ hfind₀
  have hnext := h.next name node₀ hfind₀
  obtain ⟨node, hfind, rfl⟩ := Option.map_eq_some_iff.mp ((hsame name).trans hfind₀)
  exact ⟨node, hfind, hprev, hnext⟩

/-- A node becomes ready. -/
theorem SameNodes.insert (hsame : SameNodes tensors₀ tensors) {name : String} {node : TensorNode}
    (hfind : tensors.find name = some node) :
    SameNodes tensors₀ (tensors.insert name { node with ready := true }) := by
  intro name'
  rw [find_insert_apply, ← hsame name']
  split
  · next heq => rw [heq, hfind, Option.map_some, Option.map_some]
  · rfl

theorem isReady_insert {name : String} {node : TensorNode} (name' : String) :
    IsReady (tensors.insert name { node with ready := true }) name' ↔
      name' = name ∨ IsReady tensors name' := by
  unfold IsReady
  rw [find_insert_apply]
  split
  · next heq => exact iff_of_true ⟨_, rfl, rfl⟩ (.inl heq)
  · next hne => exact (or_iff_right hne).symm

theorem decides_isReady (hsame : SameNodes tensors₀ tensors) (h : Represents known links tensors₀)
    {name : String} {type : TensorType} (hknown : known name type) :
    Decides Returned True (fun ready => ready = true ↔ IsReady tensors name)
      (tensors.isReady name) := by
  obtain ⟨node, hfind, -⟩ := hsame.find_of_known h hknown
  refine (decides_secondOf hfind).bind_of trivial fun node' heq => decides_pure ?_
  rw [heq]
  exact isReady_iff hfind

theorem decides_allReady (hsame : SameNodes tensors₀ tensors) (h : Represents known links tensors₀)
    {names : List String} (hknown : ∀ name ∈ names, ∃ type, known name type) :
    Decides Returned True (fun ready => ready = true ↔ ∀ name ∈ names, IsReady tensors name)
      (allReady tensors names) := by
  induction names with
  | nil => exact decides_pure (iff_of_true rfl fun name hname => by cases hname)
  | cons name names ih =>
    rw [List.forall_mem_cons] at hknown
    obtain ⟨type, htype⟩ := hknown.1
    refine (decides_isReady hsame h htype).bind_of trivial fun ready hready => ?_
    simp only [List.forall_mem_cons, ← hready]
    cases ready with
    | true => exact (ih hknown.2).imp Iff.rfl fun _ _ hall => by simpa using hall
    | false => exact decides_pure (by simp)

/-- The inputs become ready. -/
theorem decides_markInputs (h : Represents known links tensors₀)
    (hinputs : ∀ name ∈ inputs, ∃ type, known name type) :
    Decides Returned True
      (fun tensors => SameNodes tensors₀ tensors ∧ ∀ name, IsReady tensors name ↔ name ∈ inputs)
      (inputs.foldlM markReady tensors₀) := by
  refine (Decides.foldlM_forall (c := fun _ => True)
    (I := fun (done : List String) tensors =>
      SameNodes tensors₀ tensors ∧ ∀ name, IsReady tensors name ↔ name ∈ done)
    (fun done name tensors hname hdone => ?_) ⟨h.same, fun name => ?_⟩).congr
    (iff_of_true (fun _ _ => trivial) trivial)
  · obtain ⟨type, htype⟩ := hinputs name hname
    obtain ⟨node, hfind, -⟩ := hdone.1.find_of_known h htype
    refine (decides_secondOf hfind).bind_of trivial fun node' heq => decides_pure ?_
    subst heq
    refine ⟨hdone.1.insert hfind, fun name' => ?_⟩
    rw [isReady_insert, hdone.2, List.mem_append, List.mem_singleton, or_comm]
  · refine iff_of_false ?_ List.not_mem_nil
    rintro ⟨node, hfind, hready⟩
    rw [h.unready name node hfind] at hready
    cases hready

/-! ## The queue -/

/-- The pointers from node to node. -/
def TensorNodes.pointers (tensors : TensorNodes) : Worklist.Graph String where
  prev name := ((tensors.find name).map (·.prevNodes)).getD []
  next name := ((tensors.find name).map (·.nextNodes)).getD []

/-- The state of the worklist: the nodes that are ready, and the queue. -/
def TensorNodes.state (tensors : TensorNodes) (readyQueue : List String) :
    Worklist.State String where
  marked name := ((tensors.find name).map (·.ready)).getD false
  queue := readyQueue

theorem marked_iff {queue : List String} (name : String) :
    (tensors.state queue).marked name = true ↔ IsReady tensors name := by
  unfold TensorNodes.state IsReady
  dsimp only
  cases tensors.find name with
  | none => exact iff_of_false Bool.false_ne_true fun ⟨_, hfind, _⟩ => by cases hfind
  | some node =>
    refine ⟨fun hready => ⟨node, rfl, hready⟩, fun ⟨_, hfind, hready⟩ => ?_⟩
    exact Option.some.inj hfind ▸ hready

theorem SameNodes.pointers_eq (hsame : SameNodes tensors₀ tensors) :
    tensors.pointers = tensors₀.pointers := by
  unfold TensorNodes.pointers
  simp only [← hsame _, Option.map_map, Function.comp_def]

/-- The pointers of a tensor that has a node, and of one that has none. -/
theorem pointers_of_find {name : String} {o : Option TensorNode} (h : tensors.find name = o) :
    tensors.pointers.prev name = (o.map (·.prevNodes)).getD [] ∧
      tensors.pointers.next name = (o.map (·.nextNodes)).getD [] := by
  subst h
  exact ⟨rfl, rfl⟩

theorem Represents.hasEdges (h : Represents known links tensors) :
    tensors.pointers.HasEdges links := by
  refine ⟨fun p n => ?_, fun p n => ?_⟩
  · cases hfind : tensors.find n with
    | none =>
      rw [(pointers_of_find hfind).1]
      refine iff_of_false List.not_mem_nil fun hlink => ?_
      obtain ⟨-, type, hknown⟩ := h.linked p n hlink
      obtain ⟨node, hnode⟩ := h.find_of_known hknown
      rw [hfind] at hnode
      cases hnode
    | some node =>
      rw [(pointers_of_find hfind).1]
      exact h.prev n node hfind p
  · cases hfind : tensors.find p with
    | none =>
      rw [(pointers_of_find hfind).2]
      refine iff_of_false List.not_mem_nil fun hlink => ?_
      obtain ⟨⟨type, hknown⟩, -⟩ := h.linked p n hlink
      obtain ⟨node, hnode⟩ := h.find_of_known hknown
      rw [hfind] at hnode
      cases hnode
    | some node =>
      rw [(pointers_of_find hfind).2]
      exact h.next p node hfind n

/-- A turn of the loop over the next nodes. -/
theorem decides_visitNext (h : Represents known links tensors₀) {name prev : String}
    (hlink : links prev name) {s : TensorNodes × List String} (hsame : SameNodes tensors₀ s.1) :
    Decides Returned True
      (fun s' => SameNodes tensors₀ s'.1 ∧
        s'.1.state s'.2 = Worklist.look tensors₀.pointers (s.1.state s.2) name)
      (visitNext s name) := by
  obtain ⟨tensors, queue⟩ := s
  obtain ⟨-, type, hknown⟩ := h.linked prev name hlink
  obtain ⟨node, hfind, hprev, -⟩ := hsame.find_of_known h hknown
  have hmarked : (tensors.state queue).marked name = node.ready := by
    unfold TensorNodes.state
    dsimp only
    rw [hfind]
    rfl
  have hprevNodes : tensors₀.pointers.prev name = node.prevNodes := by
    rw [← hsame.pointers_eq, (pointers_of_find hfind).1]
    rfl
  have hupdate : (TensorNodes.state (tensors.insert name { node with ready := true })
      (queue ++ [name])) = { marked := Function.update (tensors.state queue).marked name true
                             queue := queue ++ [name] } := by
    have hfun : (TensorNodes.state (tensors.insert name { node with ready := true })
        (queue ++ [name])).marked = Function.update (tensors.state queue).marked name true := by
      funext name'
      rw [Function.update_apply]
      unfold TensorNodes.state
      dsimp only
      rw [find_insert_apply]
      split
      · rfl
      · rfl
    rw [← hfun]
    rfl
  unfold Worklist.look
  rw [hmarked, hprevNodes]
  refine (decides_secondOf hfind).bind_of trivial fun node' heq => ?_
  subst heq
  split
  · exact decides_pure ⟨hsame, rfl⟩
  · have hknown' : ∀ name' ∈ node'.prevNodes, ∃ type, known name' type :=
      fun name' hname' => (h.linked name' name ((hprev name').mp hname')).1
    refine (decides_allReady hsame h hknown').bind_of trivial fun ready hready => ?_
    have hall : node'.prevNodes.all (tensors.state queue).marked = ready := by
      rw [Bool.eq_iff_iff, List.all_eq_true, hready]
      exact forall₂_congr fun name' _ => marked_iff name'
    rw [hall]
    split
    · exact decides_pure ⟨hsame.insert hfind, hupdate⟩
    · exact decides_pure ⟨hsame, rfl⟩

/-- The loop over the queue ends, and exactly the least set is ready. -/
theorem decides_flowThrough (h : Represents known links tensors₀) {inputs : Set String}
    {nodes : Finset String} (hnodes : ∀ name type, known name type → name ∈ nodes) {turns : Nat}
    {queue : List String} (hsame : SameNodes tensors₀ tensors)
    (hflow : Worklist.Flowing links inputs (tensors.state queue) [])
    (hqueue : ∀ name ∈ queue, ∃ type, known name type)
    (hturns : Worklist.measure nodes (tensors.state queue) ≤ turns) :
    Decides Returned True
      (fun tensors => SameNodes tensors₀ tensors ∧
        IsLeast {t | Worklist.Closed links inputs t} {name | IsReady tensors name})
      (flowThrough turns tensors queue) := by
  have hends : ∀ tensors, SameNodes tensors₀ tensors →
      Worklist.Flowing links inputs (tensors.state []) [] →
      SameNodes tensors₀ tensors ∧
        IsLeast {t | Worklist.Closed links inputs t} {name | IsReady tensors name} := by
    intro tensors hsame hflow
    refine ⟨hsame, ?_⟩
    have hleast := hflow.isLeast rfl
    simp only [marked_iff] at hleast
    exact hleast
  induction turns generalizing tensors queue with
  | zero =>
    cases queue with
    | nil => exact decides_pure (hends tensors hsame hflow)
    | cons name rest => cases Nat.le_zero.mp (Nat.le_of_add_right_le hturns)
  | succ turns ih =>
    cases queue with
    | nil => exact decides_pure (hends tensors hsame hflow)
    | cons name rest =>
      obtain ⟨type, hknown⟩ := hqueue name List.mem_cons_self
      obtain ⟨node, hfind, -, hnext⟩ := hsame.find_of_known h hknown
      have hnext' : ∀ p, ∀ n ∈ tensors₀.pointers.next p, n ∈ nodes := by
        intro p n hn
        obtain ⟨-, type, hknown⟩ := h.linked p n ((h.hasEdges.next p n).mp hn)
        exact hnodes n type hknown
      have hturn : Worklist.turn tensors₀.pointers (tensors.state (name :: rest)) =
          node.nextNodes.foldl (Worklist.look tensors₀.pointers) (tensors.state rest) := by
        unfold Worklist.turn TensorNodes.state
        dsimp only
        rw [← hsame.pointers_eq, (pointers_of_find hfind).2]
        rfl
      refine (decides_secondOf hfind).bind_of trivial fun node' heq => ?_
      subst heq
      have hloop : Decides Returned (∀ name' ∈ node'.nextNodes, True)
          (fun s => SameNodes tensors₀ s.1 ∧ s.1.state s.2 =
            node'.nextNodes.foldl (Worklist.look tensors₀.pointers) (tensors.state rest))
          (node'.nextNodes.foldlM visitNext (tensors, rest)) :=
        Decides.foldlM_forall
          (I := fun (visited : List String) (s : TensorNodes × List String) =>
            SameNodes tensors₀ s.1 ∧ s.1.state s.2 =
              visited.foldl (Worklist.look tensors₀.pointers) (tensors.state rest))
          (fun visited name' s hname' hs =>
            (decides_visitNext h ((hnext name').mp hname') hs.1).imp Iff.rfl fun s' _ hs' => by
              rw [List.foldl_append, ← hs.2]
              exact hs')
          ⟨hsame, rfl⟩
      refine hloop.bind_of (fun _ _ => trivial) ?_
      rintro ⟨tensors', queue'⟩ ⟨hsame', hstate⟩
      rw [← hturn] at hstate
      refine ih hsame' (hstate ▸ hflow.turn h.hasEdges) (fun name' hname' => ?_) ?_
      · have hmem : name' ∈ (tensors'.state queue').queue := hname'
        rw [hstate, hturn] at hmem
        rcases Worklist.mem_queue_foldl_look hmem with hrest | hlooked
        · exact hqueue name' (List.mem_cons_of_mem name hrest)
        · exact (h.linked name name' ((hnext name').mp hlooked)).2
      · have hmeasure := Worklist.measure_turn hnext'
          (show (tensors.state (name :: rest)).queue ≠ [] from List.cons_ne_nil _ _)
        rw [hstate]
        exact Nat.le_of_succ_le_succ (Nat.le_trans (Nat.le_of_eq hmeasure) hturns)

/-- The loop over the queue behind the one over the inputs. -/
theorem decides_flowThrough_inputs (h : Represents known links tensors₀)
    (hinputs : ∀ name ∈ inputs, ∃ type, known name type) (hsame : SameNodes tensors₀ tensors)
    (hready : ∀ name, IsReady tensors name ↔ name ∈ inputs) :
    Decides Returned True
      (fun tensors => SameNodes tensors₀ tensors ∧
        IsLeast {t | Worklist.Closed links {name | name ∈ inputs} t} {name | IsReady tensors name})
      (flowThrough (inputs.length + tensors.entries.length) tensors inputs) := by
  have hflow : Worklist.Flowing links {name | name ∈ inputs} (tensors.state inputs) [] :=
    .start (fun name => (marked_iff name).trans (hready name)) fun _ hname => hname
  have hnodes : ∀ name type, known name type → name ∈ tensors.keys.toFinset := by
    intro name type hknown
    obtain ⟨node, hfind, -⟩ := hsame.find_of_known h hknown
    exact List.mem_toFinset.mpr ((mem_keys_iff tensors name).mpr (by rw [hfind]; rfl))
  exact decides_flowThrough h hnodes hsame hflow hinputs
    ((Worklist.measure_le _ _).trans (Nat.add_le_add_left (card_keys_le tensors) _))

/-- Data flows to the least set that the worklist finds. -/
theorem isLeast_flows (links : String → String → Prop) (inputs : List String) :
    IsLeast {t | Worklist.Closed links {name | name ∈ inputs} t}
      {name | Flows links inputs name} := by
  refine ⟨⟨fun _ hname => .input hname, fun _ _ hlink hall => .linked hlink hall⟩,
    fun t ht name hflows => ?_⟩
  induction hflows with
  | input mem => exact ht.inputs mem
  | linked link _ ih => exact ht.reached _ _ link ih

/-! ## The checks -/

theorem decides_checkEnsembleOutput (hsame : SameNodes tensors₀ tensors)
    (h : Represents known links tensors₀) (ensemble : String) {output : ModelOutput}
    {type : TensorType} (hknown : known output.name type) :
    Decides Returned (IsReady tensors output.name) (fun _ => True)
      (checkEnsembleOutput ensemble tensors output) := by
  refine (decides_isReady hsame h hknown).bind_of trivial fun ready hready => ?_
  rw [← hready]
  exact decides_ite_invalidArg fun _ => trivial

theorem decides_checkRedundant (ensemble : String) (config : ModelConfig)
    (tensor : Σ _ : String, TensorNode) :
    Decides Returned
      (tensor.1 ∉ config.outputNames → tensor.2.ready = true ∧ tensor.2.nextNodes ≠ [])
      (fun _ => True) (checkRedundant ensemble config tensor) := by
  unfold checkRedundant
  split
  · next hmem => exact .ok (fun hnot => absurd hmem hnot) trivial
  · next hnot =>
    split
    · next hunready =>
      exact decides_invalidArg fun hall => by simp [(hall hnot).1] at hunready
    · next hready =>
      split
      · next hlen =>
        exact decides_invalidArg fun hall => (hall hnot).2 (List.eq_nil_of_length_eq_zero hlen)
      · next hlen =>
        refine .ok (fun _ => ⟨by simpa using hready, fun hnil => hlen ?_⟩) trivial
        rw [hnil, List.length_nil]

/-- What the part behind the loop over the steps decides. -/
theorem decides_checkEnsembleFlow (order : IterationOrder String)
    (h : Represents known links tensors) (ensemble : String) (config : ModelConfig)
    (hinputs : ∀ name ∈ config.inputNames, ∃ type, known name type)
    (houtputs : ∀ name ∈ config.outputNames, ∃ type, known name type) :
    Decides Returned (FlowOk known links config) (fun _ => True)
      (checkEnsembleFlow order ensemble config tensors) := by
  refine (decides_markInputs h hinputs).bind_of trivial fun tensors₁ h₁ => ?_
  obtain ⟨hsame₁, hready₁⟩ := h₁
  have hloop := decides_flowThrough_inputs h hinputs hsame₁ hready₁
  rw [ModelConfig.inputNames, List.length_map] at hloop
  refine hloop.bind_of trivial fun tensors₂ h₂ => ?_
  obtain ⟨hsame₂, hleast⟩ := h₂
  have hready₂ : ∀ name, IsReady tensors₂ name ↔ Flows links config.inputNames name := fun name =>
    Set.ext_iff.mp (hleast.unique (isLeast_flows links config.inputNames)) name
  have hfirst : Decides Returned (∀ output ∈ config.output, IsReady tensors₂ output.name)
      (fun _ => True) (config.output.foldlM (fun _ output =>
        checkEnsembleOutput ensemble tensors₂ output) ()) :=
    .foldlM_forall (I := fun _ _ => True) (fun _ output _ houtput _ => by
      obtain ⟨type, hknown⟩ := houtputs output.name (List.mem_map_of_mem houtput)
      exact decides_checkEnsembleOutput hsame₂ h ensemble hknown) trivial
  have hsecond : Decides Returned (∀ tensor ∈ order.entries tensors₂,
      tensor.1 ∉ config.outputNames → tensor.2.ready = true ∧ tensor.2.nextNodes ≠ [])
      (fun _ => True) ((order.entries tensors₂).foldlM (fun _ tensor =>
        checkRedundant ensemble config tensor) ()) :=
    .foldlM_forall (I := fun _ _ => True) (fun _ tensor _ _ _ =>
      decides_checkRedundant ensemble config tensor) trivial
  have hnext : ∀ name node, tensors₂.find name = some node →
      ((∃ name', links name name') ↔ node.nextNodes ≠ []) := by
    intro name node hfind
    have hnext := h.next name _ ((hsame₂ name).symm.trans (by rw [hfind, Option.map_some]))
    constructor
    · rintro ⟨name', hlink⟩
      exact List.ne_nil_of_mem ((hnext name').mpr hlink)
    · intro hne
      obtain ⟨name', hmem⟩ := List.exists_mem_of_ne_nil _ hne
      exact ⟨name', (hnext name').mp hmem⟩
  refine (hfirst.bind fun _ _ _ => hsecond).congr ?_
  constructor
  · rintro ⟨hout, hused⟩
    refine ⟨fun name hname => ?_, fun name type hknown hnot => ?_⟩
    · obtain ⟨output, houtput, rfl⟩ := List.mem_map.mp hname
      exact (hready₂ _).mp (hout output houtput)
    · obtain ⟨node, hfind, -⟩ := hsame₂.find_of_known h hknown
      obtain ⟨hready, hne⟩ := hused ⟨name, node⟩ (order.mem_entries.mpr hfind) hnot
      exact ⟨(hready₂ name).mp ⟨node, hfind, hready⟩, (hnext name node hfind).mpr hne⟩
  · intro hok
    refine ⟨fun output houtput => ?_, fun tensor hmem hnot => ?_⟩
    · exact (hready₂ _).mpr (hok.outputs output.name (List.mem_map_of_mem houtput))
    · have hfind := order.mem_entries.mp hmem
      have hnode := (hsame₂ tensor.1).symm.trans (by rw [hfind, Option.map_some])
      obtain ⟨hflows, hlink⟩ := hok.used tensor.1 _ ((h.known_iff _ _).mp ⟨_, hnode, rfl⟩) hnot
      exact ⟨(isReady_iff hfind).mpr ((hready₂ tensor.1).mpr hflows),
        (hnext tensor.1 tensor.2 hfind).mp hlink⟩

end FinBert.Serving
