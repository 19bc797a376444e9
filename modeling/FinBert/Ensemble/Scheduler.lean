import FinBert.Ensemble.Model
import FinBert.Serving.EnsembleGraph
import Mathlib.Data.List.Forall2
import Mathlib.Data.List.Induction

/-!
# The constructor of the ensemble scheduler

`EnsembleScheduler::EnsembleScheduler` numbers the tensors of an ensemble: it reserves a slot
for each ensemble input and for each ensemble output, and gives every other name that a step
maps a slot of its own. A name that is both an input and an output keeps the slot of the
output: the slot of the input is read by no step.

Results:
1. `mapNames_spec`: what one map of a step does to the slots.
2. `wired_layout`: the slots of the ensemble inputs and outputs, what each step reads and
   writes, and the readers of each slot.
-/

namespace FinBert.Ensemble

open FinBert.Serving

/-- `name_to_idx`, and the maps of `EnsembleInfo`, under construction. -/
structure Layout where
  nameToIdx : UnorderedMap String Nat := ∅
  inputToTensor : UnorderedMap String Nat := ∅
  outputToTensor : UnorderedMap String Nat := ∅
  steps : List StepInfo := []
  tensorToStep : List (List Nat) := []

namespace Layout

/-- A slot that is added for a name. -/
def newSlot (l : Layout) (name : String) : Layout :=
  { l with
    nameToIdx := l.nameToIdx.insert name l.tensorToStep.length
    tensorToStep := l.tensorToStep ++ [[]] }

/-- The body of the loop over the ensemble inputs. -/
def addInput (l : Layout) (name : String) : Layout :=
  { l.newSlot name with inputToTensor := l.inputToTensor.insert name l.tensorToStep.length }

/-- The body of the loop over the ensemble outputs. -/
def addOutput (l : Layout) (name : String) : Layout :=
  { l.newSlot name with outputToTensor := l.outputToTensor.insert name l.tensorToStep.length }

/-- The slot of a name that a step maps. -/
def slot (l : Layout) (name : String) : Nat × Layout :=
  match l.nameToIdx.find name with
  | some idx => (idx, l)
  | none => (l.tensorToStep.length, l.newSlot name)

/-- The step is a reader of the slot. The loop over an output map has no reader to add. -/
def addReader (l : Layout) (idx : Nat) : Option Nat → Layout
  | some stepIdx =>
    { l with tensorToStep := l.tensorToStep.modify idx (EnsembleContext.setInsert stepIdx) }
  | none => l

/-- The loop over the input map of the step `reader`, or over an output map. -/
def mapNames (reader : Option Nat) : List (Σ _ : String, String) → UnorderedMap String Nat →
    Layout → UnorderedMap String Nat × Layout
  | [], toTensor, l => (toTensor, l)
  | ⟨key, name⟩ :: pairs, toTensor, l =>
    let (idx, l) := l.slot name
    -- the keys of a map of the configuration are distinct, so that `emplace` inserts
    mapNames reader pairs (toTensor.insert key idx) (l.addReader idx reader)

/-- The body of the loop over the steps. -/
def addStep (l : Layout) (element : EnsembleStep) : Layout :=
  let (inputToTensor, l) := mapNames (some l.steps.length) element.inputMap.entries ∅ l
  let (outputToTensor, l) := mapNames none element.outputMap.entries ∅ l
  { l with
    steps := l.steps ++
      [{ modelName := element.modelName
         modelVersion := element.modelVersion
         inputToTensor := inputToTensor
         outputToTensor := outputToTensor }] }

end Layout

/-- The loops of the constructor. -/
def layout (config : ModelConfig) : Layout :=
  config.step.foldl Layout.addStep <|
    config.outputNames.foldl Layout.addOutput <|
      config.inputNames.foldl Layout.addInput {}

namespace Layout

/-- The readers of a slot. -/
def readers (l : Layout) (idx : Nat) : List Nat := l.tensorToStep.getD idx []

/-! ## Slots -/

/-- The slots of two names differ, and exist. -/
structure Slots (l : Layout) : Prop where
  lt : ∀ name idx, l.nameToIdx.find name = some idx → idx < l.tensorToStep.length
  injective : ∀ name name' idx, l.nameToIdx.find name = some idx →
    l.nameToIdx.find name' = some idx → name = name'

/-- The layout `l'` has grown from `l` by mapping names. -/
structure Grown (l l' : Layout) : Prop where
  kept : ∀ name idx, l.nameToIdx.find name = some idx → l'.nameToIdx.find name = some idx
  fresh : ∀ name idx, l'.nameToIdx.find name = some idx →
    l.nameToIdx.find name = some idx ∨ l.tensorToStep.length ≤ idx
  length : l.tensorToStep.length ≤ l'.tensorToStep.length
  inputToTensor : l'.inputToTensor = l.inputToTensor
  outputToTensor : l'.outputToTensor = l.outputToTensor
  steps : l'.steps = l.steps

section
variable {l l' l'' : Layout}

theorem Grown.refl (l : Layout) : Grown l l :=
  ⟨fun _ _ h => h, fun _ _ h => .inl h, Nat.le_refl _, rfl, rfl, rfl⟩

theorem Grown.trans (h : Grown l l') (h' : Grown l' l'') : Grown l l'' where
  kept name idx hname := h'.kept name idx (h.kept name idx hname)
  fresh name idx hname :=
    (h'.fresh name idx hname).elim (h.fresh name idx) fun hle => .inr (h.length.trans hle)
  length := h.length.trans h'.length
  inputToTensor := h'.inputToTensor.trans h.inputToTensor
  outputToTensor := h'.outputToTensor.trans h.outputToTensor
  steps := h'.steps.trans h.steps

theorem find_newSlot (l : Layout) (name name' : String) :
    (l.newSlot name).nameToIdx.find name' =
      if name' = name then some l.tensorToStep.length else l.nameToIdx.find name' := by
  show UnorderedMap.find (AList.insert _ _ _) name' = _
  rw [UnorderedMap.find_insert_apply]

theorem length_newSlot (l : Layout) (name : String) :
    (l.newSlot name).tensorToStep.length = l.tensorToStep.length + 1 :=
  List.length_append

theorem readers_newSlot (l : Layout) (name : String) (idx : Nat) :
    (l.newSlot name).readers idx = l.readers idx := by
  unfold readers
  show (l.tensorToStep ++ [[]]).getD idx [] = _
  rw [List.getD_eq_getElem?_getD, List.getD_eq_getElem?_getD, List.getElem?_append]
  split
  · rfl
  · next hge =>
    rw [List.getElem?_eq_none (Nat.not_lt.mp hge)]
    cases idx - l.tensorToStep.length with
    | zero => rfl
    | succ n => rfl

/-- A slot that is added is the slot of no other name. -/
theorem Slots.newSlot (h : Slots l) (name : String) : Slots (l.newSlot name) := by
  refine ⟨fun name' idx hname => ?_, fun name₁ name₂ idx h₁ h₂ => ?_⟩
  · rw [find_newSlot] at hname
    rw [length_newSlot]
    split at hname
    · obtain rfl := Option.some.inj hname
      exact Nat.lt_succ_self _
    · exact Nat.lt_succ_of_lt (h.lt name' idx hname)
  · rw [find_newSlot] at h₁ h₂
    split at h₁
    · next heq =>
      obtain rfl := Option.some.inj h₁
      split at h₂
      · next heq' => rw [heq, heq']
      · exact absurd (h.lt name₂ _ h₂) (Nat.lt_irrefl _)
    · split at h₂
      · obtain rfl := Option.some.inj h₂
        exact absurd (h.lt name₁ _ h₁) (Nat.lt_irrefl _)
      · exact h.injective name₁ name₂ idx h₁ h₂

/-- What the slot of a name is. -/
structure SlotOf (l : Layout) (name : String) (idx : Nat) (l' : Layout) : Prop where
  slots : Slots l'
  grown : Grown l l'
  find : l'.nameToIdx.find name = some idx
  readers : ∀ idx', l'.readers idx' = l.readers idx'

theorem slot_spec (h : Slots l) {name : String} {idx : Nat} (hslot : l.slot name = (idx, l')) :
    SlotOf l name idx l' := by
  unfold slot at hslot
  split at hslot
  · next idx' hfind =>
    obtain ⟨rfl, rfl⟩ := Prod.mk.inj hslot
    exact ⟨h, .refl _, hfind, fun _ => rfl⟩
  · next hfind =>
    obtain ⟨rfl, rfl⟩ := Prod.mk.inj hslot
    refine ⟨h.newSlot name, ⟨fun name' idx' hname => ?_, fun name' idx' hname => ?_, ?_, rfl, rfl,
      rfl⟩, ?_, l.readers_newSlot name⟩
    · rw [find_newSlot, if_neg fun heq => ?_]
      · exact hname
      · rw [heq, hfind] at hname
        cases hname
    · rw [find_newSlot] at hname
      split at hname
      · exact .inr (Nat.le_of_eq (Option.some.inj hname))
      · exact .inl hname
    · rw [length_newSlot]
      exact Nat.le_succ _
    · rw [find_newSlot, if_pos rfl]

theorem mem_setInsert (idx idx' : Nat) (set : List Nat) :
    idx' ∈ EnsembleContext.setInsert idx set ↔ idx' = idx ∨ idx' ∈ set := by
  unfold EnsembleContext.setInsert
  split
  · next hmem => exact ⟨.inr, fun h => h.elim (fun heq => heq ▸ hmem) id⟩
  · rw [List.mem_orderedInsert]

theorem mem_readers_addReader {idx : Nat} (hidx : idx < l.tensorToStep.length)
    (reader : Option Nat) (idx' b : Nat) : b ∈ (l.addReader idx reader).readers idx' ↔
      b ∈ l.readers idx' ∨ reader = some b ∧ idx' = idx := by
  cases reader with
  | none => exact (or_iff_left fun h => nomatch h.1).symm
  | some stepIdx =>
    unfold readers addReader
    rw [List.getD_eq_getElem?_getD, List.getD_eq_getElem?_getD, List.getElem?_modify]
    split
    · next heq =>
      subst heq
      rw [List.getElem?_eq_getElem hidx, Option.some.injEq]
      show b ∈ EnsembleContext.setInsert stepIdx l.tensorToStep[idx] ↔ _ ∨ _
      rw [mem_setInsert, or_comm, and_iff_left rfl, eq_comm]
      exact Iff.rfl
    · next hne => rw [or_iff_left fun h => hne h.2.symm, id_map']

theorem Slots.addReader (h : Slots l) (idx : Nat) (reader : Option Nat) :
    Slots (l.addReader idx reader) := by
  cases reader with
  | none => exact h
  | some stepIdx =>
    refine ⟨fun name idx' hname => ?_, h.injective⟩
    show idx' < (l.tensorToStep.modify _ _).length
    rw [List.length_modify]
    exact h.lt name idx' hname

theorem grown_addReader (l : Layout) (idx : Nat) (reader : Option Nat) :
    Grown l (l.addReader idx reader) := by
  cases reader with
  | none => exact .refl l
  | some stepIdx =>
    exact ⟨fun _ _ h => h, fun _ _ h => .inl h, Nat.le_of_eq (List.length_modify ..).symm, rfl,
      rfl, rfl⟩

/-- What the loop over a map of a step does: every name has a slot then, the map leads from its
keys to the slots of its names, and the slots of an input map have one more reader. -/
structure Mapped (l : Layout) (reader : Option Nat) (pairs : List (Σ _ : String, String))
    (toTensor toTensor' : UnorderedMap String Nat) (l' : Layout) : Prop where
  slots : Slots l'
  grown : Grown l l'
  found : ∀ p ∈ pairs, ∃ idx, l'.nameToIdx.find p.2 = some idx
  find : ∀ key idx, toTensor'.find key = some idx ↔
    (∃ p ∈ pairs, p.1 = key ∧ l'.nameToIdx.find p.2 = some idx) ∨
      (∀ p ∈ pairs, p.1 ≠ key) ∧ toTensor.find key = some idx
  readers : ∀ idx b, b ∈ l'.readers idx ↔
    b ∈ l.readers idx ∨ reader = some b ∧ ∃ p ∈ pairs, l'.nameToIdx.find p.2 = some idx

theorem mapNames_spec {reader : Option Nat} {pairs : List (Σ _ : String, String)}
    {toTensor toTensor' : UnorderedMap String Nat} (hslots : Slots l)
    (hnodup : (pairs.map (·.1)).Nodup) (h : mapNames reader pairs toTensor l = (toTensor', l')) :
    Mapped l reader pairs toTensor toTensor' l' := by
  induction pairs generalizing toTensor l with
  | nil =>
    obtain ⟨rfl, rfl⟩ := Prod.mk.inj h
    refine ⟨hslots, .refl l, fun _ hp => absurd hp List.not_mem_nil, fun key idx => ?_,
      fun idx b => ?_⟩
    · simp
    · simp
  | cons pair pairs ih =>
    obtain ⟨key, name⟩ := pair
    rw [List.map_cons, List.nodup_cons] at hnodup
    unfold mapNames at h
    generalize hslot : l.slot name = slotted at h
    obtain ⟨idx₀, l₀⟩ := slotted
    obtain ⟨hslots₀, hgrown₀, hfind₀, hreaders₀⟩ := slot_spec hslots hslot
    have hmapped := ih (hslots₀.addReader idx₀ reader) hnodup.2 h
    have hgrown₁ := grown_addReader l₀ idx₀ reader
    have hname : l'.nameToIdx.find name = some idx₀ :=
      hmapped.grown.kept name idx₀ (hgrown₁.kept name idx₀ hfind₀)
    refine ⟨hmapped.slots, (hgrown₀.trans hgrown₁).trans hmapped.grown, fun p hp => ?_,
      fun key' idx => ?_, fun idx b => ?_⟩
    · rcases List.mem_cons.mp hp with rfl | hp
      · exact ⟨idx₀, hname⟩
      · exact hmapped.found p hp
    · rw [hmapped.find, UnorderedMap.find_insert_apply]
      constructor
      · rintro (⟨p, hp, hkey, hidx⟩ | ⟨hnot, hidx⟩)
        · exact .inl ⟨p, List.mem_cons_of_mem _ hp, hkey, hidx⟩
        · split at hidx
          · next heq => exact .inl ⟨⟨key, name⟩, List.mem_cons_self, heq.symm, hname.trans hidx⟩
          · next hne =>
            exact .inr ⟨List.forall_mem_cons.mpr ⟨fun heq => hne heq.symm, hnot⟩, hidx⟩
      · rintro (⟨p, hp, hkey, hidx⟩ | ⟨hnot, hidx⟩)
        · rcases List.mem_cons.mp hp with rfl | hp
          · refine .inr ⟨fun p' hp' heq => hnodup.1 ?_, ?_⟩
            · exact List.mem_map.mpr ⟨p', hp', heq.trans hkey.symm⟩
            · rw [if_pos hkey.symm]
              exact hname.symm.trans hidx
          · exact .inl ⟨p, hp, hkey, hidx⟩
        · rw [List.forall_mem_cons] at hnot
          refine .inr ⟨hnot.2, ?_⟩
          rw [if_neg fun heq => hnot.1 heq.symm]
          exact hidx
    · rw [hmapped.readers, mem_readers_addReader (hslots₀.lt name idx₀ hfind₀), hreaders₀, or_assoc,
        ← and_or_left]
      refine or_congr Iff.rfl (and_congr Iff.rfl ⟨?_, ?_⟩)
      · rintro (rfl | ⟨p, hp, hidx⟩)
        · exact ⟨_, List.mem_cons_self, hname⟩
        · exact ⟨p, List.mem_cons_of_mem _ hp, hidx⟩
      · rintro ⟨p, hp, hidx⟩
        rcases List.mem_cons.mp hp with rfl | hp
        · exact .inl (Option.some.inj (hidx.symm.trans hname))
        · exact .inr ⟨p, hp, hidx⟩

/-! ## The wiring -/

/-- A map of a step leads from its keys to the slots of its names. -/
structure MapsTo (nameToIdx : UnorderedMap String Nat) (names : UnorderedMap String String)
    (toTensor : UnorderedMap String Nat) : Prop where
  forward : ∀ key name, names.find key = some name →
    ∃ idx, nameToIdx.find name = some idx ∧ toTensor.find key = some idx
  backward : ∀ key idx, toTensor.find key = some idx →
    ∃ name, names.find key = some name ∧ nameToIdx.find name = some idx

theorem MapsTo.grown {names : UnorderedMap String String} {toTensor : UnorderedMap String Nat}
    (h : MapsTo l.nameToIdx names toTensor) (hgrown : Grown l l') :
    MapsTo l'.nameToIdx names toTensor where
  forward key name hname :=
    have ⟨idx, hidx, hkey⟩ := h.forward key name hname
    ⟨idx, hgrown.kept name idx hidx, hkey⟩
  backward key idx hkey :=
    have ⟨name, hname, hidx⟩ := h.backward key idx hkey
    ⟨name, hname, hgrown.kept name idx hidx⟩

/-- The loop over a whole map of a step. -/
theorem Mapped.mapsTo {reader : Option Nat} {names : UnorderedMap String String}
    {toTensor : UnorderedMap String Nat} (h : Mapped l reader names.entries ∅ toTensor l') :
    MapsTo l'.nameToIdx names toTensor := by
  refine ⟨fun key name hname => ?_, fun key idx hkey => ?_⟩
  · have hmem : (⟨key, name⟩ : Σ _ : String, String) ∈ names.entries :=
      AList.mem_lookup_iff.mp hname
    obtain ⟨idx, hidx⟩ := h.found _ hmem
    exact ⟨idx, hidx, (h.find key idx).mpr (.inl ⟨_, hmem, rfl, hidx⟩)⟩
  · rcases (h.find key idx).mp hkey with ⟨⟨_, name⟩, hmem, rfl, hidx⟩ | ⟨-, hempty⟩
    · exact ⟨name, AList.mem_lookup_iff.mpr hmem, hidx⟩
    · rw [UnorderedMap.find_empty] at hempty
      cases hempty

/-- What a step of the configuration has become. -/
structure StepWired (nameToIdx : UnorderedMap String Nat) (element : EnsembleStep)
    (info : StepInfo) : Prop where
  inputs : MapsTo nameToIdx element.inputMap info.inputToTensor
  outputs : MapsTo nameToIdx element.outputMap info.outputToTensor

theorem StepWired.grown {element : EnsembleStep} {info : StepInfo}
    (h : StepWired l.nameToIdx element info) (hgrown : Grown l l') :
    StepWired l'.nameToIdx element info :=
  ⟨h.inputs.grown hgrown, h.outputs.grown hgrown⟩

/-- The layout of the ensemble inputs and outputs and of the steps `done`. -/
structure Wired (inputs outputs : List String) (done : List EnsembleStep) (l : Layout) : Prop
    extends Slots l where
  inputSlot : ∀ name ∈ inputs, ∃ idx, l.inputToTensor.find name = some idx
  input : ∀ name idx, l.inputToTensor.find name = some idx →
    name ∈ inputs ∧ idx < l.tensorToStep.length ∧
      (name ∉ outputs → l.nameToIdx.find name = some idx) ∧
      (name ∈ outputs → ∀ name', l.nameToIdx.find name' ≠ some idx)
  outputSlot : ∀ name ∈ outputs, ∃ idx, l.outputToTensor.find name = some idx
  output : ∀ name idx, l.outputToTensor.find name = some idx →
    name ∈ outputs ∧ l.nameToIdx.find name = some idx
  steps : List.Forall₂ (StepWired l.nameToIdx) done l.steps
  readers : ∀ idx b, b ∈ l.readers idx ↔
    ∃ info, l.steps[b]? = some info ∧ ∃ key, info.inputToTensor.find key = some idx

theorem wired_empty : Wired [] [] [] {} where
  lt _ _ h := by
    rw [UnorderedMap.find_empty] at h
    cases h
  injective _ _ _ h := by
    rw [UnorderedMap.find_empty] at h
    cases h
  inputSlot _ h := absurd h List.not_mem_nil
  input _ _ h := by
    rw [UnorderedMap.find_empty] at h
    cases h
  outputSlot _ h := absurd h List.not_mem_nil
  output _ _ h := by
    rw [UnorderedMap.find_empty] at h
    cases h
  steps := .nil
  readers _ _ := iff_of_false List.not_mem_nil fun ⟨_, h, _⟩ => nomatch h

variable {inputs outputs : List String} {done : List EnsembleStep}

/-- Before the first step, the steps are wired to whatever slots there are. -/
theorem steps_of_done_nil (h : Wired inputs outputs [] l) (nameToIdx : UnorderedMap String Nat) :
    List.Forall₂ (StepWired nameToIdx) [] l.steps := by
  rw [List.forall₂_nil_left_iff.mp h.steps]
  exact .nil

theorem Wired.addInput (h : Wired inputs [] [] l) (name : String) :
    Wired (inputs ++ [name]) [] [] (l.addInput name) := by
  have hslots := h.toSlots.newSlot name
  have hfind : ∀ name', (l.addInput name).inputToTensor.find name' =
      if name' = name then some l.tensorToStep.length else l.inputToTensor.find name' :=
    UnorderedMap.find_insert_apply _ _ _
  refine ⟨⟨hslots.lt, hslots.injective⟩, UnorderedMap.find_insert_concat h.inputSlot _ _,
    fun name' idx hname' => ?_, fun _ hmem => absurd hmem List.not_mem_nil,
    fun name' idx hname' => ?_, steps_of_done_nil h _, fun idx b => ?_⟩
  · refine ⟨?_, ?_, fun _ => ?_, fun hmem => absurd hmem List.not_mem_nil⟩
    · rw [hfind] at hname'
      split at hname'
      · next heq => exact List.mem_append_right _ (List.mem_singleton.mpr heq)
      · exact List.mem_append_left _ (h.input name' idx hname').1
    · rw [hfind] at hname'
      show idx < (l.newSlot name).tensorToStep.length
      rw [length_newSlot]
      split at hname'
      · exact Nat.lt_succ_of_le (Nat.le_of_eq (Option.some.inj hname').symm)
      · exact Nat.lt_succ_of_lt (h.input name' idx hname').2.1
    · rw [hfind] at hname'
      show (l.newSlot name).nameToIdx.find name' = some idx
      rw [find_newSlot]
      split at hname'
      · next heq => rwa [if_pos heq]
      · next hne =>
        rw [if_neg hne]
        exact (h.input name' idx hname').2.2.1 List.not_mem_nil
  · exact absurd (h.output name' idx hname').1 List.not_mem_nil
  · show b ∈ (l.newSlot name).readers idx ↔ _
    rw [readers_newSlot]
    exact h.readers idx b

theorem Wired.addOutput (h : Wired inputs outputs [] l) (name : String) :
    Wired inputs (outputs ++ [name]) [] (l.addOutput name) := by
  have hslots := h.toSlots.newSlot name
  have hfind : ∀ name', (l.addOutput name).outputToTensor.find name' =
      if name' = name then some l.tensorToStep.length else l.outputToTensor.find name' :=
    UnorderedMap.find_insert_apply _ _ _
  refine ⟨⟨hslots.lt, hslots.injective⟩, h.inputSlot, fun name' idx hname' => ?_,
    UnorderedMap.find_insert_concat h.outputSlot _ _, fun name' idx hname' => ?_,
    steps_of_done_nil h _, fun idx b => ?_⟩
  · obtain ⟨hmem, hlt, hpure, hshared⟩ := h.input name' idx hname'
    refine ⟨hmem, ?_, fun hnot => ?_, fun hmem name'' hname'' => ?_⟩
    · show idx < (l.newSlot name).tensorToStep.length
      rw [length_newSlot]
      exact Nat.lt_succ_of_lt hlt
    · rw [List.mem_append, List.mem_singleton, not_or] at hnot
      show (l.newSlot name).nameToIdx.find name' = some idx
      rw [find_newSlot, if_neg hnot.2]
      exact hpure hnot.1
    · have hname'' : (l.newSlot name).nameToIdx.find name'' = some idx := hname''
      rw [find_newSlot] at hname''
      split at hname''
      · exact absurd hlt (Nat.not_lt.mpr (Nat.le_of_eq (Option.some.inj hname'')))
      · next hne =>
        -- the slot that the input had is not the slot of its name any more
        by_cases hout : name' ∈ outputs
        · exact hshared hout name'' hname''
        · obtain rfl := h.injective name'' name' idx hname'' (hpure hout)
          exact hne (List.mem_singleton.mp ((List.mem_append.mp hmem).resolve_left hout))
  · rw [hfind] at hname'
    show name' ∈ outputs ++ [name] ∧ (l.newSlot name).nameToIdx.find name' = some idx
    rw [find_newSlot]
    split at hname'
    · next heq =>
      rw [if_pos heq]
      exact ⟨List.mem_append_right _ (List.mem_singleton.mpr heq), hname'⟩
    · next hne =>
      rw [if_neg hne]
      obtain ⟨hmem, hidx⟩ := h.output name' idx hname'
      exact ⟨List.mem_append_left _ hmem, hidx⟩
  · show b ∈ (l.newSlot name).readers idx ↔ _
    rw [readers_newSlot]
    exact h.readers idx b

/-- The keys of a map of the configuration are distinct. -/
theorem nodup_keys (names : UnorderedMap String String) : (names.entries.map (·.1)).Nodup :=
  names.nodupKeys

theorem Wired.addStep (h : Wired inputs outputs done l) (element : EnsembleStep) :
    Wired inputs outputs (done ++ [element]) (l.addStep element) := by
  unfold Layout.addStep
  generalize hin : mapNames (some l.steps.length) element.inputMap.entries ∅ l = mapped
  obtain ⟨inputToTensor, l₁⟩ := mapped
  simp only
  generalize hout : mapNames none element.outputMap.entries ∅ l₁ = mapped
  obtain ⟨outputToTensor, l₂⟩ := mapped
  simp only
  have hinputs := mapNames_spec h.toSlots (nodup_keys element.inputMap) hin
  have houtputs := mapNames_spec hinputs.slots (nodup_keys element.outputMap) hout
  have hgrown : Grown l l₂ := hinputs.grown.trans houtputs.grown
  have hnew : StepWired l₂.nameToIdx element
      { modelName := element.modelName
        modelVersion := element.modelVersion
        inputToTensor := inputToTensor
        outputToTensor := outputToTensor } :=
    ⟨hinputs.mapsTo.grown houtputs.grown, houtputs.mapsTo⟩
  refine ⟨⟨houtputs.slots.lt, houtputs.slots.injective⟩, fun name hmem => ?_,
    fun name idx hname => ?_, fun name hmem => ?_, fun name idx hname => ?_, ?_, fun idx b => ?_⟩
  · rw [hgrown.inputToTensor]
    exact h.inputSlot name hmem
  · rw [hgrown.inputToTensor] at hname
    obtain ⟨hmem, hlt, hpure, hshared⟩ := h.input name idx hname
    refine ⟨hmem, hlt.trans_le hgrown.length, fun hnot => hgrown.kept name idx (hpure hnot),
      fun hout name' hname' => ?_⟩
    rcases hgrown.fresh name' idx hname' with hold | hle
    · exact hshared hout name' hold
    · exact absurd hlt (Nat.not_lt.mpr hle)
  · rw [hgrown.outputToTensor]
    exact h.outputSlot name hmem
  · rw [hgrown.outputToTensor] at hname
    obtain ⟨hmem, hidx⟩ := h.output name idx hname
    exact ⟨hmem, hgrown.kept name idx hidx⟩
  · rw [hgrown.steps]
    have hsteps : List.Forall₂ (StepWired l₂.nameToIdx) done l.steps :=
      h.steps.imp fun _ _ hstep => hstep.grown hgrown
    exact List.rel_append hsteps (.cons hnew .nil)
  · show b ∈ l₂.readers idx ↔ _
    rw [houtputs.readers, or_iff_left (fun h => nomatch h.1), hinputs.readers, h.readers,
      hgrown.steps]
    have hkeys : (∃ p ∈ element.inputMap.entries, l₁.nameToIdx.find p.2 = some idx) ↔
        ∃ key, inputToTensor.find key = some idx := by
      constructor
      · rintro ⟨p, hp, hidx⟩
        exact ⟨p.1, (hinputs.find p.1 idx).mpr (.inl ⟨p, hp, rfl, hidx⟩)⟩
      · rintro ⟨key, hkey⟩
        obtain ⟨name, hname, hidx⟩ := hinputs.mapsTo.backward key idx hkey
        exact ⟨⟨key, name⟩, AList.mem_lookup_iff.mp hname, hidx⟩
    rw [hkeys, Option.some.injEq]
    constructor
    · rintro (⟨info, hinfo, hkey⟩ | ⟨rfl, hkey⟩)
      · exact ⟨info, List.getElem?_append_left (List.getElem?_eq_some_iff.mp hinfo).1 ▸ hinfo, hkey⟩
      · exact ⟨_, List.getElem?_concat_length, hkey⟩
    · rintro ⟨info, hinfo, hkey⟩
      rw [List.getElem?_append] at hinfo
      split at hinfo
      · exact .inl ⟨info, hinfo, hkey⟩
      · next hge =>
        obtain ⟨hlt, rfl⟩ := List.getElem?_eq_some_iff.mp hinfo
        rw [List.length_singleton] at hlt
        exact .inr ⟨Nat.le_antisymm (Nat.not_lt.mp hge)
          (Nat.sub_eq_zero_iff_le.mp (Nat.lt_one_iff.mp hlt)), by simpa using hkey⟩

end

end Layout

/-- A fold keeps what holds of the elements that it has passed. -/
theorem foldl_induction {α β : Type} {P : List α → β → Prop} {f : β → α → β} {b : β}
    (base : P [] b) (step : ∀ done a b, P done b → P (done ++ [a]) (f b a)) (as : List α) :
    P as (as.foldl f b) := by
  induction as using List.reverseRecOn with
  | nil => exact base
  | append_singleton as a ih =>
    rw [List.foldl_append]
    exact step as a _ ih

/-- The layout of an ensemble. -/
theorem wired_layout (config : ModelConfig) :
    (layout config).Wired config.inputNames config.outputNames config.step := by
  have hinputs : (config.inputNames.foldl Layout.addInput {}).Wired config.inputNames [] [] :=
    foldl_induction (P := fun inputs (l : Layout) => l.Wired inputs [] []) Layout.wired_empty
      (fun _ name _ h => h.addInput name) _
  have houtputs := foldl_induction (P := fun outputs (l : Layout) =>
    l.Wired config.inputNames outputs []) hinputs (fun _ name _ h => h.addOutput name)
    config.outputNames
  exact foldl_induction
    (P := fun done (l : Layout) => l.Wired config.inputNames config.outputNames done)
    houtputs (fun _ element _ h => h.addStep element) config.step

/-! ## `EnsembleInfo` -/

section
variable {inputs outputs : List String} {done : List EnsembleStep} {l : Layout}

/-- The slots that a step reads and writes exist. -/
theorem Layout.Wired.steps_lt (h : l.Wired inputs outputs done) :
    ∀ step ∈ l.steps, ∀ p ∈ step.inputToTensor.entries ++ step.outputToTensor.entries,
      p.2 < l.tensorToStep.length := by
  intro step hstep p hp
  obtain ⟨i, hi⟩ := List.getElem?_of_mem hstep
  obtain ⟨hlt, rfl⟩ := List.getElem?_eq_some_iff.mp hi
  have hwired := h.steps.get (h.steps.length_eq ▸ hlt) hlt
  rcases List.mem_append.mp hp with hp | hp
  · obtain ⟨name, -, hidx⟩ := hwired.inputs.backward p.1 p.2 (AList.mem_lookup_iff.mpr hp)
    exact h.lt name p.2 hidx
  · obtain ⟨name, -, hidx⟩ := hwired.outputs.backward p.1 p.2 (AList.mem_lookup_iff.mpr hp)
    exact h.lt name p.2 hidx

/-- The readers of a slot exist. -/
theorem Layout.Wired.readers_lt (h : l.Wired inputs outputs done) :
    ∀ idxs ∈ l.tensorToStep, ∀ idx ∈ idxs, idx < l.steps.length := by
  intro idxs hidxs idx hidx
  obtain ⟨slot, hslot⟩ := List.getElem?_of_mem hidxs
  have hreader : idx ∈ l.readers slot := by
    unfold Layout.readers
    rwa [List.getD_eq_getElem?_getD, hslot]
  obtain ⟨info, hinfo, -⟩ := (h.readers slot idx).mp hreader
  exact (List.getElem?_eq_some_iff.mp hinfo).1

end

/-- `EnsembleScheduler::EnsembleScheduler`. -/
def ensembleInfo (config : ModelConfig) : EnsembleInfo where
  ensembleName := config.name
  allowBatching := config.maxBatchSize != 0
  ensembleInputToTensor := (layout config).inputToTensor
  ensembleOutputToTensor := (layout config).outputToTensor
  steps := (layout config).steps
  tensorToStep := (layout config).tensorToStep
  inputs_lt p hp := ((wired_layout config).input p.1 p.2 (AList.mem_lookup_iff.mpr hp)).2.1
  outputs_lt p hp := (wired_layout config).lt p.1 p.2
    ((wired_layout config).output p.1 p.2 (AList.mem_lookup_iff.mpr hp)).2
  steps_lt := (wired_layout config).steps_lt
  tensorToStep_lt := (wired_layout config).readers_lt

end FinBert.Ensemble
