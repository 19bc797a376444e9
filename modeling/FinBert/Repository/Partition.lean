import FinBert.Repository.Poll

/-!
# What Poll does to the models

`ModelRepositoryManager::Poll` with all of its variables: the four sets of its caller, which are
filled while the loop goes on, `new_infos`, and `infos_`, which only the swap at the end changes.
`poll` is what this comes to.

Results:
1. `runPoll_poll`: `Poll` comes to `poll`, and a failed one leaves `infos_`.
2. `pollChildren_sets`: the sets are parts of the subdirectories.
3. `runPoll_partitions`: a `Poll` fails without a change, or it partitions the models.
-/

namespace FinBert.Repository

open FinBert.Serving

/-! ## The variables of Poll -/

/-- The variables of `Poll`. -/
structure PollState where
  infos : ModelInfoMap
  changes : Changes := {}
  newInfos : ModelInfoMap := ∅

/-- `IsModified`, with the time that it leaves in `last_ns`. -/
def isModified (snapshot : Snapshot) (path : String) (lastNs : Int) : Bool × Int :=
  let repoNs := snapshot.modifiedTime path
  (decide (repoNs > lastNs), repoNs)

namespace PollState

/-- `new_infos.emplace` of a model that is there already. -/
def alreadyExists (child : String) : Status where
  code := .alreadyExists
  message := "unexpected model info for model '" ++ child ++ "'"

/-- The part of the loop for a model that needs to be loaded. -/
def loadModel (snapshot : Snapshot) (child : String) (mtimeNs : Int) (s : PollState) :
    Except Status Unit × PollState :=
  if (s.newInfos.find child).isSome then (.error (alreadyExists child), s)
  else
    let s := { s with
      newInfos := s.newInfos.insert child { mtimeNsec := mtimeNs, modelConfig := {} } }
    match loadInfo snapshot child mtimeNs with
    | .error status => (.error status, s)
    | .ok info => (.ok (), { s with newInfos := s.newInfos.insert child info })

/-- One turn of the loop over the subdirectories. -/
def turn (snapshot : Snapshot) (child : String) (s : PollState) :
    Except Status Unit × PollState :=
  match s.infos.find child with
  | none =>
    loadModel snapshot child (snapshot.modifiedTime child)
      { s with changes := { s.changes with added := s.changes.added ++ [child] } }
  | some info =>
    let (modified, mtimeNs) := isModified snapshot child info.mtimeNsec
    if modified then
      loadModel snapshot child mtimeNs
        { s with changes := { s.changes with modified := s.changes.modified ++ [child] } }
    else
      let s :=
        { s with changes := { s.changes with unmodified := s.changes.unmodified ++ [child] } }
      if (s.newInfos.find child).isSome then (.error (alreadyExists child), s)
      else (.ok (), { s with newInfos := s.newInfos.insert child info })

/-- The loop over the subdirectories. -/
def turns (snapshot : Snapshot) : List String → PollState → Except Status Unit × PollState
  | [], s => (.ok (), s)
  | child :: children, s =>
    match s.turn snapshot child with
    | (.error status, s) => (.error status, s)
    | (.ok (), s) => turns snapshot children s

/-- The names that were not met are deleted, and the new infos are swapped in. -/
def commit (s : PollState) : PollState where
  infos := s.newInfos
  changes := { s.changes with deleted := s.changes.deletedOf s.infos }
  newInfos := s.infos

end PollState

/-- `Poll`, with all of its variables. -/
def runPoll (infos : ModelInfoMap) (snapshot : Snapshot) : Except Status Unit × PollState :=
  match snapshot.subdirs with
  | .error status => (.error status, { infos := infos })
  | .ok subdirs =>
    match PollState.turns snapshot subdirs { infos := infos } with
    | (.error status, s) => (.error status, s)
    | (.ok (), s) => (.ok (), s.commit)

/-! ## Poll comes to `poll` -/

/-- A run that ends as the pure function says, with `infos_` as it was. -/
def Agrees (infos : ModelInfoMap) :
    Except Status (Changes × ModelInfoMap) → Except Status Unit × PollState → Prop
  | .error status, (result, s) => result = .error status ∧ s.infos = infos
  | .ok (changes, newInfos), (result, s) => result = .ok () ∧ s = { infos, changes, newInfos }

section
variable {infos infos' newInfos newInfos' : ModelInfoMap} {snapshot : Snapshot}
  {changes changes' : Changes} {child : String}

theorem agrees_loadModel (mtimeNs : Int) (changes : Changes) (newInfos : ModelInfoMap) :
    Agrees infos
      ((emplaceInfo newInfos child (loadInfo snapshot child mtimeNs)).map (changes, ·))
      (PollState.loadModel snapshot child mtimeNs { infos, changes, newInfos }) := by
  unfold emplaceInfo PollState.loadModel
  cases hold : (newInfos.find child).isSome with
  | true => exact ⟨rfl, rfl⟩
  | false =>
    rw [if_neg Bool.false_ne_true, if_neg Bool.false_ne_true]
    cases loadInfo snapshot child mtimeNs with
    | error status => exact ⟨rfl, rfl⟩
    | ok info => exact ⟨rfl, by rw [AList.insert_insert]⟩

/-- One turn of the loop. -/
theorem agrees_turn (changes : Changes) (newInfos : ModelInfoMap) :
    Agrees infos (pollChild infos snapshot child changes newInfos)
      (PollState.turn snapshot child { infos, changes, newInfos }) := by
  unfold pollChild PollState.turn isModified
  dsimp only
  cases infos.find child with
  | none => exact agrees_loadModel _ _ newInfos
  | some info =>
    by_cases hmtime : info.mtimeNsec < snapshot.modifiedTime child
    · simp only [if_pos hmtime, decide_eq_true (show snapshot.modifiedTime child > _ from hmtime),
        if_true]
      exact agrees_loadModel _ _ newInfos
    · simp only [if_neg hmtime,
        decide_eq_false (show ¬ snapshot.modifiedTime child > _ from hmtime), Bool.false_eq_true,
        if_false]
      unfold emplaceInfo
      cases hold : (newInfos.find child).isSome with
      | true => exact ⟨rfl, rfl⟩
      | false => exact ⟨rfl, rfl⟩

/-- The loop. -/
theorem agrees_turns (children : List String) (changes : Changes) (newInfos : ModelInfoMap) :
    Agrees infos (pollChildren infos snapshot children changes newInfos)
      (PollState.turns snapshot children { infos, changes, newInfos }) := by
  induction children generalizing changes newInfos with
  | nil => exact ⟨rfl, rfl⟩
  | cons child children ih =>
    have hturn := @agrees_turn infos snapshot child changes newInfos
    rw [pollChildren, PollState.turns]
    generalize PollState.turn snapshot child { infos, changes, newInfos } = run at hturn ⊢
    obtain ⟨result, s⟩ := run
    cases hchild : pollChild infos snapshot child changes newInfos with
    | error status =>
      rw [hchild] at hturn
      obtain ⟨rfl, hinfos⟩ := hturn
      exact ⟨rfl, hinfos⟩
    | ok next =>
      obtain ⟨changes', newInfos'⟩ := next
      rw [hchild] at hturn
      obtain ⟨rfl, rfl⟩ := hturn
      exact ih changes' newInfos'

/-- `Poll` comes to `poll`: a failed one leaves `infos_`, and one that succeeds swaps. -/
theorem runPoll_poll (infos : ModelInfoMap) (snapshot : Snapshot) :
    match poll infos snapshot with
    | .error status => ∃ s, runPoll infos snapshot = (.error status, s) ∧ s.infos = infos
    | .ok (changes, infos') =>
      runPoll infos snapshot = (.ok (), { infos := infos', changes, newInfos := infos }) := by
  unfold poll runPoll
  cases snapshot.subdirs with
  | error status => exact ⟨_, rfl, rfl⟩
  | ok subdirs =>
    have hturns := @agrees_turns infos snapshot subdirs {} ∅
    dsimp only
    generalize PollState.turns snapshot subdirs { infos := infos } = run at hturns ⊢
    obtain ⟨result, s⟩ := run
    cases hchildren : pollChildren infos snapshot subdirs {} ∅ with
    | error status =>
      rw [hchildren] at hturns
      obtain ⟨rfl, hinfos⟩ := hturns
      exact ⟨s, rfl, hinfos⟩
    | ok next =>
      rw [hchildren] at hturns
      obtain ⟨rfl, rfl⟩ := hturns
      rfl

/-! ## The sets -/

/-- The model is known, and its time has increased. -/
def Newer (infos : ModelInfoMap) (snapshot : Snapshot) (name : String) : Prop :=
  ∃ info, infos.find name = some info ∧ info.mtimeNsec < snapshot.modifiedTime name

/-- One turn of the loop that succeeds: the model is new, newer or neither. -/
theorem pollChild_cases
    (h : pollChild infos snapshot child changes newInfos = .ok (changes', newInfos')) :
    newInfos.find child = none ∧ ∃ info, newInfos' = newInfos.insert child info ∧
      ((infos.find child = none ∧
          changes' = { changes with added := changes.added ++ [child] }) ∨
        (Newer infos snapshot child ∧
          changes' = { changes with modified := changes.modified ++ [child] }) ∨
        (infos.find child = some info ∧ ¬ Newer infos snapshot child ∧
          changes' = { changes with unmodified := changes.unmodified ++ [child] })) := by
  unfold pollChild at h
  dsimp only at h
  split at h
  · next hnone =>
    obtain ⟨emplaced, hemplace, heq⟩ := ok_of_map h
    obtain ⟨hnew, info, -, rfl⟩ := emplaceInfo_ok hemplace
    obtain ⟨rfl, rfl⟩ := Prod.mk.inj heq
    exact ⟨hnew, info, rfl, .inl ⟨hnone, rfl⟩⟩
  · next old hold =>
    split at h
    · next hmtime =>
      obtain ⟨emplaced, hemplace, heq⟩ := ok_of_map h
      obtain ⟨hnew, info, -, rfl⟩ := emplaceInfo_ok hemplace
      obtain ⟨rfl, rfl⟩ := Prod.mk.inj heq
      exact ⟨hnew, info, rfl, .inr (.inl ⟨⟨old, hold, hmtime⟩, rfl⟩)⟩
    · next hmtime =>
      obtain ⟨emplaced, hemplace, heq⟩ := ok_of_map h
      obtain ⟨hnew, info, hinfo, rfl⟩ := emplaceInfo_ok hemplace
      obtain ⟨rfl, rfl⟩ := Prod.mk.inj heq
      obtain rfl := Except.ok.inj hinfo
      refine ⟨hnew, old, rfl, .inr (.inr ⟨hold, ?_, rfl⟩)⟩
      rintro ⟨info', hinfo', hmtime'⟩
      obtain rfl := Option.some.inj (hold.symm.trans hinfo')
      exact hmtime hmtime'

/-- What the loop adds to the sets, over these subdirectories, and what it keeps of `infos_`. -/
structure Sets (infos : ModelInfoMap) (snapshot : Snapshot) (children : List String)
    (changes changes' : Changes) (newInfos newInfos' : ModelInfoMap) : Prop where
  added : ∀ name, name ∈ changes'.added ↔
    name ∈ changes.added ∨ name ∈ children ∧ infos.find name = none
  modified : ∀ name, name ∈ changes'.modified ↔
    name ∈ changes.modified ∨ name ∈ children ∧ Newer infos snapshot name
  unmodified : ∀ name, name ∈ changes'.unmodified ↔
    name ∈ changes.unmodified ∨
      name ∈ children ∧ (infos.find name).isSome ∧ ¬ Newer infos snapshot name
  old : ∀ name info, newInfos.find name = some info → newInfos'.find name = some info
  kept : ∀ name ∈ children, (infos.find name).isSome → ¬ Newer infos snapshot name →
    newInfos'.find name = infos.find name

theorem Newer.isSome {name : String} (h : Newer infos snapshot name) :
    (infos.find name).isSome := by
  obtain ⟨info, hinfo, -⟩ := h
  rw [hinfo]
  rfl

/-- A set that gets the subdirectory. -/
theorem mem_concat_child {names : List String} {P : String → Prop} (hP : P child) (name : String) :
    name ∈ names ++ [child] ↔ name ∈ names ∨ name ∈ [child] ∧ P name := by
  rw [List.mem_append]
  exact or_congr_right (and_iff_left_of_imp fun hmem => List.mem_singleton.mp hmem ▸ hP).symm

/-- A set that does not get the subdirectory. -/
theorem mem_without_child {names : List String} {P : String → Prop} (hP : ¬ P child)
    (name : String) : name ∈ names ↔ name ∈ names ∨ name ∈ [child] ∧ P name :=
  (or_iff_left fun ⟨hmem, hname⟩ => hP (List.mem_singleton.mp hmem ▸ hname)).symm

/-- The step of the loop. -/
theorem sets_turn
    (h : pollChild infos snapshot child changes newInfos = .ok (changes', newInfos')) :
    Sets infos snapshot [child] changes changes' newInfos newInfos' := by
  obtain ⟨hnew, info, rfl, hcases⟩ := pollChild_cases h
  have hold (name : String) (info' : ModelInfo) (hfind : newInfos.find name = some info') :
      UnorderedMap.find (newInfos.insert child info) name = some info' := by
    rw [UnorderedMap.find_insert_apply, if_neg, hfind]
    rintro rfl
    rw [hnew] at hfind
    cases hfind
  have hself : UnorderedMap.find (newInfos.insert child info) child = some info := by
    rw [UnorderedMap.find_insert_apply, if_pos rfl]
  rcases hcases with ⟨hnone, rfl⟩ | ⟨hnewer, rfl⟩ | ⟨hsome, hnot, rfl⟩
  · have hunknown : ¬ (infos.find child).isSome = true := by
      rw [hnone]
      exact Bool.false_ne_true
    refine ⟨mem_concat_child hnone, mem_without_child fun hnewer => hunknown hnewer.isSome,
      mem_without_child fun hboth => hunknown hboth.1, hold, fun name hmem hsome => ?_⟩
    rw [List.mem_singleton.mp hmem] at hsome
    exact absurd hsome hunknown
  · have hknown : infos.find child ≠ none := fun hnone => by
      simpa [hnone] using hnewer.isSome
    refine ⟨mem_without_child hknown, mem_concat_child hnewer,
      mem_without_child fun hboth => hboth.2 hnewer, hold, fun name hmem _ hnot => ?_⟩
    rw [List.mem_singleton.mp hmem] at hnot
    exact absurd hnewer hnot
  · have hknown : infos.find child ≠ none := fun hnone => by
      rw [hsome] at hnone
      cases hnone
    refine ⟨mem_without_child hknown, mem_without_child hnot, mem_concat_child ⟨?_, hnot⟩, hold,
      fun name hmem _ _ => ?_⟩
    · rw [hsome]
      rfl
    · rw [List.mem_singleton.mp hmem, hself, hsome]

/-- The sets are parts of the subdirectories. -/
theorem pollChildren_sets {children : List String}
    (h : pollChildren infos snapshot children changes newInfos = .ok (changes', newInfos')) :
    Sets infos snapshot children changes changes' newInfos newInfos' := by
  induction children generalizing changes newInfos with
  | nil =>
    obtain ⟨rfl, rfl⟩ := Prod.mk.inj (Except.ok.inj h)
    exact ⟨fun _ => by simp, fun _ => by simp, fun _ => by simp, fun _ _ h => h,
      fun _ hmem => absurd hmem List.not_mem_nil⟩
  | cons child children ih =>
    rw [pollChildren] at h
    split at h
    · cases h
    · next changes₁ newInfos₁ hchild =>
      have hturn := sets_turn hchild
      have hrest := ih h
      refine ⟨fun name => ?_, fun name => ?_, fun name => ?_, fun name info hfind => ?_, ?_⟩
      · rw [hrest.added, hturn.added, List.mem_singleton, List.mem_cons, or_and_right, or_assoc]
      · rw [hrest.modified, hturn.modified, List.mem_singleton, List.mem_cons, or_and_right,
          or_assoc]
      · rw [hrest.unmodified, hturn.unmodified, List.mem_singleton, List.mem_cons, or_and_right,
          or_assoc]
      · exact hrest.old name info (hturn.old name info hfind)
      · intro name hmem hsome hnot
        rcases List.mem_cons.mp hmem with rfl | hmem
        · obtain ⟨info, hinfo⟩ := Option.isSome_iff_exists.mp hsome
          have hkept := hturn.kept name (List.mem_singleton.mpr rfl) hsome hnot
          rw [hinfo] at hkept ⊢
          exact hrest.old name info hkept
        · exact hrest.kept name hmem hsome hnot

/-! ## The partition -/

/-- What a `Poll` that succeeds has found, over these subdirectories. -/
structure Partitions (infos : ModelInfoMap) (snapshot : Snapshot) (subdirs : List String)
    (changes : Changes) (infos' : ModelInfoMap) : Prop where
  disjoint : (changes.added ++ changes.modified ++ changes.unmodified ++ changes.deleted).Nodup
  union : ∀ name, name ∈ changes.added ++ changes.modified ++ changes.unmodified ++
    changes.deleted ↔ name ∈ infos ∨ name ∈ subdirs
  added : ∀ name, name ∈ changes.added ↔ name ∈ subdirs ∧ name ∉ infos
  deleted : ∀ name, name ∈ changes.deleted ↔ name ∈ infos ∧ name ∉ subdirs
  modified : ∀ name, name ∈ changes.modified ↔ name ∈ subdirs ∧ Newer infos snapshot name
  keys : ∀ name, name ∈ infos' ↔ name ∈ subdirs
  kept : ∀ name ∈ changes.unmodified, infos'.find name = infos.find name

theorem notMem_iff_find {infos : ModelInfoMap} {name : String} :
    name ∉ infos ↔ infos.find name = none := by
  rw [← AList.lookup_isSome, UnorderedMap.find, Bool.not_eq_true, Option.isSome_eq_false_iff,
    Option.isNone_iff_eq_none]

theorem mem_deletedOf {name : String} : name ∈ changes.deletedOf infos ↔
    name ∈ infos ∧ name ∉ changes.added ++ changes.modified ++ changes.unmodified := by
  unfold Changes.deletedOf
  rw [(List.perm_insertionSort _ _).mem_iff, List.mem_filter, decide_eq_true_eq, AList.mem_keys]
  simp only [List.mem_append, not_or, and_assoc]

theorem poll_partitions (h : poll infos snapshot = .ok (changes, infos')) :
    ∃ subdirs, snapshot.subdirs = .ok subdirs ∧
      Partitions infos snapshot subdirs changes infos' := by
  obtain ⟨subdirs, hsubdirs, -, hcollected, hmet, hreported⟩ := poll_spec h
  refine ⟨subdirs, hsubdirs, ?_⟩
  unfold poll at h
  rw [hsubdirs] at h
  obtain ⟨⟨changes₁, newInfos⟩, hchildren, heq⟩ := ok_of_map h
  obtain ⟨rfl, rfl⟩ := Prod.mk.inj heq
  have hsets := pollChildren_sets hchildren
  have hdeleted (name : String) : name ∈ changes₁.deletedOf infos ↔
      name ∈ infos ∧ name ∉ subdirs := by
    rw [mem_deletedOf, ← hmet name]
    rfl
  refine ⟨?_, fun name => ?_, fun name => ?_, hdeleted, fun name => ?_, fun name => ?_, ?_⟩
  · refine List.nodup_append.mpr ⟨hcollected.nodup, ?_, ?_⟩
    · exact (List.nodup_append.mp hreported).2.1
    · rintro name hname name' hname' rfl
      exact ((hdeleted name).mp hname').2 ((hmet name).mp hname)
  · rw [List.mem_append, hdeleted name]
    refine (or_congr_left (hmet name)).trans ?_
    tauto
  · rw [hsets.added name, notMem_iff_find]
    exact or_iff_right List.not_mem_nil
  · rw [hsets.modified name]
    exact or_iff_right List.not_mem_nil
  · rw [← hmet name, hcollected.infos name, ← AList.lookup_isSome]
    rfl
  · intro name hname
    obtain ⟨hmem, hsome, hnot⟩ :=
      ((hsets.unmodified name).mp hname).resolve_left List.not_mem_nil
    exact hsets.kept name hmem hsome hnot

/-- A `Poll` that fails leaves `infos_` as it is. One that succeeds partitions the models that
were known and the subdirectories, and leaves the subdirectories in `infos_`. -/
theorem runPoll_partitions (infos : ModelInfoMap) (snapshot : Snapshot) :
    match runPoll infos snapshot with
    | (.error _, s) => s.infos = infos
    | (.ok (), s) =>
      ∃ subdirs, snapshot.subdirs = .ok subdirs ∧
        Partitions infos snapshot subdirs s.changes s.infos := by
  have hrun := runPoll_poll infos snapshot
  cases hpoll : poll infos snapshot with
  | error status =>
    rw [hpoll] at hrun
    obtain ⟨s, hrun, hinfos⟩ := hrun
    rw [hrun]
    exact hinfos
  | ok next =>
    obtain ⟨changes, infos'⟩ := next
    rw [hpoll] at hrun
    rw [hrun]
    exact poll_partitions hpoll

end

end FinBert.Repository
