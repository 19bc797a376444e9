import FinBert.Repository.Manager

/-!
# What a failed round loses

`Poll` swaps in the new `infos_` when it succeeds, before `PollAndUpdate` has acted on any of the
changes. What stands in `infos_` is compared with the repository in the next round, so that no
change is found twice, whether it was acted on or not.

Results:
1. `pollChildren_spec`: what `Poll` collects.
2. `poll_again`: over the same repository, a second `Poll` succeeds and reports nothing.
3. `exists_lost`: a round that fails behind `Poll` leaves a reported model without `AsyncLoad`.
4. `not_reportsAgain`: every such round loses a change.
-/

namespace FinBert.Repository

open FinBert.Serving

/-- The models that `Poll` reports as changed. -/
def Changes.reported (changes : Changes) : List String :=
  changes.added ++ changes.modified ++ changes.deleted

/-- The models whose directories `Poll` has met. -/
def Changes.met (changes : Changes) : List String :=
  changes.added ++ changes.modified ++ changes.unmodified

/-- What a round owes that fails behind its `Poll`: the next `Poll` that succeeds reports every
model again for which there was no `AsyncLoad`, also if the repository stays as it is. -/
def ReportsAgain (snapshot : Snapshot) (changes : Changes) (calls : List LoadCall)
    (infos : ModelInfoMap) : Prop :=
  ∀ name ∈ changes.reported, (∀ call ∈ calls, call.name ≠ name) →
    ∀ changes' infos', poll infos snapshot = .ok (changes', infos') → name ∈ changes'.reported

/-! ## Poll -/

/-- What the loop of `Poll` has collected. -/
structure Collected (snapshot : Snapshot) (changes : Changes) (newInfos : ModelInfoMap) :
    Prop where
  nodup : changes.met.Nodup
  infos : ∀ name, name ∈ changes.met ↔ (newInfos.find name).isSome
  mtime : ∀ name info, newInfos.find name = some info →
    snapshot.modifiedTime name ≤ info.mtimeNsec

section
variable {infos newInfos newInfos' : ModelInfoMap} {snapshot : Snapshot}
  {changes changes' : Changes} {child : String}

theorem emplaceInfo_ok {info : Except Status ModelInfo}
    (h : emplaceInfo newInfos child info = .ok newInfos') :
    newInfos.find child = none ∧
      ∃ info', info = .ok info' ∧ newInfos' = newInfos.insert child info' := by
  unfold emplaceInfo at h
  split at h
  · cases h
  · next hnew =>
    refine ⟨Option.not_isSome_iff_eq_none.mp hnew, ?_⟩
    cases info with
    | error status => cases h
    | ok info' => exact ⟨info', rfl, (Except.ok.inj h).symm⟩

theorem loadInfo_ok {mtime : Int} {info : ModelInfo}
    (h : loadInfo snapshot child mtime = .ok info) :
    info.mtimeNsec = mtime ∧ info.modelConfig.name = child := by
  unfold loadInfo at h
  split at h
  · cases h
  split at h
  · cases h
  simp only at h
  split at h
  · cases h
  split at h
  · cases h
  · next hname =>
    cases h
    exact ⟨rfl, Decidable.not_not.mp hname⟩

theorem ok_of_map {α β ε : Type} {f : α → β} {x : Except ε α} {y : β} (h : x.map f = .ok y) :
    ∃ z, x = .ok z ∧ f z = y := by
  cases x with
  | error e => cases h
  | ok z => exact ⟨z, rfl, Except.ok.inj h⟩

/-- One turn of the loop. -/
theorem pollChild_ok
    (h : pollChild infos snapshot child changes newInfos = .ok (changes', newInfos')) :
    newInfos.find child = none ∧ changes'.met.Perm (child :: changes.met) ∧
      ∃ info, newInfos' = newInfos.insert child info ∧
        snapshot.modifiedTime child ≤ info.mtimeNsec ∧
        (info.modelConfig.name = child ∨ infos.find child = some info) := by
  unfold pollChild at h
  simp only at h
  unfold Changes.met
  split at h
  · obtain ⟨emplaced, hemplace, heq⟩ := ok_of_map h
    obtain ⟨hnew, info, hload, hinsert⟩ := emplaceInfo_ok hemplace
    cases heq
    refine ⟨hnew, ?_, info, hinsert, (loadInfo_ok hload).1.ge, .inl (loadInfo_ok hload).2⟩
    simp only [List.append_assoc, List.singleton_append]
    exact List.perm_middle
  split at h
  · obtain ⟨emplaced, hemplace, heq⟩ := ok_of_map h
    obtain ⟨hnew, info, hload, hinsert⟩ := emplaceInfo_ok hemplace
    cases heq
    refine ⟨hnew, ?_, info, hinsert, (loadInfo_ok hload).1.ge, .inl (loadInfo_ok hload).2⟩
    simp only [← List.append_assoc]
    rw [List.append_assoc _ [child], List.singleton_append]
    exact List.perm_middle
  · next info hinfo hmtime =>
    obtain ⟨emplaced, hemplace, heq⟩ := ok_of_map h
    obtain ⟨hnew, info', hload, hinsert⟩ := emplaceInfo_ok hemplace
    cases hload
    cases heq
    refine ⟨hnew, ?_, info, hinsert, Int.not_lt.mp hmtime, .inr hinfo⟩
    rw [← List.append_assoc]
    exact List.perm_append_singleton child _

/-- A model that is met is collected. -/
theorem Collected.insert (h : Collected snapshot changes newInfos)
    (hnew : newInfos.find child = none) (hmet : changes'.met.Perm (child :: changes.met))
    {info : ModelInfo} (hmtime : snapshot.modifiedTime child ≤ info.mtimeNsec) :
    Collected snapshot changes' (newInfos.insert child info) where
  nodup := by
    rw [hmet.nodup_iff, List.nodup_cons]
    exact ⟨fun hmem => by simpa [hnew] using (h.infos child).mp hmem, h.nodup⟩
  infos name := by
    rw [hmet.mem_iff, List.mem_cons, UnorderedMap.find_insert_apply, h.infos name]
    split
    · next heq => exact iff_of_true (.inl heq) rfl
    · next hne => exact or_iff_right hne
  mtime name info' hfind := by
    rw [UnorderedMap.find_insert_apply] at hfind
    split at hfind
    · next heq =>
      cases hfind
      exact heq ▸ hmtime
    · exact h.mtime name info' hfind

/-- What the loop of `Poll` has met. -/
theorem pollChildren_spec {children : List String}
    (hcollected : Collected snapshot changes newInfos)
    (h : pollChildren infos snapshot children changes newInfos = .ok (changes', newInfos')) :
    Collected snapshot changes' newInfos' ∧
      changes'.met.Perm (children.reverse ++ changes.met) := by
  induction children generalizing changes newInfos with
  | nil =>
    cases h
    exact ⟨hcollected, .refl _⟩
  | cons child children ih =>
    rw [pollChildren] at h
    split at h
    · cases h
    · next changes₁ newInfos₁ hchild =>
      obtain ⟨hnew, hmet, info, rfl, hmtime, -⟩ := pollChild_ok hchild
      obtain ⟨hcollected', hmet'⟩ := ih (hcollected.insert hnew hmet hmtime) h
      refine ⟨hcollected', hmet'.trans ?_⟩
      rw [List.reverse_cons, List.append_assoc]
      exact hmet.append_left _

theorem collected_nil : Collected snapshot {} ∅ where
  nodup := List.nodup_nil
  infos name := by simp [Changes.met]
  mtime name info h := by simp at h

/-- What `Poll` reports, and what it leaves in `infos_`. -/
theorem poll_spec (h : poll infos snapshot = .ok (changes, newInfos)) :
    ∃ subdirs, snapshot.subdirs = .ok subdirs ∧ subdirs.Nodup ∧
      Collected snapshot changes newInfos ∧ (∀ name, name ∈ changes.met ↔ name ∈ subdirs) ∧
      changes.reported.Nodup := by
  unfold poll at h
  split at h
  · cases h
  · next subdirs hsubdirs =>
    obtain ⟨⟨collected, newInfos'⟩, hchildren, heq⟩ := ok_of_map h
    cases heq
    obtain ⟨hcollected, hmet⟩ := pollChildren_spec collected_nil hchildren
    rw [show Changes.met {} = [] from rfl, List.append_nil] at hmet
    refine ⟨subdirs, hsubdirs, ?_, ⟨hcollected.nodup, hcollected.infos, hcollected.mtime⟩,
      fun name => (hmet.mem_iff (a := name)).trans List.mem_reverse, ?_⟩
    · exact List.nodup_reverse.mp (hmet.nodup_iff.mp hcollected.nodup)
    · have hnodup := (List.nodup_append.mp hcollected.nodup).1
      refine List.nodup_append.mpr ⟨hnodup, ?_, ?_⟩
      · exact (List.perm_insertionSort _ _).nodup_iff.mpr
          (List.Nodup.filter _ (AList.keys_nodup infos))
      · rintro name hmem name' hdeleted rfl
        have hnot := List.of_mem_filter ((List.perm_insertionSort _ _).mem_iff.mp hdeleted)
        simp only [decide_eq_true_eq] at hnot
        rcases List.mem_append.mp hmem with hadded | hmodified
        · exact hnot.1 hadded
        · exact hnot.2.1 hmodified

/-! ## The next Poll -/

/-- Models that are known and not newer are unmodified. -/
theorem pollChildren_known (changes : Changes) (newInfos : ModelInfoMap)
    {children : List String} (hnodup : children.Nodup)
    (hknown : ∀ child ∈ children, ∃ info, infos.find child = some info ∧
      snapshot.modifiedTime child ≤ info.mtimeNsec)
    (hnew : ∀ child ∈ children, newInfos.find child = none) :
    ∃ newInfos', pollChildren infos snapshot children changes newInfos =
      .ok ({ changes with unmodified := changes.unmodified ++ children }, newInfos') := by
  induction children generalizing changes newInfos with
  | nil => exact ⟨newInfos, by rw [pollChildren, List.append_nil]⟩
  | cons child children ih =>
    rw [List.nodup_cons] at hnodup
    rw [List.forall_mem_cons] at hknown hnew
    obtain ⟨⟨info, hinfo, hmtime⟩, hknown⟩ := hknown
    have hchild : pollChild infos snapshot child changes newInfos =
        .ok ({ changes with unmodified := changes.unmodified ++ [child] },
          newInfos.insert child info) := by
      unfold pollChild emplaceInfo
      simp only [hinfo, hnew.1, if_neg (Int.not_lt.mpr hmtime)]
      rfl
    have hnew' (child' : String) (hmem : child' ∈ children) :
        UnorderedMap.find (newInfos.insert child info) child' = none := by
      rw [UnorderedMap.find_insert_apply, if_neg]
      · exact hnew.2 child' hmem
      · rintro rfl
        exact hnodup.1 hmem
    obtain ⟨newInfos', hrest⟩ :=
      ih { changes with unmodified := changes.unmodified ++ [child] } _ hnodup.2 hknown hnew'
    refine ⟨newInfos', ?_⟩
    rw [pollChildren, hchild]
    simp only [hrest, List.append_assoc, List.singleton_append]

/-- Over the same repository, a second `Poll` reports nothing. -/
theorem poll_again (h : poll infos snapshot = .ok (changes, newInfos)) :
    ∃ changes' infos', poll newInfos snapshot = .ok (changes', infos') ∧
      changes'.reported = [] := by
  obtain ⟨subdirs, hsubdirs, hnodup, hcollected, hmet, -⟩ := poll_spec h
  have hknown (child : String) (hmem : child ∈ subdirs) :
      ∃ info, newInfos.find child = some info ∧
        snapshot.modifiedTime child ≤ info.mtimeNsec := by
    obtain ⟨info, hinfo⟩ := Option.isSome_iff_exists.mp
      ((hcollected.infos child).mp ((hmet child).mpr hmem))
    exact ⟨info, hinfo, hcollected.mtime child info hinfo⟩
  obtain ⟨infos', hchildren⟩ := pollChildren_known {} ∅ hnodup hknown fun _ _ => by
    rw [UnorderedMap.find_empty]
  have hdeleted : Changes.deletedOf { unmodified := subdirs } newInfos = [] := by
    have hnone : newInfos.keys.filter (fun name => decide
        (name ∉ ([] : List String) ∧ name ∉ ([] : List String) ∧ name ∉ subdirs)) = [] := by
      rw [List.filter_eq_nil_iff]
      intro name hmem hnot
      have hsome := (UnorderedMap.mem_keys_iff newInfos name).mp hmem
      exact (of_decide_eq_true hnot).2.2 ((hmet name).mp ((hcollected.infos name).mpr hsome))
    exact congrArg (List.insertionSort (· ≤ ·)) hnone
  refine ⟨{ unmodified := subdirs,
            deleted := Changes.deletedOf { unmodified := subdirs } newInfos },
    infos', ?_, hdeleted⟩
  unfold poll
  rw [hsubdirs]
  simp only [hchildren]
  rfl

end

/-! ## A failed round -/

section
variable {m m' : ModelRepositoryManager}

/-- The call is one for the model, and `infos_` stays as it is. -/
theorem update_spec {subdirs : Except Status (List String)} {change : Change} {name : String}
    {result : Except Failure LoadCall} (h : m.update subdirs change name = (m', result)) :
    m'.infos = m.infos ∧ ∀ call, result = .ok call → call.name = name := by
  unfold ModelRepositoryManager.update at h
  split at h
  · cases h
    refine ⟨rfl, fun call hcall => ?_⟩
    cases hcall
    rfl
  split at h
  · cases h
    exact ⟨rfl, by rintro _ ⟨⟩⟩
  split at h
  · cases h
    exact ⟨rfl, by rintro _ ⟨⟩⟩
  · cases h
    refine ⟨rfl, fun call hcall => ?_⟩
    obtain ⟨versions, -, rfl⟩ := ok_of_map hcall
    rfl

/-- Loops that fail have called `AsyncLoad` for the models in front of the one where they fail. -/
theorem updates_failed {dirs : String → Except Status (List String)}
    {work : List (Change × String)} {calls : List LoadCall} {failure : Failure}
    (h : m.updates dirs work = (m', calls, .error failure)) :
    m'.infos = m.infos ∧ ∃ before item after, work = before ++ item :: after ∧
      calls.map (·.name) = before.map Prod.snd := by
  induction work generalizing m calls with
  | nil => cases h
  | cons item work ih =>
    obtain ⟨change, name⟩ := item
    unfold ModelRepositoryManager.updates at h
    split at h
    · next m₁ failure' hupdate =>
      cases h
      exact ⟨(update_spec hupdate).1, [], (change, name), work, rfl, rfl⟩
    · next m₁ call hupdate =>
      generalize hrest : m₁.updates dirs work = rest at h
      obtain ⟨m₂, calls', result⟩ := rest
      cases h
      obtain ⟨hinfos, hcall⟩ := update_spec hupdate
      obtain ⟨hinfos', before, item, after, rfl, hcalls⟩ := ih hrest
      refine ⟨hinfos'.trans hinfos, (change, name) :: before, item, after, rfl, ?_⟩
      rw [List.map_cons, List.map_cons, hcalls, hcall call rfl]

theorem map_work (changes : Changes) : changes.work.map Prod.snd = changes.reported := by
  unfold Changes.work Changes.reported
  simp only [List.map_append, List.map_map]
  congr 1
  · congr 1
    · exact List.map_id _
    · exact List.map_id _
  · exact List.map_id _

/-- A round that fails behind its `Poll` has issued no `AsyncLoad` for one of the models. -/
theorem exists_lost {snapshot : Snapshot} {dirs : String → Except Status (List String)}
    {changes : Changes} {infos : ModelInfoMap} {calls : List LoadCall} {failure : Failure}
    (hpolling : m.pollingEnabled = true) (hpoll : poll m.infos snapshot = .ok (changes, infos))
    (hfailed : m.pollAndUpdate snapshot dirs = (m', calls, .error failure)) :
    m'.infos = infos ∧ ∃ name ∈ changes.reported, ∀ call ∈ calls, call.name ≠ name := by
  obtain ⟨-, -, -, -, -, hnodup⟩ := poll_spec hpoll
  unfold ModelRepositoryManager.pollAndUpdate at hfailed
  simp only [hpolling, hpoll, Bool.not_true, Bool.false_eq_true, if_false] at hfailed
  split at hfailed
  · cases hfailed
  · obtain ⟨hinfos, before, item, after, hwork, hcalls⟩ := updates_failed hfailed
    refine ⟨hinfos, item.2, ?_, fun call hmem heq => ?_⟩
    · rw [← map_work, hwork]
      simp
    · rw [← map_work, hwork, List.map_append, List.map_cons] at hnodup
      have hbefore : item.2 ∈ before.map Prod.snd := by
        rw [← hcalls, ← heq]
        exact List.mem_map_of_mem hmem
      exact (List.nodup_append.mp hnodup).2.2 item.2 hbefore item.2 List.mem_cons_self rfl

/-- A round that fails behind its `Poll` loses a change: there is a model for which it has issued
no `AsyncLoad`, and which the next `Poll` over the same repository does not report. -/
theorem not_reportsAgain (m : ModelRepositoryManager) (snapshot : Snapshot)
    (dirs : String → Except Status (List String)) (changes : Changes) (infos : ModelInfoMap)
    (m' : ModelRepositoryManager) (calls : List LoadCall) (status : Status)
    (hpolling : m.pollingEnabled = true) (hpoll : poll m.infos snapshot = .ok (changes, infos))
    (hfailed : m.pollAndUpdate snapshot dirs = (m', calls, .error (.status status))) :
    ¬ ReportsAgain snapshot changes calls m'.infos := by
  intro hreports
  obtain ⟨hinfos, name, hreported, hnone⟩ := exists_lost hpolling hpoll hfailed
  obtain ⟨changes', infos', hagain, hnothing⟩ := poll_again hpoll
  rw [← hinfos] at hagain
  have hmem := hreports name hreported hnone changes' infos' hagain
  rw [hnothing] at hmem
  cases hmem

end

/-- A repository with two new models. -/
def twoModels : Snapshot where
  subdirs := .ok ["bert", "qa"]
  modifiedTime _ := 1
  modelConfig name := .ok { name := name, platform := kCustomPlatform }
  cuda := .noDevice

/-- A version of the first model is removed while its directory is listed. -/
def versionVanishes (name : String) : Except Status (List String) :=
  if name = "bert" then
    .error { code := .internal, message := "failed to stat file models/bert/2" }
  else .ok ["1"]

/-- The first round over the two models fails at the first one, and loses both. -/
theorem not_reportsAgain_versionVanishes :
    ∃ changes infos m' calls status, poll ∅ twoModels = .ok (changes, infos) ∧
      ModelRepositoryManager.pollAndUpdate {} twoModels versionVanishes =
        (m', calls, .error (.status status)) ∧
      changes.reported = ["bert", "qa"] ∧ calls = [] ∧
      ¬ ReportsAgain twoModels changes calls m'.infos :=
  ⟨_, _, _, _, _, rfl, rfl, rfl, rfl,
    not_reportsAgain {} twoModels versionVanishes _ _ _ _ _ rfl rfl rfl⟩

/-- Not every failed round reports its changes again. -/
theorem not_forall_reportsAgain :
    ¬ ∀ (m : ModelRepositoryManager) (snapshot : Snapshot)
        (dirs : String → Except Status (List String)) (changes : Changes) (infos : ModelInfoMap)
        (m' : ModelRepositoryManager) (calls : List LoadCall) (status : Status),
        m.pollingEnabled = true → poll m.infos snapshot = .ok (changes, infos) →
        m.pollAndUpdate snapshot dirs = (m', calls, .error (.status status)) →
        ReportsAgain snapshot changes calls m'.infos := by
  intro hall
  have hreports := hall {} twoModels versionVanishes _ _ _ _ _ rfl rfl rfl
  have hmem := hreports "bert" (by decide) (by decide) { unmodified := ["bert", "qa"] } _ rfl
  revert hmem
  decide

end FinBert.Repository
