import FinBert.Repository.GracefulStop
import Mathlib.Algebra.Order.BigOperators.Group.Finset

/-!
# What `Stop` waits for

Behind `UnloadAllModels` the last call for every model lists no version, so every version is on
its way to be unloaded and none is served again. From there on every step of the threads and the
handlers brings them closer to their end, and when they have come to it `Stop` returns `true`.

That holds for the runs in which no turn of the loops of `PollAndUpdate` fails: a failed round
leaves models behind that are served and that `infos_` does not have any more.

Results:
1. `covered_of_reachable`: the models that may be served are in `infos_`, or are being unloaded.
2. `owed_of_idle`: behind `UnloadAllModels` every version owes to be unloaded.
3. `drains`: what is left becomes less, and nothing that is left keeps `Stop` from its end.
-/

namespace FinBert.Repository

open FinBert.Serving Transition

/-! ## What is left -/

/-- The steps of threads that are left, besides the dropped references. -/
def Entry.left (e : Entry) : Nat :=
  (e.creations.map fun copied => if copied.isSome then 2 else 3).sum + e.released.length +
    e.callbacks.length

def Life.left : Life → Nat
  | .loading none _ => 3
  | .loading (some _) _ => 2
  | .released _ _ => 1
  | .destroyed _ _ => 1
  | _ => 0

@[simp] theorem left_toEntry (v : Version) : v.toEntry.left = v.life.left := by
  obtain ⟨platform, modelConfig, life, lastRequest, lastBuild⟩ := v
  cases life with
  | loading copied next => cases copied <;> simp [Version.toEntry, Entry.left, Life.left]
  | _ => simp [Version.toEntry, Entry.left, Life.left]

def HandlerState.left : HandlerState → Nat
  | .accepted => 4
  | .passed => 3
  | .inflight => 1
  | .refused => 1
  | .answered => 0

/-- The steps of a handler that are left, with the destructors behind it. -/
def HandledRequest.left (r : HandledRequest) : Nat :=
  r.state.left + r.handle.isSome.toNat + r.counted.toNat

def BackendLifeCycle.left (s : BackendLifeCycle) : Nat :=
  ∑ key ∈ s.versions.toFinset, ((s.entry key.1 key.2).map Entry.left).getD 0

def InferenceServer.left (s : InferenceServer) : Nat :=
  s.server.lifeCycle.left + (s.requests.map HandledRequest.left).sum

/-! ## The way of a version that is to be unloaded -/

theorem left_letGo (handle : BackendHandle) (next : ActionType) :
    (Life.letGo handle next).left = 1 := by
  unfold Life.letGo
  split
  · rfl
  · rfl

/-- A creation that is followed by an unload leaves at most the callback. -/
theorem left_created (result : Status × Option InferenceBackend) :
    ((Life.created result).resume .unload).left ≤ 1 := by
  unfold Life.created
  split
  · exact (left_letGo { is := result.2 } .noAction).le
  · exact Nat.zero_le _

/-- An event brings a version that is to be unloaded closer to that, when it is not only a dropped
reference. -/
theorem left_after {v v' : Version} {event : Event} (hv : v.life.OwesUnload)
    (h : v.after event = some v') :
    v'.life.left + event.byThread.toNat ≤ v.life.left := by
  cases event with
  | copyConfig creation =>
    simp only [Version.after] at h
    split at h
    · next hlife =>
      obtain rfl := Option.some.inj h
      rw [hlife]
      exact Nat.le_refl 3
    · cases h
  | create creation w =>
    simp only [Version.after] at h
    split at h
    · next hlife =>
      obtain rfl := Option.some.inj h
      rw [hlife] at hv ⊢
      obtain rfl := hv
      exact Nat.add_le_add_right (left_created _) 1
    · cases h
  | onDestroy callback =>
    simp only [Version.after] at h
    split at h
    · next is next hlife =>
      obtain rfl := Option.some.inj h
      rw [hlife] at hv ⊢
      cases next with
      | load => exact absurd rfl hv
      | _ => exact Nat.le_refl 1
    · cases h
  | getBackendHandle | drop =>
    -- the version would be ready
    simp only [Version.after] at h
    split at h
    · next hlife =>
      rw [hlife] at hv
      exact hv.elim
    · cases h
  | dropReleased idx =>
    simp only [Version.after] at h
    split at h
    · next hlife =>
      rw [hlife]
      split at h
      · obtain rfl := Option.some.inj h
        exact Nat.le_refl 1
      · obtain rfl := Option.some.inj h
        exact Nat.le_refl 1
    · cases h

/-- What a version goes on with that is to be unloaded: a thread, or nothing but its handle. -/
theorem exists_after {v : Version} (hv : v.life.OwesUnload) (hlive : v.toEntry.live = true) :
    (∃ event v', event.byThread = true ∧ v.after event = some v') ∨
      ∃ handle next, v.life = .released handle next := by
  cases hlife : v.life with
  | unknown => simp [Entry.live, Version.toEntry, hlife] at hlive
  | unavailable => simp [Entry.live, Version.toEntry, hlife] at hlive
  | ready handle =>
    rw [hlife] at hv
    exact hv.elim
  | released handle next => exact .inr ⟨handle, next, rfl⟩
  | loading copied next =>
    cases copied with
    | none => exact .inl ⟨.copyConfig 0, _, rfl, by simp only [Version.after, hlife]; rfl⟩
    | some config =>
      exact .inl ⟨.create 0 { cuda := .noDevice }, _, rfl, by simp only [Version.after, hlife]; rfl⟩
  | destroyed is next =>
    exact .inl ⟨.onDestroy 0, _, rfl, by simp only [Version.after, hlife]; rfl⟩

/-! ## The way of the life cycle -/

/-- A version obeys an unload, and a handle that it has let go of is referenced. -/
theorem kept_unloaded_held : Kept (fun _ => True) fun v => Unloaded v ∧ v.life.Held where
  created config hknown := ⟨kept_unloaded.created config hknown, kept_held.created config hknown⟩
  requestUnload v hv := ⟨kept_unloaded.requestUnload v hv.1, kept_held.requestUnload v hv.2⟩
  requestLoad v config hv :=
    ⟨kept_unloaded.requestLoad v config hv.1, kept_held.requestLoad v config hv.2⟩
  after v event v' hv h :=
    ⟨kept_unloaded.after v event v' hv.1 h, kept_held.after v event v' hv.2 h⟩

/-- Every version is to be unloaded. -/
def BackendLifeCycle.Owed (s : BackendLifeCycle) : Prop :=
  ∀ name version e, s.entry name version = some e →
    ∃ v : Version, e = v.toEntry ∧ v.life.OwesUnload ∧ v.life.Held

theorem mem_versions (s : BackendLifeCycle) (name : String) (version : Int) :
    (name, version) ∈ s.versions ↔ (s.entry name version).isSome := by
  rw [Option.isSome_iff_exists]
  unfold BackendLifeCycle.versions
  constructor
  · intro h
    obtain ⟨m, hm, h⟩ := List.mem_flatMap.mp h
    obtain ⟨e, he, heq⟩ := List.mem_map.mp h
    cases heq
    exact ⟨e.2, BackendLifeCycle.entry_eq_some_iff.mpr ⟨m.2, hm, he⟩⟩
  · rintro ⟨e, he⟩
    obtain ⟨entries, hname, hversion⟩ := BackendLifeCycle.entry_eq_some_iff.mp he
    exact List.mem_flatMap.mpr ⟨_, hname, List.mem_map.mpr ⟨_, hversion, rfl⟩⟩

theorem left_setEntry {s : BackendLifeCycle} {name : String} {version : Int} {e : Entry}
    (he : s.entry name version = some e) (e' : Entry) :
    (s.setEntry name version e').left + e.left = s.left + e'.left := by
  have hversions : (s.setEntry name version e').versions.toFinset = s.versions.toFinset := by
    ext ⟨name', version'⟩
    rw [List.mem_toFinset, List.mem_toFinset, mem_versions, mem_versions,
      BackendLifeCycle.entry_setEntry]
    split
    · next hkey => rw [hkey.1, hkey.2, he, Option.isSome_some, Option.isSome_some]
    · rfl
  have hmem : (name, version) ∈ s.versions.toFinset := by
    rw [List.mem_toFinset, mem_versions, he, Option.isSome_some]
  unfold BackendLifeCycle.left
  rw [hversions, ← Finset.add_sum_erase _ _ hmem, ← Finset.add_sum_erase s.versions.toFinset
    (fun key => ((s.entry key.1 key.2).map Entry.left).getD 0) hmem]
  -- the other versions stay as they are
  have hrest : ∀ key ∈ s.versions.toFinset.erase (name, version),
      (((s.setEntry name version e').entry key.1 key.2).map Entry.left).getD 0 =
        ((s.entry key.1 key.2).map Entry.left).getD 0 := by
    intro key hkey
    rw [BackendLifeCycle.entry_setEntry, if_neg]
    rintro ⟨hname, hversion⟩
    exact (Finset.ne_of_mem_erase hkey) (Prod.ext hname hversion)
  rw [Finset.sum_congr rfl hrest, BackendLifeCycle.entry_setEntry, if_pos ⟨rfl, rfl⟩, he]
  simp only [Option.map_some, Option.getD_some]
  omega

/-- The threads bring the versions closer to their end, and dropped references leave them where
they are. -/
theorem left_event {s t : BackendLifeCycle} (hs : s.Owed) {name : String} {version : Int}
    {event : Event} (h : s.step (.event name version event) = some t) :
    t.left + event.byThread.toNat ≤ s.left := by
  rcases BackendLifeCycle.step_cases h with ⟨_, heq, -, -⟩ | ⟨_, heq, -, -⟩ |
    ⟨name', version', event', e, e', heq, he, he', rfl⟩
  · cases heq
  · cases heq
  · cases heq
    obtain ⟨v, rfl, hv, -⟩ := hs name version e he
    rw [after_toEntry] at he'
    obtain ⟨v', hv', rfl⟩ := Option.map_eq_some_iff.mp he'
    have hleft := left_after hv hv'
    have hset := left_setEntry he v'.toEntry
    rw [left_toEntry, left_toEntry] at hset
    omega

/-! ## The way of the requests -/

/-- Neither a new request nor the thread of `Stop`. -/
def ServingAction.works : ServingAction → Bool
  | .stopBegin _ | .stop => false
  | .accept _ => false
  | _ => true

namespace InferenceServer

variable {s t : InferenceServer}

/-- A handler that goes on has less left to do. -/
theorem Handled.left {r r' : HandledRequest} {taken given : Nat} (h : Handled s r r' taken given)
    (hr : r.Ok) : r'.left < r.left := by
  cases h with
  | refused haccepted =>
    have hless : HandlerState.left .refused < r.state.left := by rw [haccepted]; decide
    exact Nat.add_lt_add_right (Nat.add_lt_add_right hless _) _
  | passed haccepted =>
    have hless : HandlerState.left .passed < r.state.left := by rw [haccepted]; decide
    exact Nat.add_lt_add_right (Nat.add_lt_add_right hless _) _
  | counted hpassed =>
    have huncounted := hr.uncounted (hpassed ▸ nofun) (hpassed ▸ nofun)
    unfold HandledRequest.left
    rw [hpassed, huncounted]
    show 1 + r.handle.isSome.toNat + 1 < 3 + r.handle.isSome.toNat + 0
    omega
  | answered hgoing =>
    have hless : HandlerState.left .answered < r.state.left := by
      rcases hgoing with h | h
      · rw [h]; decide
      · rw [h]; decide
    exact Nat.add_lt_add_right (Nat.add_lt_add_right hless _) _
  | uncounted hanswered hcounted =>
    unfold HandledRequest.left
    rw [hcounted]
    exact Nat.lt_succ_self _

/-- Behind `UnloadAllModels` every step of a thread or of a handler leaves less to do. -/
theorem left_step (hs : s.Accounted) (hstop : s.Stopping) (howed : s.server.lifeCycle.Owed)
    (hidle : s.stop.idle = true) {a : ServingAction} (ha : a.works = true)
    (h : s.step a = some t) : t.left < s.left := by
  cases stepped h with
  | @server a server hallowed hstep =>
    cases a with
    | event name version event =>
      have hevent := left_event howed (step_event hstep).1
      have hthread : event.byThread = true := hallowed
      rw [hthread] at hevent
      exact Nat.add_lt_add_right hevent _
    | poll snapshot =>
      have hnotCalled := of_decide_eq_true ((Bool.and_eq_true _ _).mp hallowed).2
      rw [hnotCalled] at hidle
      cases hidle
    | update subdirs =>
      have hround := hstop.round fun hnotCalled => by
        rw [hnotCalled] at hidle
        cases hidle
      simp only [Server.step, hround] at hstep
      cases hstep
    | advance =>
      simp only [Server.step, BackendLifeCycle.step, hstop.running hidle, Option.map_none] at hstep
      cases hstep
  | accepted | acceptedInfer | exiting | unload | stop | failed | sleep => cases ha
  | @handled a i r r' taken given hr does =>
    have hleft := does.left (hs.requests r (List.mem_of_getElem? hr))
    have hsum := sum_set_add HandledRequest.left hr r'
    refine Nat.add_lt_add_left ?_ _
    show ((s.requests.set i r').map HandledRequest.left).sum < _
    omega
  | @letGo i r name version e server hr ended hhandle entry hstep =>
    have hevent := left_event howed (step_event hstep).1
    have hsum := sum_set_add HandledRequest.left hr { r with handle := none }
    have hone : r.left = ({ r with handle := none } : HandledRequest).left + 1 := by
      unfold HandledRequest.left
      rw [hhandle]
      exact Nat.add_right_comm _ 1 _
    show server.lifeCycle.left + ((s.requests.set i _).map HandledRequest.left).sum <
      s.server.lifeCycle.left + (s.requests.map HandledRequest.left).sum
    omega

/-! ## When nothing is left -/

/-- No thread and no handler can go on. -/
def Drained (s : InferenceServer) : Prop := ∀ a : ServingAction, a.works = true → s.step a = none

theorem handler_drained (h : s.Drained) {i : Nat} {r : HandledRequest}
    (hr : s.requests[i]? = some r) : r.state = .answered ∧ r.counted = false := by
  have hnone (a : ServingAction) (ha : a.works = true) (f : HandledRequest → Option InferenceServer)
      (hstep : s.step a = s.requests[i]?.bind f) : f r = none := by
    rw [h a ha, hr] at hstep
    exact hstep.symm
  have hstate : r.state = .answered := by
    cases hstate : r.state with
    | answered => rfl
    | accepted =>
      have hrefuse := hnone (.refuse i) rfl _ rfl
      rw [if_pos hstate] at hrefuse
      cases hrefuse
    | passed =>
      have hcount := hnone (.count i) rfl _ rfl
      rw [if_pos hstate] at hcount
      cases hcount
    | inflight =>
      have hanswer := hnone (.answer i) rfl _ rfl
      rw [if_pos (.inl hstate)] at hanswer
      cases hanswer
    | refused =>
      have hanswer := hnone (.answer i) rfl _ rfl
      rw [if_pos (.inr hstate)] at hanswer
      cases hanswer
  refine ⟨hstate, Bool.eq_false_iff.mpr fun hcounted => ?_⟩
  have huncount := hnone (.uncount i) rfl _ rfl
  rw [if_pos ⟨hstate, hcounted⟩] at huncount
  cases huncount

/-- A handle that is kept alive can be dropped. -/
theorem handle_drained (hs : s.Accounted) (howed : s.server.lifeCycle.Owed) (h : s.Drained)
    {r : HandledRequest} (hr : r ∈ s.requests) : r.handle = none := by
  obtain ⟨i, hi⟩ := List.getElem?_of_mem hr
  have hanswered := (handler_drained h hi).1
  cases hhandle : r.handle with
  | none => rfl
  | some key =>
    obtain ⟨name, version⟩ := key
    have hpos : 0 < s.server.lifeCycle.references name version := by
      rw [hs.references]
      exact List.countP_pos_iff.mpr ⟨r, hr, decide_eq_true hhandle⟩
    unfold BackendLifeCycle.references at hpos
    cases he : s.server.lifeCycle.entry name version with
    | none =>
      rw [he] at hpos
      cases hpos
    | some e =>
      obtain ⟨v, rfl, hv, -⟩ := howed name version e he
      rw [he, Option.map_some, Option.getD_some, references_toEntry] at hpos
      have hletGo := h (.letGo i) rfl
      cases hlife : v.life with
      | released handle next =>
        have hevent : v.toEntry.dropEvent = .dropReleased 0 := by
          simp [Entry.dropEvent, Version.toEntry, hlife]
        have hafter : ∃ e', v.toEntry.after name version (.dropReleased 0) = some e' := by
          rw [after_toEntry]
          simp only [Version.after, hlife]
          split
          · exact ⟨_, rfl⟩
          · exact ⟨_, rfl⟩
        obtain ⟨e', he'⟩ := hafter
        simp only [step, letGo, within, setRequest, Server.step, BackendLifeCycle.step,
          Event.locksMap, hi, Option.bind_some, hanswered, HandlerState.ended, if_true, hhandle, he,
          hevent, he', Bool.false_and, Bool.false_eq_true, if_false, Option.map_some] at hletGo
        cases hletGo
      | ready handle =>
        rw [hlife] at hv
        exact hv.elim
      | _ =>
        rw [hlife] at hpos
        cases hpos

/-- A version that is live is not the last thing that is left. -/
theorem dead_drained (hs : s.Accounted) (howed : s.server.lifeCycle.Owed) (h : s.Drained)
    {name : String} {version : Int} {e : Entry}
    (he : s.server.lifeCycle.entry name version = some e) : e.live = false := by
  by_contra hlive
  obtain ⟨v, rfl, hv, hheld⟩ := howed name version e he
  rcases exists_after hv (Bool.eq_true_of_not_eq_false hlive) with
    ⟨event, v', hthread, hafter⟩ | ⟨handle, next, hlife⟩
  · have hstep := h (.server (.event name version event)) rfl
    have hlocks : event.locksMap = false := by
      cases event with
      | getBackendHandle => cases hthread
      | _ => rfl
    simp only [step, allows, hthread, if_true, within, Server.step, BackendLifeCycle.step, hlocks,
      Bool.false_and, Bool.false_eq_true, if_false, he, after_toEntry, hafter,
      Option.map_some] at hstep
    cases hstep
  · have hpos : 0 < holders s.requests name version := by
      rw [← hs.references, BackendLifeCycle.references, he, Option.map_some, Option.getD_some,
        references_toEntry, hlife]
      rw [hlife] at hheld
      exact hheld
    obtain ⟨r, hr, hhandle⟩ := List.countP_pos_iff.mp hpos
    rw [handle_drained hs howed h hr] at hhandle
    cases hhandle

/-! ## The models that may be served -/

/-- The steps in which no turn of the loops of `PollAndUpdate` fails. -/
def Completes (s : InferenceServer) : ServingAction → Prop
  | .server (.update subdirs) =>
    (s.server.round.head?.all fun item =>
      (s.server.manager.update subdirs item.1 item.2).2.isOk) = true
  | _ => True

instance (s : InferenceServer) : (a : ServingAction) → Decidable (s.Completes a)
  | .server (.update _) => inferInstanceAs (Decidable (_ = true))
  | .server (.poll _) => .isTrue trivial
  | .server .advance => .isTrue trivial
  | .server (.event _ _ _) => .isTrue trivial
  | .stopBegin _ => .isTrue trivial
  | .stop => .isTrue trivial
  | .accept _ => .isTrue trivial
  | .refuse _ => .isTrue trivial
  | .check _ => .isTrue trivial
  | .count _ => .isTrue trivial
  | .answer _ => .isTrue trivial
  | .uncount _ => .isTrue trivial
  | .letGo _ => .isTrue trivial

/-- The models for which the last call may have listed versions. -/
def listing (s : InferenceServer) : List String :=
  match s.stop with
  | .notCalled => s.server.manager.infos.keys ++ s.server.round.map Prod.snd
  | .unloading names => names
  | _ => []

/-- What is in `infos_` and what `Poll` reports. -/
theorem poll_covered {infos infos' : ModelInfoMap} {snapshot : Snapshot} {changes : Changes}
    (h : poll infos snapshot = .ok (changes, infos')) :
    (∀ item ∈ changes.work, item.1 ≠ .deleted → item.2 ∈ infos'.keys) ∧
      ∀ name ∈ infos.keys, name ∉ infos'.keys → name ∈ changes.work.map Prod.snd := by
  obtain ⟨subdirs, -, -, hcollected, -, -⟩ := poll_spec h
  have hmet (name : String) : name ∈ changes.met ↔ name ∈ infos'.keys :=
    (hcollected.infos name).trans (AList.lookup_isSome.trans AList.mem_keys)
  refine ⟨fun ⟨change, name⟩ hitem hchange => (hmet name).mp ?_, fun name hname hgone => ?_⟩
  · rcases List.mem_append.mp hitem with hitem | hdeleted
    · rcases List.mem_append.mp hitem with hadded | hmodified
      · obtain ⟨_, hadded, heq⟩ := List.mem_map.mp hadded
        cases heq
        exact List.mem_append_left _ (List.mem_append_left _ hadded)
      · obtain ⟨_, hmodified, heq⟩ := List.mem_map.mp hmodified
        cases heq
        exact List.mem_append_left _ (List.mem_append_right _ hmodified)
    · obtain ⟨_, -, heq⟩ := List.mem_map.mp hdeleted
      cases heq
      exact absurd rfl hchange
  · rw [← hmet name] at hgone
    have hdeleted : name ∈ changes.deleted := by
      unfold poll at h
      split at h
      · cases h
      · obtain ⟨⟨collected, newInfos⟩, -, heq⟩ := ok_of_map h
        cases heq
        refine (List.perm_insertionSort _ _).mem_iff.mpr (List.mem_filter.mpr ⟨hname, ?_⟩)
        simpa [Changes.met] using hgone
    rw [map_work]
    exact List.mem_append_right _ hdeleted

/-- A call is forced, and lists versions only for a model that is in `infos_`. -/
theorem update_call {m m' : ModelRepositoryManager} {subdirs : Except Status (List String)}
    {change : Change} {name : String} {call : LoadCall}
    (h : m.update subdirs change name = (m', .ok call)) :
    call.forceUnload = true ∧ (change = .deleted → call.versions = []) := by
  unfold ModelRepositoryManager.update at h
  split at h
  · cases h
    exact ⟨rfl, fun _ => rfl⟩
  · next hchange =>
    split at h
    · cases h
    split at h
    · cases h
    · rw [Prod.mk.injEq] at h
      obtain ⟨versions, -, rfl⟩ := ok_of_map h.2
      exact ⟨rfl, fun hdeleted => absurd hdeleted hchange⟩

/-- The models that may be served are in `infos_`, or are still to be unloaded. -/
structure Covered (s : InferenceServer) : Prop where
  lifeCycle : Reachable BackendLifeCycle.step .create s.server.lifeCycle
  forced : ∀ call ∈ s.server.lifeCycle.calls, call.forceUnload = true
  round : ∀ item ∈ s.server.round, item.1 ≠ .deleted → item.2 ∈ s.server.manager.infos.keys
  unlisted : ∀ name, name ∉ s.listing → ∀ call,
    s.server.lifeCycle.lastCall name = some call → call.versions = []

/-- The entries go on, with no new call. -/
theorem Covered.goesOn (hs : s.Covered) {action : Action} {server : Server}
    (hcall : ∀ call, action ≠ .asyncLoad call)
    (hstep : s.server.lifeCycle.step action = some server.lifeCycle)
    (hserver : server = { s.server with lifeCycle := server.lifeCycle }) :
    Covered { s with server } := by
  have hcalls := Server.calls_of_step hcall hstep
  have hmanager : server.manager = s.server.manager := by rw [hserver]
  have hround : server.round = s.server.round := by rw [hserver]
  have hlisting : listing { s with server } = s.listing := by
    unfold listing
    simp only [hmanager, hround]
  refine ⟨hs.lifeCycle.step trivial hstep, fun call hmem => ?_, fun item hitem hchange => ?_,
    fun name hname call hlast => ?_⟩
  · exact hs.forced call (hcalls ▸ hmem)
  · rw [hmanager]
    exact hs.round item (hround ▸ hitem) hchange
  · rw [lastCall_of_calls hcalls] at hlast
    exact hs.unlisted name (hlisting ▸ hname) call hlast

/-- A round begins. -/
theorem Covered.beginRound (hs : s.Covered) (hnotCalled : s.stop = .notCalled)
    (hround : s.server.round = []) (snapshot : Snapshot) :
    Covered { s with server := s.server.beginRound snapshot } := by
  rcases Server.beginRound_cases s.server snapshot with heq | ⟨changes, infos, hpoll, heq⟩
  · rw [heq]
    exact hs
  · rw [heq]
    obtain ⟨hwork, hgone⟩ := poll_covered hpoll
    refine ⟨hs.lifeCycle, hs.forced, hwork, fun name hname call hlast => ?_⟩
    simp only [listing, hnotCalled, List.mem_append, not_or] at hname
    refine hs.unlisted name (fun hmem => ?_) call hlast
    simp only [listing, hnotCalled, hround, List.map_nil, List.append_nil] at hmem
    exact hname.2 (hgone name hmem hname.1)

/-- A turn of the loops of `PollAndUpdate`. -/
theorem Covered.nextUpdate (hs : s.Covered) (hnotCalled : s.stop = .notCalled)
    {change : Change} {name : String} {round : List (Change × String)}
    (hround : s.server.round = (change, name) :: round)
    (hrunning : s.server.lifeCycle.running = none) {subdirs : Except Status (List String)}
    {m : ModelRepositoryManager} {call : LoadCall}
    (hupdate : s.server.manager.update subdirs change name = (m, .ok call)) :
    Covered { s with
      server := { manager := m, lifeCycle := s.server.lifeCycle.asyncLoad call, round } } := by
  obtain ⟨hinfos, hname⟩ := update_spec hupdate
  obtain ⟨hforced, hdeleted⟩ := update_call hupdate
  refine ⟨hs.lifeCycle.step trivial (step_asyncLoad hrunning call), fun call' hmem => ?_,
    fun item hitem hchange => ?_, fun name' hname' call' hlast => ?_⟩
  · rcases List.mem_cons.mp hmem with rfl | hmem
    · exact hforced
    · exact hs.forced call' hmem
  · rw [hinfos]
    exact hs.round item (hround ▸ List.mem_cons_of_mem _ hitem) hchange
  · simp only [listing, hnotCalled, List.mem_append, not_or, hinfos] at hname'
    rw [lastCall_asyncLoad, hname call rfl] at hlast
    split at hlast
    · next heq =>
      obtain rfl := Option.some.inj hlast
      refine hdeleted (Decidable.byContradiction fun hchange => ?_)
      have hmem := hs.round (change, name) (hround ▸ List.mem_cons_self) hchange
      exact hname'.1 (heq ▸ hmem)
    · next hne =>
      refine hs.unlisted name' (fun hmem => ?_) call' hlast
      simp only [listing, hnotCalled, hround, List.map_cons, List.mem_append,
        List.mem_cons] at hmem
      rcases hmem with hmem | heq | hmem
      · exact hname'.1 hmem
      · exact hne heq.symm
      · exact hname'.2 hmem

/-- The repository manager goes on. -/
theorem Covered.server (hs : s.Covered) (hstop : s.Stopping) {a : ServerAction}
    (hok : s.Completes (.server a)) {server : Server} (hallowed : s.allows a = true)
    (h : s.server.step a = some server) : Covered { s with server } := by
  cases a with
  | event name version event =>
    obtain ⟨hstep, hserver⟩ := step_event h
    exact hs.goesOn (by rintro _ ⟨⟩) hstep hserver
  | advance =>
    obtain ⟨lifeCycle, hstep, rfl⟩ := Option.map_eq_some_iff.mp h
    exact hs.goesOn (by rintro _ ⟨⟩) hstep rfl
  | poll snapshot =>
    have hnotCalled := of_decide_eq_true ((Bool.and_eq_true _ _).mp hallowed).2
    simp only [Server.step] at h
    split at h
    · next hguard =>
      obtain rfl := Option.some.inj h
      exact hs.beginRound hnotCalled hguard.2.1 snapshot
    · cases h
  | update subdirs =>
    simp only [Server.step] at h
    split at h
    · cases h
    · next change name round hround =>
      have hnotCalled : s.stop = .notCalled := by
        by_contra hcalled
        cases hround.symm.trans (hstop.round hcalled)
      split at h
      · next hrunning =>
        rcases Server.nextUpdate_cases h with ⟨m, call, hupdate, rfl⟩ | ⟨m, status, hupdate, -⟩
        · exact hs.nextUpdate hnotCalled hround hrunning hupdate
        · have hfails : (s.server.manager.update subdirs change name).2.isOk = true := by
            unfold Completes at hok
            rw [hround] at hok
            exact hok
          rw [hupdate] at hfails
          cases hfails
      · cases h

/-- `UnloadAllModels` comes to the next model. -/
theorem Covered.unload (hs : s.Covered) {name : String} {names : List String}
    (hunloading : s.stop = .unloading (name :: names))
    (hrunning : s.server.lifeCycle.running = none) (hround : s.server.round = []) :
    Covered { s with
      server := { s.server with
        lifeCycle := s.server.lifeCycle.asyncLoad { name := name, versions := [], config := {} } }
      stop := .unloading names } := by
  refine ⟨hs.lifeCycle.step trivial (step_asyncLoad hrunning _), fun call hmem => ?_,
    fun item hitem => ?_, fun name' hname' call hlast => ?_⟩
  · rcases List.mem_cons.mp hmem with rfl | hmem
    · rfl
    · exact hs.forced call hmem
  · exact absurd (hround ▸ hitem) List.not_mem_nil
  · rw [lastCall_asyncLoad] at hlast
    split at hlast
    · obtain rfl := Option.some.inj hlast
      rfl
    · next hne =>
      refine hs.unlisted name' (fun hmem => ?_) call hlast
      simp only [listing, hunloading] at hmem
      rcases List.mem_cons.mp hmem with heq | hmem
      · exact hne heq.symm
      · exact hname' hmem

/-- The thread of `Stop` does not list a version any more. -/
theorem Covered.phase (hs : s.Covered) (phase : StopPhase) (iters : Nat)
    (hlisting : ∀ name ∈ s.listing, name ∈ listing { s with stop := phase }) :
    Covered { s with stop := phase, exitTimeoutIters := iters } :=
  ⟨hs.lifeCycle, hs.forced, hs.round, fun name hname =>
    hs.unlisted name fun hmem => hname (hlisting name hmem)⟩

theorem Covered.step (hs : s.Covered) (hstop : s.Stopping) {a : ServingAction}
    (hok : s.Completes a) (h : s.step a = some t) : t.Covered := by
  cases stepped h with
  | server allowed hstep => exact hs.server hstop hok allowed hstep
  | accepted | handled => exact ⟨hs.lifeCycle, hs.forced, hs.round, hs.unlisted⟩
  | acceptedInfer unlocked hstep =>
    obtain ⟨hstep', hserver⟩ := step_event hstep
    obtain ⟨hlifeCycle, hforced, hround, hunlisted⟩ := hs.goesOn (by rintro _ ⟨⟩) hstep' hserver
    exact ⟨hlifeCycle, hforced, hround, hunlisted⟩
  | letGo request ended handle entry hstep =>
    obtain ⟨hstep', hserver⟩ := step_event hstep
    obtain ⟨hlifeCycle, hforced, hround, hunlisted⟩ := hs.goesOn (by rintro _ ⟨⟩) hstep' hserver
    exact ⟨hlifeCycle, hforced, hround, hunlisted⟩
  | @exiting order notCalled round running perm =>
    obtain ⟨hlifeCycle, hforced, hround, hunlisted⟩ := hs.phase (.unloading order)
      s.exitTimeoutIters fun name hmem => by
        simp only [listing, notCalled, round, List.map_nil, List.append_nil] at hmem
        exact perm.mem_iff.mpr hmem
    exact ⟨hlifeCycle, hforced, hround, hunlisted⟩
  | unload unloading running =>
    exact hs.unload unloading running (hstop.round (unloading ▸ nofun))
  | stop stopped =>
    refine hs.phase _ _ fun name hmem => ?_
    cases stopped with
    | scan hphase | next hphase | scanned hphase | clean hphase | unloaded hphase =>
      simp only [listing, hphase] at hmem
      cases hmem
  | failed scanned | sleep scanned =>
    refine hs.phase _ _ fun name hmem => ?_
    simp only [listing, scanned] at hmem
    cases hmem

theorem covered_of_reachable {exitTimeoutSecs : Nat}
    (h : ReachableWhen step Completes (init exitTimeoutSecs) s) : s.Covered := by
  refine (h.invariant (P := fun s => s.Accounted ∧ s.Stopping ∧ s.Covered)
    ⟨accounted_of_reachable .start, stopping_notCalled rfl, .start,
      fun _ hmem => absurd hmem List.not_mem_nil, fun _ hmem => absurd hmem List.not_mem_nil,
      fun _ _ _ hlast => absurd hlast.symm (Option.some_ne_none _)⟩
    fun _ _ _ hs hok hstep => ?_).2.2
  exact ⟨hs.1.step hstep, hs.2.1.step hs.1 hstep, hs.2.2.step hs.2.1 hok hstep⟩

/-- Behind `UnloadAllModels` every version owes to be unloaded. -/
theorem owed_of_idle (hcovered : s.Covered) (hstop : s.Stopping) (hidle : s.stop.idle = true) :
    s.server.lifeCycle.Owed := by
  obtain ⟨-, hrequested, hlisted⟩ := listed_of_reachable hcovered.lifeCycle
  have hrefines := refines_of_reachable kept_unloaded_held
    (hcovered.lifeCycle.weaken fun s a _ => creates_true s a)
  have hrunning := hstop.running hidle
  have hlisting : s.listing = [] := by
    unfold listing
    cases hphase : s.stop with
    | notCalled | unloading =>
      rw [hphase] at hidle
      cases hidle
    | _ => rfl
  intro name version e he
  obtain ⟨call, hmem, hname, -⟩ := hlisted.listed name version e he
  -- the last call for the model lists no version
  obtain ⟨last, hlast⟩ : ∃ last, s.server.lifeCycle.lastCall name = some last :=
    Option.isSome_iff_exists.mp (List.find?_isSome.mpr ⟨call, hmem, decide_eq_true hname⟩)
  have hnone : last.versions = [] :=
    hcovered.unlisted name (hlisting ▸ List.not_mem_nil) last hlast
  have hunload : e.lastRequest = some .unload :=
    hrequested.unloaded name last hlast (hcovered.forced last (List.mem_of_find?_eq_some hlast))
      version e he (hnone ▸ List.not_mem_nil) (notMem_pendingUnloads hrunning name version)
  obtain ⟨v, rfl, hunloaded, hheld⟩ := hrefines.version name version e he
  exact ⟨v, rfl, hunloaded hunload, hheld⟩

/-- No version that is to be unloaded is served. -/
theorem accept_owed (howed : s.server.lifeCycle.Owed) (name : String) (version : Int) :
    s.step (.accept (.infer name version)) = none := by
  refine accept_unready fun e he hready => ?_
  obtain ⟨v, rfl, hv, -⟩ := howed name version e he
  cases hlife : v.life with
  | ready handle =>
    rw [hlife] at hv
    exact hv
  | _ => simp [Version.toEntry, hlife] at hready

/-! ## `Stop` comes to its end -/

theorem stop_single (h : s.step .stop = some t) :
    ReachableWhen step (fun _ a => a = .stop) s t :=
  .step .start rfl h

/-- `GetLiveBackendStates` finds nothing. -/
theorem scan_dead (hdead : ∀ name version e,
      s.server.lifeCycle.entry name version = some e → e.live = false)
    (versions : List (String × Int)) :
    ReachableWhen step (fun _ a => a = .stop) { s with stop := .scanning versions [] }
      { s with stop := .scanned [] } := by
  induction versions with
  | nil => exact stop_single rfl
  | cons key versions ih =>
    obtain ⟨name, version⟩ := key
    have hfound : ((s.server.lifeCycle.entry name version).map Entry.live).getD false = false := by
      cases he : s.server.lifeCycle.entry name version with
      | none => rfl
      | some e => exact hdead name version e he
    have hstep : step { s with stop := .scanning ((name, version) :: versions) [] } .stop =
        some { s with stop := .scanning versions [] } := by
      simp only [step, stopNext, hfound, Bool.false_eq_true, if_false, List.append_nil]
    exact (stop_single hstep).trans ih

/-- When no thread and no handler can go on, the next turn of the loop is the last one. -/
theorem stop_drained (hs : s.Accounted) (howed : s.server.lifeCycle.Owed) (h : s.Drained)
    (hwaiting : s.stop = .waiting) :
    ReachableWhen step (fun _ a => a = .stop) s { s with stop := .returned true } := by
  have hscan : step s .stop = some { s with stop := .scanning s.server.lifeCycle.versions [] } := by
    simp only [step, stopNext, hwaiting]
  have hcounter : s.inflightRequestCounter = 0 := by
    refine hs.counter.trans (List.countP_eq_zero.mpr fun r hr => ?_)
    obtain ⟨i, hi⟩ := List.getElem?_of_mem hr
    exact Bool.eq_false_iff.mp (handler_drained h hi).2
  have hreturn : step { s with stop := .scanned [] } .stop =
      some { s with stop := .returned true } := by
    simp only [step, stopNext, hcounter, and_self, if_true]
  refine ((stop_single hscan).trans (scan_dead (fun name version e he => ?_) _)).trans
    (stop_single hreturn)
  exact dead_drained hs howed h he

/-- In every run in which no turn of the loops of `PollAndUpdate` fails, from the end of
`UnloadAllModels` on: no request gets a handle any more, every step of a thread or of a handler
leaves less to do, and when there is nothing left to do the next turn of the loop of `Stop`
returns `true`, whatever is left of the exit timeout. -/
theorem drains {exitTimeoutSecs : Nat}
    (h : ReachableWhen step Completes (init exitTimeoutSecs) s) (hidle : s.stop.idle = true) :
    (∀ name version, s.step (.accept (.infer name version)) = none) ∧
      (∀ a t, a.works = true → s.step a = some t → t.left < s.left) ∧
      (s.Drained → s.stop = .waiting →
        ReachableWhen step (fun _ a => a = .stop) s { s with stop := .returned true }) := by
  have hs := accounted_of_reachable (h.weaken fun _ _ _ => trivial)
  have hstop := stopping_of_reachable (h.weaken fun _ _ _ => trivial)
  have howed := owed_of_idle (covered_of_reachable h) hstop hidle
  exact ⟨accept_owed howed, fun a t ha hstep => left_step hs hstop howed hidle ha hstep,
    stop_drained hs howed⟩

/-- A request that is still worked on when `UnloadAllModels` has returned. -/
theorem drains_inflight :
    ∃ s, ReachableWhen step Completes (init 0) s ∧ s.stop = .waiting ∧ s.requests.length = 1 ∧
      ReachableWhen step (fun _ a => a = .stop) s { s with stop := .returned true } := by
  have hrun : ((runWhen step Completes (init 0) (Server.loadFirst.map .server ++
      [.accept (.infer "bert" 1), .check 0, .count 0, .stopBegin ["bert"], .stop, .server .advance,
        .server .advance, .stop, .answer 0, .uncount 0, .letGo 0,
        .server (.event "bert" 1 (.onDestroy 0))])).map
      fun s => decide (s.stop = .waiting ∧ s.requests.length = 1 ∧ s.left = 0)) = some true := by
    decide
  obtain ⟨s, hs, hchecked⟩ := exists_of_runWhen hrun
  obtain ⟨hwaiting, hlength, hleft⟩ := of_decide_eq_true hchecked
  obtain ⟨-, hless, hreturns⟩ := drains hs (hwaiting ▸ rfl)
  refine ⟨s, hs, hwaiting, hlength, hreturns (fun a ha => ?_) hwaiting⟩
  -- a step would leave less than nothing to do
  cases hstep : s.step a with
  | none => rfl
  | some t =>
    have hlt := hless a t ha hstep
    rw [hleft] at hlt
    exact absurd hlt (Nat.not_lt_zero _)

end InferenceServer

end FinBert.Repository
