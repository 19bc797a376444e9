import FinBert.Repository.Shutdown

/-!
# A graceful stop

Every handle that is referenced is kept alive by requests, as many as it has references, and the
counter is the number of the requests that are counted. When `Stop` has found no live version and
the counter at zero, no version comes to life again, so no request can get a handle, and none that
has one is left: also not one that had read `ready_state_` before `Stop` changed it and was not
counted yet.

Results:
1. `accounted_of_reachable`: the references and the counter, in every run.
2. `clean_of_returned`: what holds when `Stop` has returned `true`, and ever after.
-/

namespace FinBert.Repository

open FinBert.Serving Transition

/-! ## Counting -/

/-- An element of a list is replaced. -/
theorem sum_set_add {α : Type} (f : α → Nat) {l : List α} {i : Nat} {x : α} (h : l[i]? = some x)
    (y : α) : ((l.set i y).map f).sum + f x = (l.map f).sum + f y := by
  induction l generalizing i with
  | nil => cases h
  | cons z l ih =>
    cases i with
    | zero =>
      obtain rfl := Option.some.inj h
      rw [List.set_cons_zero, List.map_cons, List.map_cons, List.sum_cons, List.sum_cons,
        Nat.add_right_comm, Nat.add_comm (f y), Nat.add_right_comm]
    | succ i =>
      rw [List.set_cons_succ, List.map_cons, List.map_cons, List.sum_cons, List.sum_cons,
        Nat.add_assoc, ih h, Nat.add_assoc]

theorem countP_eq_sum {α : Type} (p : α → Bool) (l : List α) :
    l.countP p = (l.map fun x => (p x).toNat).sum := by
  induction l with
  | nil => rfl
  | cons x l ih =>
    rw [List.countP_cons, List.map_cons, List.sum_cons, ih, Nat.add_comm]
    cases p x <;> rfl

theorem countP_set_add {α : Type} (p : α → Bool) {l : List α} {i : Nat} {x : α}
    (h : l[i]? = some x) (y : α) :
    (l.set i y).countP p + (p x).toNat = l.countP p + (p y).toNat := by
  rw [countP_eq_sum, countP_eq_sum]
  exact sum_set_add (fun x => (p x).toNat) h y

/-! ## The phases of `Stop` -/

/-- No `AsyncLoad` call runs any more. -/
def StopPhase.idle : StopPhase → Bool
  | .notCalled => false
  | .unloading _ => false
  | _ => true

/-- The versions that may be live, when no live one has been found. -/
def StopPhase.unseen : StopPhase → Option (List (String × Int))
  | .scanning versions [] => some versions
  | .scanned [] => some []
  | .returned true => some []
  | _ => none

/-! ## The accounts -/

/-- A request keeps its handle until nothing more is done with the backend, and it is counted
while it is worked on. -/
structure HandledRequest.Ok (r : HandledRequest) : Prop where
  handle : r.state.ended = false → r.handle = r.kind.backend
  inflight : r.state = .inflight → r.counted = true
  counted : r.counted = true → r.state = .inflight ∨ r.state = .answered

theorem HandledRequest.Ok.uncounted {r : HandledRequest} (h : r.Ok)
    (hinflight : r.state ≠ .inflight) (hanswered : r.state ≠ .answered) : r.counted = false :=
  Bool.eq_false_iff.mpr fun hcounted => (h.counted hcounted).elim hinflight hanswered

namespace InferenceServer

/-- The requests for which the handle of a version is kept alive. -/
def holders (requests : List HandledRequest) (name : String) (version : Int) : Nat :=
  requests.countP fun r => r.handle = some (name, version)

/-- The references and the counter agree with the requests. -/
structure Accounted (s : InferenceServer) : Prop where
  entries : Refines (fun _ => True) (fun v => v.life.Held) s.server.lifeCycle
  references : ∀ name version,
    s.server.lifeCycle.references name version = holders s.requests name version
  counter : s.inflightRequestCounter = s.requests.countP HandledRequest.counted
  requests : ∀ r ∈ s.requests, r.Ok

variable {s t : InferenceServer}

theorem ok_new (kind : RequestKind) : ({ kind } : HandledRequest).Ok where
  handle _ := rfl
  inflight h := by cases h
  counted h := by cases h

/-- What a handler does to a request. -/
theorem Handled.spec {r r' : HandledRequest} {taken given : Nat}
    (h : Handled s r r' taken given) (hr : r.Ok) :
    r'.Ok ∧ r'.handle = r.handle ∧ r'.kind = r.kind ∧
      r'.counted.toNat + given = r.counted.toNat + taken := by
  cases h with
  | refused haccepted =>
    have huncounted := hr.uncounted (haccepted ▸ nofun) (haccepted ▸ nofun)
    refine ⟨⟨nofun, nofun, fun h => ?_⟩, rfl, rfl, rfl⟩
    cases huncounted.symm.trans h
  | passed haccepted =>
    have huncounted := hr.uncounted (haccepted ▸ nofun) (haccepted ▸ nofun)
    refine ⟨⟨fun _ => hr.handle ?_, nofun, fun h => ?_⟩, rfl, rfl, rfl⟩
    · rw [haccepted]
      rfl
    · cases huncounted.symm.trans h
  | counted hpassed =>
    have huncounted := hr.uncounted (hpassed ▸ nofun) (hpassed ▸ nofun)
    refine ⟨⟨fun _ => hr.handle ?_, fun _ => rfl, fun _ => .inl rfl⟩, rfl, rfl, ?_⟩
    · rw [hpassed]
      rfl
    · rw [huncounted]
      rfl
  | answered hgoing => exact ⟨⟨nofun, nofun, fun _ => .inr rfl⟩, rfl, rfl, rfl⟩
  | uncounted hanswered hcounted =>
    refine ⟨⟨fun h => ?_, fun h => ?_, nofun⟩, rfl, rfl, ?_⟩
    · rw [hanswered] at h
      cases h
    · cases hanswered.symm.trans h
    · rw [hcounted]
      rfl

/-! ## Every step keeps the accounts -/

theorem step_asyncLoad {lifeCycle : BackendLifeCycle} (hrunning : lifeCycle.running = none)
    (call : LoadCall) : lifeCycle.step (.asyncLoad call) = some (lifeCycle.asyncLoad call) :=
  if_pos (Option.isNone_iff_eq_none.mpr hrunning)

/-- What a step of the repository manager does to the entries. -/
theorem lifeCycle_step {server server' : Server} {a : ServerAction}
    (h : server.step a = some server') :
    server'.lifeCycle = server.lifeCycle ∨
      ∃ action, server.lifeCycle.step action = some server'.lifeCycle ∧
        ∀ name version event, action = .event name version event →
          a = .event name version event := by
  cases a with
  | poll snapshot =>
    simp only [Server.step] at h
    split at h
    · obtain rfl := Option.some.inj h
      rcases Server.beginRound_cases server snapshot with heq | ⟨_, _, -, heq⟩
      · exact .inl (by rw [heq])
      · exact .inl (by rw [heq])
    · cases h
  | update subdirs =>
    simp only [Server.step] at h
    split at h
    · cases h
    · split at h
      · next hrunning =>
        rcases Server.nextUpdate_cases h with ⟨m, call, -, rfl⟩ | ⟨m, status, -, rfl⟩
        · exact .inr ⟨.asyncLoad call, step_asyncLoad hrunning call, by rintro _ _ _ ⟨⟩⟩
        · exact .inl rfl
      · cases h
  | advance =>
    obtain ⟨lifeCycle, hstep, rfl⟩ := Option.map_eq_some_iff.mp h
    exact .inr ⟨.advance, hstep, by rintro _ _ _ ⟨⟩⟩
  | event name version event =>
    obtain ⟨lifeCycle, hstep, rfl⟩ := Option.map_eq_some_iff.mp h
    refine .inr ⟨.event name version event, hstep, fun _ _ _ heq => ?_⟩
    cases heq
    rfl

theorem dropEvent_spec (e : Entry) : e.dropEvent.taken = 0 ∧ e.dropEvent.dropped = 1 := by
  unfold Entry.dropEvent
  split
  · exact ⟨rfl, rfl⟩
  · exact ⟨rfl, rfl⟩

theorem step_event {server server' : Server} {name : String} {version : Int} {event : Event}
    (h : server.step (.event name version event) = some server') :
    server.lifeCycle.step (.event name version event) = some server'.lifeCycle ∧
      server' = { server with lifeCycle := server'.lifeCycle } := by
  obtain ⟨lifeCycle, hstep, rfl⟩ := Option.map_eq_some_iff.mp h
  exact ⟨hstep, rfl⟩

/-- A step on the entries. -/
theorem Accounted.refines (hs : s.Accounted) {action : Action} {lifeCycle : BackendLifeCycle}
    (h : s.server.lifeCycle.step action = some lifeCycle) :
    Refines (fun _ => True) (fun v => v.life.Held) lifeCycle :=
  refines_step kept_held hs.entries (creates_true _ _) h

/-- A step that neither takes nor drops a reference. -/
theorem Accounted.server (hs : s.Accounted) {a : ServerAction} {server : Server}
    (hallowed : s.allows a = true) (h : s.server.step a = some server) :
    Accounted { s with server } := by
  rcases lifeCycle_step h with heq | ⟨action, hstep, hevent⟩
  · exact ⟨heq ▸ hs.entries, fun name version => heq ▸ hs.references name version, hs.counter,
      hs.requests⟩
  · refine ⟨hs.refines hstep, fun name version => ?_, hs.counter, hs.requests⟩
    refine Eq.trans ?_ (hs.references name version)
    have hreferences := references_step hs.entries hstep name version
    -- the threads of the life cycle hold no handles
    have hnone : action.taken name version = 0 ∧ action.dropped name version = 0 := by
      cases action with
      | asyncLoad call => exact ⟨rfl, rfl⟩
      | advance => exact ⟨rfl, rfl⟩
      | event name' version' event =>
        rw [hevent _ _ _ rfl] at hallowed
        cases event with
        | copyConfig | create | onDestroy => exact ⟨ite_self _, ite_self _⟩
        | _ => cases hallowed
    rwa [hnone.1, hnone.2] at hreferences

/-- A request for inference gets a handle. -/
theorem Accounted.acceptedInfer (hs : s.Accounted) {name : String} {version : Int}
    {server : Server}
    (h : s.server.step (.event name version .getBackendHandle) = some server) :
    Accounted { s with server, requests := s.requests ++ [{ kind := .infer name version }] } := by
  obtain ⟨hstep, -⟩ := step_event h
  refine ⟨hs.refines hstep, fun name' version' => ?_, ?_, fun r hr => ?_⟩
  · have hreferences := references_step hs.entries hstep name' version'
    have hnone : (Action.event name version .getBackendHandle).dropped name' version' = 0 :=
      ite_self _
    rw [hs.references, hnone] at hreferences
    refine hreferences.trans (.trans (congrArg _ ?_) List.countP_append.symm)
    by_cases hkey : name' = name ∧ version' = version
    · obtain ⟨rfl, rfl⟩ := hkey
      simp [Action.taken, Event.taken, RequestKind.backend]
    · have hne : ¬ (name = name' ∧ version = version') := fun h => hkey ⟨h.1.symm, h.2.symm⟩
      simp [Action.taken, RequestKind.backend, hkey, hne]
  · rw [hs.counter, List.countP_append]
    rfl
  · rcases List.mem_append.mp hr with hr | hr
    · exact hs.requests r hr
    · rw [List.mem_singleton.mp hr]
      exact ok_new _

/-- A request drops its handle. -/
theorem Accounted.letGo (hs : s.Accounted) {i : Nat} {r : HandledRequest} {name : String}
    {version : Int} {e : Entry} {server : Server} (hr : s.requests[i]? = some r)
    (hended : r.state.ended = true) (hhandle : r.handle = some (name, version))
    (h : s.server.step (.event name version e.dropEvent) = some server) :
    Accounted { s.setRequest i { r with handle := none } with server } := by
  obtain ⟨hstep, -⟩ := step_event h
  have hok := hs.requests r (List.mem_of_getElem? hr)
  refine ⟨hs.refines hstep, fun name' version' => ?_, ?_, fun r' hr' => ?_⟩
  · have hreferences := references_step hs.entries hstep name' version'
    have hholders := countP_set_add (fun r => decide (r.handle = some (name', version'))) hr
      { r with handle := none }
    rw [hs.references] at hreferences
    have hdropped : (Action.event name version e.dropEvent).dropped name' version' =
        (decide (r.handle = some (name', version'))).toNat := by
      by_cases hkey : name' = name ∧ version' = version
      · obtain ⟨rfl, rfl⟩ := hkey
        simp [Action.dropped, hhandle, (dropEvent_spec e).2]
      · have hne : ¬ (name = name' ∧ version = version') := fun h => hkey ⟨h.1.symm, h.2.symm⟩
        simp [Action.dropped, hhandle, hkey, hne]
    have htaken : (Action.event name version e.dropEvent).taken name' version' = 0 := by
      simp only [Action.taken, (dropEvent_spec e).1, ite_self]
    rw [htaken, hdropped] at hreferences
    exact Nat.add_right_cancel (hreferences.trans hholders.symm)
  · have hcounted := countP_set_add HandledRequest.counted hr { r with handle := none }
    exact hs.counter.trans (Nat.add_right_cancel hcounted).symm
  · rcases List.mem_or_eq_of_mem_set hr' with hr' | rfl
    · exact hs.requests r' hr'
    · refine ⟨fun hgoing => ?_, hok.inflight, hok.counted⟩
      cases hended.symm.trans hgoing

/-- A handler goes on. -/
theorem Accounted.handled (hs : s.Accounted) {i : Nat} {r r' : HandledRequest}
    {taken given : Nat} (hr : s.requests[i]? = some r) (h : Handled s r r' taken given) :
    Accounted { s.setRequest i r' with
      inflightRequestCounter := s.inflightRequestCounter + taken - given } := by
  obtain ⟨hok, hhandle, -, hcount⟩ := h.spec (hs.requests r (List.mem_of_getElem? hr))
  refine ⟨hs.entries, fun name version => ?_, ?_, fun r'' hr'' => ?_⟩
  · have hholders := countP_set_add (fun r => decide (r.handle = some (name, version))) hr r'
    rw [hhandle] at hholders
    exact (hs.references name version).trans (Nat.add_right_cancel hholders).symm
  · have hcounted := countP_set_add HandledRequest.counted hr r'
    show s.inflightRequestCounter + taken - given = (s.requests.set i r').countP _
    rw [hs.counter]
    omega
  · rcases List.mem_or_eq_of_mem_set hr'' with hr'' | rfl
    · exact hs.requests r'' hr''
    · exact hok

theorem Accounted.step (hs : s.Accounted) {a : ServingAction} (h : s.step a = some t) :
    t.Accounted := by
  cases stepped h with
  | server allowed hstep => exact hs.server allowed hstep
  | accepted backend =>
    refine ⟨hs.entries, fun name version => (hs.references name version).trans ?_,
      hs.counter.trans ?_, fun r hr => ?_⟩
    · simp [holders, backend]
    · simp
    · rcases List.mem_append.mp hr with hr | hr
      · exact hs.requests r hr
      · rw [List.mem_singleton.mp hr]
        exact ok_new _
  | acceptedInfer unlocked hstep => exact hs.acceptedInfer hstep
  | handled request does => exact hs.handled request does
  | letGo request ended handle entry hstep => exact hs.letGo request ended handle hstep
  | @unload name names unloading running =>
    have hstep := step_asyncLoad running { name := name, versions := [], config := {} }
    exact ⟨hs.refines hstep, fun name version =>
      (references_step hs.entries hstep name version).trans (hs.references name version),
      hs.counter, hs.requests⟩
  | exiting | stop | failed | sleep =>
    exact ⟨hs.entries, hs.references, hs.counter, hs.requests⟩

/-- In every run every reference to a handle is one that a request keeps alive, and the counter
is the number of the requests that are counted. -/
theorem accounted_of_reachable {exitTimeoutSecs : Nat}
    (h : Reachable step (init exitTimeoutSecs) s) : s.Accounted :=
  h.invariant
    { entries := refines_of_reachable kept_held (.start)
      references := fun _ _ => rfl
      counter := rfl
      requests := fun _ hr => absurd hr List.not_mem_nil }
    fun _ _ _ hs _ hstep => hs.step hstep

/-! ## What `Stop` has seen -/

/-- `Stop` has found what there is, and nothing comes after it. -/
structure Stopping (s : InferenceServer) : Prop where
  round : s.stop ≠ .notCalled → s.server.round = []
  running : s.stop.idle = true → s.server.lifeCycle.running = none
  dead : ∀ versions, s.stop.unseen = some versions → ∀ name version, (name, version) ∉ versions →
    ∀ e, s.server.lifeCycle.entry name version = some e → e.live = false
  uncounted : s.stop = .returned true → ∀ r ∈ s.requests, r.kind.backend ≠ none →
    r.counted = false

theorem idle_of_unseen {phase : StopPhase} {versions : List (String × Int)}
    (h : phase.unseen = some versions) : phase.idle = true := by
  cases phase with
  | notCalled | unloading => cases h
  | _ => rfl

theorem stopping_notCalled (h : s.stop = .notCalled) : s.Stopping where
  round hcalled := absurd h hcalled
  running hidle := by
    rw [h] at hidle
    cases hidle
  dead versions hunseen := by
    rw [h] at hunseen
    cases hunseen
  uncounted hreturned := by cases h.symm.trans hreturned

/-- When `Stop` has found every version dead, no request has a handle. -/
theorem handle_of_unseen (hs : s.Accounted) (hstop : s.Stopping) (h : s.stop.unseen = some [])
    {r : HandledRequest} (hr : r ∈ s.requests) : r.handle = none := by
  cases hhandle : r.handle with
  | none => rfl
  | some key =>
    obtain ⟨name, version⟩ := key
    have hreferences : s.server.lifeCycle.references name version = 0 := by
      cases he : s.server.lifeCycle.entry name version with
      | none => rw [BackendLifeCycle.references, he]; rfl
      | some e =>
        exact references_dead hs.entries he (hstop.dead [] h name version List.not_mem_nil e he)
    have hpos : 0 < holders s.requests name version :=
      List.countP_pos_iff.mpr ⟨r, hr, decide_eq_true hhandle⟩
    rw [← hs.references, hreferences] at hpos
    cases hpos

/-- The entries go on, with no call of `AsyncLoad`. -/
theorem Stopping.event (hs : s.Accounted) (hstop : s.Stopping) {name : String} {version : Int}
    {event : Event} {server : Server}
    (h : s.server.step (.event name version event) = some server) : Stopping { s with server } := by
  obtain ⟨hstep, hserver⟩ := step_event h
  have hrunning : server.lifeCycle.running = s.server.lifeCycle.running := by
    rcases BackendLifeCycle.step_cases hstep with ⟨_, heq, -, -⟩ | ⟨_, heq, -, -⟩ |
      ⟨_, _, _, _, _, -, -, -, heq⟩
    · cases heq
    · cases heq
    · rw [heq]
      rfl
  refine ⟨fun hcalled => ?_, fun hidle => hrunning.trans (hstop.running hidle),
    fun versions hunseen name version hnot => ?_, hstop.uncounted⟩
  · rw [hserver]
    exact hstop.round hcalled
  · exact dead_event hs.entries hstep (hstop.dead versions hunseen name version hnot)

/-- The repository manager goes on. -/
theorem Stopping.server (hs : s.Accounted) (hstop : s.Stopping) {a : ServerAction}
    {server : Server} (hallowed : s.allows a = true) (h : s.server.step a = some server) :
    Stopping { s with server } := by
  cases a with
  | event name version event => exact hstop.event hs h
  | poll snapshot =>
    exact stopping_notCalled (of_decide_eq_true ((Bool.and_eq_true _ _).mp hallowed).2)
  | update subdirs =>
    have hnotCalled : s.stop = .notCalled := by
      by_contra hcalled
      simp only [Server.step, hstop.round hcalled] at h
      cases h
    exact stopping_notCalled hnotCalled
  | advance =>
    obtain ⟨lifeCycle, hstep, rfl⟩ := Option.map_eq_some_iff.mp h
    obtain ⟨r, hr, -⟩ := Option.map_eq_some_iff.mp hstep
    have hbusy : s.stop.idle ≠ true := fun hidle => by
      cases (hstop.running hidle).symm.trans hr
    refine ⟨hstop.round, fun hidle => absurd hidle hbusy,
      fun versions hunseen => absurd (idle_of_unseen hunseen) hbusy, fun hreturned => ?_⟩
    exact absurd (by rw [hreturned]; rfl) hbusy

/-- The handlers go on. -/
theorem Stopping.requests (hstop : s.Stopping) {requests : List HandledRequest} {counter : Nat}
    (h : s.stop = .returned true → ∀ r ∈ requests, r.kind.backend ≠ none → r.counted = false) :
    Stopping { s with requests, inflightRequestCounter := counter } :=
  ⟨hstop.round, hstop.running, hstop.dead, h⟩

/-- A handler that goes on does not count a request for inference behind the end of `Stop`: it
would have a handle. -/
theorem Stopping.handled (hs : s.Accounted) (hstop : s.Stopping) {i : Nat}
    {r r' : HandledRequest} {taken given : Nat} (hr : s.requests[i]? = some r)
    (h : Handled s r r' taken given) :
    Stopping { s.setRequest i r' with
      inflightRequestCounter := s.inflightRequestCounter + taken - given } := by
  refine hstop.requests fun hreturned r'' hr'' hbackend => ?_
  have hmem := List.mem_of_getElem? hr
  rcases List.mem_or_eq_of_mem_set hr'' with hr'' | rfl
  · exact hstop.uncounted hreturned r'' hr'' hbackend
  · cases h with
    | counted hpassed =>
      have hhandle := (hs.requests r hmem).handle (hpassed ▸ rfl)
      have hnone := handle_of_unseen hs hstop (hreturned ▸ rfl) hmem
      exact absurd (hhandle.symm.trans hnone) hbackend
    | uncounted => rfl
    | _ => exact hstop.uncounted hreturned r hmem hbackend

/-- `Stop` goes on by itself. -/
theorem Stopping.stop (hs : s.Accounted) (hstop : s.Stopping) {phase : StopPhase}
    (h : Stopped s phase) : Stopping { s with stop := phase } := by
  cases h with
  | unloaded unloading running =>
    exact ⟨fun _ => hstop.round (unloading ▸ nofun), fun _ => running, nofun, nofun⟩
  | scan waiting =>
    refine ⟨fun _ => hstop.round (waiting ▸ nofun), fun _ => hstop.running (waiting ▸ rfl),
      fun versions hunseen name version hnot e he => absurd ?_ hnot, nofun⟩
    cases hunseen
    obtain ⟨entries, hname, hversion⟩ := BackendLifeCycle.entry_eq_some_iff.mp he
    exact List.mem_flatMap.mpr ⟨_, hname, List.mem_map.mpr ⟨_, hversion, rfl⟩⟩
  | @next name version versions live scanning =>
    refine ⟨fun _ => hstop.round (scanning ▸ nofun), fun _ => hstop.running (scanning ▸ rfl),
      fun versions' hunseen name' version' hnot e he => ?_, nofun⟩
    cases live with
    | cons => cases hunseen
    | nil =>
      by_cases hkey : (name', version') = (name, version)
      · cases hkey
        -- the version that has just been looked at
        by_contra hlive
        have hfound : e.live = true := Bool.eq_true_of_not_eq_false hlive
        rw [he, Option.map_some, Option.getD_some, hfound] at hunseen
        cases hunseen
      · refine hstop.dead ((name, version) :: versions) (scanning ▸ rfl) name' version'
          (fun hmem => ?_) e he
        rcases List.mem_cons.mp hmem with heq | hmem
        · exact hkey heq
        · split at hunseen
          · cases hunseen
          · cases hunseen
            exact hnot hmem
  | @scanned live scanning =>
    refine ⟨fun _ => hstop.round (scanning ▸ nofun), fun _ => hstop.running (scanning ▸ rfl),
      fun versions hunseen => ?_, nofun⟩
    cases live with
    | nil =>
      cases hunseen
      exact hstop.dead [] (scanning ▸ rfl)
    | cons => cases hunseen
  | clean scanned counter =>
    refine ⟨fun _ => hstop.round (scanned ▸ nofun), fun _ => hstop.running (scanned ▸ rfl),
      fun versions hunseen => ?_, fun _ r hr _ => ?_⟩
    · cases hunseen
      exact hstop.dead [] (scanned ▸ rfl)
    · exact Bool.eq_false_iff.mpr (List.countP_eq_zero.mp (hs.counter.symm.trans counter) r hr)

theorem Stopping.step (hs : s.Accounted) (hstop : s.Stopping) {a : ServingAction}
    (h : s.step a = some t) : t.Stopping := by
  cases stepped h with
  | server allowed hstep => exact hstop.server hs allowed hstep
  | accepted backend =>
    refine hstop.requests fun hreturned r hr hbackend => ?_
    rcases List.mem_append.mp hr with hr | hr
    · exact hstop.uncounted hreturned r hr hbackend
    · rw [List.mem_singleton.mp hr]
  | acceptedInfer unlocked hstep =>
    refine (hstop.event hs hstep).requests fun hreturned r hr hbackend => ?_
    rcases List.mem_append.mp hr with hr | hr
    · exact hstop.uncounted hreturned r hr hbackend
    · rw [List.mem_singleton.mp hr]
  | handled request does => exact hstop.handled hs request does
  | @letGo i r name version e server request ended handle entry hstep =>
    refine (hstop.event hs hstep).requests fun hreturned r' hr' hbackend => ?_
    rcases List.mem_or_eq_of_mem_set hr' with hr' | rfl
    · exact hstop.uncounted hreturned r' hr' hbackend
    · exact hstop.uncounted hreturned r (List.mem_of_getElem? request) hbackend
  | exiting notCalled round => exact ⟨fun _ => round, nofun, nofun, nofun⟩
  | unload unloading running =>
    exact ⟨fun _ => hstop.round (unloading ▸ nofun), nofun, nofun, nofun⟩
  | stop stopped => exact hstop.stop hs stopped
  | failed scanned iters busy =>
    exact ⟨fun _ => hstop.round (scanned ▸ nofun), fun _ => hstop.running (scanned ▸ rfl), nofun,
      nofun⟩
  | sleep scanned iters busy =>
    exact ⟨fun _ => hstop.round (scanned ▸ nofun), fun _ => hstop.running (scanned ▸ rfl), nofun,
      nofun⟩

theorem stopping_of_reachable {exitTimeoutSecs : Nat}
    (h : Reachable step (init exitTimeoutSecs) s) : s.Stopping := by
  refine (h.invariant (P := fun s => s.Accounted ∧ s.Stopping)
    ⟨accounted_of_reachable .start, stopping_notCalled rfl⟩ fun _ _ _ hs _ hstep => ?_).2
  exact ⟨hs.1.step hstep, hs.2.step hs.1 hstep⟩

/-! ## Behind `Stop` -/

/-- The entry of a version that is unknown or unavailable has nothing outstanding. -/
theorem idle_of_dead {lifeCycle : BackendLifeCycle}
    (hs : Refines (fun _ => True) (fun v => v.life.Held) lifeCycle) {name : String}
    {version : Int} {e : Entry} (he : lifeCycle.entry name version = some e)
    (hdead : e.live = false) :
    e.handle = none ∧ e.creations = [] ∧ e.released = [] ∧ e.callbacks = [] := by
  obtain ⟨⟨platform, modelConfig, life, lastRequest, lastBuild⟩, rfl, -⟩ := hs.version _ _ _ he
  cases life with
  | unknown | unavailable => exact ⟨rfl, rfl, rfl, rfl⟩
  | _ => cases hdead

/-- No request gets a handle of a version that is not ready. -/
theorem accept_unready {name : String} {version : Int}
    (h : ∀ e, s.server.lifeCycle.entry name version = some e → e.state ≠ .ready) :
    s.step (.accept (.infer name version)) = none := by
  have hnone : s.server.step (.event name version .getBackendHandle) = none := by
    cases hstep : s.server.step (.event name version .getBackendHandle) with
    | none => rfl
    | some server =>
      rcases BackendLifeCycle.step_cases (step_event hstep).1 with ⟨_, heq, -, -⟩ |
        ⟨_, heq, -, -⟩ | ⟨_, _, _, e, e', heq, he, he', -⟩
      · cases heq
      · cases heq
      · cases heq
        simp only [Entry.after] at he'
        split at he'
        · next hready _ => exact absurd hready (h e he)
        · cases he'
  simp only [step, accept, within, hnone, Option.map_none, ite_self]

/-- In every run: when `Stop` has returned `true`, then from there on no version is live or being
created or destroyed, no request can get a handle, and every request for inference that has ever
got one has dropped it, is not counted, and has been answered or refused. -/
theorem clean_of_returned {exitTimeoutSecs : Nat}
    (h : Reachable step (init exitTimeoutSecs) s) (hreturned : s.stop = .returned true) :
    (∀ name version e, s.server.lifeCycle.entry name version = some e →
      e.live = false ∧ e.handle = none ∧ e.creations = [] ∧ e.released = [] ∧ e.callbacks = []) ∧
    (∀ name version, s.step (.accept (.infer name version)) = none) ∧
    ∀ r ∈ s.requests, r.kind.backend ≠ none →
      r.handle = none ∧ r.counted = false ∧ (r.state = .refused ∨ r.state = .answered) := by
  have hs := accounted_of_reachable h
  have hstop := stopping_of_reachable h
  have hunseen : s.stop.unseen = some [] := hreturned ▸ rfl
  have hdead (name : String) (version : Int) := hstop.dead [] hunseen name version List.not_mem_nil
  refine ⟨fun name version e he => ⟨hdead name version e he, idle_of_dead hs.entries he ?_⟩,
    fun name version => accept_unready fun e he hready => ?_, fun r hr hbackend => ?_⟩
  · exact hdead name version e he
  · have hlive := hdead name version e he
    rw [Entry.live, hready] at hlive
    cases hlive
  · have hnone := handle_of_unseen hs hstop hunseen hr
    refine ⟨hnone, hstop.uncounted hreturned r hr hbackend, ?_⟩
    by_contra hgoing
    rw [not_or] at hgoing
    refine hbackend ((hs.requests r hr).handle ?_ ▸ hnone)
    cases hstate : r.state with
    | refused => exact absurd hstate hgoing.1
    | answered => exact absurd hstate hgoing.2
    | _ => rfl

/-- A request that was past `ready_state_` before `Stop` and is counted behind its first look at
the counter. -/
theorem clean_lateCount :
    ∃ s, Reachable step (init 5) s ∧ s.stop = .returned true ∧ s.requests.length = 1 ∧
      ∀ r ∈ s.requests, r.kind.backend ≠ none →
        r.handle = none ∧ r.counted = false ∧ (r.state = .refused ∨ r.state = .answered) := by
  have hrun : ((runWhen step (fun _ _ => True) (init 5) (Server.loadFirst.map .server ++
      [.accept (.infer "bert" 1), .check 0, .stopBegin ["bert"], .stop, .server .advance,
        .server .advance, .stop, .stop, .stop, .stop, .stop, .count 0, .answer 0, .letGo 0,
        .server (.event "bert" 1 (.onDestroy 0)), .uncount 0, .stop, .stop, .stop, .stop])).map
      fun s => decide (s.stop = .returned true ∧ s.requests.length = 1)) = some true := by
    decide
  obtain ⟨s, hs, hchecked⟩ := exists_of_runWhen hrun
  obtain ⟨hreturned, hlength⟩ := of_decide_eq_true hchecked
  exact ⟨s, hs, hreturned, hlength, (clean_of_returned hs hreturned).2.2⟩

end InferenceServer

end FinBert.Repository
