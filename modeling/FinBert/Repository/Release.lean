import FinBert.Repository.Backends

/-!
# The release of unloaded backends

`release_thread_` and `release_queue_` of `BackendLifeCycle` (`model_repository_manager.cc`). The
callback of a handle that is destroyed puts the backend into a queue, from which a thread of its
own takes the backends, to release them after a while.

Results:
1. `ledger_of_reachable`: no backend is lost or released twice, in any run.
2. `stranded_of_reachable`: what comes behind the only pass of the thread is never released.
3. `releasable_step_iff`: the steps that keep every backend in the queue releasable.
4. `releasable_of_timely`: the same over every run.
-/

namespace FinBert.Repository

open FinBert.Serving Transition

/-! ## The release thread -/

/-- `release_thread_`. Its function makes one pass: it takes the queue, sleeps for 5000 ms with
what it has taken, and releases it. -/
inductive ReleaseThread
  | started
  | sleeping (releasingBackend : List (Option InferenceBackend))
  | terminated
deriving DecidableEq

/-- What the thread holds. -/
def ReleaseThread.releasing : ReleaseThread → List (Option InferenceBackend)
  | .sleeping releasingBackend => releasingBackend
  | _ => []

/-- `BackendLifeCycle` from its constructor to its destructor.

* `callbacks`: the backends of the callbacks that have left the section of their entry.
* `joined`: the destructor is past the thread.
* `pushed`, `released`: what has gone into the queue and what the thread has released. -/
structure ReleaseCycle where
  lifeCycle : BackendLifeCycle
  exiting : Bool := false
  joined : Bool := false
  releaseThread : ReleaseThread := .started
  releaseQueue : List (Option InferenceBackend) := []
  callbacks : List (Option InferenceBackend) := []
  pushed : List (Option InferenceBackend) := []
  released : List (Option InferenceBackend) := []
deriving DecidableEq

/-- `BackendLifeCycle::BackendLifeCycle`. -/
def ReleaseCycle.create : ReleaseCycle where
  lifeCycle := .create

/-- The backend of a callback that enters the section of its entry. -/
def BackendLifeCycle.destroyed (s : BackendLifeCycle) : Action → List (Option InferenceBackend)
  | .event name version (.onDestroy callback) =>
    ((s.entry name version).bind fun e => e.callbacks[callback]?).toList
  | _ => []

/-- A step. The sections of `release_queue_mtx_` are `push`, `pass` and `exit`. -/
inductive ReleaseAction
  /-- A step on the entries. -/
  | life (a : Action)
  /-- The end of the `OnDestroy` callback. -/
  | push (callback : Nat)
  /-- The pass of the thread, up to where it sleeps. -/
  | pass
  /-- The end of the pass, which ends the thread. -/
  | release
  /-- The destructor begins. -/
  | exit
  /-- The destructor joins the thread. -/
  | join

namespace ReleaseCycle

/-- One step. Behind `join` the queue and the entries are destroyed. -/
def step (s : ReleaseCycle) : ReleaseAction → Option ReleaseCycle
  | .life a =>
    if s.joined then none
    else (s.lifeCycle.step a).map fun lifeCycle =>
      { s with lifeCycle, callbacks := s.callbacks ++ s.lifeCycle.destroyed a }
  | .push callback =>
    if s.joined then none
    else s.callbacks[callback]?.map fun is =>
      { s with
        callbacks := s.callbacks.eraseIdx callback
        releaseQueue := s.releaseQueue ++ [is]
        pushed := s.pushed ++ [is] }
  | .pass =>
    match s.releaseThread with
    | .started =>
      if s.exiting && s.releaseQueue.isEmpty then some { s with releaseThread := .terminated }
      else some { s with releaseThread := .sleeping s.releaseQueue, releaseQueue := [] }
    | _ => none
  | .release =>
    match s.releaseThread with
    | .sleeping releasingBackend =>
      some { s with
        releaseThread := .terminated, released := s.released ++ releasingBackend }
    | _ => none
  | .exit => if s.exiting then none else some { s with exiting := true }
  | .join =>
    if s.exiting && !s.joined && decide (s.releaseThread = .terminated) then
      some { s with joined := true }
    else none

/-- As long as the life cycle is in use the thread has not ended, and what is in the queue is
still to be taken by it. -/
structure Releasable (s : ReleaseCycle) : Prop where
  alive : s.exiting = false → s.releaseThread ≠ .terminated
  taken : s.releaseQueue ≠ [] → s.releaseThread = .started

/-- The condition on a step: the thread wakes up behind the begin of the destructor, and no
callback gets to the queue behind the pass of the thread. -/
def Timely (s : ReleaseCycle) : ReleaseAction → Prop
  | .release => s.exiting = true
  | .push _ => s.releaseThread = .started
  | _ => True

instance (s : ReleaseCycle) : (a : ReleaseAction) → Decidable (Timely s a)
  | .life _ => .isTrue trivial
  | .push _ => inferInstanceAs (Decidable (_ = _))
  | .pass => .isTrue trivial
  | .release => inferInstanceAs (Decidable (_ = _))
  | .exit => .isTrue trivial
  | .join => .isTrue trivial

/-! ## What a step does -/

/-- A step, with what it needs and what it leads to. -/
inductive Stepped (s : ReleaseCycle) : ReleaseAction → ReleaseCycle → Prop
  | life {a : Action} {lifeCycle : BackendLifeCycle} (joined : s.joined = false)
      (stepped : s.lifeCycle.step a = some lifeCycle) :
      Stepped s (.life a)
        { s with lifeCycle, callbacks := s.callbacks ++ s.lifeCycle.destroyed a }
  | push {callback : Nat} {is : Option InferenceBackend} (joined : s.joined = false)
      (found : s.callbacks[callback]? = some is) :
      Stepped s (.push callback)
        { s with
          callbacks := s.callbacks.eraseIdx callback
          releaseQueue := s.releaseQueue ++ [is]
          pushed := s.pushed ++ [is] }
  | returned (started : s.releaseThread = .started) (exiting : s.exiting = true)
      (empty : s.releaseQueue = []) :
      Stepped s .pass { s with releaseThread := .terminated }
  | passed (started : s.releaseThread = .started) :
      Stepped s .pass { s with releaseThread := .sleeping s.releaseQueue, releaseQueue := [] }
  | release {releasingBackend : List (Option InferenceBackend)}
      (sleeping : s.releaseThread = .sleeping releasingBackend) :
      Stepped s .release
        { s with releaseThread := .terminated, released := s.released ++ releasingBackend }
  | exit (running : s.exiting = false) : Stepped s .exit { s with exiting := true }
  | join (exiting : s.exiting = true) (terminated : s.releaseThread = .terminated) :
      Stepped s .join { s with joined := true }

theorem stepped {s t : ReleaseCycle} {a : ReleaseAction} (h : step s a = some t) :
    Stepped s a t := by
  cases a with
  | life a =>
    rw [step] at h
    split at h
    · cases h
    · next hjoined =>
      obtain ⟨lifeCycle, hstep, rfl⟩ := Option.map_eq_some_iff.mp h
      exact .life (Bool.eq_false_iff.mpr hjoined) hstep
  | push callback =>
    rw [step] at h
    split at h
    · cases h
    · next hjoined =>
      obtain ⟨is, hfound, rfl⟩ := Option.map_eq_some_iff.mp h
      exact .push (Bool.eq_false_iff.mpr hjoined) hfound
  | pass =>
    rw [step] at h
    split at h
    · next hstarted =>
      split at h
      · next hdone =>
        obtain rfl := Option.some.inj h
        rw [Bool.and_eq_true, List.isEmpty_iff] at hdone
        exact .returned hstarted hdone.1 hdone.2
      · obtain rfl := Option.some.inj h
        exact .passed hstarted
    · cases h
  | release =>
    rw [step] at h
    split at h
    · next hsleeping =>
      obtain rfl := Option.some.inj h
      exact .release hsleeping
    · cases h
  | exit =>
    rw [step] at h
    split at h
    · cases h
    · next hrunning =>
      obtain rfl := Option.some.inj h
      exact .exit (Bool.eq_false_iff.mpr hrunning)
  | join =>
    rw [step] at h
    split at h
    · next hjoin =>
      obtain rfl := Option.some.inj h
      rw [Bool.and_eq_true, Bool.and_eq_true, decide_eq_true_eq] at hjoin
      exact .join hjoin.1.1 hjoin.2
    · cases h

/-- The steps on the entries are those of `BackendLifeCycle`. -/
theorem lifeCycle_of_reachable {s : ReleaseCycle} (h : Reachable step create s) :
    Reachable BackendLifeCycle.step .create s.lifeCycle := by
  refine h.invariant (P := fun s => Reachable BackendLifeCycle.step .create s.lifeCycle) .start
    fun s a t hs _ hstep => ?_
  cases stepped hstep with
  | life joined hlife => exact hs.step trivial hlife
  | _ => exact hs

/-! ## What becomes of a backend -/

/-- What has gone into the queue has been released, is held by the thread, or is in the queue. -/
def Ledger (s : ReleaseCycle) : Prop :=
  s.pushed = s.released ++ s.releaseThread.releasing ++ s.releaseQueue

theorem ledger_step {s t : ReleaseCycle} {a : ReleaseAction} (h : Ledger s)
    (hstep : step s a = some t) : Ledger t := by
  unfold Ledger at h ⊢
  cases stepped hstep with
  | life | exit | join => exact h
  | push joined found =>
    dsimp only
    rw [h, List.append_assoc]
  | returned started exiting empty =>
    rw [h, started]
    rfl
  | passed started =>
    rw [h, started]
    simp only [ReleaseThread.releasing, List.append_nil]
  | release sleeping =>
    rw [h, sleeping]
    simp only [ReleaseThread.releasing, List.append_nil]

/-- In every run, no backend is lost, and none is released twice. -/
theorem ledger_of_reachable {s : ReleaseCycle} (h : Reachable step create s) : Ledger s :=
  h.invariant (P := Ledger) (show Ledger create from rfl) fun _ _ _ hs _ hstep =>
    ledger_step hs hstep

/-- Behind its pass the thread takes nothing more: what is in the queue stays there. -/
theorem stranded_of_reachable {s t : ReleaseCycle} (hpassed : s.releaseThread ≠ .started)
    (h : Reachable step s t) :
    t.releaseThread ≠ .started ∧ s.releaseQueue <+: t.releaseQueue := by
  refine h.invariant (P := fun t => t.releaseThread ≠ .started ∧ s.releaseQueue <+: t.releaseQueue)
    ⟨hpassed, List.prefix_rfl⟩ fun t a u ⟨hthread, hprefix⟩ _ hstep => ?_
  cases stepped hstep with
  | life | exit | join => exact ⟨hthread, hprefix⟩
  | push => exact ⟨hthread, hprefix.trans (List.prefix_append _ _)⟩
  | returned started | passed started => exact absurd started hthread
  | release => exact ⟨ReleaseThread.noConfusion, hprefix⟩

/-! ## When every backend is releasable -/

theorem releasable_create : Releasable create where
  alive := fun _ => ReleaseThread.noConfusion
  taken := fun hne => absurd rfl hne

/-- From a state in which every backend in the queue is releasable, a step leads to another one
exactly if it is in time. -/
theorem releasable_step_iff {s t : ReleaseCycle} {a : ReleaseAction} (h : Releasable s)
    (hstep : step s a = some t) : Releasable t ↔ Timely s a := by
  cases stepped hstep with
  | life => exact iff_of_true ⟨h.alive, h.taken⟩ trivial
  | push =>
    refine ⟨fun ht => ht.taken (List.concat_ne_nil _ _), fun hstarted => ⟨h.alive, fun _ => ?_⟩⟩
    exact hstarted
  | returned started exiting empty =>
    refine iff_of_true ⟨fun hrunning => ?_, fun hne => absurd empty hne⟩ trivial
    rw [exiting] at hrunning
    cases hrunning
  | passed =>
    exact iff_of_true ⟨fun _ => ReleaseThread.noConfusion, fun hne => absurd rfl hne⟩ trivial
  | release sleeping =>
    have hempty : s.releaseQueue = [] := by
      by_contra hne
      rw [h.taken hne] at sleeping
      cases sleeping
    constructor
    · intro ht
      by_contra hrunning
      exact ht.alive (Bool.eq_false_iff.mpr hrunning) rfl
    · intro hexiting
      refine ⟨fun hrunning => ?_, fun hne => absurd hempty hne⟩
      rw [show s.exiting = true from hexiting] at hrunning
      cases hrunning
  | exit => exact iff_of_true ⟨fun hrunning => absurd hrunning Bool.noConfusion, h.taken⟩ trivial
  | join => exact iff_of_true ⟨h.alive, h.taken⟩ trivial

/-- In every run in which the thread wakes up behind the begin of the destructor and no callback
comes behind the pass of the thread, every backend in the queue is releasable. -/
theorem releasable_of_timely {s : ReleaseCycle} (h : ReachableWhen step Timely create s) :
    Releasable s :=
  h.invariant releasable_create fun _ _ _ hs htimely hstep =>
    (releasable_step_iff hs hstep).mpr htimely

/-- Such a run, when the destructor has joined the thread, has released all that was pushed. -/
theorem released_of_timely {s : ReleaseCycle} (h : ReachableWhen step Timely create s)
    (hterminated : s.releaseThread = .terminated) : s.released = s.pushed := by
  have hledger : Ledger s := ledger_of_reachable (h.weaken fun _ _ _ => trivial)
  have hempty : s.releaseQueue = [] := by
    by_contra hne
    rw [(releasable_of_timely h).taken hne] at hterminated
    cases hterminated
  rw [hledger, hterminated, hempty]
  simp only [ReleaseThread.releasing, List.append_nil]

/-- A version is loaded and unloaded, and its backend is in the queue. -/
def unloaded : List ReleaseAction :=
  [.life (.asyncLoad { name := "bert", versions := [1], config := customConfig }),
    .life .advance, .life (.event "bert" 1 (.copyConfig 0)), .life .advance,
    .life (.event "bert" 1 (.create 0 { cuda := .success 1 })),
    .life (.asyncLoad { name := "bert", versions := [], config := customConfig }),
    .life .advance, .life .advance, .life (.event "bert" 1 (.onDestroy 0)), .push 0]

/-- A backend that is unloaded before the pass, and a server that ends before the thread wakes
up. -/
theorem releasable_atOnce :
    ∃ s, ReachableWhen step Timely create s ∧ s.joined = true ∧ s.released.length = 1 ∧
      Releasable s := by
  have hrun : (runWhen step Timely create (unloaded ++ [.pass, .exit, .release, .join])).map
      (fun s => s.joined && decide (s.released.length = 1)) = some true := by decide
  obtain ⟨s, hreachable, hfacts⟩ := exists_of_runWhen hrun
  rw [Bool.and_eq_true, decide_eq_true_eq] at hfacts
  exact ⟨s, hreachable, hfacts.1, hfacts.2, releasable_of_timely hreachable⟩

/-- The thread ends while the server runs, and the backend that is unloaded then stays in the
queue. -/
theorem not_releasable_later :
    ∃ s, Reachable step create s ∧ s.exiting = false ∧ s.releaseThread = .terminated ∧
      s.releaseQueue.length = 1 ∧ ¬ Releasable s := by
  have hrun : (runWhen step (fun _ _ => True) create ([.pass, .release] ++ unloaded)).map
      (fun s => !s.exiting && decide (s.releaseThread = .terminated) &&
        decide (s.releaseQueue.length = 1)) = some true := by decide
  obtain ⟨s, hreachable, hfacts⟩ := exists_of_runWhen hrun
  rw [Bool.and_eq_true, Bool.and_eq_true, Bool.not_eq_true', decide_eq_true_eq,
    decide_eq_true_eq] at hfacts
  obtain ⟨⟨hexiting, hterminated⟩, hlength⟩ := hfacts
  exact ⟨s, hreachable, hexiting, hterminated, hlength, fun h => h.alive hexiting hterminated⟩

end ReleaseCycle

end FinBert.Repository
