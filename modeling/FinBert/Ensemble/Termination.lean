import FinBert.Ensemble.Dataflow

/-!
# The steps of an ensemble are scheduled once

A `Trace` is the system of one ensemble request, with the steps that were scheduled and the steps
whose callback has run so far. It is a run of the ensemble's network, whatever the models
answer, so that the bounds on the runs of the network are bounds on the request.

Results:
1. `step_traced`: every step of the system is a step of the network.
2. `scheduled_once`: in an ensemble that writes its inputs before it reads them, every step is
   scheduled at most once, and the request finishes.
-/

namespace FinBert.Ensemble

open FinBert.Serving Transition Dataflow

/-- The system of one request, the steps that were scheduled and those that called back, in
order, and the number of the actions so far. -/
structure Trace where
  system : System
  scheduled : List Nat
  completed : List Nat
  turns : Nat

namespace Trace

/-- The steps that `PrepareSteps` returns for scheduling. -/
def scheduledBy (info : EnsembleInfo) (s : System) : System.Action → List Nat
  | .begin server => (s.ctx.prepareSteps info server none).2.map (·.stepIdx)
  | .handOver _ => []
  | .callBack i response server =>
    (s.outstanding[i]?).toList.flatMap fun completed =>
      (s.ctx.prepareSteps info server (some (completed, response))).2.map (·.stepIdx)

/-- The step that calls back. -/
def completedBy (s : System) : System.Action → List Nat
  | .callBack i _ _ => (s.outstanding[i]?).toList.map (·.stepIdx)
  | _ => []

def enqueue (info : EnsembleInfo) (server : Server) (request : EnsembleRequest) : Trace where
  system := System.enqueue info server request
  scheduled := []
  completed := []
  turns := 0

def step (info : EnsembleInfo) (t : Trace) (a : System.Action) : Option Trace :=
  (t.system.step info a).map fun system =>
    { system := system
      scheduled := t.scheduled ++ scheduledBy info t.system a
      completed := t.completed ++ completedBy t.system a
      turns := t.turns + 1 }

end Trace

namespace System

variable {info : EnsembleInfo}

/-! ## One action -/

/-- A call of `Proceed`: the steps that `PrepareSteps` returns are scheduled. -/
structure Proceeds (info : EnsembleInfo) (server : Server)
    (completed : Option (Step × StepResponse)) (s t : System) (readySteps : List Step) : Prop where
  prepare : s.ctx.prepareSteps info server completed = (t.ctx, readySteps)
  scheduling : t.scheduling.flatten = s.scheduling.flatten ++ readySteps

variable (info) in
theorem proceed_proceeds (server : Server) (completed : Option (Step × StepResponse))
    (s : System) : ∃ readySteps,
      Proceeds info server completed s (proceed info server completed s) readySteps := by
  generalize h : s.ctx.prepareSteps info server completed = prepared
  obtain ⟨ctx', readySteps⟩ := prepared
  have hready : ¬ ctx'.ensembleStatus.isOk → readySteps = [] := fun hfail => by
    rcases EnsembleContext.prepareSteps_cases h with ⟨-, -, hnil⟩ | ⟨-, hadvance⟩
    · exact hnil
    · have houtcome := EnsembleContext.advance_outcome info server completed s.ctx
      rw [hadvance] at houtcome
      exact houtcome.elim (fun h => h.2.1) fun h => absurd h.2.1 hfail
  unfold proceed
  rw [h]
  refine ⟨readySteps, h, ?_⟩
  simp only
  split
  · rw [List.flatten_append, List.flatten_singleton]
  · next hfail => rw [hready hfail, List.append_nil]

theorem step_begin {s t : System} {server : Server} (h : step info s (.begin server) = some t) :
    ¬ s.begun ∧ t.begun ∧ t.outstanding = s.outstanding ∧
      ∃ readySteps, Proceeds info server none s t readySteps ∧
        Trace.scheduledBy info s (.begin server) = readySteps.map (·.stepIdx) := by
  simp only [step] at h
  split at h
  · cases h
  · next hfresh =>
    obtain rfl := Option.some.inj h
    obtain ⟨readySteps, hproceeds⟩ :=
      proceed_proceeds info server none { s with begun := true }
    refine ⟨hfresh, rfl, rfl, readySteps, ⟨hproceeds.prepare, hproceeds.scheduling⟩, ?_⟩
    exact congrArg (fun prepared => prepared.2.map (·.stepIdx)) hproceeds.prepare

theorem step_handOver {s t : System} {call : Nat} (h : step info s (.handOver call) = some t) :
    ∃ next rest, s.scheduling[call]? = some (next :: rest) ∧
      t = { s with
        scheduling := s.scheduling.set call rest
        outstanding := s.outstanding ++ [next] } := by
  simp only [step] at h
  split at h
  · next next rest hcall => exact ⟨next, rest, hcall, (Option.some.inj h).symm⟩
  · cases h

theorem step_callBack {s t : System} {i : Nat} {response : StepResponse} {server : Server}
    (h : step info s (.callBack i response server) = some t) :
    ∃ completed readySteps, s.outstanding[i]? = some completed ∧ t.begun = s.begun ∧
      t.outstanding = s.outstanding.eraseIdx i ∧
      Proceeds info server (some (completed, response)) s t readySteps ∧
      Trace.scheduledBy info s (.callBack i response server) = readySteps.map (·.stepIdx) ∧
      Trace.completedBy s (.callBack i response server) = [completed.stepIdx] := by
  simp only [step] at h
  split at h
  · next completed hget =>
    obtain rfl := Option.some.inj h
    obtain ⟨readySteps, hproceeds⟩ := proceed_proceeds info server
      (some (completed, response)) { s with outstanding := s.outstanding.eraseIdx i }
    refine ⟨completed, readySteps, hget, rfl, rfl, ⟨hproceeds.prepare, hproceeds.scheduling⟩,
      ?_, ?_⟩
    · simp only [Trace.scheduledBy, hget, Option.toList_some, List.flatMap_singleton]
      exact congrArg (fun prepared => prepared.2.map (·.stepIdx)) hproceeds.prepare
    · simp only [Trace.completedBy, hget, Option.toList_some, List.map_singleton]
  · cases h

/-- The steps that are scheduled, or handed over, without a callback so far. -/
def awaited (s : System) : List Nat := (s.scheduling.flatten ++ s.outstanding).map (·.stepIdx)

theorem length_awaited (s : System) : s.awaited.length = s.pending := by
  rw [awaited, List.length_map, List.length_append, pending]

/-- The steps of a call of `Proceed` are awaited. -/
theorem Proceeds.awaited {server : Server} {completed : Option (Step × StepResponse)}
    {s t : System} {readySteps : List Step} (h : Proceeds info server completed s t readySteps) :
    (((s.scheduling.flatten ++ t.outstanding).map (·.stepIdx)) ++ readySteps.map (·.stepIdx)).Perm
      t.awaited := by
  unfold System.awaited
  rw [h.scheduling, ← List.map_append, List.append_assoc, List.append_assoc]
  exact .map _ (.append_left _ List.perm_append_comm)

/-- A request with a step that was handed over has begun. -/
theorem Invariant.begun_of_mem {s : System} (h : s.Invariant) {completed : Step}
    (hmem : completed ∈ s.outstanding) : s.begun ∧ s.pending ≠ 0 := by
  have hpending : s.pending ≠ 0 := fun hzero =>
    absurd (List.length_pos_of_mem hmem)
      (Nat.not_lt.mpr (Nat.le_of_eq (Nat.eq_zero_of_add_eq_zero hzero).2))
  exact ⟨Decidable.byContradiction fun hfresh => hpending (h.fresh hfresh).2.2, hpending⟩

/-- What an action does to the steps that are awaited. -/
theorem step_awaited {s t : System} {a : Action} (h : step info s a = some t) :
    (s.awaited ++ Trace.scheduledBy info s a).Perm (Trace.completedBy s a ++ t.awaited) := by
  cases a with
  | begin server =>
    obtain ⟨-, -, houtstanding, readySteps, hproceeds, hscheduled⟩ := step_begin h
    have hperm := hproceeds.awaited
    rw [houtstanding] at hperm
    rw [hscheduled]
    exact hperm
  | handOver call =>
    obtain ⟨next, rest, hcall, rfl⟩ := step_handOver h
    show (s.awaited ++ []).Perm ([] ++ _)
    rw [List.append_nil, List.nil_append]
    refine .map _ (((flatten_set_perm hcall).append_right _).trans ?_)
    rw [List.cons_append, ← List.append_assoc]
    exact (List.perm_append_singleton next _).symm
  | callBack i response server =>
    obtain ⟨completed, readySteps, hget, -, houtstanding, hproceeds, hscheduled, hcompleted⟩ :=
      step_callBack h
    obtain ⟨hlt, rfl⟩ := List.getElem?_eq_some_iff.mp hget
    have hperm := hproceeds.awaited
    rw [houtstanding] at hperm
    have herase := (List.getElem_cons_eraseIdx_perm hlt).symm.append_left s.scheduling.flatten
    rw [hscheduled, hcompleted]
    exact (((herase.trans List.perm_middle).map _).append_right _).trans (hperm.cons _)

theorem pending_step {s t : System} {a : Action} (h : step info s a = some t) :
    s.pending + (Trace.scheduledBy info s a).length =
      (Trace.completedBy s a).length + t.pending := by
  have hlength := (step_awaited h).length_eq
  rwa [List.length_append, List.length_append, length_awaited, length_awaited] at hlength

/-- The steps that are counted when `Enqueue` has called `Proceed`. -/
theorem counted_begin {s t : System} {server : Server} {readySteps : List Step}
    (hinvariant : s.Invariant) (hok : s.ctx.ensembleStatus.isOk)
    (h : step info s (.begin server) = some t)
    (hscheduled : Trace.scheduledBy info s (.begin server) = readySteps.map (·.stepIdx)) :
    EnsembleContext.counted none s.ctx.inflightStepCounter + readySteps.length = t.pending := by
  have hpending := pending_step h
  rw [hscheduled, List.length_map, ← hinvariant.counter hok] at hpending
  exact hpending.trans (Nat.zero_add _)

/-- The steps that are counted when a step has called back. -/
theorem counted_callBack {s t : System} {i : Nat} {response : StepResponse} {server : Server}
    {completed : Step} {readySteps : List Step} (hinvariant : s.Invariant)
    (hok : s.ctx.ensembleStatus.isOk) (h : step info s (.callBack i response server) = some t)
    (hmem : completed ∈ s.outstanding)
    (hscheduled : Trace.scheduledBy info s (.callBack i response server) =
      readySteps.map (·.stepIdx))
    (hcompleted : Trace.completedBy s (.callBack i response server) = [completed.stepIdx]) :
    EnsembleContext.counted (some (completed, response)) s.ctx.inflightStepCounter +
      readySteps.length = t.pending := by
  have hpending := pending_step h
  have hopen := (hinvariant.begun_of_mem hmem).2
  rw [hscheduled, hcompleted, List.length_map, List.length_singleton] at hpending
  simp only [EnsembleContext.counted, EnsembleContext.decrement, hinvariant.counter hok,
    if_neg hopen]
  omega

end System

/-! ## A trace is a run of the network -/

/-- What holds of every trace. When nothing fails, the run is an eager one, and the ensemble is
open as long as a step is awaited. -/
structure Traced (config : ModelConfig) (eager : Prop) (t : Trace) : Prop where
  invariant : t.system.Invariant
  length : t.system.ctx.tensorData.length = (ensembleInfo config).tensorToStep.length
  awaited : t.scheduled.Perm (t.completed ++ t.system.awaited)
  turns : t.turns = t.system.begun.toNat + 2 * t.completed.length + t.system.outstanding.length
  fresh : ¬ t.system.begun → t.scheduled = [] ∧
    ∀ x, Named config t.system.ctx.IsSet x → x ∈ (network config).sources
  run : t.system.begun →
    (network config).Run eager ⟨Named config t.system.ctx.IsSet, t.scheduled, t.completed⟩
  created : eager → ¬ t.system.begun → t.system.ctx.ensembleStatus.isOk ∧
    ∀ x ∈ (network config).sources, Named config t.system.ctx.IsSet x
  opened : eager → t.system.begun → t.system.pending ≠ 0 → t.system.ctx.ensembleStatus.isOk

section
variable {config : ModelConfig} {eager : Prop} {t t' : Trace}

theorem Traced.step_awaited {a : System.Action} {s : System} (h : Traced config eager t)
    (hstep : t.system.step (ensembleInfo config) a = some s) :
    (t.scheduled ++ Trace.scheduledBy (ensembleInfo config) t.system a).Perm
      (t.completed ++ Trace.completedBy t.system a ++ s.awaited) := by
  refine (h.awaited.append_right _).trans ?_
  rw [List.append_assoc, List.append_assoc]
  exact (System.step_awaited hstep).append_left _

/-- `Enqueue` calls `Proceed`: the run starts. -/
theorem Traced.begin {server : Server} {ctx' : EnsembleContext} {readySteps : List Step}
    (h : Traced config eager t) (hfresh : ¬ t.system.begun)
    (heager : eager → server.Succeeds (ensembleInfo config) none t.system.ctx)
    (hprepare : t.system.ctx.prepareSteps (ensembleInfo config) server none = (ctx', readySteps)) :
    (network config).Run eager
      ⟨Named config ctx'.IsSet, readySteps.map (·.stepIdx), []⟩ := by
  obtain ⟨updated, hadvances⟩ := EnsembleContext.prepareSteps_advances h.length hprepare
  have hsame : ∀ idx, ctx'.IsSet idx ↔ t.system.ctx.IsSet idx := fun idx =>
    (hadvances.isSet idx).trans (or_iff_left_of_imp (hadvances.reported idx))
  have hnamed : Named config ctx'.IsSet = Named config t.system.ctx.IsSet := by
    rw [funext fun idx => propext (hsame idx)]
  refine .start (fun x hx => (h.fresh hfresh).2 x (hnamed ▸ hx)) hadvances.nodup (fun b hb => ?_)
    fun he => ?_
  · obtain ⟨hmem, ⟨x, hx, idx, hidx, hupdated⟩, havailable⟩ := hadvances.starts hb
    exact ⟨hmem, ⟨x, hx, idx, hidx, (hsame idx).mpr (hadvances.reported idx hupdated)⟩, havailable⟩
  · obtain ⟨hok, hsources⟩ := h.created he hfresh
    obtain ⟨hreported, hnext⟩ := hadvances.succeeds hok (heager he)
    refine ⟨fun x hx => hnamed ▸ hsources x hx, fun b hb => ?_⟩
    obtain ⟨hmem, ⟨x, hx, idx, hidx, hset⟩, havailable⟩ := hb
    rw [hnext]
    exact starts_iff.mpr
      ⟨hmem, ⟨x, hx, idx, hidx, hreported idx ((hsame idx).mp hset)⟩, havailable⟩

/-- A step calls back: it completes. -/
theorem Traced.callBack {server : Server} {completed : Step} {response : StepResponse}
    {ctx' : EnsembleContext} {readySteps : List Step} (h : Traced config eager t)
    (hmem : completed ∈ t.system.outstanding)
    (heager : eager →
      server.Succeeds (ensembleInfo config) (some (completed, response)) t.system.ctx)
    (hprepare : t.system.ctx.prepareSteps (ensembleInfo config) server
      (some (completed, response)) = (ctx', readySteps)) :
    (network config).Run eager
      ⟨Named config ctx'.IsSet, t.scheduled ++ readySteps.map (·.stepIdx),
        t.completed ++ [completed.stepIdx]⟩ := by
  obtain ⟨hbegun, hpending⟩ := h.invariant.begun_of_mem hmem
  have hrun := h.run hbegun
  have hcount : t.completed.count completed.stepIdx < t.scheduled.count completed.stepIdx := by
    rw [h.awaited.count_eq, List.count_append]
    refine Nat.lt_add_of_pos_right (List.count_pos_iff.mpr ?_)
    exact List.mem_map_of_mem (List.mem_append_right _ hmem)
  have hsteps := hrun.grounded.mem _ (mem_of_count_lt (p := ⟨_, _, _⟩) hcount)
  have hwrites := (step_slotted hsteps).2
  obtain ⟨updated, hadvances⟩ := EnsembleContext.prepareSteps_advances h.length hprepare
  rw [hadvances.named]
  refine hrun.complete hcount (fun x ⟨idx, hidx, hupdated⟩ => ?_) hadvances.nodup (fun b hb => ?_)
    fun he => ?_
  · obtain ⟨x', hx', hidx'⟩ := (hwrites.mem idx).mp (hadvances.reported idx hupdated)
    rwa [(wired_layout config).injective x x' idx hidx hidx']
  · rw [← hadvances.named]
    exact hadvances.starts hb
  · obtain ⟨hreported, hnext⟩ := hadvances.succeeds (h.opened he hbegun hpending) (heager he)
    refine ⟨fun x hx => ?_, fun b hb => ?_⟩
    · obtain ⟨idx, hidx⟩ := hwrites.found x hx
      exact ⟨idx, hidx, hreported idx ((hwrites.mem idx).mpr ⟨x, hx, hidx⟩)⟩
    · rw [hnext]
      rw [← hadvances.named] at hb
      exact starts_iff.mpr hb

theorem Traced.fresh_nil (h : Traced config eager t) (hfresh : ¬ t.system.begun) :
    t.scheduled = [] ∧ t.completed = [] ∧ t.system.outstanding = [] := by
  have hscheduled := (h.fresh hfresh).1
  have hperm := h.awaited
  rw [hscheduled] at hperm
  obtain ⟨hcompleted, hawaited⟩ := List.append_eq_nil_iff.mp hperm.nil_eq.symm
  exact ⟨hscheduled, hcompleted, (List.append_eq_nil_iff.mp (List.map_eq_nil_iff.mp hawaited)).2⟩

/-- The step lemma. -/
theorem step_traced {a : System.Action} (h : Traced config eager t)
    (heager : eager → t.system.Succeeds (ensembleInfo config) a)
    (hstep : t.step (ensembleInfo config) a = some t') : Traced config eager t' := by
  obtain ⟨system, hsystem, rfl⟩ := Option.map_eq_some_iff.mp hstep
  have hinvariant := System.step_invariant (ensembleInfo config) h.invariant hsystem
  have hawaited := h.step_awaited hsystem
  cases a with
  | begin server =>
    obtain ⟨hfresh, hbegun, houtstanding, readySteps, hproceeds, hnewly⟩ :=
      System.step_begin hsystem
    obtain ⟨updated, hadvances⟩ :=
      EnsembleContext.prepareSteps_advances h.length hproceeds.prepare
    obtain ⟨hscheduled, hcompleted, hnil⟩ := h.fresh_nil hfresh
    refine ⟨hinvariant, hadvances.length.trans h.length, hawaited, ?_,
      fun hnot => absurd hbegun hnot, fun _ => ?_, fun _ hnot => absurd hbegun hnot,
      fun he _ hopen => ?_⟩
    · show t.turns + 1 = system.begun.toNat + 2 * (t.completed ++ []).length + _
      rw [hbegun, houtstanding, h.turns, List.append_nil, hcompleted, hnil,
        Bool.eq_false_of_not_eq_true hfresh]
      rfl
    · rw [hscheduled, hcompleted, hnewly]
      exact h.begin hfresh heager hproceeds.prepare
    · obtain ⟨hok, -⟩ := h.created he hfresh
      refine EnsembleContext.isOk_of_prepareSteps h.length hok (heager he) hproceeds.prepare
        fun hzero => hopen ?_
      exact (System.counted_begin h.invariant hok hsystem hnewly).symm.trans hzero
  | handOver call =>
    obtain ⟨next, rest, hcall, rfl⟩ := System.step_handOver hsystem
    have hsame := System.pending_handOver hcall
    refine ⟨hinvariant, h.length, hawaited, ?_, fun hfresh => ?_, fun hbegun => ?_, h.created,
      fun he hbegun hopen => h.opened he hbegun (hsame ▸ hopen)⟩
    · show t.turns + 1 = _ + 2 * (t.completed ++ []).length +
        (t.system.outstanding ++ [next]).length
      rw [List.append_nil, List.length_append, h.turns]
      rfl
    · exact ⟨(List.append_nil _).trans (h.fresh hfresh).1, (h.fresh hfresh).2⟩
    · show (network config).Run eager ⟨_, t.scheduled ++ [], t.completed ++ []⟩
      rw [List.append_nil, List.append_nil]
      exact h.run hbegun
  | callBack i response server =>
    obtain ⟨completed, readySteps, hget, hsame, houtstanding, hproceeds, hnewly, hcompleted⟩ :=
      System.step_callBack hsystem
    obtain ⟨updated, hadvances⟩ :=
      EnsembleContext.prepareSteps_advances h.length hproceeds.prepare
    have hmem := List.mem_of_getElem? hget
    obtain ⟨hbegun, hopen⟩ := h.invariant.begun_of_mem hmem
    have hsucceeds := fun he => heager he completed hget
    rw [← hsame] at hbegun
    refine ⟨hinvariant, hadvances.length.trans h.length, hawaited, ?_,
      fun hnot => absurd hbegun hnot, fun _ => ?_, fun _ hnot => absurd hbegun hnot,
      fun he _ hopen' => ?_⟩
    · have herase := List.length_eraseIdx_add_one (List.getElem?_eq_some_iff.mp hget).1
      show t.turns + 1 = _ + 2 * (t.completed ++ _).length + system.outstanding.length
      rw [hsame, houtstanding, h.turns, hcompleted, List.length_append, List.length_singleton]
      omega
    · rw [hnewly, hcompleted]
      exact h.callBack hmem hsucceeds hproceeds.prepare
    · have hok := h.opened he (hsame ▸ hbegun) hopen
      refine EnsembleContext.isOk_of_prepareSteps h.length hok (hsucceeds he) hproceeds.prepare
        fun hzero => hopen' ?_
      exact (System.counted_callBack h.invariant hok hsystem hmem hnewly hcompleted).symm.trans
        hzero

/-- Before the first action only ensemble inputs are set, and those that are ensemble outputs
too have a slot that no step reads. -/
theorem source_of_create {server : Server} {request : EnsembleRequest} {x : String}
    (hx : Named config (EnsembleContext.create (ensembleInfo config) server request).IsSet x) :
    x ∈ (network config).sources := by
  obtain ⟨idx, hidx, hset⟩ := hx
  by_cases hinput : ∃ name, (ensembleInfo config).ensembleInputToTensor.find name = some idx
  · obtain ⟨name, hname⟩ := hinput
    obtain ⟨hmem, -, hpure, hshared⟩ := (wired_layout config).input name idx hname
    by_cases hout : name ∈ config.outputNames
    · exact absurd hidx (hshared hout x)
    · obtain rfl := (wired_layout config).injective x name idx hidx (hpure hout)
      exact List.mem_filter.mpr ⟨hmem, decide_eq_true hout⟩
  · have hdefault := (EnsembleContext.create_tensorData (ensembleInfo config) server request).2 idx
      fun name hname => hinput ⟨name, hname⟩
    unfold EnsembleContext.IsSet at hset
    rw [hdefault] at hset
    cases hset

theorem enqueue_traced {server : Server} {request : EnsembleRequest}
    (hcreated : eager →
      (EnsembleContext.create (ensembleInfo config) server request).ensembleStatus.isOk ∧
      ∀ x ∈ (network config).sources,
        Named config (EnsembleContext.create (ensembleInfo config) server request).IsSet x) :
    Traced config eager (Trace.enqueue (ensembleInfo config) server request) where
  invariant := System.enqueue_invariant (ensembleInfo config) server request
  length := (EnsembleContext.create_tensorData (ensembleInfo config) server request).1
  awaited := .refl _
  turns := rfl
  fresh _ := ⟨rfl, fun _ hx => source_of_create hx⟩
  run hbegun := nomatch hbegun
  created he _ := hcreated he
  opened _ hbegun := nomatch hbegun

/-- Every step that is scheduled takes two turns, its hand-over and its callback. -/
theorem Traced.turns_le (h : Traced config eager t) : t.turns ≤ 2 * t.scheduled.length + 1 := by
  have hlength := h.awaited.length_eq
  rw [List.length_append, System.length_awaited] at hlength
  have hturns := h.turns
  have hbegun := t.system.begun.toNat_le
  unfold System.pending at hlength
  omega

/-- What holds of the steps that are scheduled in every run of the network. -/
theorem Traced.scheduled_of_run {P : List Nat → Prop} (h : Traced config eager t) (hnil : P [])
    (hrun : ∀ p, (network config).Run eager p → P p.scheduled) : P t.scheduled := by
  by_cases hbegun : t.system.begun
  · exact hrun _ (h.run hbegun)
  · rw [(h.fresh hbegun).1]
    exact hnil

theorem Traced.length_scheduled_le (h : Traced config eager t) (hnodup : t.scheduled.Nodup) :
    t.scheduled.length ≤ config.step.length := by
  have hsub : t.scheduled ⊆ (network config).steps :=
    h.scheduled_of_run (P := fun scheduled => scheduled ⊆ (network config).steps)
      (List.nil_subset _) fun _ hrun => hrun.grounded.mem
  rw [← List.length_range (n := config.step.length)]
  exact (hnodup.subperm hsub).length_le

end

/-- As long as the request is not quiescent, something can happen. -/
theorem exists_step (info : EnsembleInfo) {t : Trace} (h : ¬ t.system.Quiescent) :
    ∃ a, (t.step info a).isSome := by
  simp only [Trace.step, Option.isSome_map]
  by_cases hbegun : t.system.begun
  · by_cases houtstanding : t.system.outstanding = []
    · have hscheduling : ¬ ∀ steps ∈ t.system.scheduling, steps = [] := fun hall =>
        h ⟨hbegun, hall, houtstanding⟩
      push Not at hscheduling
      obtain ⟨steps, hmem, hne⟩ := hscheduling
      obtain ⟨call, hcall⟩ := List.getElem?_of_mem hmem
      obtain ⟨next, rest, rfl⟩ := List.exists_cons_of_ne_nil hne
      refine ⟨.handOver call, ?_⟩
      simp only [System.step, hcall, Option.isSome_some]
    · obtain ⟨completed, rest, hcons⟩ := List.exists_cons_of_ne_nil houtstanding
      refine ⟨.callBack 0 { requestStatus := .ok } System.accepting, ?_⟩
      simp only [System.step, hcons, List.getElem?_cons_zero, Option.isSome_some]
  · refine ⟨.begin System.accepting, ?_⟩
    simp only [System.step, hbegun, Bool.false_eq_true, if_false, Option.isSome_some]

/-- In an accepted ensemble that writes its inputs before it reads them, no step is scheduled
twice, whatever the order of the completions and the responses are, and the request finishes: it
takes a bounded number of turns, and is complete when nothing can happen any more. -/
theorem scheduled_once {cuda : CudaDeviceCount} {config : ModelConfig} {expectedPlatform : String}
    {step : List EnsembleStep} (hvalid : (validateModelConfig cuda config expectedPlatform).isOk)
    (hscheduling : config.scheduling = .ensembleScheduling step)
    (hfirst : (network config).WrittenFirst) (server : Server) (request : EnsembleRequest)
    {t : Trace} (h : Reachable (Trace.step (ensembleInfo config))
      (Trace.enqueue (ensembleInfo config) server request) t) :
    t.scheduled.Nodup ∧ t.turns ≤ 2 * config.step.length + 1 ∧
      (t.system.Quiescent → t.system.ctx.completions.length = 1) ∧
      (¬ t.system.Quiescent → ∃ a, (t.step (ensembleInfo config) a).isSome) := by
  have htraced : Traced config False t := h.invariant (enqueue_traced nofun)
    fun _ _ _ ht _ hstep => step_traced ht nofun hstep
  have hwriter := singleWriter_network (accepted_of_validateModelConfig hvalid hscheduling)
  have hnodup : t.scheduled.Nodup :=
    htraced.scheduled_of_run List.nodup_nil fun _ hrun => hrun.nodup_scheduled hwriter hfirst
  have hturns : t.turns ≤ 2 * config.step.length + 1 :=
    htraced.turns_le.trans <|
      Nat.add_le_add_right (Nat.mul_le_mul_left 2 (htraced.length_scheduled_le hnodup)) 1
  exact ⟨hnodup, hturns, htraced.invariant.length_completions, exists_step _⟩

/-- An ensemble with the input `x` and the output `y`. -/
def ensembleOf (name : String) (step : List EnsembleStep) : ModelConfig where
  name := name
  platform := kEnsemblePlatform
  versionPolicy := some (.latest 1)
  maxBatchSize := 1
  input := [{ name := "x", dataType := .fp32, dims := [1] }]
  output := [{ name := "y", dataType := .fp32, dims := [1] }]
  scheduling := .ensembleScheduling step

/-- A request of batch size 1 with four bytes for `x`. -/
def floatRequest : EnsembleRequest where
  header :=
    { batchSize := 1
      input := [{ name := "x", dims := [1], batchByteSize := 4 }]
      output := [{ name := "y" }] }
  inputBuffer := AList.singleton "x" { blocks := [[1, 2, 3, 4]] }

/-- The response of a model with four bytes for each of the outputs. -/
def floatResponse (outputs : List String) : StepResponse where
  requestStatus := .ok
  output := outputs.map fun name => { name := name, raw := some ([1], 4) }
  outputBuffer := outputs.foldl
    (fun buffers name => buffers.insert name { blocks := [[5, 6, 7, 8]] }) ∅

/-- The model `a` reads `x` and writes `z`, and the model `b` reads `z` and writes `y`. -/
def chained : ModelConfig :=
  ensembleOf "chained"
    [{ modelName := "a", modelVersion := 1, inputMap := AList.singleton "in" "x",
       outputMap := AList.singleton "out" "z" },
     { modelName := "b", modelVersion := 1, inputMap := AList.singleton "in" "z",
       outputMap := AList.singleton "out" "y" }]

/-- Both steps are scheduled once. -/
theorem scheduled_once_chained :
    ∃ t, Reachable (Trace.step (ensembleInfo chained))
        (Trace.enqueue (ensembleInfo chained) System.accepting floatRequest) t ∧
      t.scheduled = [0, 1] ∧ t.scheduled.Nodup ∧ t.turns ≤ 5 ∧ t.system.Quiescent ∧
      t.system.ctx.completions.length = 1 := by
  have hrun : (runWhen (Trace.step (ensembleInfo chained)) (fun _ _ => True)
      (Trace.enqueue (ensembleInfo chained) System.accepting floatRequest)
      [.begin System.accepting, .handOver 0, .callBack 0 (floatResponse ["out"]) System.accepting,
        .handOver 1, .callBack 0 (floatResponse ["out"]) System.accepting]).map
      (fun t => decide (t.scheduled = [0, 1] ∧ t.system.Quiescent)) = some true := by decide
  obtain ⟨t, hreach, ht⟩ := exists_of_runWhen hrun
  obtain ⟨hscheduled, hquiescent⟩ := of_decide_eq_true ht
  have hwritten : ∀ x ∈ (network chained).sources, ∀ a ∈ (network chained).steps,
      x ∉ (network chained).writes a := by decide
  have hvalid : (validateModelConfig .noDevice chained "").isOk := by decide
  obtain ⟨hnodup, hturns, hcomplete, -⟩ := scheduled_once hvalid rfl
    (fun x hx a ha hwrites => absurd hwrites (hwritten x hx a ha)) System.accepting floatRequest
    hreach
  exact ⟨t, hreach, hscheduled, hnodup, hturns, hquiescent, hcomplete hquiescent⟩

/-- The model `a` reads `x`, and writes `y` and `x`. -/
def fed : ModelConfig :=
  ensembleOf "fed"
    [{ modelName := "a", modelVersion := 1, inputMap := AList.singleton "in" "x",
       outputMap := (AList.singleton "out" "y").insert "loop" "x" }]

/-- The ensemble `fed` is accepted, and its step is scheduled again when it has completed. -/
theorem not_scheduled_once :
    ¬ ∀ (cuda : CudaDeviceCount) (config : ModelConfig) (expectedPlatform : String)
        (step : List EnsembleStep), (validateModelConfig cuda config expectedPlatform).isOk →
      config.scheduling = .ensembleScheduling step →
      ∀ (server : Server) (request : EnsembleRequest) (t : Trace),
        ReachableWhen (Trace.step (ensembleInfo config))
          (fun t a => t.system.Succeeds (ensembleInfo config) a)
          (Trace.enqueue (ensembleInfo config) server request) t → t.scheduled.Nodup := by
  intro hclaim
  have hrun : (runWhen (Trace.step (ensembleInfo fed))
      (fun t a => t.system.Succeeds (ensembleInfo fed) a)
      (Trace.enqueue (ensembleInfo fed) System.accepting floatRequest)
      [.begin System.accepting, .handOver 0,
        .callBack 0 (floatResponse ["out", "loop"]) System.accepting]).map
      (fun t => decide (t.scheduled = [0, 0])) = some true := by decide
  obtain ⟨t, hreach, ht⟩ := exists_of_runWhen hrun
  have hnodup := hclaim .noDevice fed "" _ (by decide) rfl System.accepting floatRequest t hreach
  rw [of_decide_eq_true ht] at hnodup
  exact absurd hnodup (by decide)

end FinBert.Ensemble
