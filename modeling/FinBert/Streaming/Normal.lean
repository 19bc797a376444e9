import FinBert.Streaming.Invariant
import Mathlib.Algebra.BigOperators.Group.List.Basic
import Mathlib.Algebra.Ring.Nat

/-!
# A stream whose writes succeed

Without a failed `Write`, a stream is open until everything is written, and then it finishes.

Results:
1. `phase_of_reachable`: the phases of such a run.
2. `remaining_step`: after the last `Read`, every step comes closer to the end.
3. `normal_of_reachable`: at most one `Write` is outstanding, the responses are written once and
   in the order of their completion, and a run that has stopped has finished the stream.
-/

namespace FinBert.Streaming

open Transition

/-- No step lets a `Write` fail. -/
def WritesSucceed (_ : State) (a : Action) : Prop := a ≠ .responseDone false

instance (s : State) (a : Action) : Decidable (WritesSucceed s a) :=
  inferInstanceAs (Decidable (a ≠ _))

/-- All requests have been read, all executions have completed, and all responses are written. -/
structure Drained (s : State) : Prop where
  reader : s.reader = .ended
  liveContexts : s.liveContexts = []
  completed : s.completed.Perm (List.range s.reads)
  written : s.written = s.completed.map some
  outstanding : s.outstanding = 0

/-- What holds in every state of a stream whose writes succeed. -/
structure Normal (s : State) : Prop where
  oneWrite : s.outstanding ≤ 1
  once : s.completed.Nodup
  inOrder : s.written <+: s.completed.map some
  finishes : s.finishes = [] ∨ s.finishes = [true] ∧ Drained s

/-- Steps that are left for a task. -/
def Task.cost : Task → Nat
  | .write => 2
  | .finish => 2
  | .finishOk => 1
  | .cancel _ => 4
  | .finishCancelled _ => 3

/-- A bound for the steps that are left after the last `Read`. -/
def State.remaining (s : State) : Nat :=
  6 * s.liveContexts.length + 3 * s.writeBackQueue.length + (s.tasks.map Task.cost).sum +
    s.outstanding

section
variable {s t : State} {a : Action}

/-! ## The phases -/

theorem phase_of_reachable (h : ReachableWhen step WritesSucceed start s) :
    Books s ∧ (Opened s ∨ Ending s) := by
  refine ReachableWhen.invariant (P := fun s => Books s ∧ (Opened s ∨ Ending s))
    ⟨books_start, .inl opened_start⟩ ?_ h
  rintro s a t ⟨hbooks, hphase⟩ hok hs
  refine ⟨books_step hbooks hs, ?_⟩
  rcases hphase with hopened | hending
  · rcases opened_step hopened hbooks hs with hopened' | hending' | ⟨hfailed, -⟩
    · exact .inl hopened'
    · exact .inr hending'
    · exact absurd hfailed hok
  · exact .inr (ending_step hending hbooks hs)

/-- The calls in an open stream. -/
theorem Opened.normal (h : Opened s) (hbooks : Books s) : Normal s := by
  obtain ⟨popped, hcompleted, hcalls⟩ := h.calls
  refine ⟨?_, (List.nodup_append.mp hbooks.nodup).1, ?_, .inl ?_⟩
  · rcases h.turn.spec with ⟨-, -, hzero⟩ | ⟨n, rest, -, ⟨-, hzero⟩ | ⟨-, hone⟩⟩
    · exact hzero ▸ Nat.zero_le 1
    · exact hzero ▸ Nat.zero_le 1
    · exact Nat.le_of_eq hone
  · unfold State.written
    rw [hcalls, written_writes, hcompleted]
    exact ((List.prefix_append_right_inj popped).mpr (List.take_prefix _ _)).map some
  · unfold State.finishes
    rw [hcalls, finished_writes]

theorem Ending.drained (h : Ending s) (hbooks : Books s) : Drained s := by
  obtain ⟨finishes, hstage, hcalls⟩ := h.stage
  refine ⟨h.reader, h.liveContexts, ?_, ?_, h.outstanding⟩
  · have hids := hbooks.ids
    rwa [h.liveContexts, List.append_nil] at hids
  · unfold State.written
    rw [hcalls, List.filterMap_append, written_writes]
    have hnone : finishes.filterMap Call.written = [] := by
      generalize s.nextState = nextState at hstage
      generalize s.tasks = tasks at hstage
      cases hstage <;> rfl
    rw [hnone, List.append_nil]

theorem Ending.normal (h : Ending s) (hbooks : Books s) : Normal s := by
  have hdrained := h.drained hbooks
  refine ⟨h.outstanding ▸ Nat.zero_le 1, (List.nodup_append.mp hbooks.nodup).1,
    hdrained.written ▸ List.prefix_rfl, ?_⟩
  obtain ⟨finishes, hstage, hcalls⟩ := h.stage
  have hfinishes : s.finishes = finishes.filterMap Call.finished := by
    unfold State.finishes
    rw [hcalls, List.filterMap_append, finished_writes, List.nil_append]
  rw [hfinishes]
  generalize s.nextState = nextState at hstage
  generalize s.tasks = tasks at hstage
  cases hstage with
  | finish => exact .inl rfl
  | finishOk => exact .inl rfl
  | done => exact .inr ⟨rfl, hdrained⟩

/-! ## The end of a run -/

theorem step_complete {n : Nat} (hread : n < s.reads) (hnot : n ∉ s.completed) :
    step s (.complete n) = some (s.completeExecution n) :=
  if_pos ⟨hread, hnot⟩

theorem step_run {position : Nat} {task : Task} (htask : s.tasks[position]? = some task) :
    step s (.run position) =
      some ({ s with tasks := s.tasks.eraseIdx position }.run task) := by
  simp only [step, htask]
  rfl

/-- An open stream goes on. -/
theorem Opened.goes_on (h : Opened s) (hbooks : Books s) :
    ∃ a t, WritesSucceed s a ∧ step s a = some t := by
  cases hreader : s.reader with
  | reading => exact ⟨.requestDone false, _, by rintro ⟨⟩, if_pos hreader⟩
  | executing => exact ⟨.nextRead, _, by rintro ⟨⟩, if_pos hreader⟩
  | ended =>
    rcases h.turn.spec with ⟨hqueue, -, -⟩ | ⟨n, rest, -, ⟨htasks, -⟩ | ⟨-, hone⟩⟩
    · -- an execution completes
      have hlive := (h.pending hreader).resolve_right fun hne => hne hqueue
      obtain ⟨n, live, hcons⟩ := List.exists_cons_of_ne_nil hlive
      have hmem : n ∈ s.completed ++ s.liveContexts := by
        rw [hcons]
        simp
      have hnot : n ∉ s.completed := fun hcompleted =>
        (List.nodup_append.mp hbooks.nodup).2.2 n hcompleted n (by rw [hcons]; simp) rfl
      exact ⟨.complete n, _, by rintro ⟨⟩,
        step_complete (List.mem_range.mp (hbooks.ids.mem_iff.mp hmem)) hnot⟩
    · exact ⟨.run 0, _, by rintro ⟨⟩, step_run (by rw [htasks]; rfl)⟩
    · exact ⟨.responseDone true, _, by rintro ⟨⟩, if_neg (by rw [hone]; exact Nat.one_ne_zero)⟩

/-- A stream that ends goes on until `Finish` is called. -/
theorem Ending.goes_on (h : Ending s) (hfinishes : s.finishes = []) :
    ∃ a t, WritesSucceed s a ∧ step s a = some t := by
  obtain ⟨finishes, hstage, hcalls⟩ := h.stage
  have htask : ∃ task, s.tasks[0]? = some task := by
    generalize s.nextState = nextState at hstage
    generalize s.tasks = tasks at hstage
    cases hstage with
    | finish => exact ⟨_, rfl⟩
    | finishOk => exact ⟨_, rfl⟩
    | done =>
      unfold State.finishes at hfinishes
      rw [hcalls, List.filterMap_append, finished_writes] at hfinishes
      cases hfinishes
  obtain ⟨task, htask⟩ := htask
  exact ⟨.run 0, _, by rintro ⟨⟩, step_run htask⟩

theorem remaining_spawn (s : State) (task : Task) :
    (s.spawn task).remaining = s.remaining + task.cost := by
  unfold State.remaining State.spawn
  simp only [List.map_append, List.sum_append, List.map_cons, List.map_nil, List.sum_cons,
    List.sum_nil]
  rw [Nat.add_zero, ← Nat.add_assoc, Nat.add_right_comm]

theorem remaining_writeIf (s : State) (shouldWrite : Bool) :
    (s.writeIf shouldWrite).remaining ≤ s.remaining + 2 := by
  cases shouldWrite with
  | false => exact Nat.le_add_right _ _
  | true => exact Nat.le_of_eq (remaining_spawn s .write)

/-- A task costs more than what it leaves to do. -/
theorem remaining_run (s : State) (task : Task) :
    (s.run task).remaining < s.remaining + task.cost := by
  cases task with
  | write => exact Nat.lt_succ_self (s.remaining + 1)
  | finish =>
    have hspawn := remaining_spawn { s with nextState := .finishedDone } .finishOk
    exact hspawn ▸ Nat.lt_succ_self (s.remaining + 1)
  | finishOk => exact Nat.lt_succ_self s.remaining
  | cancel shouldWrite =>
    unfold State.run
    simp only
    split
    · have hspawn := remaining_spawn { s with nextState := .finishedDone }
        (.finishCancelled shouldWrite)
      exact hspawn ▸ Nat.lt_succ_self (s.remaining + 3)
    · have hwrite := remaining_writeIf { s with nextState := .finishedDone } shouldWrite
      exact Nat.lt_of_le_of_lt hwrite (Nat.add_lt_add_left (show 2 < 4 by decide) _)
  | finishCancelled shouldWrite =>
    have hwrite := remaining_writeIf (s.call (.finish false)) shouldWrite
    exact Nat.lt_of_le_of_lt hwrite (Nat.add_lt_add_left (show 2 < 3 by decide) _)

theorem remaining_eraseIdx {position : Nat} {task : Task}
    (htask : s.tasks[position]? = some task) :
    s.remaining =
      State.remaining { s with tasks := s.tasks.eraseIdx position } + task.cost := by
  obtain ⟨before, after, htasks, herase⟩ := exists_tasks htask
  unfold State.remaining
  rw [herase, htasks]
  simp only [List.map_append, List.map_cons, List.sum_append, List.sum_cons]
  omega

/-- Every step comes closer to the end, but for those of the side that reads. -/
theorem remaining_frame (hbooks : Books s) (hphase : Opened s ∨ Ending s)
    (hrequest : ∀ ok, a ≠ .requestDone ok) (hnext : a ≠ .nextRead) (hok : WritesSucceed s a)
    (hs : step s a = some t) : t.reader = s.reader ∧ t.remaining < s.remaining := by
  obtain ⟨ok, haction, -⟩ | ⟨haction, -⟩ | ⟨n, -, hread, hnot, rfl⟩ |
    ⟨ok, rfl, hsome, rfl⟩ | ⟨position, task, -, htask, rfl⟩ := step_cases hs
  · exact absurd haction (hrequest ok)
  · exact absurd haction hnext
  · have hlive := hbooks.mem_live hread hnot
    have hopened : Opened s := hphase.resolve_right fun hending => by
      rw [hending.liveContexts] at hlive
      cases hlive
    have hmoved : (moved s n).remaining + 3 = s.remaining := by
      have hlength := List.length_erase_of_mem hlive
      have hpos := List.length_pos_of_mem hlive
      unfold State.remaining moved
      simp only [List.length_append, List.length_singleton]
      omega
    rw [completeExecution_live hlive, if_neg hopened.not_finishedDone]
    have hwrite := remaining_writeIf (moved s n) s.writeBackQueue.isEmpty
    refine ⟨?_, by omega⟩
    unfold State.writeIf
    split <;> rfl
  · obtain rfl : ok = true := by
      cases ok with
      | true => rfl
      | false => exact absurd rfl hok
    have hopened : Opened s := hphase.resolve_right fun hending => hsome hending.outstanding
    have hframe := stateResponseDone_frame { s with outstanding := s.outstanding - 1 } true
    refine ⟨hframe.2.2.2, ?_⟩
    obtain ⟨n, rest, hqueue⟩ : ∃ n rest, s.writeBackQueue = n :: rest := by
      rcases hopened.turn.spec with ⟨-, -, hzero⟩ | ⟨n, rest, hqueue, -⟩
      · exact absurd hzero hsome
      · exact ⟨n, rest, hqueue⟩
    let s' : State := { s with outstanding := s.outstanding - 1, writeBackQueue := rest }
    have hs' : s'.remaining + 4 = s.remaining := by
      unfold State.remaining
      simp only [s', hqueue, List.length_cons]
      omega
    unfold State.stateResponseDone
    simp only [hqueue, List.tail_cons, Bool.not_true, Bool.false_eq_true, if_false]
    split
    · have hspawn := remaining_spawn s' .finish
      have hcost : Task.cost .finish = 2 := rfl
      exact Nat.lt_of_le_of_lt (Nat.le_of_eq hspawn) (by omega)
    · have hwrite := remaining_writeIf s' (!rest.isEmpty)
      exact Nat.lt_of_le_of_lt hwrite (by omega)
  · have hrun := remaining_run { s with tasks := s.tasks.eraseIdx position } task
    rw [← remaining_eraseIdx htask] at hrun
    exact ⟨(run_frame _ _).2.2.2.2, hrun⟩

/-- After the last `Read`, every step comes closer to the end. -/
theorem remaining_step (hbooks : Books s) (hphase : Opened s ∨ Ending s)
    (hreader : s.reader = .ended) (hok : WritesSucceed s a) (hs : step s a = some t) :
    t.reader = .ended ∧ t.remaining < s.remaining := by
  have hguard : s.reader ≠ .reading ∧ s.reader ≠ .executing := by rw [hreader]; simp
  have hrequest (ok : Bool) : a ≠ .requestDone ok := by
    rintro rfl
    exact hguard.1 (Option.ite_none_right_eq_some.mp hs).1
  have hnext : a ≠ .nextRead := by
    rintro rfl
    exact hguard.2 (Option.ite_none_right_eq_some.mp hs).1
  obtain ⟨hsame, hlt⟩ := remaining_frame hbooks hphase hrequest hnext hok hs
  exact ⟨hsame.trans hreader, hlt⟩

/-- At most one `Write` is outstanding, the responses are written once and in the order of their
completion, and `Finish` is called once, when everything is written. After the last `Read`, a run
ends, and it ends with this call. -/
theorem normal_of_reachable {s : State} (h : ReachableWhen step WritesSucceed start s) :
    Normal s ∧
      ((¬ ∃ a t, WritesSucceed s a ∧ step s a = some t) → s.finishes = [true] ∧ Drained s) ∧
      (s.reader = .ended → ∀ a t, WritesSucceed s a → step s a = some t →
        t.reader = .ended ∧ t.remaining < s.remaining) := by
  obtain ⟨hbooks, hphase⟩ := phase_of_reachable h
  have hnormal : Normal s := hphase.elim (·.normal hbooks) (·.normal hbooks)
  refine ⟨hnormal, fun hstuck => ?_, fun hreader a t hok hs =>
    remaining_step hbooks hphase hreader hok hs⟩
  rcases hnormal.finishes with hnone | hfinished
  · have hgoes_on := hphase.elim (·.goes_on hbooks) (·.goes_on hnone)
    exact absurd hgoes_on hstuck
  · exact hfinished

/-- The second of two requests completes first, from inside its `ExecuteRPC`. -/
theorem normal_secondFirst :
    ∃ s, ReachableWhen step WritesSucceed start s ∧ s.written = [some 1, some 0] ∧
      s.finishes = [true] ∧ Normal s := by
  have hrun : (runWhen step WritesSucceed start
      [.requestDone true, .nextRead, .requestDone true, .complete 1, .run 0, .complete 0, .nextRead,
        .responseDone true, .run 0, .requestDone false, .responseDone true, .run 0, .run 0]).map
      (fun s => decide (s.written = [some 1, some 0]) && decide (s.finishes = [true])) =
        some true := by decide
  obtain ⟨s, hreach, hs⟩ := exists_of_runWhen hrun
  simp only [Bool.and_eq_true, decide_eq_true_eq] at hs
  exact ⟨s, hreach, hs.1, hs.2, (normal_of_reachable hreach).1⟩

end

end FinBert.Streaming
