import FinBert.Lib.EndsLast
import FinBert.Streaming.Invariant

/-!
# Finish at most once

After a failed `Write` every execution that completes makes `CancelResponse` look for live
executions, in a critical section of its own. Two of them find none when both have completed
before either looks, and so does one that is read after another has found none.

Results:
1. `alone_step`: what a `CancelResponse` has found, and which ones have still to look.
2. `finishOnce_of_reachableAlone`: in a run in which no `CancelResponse` finds no live execution
   while another one has still to look, and in which no request is read after one has found none,
   `Finish` is called at most once, and nothing behind it.
3. `not_finishOnce`: two completions that look one after the other call `Finish` twice.
-/

namespace FinBert.Streaming

open Transition

def Call.isFinish : Call → Bool
  | .write _ => false
  | .finish _ => true

/-- `Finish` is called at most once, and no `Write` is issued behind it. -/
structure FinishOnce (s : State) : Prop where
  once : s.calls.countP Call.isFinish ≤ 1
  last : ∀ before after ok front, s.calls = before ++ .finish ok :: after →
    Call.write front ∉ after

def Task.isCancel : Task → Bool
  | .cancel _ => true
  | _ => false

/-- A `CancelResponse` has found no live execution: it is about to call `Finish`, or has. -/
def Task.isFinishCancelled : Task → Bool
  | .finishCancelled _ => true
  | _ => false

/-- How often a `CancelResponse` has found no live execution. -/
def State.cancellations (s : State) : Nat :=
  s.tasks.countP Task.isFinishCancelled + s.calls.count (.finish false)

/-- A `CancelResponse` that finds no live execution is the only one that has still to look, and no
request is read after one has found none. -/
def CancelsAlone (s : State) : Action → Prop
  | .requestDone true => s.cancellations = 0
  | .run position =>
    s.tasks[position]?.any Task.isCancel = true → s.liveContexts = [] →
      (s.tasks.eraseIdx position).countP Task.isCancel = 0
  | _ => True

instance (s : State) : (a : Action) → Decidable (CancelsAlone s a)
  | .requestDone true => inferInstanceAs (Decidable (s.cancellations = 0))
  | .requestDone false => .isTrue trivial
  | .nextRead => .isTrue trivial
  | .complete _ => .isTrue trivial
  | .responseDone _ => .isTrue trivial
  | .run _ => inferInstanceAs (Decidable (_ → _ → _ = 0))

/-- At most one `CancelResponse` has found no live execution, and then there is none, and none has
still to look. -/
structure Alone (s : State) : Prop where
  le_one : s.cancellations ≤ 1
  none_left : s.cancellations = 1 →
    s.liveContexts = [] ∧ s.tasks.countP Task.isCancel = 0

section
variable {s t : State} {a : Action}

/-! ## The cancellations -/

theorem countP_tasks {tasks : List Task} {position : Nat} {task : Task} (p : Task → Bool)
    (htask : tasks[position]? = some task) :
    tasks.countP p = (tasks.eraseIdx position).countP p + (p task).toNat := by
  obtain ⟨before, after, htasks, herase⟩ := exists_tasks htask
  rw [herase, htasks, List.countP_append, List.countP_append, List.countP_cons, Nat.add_assoc]
  cases p task <;> rfl

theorem cancellations_spawn (s : State) (task : Task) :
    (s.spawn task).cancellations = s.cancellations + task.isFinishCancelled.toNat := by
  unfold State.cancellations State.spawn
  rw [List.countP_append, List.countP_singleton, Nat.add_right_comm]
  cases task.isFinishCancelled <;> rfl

theorem cancellations_erase {position : Nat} {task : Task}
    (htask : s.tasks[position]? = some task) :
    s.cancellations = State.cancellations { s with tasks := s.tasks.eraseIdx position } +
      task.isFinishCancelled.toNat := by
  unfold State.cancellations
  rw [countP_tasks Task.isFinishCancelled htask, Nat.add_right_comm]

/-- As long as there is a live execution or a `CancelResponse` that has still to look, none has
found nothing. -/
theorem Alone.zero_or (h : Alone s) :
    s.cancellations = 0 ∨ s.liveContexts = [] ∧ s.tasks.countP Task.isCancel = 0 := by
  rcases Nat.eq_zero_or_pos s.cancellations with hzero | hpos
  · exact .inl hzero
  · exact .inr (h.none_left (Nat.le_antisymm h.le_one hpos))

theorem Alone.of_zero (h : t.cancellations = 0) : Alone t where
  le_one := h ▸ Nat.zero_le 1
  none_left hone := absurd (h.symm.trans hone) Nat.zero_ne_one

/-- The first cancellation, behind the `Write` that has failed. -/
theorem alone_responseDone (h : Opened s) (hsome : s.outstanding ≠ 0) :
    Alone ({ s with outstanding := s.outstanding - 1 }.stateResponseDone false) := by
  obtain ⟨popped, -, hcalls⟩ := h.calls
  refine .of_zero ?_
  refine (cancellations_spawn { s with outstanding := s.outstanding - 1 } (.cancel false)).trans ?_
  rcases h.turn.spec with ⟨-, -, hnone⟩ | ⟨n, rest, -, ⟨-, hnone⟩ | ⟨htasks, -⟩⟩
  · exact absurd hnone hsome
  · exact absurd hnone hsome
  · unfold State.cancellations
    simp only
    rw [htasks, hcalls, List.count_eq_zero.mpr]
    · rfl
    · unfold writes
      rw [List.mem_map]
      rintro ⟨n, -, ⟨⟩⟩

/-- A `CancelResponse` of a stream whose `Write` has failed goes on. -/
theorem alone_run (h : Broken s) (halone : Alone s) {position : Nat} {task : Task}
    (htask : s.tasks[position]? = some task) (hok : CancelsAlone s (.run position)) :
    Alone ({ s with tasks := s.tasks.eraseIdx position }.run task) := by
  have herase := cancellations_erase htask
  have hcancel := countP_tasks Task.isCancel htask
  rcases h.tasks task (List.mem_of_getElem? htask) with rfl | rfl
  · have hzero : s.cancellations = 0 := halone.zero_or.resolve_right fun hnone => by
      rw [hnone.2] at hcancel
      cases hcancel
    let s' : State := { s with tasks := s.tasks.eraseIdx position, nextState := .finishedDone }
    have hzero' : s'.cancellations = 0 := herase.symm.trans hzero
    unfold State.run
    simp only
    split
    · next hempty =>
      have hlive : s.liveContexts = [] := List.isEmpty_iff.mp hempty
      have hspawn := cancellations_spawn s' (.finishCancelled false)
      rw [hzero'] at hspawn
      refine ⟨Nat.le_of_eq hspawn, fun _ => ⟨hlive, ?_⟩⟩
      have hothers := hok (by rw [htask]; rfl) hlive
      show (s.tasks.eraseIdx position ++ [Task.finishCancelled false]).countP Task.isCancel = 0
      rw [List.countP_append, hothers]
      rfl
    · exact .of_zero hzero'
  · -- the call of `Finish` takes the place of its task
    have hcall : State.cancellations
        ({ s with tasks := s.tasks.eraseIdx position }.run (.finishCancelled false)) =
          s.cancellations := by
      rw [herase]
      unfold State.cancellations
      show _ + (s.calls ++ [Call.finish false]).count (Call.finish false) = _
      rw [List.count_append]
      rfl
    refine ⟨hcall ▸ halone.le_one, fun hone => ?_⟩
    obtain ⟨hlive, hcancels⟩ := halone.none_left (hcall.symm.trans hone)
    exact ⟨hlive, Nat.eq_zero_of_add_eq_zero_right (hcancel.symm.trans hcancels)⟩

/-- Every step of a stream whose `Write` has failed. -/
theorem alone_step (h : Broken s) (hbooks : Books s) (halone : Alone s) (hok : CancelsAlone s a)
    (hs : step s a = some t) : Alone t := by
  obtain ⟨ok, rfl, -, rfl⟩ | ⟨-, -, rfl⟩ | ⟨n, -, hread, hnot, rfl⟩ | ⟨ok, -, hsome, -⟩ |
    ⟨position, task, rfl, htask, rfl⟩ := step_cases hs
  · cases ok with
    | true => exact .of_zero hok
    | false =>
      unfold State.stateRequestDone
      rw [if_neg Bool.false_ne_true, if_pos (by simp [h.writeBackQueue])]
      exact ⟨halone.le_one, halone.none_left⟩
  · exact ⟨halone.le_one, halone.none_left⟩
  · have hlive := hbooks.mem_live hread hnot
    have hzero : s.cancellations = 0 := halone.zero_or.resolve_right fun hnone => by
      rw [hnone.1] at hlive
      cases hlive
    obtain ⟨m, rest, hqueue⟩ := List.exists_cons_of_ne_nil h.writeBackQueue
    rw [completeExecution_live hlive, hqueue, List.isEmpty_cons]
    split
    · exact .of_zero ((cancellations_spawn (moved s n) (.cancel false)).trans hzero)
    · exact .of_zero hzero
  · exact absurd h.outstanding hsome
  · exact alone_run h halone htask hok

/-! ## The runs -/

theorem phase_of_reachableAlone (h : ReachableWhen step CancelsAlone start s) :
    Books s ∧ (Opened s ∨ Ending s ∨ Broken s ∧ Alone s) := by
  refine ReachableWhen.invariant
    (P := fun s => Books s ∧ (Opened s ∨ Ending s ∨ Broken s ∧ Alone s))
    ⟨books_start, .inl opened_start⟩ ?_ h
  rintro s a t ⟨hbooks, hphase⟩ hok hs
  refine ⟨books_step hbooks hs, ?_⟩
  rcases hphase with hopened | hending | ⟨hbroken, halone⟩
  · rcases opened_step hopened hbooks hs with hopened' | hending' | ⟨rfl, hbroken'⟩
    · exact .inl hopened'
    · exact .inr (.inl hending')
    · simp only [step] at hs
      split at hs
      · cases hs
      · next hsome =>
        obtain rfl := Option.some.inj hs
        exact .inr (.inr ⟨hbroken', alone_responseDone hopened hsome⟩)
  · exact .inr (.inl (ending_step hending hbooks hs))
  · exact .inr (.inr ⟨broken_step hbroken hbooks hs, alone_step hbroken hbooks halone hok hs⟩)

/-- `Finish` behind all the `Write` calls. -/
theorem finishOnce_of_calls {executions : List Nat} {finishes : List Call}
    (hcalls : s.calls = writes executions ++ finishes) (hlength : finishes.length ≤ 1) :
    FinishOnce s := by
  have hwrites (c : Call) (hc : c ∈ writes executions) : c.isFinish = false := by
    obtain ⟨n, -, rfl⟩ := List.mem_map.mp hc
    rfl
  have hlast : EndsLast Call.isFinish s.calls := by
    rw [hcalls]
    refine EndsLast.append_left hwrites ?_
    match finishes, hlength with
    | [], _ => exact .nil
    | [c], _ => exact .singleton c
  refine ⟨hlast.countP_le_one, fun before after ok front hsplit hmem => ?_⟩
  rw [hsplit] at hlast
  rw [hlast.append_right.eq_nil_of_isEnd rfl] at hmem
  cases hmem

/-- `Finish` is called at most once, and nothing behind it, if no `CancelResponse` finds no live
execution while another one has still to look, and no request is read after one has found none. -/
theorem finishOnce_of_reachableAlone {s : State} (h : ReachableWhen step CancelsAlone start s) :
    FinishOnce s := by
  obtain ⟨-, hopened | hending | ⟨hbroken, halone⟩⟩ := phase_of_reachableAlone h
  · obtain ⟨popped, -, hcalls⟩ := hopened.calls
    exact finishOnce_of_calls (hcalls.trans (List.append_nil _).symm) (Nat.zero_le 1)
  · obtain ⟨finishes, hstage, hcalls⟩ := hending.stage
    refine finishOnce_of_calls hcalls ?_
    generalize s.nextState = nextState at hstage
    generalize s.tasks = tasks at hstage
    cases hstage with
    | finish => exact Nat.zero_le 1
    | finishOk => exact Nat.zero_le 1
    | done => exact Nat.le_refl 1
  · obtain ⟨written, cnt, hcalls⟩ := hbroken.calls
    refine finishOnce_of_calls hcalls ?_
    have hcnt : s.calls.count (.finish false) = cnt + (writes written).count (.finish false) := by
      rw [hcalls, List.count_append, List.count_replicate_self, Nat.add_comm]
    have hle : s.tasks.countP Task.isFinishCancelled + s.calls.count (.finish false) ≤ 1 :=
      halone.le_one
    rw [hcnt] at hle
    rw [List.length_replicate]
    exact Nat.le_trans (Nat.le_add_right _ _) (Nat.le_trans (Nat.le_add_left _ _) hle)

/-- A `Write` fails while two executions are live; the second one to complete finds none. -/
theorem finishOnce_failedWrite :
    ∃ s, ReachableWhen step CancelsAlone start s ∧ s.finishes = [false] ∧ FinishOnce s := by
  have hrun : (runWhen step CancelsAlone start
      [.requestDone true, .nextRead, .requestDone true, .nextRead, .requestDone true, .nextRead,
        .complete 0, .run 0, .responseDone false, .requestDone false, .run 0, .complete 1, .run 0,
        .complete 2, .run 0, .run 0]).map (fun s => decide (s.finishes = [false])) =
        some true := by decide
  obtain ⟨s, hreach, hs⟩ := exists_of_runWhen hrun
  exact ⟨s, hreach, of_decide_eq_true hs, finishOnce_of_reachableAlone hreach⟩

/-- Both executions have completed when the first `CancelResponse` looks. -/
theorem not_finishOnce :
    ∃ s, Reachable step start s ∧ s.finishes = [false, false] ∧ ¬ FinishOnce s := by
  have hrun : (runWhen step (fun _ _ => True) start
      [.requestDone true, .nextRead, .requestDone true, .nextRead, .requestDone true, .nextRead,
        .complete 0, .run 0, .responseDone false, .requestDone false, .run 0, .complete 1,
        .complete 2, .run 0, .run 0, .run 0, .run 0]).map
      (fun s => decide (s.finishes = [false, false]) &&
        decide (s.calls.countP Call.isFinish = 2)) = some true := by decide
  obtain ⟨s, hreach, hs⟩ := exists_of_runWhen hrun
  simp only [Bool.and_eq_true, decide_eq_true_eq] at hs
  exact ⟨s, hreach, hs.1, fun h => absurd (hs.2 ▸ h.once) (by decide)⟩

end

end FinBert.Streaming
