import FinBert.Streaming.Model

/-!
# The phases of a stream

A stream is open, it ends because everything is written, or a `Write` has failed. As long as it
is open, the right to issue the next `Write` is in one place: with nobody while the queue is
empty, with a thread that is about to call `Write`, or with the `Write` whose completion is
outstanding. A `Write` that fails takes the right away for good, since the front of the queue is
never popped.

Results:
1. `step_cases`: all that a step can do.
2. `books_step`: every request is live or has completed once.
3. `opened_step`, `ending_step`, `broken_step`: a step leads from a phase to the same or a later
   one, and to a failed `Write` only when a `Write` fails.
-/

namespace FinBert.Streaming

open Transition

/-- `Write` calls for these executions. -/
def writes (executions : List Nat) : List Call := executions.map fun n => .write (some n)

theorem writes_append (l l' : List Nat) : writes (l ++ l') = writes l ++ writes l' :=
  List.map_append

theorem written_writes (l : List Nat) : (writes l).filterMap Call.written = l.map some := by
  unfold writes
  rw [List.filterMap_map, ← List.filterMap_eq_map]
  rfl

theorem finished_writes (l : List Nat) : (writes l).filterMap Call.finished = [] := by
  unfold writes
  rw [List.filterMap_map]
  exact List.filterMap_eq_nil_iff.mpr fun _ _ => rfl

/-- Who issues the next `Write`: the queue, the tasks and the number of outstanding ones. -/
inductive Turn : List Nat → List Task → Nat → Prop
  | nobody : Turn [] [] 0
  | task {n : Nat} {queue : List Nat} : Turn (n :: queue) [.write] 0
  | stream {n : Nat} {queue : List Nat} : Turn (n :: queue) [] 1

/-- No `Write` has failed, and nobody has decided to finish. -/
structure Opened (s : State) : Prop where
  nextState : s.nextState = if s.reader = .ended then .responseDone else .requestDone
  pending : s.reader = .ended → s.liveContexts ≠ [] ∨ s.writeBackQueue ≠ []
  turn : Turn s.writeBackQueue s.tasks s.outstanding
  calls : ∃ popped, s.completed = popped ++ s.writeBackQueue ∧
    s.calls = writes (popped ++ s.writeBackQueue.take s.outstanding)

/-- How far `FinishResponse` is: the state, the tasks and the calls behind the `Write` calls. -/
inductive Stage : NextState → List Task → List Call → Prop
  | finish {nextState : NextState} : Stage nextState [.finish] []
  | finishOk : Stage .finishedDone [.finishOk] []
  | done : Stage .finishedDone [] [.finish true]

/-- Everything is written, and the stream finishes. -/
structure Ending (s : State) : Prop where
  reader : s.reader = .ended
  liveContexts : s.liveContexts = []
  writeBackQueue : s.writeBackQueue = []
  outstanding : s.outstanding = 0
  stage : ∃ finishes, Stage s.nextState s.tasks finishes ∧ s.calls = writes s.completed ++ finishes

/-- A `Write` has failed. -/
structure Broken (s : State) : Prop where
  writeBackQueue : s.writeBackQueue ≠ []
  outstanding : s.outstanding = 0
  tasks : ∀ task ∈ s.tasks, task = .cancel false ∨ task = .finishCancelled false
  calls : ∃ written cnt, s.calls = writes written ++ List.replicate cnt (.finish false)

/-- Every request is completed or live. -/
structure Books (s : State) : Prop where
  ids : (s.completed ++ s.liveContexts).Perm (List.range s.reads)

/-! ## The steps -/

section
variable {s t : State} {a : Action}

/-- What a step does. -/
theorem step_cases (h : step s a = some t) :
    (∃ ok, a = .requestDone ok ∧ s.reader = .reading ∧ t = s.stateRequestDone ok) ∨
    (a = .nextRead ∧ s.reader = .executing ∧ t = { s with reader := .reading }) ∨
    (∃ n, a = .complete n ∧ n < s.reads ∧ n ∉ s.completed ∧ t = s.completeExecution n) ∨
    (∃ ok, a = .responseDone ok ∧ s.outstanding ≠ 0 ∧
      t = { s with outstanding := s.outstanding - 1 }.stateResponseDone ok) ∨
    (∃ position task, a = .run position ∧ s.tasks[position]? = some task ∧
      t = { s with tasks := s.tasks.eraseIdx position }.run task) := by
  cases a with
  | requestDone ok =>
    simp only [step] at h
    split at h
    · next hreader => exact .inl ⟨ok, rfl, hreader, (Option.some.inj h).symm⟩
    · cases h
  | nextRead =>
    simp only [step] at h
    split at h
    · next hreader => exact .inr (.inl ⟨rfl, hreader, (Option.some.inj h).symm⟩)
    · cases h
  | complete n =>
    simp only [step] at h
    split at h
    · next hn => exact .inr (.inr (.inl ⟨n, rfl, hn.1, hn.2, (Option.some.inj h).symm⟩))
    · cases h
  | responseDone ok =>
    simp only [step] at h
    split at h
    · cases h
    · next hsome => exact .inr (.inr (.inr (.inl ⟨ok, rfl, hsome, (Option.some.inj h).symm⟩)))
  | run position =>
    obtain ⟨task, htask, ht⟩ := Option.map_eq_some_iff.mp h
    exact .inr (.inr (.inr (.inr ⟨position, task, rfl, htask, ht.symm⟩)))

/-- An execution that has not completed is live. -/
theorem Books.mem_live (h : Books s) {n : Nat} (hread : n < s.reads) (hnot : n ∉ s.completed) :
    n ∈ s.liveContexts :=
  (List.mem_append.mp (h.ids.mem_iff.mpr (List.mem_range.mpr hread))).resolve_left hnot

theorem Books.nodup (h : Books s) : (s.completed ++ s.liveContexts).Nodup :=
  h.ids.nodup_iff.mpr List.nodup_range

/-- What `CompleteExecution` leaves of a live execution, before what stands behind its critical
section. -/
def moved (s : State) (n : Nat) : State :=
  { s with
    completed := s.completed ++ [n]
    writeBackQueue := s.writeBackQueue ++ [n]
    liveContexts := s.liveContexts.erase n }

theorem completeExecution_live {n : Nat} (h : n ∈ s.liveContexts) :
    s.completeExecution n =
      if s.nextState = .finishedDone then (moved s n).spawn (.cancel s.writeBackQueue.isEmpty)
      else (moved s n).writeIf s.writeBackQueue.isEmpty := by
  have hfound : s.liveContexts.contains n = true := List.contains_iff_mem.mpr h
  unfold State.completeExecution
  rw [hfound]
  simp only [Bool.true_and, Bool.not_true, Bool.false_or, if_true, decide_eq_true_eq]
  rfl

theorem writeIf_true (s : State) : s.writeIf true = s.spawn .write := rfl

theorem writeIf_false (s : State) : s.writeIf false = s := rfl

/-! ## The requests -/

/-- A task leaves the executions alone. -/
theorem run_frame (s : State) (task : Task) :
    (s.run task).completed = s.completed ∧ (s.run task).liveContexts = s.liveContexts ∧
      (s.run task).reads = s.reads ∧ (s.run task).writeBackQueue = s.writeBackQueue ∧
      (s.run task).reader = s.reader := by
  cases task with
  | write => exact ⟨rfl, rfl, rfl, rfl, rfl⟩
  | finish => exact ⟨rfl, rfl, rfl, rfl, rfl⟩
  | finishOk => exact ⟨rfl, rfl, rfl, rfl, rfl⟩
  | cancel shouldWrite =>
    unfold State.run
    simp only
    split
    · exact ⟨rfl, rfl, rfl, rfl, rfl⟩
    · cases shouldWrite <;> exact ⟨rfl, rfl, rfl, rfl, rfl⟩
  | finishCancelled shouldWrite => cases shouldWrite <;> exact ⟨rfl, rfl, rfl, rfl, rfl⟩

theorem stateResponseDone_frame (s : State) (ok : Bool) :
    (s.stateResponseDone ok).completed = s.completed ∧
      (s.stateResponseDone ok).liveContexts = s.liveContexts ∧
      (s.stateResponseDone ok).reads = s.reads ∧ (s.stateResponseDone ok).reader = s.reader := by
  unfold State.stateResponseDone
  simp only
  split
  · exact ⟨rfl, rfl, rfl, rfl⟩
  · split
    · exact ⟨rfl, rfl, rfl, rfl⟩
    · unfold State.writeIf
      split
      · exact ⟨rfl, rfl, rfl, rfl⟩
      · exact ⟨rfl, rfl, rfl, rfl⟩

theorem Books.of_frame (h : Books s) (hcompleted : t.completed = s.completed)
    (hlive : t.liveContexts = s.liveContexts) (hreads : t.reads = s.reads) : Books t where
  ids := by rw [hcompleted, hlive, hreads]; exact h.ids

theorem books_start : Books start := ⟨List.Perm.refl _⟩

/-- Every request is live or has completed once. -/
theorem books_step (h : Books s) (hs : step s a = some t) : Books t := by
  obtain ⟨ok, -, -, rfl⟩ | ⟨-, -, rfl⟩ | ⟨n, -, hread, hnot, rfl⟩ | ⟨ok, -, -, rfl⟩ |
    ⟨position, task, -, -, rfl⟩ := step_cases hs
  · unfold State.stateRequestDone
    split
    · constructor
      show (s.completed ++ (s.liveContexts ++ [s.reads])).Perm (List.range (s.reads + 1))
      rw [← List.append_assoc, List.range_succ]
      exact h.ids.append_right _
    · split
      · exact h.of_frame rfl rfl rfl
      · exact h.of_frame rfl rfl rfl
  · exact h.of_frame rfl rfl rfl
  · have hlive := h.mem_live hread hnot
    have hmoved : Books (moved s n) := by
      constructor
      show (s.completed ++ [n] ++ s.liveContexts.erase n).Perm (List.range s.reads)
      rw [List.append_assoc]
      exact ((List.perm_cons_erase hlive).symm.append_left _).trans h.ids
    rw [completeExecution_live hlive]
    split
    · exact hmoved.of_frame rfl rfl rfl
    · unfold State.writeIf
      split
      · exact hmoved.of_frame rfl rfl rfl
      · exact hmoved
  · have hframe := stateResponseDone_frame { s with outstanding := s.outstanding - 1 } ok
    exact h.of_frame hframe.1 hframe.2.1 hframe.2.2.1
  · have hframe := run_frame { s with tasks := s.tasks.eraseIdx position } task
    exact h.of_frame hframe.1 hframe.2.1 hframe.2.2.1

/-! ## The phases -/

theorem Turn.spec {queue : List Nat} {tasks : List Task} {outstanding : Nat}
    (h : Turn queue tasks outstanding) :
    queue = [] ∧ tasks = [] ∧ outstanding = 0 ∨
      ∃ n rest, queue = n :: rest ∧
        (tasks = [.write] ∧ outstanding = 0 ∨ tasks = [] ∧ outstanding = 1) := by
  cases h with
  | nobody => exact .inl ⟨rfl, rfl, rfl⟩
  | task => exact .inr ⟨_, _, rfl, .inl ⟨rfl, rfl⟩⟩
  | stream => exact .inr ⟨_, _, rfl, .inr ⟨rfl, rfl⟩⟩

/-- The task of a thread that goes on, among the others. -/
theorem exists_tasks {tasks : List Task} {position : Nat} {task : Task}
    (htask : tasks[position]? = some task) :
    ∃ before after, tasks = before ++ task :: after ∧
      tasks.eraseIdx position = before ++ after := by
  obtain ⟨hposition, rfl⟩ := List.getElem?_eq_some_iff.mp htask
  refine ⟨tasks.take position, tasks.drop (position + 1), ?_,
    List.eraseIdx_eq_take_drop_succ _ _⟩
  rw [← List.drop_eq_getElem_cons hposition, List.take_append_drop]

theorem of_getElem?_singleton {task task' : Task} {position : Nat}
    (h : [task'][position]? = some task) : position = 0 ∧ task = task' := by
  obtain ⟨hposition, hget⟩ := List.getElem?_eq_some_iff.mp h
  obtain rfl := Nat.lt_one_iff.mp hposition
  exact ⟨rfl, hget.symm⟩

theorem opened_start : Opened start where
  nextState := rfl
  pending h := by cases h
  turn := .nobody
  calls := ⟨[], rfl, rfl⟩

theorem Opened.not_finishedDone (h : Opened s) : s.nextState ≠ .finishedDone := by
  rw [h.nextState]
  split
  · rintro ⟨⟩
  · rintro ⟨⟩

/-- The end of the requests, in an open stream. -/
theorem opened_requestDone (h : Opened s) (ok : Bool) (hreader : s.reader = .reading) :
    Opened (s.stateRequestDone ok) ∨ Ending (s.stateRequestDone ok) := by
  have hnext : s.nextState = .requestDone := by
    rw [h.nextState, hreader]
    rfl
  unfold State.stateRequestDone
  split
  · left
    exact { nextState := hnext, pending := by rintro ⟨⟩, turn := h.turn, calls := h.calls }
  split
  · next hpending =>
    left
    refine { nextState := by simp, pending := fun _ => ?_, turn := h.turn, calls := h.calls }
    simpa using hpending
  · next hnone =>
    right
    have hnone' : s.liveContexts = [] ∧ s.writeBackQueue = [] := by simpa using hnone
    obtain ⟨popped, hcompleted, hcalls⟩ := h.calls
    rcases h.turn.spec with ⟨-, htasks, houtstanding⟩ | ⟨n, rest, hqueue, -⟩
    · rw [hnone'.2, List.append_nil] at hcompleted
      rw [hnone'.2, List.take_nil, List.append_nil, ← hcompleted] at hcalls
      refine ⟨rfl, hnone'.1, hnone'.2, houtstanding, [], ?_, ?_⟩
      · show Stage s.nextState (s.tasks ++ [Task.finish]) []
        rw [htasks]
        exact .finish
      · exact hcalls.trans (List.append_nil _).symm
    · rw [hqueue] at hnone'
      cases hnone'.2

/-- An execution completes, in an open stream. -/
theorem opened_completeExecution (h : Opened s) {n : Nat} (hlive : n ∈ s.liveContexts) :
    Opened (s.completeExecution n) := by
  rw [completeExecution_live hlive, if_neg h.not_finishedDone]
  obtain ⟨popped, hcompleted, hcalls⟩ := h.calls
  have hcompleted' : s.completed ++ [n] = popped ++ (s.writeBackQueue ++ [n]) := by
    rw [hcompleted, List.append_assoc]
  have hpending : s.writeBackQueue ++ [n] ≠ [] := List.append_ne_nil_of_right_ne_nil _ (by simp)
  rcases h.turn.spec with ⟨hqueue, htasks, houtstanding⟩ | ⟨m, rest, hqueue, hturn⟩
  · rw [hqueue, List.isEmpty_nil, writeIf_true]
    refine ⟨h.nextState, fun _ => .inr hpending, ?_, popped, hcompleted', ?_⟩
    · show Turn (s.writeBackQueue ++ [n]) (s.tasks ++ [Task.write]) s.outstanding
      rw [hqueue, htasks, houtstanding]
      exact .task
    · show s.calls = writes (popped ++ (s.writeBackQueue ++ [n]).take s.outstanding)
      rw [hcalls, houtstanding, List.take_zero, List.take_zero]
  · rw [hqueue, List.isEmpty_cons, writeIf_false]
    refine ⟨h.nextState, fun _ => .inr hpending, ?_, popped, hcompleted', ?_⟩
    · show Turn (s.writeBackQueue ++ [n]) s.tasks s.outstanding
      rw [hqueue]
      rcases hturn with ⟨htasks, houtstanding⟩ | ⟨htasks, houtstanding⟩
      · rw [htasks, houtstanding]
        exact .task
      · rw [htasks, houtstanding]
        exact .stream
    · show s.calls = writes (popped ++ (s.writeBackQueue ++ [n]).take s.outstanding)
      rw [hcalls, List.take_append_of_le_length]
      rw [hqueue, List.length_cons]
      rcases hturn with ⟨-, houtstanding⟩ | ⟨-, houtstanding⟩
      · rw [houtstanding]
        exact Nat.zero_le _
      · rw [houtstanding]
        exact Nat.le_add_left _ _

/-- The completion of the outstanding `Write`. -/
theorem opened_responseDone (h : Opened s) (ok : Bool) (hsome : s.outstanding ≠ 0) :
    let t := { s with outstanding := s.outstanding - 1 }.stateResponseDone ok
    if ok then Opened t ∨ Ending t else Broken t := by
  obtain ⟨popped, hcompleted, hcalls⟩ := h.calls
  rcases h.turn.spec with ⟨-, -, hzero⟩ | ⟨n, rest, hqueue, ⟨-, hzero⟩ | ⟨htasks, hone⟩⟩
  · exact absurd hzero hsome
  · exact absurd hzero hsome
  rw [hqueue, hone] at hcalls
  rw [hqueue, List.append_cons] at hcompleted
  have hcalls' : s.calls = writes (popped ++ [n]) := hcalls
  unfold State.stateResponseDone
  cases ok with
  | false =>
    refine ⟨by show s.writeBackQueue ≠ []; simp [hqueue], by simp [State.spawn, hone], ?_,
      popped ++ [n], 0, ?_⟩
    · show ∀ task ∈ s.tasks ++ [Task.cancel false], _
      rw [htasks]
      simp
    · exact hcalls'.trans (List.append_nil _).symm
  | true =>
    simp only [hqueue, hone, List.tail_cons, Bool.not_true, Bool.false_eq_true, if_false, if_true]
    split
    · next hfinish =>
      right
      obtain ⟨⟨hrest, hlive⟩, hnext⟩ : (rest = [] ∧ s.liveContexts = []) ∧
          s.nextState = .responseDone := by simpa using hfinish
      have hended : s.reader = .ended := by
        by_contra hnot
        rw [h.nextState, if_neg hnot] at hnext
        cases hnext
      rw [hrest, List.append_nil] at hcompleted
      refine ⟨hended, hlive, hrest, rfl, [], ?_, ?_⟩
      · show Stage s.nextState (s.tasks ++ [Task.finish]) []
        rw [htasks]
        exact .finish
      · show s.calls = writes s.completed ++ []
        rw [hcalls', hcompleted, List.append_nil]
    · next hfinish =>
      left
      cases rest with
      | nil =>
        rw [List.isEmpty_nil, Bool.not_true, writeIf_false]
        refine ⟨h.nextState, fun hended => .inl fun hlive => hfinish ?_, ?_, popped ++ [n],
          hcompleted, ?_⟩
        · have hnext := h.nextState
          rw [if_pos hended] at hnext
          have hlive' : s.liveContexts = [] := hlive
          simp [hlive', hnext]
        · show Turn [] s.tasks 0
          rw [htasks]
          exact .nobody
        · show s.calls = writes (popped ++ [n] ++ [])
          rw [hcalls', List.append_nil]
      | cons m rest =>
        rw [List.isEmpty_cons, Bool.not_false, writeIf_true]
        refine ⟨h.nextState, fun _ => .inr (List.cons_ne_nil _ _), ?_, popped ++ [n],
          hcompleted, ?_⟩
        · show Turn (m :: rest) (s.tasks ++ [Task.write]) 0
          rw [htasks]
          exact .task
        · show s.calls = writes (popped ++ [n] ++ [])
          rw [hcalls', List.append_nil]

/-- A thread that has the turn calls `Write`. -/
theorem opened_run (h : Opened s) {position : Nat} {task : Task}
    (htask : s.tasks[position]? = some task) :
    Opened ({ s with tasks := s.tasks.eraseIdx position }.run task) := by
  obtain ⟨popped, hcompleted, hcalls⟩ := h.calls
  rcases h.turn.spec with ⟨-, htasks, -⟩ | ⟨n, rest, hqueue, ⟨htasks, hzero⟩ | ⟨htasks, -⟩⟩
  · rw [htasks] at htask
    cases htask
  · rw [htasks] at htask
    obtain ⟨rfl, rfl⟩ := of_getElem?_singleton htask
    refine ⟨h.nextState, h.pending, ?_, popped, hcompleted, ?_⟩
    · show Turn s.writeBackQueue (s.tasks.eraseIdx 0) (s.outstanding + 1)
      rw [hqueue, htasks, hzero]
      exact .stream
    · show s.calls ++ [Call.write s.writeBackQueue.head?] =
        writes (popped ++ s.writeBackQueue.take (s.outstanding + 1))
      rw [hcalls, hqueue, hzero, writes_append, writes_append, List.append_assoc]
      rfl
  · rw [htasks] at htask
    cases htask

/-- Every step of an open stream. -/
theorem opened_step (h : Opened s) (hbooks : Books s) (hs : step s a = some t) :
    Opened t ∨ Ending t ∨ a = .responseDone false ∧ Broken t := by
  obtain ⟨ok, -, hreader, rfl⟩ | ⟨-, hreader, rfl⟩ | ⟨n, -, hread, hnot, rfl⟩ |
    ⟨ok, rfl, hsome, rfl⟩ | ⟨position, task, -, htask, rfl⟩ := step_cases hs
  · exact (opened_requestDone h ok hreader).imp_right .inl
  · have hnext := h.nextState
    rw [hreader] at hnext
    exact .inl ⟨hnext, by rintro ⟨⟩, h.turn, h.calls⟩
  · exact .inl (opened_completeExecution h (hbooks.mem_live hread hnot))
  · have hdone := opened_responseDone h ok hsome
    cases ok with
    | false => exact .inr (.inr ⟨rfl, hdone⟩)
    | true => exact hdone.imp_right .inl
  · exact .inl (opened_run h htask)

/-- Once everything is written, only `FinishResponse` goes on. -/
theorem ending_step (h : Ending s) (hbooks : Books s) (hs : step s a = some t) : Ending t := by
  obtain ⟨finishes, hstage, hcalls⟩ := h.stage
  obtain ⟨ok, -, hreader, -⟩ | ⟨-, hreader, -⟩ | ⟨n, -, hread, hnot, -⟩ | ⟨ok, -, hsome, -⟩ |
    ⟨position, task, -, htask, rfl⟩ := step_cases hs
  · cases hreader.symm.trans h.reader
  · cases hreader.symm.trans h.reader
  · have hlive := hbooks.mem_live hread hnot
    rw [h.liveContexts] at hlive
    cases hlive
  · exact absurd h.outstanding hsome
  generalize htasks : s.tasks = tasks at hstage htask
  generalize hnext : s.nextState = nextState at hstage
  cases hstage with
  | finish =>
    obtain ⟨rfl, rfl⟩ := of_getElem?_singleton htask
    exact ⟨h.reader, h.liveContexts, h.writeBackQueue, h.outstanding, [], .finishOk, hcalls⟩
  | finishOk =>
    obtain ⟨rfl, rfl⟩ := of_getElem?_singleton htask
    refine ⟨h.reader, h.liveContexts, h.writeBackQueue, h.outstanding, [.finish true], .done, ?_⟩
    show s.calls ++ [Call.finish true] = writes s.completed ++ [Call.finish true]
    rw [hcalls, List.append_nil]
  | done => cases htask

/-- A step that spawns at most a cancellation, and that calls nothing. -/
theorem Broken.spawned (h : Broken s) (hqueue : t.writeBackQueue ≠ [])
    (houtstanding : t.outstanding = s.outstanding)
    (htasks : ∀ task ∈ t.tasks, task ∈ s.tasks ∨ task = .cancel false ∨
      task = .finishCancelled false)
    (hcalls : t.calls = s.calls) : Broken t where
  writeBackQueue := hqueue
  outstanding := houtstanding.trans h.outstanding
  tasks task hmem := (htasks task hmem).elim (h.tasks task) id
  calls := by rw [hcalls]; exact h.calls

theorem broken_completeExecution (h : Broken s) {n : Nat} (hlive : n ∈ s.liveContexts) :
    Broken (s.completeExecution n) := by
  obtain ⟨m, rest, hqueue⟩ := List.exists_cons_of_ne_nil h.writeBackQueue
  have hpending : s.writeBackQueue ++ [n] ≠ [] := List.append_ne_nil_of_right_ne_nil _ (by simp)
  rw [completeExecution_live hlive, hqueue, List.isEmpty_cons]
  split
  · refine h.spawned hpending rfl (fun task hmem => ?_) rfl
    have hmem' : task ∈ s.tasks ++ [Task.cancel false] := hmem
    simpa using (List.mem_append.mp hmem').imp_right Or.inl
  · exact h.spawned hpending rfl (fun task hmem => .inl hmem) rfl

theorem broken_run (h : Broken s) {position : Nat} {task : Task}
    (htask : s.tasks[position]? = some task) :
    Broken ({ s with tasks := s.tasks.eraseIdx position }.run task) := by
  have herase (task' : Task) (hmem : task' ∈ s.tasks.eraseIdx position) : task' ∈ s.tasks :=
    List.mem_of_mem_eraseIdx hmem
  rcases h.tasks task (List.mem_of_getElem? htask) with rfl | rfl
  · unfold State.run
    simp only
    split
    · refine h.spawned h.writeBackQueue rfl (fun task hmem => ?_) rfl
      have hmem' : task ∈ s.tasks.eraseIdx position ++ [Task.finishCancelled false] := hmem
      rcases List.mem_append.mp hmem' with hold | hnew
      · exact .inl (herase task hold)
      · exact .inr (.inr (List.mem_singleton.mp hnew))
    · exact h.spawned h.writeBackQueue rfl (fun task hmem => .inl (herase task hmem)) rfl
  · obtain ⟨written, cnt, hcalls⟩ := h.calls
    refine ⟨h.writeBackQueue, h.outstanding, fun task hmem => h.tasks task (herase task hmem),
      written, cnt + 1, ?_⟩
    show s.calls ++ [Call.finish false] = _
    rw [hcalls, List.append_assoc, List.replicate_succ']

/-- After a failed `Write` there is none any more. -/
theorem broken_step (h : Broken s) (hbooks : Books s) (hs : step s a = some t) : Broken t := by
  obtain ⟨ok, -, -, rfl⟩ | ⟨-, -, rfl⟩ | ⟨n, -, hread, hnot, rfl⟩ | ⟨ok, -, hsome, -⟩ |
    ⟨position, task, -, htask, rfl⟩ := step_cases hs
  · unfold State.stateRequestDone
    split
    · exact h.spawned h.writeBackQueue rfl (fun _ => .inl) rfl
    split
    · exact h.spawned h.writeBackQueue rfl (fun _ => .inl) rfl
    · next hnone =>
      have hnone' : s.liveContexts = [] ∧ s.writeBackQueue = [] := by simpa using hnone
      exact absurd hnone'.2 h.writeBackQueue
  · exact h.spawned h.writeBackQueue rfl (fun _ => .inl) rfl
  · exact broken_completeExecution h (hbooks.mem_live hread hnot)
  · exact absurd h.outstanding hsome
  · exact broken_run h htask

end

end FinBert.Streaming
