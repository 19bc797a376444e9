import FinBert.Streaming.Session
import Mathlib.Data.List.Infix
import Mathlib.Data.List.Nodup
import Mathlib.Data.Option.Basic

/-!
# Every request of a stream gets its own response

Results:
1. `written_of_reachable`: whatever fails, a stream writes the responses of its executions in the
   order of their completion.
2. `own_of_reachable`: a request that is ready holds the response to the message with its inputs,
   every response finds its request, and `GetAsyncRunResults` returns a response once.
-/

namespace FinBert.Streaming

open Transition

/-- A list that grows at its end keeps what is in it. -/
theorem getElem?_of_starts {γ : Type} {l l' : List γ} {i : Nat} {x : γ} (h : l <+: l')
    (hx : l[i]? = some x) : l'[i]? = some x := by
  obtain ⟨hi, -⟩ := List.getElem?_eq_some_iff.mp hx
  exact (List.prefix_iff_getElem?.mp h i hi).trans (List.getElem?_eq_getElem hi ▸ hx)

section
variable {s t : State} {a : Action}

/-! ## The logs of the stream -/

theorem writeIf_calls (s : State) (shouldWrite : Bool) :
    (s.writeIf shouldWrite).calls = s.calls := by
  unfold State.writeIf
  split <;> rfl

theorem completeExecution_calls (s : State) (n : Nat) :
    (s.completeExecution n).calls = s.calls := by
  unfold State.completeExecution
  simp only
  split
  · split <;> rfl
  · rw [writeIf_calls]
    split <;> rfl

theorem completeExecution_completed (s : State) (n : Nat) :
    (s.completeExecution n).completed = s.completed ++ [n] := by
  unfold State.completeExecution State.writeIf
  simp only
  repeat' split
  all_goals rfl

theorem stateResponseDone_calls (s : State) (ok : Bool) :
    (s.stateResponseDone ok).calls = s.calls := by
  unfold State.stateResponseDone
  simp only
  split
  · rfl
  split
  · rfl
  · exact writeIf_calls _ _

theorem stateRequestDone_logs (s : State) (ok : Bool) :
    (s.stateRequestDone ok).calls = s.calls ∧
      (s.stateRequestDone ok).completed = s.completed := by
  unfold State.stateRequestDone
  split
  · exact ⟨rfl, rfl⟩
  split <;> exact ⟨rfl, rfl⟩

/-- What a task calls. -/
theorem run_calls (s : State) (task : Task) : ∃ calls, (s.run task).calls = s.calls ++ calls ∧
    calls.length ≤ 1 ∧ ∀ c ∈ calls, c.written.isSome = true → task = .write := by
  cases task with
  | write => exact ⟨[.write s.writeBackQueue.head?], rfl, Nat.le_refl 1, fun _ _ _ => rfl⟩
  | finish => exact ⟨[], (List.append_nil _).symm, Nat.zero_le 1, by simp⟩
  | finishOk => exact ⟨[.finish true], rfl, Nat.le_refl 1, by simp [Call.written]⟩
  | cancel shouldWrite =>
    refine ⟨[], ?_, Nat.zero_le 1, by simp⟩
    unfold State.run
    simp only
    split
    · exact (List.append_nil _).symm
    · exact (writeIf_calls _ _).trans (List.append_nil _).symm
  | finishCancelled shouldWrite =>
    exact ⟨[.finish false], writeIf_calls _ _, Nat.le_refl 1, by simp [Call.written]⟩

/-- The logs only grow. -/
theorem step_logs (hs : step s a = some t) :
    s.calls <+: t.calls ∧ s.completed <+: t.completed := by
  obtain ⟨ok, -, -, rfl⟩ | ⟨-, -, rfl⟩ | ⟨n, -, -, -, rfl⟩ | ⟨ok, -, -, rfl⟩ |
    ⟨position, task, -, -, rfl⟩ := step_cases hs
  · rw [(stateRequestDone_logs s ok).1, (stateRequestDone_logs s ok).2]
    exact ⟨List.prefix_rfl, List.prefix_rfl⟩
  · exact ⟨List.prefix_rfl, List.prefix_rfl⟩
  · rw [completeExecution_calls, completeExecution_completed]
    exact ⟨List.prefix_rfl, List.prefix_append _ _⟩
  · rw [stateResponseDone_calls, (stateResponseDone_frame _ ok).1]
    exact ⟨List.prefix_rfl, List.prefix_rfl⟩
  · obtain ⟨calls, hcalls, -⟩ := run_calls { s with tasks := s.tasks.eraseIdx position } task
    rw [hcalls, (run_frame _ _).1]
    exact ⟨List.prefix_append _ _, List.prefix_rfl⟩

theorem written_of_calls (h : s.calls <+: t.calls) : s.written <+: t.written :=
  h.filterMap _

/-! ## What is written, in every run -/

/-- The invariant of every run of a stream. -/
structure InOrder (s : State) : Prop where
  books : Books s
  phase : Opened s ∨ Ending s ∨ Broken s
  written : s.written <+: s.completed.map some

theorem inOrder_start : InOrder start where
  books := books_start
  phase := .inl opened_start
  written := List.nil_prefix

/-- A stream whose `Write` has failed writes no more. -/
theorem broken_written (h : Broken s) (hs : step s a = some t) : t.written = s.written := by
  have heq (hcalls : t.calls = s.calls) : t.written = s.written :=
    congrArg (List.filterMap Call.written) hcalls
  obtain ⟨ok, -, -, rfl⟩ | ⟨-, -, rfl⟩ | ⟨n, -, -, -, rfl⟩ | ⟨ok, -, hsome, -⟩ |
    ⟨position, task, -, htask, rfl⟩ := step_cases hs
  · exact heq (stateRequestDone_logs s ok).1
  · rfl
  · exact heq (completeExecution_calls s n)
  · exact absurd h.outstanding hsome
  · obtain ⟨calls, hcalls, -, hwrites⟩ :=
      run_calls { s with tasks := s.tasks.eraseIdx position } task
    have hnone : calls.filterMap Call.written = [] := by
      refine List.filterMap_eq_nil_iff.mpr fun c hc => ?_
      refine Option.not_isSome_iff_eq_none.mp fun hwritten => ?_
      obtain rfl := hwrites c hc hwritten
      rcases h.tasks _ (List.mem_of_getElem? htask) with hcancel | hcancel <;> cases hcancel
    unfold State.written
    rw [hcalls, List.filterMap_append, hnone, List.append_nil]

theorem inOrder_step (h : InOrder s) (hs : step s a = some t) : InOrder t := by
  have hbooks := books_step h.books hs
  have hgrown : s.completed.map some <+: t.completed.map some := (step_logs hs).2.map some
  rcases h.phase with hopened | hending | hbroken
  · rcases opened_step hopened h.books hs with hopened' | hending' | ⟨rfl, hbroken'⟩
    · exact ⟨hbooks, .inl hopened', (hopened'.normal hbooks).inOrder⟩
    · exact ⟨hbooks, .inr (.inl hending'), (hending'.normal hbooks).inOrder⟩
    · refine ⟨hbooks, .inr (.inr hbroken'), ?_⟩
      obtain ⟨ok, haction, -⟩ | ⟨haction, -⟩ | ⟨n, haction, -⟩ | ⟨ok, -, -, rfl⟩ |
        ⟨position, task, haction, -⟩ := step_cases hs
      · cases haction
      · cases haction
      · cases haction
      · have hsame : State.written
            ({ s with outstanding := s.outstanding - 1 }.stateResponseDone ok) = s.written :=
          congrArg (List.filterMap Call.written) (stateResponseDone_calls _ ok)
        rw [hsame]
        exact h.written.trans hgrown
      · cases haction
  · have hending' := ending_step hending h.books hs
    exact ⟨hbooks, .inr (.inl hending'), (hending'.normal hbooks).inOrder⟩
  · refine ⟨hbooks, .inr (.inr (broken_step hbroken h.books hs)), ?_⟩
    rw [broken_written hbroken hs]
    exact h.written.trans hgrown

end

/-- Whatever fails, a stream writes responses of completed executions only, in the order of their
completion and each of them once. -/
theorem written_of_reachable {s : State} (h : Reachable step start s) :
    s.written <+: s.completed.map some ∧ s.completed.Nodup := by
  have hinv : InOrder s :=
    ReachableWhen.invariant inOrder_start (fun _ _ _ h _ hs => inOrder_step h hs) h
  exact ⟨hinv.written, (List.nodup_append.mp hinv.books.nodup).1⟩

/-! ## The steps of a session -/

section
variable {s t : State} {a : Action}

theorem completeExecution_reads (s : State) (n : Nat) :
    (s.completeExecution n).reads = s.reads := by
  unfold State.completeExecution State.writeIf
  simp only
  repeat' split
  all_goals rfl

theorem reads_of_step (hs : step s a = some t) (ha : a ≠ .requestDone true) :
    t.reads = s.reads := by
  obtain ⟨ok, rfl, -, rfl⟩ | ⟨-, -, rfl⟩ | ⟨n, -, -, -, rfl⟩ | ⟨ok, -, -, rfl⟩ |
    ⟨position, task, -, -, rfl⟩ := step_cases hs
  · obtain rfl : ok = false := Bool.eq_false_iff.mpr fun htrue => ha (htrue ▸ rfl)
    unfold State.stateRequestDone
    rw [if_neg Bool.false_ne_true]
    split <;> rfl
  · rfl
  · exact completeExecution_reads s n
  · exact (stateResponseDone_frame _ ok).2.2.1
  · exact (run_frame _ task).2.2.1

theorem completed_of_step (hs : step s a = some t) (ha : ∀ n, a ≠ .complete n) :
    t.completed = s.completed := by
  obtain ⟨ok, -, -, rfl⟩ | ⟨-, -, rfl⟩ | ⟨n, haction, -⟩ | ⟨ok, -, -, rfl⟩ |
    ⟨position, task, -, -, rfl⟩ := step_cases hs
  · exact (stateRequestDone_logs s ok).2
  · rfl
  · exact absurd haction (ha n)
  · exact (stateResponseDone_frame _ ok).1
  · exact (run_frame _ task).1

end

namespace Session

variable {α β : Type} {s t : Session α β} {a : SessionAction α β}

/-- What a step does, and when it can be taken. -/
inductive Moves (s : Session α β) : SessionAction α β → Session α β → Prop
  | asyncRun {data : α} : s.user = .idle → s.exiting = false →
      Moves s (.asyncRun data) (s.asyncRun data)
  | write {ok : Bool} {k : Nat} : s.user = .sending k → ok = true ∨ s.connected = false →
      Moves s (.write ok) (s.write k ok)
  | isRequestReady {k : Nat} : s.user = .idle → s.exiting = false → s.isRequestReady k = true →
      Moves s (.isRequestReady k) { s with user := .collecting k }
  | collect {k : Nat} : s.user = .collecting k → Moves s .collect (s.collect k)
  | exit : s.user = .idle → s.exiting = false → Moves s .exit { s with exiting := true }
  | read {r : InferResponse β} : s.transfer = .reading → s.incoming = some r →
      Moves s .read (s.read r)
  | store {r : InferResponse β} : s.transfer = .received r → Moves s .store (s.store r)
  | readEnd : s.transfer = .reading →
      s.connected = false ∨ s.server.finishes ≠ [] ∧ s.server.written.length ≤ s.delivered →
      Moves s .readEnd { s with transfer := .ended }
  | server {a : Action} {v : State} : s.permits a = true → Streaming.step s.server a = some v →
      Moves s (.server a) { s with server := v }
  | complete {n : Nat} {body : β} {v : State} : Streaming.step s.server (.complete n) = some v →
      Moves s (.complete n body) { s.answer n body with server := v }
  | disconnect : Moves s .disconnect { s with connected := false }

theorem moves_of_step (h : step s a = some t) : Moves s a t := by
  cases a with
  | asyncRun data =>
    obtain ⟨hguard, ht⟩ := Option.ite_none_right_eq_some.mp h
    exact Option.some.inj ht ▸ .asyncRun hguard.1 hguard.2
  | write ok =>
    simp only [step] at h
    split at h
    · obtain ⟨hguard, ht⟩ := Option.ite_none_right_eq_some.mp h
      exact Option.some.inj ht ▸ .write ‹_› hguard
    · cases h
  | isRequestReady request =>
    obtain ⟨hguard, ht⟩ := Option.ite_none_right_eq_some.mp h
    exact Option.some.inj ht ▸ .isRequestReady hguard.1 hguard.2.1 hguard.2.2
  | collect =>
    simp only [step] at h
    split at h
    · exact Option.some.inj h ▸ .collect ‹_›
    · cases h
  | exit =>
    obtain ⟨hguard, ht⟩ := Option.ite_none_right_eq_some.mp h
    exact Option.some.inj ht ▸ .exit hguard.1 hguard.2
  | read =>
    simp only [step] at h
    split at h
    · obtain ⟨r, hr, rfl⟩ := Option.map_eq_some_iff.mp h
      exact .read ‹_› hr
    · cases h
  | store =>
    simp only [step] at h
    split at h
    · exact Option.some.inj h ▸ .store ‹_›
    · cases h
  | readEnd =>
    simp only [step] at h
    split at h
    · obtain ⟨hguard, ht⟩ := Option.ite_none_right_eq_some.mp h
      exact Option.some.inj ht ▸ .readEnd ‹_› hguard
    · cases h
  | server b =>
    obtain ⟨hguard, ht⟩ := Option.ite_none_right_eq_some.mp h
    obtain ⟨v, hv, rfl⟩ := Option.map_eq_some_iff.mp ht
    exact .server hguard hv
  | complete execution body =>
    obtain ⟨v, hv, rfl⟩ := Option.map_eq_some_iff.mp h
    exact .complete hv
  | disconnect => exact Option.some.inj h ▸ .disconnect

/-! ## The messages -/

/-- What the server has of the messages. -/
structure Served (s : Session α β) : Prop where
  inOrder : InOrder s.server
  reads : s.server.reads ≤ s.sent.length
  answers : s.answers.map Prod.fst = s.server.completed
  answered : ∀ p ∈ s.answers, ∃ m, s.sent[p.1]? = some m ∧ p.2.id = m.id

theorem served_start : Served ({} : Session α β) where
  inOrder := inOrder_start
  reads := Nat.le_refl 0
  answers := rfl
  answered _ hp := by cases hp

/-- The messages, which most steps of the client leave alone. -/
structure SameMessages (s t : Session α β) : Prop where
  server : t.server = s.server
  answers : t.answers = s.answers
  sent : t.sent = s.sent

theorem Served.same (h : Served s) (hsame : SameMessages s t) : Served t where
  inOrder := hsame.server ▸ h.inOrder
  reads := by rw [hsame.server, hsame.sent]; exact h.reads
  answers := by rw [hsame.server, hsame.answers]; exact h.answers
  answered := by rw [hsame.answers, hsame.sent]; exact h.answered

theorem asyncRun_messages (s : Session α β) (data : α) : SameMessages s (s.asyncRun data) := by
  unfold asyncRun
  simp only
  split <;> exact ⟨rfl, rfl, rfl⟩

theorem collect_messages (s : Session α β) (k : Nat) : SameMessages s (s.collect k) := by
  unfold collect
  split <;> exact ⟨rfl, rfl, rfl⟩

theorem store_messages (s : Session α β) (r : InferResponse β) : SameMessages s (s.store r) := by
  unfold store
  split <;> exact ⟨rfl, rfl, rfl⟩

theorem Served.sent_append (h : Served s) {sent : List (InferRequest α)}
    (hsent : s.sent <+: sent) : Served { s with sent := sent } where
  inOrder := h.inOrder
  reads := h.reads.trans hsent.length_le
  answers := h.answers
  answered p hp := by
    obtain ⟨m, hm, hid⟩ := h.answered p hp
    exact ⟨m, getElem?_of_starts hsent hm, hid⟩

theorem reads_of_permits (h : Served s) {a : Action} {v : State} (ha : s.permits a = true)
    (hv : Streaming.step s.server a = some v) : v.reads ≤ s.sent.length := by
  by_cases haction : a = .requestDone true
  · subst haction
    have hlt : s.server.reads < s.sent.length := of_decide_eq_true ha
    obtain ⟨ok, hok, -, rfl⟩ | ⟨haction, -⟩ | ⟨n, haction, -⟩ | ⟨ok, haction, -⟩ |
      ⟨position, task, haction, -⟩ := Streaming.step_cases hv
    · cases hok
      exact hlt
    all_goals cases haction
  · exact (reads_of_step hv haction).le.trans h.reads

theorem served_step (h : Served s) (hs : step s a = some t) : Served t := by
  cases moves_of_step hs with
  | asyncRun => exact h.same (asyncRun_messages s _)
  | @write ok k huser hok =>
    unfold write
    split
    · refine (h.sent_append ?_).same ⟨rfl, rfl, rfl⟩
      split
      · exact List.prefix_append _ _
      · exact List.prefix_rfl
    · exact h
  | isRequestReady => exact h.same ⟨rfl, rfl, rfl⟩
  | collect => exact h.same (collect_messages s _)
  | exit => exact h.same ⟨rfl, rfl, rfl⟩
  | read => exact h.same ⟨rfl, rfl, rfl⟩
  | store => exact h.same (store_messages s _)
  | readEnd => exact h.same ⟨rfl, rfl, rfl⟩
  | @server a v ha hv =>
    have hcompleted : v.completed = s.server.completed := completed_of_step hv fun n hn => by
      rw [hn] at ha
      cases ha
    exact
      { inOrder := inOrder_step h.inOrder hv
        reads := reads_of_permits h ha hv
        answers := h.answers.trans hcompleted.symm
        answered := h.answered }
  | @complete n body v hv =>
    have hinOrder := inOrder_step h.inOrder hv
    have hreads := reads_of_step hv (by rintro ⟨⟩)
    obtain ⟨ok, haction, -⟩ | ⟨haction, -⟩ | ⟨n', haction, hread, -, rfl⟩ | ⟨ok, haction, -⟩ |
      ⟨position, task, haction, -⟩ := Streaming.step_cases hv
    · cases haction
    · cases haction
    · cases haction
      obtain ⟨m, hm⟩ : ∃ m, s.sent[n]? = some m :=
        ⟨_, List.getElem?_eq_getElem (hread.trans_le h.reads)⟩
      unfold answer
      rw [hm]
      exact
        { inOrder := hinOrder
          reads := hreads.le.trans h.reads
          answers := by
            rw [List.map_append, h.answers, completeExecution_completed]
            rfl
          answered := fun p hp => by
            rcases List.mem_append.mp hp with hp | hp
            · exact h.answered p hp
            · obtain rfl := List.mem_singleton.mp hp
              exact ⟨m, hm, rfl⟩ }
    · cases haction
    · cases haction
  | disconnect => exact h.same ⟨rfl, rfl, rfl⟩

/-! ## The requests -/

/-- `async_request_id_` does not wrap. -/
def Fewer (s : Session α β) (a : SessionAction α β) : Prop :=
  a.isAsyncRun = true → s.requests.length + 2 < 2 ^ 64

instance (s : Session α β) (a : SessionAction α β) : Decidable (s.Fewer a) :=
  inferInstanceAs (Decidable (_ → _))

/-- How the client numbers its requests. -/
structure Asked (s : Session α β) : Prop where
  next : s.asyncRequestId = s.requests.length + 1
  runIndex : ∀ k r, s.requests[k]? = some r → r.runIndex = k + 1
  ongoing : ∀ p ∈ s.ongoingAsyncRequests, p.1 = p.2 + 1 ∧ p.2 < s.requests.length
  sent : ∀ m ∈ s.sent, ∃ r, s.requests[m.request]? = some r ∧ m.id = r.runIndex ∧ m.data = r.data
  order : s.sent.Pairwise (·.request < ·.request)
  sending : ∀ k, s.user = .sending k → k < s.requests.length ∧ ∀ m ∈ s.sent, m.request < k

theorem asked_start : Asked ({} : Session α β) where
  next := rfl
  runIndex _ _ hr := by cases hr
  ongoing _ hp := by cases hp
  sent _ hm := by cases hm
  order := .nil
  sending _ hk := by cases hk

theorem Asked.find_some (h : Asked s) {id k : Nat} (hfind : s.find id = some k) :
    id = k + 1 ∧ (k + 1, k) ∈ s.ongoingAsyncRequests := by
  obtain ⟨p, hp, rfl⟩ := Option.map_eq_some_iff.mp hfind
  have hmem := List.mem_of_find?_eq_some hp
  have hid : p.1 = id := eq_of_beq (List.find?_some hp :)
  have hkey := (h.ongoing p hmem).1
  exact ⟨hid.symm.trans hkey, hkey ▸ hmem⟩

theorem Asked.find_of_mem (h : Asked s) {k : Nat} (hmem : (k + 1, k) ∈ s.ongoingAsyncRequests) :
    s.find (k + 1) = some k := by
  cases hfind : s.find (k + 1) with
  | some j => exact congrArg some (Nat.succ.inj (h.find_some hfind).1).symm
  | none =>
    have hnone := List.find?_eq_none.mp (Option.map_eq_none_iff.mp hfind) _ hmem
    exact absurd (beq_self_eq_true (k + 1)) hnone

theorem Asked.find_next (h : Asked s) : s.find (s.requests.length + 1) = none := by
  cases hfind : s.find (s.requests.length + 1) with
  | none => rfl
  | some j =>
    obtain ⟨hid, hmem⟩ := h.find_some hfind
    have hlt := (h.ongoing _ hmem).2
    exact absurd (Nat.succ.inj hid) (Nat.ne_of_gt hlt)

/-- `AsyncRun` with a fresh id. -/
theorem Asked.asyncRun_eq (h : Asked s) (data : α) (hfew : s.requests.length + 2 < 2 ^ 64) :
    s.asyncRun data =
      { s with
        asyncRequestId := s.requests.length + 2
        requests := s.requests ++ [{ runIndex := s.requests.length + 1, data := data }]
        ongoingAsyncRequests :=
          s.ongoingAsyncRequests ++ [(s.requests.length + 1, s.requests.length)]
        user := .sending s.requests.length } := by
  have hnext : (s.asyncRequestId + 1) % 2 ^ 64 = s.requests.length + 2 := by
    rw [h.next]
    exact Nat.mod_eq_of_lt hfew
  have hfind : (s.ongoingAsyncRequests.find? (·.1 == s.requests.length + 1)).map Prod.snd = none :=
    h.find_next
  unfold asyncRun find
  simp only [hnext]
  simp only [h.next, hfind]

theorem getElem?_snoc {γ : Type} {l : List γ} {x y : γ} {k : Nat} (h : (l ++ [x])[k]? = some y) :
    l[k]? = some y ∨ k = l.length ∧ y = x := by
  rw [List.getElem?_append] at h
  split at h
  · exact .inl h
  · next hle =>
    obtain ⟨hk, rfl⟩ := List.getElem?_eq_some_iff.mp h
    have hzero : k - l.length = 0 := Nat.lt_one_iff.mp hk
    refine .inr ⟨Nat.le_antisymm (Nat.le_of_sub_eq_zero hzero) (Nat.le_of_not_lt hle), ?_⟩
    simp only [hzero, List.getElem_cons_zero]

/-- The fields of a request that `AsyncTransfer` does not write. -/
theorem store_requests (s : Session α β) (response : InferResponse β) (k : Nat) :
    (s.store response).requests[k]? =
      if s.find response.id = some k then
        s.requests[k]?.map fun r => { r with ready := true, grpcResponse := some response }
      else s.requests[k]? := by
  unfold store
  split
  · next hfind => rw [hfind, if_neg (by simp)]
  · next j hfind =>
    simp only [hfind, Option.some.injEq]
    rw [List.getElem?_modify]
    split <;> simp_all

/-- The numbering, which the server and most steps of the client leave alone. -/
theorem Asked.same (h : Asked s) (hid : t.asyncRequestId = s.asyncRequestId)
    (hrequests : t.requests = s.requests)
    (hongoing : t.ongoingAsyncRequests ⊆ s.ongoingAsyncRequests) (hsent : t.sent = s.sent)
    (huser : ∀ k, t.user = .sending k → s.user = .sending k) : Asked t where
  next := by rw [hid, hrequests]; exact h.next
  runIndex := by rw [hrequests]; exact h.runIndex
  ongoing p hp := by rw [hrequests]; exact h.ongoing p (hongoing hp)
  sent := by rw [hsent, hrequests]; exact h.sent
  order := hsent ▸ h.order
  sending k hk := by rw [hsent, hrequests]; exact h.sending k (huser k hk)

theorem Asked.asyncRun (h : Asked s) (data : α) (hfew : s.requests.length + 2 < 2 ^ 64) :
    Asked (s.asyncRun data) := by
  rw [h.asyncRun_eq data hfew]
  have hlength (r : GrpcRequest α β) : (s.requests ++ [r]).length = s.requests.length + 1 :=
    List.length_append
  have hsent (m : InferRequest α) (hm : m ∈ s.sent) : m.request < s.requests.length := by
    obtain ⟨r, hr, -⟩ := h.sent m hm
    exact (List.getElem?_eq_some_iff.mp hr).1
  constructor
  case next => exact congrArg (· + 1) (hlength _).symm
  case runIndex =>
    intro k r hr
    rcases getElem?_snoc hr with hr | ⟨rfl, rfl⟩
    · exact h.runIndex k r hr
    · rfl
  case ongoing =>
    intro p hp
    rw [hlength]
    rcases List.mem_append.mp hp with hp | hp
    · exact ⟨(h.ongoing p hp).1, (h.ongoing p hp).2.trans (Nat.lt_succ_self _)⟩
    · obtain rfl := List.mem_singleton.mp hp
      exact ⟨rfl, Nat.lt_succ_self _⟩
  case sent =>
    intro m hm
    obtain ⟨r, hr, hid⟩ := h.sent m hm
    exact ⟨r, getElem?_of_starts (List.prefix_append _ _) hr, hid⟩
  case order => exact h.order
  case sending =>
    intro k hk
    cases hk
    rw [hlength]
    exact ⟨Nat.lt_succ_self _, hsent⟩

theorem Asked.write (h : Asked s) {k : Nat} (huser : s.user = .sending k) (ok : Bool) :
    Asked (s.write k ok) := by
  obtain ⟨hk, hbefore⟩ := h.sending k huser
  obtain ⟨r, hr⟩ : ∃ r, s.requests[k]? = some r := ⟨_, List.getElem?_eq_getElem hk⟩
  unfold Session.write
  rw [hr]
  cases ok with
  | false => exact h.same rfl rfl (List.Subset.refl _) rfl (by rintro _ ⟨⟩)
  | true =>
    exact
      { next := h.next
        runIndex := h.runIndex
        ongoing := h.ongoing
        sent := fun m hm => by
          rcases List.mem_append.mp hm with hm | hm
          · exact h.sent m hm
          · obtain rfl := List.mem_singleton.mp hm
            exact ⟨r, hr, rfl, rfl⟩
        order := List.pairwise_append.mpr
          ⟨h.order, List.pairwise_singleton _ _, fun m hm m' hm' => by
            obtain rfl := List.mem_singleton.mp hm'
            exact hbefore m hm⟩
        sending := by rintro _ ⟨⟩ }

theorem Asked.store (h : Asked s) (response : InferResponse β) : Asked (s.store response) := by
  have hframe : (s.store response).asyncRequestId = s.asyncRequestId ∧
      (s.store response).ongoingAsyncRequests = s.ongoingAsyncRequests ∧
      (s.store response).user = s.user ∧
      (s.store response).requests.length = s.requests.length := by
    unfold Session.store
    split
    · exact ⟨rfl, rfl, rfl, rfl⟩
    · exact ⟨rfl, rfl, rfl, List.length_modify _ _ _⟩
  obtain ⟨hid, hongoing, huser, hlength⟩ := hframe
  have hsent := (store_messages s response).sent
  have hrequests := store_requests s response
  constructor
  case next => rw [hid, hlength]; exact h.next
  case runIndex =>
    intro k r hr
    rw [hrequests] at hr
    split at hr
    · obtain ⟨r', hr', rfl⟩ := Option.map_eq_some_iff.mp hr
      exact h.runIndex k r' hr'
    · exact h.runIndex k r hr
  case ongoing => rw [hongoing, hlength]; exact h.ongoing
  case sent =>
    rw [hsent]
    intro m hm
    obtain ⟨r, hr, hm⟩ := h.sent m hm
    rw [hrequests, hr]
    split
    · exact ⟨_, rfl, hm⟩
    · exact ⟨r, rfl, hm⟩
  case order => exact hsent ▸ h.order
  case sending => rw [hsent, huser, hlength]; exact h.sending

theorem asked_step (h : Asked s) (hfew : s.Fewer a) (hs : step s a = some t) : Asked t := by
  cases moves_of_step hs with
  | asyncRun => exact h.asyncRun _ (hfew rfl)
  | write huser => exact h.write huser _
  | isRequestReady => exact h.same rfl rfl (List.Subset.refl _) rfl (by rintro _ ⟨⟩)
  | collect =>
    unfold collect
    split
    · exact h.same rfl rfl (List.filter_sublist.subset) rfl (by rintro _ ⟨⟩)
    · exact h
  | exit => exact h.same rfl rfl (List.Subset.refl _) rfl fun _ => id
  | read => exact h.same rfl rfl (List.Subset.refl _) rfl fun _ => id
  | store => exact h.store _
  | readEnd => exact h.same rfl rfl (List.Subset.refl _) rfl fun _ => id
  | server => exact h.same rfl rfl (List.Subset.refl _) rfl fun _ => id
  | complete =>
    unfold answer
    split
    · exact h.same rfl rfl (List.Subset.refl _) rfl fun _ => id
    · exact h.same rfl rfl (List.Subset.refl _) rfl fun _ => id
  | disconnect => exact h.same rfl rfl (List.Subset.refl _) rfl fun _ => id

/-! ## The responses -/

/-- How many responses are behind the critical section of `AsyncTransfer`. -/
def stored (s : Session α β) : Nat :=
  match s.transfer with
  | .received _ => s.delivered - 1
  | _ => s.delivered

/-- The `i`-th response that the server writes is `response`, to the message of request `k`. -/
def Delivers (s : Session α β) (i k : Nat) (response : InferResponse β) : Prop :=
  ∃ n m, s.server.written[i]? = some (some n) ∧ s.sent[n]? = some m ∧ m.request = k ∧
    (n, response) ∈ s.answers

theorem Served.answers_nodup (h : Served s) : (s.answers.map Prod.fst).Nodup :=
  h.answers ▸ (List.nodup_append.mp h.inOrder.books.nodup).1

theorem Served.answer_unique (h : Served s) {n : Nat} {r r' : InferResponse β}
    (hr : (n, r) ∈ s.answers) (hr' : (n, r') ∈ s.answers) : r = r' :=
  congrArg Prod.snd (List.inj_on_of_nodup_map h.answers_nodup hr hr' rfl)

/-- What the server writes. -/
theorem Served.delivers (h : Served s) {i : Nat} (hi : i < s.server.written.length) :
    ∃ k response, s.Delivers i k response := by
  have hwritten : (s.server.completed.map some)[i]? = s.server.written[i]? :=
    (getElem?_of_starts h.inOrder.written (List.getElem?_eq_getElem hi)).trans
      (List.getElem?_eq_getElem hi).symm
  rw [List.getElem?_map] at hwritten
  obtain ⟨n, hn, hfront⟩ := Option.map_eq_some_iff.mp
    (hwritten.trans (List.getElem?_eq_getElem hi))
  have hmem : n ∈ s.answers.map Prod.fst := h.answers ▸ List.mem_of_getElem? hn
  obtain ⟨⟨n', response⟩, hanswer, rfl⟩ := List.mem_map.mp hmem
  obtain ⟨m, hm, -⟩ := h.answered _ hanswer
  exact ⟨m.request, response, n', m,
    (List.getElem?_eq_getElem hi).trans (congrArg some hfront.symm), hm, rfl, hanswer⟩

theorem Delivers.position_unique {i k k' : Nat} {r r' : InferResponse β} (h : Served s)
    (hd : s.Delivers i k r) (hd' : s.Delivers i k' r') : k = k' ∧ r = r' := by
  obtain ⟨n, m, hn, hm, rfl, hr⟩ := hd
  obtain ⟨n', m', hn', hm', rfl, hr'⟩ := hd'
  obtain rfl : n = n' := by simpa using hn.symm.trans hn'
  obtain rfl : m = m' := by simpa using hm.symm.trans hm'
  exact ⟨rfl, h.answer_unique hr hr'⟩

/-- The response to a request is written once. -/
theorem Delivers.request_unique {i j k : Nat} {r r' : InferResponse β} (h : Served s)
    (hasked : Asked s) (hd : s.Delivers i k r) (hd' : s.Delivers j k r') : i = j := by
  obtain ⟨n, m, hn, hm, rfl, -⟩ := hd
  obtain ⟨n', m', hn', hm', hk, -⟩ := hd'
  have hsent : (s.sent.map (·.request)).Nodup :=
    (List.pairwise_map.mpr hasked.order).imp Nat.ne_of_lt
  obtain rfl : n = n' := by
    have hlt := (List.getElem?_eq_some_iff.mp hm).1
    refine (List.getElem?_inj (by rwa [List.length_map]) hsent).mp ?_
    rw [List.getElem?_map, List.getElem?_map, hm, hm']
    exact congrArg some hk.symm
  have hwritten : s.server.written.Nodup :=
    (((List.nodup_append.mp h.inOrder.books.nodup).1).map (Option.some_injective _)).sublist
      h.inOrder.written.sublist
  exact (List.getElem?_inj (List.getElem?_eq_some_iff.mp hn).1 hwritten).mp (hn.trans hn'.symm)

/-- The response to a request has its id. -/
theorem Delivers.request {i k : Nat} {r : InferResponse β} (h : Served s) (hasked : Asked s)
    (hd : s.Delivers i k r) : r.id = k + 1 ∧ k < s.requests.length := by
  obtain ⟨n, m, -, hm, rfl, hr⟩ := hd
  obtain ⟨m', hm', hid⟩ := h.answered _ hr
  obtain rfl : m = m' := by simpa using hm.symm.trans hm'
  obtain ⟨q, hq, hm, -⟩ := hasked.sent m (List.mem_of_getElem? hm)
  exact ⟨hid.trans (hm.trans (hasked.runIndex _ _ hq)), (List.getElem?_eq_some_iff.mp hq).1⟩

theorem Delivers.incoming {k : Nat} {r : InferResponse β} (h : Served s)
    (hd : s.Delivers s.delivered k r) : s.incoming = some r := by
  obtain ⟨n, m, hn, -, -, hr⟩ := hd
  unfold Session.incoming
  rw [hn]
  show (s.answers.find? (·.1 == n)).map Prod.snd = some r
  cases hfind : s.answers.find? (·.1 == n) with
  | none => exact absurd (beq_self_eq_true n) (List.find?_eq_none.mp hfind _ hr)
  | some p =>
    obtain ⟨n', r'⟩ := p
    obtain rfl : n' = n := eq_of_beq (List.find?_some hfind :)
    exact congrArg some (h.answer_unique (List.mem_of_find?_eq_some hfind) hr)

/-- The next response that the client reads. -/
theorem Served.incoming (h : Served s) {r : InferResponse β} (hr : s.incoming = some r) :
    ∃ k, s.Delivers s.delivered k r := by
  have hi : s.delivered < s.server.written.length := by
    by_contra hle
    unfold Session.incoming at hr
    rw [List.getElem?_eq_none (Nat.le_of_not_lt hle)] at hr
    cases hr
  obtain ⟨k, r', hd⟩ := h.delivers hi
  exact ⟨k, Option.some.inj ((hd.incoming h).symm.trans hr) ▸ hd⟩

/-- The messages only grow. -/
structure Grows (s t : Session α β) : Prop where
  written : s.server.written <+: t.server.written
  sent : s.sent <+: t.sent
  answers : s.answers <+: t.answers

theorem Delivers.grows {i k : Nat} {r : InferResponse β} (hd : s.Delivers i k r)
    (hgrows : Grows s t) : t.Delivers i k r := by
  obtain ⟨n, m, hn, hm, hk, hr⟩ := hd
  exact ⟨n, m, getElem?_of_starts hgrows.written hn, getElem?_of_starts hgrows.sent hm, hk,
    hgrows.answers.subset hr⟩

theorem Delivers.shrinks {i k : Nat} {r : InferResponse β} (hd : t.Delivers i k r)
    (hgrows : Grows s t) (h : Served s) (h' : Served t) (hi : i < s.server.written.length) :
    s.Delivers i k r := by
  obtain ⟨k', r', hd'⟩ := h.delivers hi
  obtain ⟨rfl, rfl⟩ := hd.position_unique h' (hd'.grows hgrows)
  exact hd'

theorem SameMessages.grows (h : SameMessages s t) : Grows s t :=
  ⟨h.server ▸ List.prefix_rfl, h.sent ▸ List.prefix_rfl, h.answers ▸ List.prefix_rfl⟩

theorem grows_step (hs : step s a = some t) : Grows s t := by
  cases moves_of_step hs with
  | asyncRun => exact (asyncRun_messages s _).grows
  | write =>
    unfold write
    split
    · refine ⟨List.prefix_rfl, ?_, List.prefix_rfl⟩
      simp only
      split
      · exact List.prefix_append _ _
      · exact List.prefix_rfl
    · exact ⟨List.prefix_rfl, List.prefix_rfl, List.prefix_rfl⟩
  | isRequestReady => exact SameMessages.grows ⟨rfl, rfl, rfl⟩
  | collect => exact (collect_messages s _).grows
  | exit => exact SameMessages.grows ⟨rfl, rfl, rfl⟩
  | read => exact SameMessages.grows ⟨rfl, rfl, rfl⟩
  | store => exact (store_messages s _).grows
  | readEnd => exact SameMessages.grows ⟨rfl, rfl, rfl⟩
  | server _ hv => exact ⟨written_of_calls (step_logs hv).1, List.prefix_rfl, List.prefix_rfl⟩
  | complete hv =>
    have hwritten := written_of_calls (step_logs hv).1
    unfold answer
    split
    · exact ⟨hwritten, List.prefix_rfl, List.prefix_append _ _⟩
    · exact ⟨hwritten, List.prefix_rfl, List.prefix_rfl⟩
  | disconnect => exact SameMessages.grows ⟨rfl, rfl, rfl⟩

/-- What the client has of the responses. -/
structure Matched (s : Session α β) : Prop where
  delivered : s.delivered ≤ s.server.written.length
  hand : ∀ response, s.transfer = .received response →
    0 < s.delivered ∧ ∃ k, s.Delivers (s.delivered - 1) k response
  ready : ∀ k r, s.requests[k]? = some r → r.ready = true →
    ∃ i response, i < s.stored ∧ s.Delivers i k response ∧ r.grpcResponse = some response
  waiting : ∀ k r, s.requests[k]? = some r → r.ready = false → (k + 1, k) ∈ s.ongoingAsyncRequests
  stored : s.exiting = false → ∀ i k response, i < s.stored → s.Delivers i k response →
    ∃ r, s.requests[k]? = some r ∧ r.ready = true
  unexpected : s.unexpected = 0
  collecting : ∀ k, s.user = .collecting k →
    (k + 1, k) ∈ s.ongoingAsyncRequests ∧ ∃ r, s.requests[k]? = some r ∧ r.ready = true
  results : ∀ p ∈ s.results, (p.1 + 1, p.1) ∉ s.ongoingAsyncRequests ∧
    ∃ r, s.requests[p.1]? = some r ∧ r.ready = true ∧ p.2 = r.grpcResponse
  once : (s.results.map Prod.fst).Nodup

theorem matched_start : Matched ({} : Session α β) where
  delivered := Nat.le_refl 0
  hand _ hr := by cases hr
  ready _ _ hr := by cases hr
  waiting _ _ hr := by cases hr
  stored _ _ _ _ hi := absurd hi (Nat.not_lt_zero _)
  unexpected := rfl
  collecting _ hk := by cases hk
  results _ hp := by cases hp
  once := .nil

theorem stored_le (s : Session α β) : s.stored ≤ s.delivered := by
  unfold stored
  split
  · exact Nat.sub_le _ _
  · exact Nat.le_refl _

/-- The steps beside the tables of the client. -/
theorem Matched.grows (h : Matched s) (hs : Served s) (ht : Served t) (hgrows : Grows s t)
    (hdelivered : t.delivered = s.delivered) (hrequests : t.requests = s.requests)
    (hongoing : t.ongoingAsyncRequests = s.ongoingAsyncRequests) (hresults : t.results = s.results)
    (hunexpected : t.unexpected = s.unexpected) (hstored : t.stored = s.stored)
    (hhand : ∀ r, t.transfer = .received r → s.transfer = .received r)
    (hexit : t.exiting = false → s.exiting = false)
    (huser : ∀ k, t.user = .collecting k → s.user = .collecting k) : Matched t where
  delivered := hdelivered ▸ h.delivered.trans hgrows.written.length_le
  hand r hr := by
    obtain ⟨hpos, k, hd⟩ := h.hand r (hhand r hr)
    rw [hdelivered]
    exact ⟨hpos, k, hd.grows hgrows⟩
  ready k r hr hready := by
    obtain ⟨i, response, hi, hd, hresponse⟩ := h.ready k r (hrequests ▸ hr) hready
    exact ⟨i, response, hstored ▸ hi, hd.grows hgrows, hresponse⟩
  waiting := by rw [hrequests, hongoing]; exact h.waiting
  stored hexiting i k response hi hd := by
    rw [hstored] at hi
    rw [hrequests]
    have hlt := hi.trans_le ((stored_le s).trans h.delivered)
    exact h.stored (hexit hexiting) i k response hi (hd.shrinks hgrows hs ht hlt)
  unexpected := hunexpected.trans h.unexpected
  collecting k hk := by rw [hrequests, hongoing]; exact h.collecting k (huser k hk)
  results := by rw [hresults, hrequests, hongoing]; exact h.results
  once := hresults ▸ h.once

theorem Matched.asyncRun (h : Matched s) (hasked : Asked s) (data : α)
    (hfew : s.requests.length + 2 < 2 ^ 64) : Matched (s.asyncRun data) := by
  have hgrows := (asyncRun_messages s data).grows
  revert hgrows
  rw [hasked.asyncRun_eq data hfew]
  intro hgrows
  have hold {k : Nat} {r : GrpcRequest α β} (x : GrpcRequest α β) (hr : s.requests[k]? = some r) :
      (s.requests ++ [x])[k]? = some r := getElem?_of_starts (List.prefix_append _ _) hr
  constructor
  case delivered => exact h.delivered
  case hand => exact h.hand
  case ready =>
    intro k r hr hready
    rcases getElem?_snoc hr with hr | ⟨-, rfl⟩
    · exact h.ready k r hr hready
    · cases hready
  case waiting =>
    intro k r hr hready
    rcases getElem?_snoc hr with hr | ⟨rfl, -⟩
    · exact List.mem_append_left _ (h.waiting k r hr hready)
    · exact List.mem_append_right _ (List.mem_singleton.mpr rfl)
  case stored =>
    intro hexit i k response hi hd
    obtain ⟨r, hr, hready⟩ := h.stored hexit i k response hi hd
    exact ⟨r, hold _ hr, hready⟩
  case unexpected => exact h.unexpected
  case collecting => rintro _ ⟨⟩
  case results =>
    intro p hp
    obtain ⟨hclosed, r, hr, hready⟩ := h.results p hp
    refine ⟨fun hmem => ?_, r, hold _ hr, hready⟩
    rcases List.mem_append.mp hmem with hmem | hmem
    · exact hclosed hmem
    · have hlast : p.1 = s.requests.length := congrArg Prod.snd (List.mem_singleton.mp hmem)
      exact absurd hlast (Nat.ne_of_lt (List.getElem?_eq_some_iff.mp hr).1)
  case once => exact h.once

theorem Matched.isRequestReady (h : Matched s) (hasked : Asked s) {k : Nat}
    (hready : s.isRequestReady k = true) : Matched { s with user := .collecting k } := by
  unfold Session.isRequestReady at hready
  split at hready
  · next r hr =>
    obtain ⟨hfind, hready⟩ := (Bool.and_eq_true_iff).mp hready
    obtain ⟨j, hj⟩ := Option.isSome_iff_exists.mp hfind
    obtain ⟨hid, hmem⟩ := hasked.find_some hj
    obtain rfl : k = j := Nat.succ.inj ((hasked.runIndex k r hr).symm.trans hid)
    refine { h with collecting := ?_ }
    rintro _ ⟨⟩
    exact ⟨hmem, r, hr, hready⟩
  · cases hready

theorem Matched.collect (h : Matched s) (hasked : Asked s) {k : Nat}
    (huser : s.user = .collecting k) : Matched (s.collect k) := by
  obtain ⟨hongoing, r, hr, hready⟩ := h.collecting k huser
  have hid := hasked.runIndex k r hr
  unfold Session.collect
  rw [hr]
  constructor
  case delivered => exact h.delivered
  case hand => exact h.hand
  case ready => exact h.ready
  case waiting =>
    intro j q hq hwaiting
    refine List.mem_filter.mpr ⟨h.waiting j q hq hwaiting, bne_iff_ne.mpr fun heq => ?_⟩
    obtain rfl : j = k := Nat.succ.inj (heq.trans hid)
    obtain rfl : q = r := Option.some.inj (hq.symm.trans hr)
    cases hready.symm.trans hwaiting
  case stored => exact h.stored
  case unexpected => exact h.unexpected
  case collecting => rintro _ ⟨⟩
  case results =>
    intro p hp
    rcases List.mem_append.mp hp with hp | hp
    · obtain ⟨hclosed, hresult⟩ := h.results p hp
      exact ⟨fun hmem => hclosed (List.mem_filter.mp hmem).1, hresult⟩
    · obtain rfl := List.mem_singleton.mp hp
      refine ⟨fun hmem => ?_, r, hr, hready, rfl⟩
      exact bne_iff_ne.mp (List.mem_filter.mp hmem).2 hid.symm
  case once =>
    rw [List.map_append]
    refine List.nodup_append.mpr ⟨h.once, List.nodup_singleton _, fun j hj j' hj' heq => ?_⟩
    obtain ⟨p, hp, rfl⟩ := List.mem_map.mp hj
    have hk : p.1 = k := heq.trans (List.mem_singleton.mp hj')
    exact (h.results p hp).1 (hk ▸ hongoing)

theorem Delivers.lt {i k : Nat} {r : InferResponse β} (hd : s.Delivers i k r) :
    i < s.server.written.length := by
  obtain ⟨n, m, hn, -⟩ := hd
  exact (List.getElem?_eq_some_iff.mp hn).1

theorem Matched.read (h : Matched s) (hs : Served s) (hreading : s.transfer = .reading)
    {r : InferResponse β} (hr : s.incoming = some r) : Matched (s.read r) := by
  obtain ⟨k, hd⟩ := hs.incoming hr
  have hstored : s.stored = s.delivered := by
    unfold Session.stored
    rw [hreading]
  have hstored' : s.stored ≤ (s.read r).stored := by
    rw [hstored]
    unfold Session.stored Session.read
    cases s.exiting with
    | true => exact Nat.le_succ _
    | false => exact Nat.le_refl _
  constructor
  case delivered => exact hd.lt
  case hand =>
    intro response hresponse
    have hsame : response = r := by
      have htransfer : (if s.exiting then Transfer.reading else .received r) = .received response :=
        hresponse
      split at htransfer
      · cases htransfer
      · exact (Transfer.received.inj htransfer).symm
    exact ⟨Nat.succ_pos _, k, hsame ▸ hd⟩
  case ready =>
    intro j q hq hready
    obtain ⟨i, response, hi, hresponse⟩ := h.ready j q hq hready
    exact ⟨i, response, hi.trans_le hstored', hresponse⟩
  case waiting => exact h.waiting
  case stored =>
    intro hexit i j response hi hdeliver
    have hexit' : s.exiting = false := hexit
    have heq : (s.read r).stored = s.stored := by
      rw [hstored]
      unfold Session.stored Session.read
      rw [hexit']
      rfl
    exact h.stored hexit i j response (heq ▸ hi) hdeliver
  case unexpected => exact h.unexpected
  case collecting => exact h.collecting
  case results => exact h.results
  case once => exact h.once

/-- The response in the hand of `AsyncTransfer` finds its request. -/
theorem Matched.find_hand (h : Matched s) (hs : Served s) (hasked : Asked s)
    {response : InferResponse β} (htransfer : s.transfer = .received response) :
    ∃ k, s.Delivers (s.delivered - 1) k response ∧ 0 < s.delivered ∧
      s.find response.id = some k := by
  obtain ⟨hpos, k, hd⟩ := h.hand response htransfer
  obtain ⟨hid, hk⟩ := hd.request hs hasked
  obtain ⟨q, hq⟩ : ∃ q, s.requests[k]? = some q := ⟨_, List.getElem?_eq_getElem hk⟩
  refine ⟨k, hd, hpos, hid ▸ hasked.find_of_mem (h.waiting k q hq ?_)⟩
  -- a ready request would have had its response before
  refine Bool.eq_false_iff.mpr fun hready => ?_
  obtain ⟨i, response', hi, hd', -⟩ := h.ready k q hq hready
  have heq := hd'.request_unique hs hasked hd
  have hstored : s.stored = s.delivered - 1 := by
    unfold Session.stored
    rw [htransfer]
  exact absurd (heq.trans hstored.symm) (Nat.ne_of_lt hi)

theorem Matched.store (h : Matched s) (hs : Served s) (hasked : Asked s)
    {response : InferResponse β} (htransfer : s.transfer = .received response) :
    Matched (s.store response) := by
  obtain ⟨k, hd, hpos, hfind⟩ := h.find_hand hs hasked htransfer
  have hrequests (j : Nat) : (s.store response).requests[j]? =
      if k = j then
        s.requests[j]?.map fun r => { r with ready := true, grpcResponse := some response }
      else s.requests[j]? := by
    rw [store_requests, hfind]
    simp only [Option.some.injEq]
  have hkeep {j : Nat} {r : GrpcRequest α β} (hr : s.requests[j]? = some r)
      (hready : r.ready = true) : ∃ r', (s.store response).requests[j]? = some r' ∧
        r'.ready = true ∧ (k ≠ j → r' = r) := by
    rw [hrequests, hr]
    by_cases hj : k = j
    · rw [if_pos hj]
      exact ⟨_, rfl, rfl, fun hne => absurd hj hne⟩
    · rw [if_neg hj]
      exact ⟨r, rfl, hready, fun _ => rfl⟩
  have hstored : s.stored + 1 = s.delivered := by
    unfold Session.stored
    rw [htransfer]
    exact Nat.sub_add_cancel hpos
  have hnew {j : Nat} {r : GrpcRequest α β} (hr : s.requests[j]? = some r)
      (hready : r.ready = true) : k ≠ j := by
    rintro rfl
    obtain ⟨i, response', hi, hd', -⟩ := h.ready k r hr hready
    have heq := hd'.request_unique hs hasked hd
    exact absurd (heq.trans (Nat.sub_eq_of_eq_add hstored.symm)) (Nat.ne_of_lt hi)
  have hmessages := store_messages s response
  have hfields : (s.store response).delivered = s.delivered ∧
      (s.store response).transfer = .reading ∧
      (s.store response).ongoingAsyncRequests = s.ongoingAsyncRequests ∧
      (s.store response).user = s.user ∧ (s.store response).results = s.results ∧
      (s.store response).exiting = s.exiting ∧ (s.store response).unexpected = s.unexpected := by
    unfold Session.store
    rw [hfind]
    exact ⟨rfl, rfl, rfl, rfl, rfl, rfl, rfl⟩
  obtain ⟨hdelivered, hreading, hongoing, huser, hresults, hexiting, hunexpected⟩ := hfields
  have hstored' : (s.store response).stored = s.stored + 1 := by
    rw [hstored, ← hdelivered]
    unfold Session.stored
    rw [hreading]
  have hsame {i j : Nat} {r : InferResponse β} :
      (s.store response).Delivers i j r ↔ s.Delivers i j r :=
    ⟨fun hd => hd.shrinks hmessages.grows hs (hs.same hmessages) (hmessages.server ▸ hd.lt),
      fun hd => hd.grows hmessages.grows⟩
  constructor
  case delivered => rw [hdelivered, hmessages.server]; exact h.delivered
  case hand =>
    intro r hr
    rw [hreading] at hr
    cases hr
  case ready =>
    intro j r hr hready
    rw [hrequests] at hr
    split at hr
    · next hj =>
      obtain ⟨r', -, rfl⟩ := Option.map_eq_some_iff.mp hr
      refine ⟨s.delivered - 1, response, ?_, hsame.mpr (hj ▸ hd), rfl⟩
      rw [hstored', hstored]
      exact Nat.sub_one_lt_of_lt hpos
    · obtain ⟨i, response', hi, hd', hresponse⟩ := h.ready j r hr hready
      exact ⟨i, response', hstored' ▸ hi.trans (Nat.lt_succ_self _), hsame.mpr hd', hresponse⟩
  case waiting =>
    intro j r hr hwaiting
    rw [hrequests] at hr
    rw [hongoing]
    split at hr
    · obtain ⟨r', -, rfl⟩ := Option.map_eq_some_iff.mp hr
      cases hwaiting
    · exact h.waiting j r hr hwaiting
  case stored =>
    intro hexit i j response' hi hdeliver
    rw [hstored'] at hi
    rcases Nat.lt_succ_iff_lt_or_eq.mp hi with hi | rfl
    · obtain ⟨r, hr, hready⟩ := h.stored (hexiting ▸ hexit) i j response' hi (hsame.mp hdeliver)
      obtain ⟨r', hr', hready', -⟩ := hkeep hr hready
      exact ⟨r', hr', hready'⟩
    · have heq : s.delivered - 1 = s.stored := Nat.sub_eq_of_eq_add hstored.symm
      obtain ⟨rfl, -⟩ := (heq ▸ hd).position_unique hs (hsame.mp hdeliver)
      obtain ⟨r, hr⟩ : ∃ r, s.requests[k]? = some r :=
        ⟨_, List.getElem?_eq_getElem (hd.request hs hasked).2⟩
      exact ⟨_, (hrequests k).trans (by rw [if_pos rfl, hr]; rfl), rfl⟩
  case unexpected => exact hunexpected.trans h.unexpected
  case collecting =>
    intro j hj
    obtain ⟨hmem, r, hr, hready⟩ := h.collecting j (huser ▸ hj)
    obtain ⟨r', hr', hready', -⟩ := hkeep hr hready
    exact ⟨hongoing ▸ hmem, r', hr', hready'⟩
  case results =>
    intro p hp
    obtain ⟨hclosed, r, hr, hready, hresult⟩ := h.results p (hresults ▸ hp)
    obtain ⟨r', hr', hready', hrest⟩ := hkeep hr hready
    exact ⟨hongoing ▸ hclosed, r', hr', hready', hrest (hnew hr hready) ▸ hresult⟩
  case once => exact hresults ▸ h.once

/-! ## The runs -/

/-- The invariant of a session. -/
structure Sound (s : Session α β) : Prop where
  served : Served s
  asked : Asked s
  matched : Matched s

theorem matched_step (h : Sound s) (hserved : Served t) (hfew : s.Fewer a)
    (hs : step s a = some t) : Matched t := by
  have hgrows := grows_step hs
  cases moves_of_step hs with
  | asyncRun => exact h.matched.asyncRun h.asked _ (hfew rfl)
  | @write ok k huser hok =>
    obtain ⟨r, hr⟩ : ∃ r, s.requests[k]? = some r :=
      ⟨_, List.getElem?_eq_getElem (h.asked.sending k huser).1⟩
    revert hserved hgrows
    unfold write
    rw [hr]
    intro hserved hgrows
    exact h.matched.grows h.served hserved hgrows rfl rfl rfl rfl rfl rfl (fun _ => id) id
      (by rintro _ ⟨⟩)
  | isRequestReady _ _ hready => exact h.matched.isRequestReady h.asked hready
  | collect huser => exact h.matched.collect h.asked huser
  | exit =>
    exact h.matched.grows h.served hserved hgrows rfl rfl rfl rfl rfl rfl (fun _ => id)
      (by rintro ⟨⟩) fun _ => id
  | read hreading hr => exact h.matched.read h.served hreading hr
  | store htransfer => exact h.matched.store h.served h.asked htransfer
  | readEnd hreading =>
    have hstored : s.stored = s.delivered := by
      unfold stored
      rw [hreading]
    exact h.matched.grows h.served hserved hgrows rfl rfl rfl rfl rfl hstored.symm
      (by rintro _ ⟨⟩) id fun _ => id
  | server =>
    exact h.matched.grows h.served hserved hgrows rfl rfl rfl rfl rfl rfl (fun _ => id) id
      fun _ => id
  | @complete n body v hv =>
    have hsame : (s.answer n body).delivered = s.delivered ∧
        (s.answer n body).requests = s.requests ∧
        (s.answer n body).ongoingAsyncRequests = s.ongoingAsyncRequests ∧
        (s.answer n body).results = s.results ∧ (s.answer n body).unexpected = s.unexpected ∧
        (s.answer n body).transfer = s.transfer ∧ (s.answer n body).exiting = s.exiting ∧
        (s.answer n body).user = s.user := by
      unfold answer
      split <;> exact ⟨rfl, rfl, rfl, rfl, rfl, rfl, rfl, rfl⟩
    obtain ⟨hdelivered, hrequests, hongoing, hresults, hunexpected, htransfer, hexiting, huser⟩ :=
      hsame
    have hstored : ({ s.answer n body with server := v } : Session α β).stored = s.stored := by
      show (match (s.answer n body).transfer with
        | .received _ => (s.answer n body).delivered - 1
        | _ => (s.answer n body).delivered) = s.stored
      rw [htransfer, hdelivered]
      rfl
    exact h.matched.grows h.served hserved hgrows hdelivered hrequests hongoing hresults hunexpected
      hstored (fun _ hr => htransfer ▸ hr) (fun hexit => hexiting ▸ hexit)
      fun _ hk => huser ▸ hk
  | disconnect =>
    exact h.matched.grows h.served hserved hgrows rfl rfl rfl rfl rfl rfl (fun _ => id) id
      fun _ => id

theorem sound_of_reachable (h : ReachableWhen step Fewer ({} : Session α β) s) : Sound s := by
  refine ReachableWhen.invariant ⟨served_start, asked_start, matched_start⟩ ?_ h
  intro s a t h hfew hs
  have hserved := served_step h.served hs
  exact ⟨hserved, asked_step h.asked hfew hs, matched_step h hserved hfew hs⟩

/-- What the user of a stream can rely on. -/
structure OwnResponses (s : Session α β) : Prop where
  /-- The response of a ready request is what one execution of the server has answered to the
  one message of that request. -/
  own : ∀ k r, s.requests[k]? = some r → r.ready = true → ∃ n body,
    s.sent[n]? = some ⟨k, r.runIndex, r.data⟩ ∧ (n, ⟨r.runIndex, body⟩) ∈ s.answers ∧
      r.grpcResponse = some ⟨r.runIndex, body⟩
  messages : (s.sent.map (·.request)).Nodup
  answers : (s.answers.map Prod.fst).Nodup
  expected : s.unexpected = 0
  /-- `GetAsyncRunResults` has returned the response of a request once. -/
  results : (s.results.map Prod.fst).Nodup ∧
    ∀ p ∈ s.results, ∃ r, s.requests[p.1]? = some r ∧ r.ready = true ∧ p.2 = r.grpcResponse

theorem Sound.ownResponses (h : Sound s) : OwnResponses s where
  own k r hr hready := by
    obtain ⟨i, response, -, ⟨n, m, -, hm, rfl, hanswer⟩, hresponse⟩ := h.matched.ready k r hr hready
    obtain ⟨r', hr', hid, hdata⟩ := h.asked.sent m (List.mem_of_getElem? hm)
    obtain rfl : r' = r := Option.some.inj (hr'.symm.trans hr)
    obtain ⟨m', hm', hid'⟩ := h.served.answered _ hanswer
    obtain rfl : m' = m := Option.some.inj (hm'.symm.trans hm)
    have hfields : response = ⟨r'.runIndex, response.body⟩ := by
      cases response
      exact congrArg (InferResponse.mk · _) (hid'.trans hid)
    refine ⟨n, response.body, ?_, hfields ▸ hanswer, hfields ▸ hresponse⟩
    rw [hm, ← hid, ← hdata]
  messages := (List.pairwise_map.mpr h.asked.order).imp Nat.ne_of_lt
  answers := h.served.answers_nodup
  expected := h.matched.unexpected
  results := ⟨h.matched.once, fun p hp => (h.matched.results p hp).2⟩

end Session

/-- On a stream with fewer than `2 ^ 64` requests every request gets its own response, whatever
the order in which the server completes them and whatever fails. -/
theorem own_of_reachable {α β : Type} {s : Session α β}
    (h : ReachableWhen Session.step Session.Fewer {} s) : s.OwnResponses :=
  (Session.sound_of_reachable h).ownResponses

/-- Two requests that the server answers in the other order. -/
theorem own_secondFirst :
    ∃ s : Session Nat Nat, ReachableWhen Session.step Session.Fewer {} s ∧
      s.results = [(1, some ⟨2, 20⟩), (0, some ⟨1, 10⟩)] ∧ s.OwnResponses := by
  have hrun : (runWhen Session.step Session.Fewer ({} : Session Nat Nat)
      [.asyncRun 1, .write true, .asyncRun 2, .write true, .server (.requestDone true),
        .server .nextRead, .server (.requestDone true), .complete 1 20, .server (.run 0), .read,
        .store, .isRequestReady 1, .complete 0 10, .collect, .server (.responseDone true),
        .server (.run 0), .read, .store, .isRequestReady 0, .collect]).map
      (fun s => decide (s.results = [(1, some ⟨2, 20⟩), (0, some ⟨1, 10⟩)])) = some true := by
    decide
  obtain ⟨s, hreach, hs⟩ := exists_of_runWhen hrun
  exact ⟨s, hreach, of_decide_eq_true hs, own_of_reachable hreach⟩

end FinBert.Streaming
