import FinBert.Streaming.SessionAnswers

/-!
# A stream that keeps its connection answers everything

Whatever the threads at both ends do on their own, without a further call of the user, comes to an
end, and then every request that has been sent is ready. After the destructor has half-closed the
stream, `AsyncTransfer` returns behind the last response.

Results:
1. `remaining_session`: every step that is not a call of the user comes closer to the end.
2. `answered_of_reachable`: the state in which no such step is left.
-/

namespace FinBert.Streaming

open Transition

/-- A call of the user begins; `write` and `collect` go on with one. -/
def SessionAction.isCall {α β : Type} : SessionAction α β → Bool
  | .asyncRun _ | .isRequestReady _ | .exit => true
  | _ => false

def SessionAction.isDisconnect {α β : Type} : SessionAction α β → Bool
  | .disconnect => true
  | _ => false

namespace Session

variable {α β : Type} {s t : Session α β} {a : SessionAction α β}

/-- The connection is kept, and `async_request_id_` does not wrap. -/
def Connected (s : Session α β) (a : SessionAction α β) : Prop :=
  s.Fewer a ∧ a.isDisconnect = false

instance (s : Session α β) (a : SessionAction α β) : Decidable (s.Connected a) :=
  inferInstanceAs (Decidable (_ ∧ _))

/-- Both ends of a stream with a connection. -/
structure Alive (s : Session α β) : Prop where
  connected : s.connected = true
  phase : Opened s.server ∨ Ending s.server
  reader : s.server.reader = .ended → s.exiting = true ∧ s.server.reads = s.sent.length
  exiting : s.exiting = true → s.user = .idle
  transfer : s.transfer = .ended → s.server.finishes ≠ []

theorem alive_start : Alive ({} : Session α β) where
  connected := rfl
  phase := .inl opened_start
  reader h := by cases h
  exiting h := by cases h
  transfer h := by cases h

/-- The steps of the client. -/
theorem Alive.same (h : Alive s) (hconnected : t.connected = s.connected)
    (hserver : t.server = s.server) (hsent : s.exiting = true → t.sent = s.sent)
    (hexiting : s.exiting = true → t.exiting = true) (huser : t.exiting = true → t.user = .idle)
    (htransfer : t.transfer = .ended → s.server.finishes ≠ []) : Alive t where
  connected := hconnected.trans h.connected
  phase := hserver ▸ h.phase
  reader hr := by
    obtain ⟨hexit, hreads⟩ := h.reader (hserver ▸ hr)
    exact ⟨hexiting hexit, by rw [hserver, hsent hexit]; exact hreads⟩
  exiting := huser
  transfer hr := hserver ▸ htransfer hr

theorem writesSucceed_of_permits (h : Alive s) {b : Action} (hb : s.permits b = true) :
    WritesSucceed s.server b := by
  rintro rfl
  have hfalse : (!s.connected) = true := hb
  rw [h.connected] at hfalse
  cases hfalse

theorem phase_of_step (h : Alive s) (hserved : Served s) {b : Action} {v : State}
    (hok : WritesSucceed s.server b) (hv : Streaming.step s.server b = some v) :
    Opened v ∨ Ending v := by
  rcases h.phase with hopened | hending
  · rcases opened_step hopened hserved.inOrder.books hv with hopened' | hending' | ⟨rfl, -⟩
    · exact .inl hopened'
    · exact .inr hending'
    · exact absurd rfl hok
  · exact .inr (ending_step hending hserved.inOrder.books hv)

theorem finishes_of_step {b : Action} {u v : State} (hv : Streaming.step u b = some v)
    (h : u.finishes ≠ []) : v.finishes ≠ [] := by
  have hgrown : u.finishes <+: v.finishes := (step_logs hv).1.filterMap _
  exact fun hnil => h (List.prefix_nil.mp (hnil ▸ hgrown))

/-- The last `Read` of the server. -/
theorem reader_of_step {b : Action} {u v : State} (hv : Streaming.step u b = some v)
    (hended : v.reader = .ended) : u.reader = .ended ∨ b = .requestDone false := by
  obtain ⟨ok, rfl, -, rfl⟩ | ⟨-, -, rfl⟩ | ⟨n, -, -, -, rfl⟩ | ⟨ok, -, -, rfl⟩ |
    ⟨position, task, -, -, rfl⟩ := Streaming.step_cases hv
  · cases ok with
    | true => cases hended
    | false => exact .inr rfl
  · cases hended
  · have hsame : (u.completeExecution n).reader = u.reader := by
      unfold State.completeExecution State.writeIf
      simp only
      repeat' split
      all_goals rfl
    exact .inl (hsame ▸ hended)
  · exact .inl ((stateResponseDone_frame { u with outstanding := u.outstanding - 1 }
      ok).2.2.2.symm.trans hended)
  · exact .inl ((run_frame { u with tasks := u.tasks.eraseIdx position }
      task).2.2.2.2.symm.trans hended)

theorem Alive.server (h : Alive s) (hserved : Served s) {b : Action} {v : State}
    (hok : WritesSucceed s.server b) (hv : Streaming.step s.server b = some v)
    (hread : b = .requestDone false → s.exiting = true ∧ s.server.reads = s.sent.length)
    (hmore : b = .requestDone true → s.server.reader ≠ .ended) :
    Alive { s with server := v } where
  connected := h.connected
  phase := phase_of_step h hserved hok hv
  reader hended := by
    have hsame (hb : b ≠ .requestDone true) : v.reads = s.server.reads := reads_of_step hv hb
    rcases reader_of_step hv hended with hbefore | rfl
    · exact ⟨(h.reader hbefore).1,
        (hsame fun hb => hmore hb hbefore).trans (h.reader hbefore).2⟩
    · exact ⟨(hread rfl).1, (hsame (by rintro ⟨⟩)).trans (hread rfl).2⟩
  exiting := h.exiting
  transfer hended := finishes_of_step hv (h.transfer hended)

theorem alive_step (h : Alive s) (hsound : Sound s) (hok : s.Connected a)
    (hs : step s a = some t) : Alive t := by
  cases moves_of_step hs with
  | asyncRun huser hexit =>
    rw [hsound.asked.asyncRun_eq _ (hok.1 rfl)]
    exact h.same rfl rfl (fun _ => rfl) id (fun htrue => by cases hexit.symm.trans htrue) h.transfer
  | @write ok k huser =>
    have hexit : s.exiting = false := Bool.eq_false_iff.mpr fun htrue => by
      cases huser.symm.trans (h.exiting htrue)
    unfold write
    split
    · exact h.same rfl rfl (fun htrue => by cases hexit.symm.trans htrue) id (fun _ => rfl)
        h.transfer
    · exact h
  | isRequestReady _ hexit =>
    exact h.same rfl rfl (fun _ => rfl) id (fun htrue => by cases hexit.symm.trans htrue) h.transfer
  | collect =>
    unfold collect
    split
    · exact h.same rfl rfl (fun _ => rfl) id (fun _ => rfl) h.transfer
    · exact h
  | exit huser =>
    exact h.same rfl rfl (fun _ => rfl) (fun _ => rfl) (fun _ => huser) h.transfer
  | read =>
    refine h.same rfl rfl (fun _ => rfl) id h.exiting fun hended => ?_
    unfold read at hended
    simp only at hended
    split at hended <;> cases hended
  | store =>
    unfold store
    split
    · exact h.same rfl rfl (fun _ => rfl) id h.exiting (by rintro ⟨⟩)
    · exact h.same rfl rfl (fun _ => rfl) id h.exiting (by rintro ⟨⟩)
  | readEnd _ hguard =>
    refine h.same rfl rfl (fun _ => rfl) id h.exiting fun _ => ?_
    rcases hguard with hlost | ⟨hfinished, -⟩
    · cases h.connected.symm.trans hlost
    · exact hfinished
  | @server b v hpermits hv =>
    refine h.server hsound.served (writesSucceed_of_permits h hpermits) hv ?_ ?_
    · rintro rfl
      have hguard :
          (!s.connected || (s.exiting && decide (s.server.reads = s.sent.length))) = true :=
        hpermits
      rw [h.connected, Bool.not_true, Bool.false_or, Bool.and_eq_true_iff] at hguard
      exact ⟨hguard.1, of_decide_eq_true hguard.2⟩
    · rintro rfl
      rw [(Option.ite_none_right_eq_some.mp hv).1]
      rintro ⟨⟩
  | @complete n body v hv =>
    have hserver := h.server hsound.served (by rintro ⟨⟩) hv (by rintro ⟨⟩) (by rintro ⟨⟩)
    unfold answer
    split
    · exact hserver.same rfl rfl (fun _ => rfl) id hserver.exiting hserver.transfer
    · exact hserver
  | disconnect => cases hok.2

theorem alive_of_reachable (h : ReachableWhen step Connected ({} : Session α β) s) :
    Sound s ∧ Alive s := by
  refine ReachableWhen.invariant (P := fun s => Sound s ∧ Alive s)
    ⟨⟨served_start, asked_start, matched_start⟩, alive_start⟩ ?_ h
  rintro s a t ⟨hsound, halive⟩ hok hs
  have hserved := served_step hsound.served hs
  exact ⟨⟨hserved, asked_step hsound.asked hok.1 hs, matched_step hsound hserved hok.1 hs⟩,
    alive_step halive hsound hok hs⟩

/-! ## Every run comes to an end -/

/-- Steps that are left at the side of the server that reads. -/
def readerCost : Reader → Nat
  | .reading => 3
  | .executing => 4
  | .ended => 0

/-- Steps that are left of a call of the user, with the ones that its message is good for. -/
def userCost : User → Nat
  | .idle => 0
  | .sending _ => 25
  | .collecting _ => 1

def transferCost : Transfer β → Nat
  | .reading => 1
  | .received _ => 2
  | .ended => 0

/-- A bound for the steps of the server. -/
def serverCost (s : Session α β) : Nat :=
  s.server.remaining + 8 * (s.sent.length - s.server.reads) + readerCost s.server.reader

/-- A bound for the steps that are left without a further call of the user. -/
def remaining (s : Session α β) : Nat :=
  3 * s.serverCost + 2 * (s.server.written.length - s.delivered) + transferCost s.transfer +
    userCost s.user

theorem written_of_step {b : Action} {u v : State} (hv : Streaming.step u b = some v) :
    v.written.length ≤ u.written.length + 1 := by
  have heq (hcalls : v.calls = u.calls) : v.written.length ≤ u.written.length + 1 :=
    (congrArg (fun calls => (calls.filterMap Call.written).length) hcalls).le.trans
      (Nat.le_succ _)
  obtain ⟨ok, -, -, rfl⟩ | ⟨-, -, rfl⟩ | ⟨n, -, -, -, rfl⟩ | ⟨ok, -, -, rfl⟩ |
    ⟨position, task, -, -, rfl⟩ := Streaming.step_cases hv
  · exact heq (stateRequestDone_logs u ok).1
  · exact heq rfl
  · exact heq (completeExecution_calls u n)
  · exact heq (stateResponseDone_calls _ ok)
  · obtain ⟨calls, hcalls, hone, -⟩ := run_calls { u with tasks := u.tasks.eraseIdx position } task
    unfold State.written
    rw [hcalls, List.filterMap_append, List.length_append]
    exact Nat.add_le_add_left ((List.length_filterMap_le _ _).trans hone) _

/-- A step of the server comes closer to its end. -/
theorem serverCost_step (h : Alive s) (hserved : Served s) {b : Action} {v : State}
    (hok : WritesSucceed s.server b) (hv : Streaming.step s.server b = some v)
    (hmore : b = .requestDone true → s.server.reads < s.sent.length) :
    serverCost { s with server := v } < s.serverCost := by
  have hbooks := hserved.inOrder.books
  unfold serverCost
  by_cases hnext : b = .nextRead
  · subst hnext
    obtain ⟨hreader, heq⟩ := Option.ite_none_right_eq_some.mp hv
    obtain rfl := Option.some.inj heq
    rw [hreader]
    exact Nat.lt_succ_self _
  by_cases htrue : b = .requestDone true
  · have hreads := hmore htrue
    subst htrue
    obtain ⟨hreader, heq⟩ := Option.ite_none_right_eq_some.mp hv
    obtain rfl := Option.some.inj heq
    have hremaining : (s.server.stateRequestDone true).remaining = s.server.remaining + 6 := by
      unfold State.remaining State.stateRequestDone
      simp only [if_true, List.length_append, List.length_singleton]
      omega
    have hcost : readerCost (s.server.stateRequestDone true).reader = 4 := rfl
    have hread : (s.server.stateRequestDone true).reads = s.server.reads + 1 := rfl
    rw [hremaining, hcost, hread, hreader]
    simp only [readerCost]
    omega
  by_cases hfalse : b = .requestDone false
  · subst hfalse
    obtain ⟨hreader, heq⟩ := Option.ite_none_right_eq_some.mp hv
    obtain rfl := Option.some.inj heq
    have hframe : (s.server.stateRequestDone false).reader = .ended ∧
        (s.server.stateRequestDone false).reads = s.server.reads ∧
        (s.server.stateRequestDone false).remaining ≤ s.server.remaining + 2 := by
      unfold State.stateRequestDone
      rw [if_neg Bool.false_ne_true]
      split
      · exact ⟨rfl, rfl, Nat.le_add_right _ _⟩
      · exact ⟨rfl, rfl, (remaining_spawn { s.server with reader := .ended } .finish).le⟩
    rw [hframe.1, hframe.2.1, hreader]
    have hle := hframe.2.2
    simp only [readerCost]
    omega
  have hrequest (ok : Bool) : b ≠ .requestDone ok := by cases ok <;> assumption
  obtain ⟨hreader, hlt⟩ := remaining_frame hbooks h.phase hrequest hnext hok hv
  rw [reads_of_step hv htrue, hreader]
  exact Nat.add_lt_add_right (Nat.add_lt_add_right hlt _) _

/-- Every step that is not a call of the user comes closer to the end. -/
theorem remaining_session (h : Alive s) (hsound : Sound s) (hcall : a.isCall = false)
    (hok : s.Connected a) (hs : step s a = some t) : t.remaining < s.remaining := by
  have hserver {u : Session α β} {b : Action} {v : State} (hu : u.server = v)
      (hsent : u.sent = s.sent) (hdelivered : u.delivered = s.delivered)
      (htransfer : u.transfer = s.transfer) (huser : u.user = s.user)
      (hb : WritesSucceed s.server b) (hv : Streaming.step s.server b = some v)
      (hmore : b = .requestDone true → s.server.reads < s.sent.length) :
      u.remaining < s.remaining := by
    have hcost : u.serverCost < s.serverCost := by
      have hlt := serverCost_step h hsound.served hb hv hmore
      unfold serverCost at hlt ⊢
      rw [hu, hsent]
      exact hlt
    have hwritten := written_of_step hv
    unfold remaining
    rw [hu, hdelivered, htransfer, huser]
    omega
  cases moves_of_step hs with
  | asyncRun => cases hcall
  | @write ok k huser =>
    obtain ⟨r, hr⟩ : ∃ r, s.requests[k]? = some r :=
      ⟨_, List.getElem?_eq_getElem (hsound.asked.sending k huser).1⟩
    have hlength : (s.write k ok).sent.length ≤ s.sent.length + 1 := by
      unfold write
      rw [hr]
      cases ok with
      | true => exact List.length_append.le
      | false => exact Nat.le_succ _
    have hcost : (s.write k ok).serverCost ≤ s.serverCost + 8 := by
      have hsame : (s.write k ok).server = s.server := by
        unfold write
        rw [hr]
      unfold serverCost
      rw [hsame]
      omega
    have hrest : (s.write k ok).server.written.length - (s.write k ok).delivered =
        s.server.written.length - s.delivered ∧ (s.write k ok).transfer = s.transfer ∧
        (s.write k ok).user = .idle := by
      unfold write
      rw [hr]
      exact ⟨rfl, rfl, rfl⟩
    have hsending : userCost (.sending k) = 25 := rfl
    have hidle : userCost .idle = 0 := rfl
    unfold remaining
    rw [hrest.1, hrest.2.1, hrest.2.2, huser]
    omega
  | isRequestReady => cases hcall
  | @collect k huser =>
    obtain ⟨-, r, hr, -⟩ := hsound.matched.collecting k huser
    have hcollecting : s.remaining = (s.collect k).remaining + 1 := by
      unfold collect
      rw [hr]
      unfold remaining
      rw [huser]
      rfl
    exact hcollecting ▸ Nat.lt_succ_self _
  | exit => cases hcall
  | @read r hreading hr =>
    obtain ⟨k, hd⟩ := hsound.served.incoming hr
    have hlt := hd.lt
    have htransfer : transferCost (s.read r).transfer ≤ 2 := by
      unfold Session.read
      simp only
      split
      · exact Nat.le_succ 1
      · exact Nat.le_refl 2
    have hcost : transferCost (Transfer.reading : Transfer β) = 1 := rfl
    show 3 * s.serverCost + 2 * (s.server.written.length - (s.delivered + 1)) +
      transferCost (s.read r).transfer + userCost s.user < s.remaining
    unfold remaining
    rw [hreading, hcost]
    omega
  | @store r htransfer =>
    have hstore : s.remaining = (s.store r).remaining + 1 := by
      unfold store
      split <;> (unfold remaining; rw [htransfer]; exact Nat.add_right_comm _ 1 _)
    exact hstore ▸ Nat.lt_succ_self _
  | readEnd hreading =>
    show 3 * s.serverCost + 2 * (s.server.written.length - s.delivered) + 0 + userCost s.user <
      s.remaining
    unfold remaining
    rw [hreading]
    exact Nat.add_lt_add_right (Nat.lt_succ_self _) _
  | server hpermits hv =>
    refine hserver rfl rfl rfl rfl rfl (writesSucceed_of_permits h hpermits) hv ?_
    rintro rfl
    exact of_decide_eq_true hpermits
  | complete hv =>
    unfold answer
    split
    · exact hserver rfl rfl rfl rfl rfl (by rintro ⟨⟩) hv (by rintro ⟨⟩)
    · exact hserver rfl rfl rfl rfl rfl (by rintro ⟨⟩) hv (by rintro ⟨⟩)
  | disconnect => cases hok.2

/-! ## The end -/

/-- No thread goes on without a call of the user. -/
def Quiet (s : Session α β) : Prop :=
  ∀ a t, a.isCall = false → s.Connected a → step s a ≠ some t

/-- Every message of the client is answered: the request is ready, or the destructor has waited
for the response. -/
structure Answered (s : Session α β) : Prop where
  written : ∀ n < s.sent.length, some n ∈ s.server.written
  ready : s.exiting = false → ∀ m ∈ s.sent, ∃ r, s.requests[m.request]? = some r ∧ r.ready = true
  ended : s.exiting = true → s.transfer = .ended ∧ s.server.finishes = [true]

theorem Quiet.server (h : Quiet s) {b : Action} {v : State} (hb : s.permits b = true) :
    Streaming.step s.server b ≠ some v := by
  intro hv
  refine h (.server b) { s with server := v } rfl ⟨by rintro ⟨⟩, rfl⟩ ?_
  show (if s.permits b then _ else _) = _
  rw [if_pos hb, hv]
  rfl

/-- The executions have completed, and their responses are written. -/
theorem Quiet.drained [Nonempty β] (h : Quiet s) (hserved : Served s)
    (hphase : Opened s.server ∨ Ending s.server) :
    s.server.liveContexts = [] ∧ s.server.writeBackQueue = [] ∧ s.server.tasks = [] ∧
      s.server.outstanding = 0 := by
  have hlive : s.server.liveContexts = [] := by
    refine List.eq_nil_iff_forall_not_mem.mpr fun n hn => ?_
    have hids := hserved.inOrder.books.ids
    have hread : n < s.server.reads :=
      List.mem_range.mp (hids.mem_iff.mp (List.mem_append_right _ hn))
    have hnot : n ∉ s.server.completed := fun hmem =>
      (List.nodup_append.mp hserved.inOrder.books.nodup).2.2 n hmem n hn rfl
    have body := Classical.arbitrary β
    refine h (.complete n body) { s.answer n body with server := s.server.completeExecution n } rfl
      ⟨by rintro ⟨⟩, rfl⟩ ?_
    show (Streaming.step s.server (.complete n)).map _ = _
    rw [step_complete hread hnot]
    rfl
  have htasks : s.server.tasks = [] := by
    cases htasks : s.server.tasks with
    | nil => rfl
    | cons task tasks =>
      have htask : s.server.tasks[0]? = some task := by rw [htasks]; rfl
      exact absurd (step_run htask) (h.server rfl)
  have houtstanding : s.server.outstanding = 0 := by
    by_contra hne
    have hstep : Streaming.step s.server (.responseDone true) = some _ := if_neg hne
    exact h.server rfl hstep
  refine ⟨hlive, ?_, htasks, houtstanding⟩
  rcases hphase with hopened | hending
  · rcases hopened.turn.spec with ⟨hqueue, -⟩ | ⟨n, rest, -, ⟨hwrite, -⟩ | ⟨-, hone⟩⟩
    · exact hqueue
    · cases htasks.symm.trans hwrite
    · cases houtstanding.symm.trans hone
  · exact hending.writeBackQueue

theorem Quiet.answered [Nonempty β] (h : Quiet s) (halive : Alive s) (hsound : Sound s) :
    Answered s := by
  obtain ⟨hlive, hqueue, htasks, houtstanding⟩ := h.drained hsound.served halive.phase
  have hbooks := hsound.served.inOrder.books
  -- the server has read every message
  have hreads : s.server.reads = s.sent.length := by
    cases hreader : s.server.reader with
    | reading =>
      refine Nat.le_antisymm hsound.served.reads (Nat.le_of_not_lt fun hlt => ?_)
      have hstep : Streaming.step s.server (.requestDone true) = some _ := if_pos hreader
      have hpermits : s.permits (.requestDone true) = true := decide_eq_true hlt
      exact h.server hpermits hstep
    | executing =>
      have hstep : Streaming.step s.server .nextRead = some _ := if_pos hreader
      exact absurd hstep (h.server rfl)
    | ended => exact (halive.reader hreader).2
  have hcompleted : s.server.completed.Perm (List.range s.sent.length) := by
    have hids := hbooks.ids
    rwa [hlive, List.append_nil, hreads] at hids
  have hwritten : s.server.written = s.server.completed.map some := by
    rcases halive.phase with hopened | hending
    · obtain ⟨popped, hpopped, hcalls⟩ := hopened.calls
      rw [hqueue] at hpopped hcalls
      unfold State.written
      rw [hcalls, written_writes, hpopped, List.take_nil]
    · exact (hending.drained hbooks).written
  have hmem (n : Nat) (hn : n < s.sent.length) : some n ∈ s.server.written := by
    rw [hwritten]
    exact List.mem_map_of_mem (hcompleted.mem_iff.mpr (List.mem_range.mpr hn))
  -- the client has read every response
  have hreceived (r : InferResponse β) : s.transfer ≠ .received r := fun htransfer => by
    refine h .store (s.store r) rfl ⟨by rintro ⟨⟩, rfl⟩ ?_
    simp only [step, htransfer]
  have hdelivered (hreading : s.transfer = .reading) : s.server.written.length ≤ s.delivered := by
    by_contra hlt
    obtain ⟨k, r, hd⟩ := hsound.served.delivers (Nat.lt_of_not_le hlt)
    have hincoming := hd.incoming hsound.served
    refine h .read (s.read r) rfl ⟨by rintro ⟨⟩, rfl⟩ ?_
    simp only [step, hreading, hincoming]
    rfl
  refine ⟨hmem, fun hexit m hm => ?_, fun hexit => ?_⟩
  · have hreading : s.transfer = .reading := by
      cases htransfer : s.transfer with
      | reading => rfl
      | received r => exact absurd htransfer (hreceived r)
      | ended =>
        have hfinished := halive.transfer htransfer
        rcases halive.phase with hopened | hending
        · obtain ⟨popped, -, hcalls⟩ := hopened.calls
          unfold State.finishes at hfinished
          rw [hcalls, finished_writes] at hfinished
          exact absurd rfl hfinished
        · cases hexit.symm.trans (halive.reader hending.reader).1
    obtain ⟨n, hn⟩ := List.getElem?_of_mem hm
    obtain ⟨i, hi⟩ := List.getElem?_of_mem (hmem n (List.getElem?_eq_some_iff.mp hn).1)
    have hlt := (List.getElem?_eq_some_iff.mp hi).1
    obtain ⟨k, r, hd⟩ := hsound.served.delivers hlt
    obtain ⟨n', m', hn', hm', hk, hr⟩ := hd
    obtain rfl : n' = n := by simpa using hn'.symm.trans hi
    obtain rfl : m' = m := Option.some.inj (hm'.symm.trans hn)
    have hstored : s.stored = s.delivered := by
      unfold stored
      rw [hreading]
    obtain ⟨q, hq, hready⟩ := hsound.matched.stored hexit i m'.request r
      (hstored ▸ hlt.trans_le (hdelivered hreading)) ⟨n', m', hn', hm', rfl, hr⟩
    exact ⟨q, hq, hready⟩
  · have hending : Ending s.server := by
      refine halive.phase.resolve_left fun hopened => ?_
      have hreader : s.server.reader = .ended := by
        cases hreader : s.server.reader with
        | reading =>
          have hstep : Streaming.step s.server (.requestDone false) = some _ := if_pos hreader
          refine absurd hstep (h.server ?_)
          show (!s.connected || (s.exiting && decide (s.server.reads = s.sent.length))) = true
          rw [hexit, decide_eq_true hreads, Bool.and_self, Bool.or_true]
        | executing =>
          have hstep : Streaming.step s.server .nextRead = some _ := if_pos hreader
          exact absurd hstep (h.server rfl)
        | ended => rfl
      rcases hopened.pending hreader with hne | hne
      · exact hne hlive
      · exact hne hqueue
    have hfinishes : s.server.finishes = [true] := by
      obtain ⟨finishes, hstage, hcalls⟩ := hending.stage
      rw [htasks] at hstage
      generalize s.server.nextState = nextState at hstage
      cases hstage
      unfold State.finishes
      rw [hcalls, List.filterMap_append, finished_writes]
      rfl
    refine ⟨?_, hfinishes⟩
    cases htransfer : s.transfer with
    | reading =>
      refine absurd ?_ (h .readEnd { s with transfer := .ended } rfl ⟨by rintro ⟨⟩, rfl⟩)
      simp only [step, htransfer]
      refine if_pos (.inr ⟨?_, hdelivered htransfer⟩)
      rw [hfinishes]
      exact List.cons_ne_nil _ _
    | received r => exact absurd htransfer (hreceived r)
    | ended => rfl

end Session

/-- On a stream that keeps its connection, the threads of both ends come to an end after every call
of the user, and then every request is answered. -/
theorem answered_of_reachable {α β : Type} [Nonempty β] {s : Session α β}
    (h : ReachableWhen Session.step Session.Connected {} s) :
    (∀ a t, a.isCall = false → s.Connected a → s.step a = some t → t.remaining < s.remaining) ∧
      (s.Quiet → s.Answered) := by
  obtain ⟨hsound, halive⟩ := Session.alive_of_reachable h
  exact ⟨fun a t hcall hok hs => Session.remaining_session halive hsound hcall hok hs,
    fun hquiet => hquiet.answered halive hsound⟩

/-- A request that is answered after the destructor has begun. -/
theorem answered_exit :
    ∃ s : Session Nat Nat, ReachableWhen Session.step Session.Connected {} s ∧
      s.transfer = .ended ∧ s.server.finishes = [true] ∧
      ((∀ a t, a.isCall = false → s.Connected a → s.step a = some t →
        t.remaining < s.remaining) ∧ (s.Quiet → s.Answered)) := by
  have hrun : (runWhen Session.step Session.Connected ({} : Session Nat Nat)
      [.asyncRun 1, .write true, .exit, .server (.requestDone true), .server .nextRead,
        .server (.requestDone false), .complete 0 10, .server (.run 0), .read,
        .server (.responseDone true), .server (.run 0), .server (.run 0), .readEnd]).map
      (fun s => decide (s.transfer = .ended) && decide (s.server.finishes = [true])) =
        some true := by
    decide
  obtain ⟨s, hreach, hs⟩ := exists_of_runWhen hrun
  obtain ⟨htransfer, hfinishes⟩ := Bool.and_eq_true_iff.mp hs
  exact ⟨s, hreach, of_decide_eq_true htransfer, of_decide_eq_true hfinishes,
    answered_of_reachable hreach⟩

end FinBert.Streaming
