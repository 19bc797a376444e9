import FinBert.Sequence.Invariant
import Mathlib.Data.List.Perm.Basic

/-!
# The ledger of a stay

The requests of a stay are dispatched, wait in the queue of its place, or are on
their way to its slot. `ledger` lists them in this order, and a move adds to it
exactly the request that it accepts; only the delivery of another call than the
oldest one permutes it.

Results:
1. `balanced_after`: the ledger stays a permutation of the requests received.
2. `ordered_after`: it stays equal to them when calls are delivered in the order
   in which they were assigned.
3. `dispatches_after`: a request is dispatched in the slot of its stay, never in
   a free slot.
-/

namespace FinBert.Sequence

open FinBert.Serving

/-- The requests of one stay. -/
def ofOccupancy (o : Occupancy) (l : List Request) : List Request :=
  l.filter fun r => r.occupancy = o

section
variable {o : Occupancy} {l : List Request}

@[simp] theorem ofOccupancy_nil : ofOccupancy o [] = [] := rfl

@[simp] theorem ofOccupancy_append (l l' : List Request) :
    ofOccupancy o (l ++ l') = ofOccupancy o l ++ ofOccupancy o l' :=
  List.filter_append ..

theorem ofOccupancy_eq_self (h : ∀ r ∈ l, r.occupancy = o) : ofOccupancy o l = l :=
  List.filter_eq_self.mpr fun r hr => by simpa using h r hr

theorem ofOccupancy_eq_nil (h : ∀ r ∈ l, r.occupancy ≠ o) : ofOccupancy o l = [] :=
  List.filter_eq_nil_iff.mpr fun r hr => by simpa using h r hr

theorem mem_ofOccupancy {r : Request} : r ∈ ofOccupancy o l ↔ r ∈ l ∧ r.occupancy = o := by
  simp [ofOccupancy]

end

theorem Payload.occupancy_of_request {p : Payload} {r : Request} (h : r ∈ p.request?) :
    r.occupancy = p.occupancy := by
  cases p with
  | request r' =>
    obtain rfl : r' = r := by simpa [request?] using h
    rfl
  | forceEnd o => cases h

/-- The request that a move accepts. -/
def Move.accepts : Move → List Request
  | .continueSlot _ r | .continueBacklog _ r | .openSlot _ r | .openBacklog r => [r]
  | _ => []

namespace SlotTable

/-- The requests of `o` that were put in a batch. -/
def sent (t : SlotTable) (o : Occupancy) : List Request :=
  ofOccupancy o (t.dispatched.map (·.request))

/-- The requests in the queue where `o` is kept. -/
def waiting (t : SlotTable) (o : Occupancy) : List Request :=
  match t.place o with
  | some (.backlog queue) => t.backlogs queue
  | some (.slot batchSlot) => (t.queue batchSlot).filterMap Payload.request?
  | _ => []

/-- The requests of `o` on their way to its slot. -/
def onTheWay (t : SlotTable) (o : Occupancy) : List Request :=
  ofOccupancy o (t.inFlight.map (·.request))

/-- The requests of `o` that were accepted. -/
def received (t : SlotTable) (o : Occupancy) : List Request :=
  ofOccupancy o t.accepted

def ledger (t : SlotTable) (o : Occupancy) : List Request :=
  t.sent o ++ t.waiting o ++ t.onTheWay o

/-- A stay that is kept in the backlog has a queue of its own there. -/
def BacklogPlaces (t : SlotTable) : Prop :=
  ∀ o queue, t.place o = some (.backlog queue) →
    queue ∈ t.backlogQueues ∧ ∀ r ∈ t.backlogs queue, r.occupancy = o

variable {cfg : Config} {t : SlotTable}

@[simp] theorem accepted_after (m : Move) : (t.after m).accepted = t.accepted ++ m.accepts := by
  cases m <;> simp [after, call, Move.accepts, handTo]

theorem received_after (m : Move) (o : Occupancy) :
    (t.after m).received o = t.received o ++ ofOccupancy o m.accepts := by
  simp [received]

theorem map_request_record (batchSlot : BatchSlot) (p : Payload) (pass : Nat) :
    (t.record batchSlot p pass).map (·.request) =
      t.dispatched.map (·.request) ++ p.request?.toList := by
  cases p <;> simp [record, Payload.request?]

/-- What a collected payload adds to the dispatched requests of `o`. -/
theorem ofOccupancy_toList (p : Payload) (o : Occupancy) :
    ofOccupancy o p.request?.toList = if p.occupancy = o then p.request?.toList else [] := by
  have hr : ∀ r ∈ p.request?.toList, r.occupancy = p.occupancy := fun r hr =>
    Payload.occupancy_of_request (by simpa using hr)
  split
  · next h => exact ofOccupancy_eq_self (h ▸ hr)
  · next h => exact ofOccupancy_eq_nil fun r hmem => hr r hmem ▸ h

theorem Inv.onTheWay_eq_nil (h : t.Inv cfg) {o : Occupancy}
    (hplace : ∀ batchSlot, t.place o ≠ some (.slot batchSlot)) : t.onTheWay o = [] := by
  refine ofOccupancy_eq_nil fun r hr => ?_
  obtain ⟨d, hd, rfl⟩ := List.mem_map.mp hr
  rintro rfl
  exact hplace d.target ((h.slots.occupant_iff _ _).mp (h.queues.calls d hd))

theorem waiting_slot {o : Occupancy} {batchSlot : BatchSlot}
    (h : t.place o = some (.slot batchSlot)) :
    t.waiting o = (t.queue batchSlot).filterMap Payload.request? := by
  rw [waiting, h]

theorem waiting_backlog {o : Occupancy} {queue : Nat} (h : t.place o = some (.backlog queue)) :
    t.waiting o = t.backlogs queue := by
  rw [waiting, h]

/-- The waiting requests of `o` change only with its place or with the queue there. -/
theorem waiting_frame {t' : SlotTable} {o : Occupancy} (hplace : t'.place o = t.place o)
    (hbacklogs : ∀ queue, t.place o = some (.backlog queue) → t'.backlogs queue = t.backlogs queue)
    (hqueue : ∀ batchSlot, t.place o = some (.slot batchSlot) →
      t'.queue batchSlot = t.queue batchSlot) : t'.waiting o = t.waiting o := by
  rw [waiting, waiting, hplace]
  split
  · next queue hq => exact hbacklogs queue hq
  · next batchSlot hb => rw [hqueue batchSlot hb]
  · rfl

/-! ## What a move adds to a ledger -/

theorem ledger_call {target : BatchSlot} {r : Request} (o : Occupancy) :
    (t.call target r).ledger o = t.ledger o ++ ofOccupancy o [r] := by
  have hwait : (t.call target r).waiting o = t.waiting o :=
    waiting_frame rfl (fun _ _ => rfl) fun _ _ => rfl
  rw [ledger, hwait]
  simp [ledger, sent, onTheWay, call]

theorem ledger_handTo (h : t.Inv cfg) {target : BatchSlot} {r : Request}
    (hready : target ∈ t.ready) (hstamp : t.Stamped r (t.opened r.header.correlationId + 1))
    (o : Occupancy) : (t.handTo target r).ledger o = t.ledger o := by
  have hnew : t.place r.occupancy = none := hstamp.1 ▸ h.new_place _
  have hempty := (h.free_empty ((h.slots.ready_iff target).mp hready).2).1
  have hwait : (t.handTo target r).waiting o = t.waiting o := by
    by_cases ho : o = r.occupancy
    · have hplace : (t.handTo target r).place o = some (.slot target) := by simp [handTo, ho]
      rw [waiting_slot hplace]
      simp [handTo, hempty, waiting, ho, hnew]
    · exact waiting_frame (by simp [handTo, ho]) (fun _ _ => rfl) fun _ _ => rfl
  rw [ledger, hwait]
  rfl

theorem ledger_continueBacklog (h : t.Inv cfg) (hb : t.BacklogPlaces) {queue : Nat} {r : Request}
    (he : t.Enabled (.continueBacklog queue r)) (o : Occupancy) :
    (t.after (.continueBacklog queue r)).ledger o = t.ledger o ++ ofOccupancy o [r] := by
  obtain ⟨-, hbacklog, hstamp⟩ := he
  have hplace : t.place r.occupancy = some (.backlog queue) :=
    hstamp.1 ▸ h.present_place hbacklog
  by_cases ho : o = r.occupancy
  · have hway : t.onTheWay o = [] := h.onTheWay_eq_nil fun _ => by simp [ho, hplace]
    have hplace' : (t.after (.continueBacklog queue r)).place o = some (.backlog queue) :=
      ho ▸ hplace
    have hwait : (t.after (.continueBacklog queue r)).waiting o = t.waiting o ++ [r] := by
      rw [waiting_backlog hplace', waiting_backlog (ho ▸ hplace)]
      simp [after]
    have hr : ofOccupancy o [r] = [r] := ofOccupancy_eq_self fun r' hr' => by simp_all
    calc (t.after (.continueBacklog queue r)).ledger o
        = t.sent o ++ (t.waiting o ++ [r]) ++ t.onTheWay o := by rw [ledger, hwait]; rfl
      _ = t.ledger o ++ ofOccupancy o [r] := by simp [ledger, hway, hr]
  · have hwait : (t.after (.continueBacklog queue r)).waiting o = t.waiting o := by
      refine waiting_frame rfl (fun q hq => ?_) fun _ _ => rfl
      have hne : q ≠ queue := by
        rintro rfl
        obtain ⟨r', hr'⟩ := List.exists_mem_of_ne_nil _
          (h.backlog.nonempty q (h.backlog.mem _ _ hbacklog))
        exact ho (((hb o q hq).2 r' hr').symm.trans ((hb _ q hplace).2 r' hr'))
      simp [after, hne]
    rw [ledger, hwait, ofOccupancy_eq_nil (by simpa using Ne.symm ho), List.append_nil]
    rfl

theorem ledger_openBacklog (h : t.Inv cfg) (hb : t.BacklogPlaces) {r : Request}
    (he : t.Enabled (.openBacklog r)) (o : Occupancy) :
    (t.after (.openBacklog r)).ledger o = t.ledger o ++ ofOccupancy o [r] := by
  obtain ⟨-, -, -, hstamp⟩ := he
  have hnew : t.place r.occupancy = none := hstamp.1 ▸ h.new_place _
  by_cases ho : o = r.occupancy
  · have hway : t.onTheWay o = [] := h.onTheWay_eq_nil fun _ => by simp [ho, hnew]
    have hwait : t.waiting o = [] := by simp [waiting, ho, hnew]
    have hplace : (t.after (.openBacklog r)).place o = some (.backlog t.nextBacklog) := by
      simp [after, ho]
    have hwait' : (t.after (.openBacklog r)).waiting o = [r] := by
      rw [waiting_backlog hplace]
      simp [after]
    have hr : ofOccupancy o [r] = [r] := ofOccupancy_eq_self fun r' hr' => by simp_all
    calc (t.after (.openBacklog r)).ledger o
        = t.sent o ++ [r] ++ t.onTheWay o := by rw [ledger, hwait']; rfl
      _ = t.ledger o ++ ofOccupancy o [r] := by simp [ledger, hway, hr, hwait]
  · have hwait : (t.after (.openBacklog r)).waiting o = t.waiting o := by
      refine waiting_frame (by simp [after, ho]) (fun q hq => ?_) fun _ _ => rfl
      have hlt := h.backlog.bound q (hb o q hq).1
      simp [after, Nat.ne_of_lt hlt]
    rw [ledger, hwait, ofOccupancy_eq_nil (by simpa using Ne.symm ho), List.append_nil]
    rfl

/-- A delivery takes the request from the calls on their way to the end of its queue. -/
theorem ledger_deliver (h : t.Inv cfg) {call : Nat} {d : Delivery}
    (he : t.Enabled (.deliver call d)) (o : Occupancy) :
    (t.after (.deliver call d)).ledger o =
      t.sent o ++ t.waiting o ++
        ofOccupancy o ((d :: t.inFlight.eraseIdx call).map (·.request)) := by
  have hocc := h.queues.calls d (List.mem_of_getElem? he)
  by_cases ho : o = d.request.occupancy
  · have hplace : t.place o = some (.slot d.target) := (h.slots.occupant_iff _ _).mp (ho ▸ hocc)
    have hplace' : (t.after (.deliver call d)).place o = some (.slot d.target) := hplace
    have hwait : (t.after (.deliver call d)).waiting o = t.waiting o ++ [d.request] := by
      rw [waiting_slot hplace, waiting_slot hplace']
      simp [after, Payload.request?]
    have hr : ofOccupancy o [d.request] = [d.request] :=
      ofOccupancy_eq_self fun r' hr' => by simp_all
    have hcons : ofOccupancy o ((d :: t.inFlight.eraseIdx call).map (·.request)) =
        [d.request] ++ (t.after (.deliver call d)).onTheWay o := by
      rw [← hr]
      exact ofOccupancy_append [d.request] _
    rw [ledger, hwait, hcons]
    simp [sent, after]
  · have hwait : (t.after (.deliver call d)).waiting o = t.waiting o := by
      refine waiting_frame rfl (fun _ _ => rfl) fun batchSlot hb => ?_
      have hne : batchSlot ≠ d.target := by
        rintro rfl
        have hsame := (h.slots.occupant_iff _ _).mpr hb
        rw [hocc] at hsame
        exact ho (Option.some.inj hsame).symm
      simp [after, hne]
    rw [ledger, hwait, List.map_cons, ← List.singleton_append, ofOccupancy_append,
      ofOccupancy_eq_nil (l := [d.request]) (by simpa using Ne.symm ho)]
    rfl

theorem ledger_forceEnd {target : BatchSlot} {c : CorrelationId} (o : Occupancy) :
    (t.after (.forceEnd target c)).ledger o = t.ledger o := by
  have hwait : (t.after (.forceEnd target c)).waiting o = t.waiting o := by
    rw [waiting, waiting]
    simp only [after]
    split
    · rfl
    · next batchSlot _ =>
      by_cases hb : batchSlot = target <;> simp [hb, Payload.request?]
    · rfl
  rw [ledger, hwait]
  rfl

/-! ## Collecting -/

theorem placeAfter_eq_self {batchSlot : BatchSlot} {o : Occupancy}
    (h : t.occupant batchSlot ≠ some o) : t.placeAfter batchSlot o = t.place o := by
  cases hocc : t.occupant batchSlot with
  | none => simp only [placeAfter, hocc]
  | some o' =>
    have hne : o ≠ o' := by rintro rfl; exact h hocc
    simp only [placeAfter, hocc, Function.update_of_ne hne]

/-- Collecting `p` from the slot of its stay moves its request from the waiting
requests to the dispatched ones, provided nothing else of the queue is lost. -/
theorem ledger_collected (h : t.Inv cfg) (t' : SlotTable) {batchSlot : BatchSlot} {p : Payload}
    {rest : List Payload} {pass : Nat} (hq : t.queue batchSlot = p :: rest)
    (hdisp : t'.dispatched = t.record batchSlot p pass) (hflight : t'.inFlight = t.inFlight)
    (hown : t'.waiting p.occupancy = rest.filterMap Payload.request?)
    (hothers : ∀ o, o ≠ p.occupancy → t'.waiting o = t.waiting o) (o : Occupancy) :
    t'.ledger o = t.ledger o := by
  have hsent : t'.sent o = t.sent o ++ if p.occupancy = o then p.request?.toList else [] := by
    rw [sent, hdisp, map_request_record, ofOccupancy_append, ofOccupancy_toList]
    rfl
  have hway : t'.onTheWay o = t.onTheWay o := by rw [onTheWay, hflight]; rfl
  rw [ledger, hsent, hway, ledger]
  by_cases ho : o = p.occupancy
  · have hocc := h.queues.occupant batchSlot p (by simp [hq])
    have hplace : t.place o = some (.slot batchSlot) := (h.slots.occupant_iff _ _).mp (ho ▸ hocc)
    rw [ho, hown, waiting_slot (ho ▸ hplace), hq, if_pos rfl, List.filterMap_cons]
    cases p.request? <;> simp
  · rw [hothers o ho, if_neg (Ne.symm ho), List.append_nil]

theorem ledger_collect (h : t.Inv cfg) {batchSlot : BatchSlot} {p : Payload} {rest : List Payload}
    {pass : Nat} (he : t.Enabled (.collect batchSlot p rest pass)) (o : Occupancy) :
    (t.after (.collect batchSlot p rest pass)).ledger o = t.ledger o := by
  have hocc := h.queues.occupant batchSlot p (by simp [he.1])
  have hplace : (t.after (.collect batchSlot p rest pass)).place p.occupancy =
      some (.slot batchSlot) := (h.slots.occupant_iff _ _).mp hocc
  refine ledger_collected h (t.after (.collect batchSlot p rest pass)) he.1 rfl rfl ?_ ?_ o
  · rw [waiting_slot hplace]
    simp [after]
  · intro o ho
    refine waiting_frame rfl (fun _ _ => rfl) fun bs hb => ?_
    have hne : bs ≠ batchSlot := by
      rintro rfl
      rw [(h.slots.occupant_iff _ _).mpr hb] at hocc
      exact ho (Option.some.inj hocc)
    simp [after, hne]

theorem ledger_free (h : t.Inv cfg) {batchSlot : BatchSlot} {p : Payload} {rest : List Payload}
    {pass : Nat} (he : t.Enabled (.free batchSlot p rest pass)) (o : Occupancy) :
    (t.after (.free batchSlot p rest pass)).ledger o = t.ledger o := by
  obtain ⟨hq, hend, -⟩ := he
  have hocc := h.queues.occupant batchSlot p (by simp [hq])
  obtain ⟨rfl, -, -⟩ := h.end_alone hq hend
  refine ledger_collected h (t.after (.free batchSlot p [] pass)) hq rfl rfl ?_ ?_ o
  · simp [waiting, after, placeAfter_eq hocc]
  · intro o ho
    refine waiting_frame (placeAfter_eq_self ?_) (fun _ _ => rfl) fun bs hb => ?_
    · rw [hocc]; exact fun he => ho (Option.some.inj he).symm
    · have hne : bs ≠ batchSlot := by
        rintro rfl
        rw [(h.slots.occupant_iff _ _).mpr hb] at hocc
        exact ho (Option.some.inj hocc)
      simp [after, hne]

theorem ledger_handOn (h : t.Inv cfg) (hb : t.BacklogPlaces) {batchSlot : BatchSlot} {p : Payload}
    {rest : List Payload} {pass queue : Nat} {queues : List Nat} {first last : Request}
    (he : t.Enabled (.handOn batchSlot p rest pass queue queues first last)) (o : Occupancy) :
    (t.after (.handOn batchSlot p rest pass queue queues first last)).ledger o = t.ledger o := by
  obtain ⟨hq, hend, hqueues, hfirst, -⟩ := he
  have hocc := h.queues.occupant batchSlot p (by simp [hq])
  have hplace : t.place p.occupancy = some (.slot batchSlot) := (h.slots.occupant_iff _ _).mp hocc
  have hfirstPlace : t.place first.occupancy = some (.backlog queue) :=
    h.backlog.place queue (by simp [hqueues]) first (List.mem_of_head? hfirst)
  have hpf : p.occupancy ≠ first.occupancy := by
    intro heq
    rw [heq, hfirstPlace] at hplace
    cases hplace
  obtain ⟨rfl, -, -⟩ := h.end_alone hq hend
  refine ledger_collected h (t.after (.handOn batchSlot p [] pass queue queues first last)) hq rfl
    rfl ?_ ?_ o
  · simp [waiting, after, placeAfter_eq hocc, hpf]
  · intro o ho
    by_cases hof : o = first.occupancy
    · rw [hof, waiting_backlog hfirstPlace]
      have hslot : (t.after (.handOn batchSlot p [] pass queue queues first last)).place
          first.occupancy = some (.slot batchSlot) := by simp [after]
      rw [waiting_slot hslot]
      simp [after, List.filterMap_map, Payload.request?, Function.comp_def]
    · refine waiting_frame ?_ (fun q hq' => ?_) fun bs hb' => ?_
      · simp only [after, Function.update_of_ne hof]
        exact placeAfter_eq_self (by rw [hocc]; exact fun he => ho (Option.some.inj he).symm)
      · have hne : q ≠ queue := by
          rintro rfl
          exact hof ((hb o q hq').2 first (List.mem_of_head? hfirst)).symm
        simp [after, hne]
      · have hne : bs ≠ batchSlot := by
          rintro rfl
          rw [(h.slots.occupant_iff _ _).mpr hb'] at hocc
          exact ho (Option.some.inj hocc)
        simp [after, hne]

/-- What a move adds to the ledger, when calls are delivered in order. -/
theorem ledger_after (h : t.Inv cfg) (hb : t.BacklogPlaces) {m : Move} (he : t.Enabled m)
    (hord : m.InOrder) (o : Occupancy) :
    (t.after m).ledger o = t.ledger o ++ ofOccupancy o m.accepts := by
  cases m with
  | idle => simp [after, Move.accepts]
  | continueSlot target r => exact ledger_call o
  | continueBacklog queue r => exact ledger_continueBacklog h hb he o
  | openSlot target r =>
    rw [after, ledger_call, ledger_handTo h he.2.2.1 he.2.2.2]
    rfl
  | openBacklog r => exact ledger_openBacklog h hb he o
  | deliver call d =>
    obtain rfl : call = 0 := hord
    have hd : t.inFlight[0]? = some d := he
    rw [ledger_deliver h he, ledger, show (Move.deliver 0 d).accepts = [] from rfl, ofOccupancy_nil,
      List.append_nil]
    cases hflight : t.inFlight with
    | nil => simp [hflight] at hd
    | cons d' ds =>
      obtain rfl : d' = d := by simpa [hflight] using hd
      simp [onTheWay, hflight]
  | collect batchSlot p rest pass => simpa [Move.accepts] using ledger_collect h he o
  | free batchSlot p rest pass => simpa [Move.accepts] using ledger_free h he o
  | handOn batchSlot p rest pass queue queues first last =>
    simpa [Move.accepts] using ledger_handOn h hb he o
  | forceEnd target c => simpa [Move.accepts] using ledger_forceEnd o

/-- Without that order the deliveries permute it. -/
theorem ledger_after_perm (h : t.Inv cfg) (hb : t.BacklogPlaces) {m : Move} (he : t.Enabled m)
    (o : Occupancy) : ((t.after m).ledger o).Perm (t.ledger o ++ ofOccupancy o m.accepts) := by
  by_cases hdel : ∃ call d, m = .deliver call d
  · obtain ⟨call, d, rfl⟩ := hdel
    have hperm : (d :: t.inFlight.eraseIdx call).Perm t.inFlight := by
      obtain ⟨hlt, rfl⟩ := List.getElem?_eq_some_iff.mp he
      exact List.getElem_cons_eraseIdx_perm hlt
    rw [ledger_deliver h he, ledger, show (Move.deliver call d).accepts = [] from rfl,
      ofOccupancy_nil, List.append_nil]
    exact (((hperm.map _).filter _).append_left _)
  · have hord : m.InOrder := by
      cases m with
      | deliver call d => exact absurd ⟨call, d, rfl⟩ hdel
      | _ => trivial
    rw [ledger_after h hb he hord o]

/-! ## Where requests are dispatched -/

/-- `o` has the slot, or had it until its end was collected there. -/
def SettledIn (t : SlotTable) (o : Occupancy) (batchSlot : BatchSlot) : Prop :=
  t.place o = some (.slot batchSlot) ∨ t.place o = some (.done batchSlot)

/-- Every request was dispatched in the slot that its own stay had at that moment. -/
def DispatchesOk (t : SlotTable) : Prop :=
  ∀ d ∈ t.dispatched,
    d.free = false ∧ d.occupant = some d.request.occupancy ∧
      t.SettledIn d.request.occupancy d.batchSlot

/-- A stay that has settled in a slot never moves to another. -/
theorem settledIn_after (h : t.Inv cfg) {m : Move} (he : t.Enabled m) {o : Occupancy}
    {batchSlot : BatchSlot} (hs : t.SettledIn o batchSlot) : (t.after m).SettledIn o batchSlot := by
  have hleave : ∀ {bs p}, t.occupant bs = some p → ∀ {place},
      (o ≠ p → place = t.place o) → (o = p → place = some (.done bs)) →
      place = some (.slot batchSlot) ∨ place = some (.done batchSlot) := by
    intro bs p hocc place hother hsame
    by_cases ho : o = p
    · have hplace := (h.slots.occupant_iff _ _).mp hocc
      rcases hs with hs | hs <;> rw [ho, hplace] at hs
      · exact .inr (by rw [hsame ho]; simpa using hs)
      · cases hs
    · rw [hother ho]; exact hs
  cases m with
  | openSlot target r =>
    have hne : o ≠ r.occupancy := by
      rintro rfl
      have hnew := h.new_place r.header.correlationId
      rw [← he.2.2.2.1] at hnew
      rcases hs with hs | hs <;> rw [hnew] at hs <;> cases hs
    simpa [SettledIn, after, call, handTo, hne] using hs
  | openBacklog r =>
    have hne : o ≠ r.occupancy := by
      rintro rfl
      have hnew := h.new_place r.header.correlationId
      rw [← he.2.2.2.1] at hnew
      rcases hs with hs | hs <;> rw [hnew] at hs <;> cases hs
    simpa [SettledIn, after, hne] using hs
  | free bs p rest pass =>
    have hocc := h.queues.occupant bs p (by simp [he.1])
    refine hleave hocc (fun ho => ?_) fun ho => ?_
    · exact placeAfter_eq_self (by rw [hocc]; exact fun he => ho (Option.some.inj he).symm)
    · simp [after, placeAfter_eq hocc, ho]
  | handOn bs p rest pass queue queues first last =>
    have hocc := h.queues.occupant bs p (by simp [he.1])
    have hfirst := h.backlog.place queue (by simp [he.2.2.1]) first (List.mem_of_head? he.2.2.2.1)
    have hne : o ≠ first.occupancy := by
      rintro rfl
      rcases hs with hs | hs <;> rw [hfirst] at hs <;> cases hs
    refine hleave hocc (fun ho => ?_) fun ho => ?_
    · simp only [after, Function.update_of_ne hne]
      exact placeAfter_eq_self (by rw [hocc]; exact fun he => ho (Option.some.inj he).symm)
    · simp only [after, Function.update_of_ne hne, placeAfter_eq hocc]
      simp [ho]
  | _ => exact hs

/-- What a move dispatches: the front of a queue, in its slot. -/
theorem dispatched_after (m : Move) :
    (t.after m).dispatched = t.dispatched ∨
      ∃ batchSlot p rest pass, (t.Enabled m → t.queue batchSlot = p :: rest) ∧
        (t.after m).dispatched = t.record batchSlot p pass := by
  cases m with
  | collect batchSlot p rest pass => exact .inr ⟨batchSlot, p, rest, pass, And.left, rfl⟩
  | free batchSlot p rest pass => exact .inr ⟨batchSlot, p, rest, pass, And.left, rfl⟩
  | handOn batchSlot p rest pass queue queues first last =>
    exact .inr ⟨batchSlot, p, rest, pass, And.left, rfl⟩
  | _ => exact .inl rfl

theorem dispatches_after (h : t.Inv cfg) (hd : t.DispatchesOk) {m : Move} (he : t.Enabled m) :
    (t.after m).DispatchesOk := by
  have hold : ∀ d ∈ t.dispatched, d.free = false ∧ d.occupant = some d.request.occupancy ∧
      (t.after m).SettledIn d.request.occupancy d.batchSlot := by
    intro d hmem
    obtain ⟨hfree, hocc, hs⟩ := hd d hmem
    exact ⟨hfree, hocc, settledIn_after h he hs⟩
  intro d hmem
  rcases dispatched_after (t := t) m with hsame | ⟨batchSlot, p, rest, pass, hq, hrec⟩
  · exact hold d (hsame ▸ hmem)
  · have hocc := h.queues.occupant batchSlot p (by simp [hq he])
    rw [hrec] at hmem
    cases p with
    | forceEnd o => exact hold d hmem
    | request r =>
      rcases List.mem_append.mp hmem with hmem | hmem
      · exact hold d hmem
      · obtain rfl := List.mem_singleton.mp hmem
        refine ⟨?_, hocc, settledIn_after h he (.inl ((h.slots.occupant_iff _ _).mp hocc))⟩
        simp [h.slots.ready_iff, hocc]

/-- Every stay in the backlog keeps a queue of its own. -/
theorem backlogPlaces_after (h : t.Inv cfg) (hb : t.BacklogPlaces) {m : Move}
    (he : t.Enabled m) : (t.after m).BacklogPlaces := by
  intro o q hq
  cases m with
  | continueBacklog queue r =>
    obtain ⟨hmem, hall⟩ := hb o q hq
    refine ⟨hmem, fun r' hr' => ?_⟩
    simp only [after, Function.update_apply] at hr'
    split at hr'
    · next hqq =>
      subst hqq
      rcases List.mem_append.mp hr' with hr' | hr'
      · exact hall r' hr'
      · obtain rfl := List.mem_singleton.mp hr'
        obtain ⟨r₀, hr₀⟩ := List.exists_mem_of_ne_nil _ (h.backlog.nonempty q hmem)
        rw [← hall r₀ hr₀, he.2.2.1, (h.backlog.present _ q he.2.1 r₀ hr₀).1]
    · exact hall r' hr'
  | openSlot target r =>
    by_cases ho : o = r.occupancy
    · simp [after, call, handTo, ho] at hq
    · exact hb o q (by simpa [after, call, handTo, ho] using hq)
  | openBacklog r =>
    by_cases ho : o = r.occupancy
    · obtain rfl : t.nextBacklog = q := by simpa [after, ho] using hq
      simp [after, ho]
    · obtain ⟨hmem, hall⟩ := hb o q (by simpa [after, ho] using hq)
      have hne : q ≠ t.nextBacklog := Nat.ne_of_lt (h.backlog.bound q hmem)
      exact ⟨by simp [after, hmem], by simpa [after, hne] using hall⟩
  | free batchSlot p rest pass =>
    have hocc := h.queues.occupant batchSlot p (by simp [he.1])
    by_cases ho : o = p.occupancy
    · simp [after, placeAfter_eq hocc, ho] at hq
    · exact hb o q (by simpa [after, placeAfter_eq hocc, ho] using hq)
  | handOn batchSlot p rest pass queue queues first last =>
    obtain ⟨hqueue, -, hqueues, hfirst, -⟩ := he
    have hocc := h.queues.occupant batchSlot p (by simp [hqueue])
    by_cases hof : o = first.occupancy
    · simp [after, hof] at hq
    · by_cases ho : o = p.occupancy
      · simp [after, placeAfter_eq hocc, ho, ho ▸ hof] at hq
      · obtain ⟨hmem, hall⟩ := hb o q (by simpa [after, placeAfter_eq hocc, ho, hof] using hq)
        have hne : q ≠ queue := by
          rintro rfl
          exact hof (hall first (List.mem_of_head? hfirst)).symm
        rw [hqueues] at hmem
        exact ⟨by simpa [after, hne] using hmem, by simpa [after, hne] using hall⟩
  | _ => exact hb o q hq

/-- Requests are numbered in the order in which they are accepted. -/
def IdsOk (t : SlotTable) : Prop :=
  t.accepted.map (·.id) = List.range t.accepted.length

theorem ids_after (hi : t.IdsOk) {m : Move} (he : t.Enabled m) : (t.after m).IdsOk := by
  have hnew : ∀ r ∈ m.accepts, r.id = t.accepted.length := by
    intro r hr
    cases m <;> simp only [Move.accepts, List.mem_singleton, List.not_mem_nil] at hr
    all_goals subst hr
    · exact he.2.2
    · exact he.2.2.2
    · exact he.2.2.2.2
    · exact he.2.2.2.2
  have hlen : m.accepts = [] ∨ ∃ r, m.accepts = [r] := by cases m <;> simp [Move.accepts]
  rw [IdsOk, accepted_after]
  rcases hlen with hnil | ⟨r, hr⟩
  · simpa [hnil, IdsOk] using hi
  · simp [hr, List.range_succ, hnew r (by simp [hr]), show _ = _ from hi]

/-! ## Along a run -/

/-- What the ledgers of a table satisfy, whatever the order of the deliveries. -/
structure LedgerOk (t : SlotTable) : Prop where
  places : t.BacklogPlaces
  dispatches : t.DispatchesOk
  ids : t.IdsOk
  balanced : ∀ o, (t.ledger o).Perm (t.received o)

theorem ledgerOk_init (cfg : Config) : (System.init cfg).table.LedgerOk := by
  refine ⟨?_, ?_, ?_, ?_⟩ <;>
    simp [System.init, System.table, BacklogPlaces, DispatchesOk, IdsOk, ledger, sent, waiting,
      onTheWay, received]

theorem ledgerOk_after (h : t.Inv cfg) (hl : t.LedgerOk) {m : Move} (he : t.Enabled m) :
    (t.after m).LedgerOk := by
  refine ⟨backlogPlaces_after h hl.places he, dispatches_after h hl.dispatches he,
    ids_after hl.ids he, fun o => ?_⟩
  rw [received_after]
  exact (ledger_after_perm h hl.places he o).trans ((hl.balanced o).append_right _)

/-- The ledgers list the requests in the order of their arrival. -/
def Ordered (t : SlotTable) : Prop := ∀ o, t.ledger o = t.received o

theorem ordered_after (h : t.Inv cfg) (hl : t.LedgerOk) (ho : t.Ordered) {m : Move}
    (he : t.Enabled m) (hord : m.InOrder) : (t.after m).Ordered := by
  intro o
  rw [received_after, ledger_after h hl.places he hord, ho o]

/-! ## What the ledgers say about the requests -/

/-- An accepted request has the number of its `Enqueue` call for itself. -/
theorem LedgerOk.ids_nodup (hl : t.LedgerOk) : (t.accepted.map (·.id)).Nodup := by
  rw [hl.ids]
  exact List.nodup_range

theorem LedgerOk.accepted_of_dispatched (hl : t.LedgerOk) {d : Dispatch} (hd : d ∈ t.dispatched) :
    d.request ∈ t.accepted := by
  have hsent : d.request ∈ t.sent d.request.occupancy :=
    mem_ofOccupancy.mpr ⟨List.mem_map_of_mem hd, rfl⟩
  have hled : d.request ∈ t.ledger d.request.occupancy := by simp [ledger, hsent]
  exact (mem_ofOccupancy.mp ((hl.balanced _).subset hled)).1

/-- No request is dispatched twice. -/
theorem LedgerOk.dispatched_nodup (hl : t.LedgerOk) :
    (t.dispatched.map fun d => d.request.id).Nodup := by
  have hrequests : (t.dispatched.map (·.request)).Nodup := by
    rw [List.nodup_iff_count_le_one]
    intro r
    have hcount : ∀ l : List Request, (ofOccupancy r.occupancy l).count r = l.count r := by
      intro l
      exact List.count_filter (by simp)
    calc (t.dispatched.map (·.request)).count r
        = (t.sent r.occupancy).count r := (hcount _).symm
      _ ≤ (t.ledger r.occupancy).count r := by simp [ledger]
      _ = (t.received r.occupancy).count r := (hl.balanced _).count_eq r
      _ = t.accepted.count r := hcount _
      _ ≤ 1 := List.nodup_iff_count_le_one.mp hl.ids_nodup.of_map r
  have hmap : t.dispatched.map (fun d => d.request.id) =
      (t.dispatched.map (·.request)).map (·.id) := by simp
  rw [hmap]
  refine List.Nodup.map_on ?_ hrequests
  intro r hr r' hr' hid
  obtain ⟨d, hd, rfl⟩ := List.mem_map.mp hr
  obtain ⟨d', hd', rfl⟩ := List.mem_map.mp hr'
  exact List.inj_on_of_nodup_map hl.ids_nodup (hl.accepted_of_dispatched hd)
    (hl.accepted_of_dispatched hd') hid

/-- No request is lost: it was dispatched, waits in the queue of a slot or in the
backlog, or is on its way. -/
theorem LedgerOk.kept (hl : t.LedgerOk) {r : Request} (hr : r ∈ t.accepted) :
    (∃ d ∈ t.dispatched, d.request = r) ∨
      (∃ batchSlot, .request r ∈ t.queue batchSlot) ∨
      (∃ queue ∈ t.backlogQueues, r ∈ t.backlogs queue) ∨
      ∃ d ∈ t.inFlight, d.request = r := by
  have hled : r ∈ t.ledger r.occupancy :=
    (hl.balanced _).symm.subset (mem_ofOccupancy.mpr ⟨hr, rfl⟩)
  simp only [ledger, List.mem_append] at hled
  rcases hled with (hsent | hwait) | hway
  · exact .inl (List.mem_map.mp (mem_ofOccupancy.mp hsent).1)
  · rw [waiting] at hwait
    split at hwait
    · next queue hplace => exact .inr (.inr (.inl ⟨queue, (hl.places _ _ hplace).1, hwait⟩))
    · next batchSlot hplace =>
      obtain ⟨p, hp, hreq⟩ := List.mem_filterMap.mp hwait
      cases p with
      | request r' =>
        obtain rfl : r' = r := by simpa [Payload.request?] using hreq
        exact .inr (.inl ⟨batchSlot, hp⟩)
      | forceEnd o => cases hreq
    · cases hwait
  · exact .inr (.inr (.inr (List.mem_map.mp (mem_ofOccupancy.mp hway).1)))

end SlotTable

end FinBert.Sequence
