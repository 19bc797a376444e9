import FinBert.Lib.Grouped
import FinBert.Sequence.Delivery

/-!
# The stays of a slot, one after the other

A slot is given to one stay after the other, and a stay that has been given a slot never gets
another one. So the requests dispatched in a slot stand in groups, one group a stay.

Result: `staysOk_of_reachableInOrder`, which says this, and that the first request of a stay has
the START flag. A later one may have it as well: `Enqueue` lets it through.
-/

namespace FinBert.Sequence

open FinBert.Serving Transition

/-- The requests dispatched in a slot. -/
def inSlot (dispatched : List Dispatch) (batchSlot : BatchSlot) : List Request :=
  (dispatched.filter fun d => d.batchSlot = batchSlot).map (·.request)

theorem mem_inSlot {dispatched : List Dispatch} {batchSlot : BatchSlot} {r : Request} :
    r ∈ inSlot dispatched batchSlot ↔
      ∃ d ∈ dispatched, d.batchSlot = batchSlot ∧ d.request = r := by
  simp only [inSlot, List.mem_map, List.mem_filter, decide_eq_true_eq, and_assoc]

namespace SlotTable

variable {cfg : Config} {t : SlotTable}

/-- The requests of a stay stand together in their slot, and those of the stay that has the slot
stand last. -/
structure Contiguous (t : SlotTable) : Prop where
  grouped : ∀ batchSlot, Grouped (·.occupancy) (inSlot t.dispatched batchSlot)
  last : ∀ batchSlot o, t.occupant batchSlot = some o →
    (∃ r, (inSlot t.dispatched batchSlot).getLast? = some r ∧ r.occupancy = o) ∨
      ∀ r ∈ inSlot t.dispatched batchSlot, r.occupancy ≠ o

theorem inSlot_record (batchSlot : BatchSlot) (p : Payload) (pass : Nat) (batchSlot' : BatchSlot) :
    inSlot (t.record batchSlot p pass) batchSlot' = inSlot t.dispatched batchSlot' ++
      if batchSlot' = batchSlot then p.request?.toList else [] := by
  unfold record
  cases p.request? with
  | none => simp
  | some r =>
    simp only [inSlot, List.filter_append, List.map_append, List.filter_cons, List.filter_nil,
      decide_eq_true_eq]
    split
    · next heq => rw [if_pos heq.symm]; rfl
    · next hne => rw [if_neg (Ne.symm hne)]; rfl

/-- What is collected from a slot belongs to the stay that has it. -/
theorem Contiguous.record (hc : t.Contiguous) {batchSlot : BatchSlot} {p : Payload} (pass : Nat)
    (hocc : t.occupant batchSlot = some p.occupancy) :
    ({ t with dispatched := t.record batchSlot p pass } : SlotTable).Contiguous := by
  have hkeep {batchSlot' : BatchSlot}
      (hnil : (if batchSlot' = batchSlot then p.request?.toList else []) = []) :
      inSlot (t.record batchSlot p pass) batchSlot' = inSlot t.dispatched batchSlot' := by
    rw [inSlot_record, hnil, List.append_nil]
  have hadd {r : Request} (hr : p.request? = some r) :
      inSlot (t.record batchSlot p pass) batchSlot = inSlot t.dispatched batchSlot ++ [r] := by
    rw [inSlot_record, if_pos rfl, hr]
    rfl
  constructor
  · intro batchSlot'
    show Grouped _ (inSlot (t.record batchSlot p pass) batchSlot')
    by_cases hb : batchSlot' = batchSlot
    · subst hb
      cases hr : p.request? with
      | none =>
        rw [hkeep (by rw [if_pos rfl, hr]; rfl)]
        exact hc.grouped _
      | some r =>
        rw [hadd hr]
        refine (hc.grouped _).snoc ?_
        rw [Payload.occupancy_of_request hr]
        exact hc.last _ _ hocc
    · rw [hkeep (if_neg hb)]
      exact hc.grouped _
  · intro batchSlot' o ho
    show (∃ r, (inSlot (t.record batchSlot p pass) batchSlot').getLast? = some r ∧ _) ∨
      ∀ r ∈ inSlot (t.record batchSlot p pass) batchSlot', _
    by_cases hb : batchSlot' = batchSlot
    · subst hb
      cases hr : p.request? with
      | none =>
        rw [hkeep (by rw [if_pos rfl, hr]; rfl)]
        exact hc.last _ _ ho
      | some r =>
        have hrp : r.occupancy = p.occupancy := Payload.occupancy_of_request hr
        refine .inl ⟨r, by rw [hadd hr, List.getLast?_concat], ?_⟩
        exact hrp.trans (Option.some.inj (hocc.symm.trans ho))
    · rw [hkeep (if_neg hb)]
      exact hc.last _ _ ho

/-- A slot is freed, or given to a stay of which it has seen no request. -/
theorem Contiguous.handTo (hc : t.Contiguous) {t' : SlotTable}
    (hdisp : t'.dispatched = t.dispatched)
    (hocc : ∀ batchSlot o, t'.occupant batchSlot = some o → t.occupant batchSlot = some o ∨
      ∀ r ∈ inSlot t.dispatched batchSlot, r.occupancy ≠ o) : t'.Contiguous := by
  constructor
  · rw [hdisp]
    exact hc.grouped
  · intro batchSlot o ho
    rw [hdisp]
    rcases hocc batchSlot o ho with ho | hnever
    · exact hc.last _ _ ho
    · exact .inr hnever

/-- A stay that has had no slot has had no request dispatched. -/
theorem DispatchesOk.not_mem_inSlot (hd : t.DispatchesOk) {o : Occupancy}
    (ho : ∀ batchSlot, ¬ t.SettledIn o batchSlot) (batchSlot : BatchSlot) :
    ∀ r ∈ inSlot t.dispatched batchSlot, r.occupancy ≠ o := by
  intro r hr hro
  obtain ⟨d, hmem, -, rfl⟩ := mem_inSlot.mp hr
  exact ho d.batchSlot (hro ▸ (hd d hmem).2.2)

theorem not_settledIn_of_none {o : Occupancy} (h : t.place o = none) (batchSlot : BatchSlot) :
    ¬ t.SettledIn o batchSlot := by
  rintro (hs | hs) <;> rw [h] at hs <;> cases hs

theorem not_settledIn_of_backlog {o : Occupancy} {queue : Nat}
    (h : t.place o = some (.backlog queue)) (batchSlot : BatchSlot) :
    ¬ t.SettledIn o batchSlot := by
  rintro (hs | hs) <;> rw [h] at hs <;> cases hs

theorem contiguous_after (h : t.Inv cfg) (hd : t.DispatchesOk) (hc : t.Contiguous) {m : Move}
    (he : t.Enabled m) : (t.after m).Contiguous := by
  cases m with
  | openSlot target r =>
    refine hc.handTo rfl fun batchSlot o ho => ?_
    simp only [after, call, SlotTable.handTo, Function.update_apply] at ho
    split at ho
    · obtain rfl := Option.some.inj ho
      exact .inr (hd.not_mem_inSlot (not_settledIn_of_none (he.2.2.2.1 ▸ h.new_place _)) _)
    · exact .inl ho
  | collect batchSlot p rest pass =>
    have hrecorded := hc.record pass (h.queues.occupant batchSlot p (by simp [he.1]))
    exact ⟨hrecorded.grouped, hrecorded.last⟩
  | free batchSlot p rest pass =>
    have hrecorded := hc.record pass (h.queues.occupant batchSlot p (by simp [he.1]))
    refine hrecorded.handTo rfl fun batchSlot' o ho => .inl ?_
    simp only [after, Function.update_apply] at ho
    split at ho
    · cases ho
    · exact ho
  | handOn batchSlot p rest pass queue queues first last =>
    have hocc := h.queues.occupant batchSlot p (by simp [he.1])
    have hfirst := h.backlog.place queue (by simp [he.2.2.1]) first (List.mem_of_head? he.2.2.2.1)
    have hrecorded := hc.record pass hocc
    refine hrecorded.handTo rfl fun batchSlot' o ho => ?_
    simp only [after, Function.update_apply] at ho
    split at ho
    · next hb =>
      obtain rfl := Option.some.inj ho
      refine .inr fun r hr hro => ?_
      have hr : r ∈ inSlot (t.record batchSlot p pass) batchSlot' := hr
      rw [inSlot_record, if_pos hb] at hr
      rcases List.mem_append.mp hr with hr | hr
      · exact hd.not_mem_inSlot (not_settledIn_of_backlog hfirst) _ r hr hro
      · -- the stay that leaves the slot had it, and the one that gets it was in the backlog
        have hrp := Payload.occupancy_of_request (Option.mem_toList.mp hr)
        have hplace := (h.slots.occupant_iff _ _).mp hocc
        rw [← hrp, hro, hfirst] at hplace
        cases hplace
    · exact .inl ho
  | _ => exact ⟨hc.grouped, hc.last⟩

/-! ## The first request of a stay -/

/-- A stay that has a place has received a request. -/
def PlacedReceived (t : SlotTable) : Prop :=
  ∀ o, t.place o ≠ none → t.received o ≠ []

theorem place_after (h : t.Inv cfg) {m : Move} (he : t.Enabled m) {o : Occupancy}
    (ho : (t.after m).place o ≠ none) :
    t.place o ≠ none ∨ ∃ r ∈ m.accepts, r.occupancy = o := by
  cases m with
  | openSlot target r =>
    by_cases hor : o = r.occupancy
    · exact .inr ⟨r, List.mem_singleton_self r, hor.symm⟩
    · exact .inl (by simpa [after, call, SlotTable.handTo, hor] using ho)
  | openBacklog r =>
    by_cases hor : o = r.occupancy
    · exact .inr ⟨r, List.mem_singleton_self r, hor.symm⟩
    · exact .inl (by simpa [after, hor] using ho)
  | free batchSlot p rest pass =>
    have hocc := h.queues.occupant batchSlot p (by simp [he.1])
    by_cases hop : o = p.occupancy
    · rw [hop, (h.slots.occupant_iff _ _).mp hocc]
      exact .inl (by simp)
    · exact .inl (by simpa [after, placeAfter_eq hocc, hop] using ho)
  | handOn batchSlot p rest pass queue queues first last =>
    have hocc := h.queues.occupant batchSlot p (by simp [he.1])
    by_cases hof : o = first.occupancy
    · rw [hof, h.backlog.place queue (by simp [he.2.2.1]) first (List.mem_of_head? he.2.2.2.1)]
      exact .inl (by simp)
    · by_cases hop : o = p.occupancy
      · rw [hop, (h.slots.occupant_iff _ _).mp hocc]
        exact .inl (by simp)
      · exact .inl (by simpa [after, placeAfter_eq hocc, hof, hop] using ho)
  | _ => exact .inl ho

theorem placedReceived_after (h : t.Inv cfg) (hp : t.PlacedReceived) {m : Move}
    (he : t.Enabled m) : (t.after m).PlacedReceived := by
  intro o ho
  rw [received_after]
  rcases place_after h he ho with hplace | ⟨r, hr, hro⟩
  · exact List.append_ne_nil_of_left_ne_nil (hp o hplace) _
  · exact List.append_ne_nil_of_right_ne_nil _
      (List.ne_nil_of_mem (mem_ofOccupancy.mpr ⟨hr, hro⟩))

/-- A request on its way was accepted. -/
theorem LedgerOk.accepted_of_inFlight (hl : t.LedgerOk) {d : Delivery} (hd : d ∈ t.inFlight) :
    d.request ∈ t.accepted := by
  have hway : d.request ∈ t.onTheWay d.request.occupancy :=
    mem_ofOccupancy.mpr ⟨List.mem_map_of_mem hd, rfl⟩
  have hled : d.request ∈ t.ledger d.request.occupancy := by simp [ledger, hway]
  exact (mem_ofOccupancy.mp ((hl.balanced _).subset hled)).1

end SlotTable

/-- `Enqueue` turns away a request without START for a correlation ID that it does not know. -/
theorem Scheduler.seqStart_or_knows {cfg : Config} {s s' : Scheduler} {r : Request} {now : Nat}
    {top : BatchSlot} {placement : Placement}
    (h : s.enqueue cfg r now top = some (s', placement)) :
    (∃ status, placement = .rejected status) ∨ r.header.seqStart = true ∨
      s.knows r.header.correlationId = true := by
  unfold enqueue at h
  split at h
  · next status _ =>
    cases h
    exact .inl ⟨status, rfl⟩
  · split at h
    · cases h
    · unfold enqueueLocked at h
      dsimp only at h
      split at h
      · cases h
        exact .inl ⟨_, rfl⟩
      · next hknown =>
        refine .inr ?_
        cases hstart : r.header.seqStart
        · exact .inr (by simpa [hstart] using hknown)
        · exact .inl rfl

namespace System

variable {cfg : Config} {s s' : System}

/-- The first request of every stay has the START flag. -/
def StartsFirst (s : System) : Prop :=
  ∀ o r, (s.table.received o).head? = some r → r.header.seqStart = true

/-- A stay of a correlation ID that is in one of the maps has a place. -/
theorem place_of_knows (h : s.table.Inv cfg) {c : CorrelationId} (hc : s.sched.knows c = true) :
    s.table.place ⟨c, s.table.opened c⟩ ≠ none := by
  rcases (knows_iff s c).mp hc with hslot | hbacklog
  · obtain ⟨batchSlot, hslot⟩ := Option.ne_none_iff_exists'.mp hslot
    rw [(h.slots.occupant_iff _ _).mp (h.map.occupant c batchSlot hslot)]
    simp
  · obtain ⟨queue, hbacklog⟩ := Option.ne_none_iff_exists'.mp hbacklog
    rw [h.present_place hbacklog]
    simp

theorem startsFirst_append (h : s.StartsFirst) {r : Request}
    (hr : s.table.received r.occupancy = [] → r.header.seqStart = true)
    (hacc : s'.history.accepted = s.history.accepted ++ [r]) : s'.StartsFirst := by
  intro o r' hhead
  have hreceived : s'.table.received o = s.table.received o ++ ofOccupancy o [r] := by
    show ofOccupancy o s'.history.accepted = ofOccupancy o s.history.accepted ++ _
    rw [hacc, ofOccupancy_append]
  rw [hreceived, List.head?_append] at hhead
  cases hold : s.table.received o with
  | cons r₀ rest =>
    refine h o r' ?_
    rw [hold] at hhead ⊢
    exact hhead
  | nil =>
    rw [hold] at hhead
    have hmem : r' ∈ ofOccupancy o [r] := List.mem_of_head? hhead
    obtain ⟨hmem, hro⟩ := mem_ofOccupancy.mp hmem
    obtain rfl := List.mem_singleton.mp hmem
    exact hr (hro ▸ hold)

theorem startsFirst_step (h : s.StartsFirst) (hinv : s.table.Inv cfg)
    (hp : s.table.PlacedReceived) {a : Action} (hs : s.step cfg a = some s') : s'.StartsFirst := by
  have hframe (hacc : s'.history.accepted = s.history.accepted) : s'.StartsFirst := by
    intro o r hr
    refine h o r ?_
    show (ofOccupancy o s.history.accepted).head? = some r
    rw [← hacc]
    exact hr
  cases a with
  | enqueue header now top =>
    obtain ⟨⟨sched, placement⟩, henq, hs'⟩ := Option.map_eq_some_iff.mp hs
    have hstart := Scheduler.seqStart_or_knows henq
    set r := s.history.stamp s.sched header with hstamp
    have hfirst (hne : ∀ status, placement ≠ .rejected status)
        (hacc : s'.history.accepted = s.history.accepted ++ [r]) : s'.StartsFirst := by
      refine startsFirst_append h (fun hnone => ?_) hacc
      rcases hstart with ⟨status, hrej⟩ | hseq | hknows
      · exact absurd hrej (hne status)
      · exact hseq
      · have hocc : r.occupancy = ⟨header.correlationId, s.table.opened header.correlationId⟩ :=
          (stamped_known hknows).1
        exact absurd hnone (hp _ (hocc ▸ place_of_knows hinv hknows))
    cases placement with
    | rejected status => exact hframe (hs' ▸ rfl)
    | backlog queue opens => exact hfirst (by simp) (by subst hs'; cases opens <;> rfl)
    | slot target opens => exact hfirst (by simp) (by subst hs'; cases opens <;> rfl)
  | _ => exact hframe (accepted_other (by simp) hs)

/-- What the stays of a system satisfy in every run in which every end comes last. -/
structure StaysOk (s : System) : Prop where
  contiguous : s.table.Contiguous
  placed : s.table.PlacedReceived
  starts : s.StartsFirst

theorem staysOk_of_reachableInOrder (h : ReachableInOrder cfg s) : s.StaysOk := by
  refine (ReachableWhen.invariant
    (P := fun s => s.table.Inv cfg ∧ s.table.LedgerOk ∧ s.StaysOk)
    ⟨SlotTable.inv_init cfg, SlotTable.ledgerOk_init cfg, ?_⟩ ?_ h).2.2
  · refine ⟨⟨fun _ => .nil, fun _ _ ho => ?_⟩, fun _ ho => ?_, fun _ _ hr => ?_⟩
    · cases ho
    · exact absurd rfl ho
    · cases hr
  · rintro s a s' ⟨hinv, hledger, hstays⟩ hlast hs
    obtain ⟨m, he, ht, -⟩ := step_refines hinv hs
    refine ⟨inv_step hinv hlast hs, ht ▸ SlotTable.ledgerOk_after hinv hledger he, ?_, ?_, ?_⟩
    · exact ht ▸ SlotTable.contiguous_after hinv hledger.dispatches hstays.contiguous he
    · exact ht ▸ SlotTable.placedReceived_after hinv hstays.placed he
    · exact startsFirst_step hstays.starts hinv hstays.placed hs

end System

end FinBert.Sequence
