import FinBert.Sequence.SlotTable

/-!
# The moves of the slot table keep its invariant

Results: `inv_after`, by a lemma for each move, and `inv_init`. The moves that an end
makes dangerous are `deliver` and `forceEnd`, whose side condition `Permitted` says
that nothing is on its way behind the end; for `free` and `handOn`, `Inv.end_alone`
shows that the stay leaves nothing behind.
-/

namespace FinBert.Sequence

open FinBert.Serving

namespace SlotTable

variable {cfg : Config} {t t' : SlotTable}

/-! ## Frames: what each part of the invariant reads -/

theorem SlotsOk.frame (h : t.SlotsOk cfg) (hready : t'.ready = t.ready)
    (hocc : t'.occupant = t.occupant) (hplace : t'.place = t.place)
    (hopened : t'.opened = t.opened) : t'.SlotsOk cfg := by
  constructor
  · rw [hready]; exact h.readyNodup
  · rw [hready, hocc]; exact h.ready_iff
  · rw [hocc]; exact h.hasSlot
  · rw [hocc, hplace]; exact h.occupant_iff
  · rw [hplace, hopened]; exact h.opened

theorem QueuesOk.frame (h : t.QueuesOk) (hqueue : t'.queue = t.queue)
    (hflight : t'.inFlight = t.inFlight) (hocc : t'.occupant = t.occupant)
    (hpassed : t'.passed = t.passed) : t'.QueuesOk := by
  constructor
  · rw [hqueue, hocc]; exact h.occupant
  · rw [hqueue]; exact h.endsLast
  · rw [hflight, hocc]; exact h.calls
  · rw [hflight, hqueue]; exact h.callsOpen
  · rw [hocc, hpassed, hqueue]; exact h.passed

theorem mem_update_concat {queue : BatchSlot → List Payload} {target batchSlot : BatchSlot}
    {p p' : Payload} (h : p' ∈ Function.update queue target (queue target ++ [p]) batchSlot) :
    p' ∈ queue batchSlot ∨ batchSlot = target ∧ p' = p := by
  rw [Function.update_apply] at h
  split at h
  · next hb =>
    rcases List.mem_append.mp h with hmem | hmem
    · exact .inl (hb ▸ hmem)
    · exact .inr ⟨hb, List.mem_singleton.mp hmem⟩
  · exact .inl h

/-- A payload of the stay in a slot is put behind the others in the queue of the slot. -/
theorem QueuesOk.concat (h : t.QueuesOk) {target : BatchSlot} {p : Payload}
    (hp : t.occupant target = some p.occupancy) (hopen : ∀ p' ∈ t.queue target, p'.isEnd = false)
    (hquiet : p.isEnd = true → ∀ d ∈ t'.inFlight, d.target ≠ target)
    (hqueue : t'.queue = Function.update t.queue target (t.queue target ++ [p]))
    (hpassed : t'.passed = Function.update t.passed target (t.passed target ++ [p]))
    (hflight : ∀ d ∈ t'.inFlight, d ∈ t.inFlight) (hocc : t'.occupant = t.occupant) :
    t'.QueuesOk := by
  constructor
  · intro batchSlot p' hp'
    rw [hqueue] at hp'
    rw [hocc]
    rcases mem_update_concat hp' with hmem | ⟨rfl, rfl⟩
    · exact h.occupant batchSlot p' hmem
    · exact hp
  · intro batchSlot
    rw [hqueue, Function.update_apply]
    split
    · exact EndsLast.concat _ hopen
    · exact h.endsLast batchSlot
  · intro d hd
    rw [hocc]
    exact h.calls d (hflight d hd)
  · intro d hd p' hp'
    rw [hqueue] at hp'
    rcases mem_update_concat hp' with hmem | ⟨htarget, rfl⟩
    · exact h.callsOpen d (hflight d hd) p' hmem
    · exact Bool.eq_false_iff.mpr fun hend => hquiet hend d hd htarget
  · intro batchSlot o ho
    rw [hocc] at ho
    obtain ⟨gone, hgone, hall⟩ := h.passed batchSlot o ho
    refine ⟨gone, ?_, hall⟩
    rw [hpassed, hqueue, Function.update_apply, Function.update_apply]
    split
    · next hb => rw [← hb, hgone, List.append_assoc]
    · exact hgone

/-- The stay in a slot ends while nothing is on its way to it: the queue of the slot is
replaced. -/
theorem QueuesOk.replace (h : t.QueuesOk) {batchSlot : BatchSlot} {occ : Option Occupancy}
    {queue passed : List Payload} (hquiet : ∀ d ∈ t.inFlight, d.target ≠ batchSlot)
    (hqueue : ∀ p ∈ queue, occ = some p.occupancy) (hends : EndsLast Payload.isEnd queue)
    (hpassed : occ = none ∨ passed = queue)
    (hqueue' : t'.queue = Function.update t.queue batchSlot queue)
    (hpassed' : t'.passed = Function.update t.passed batchSlot passed)
    (hflight' : t'.inFlight = t.inFlight)
    (hocc' : t'.occupant = Function.update t.occupant batchSlot occ) : t'.QueuesOk := by
  constructor
  · intro bs p hp
    rw [hqueue', Function.update_apply] at hp
    rw [hocc', Function.update_apply]
    split at hp
    · next hb => rw [if_pos hb, hqueue p hp]
    · next hb => rw [if_neg hb]; exact h.occupant bs p hp
  · intro bs
    rw [hqueue', Function.update_apply]
    split
    · exact hends
    · exact h.endsLast bs
  · intro d hd
    rw [hflight'] at hd
    rw [hocc', Function.update_of_ne (hquiet d hd)]
    exact h.calls d hd
  · intro d hd p hp
    rw [hflight'] at hd
    rw [hqueue', Function.update_of_ne (hquiet d hd)] at hp
    exact h.callsOpen d hd p hp
  · intro bs o ho
    rw [hocc', Function.update_apply] at ho
    rw [hpassed', hqueue', Function.update_apply, Function.update_apply]
    split at ho
    · next hb =>
      rw [if_pos hb, if_pos hb]
      obtain rfl := hpassed.resolve_left fun hnone => by rw [hnone] at ho; cases ho
      exact ⟨[], rfl, fun _ hmem => absurd hmem List.not_mem_nil⟩
    · next hb =>
      rw [if_neg hb, if_neg hb]
      exact h.passed bs o ho

theorem BacklogOk.frame (h : t.BacklogOk) (hqueues : t'.backlogQueues = t.backlogQueues)
    (hbacklogs : t'.backlogs = t.backlogs) (hnext : t'.nextBacklog = t.nextBacklog)
    (hplace : ∀ q ∈ t.backlogQueues, ∀ o, t.place o = some (.backlog q) →
      t'.place o = some (.backlog q))
    (hof : t'.backlogOf = t.backlogOf)
    (hopened : ∀ c q, t.backlogOf c = some q → t'.opened c = t.opened c) : t'.BacklogOk := by
  constructor
  · rw [hqueues]; exact h.nodup
  · rw [hqueues, hnext]; exact h.bound
  · rw [hqueues, hbacklogs]; exact h.nonempty
  · rw [hqueues, hbacklogs]; exact fun q hq r hr => hplace q hq _ (h.place q hq r hr)
  · rw [hqueues, hbacklogs]; exact h.same
  · rw [hqueues, hbacklogs]; exact h.label
  · rw [hqueues, hbacklogs]; exact h.endsLast
  · rw [hqueues, hbacklogs, hof]; exact h.growing
  · rw [hqueues, hof]; exact h.mem
  · rw [hbacklogs, hof]
    intro c q hc
    rw [hopened c q hc]
    exact h.present c q hc

/-! ## The stays in the backlog -/

/-- The requests of a backlog queue are those of one stay in the backlog, its END in the last
place. -/
structure StayOk (placeOf : Occupancy → Option Place) (q : Nat) (requests : List Request) :
    Prop where
  nonempty : requests ≠ []
  place : ∀ r ∈ requests, placeOf r.occupancy = some (.backlog q)
  same : ∀ r ∈ requests, ∀ r' ∈ requests, r.occupancy = r'.occupancy
  label : ∀ r ∈ requests, r.occupancy.correlationId = r.header.correlationId
  endsLast : EndsLast (fun r => r.header.seqEnd) requests

theorem BacklogOk.stay (h : t.BacklogOk) {q : Nat} (hq : q ∈ t.backlogQueues) :
    StayOk t.place q (t.backlogs q) :=
  ⟨h.nonempty q hq, h.place q hq, h.same q hq, h.label q hq, h.endsLast q hq⟩

theorem BacklogOk.of_stays (hnodup : t.backlogQueues.Nodup)
    (hbound : ∀ q ∈ t.backlogQueues, q < t.nextBacklog)
    (hstays : ∀ q ∈ t.backlogQueues, StayOk t.place q (t.backlogs q))
    (hgrowing : ∀ q ∈ t.backlogQueues, ∀ r, (t.backlogs q).getLast? = some r →
      r.header.seqEnd = false → t.backlogOf r.header.correlationId = some q)
    (hmem : ∀ c q, t.backlogOf c = some q → q ∈ t.backlogQueues)
    (hpresent : ∀ c q, t.backlogOf c = some q → ∀ r ∈ t.backlogs q,
      r.occupancy = ⟨c, t.opened c⟩ ∧ r.header.seqEnd = false) : t.BacklogOk :=
  ⟨hnodup, hbound, fun q hq => (hstays q hq).nonempty, fun q hq => (hstays q hq).place,
    fun q hq => (hstays q hq).same, fun q hq => (hstays q hq).label,
    fun q hq => (hstays q hq).endsLast, hgrowing, hmem, hpresent⟩

section
variable {placeOf placeOf' : Occupancy → Option Place} {q : Nat} {requests : List Request}
  {r : Request}

/-- The stay is still in the backlog. -/
theorem StayOk.of_place (h : StayOk placeOf q requests)
    (hplace : ∀ r ∈ requests, placeOf' r.occupancy = some (.backlog q)) :
    StayOk placeOf' q requests :=
  ⟨h.nonempty, hplace, h.same, h.label, h.endsLast⟩

/-- The stay begins. -/
theorem StayOk.singleton (hplace : placeOf r.occupancy = some (.backlog q))
    (hlabel : r.occupancy.correlationId = r.header.correlationId) : StayOk placeOf q [r] := by
  refine ⟨List.cons_ne_nil r [], ?_, ?_, ?_, EndsLast.singleton r⟩
  · intro r' hr'
    rwa [List.mem_singleton.mp hr']
  · intro r₁ hr₁ r₂ hr₂
    rw [List.mem_singleton.mp hr₁, List.mem_singleton.mp hr₂]
  · intro r' hr'
    rwa [List.mem_singleton.mp hr']

/-- The stay goes on. -/
theorem StayOk.concat (h : StayOk placeOf q requests)
    (hsame : ∀ r' ∈ requests, r'.occupancy = r.occupancy)
    (hlabel : r.occupancy.correlationId = r.header.correlationId)
    (hopen : ∀ r' ∈ requests, r'.header.seqEnd = false) :
    StayOk placeOf q (requests ++ [r]) := by
  have hall : ∀ r' ∈ requests ++ [r], r'.occupancy = r.occupancy := by
    intro r' hr'
    rcases List.mem_append.mp hr' with hr' | hr'
    · exact hsame r' hr'
    · rw [List.mem_singleton.mp hr']
  refine ⟨List.concat_ne_nil _ _, fun r' hr' => ?_,
    fun r₁ hr₁ r₂ hr₂ => (hall r₁ hr₁).trans (hall r₂ hr₂).symm, fun r' hr' => ?_,
    EndsLast.concat r hopen⟩
  · obtain ⟨r₀, hr₀⟩ := List.exists_mem_of_ne_nil _ h.nonempty
    rw [hall r' hr', ← hsame r₀ hr₀]
    exact h.place r₀ hr₀
  · rcases List.mem_append.mp hr' with hr' | hr'
    · exact h.label r' hr'
    · rwa [List.mem_singleton.mp hr']

end

/-! ## Small consequences -/

/-- A free slot has an empty queue, and nothing is on its way to it. -/
theorem Inv.free_empty (h : t.Inv cfg) {batchSlot : BatchSlot}
    (hfree : t.occupant batchSlot = none) :
    t.queue batchSlot = [] ∧ ∀ d ∈ t.inFlight, d.target ≠ batchSlot := by
  constructor
  · rw [List.eq_nil_iff_forall_not_mem]
    intro p hp
    have hsome := h.queues.occupant batchSlot p hp
    rw [hfree] at hsome
    cases hsome
  · rintro d hd rfl
    have hsome := h.queues.calls d hd
    rw [hfree] at hsome
    cases hsome

/-- A slot is the value of one entry of `sequence_to_batchslot_map_` at most. -/
theorem Inv.slotOf_injective (h : t.Inv cfg) {c c' : CorrelationId} {batchSlot : BatchSlot}
    (hc : t.slotOf c = some batchSlot) (hc' : t.slotOf c' = some batchSlot) : c = c' := by
  have hocc := h.map.occupant c batchSlot hc
  rw [h.map.occupant c' batchSlot hc'] at hocc
  simpa using (congrArg (fun o => o.map Occupancy.correlationId) hocc).symm

/-- The stay that a START begins is new. -/
theorem Inv.new_place (h : t.Inv cfg) (c : CorrelationId) : t.place ⟨c, t.opened c + 1⟩ = none := by
  cases hp : t.place ⟨c, t.opened c + 1⟩ with
  | none => rfl
  | some place =>
    exact absurd (h.slots.opened _ place hp) (Nat.not_succ_le_self _)

/-- The queue of a slot whose end is about to be collected holds nothing else, the
correlation ID of the stay no longer leads to the slot, and nothing is on its way. -/
theorem Inv.end_alone (h : t.Inv cfg) {batchSlot : BatchSlot} {p : Payload} {rest : List Payload}
    (hq : t.queue batchSlot = p :: rest) (hend : p.isEnd = true) :
    rest = [] ∧ (∀ d ∈ t.inFlight, d.target ≠ batchSlot) ∧ ∀ c, t.slotOf c ≠ some batchSlot := by
  have hmem : p ∈ t.queue batchSlot := by simp [hq]
  refine ⟨?_, ?_, ?_⟩
  · exact (hq ▸ h.queues.endsLast batchSlot).eq_nil_of_isEnd hend
  · rintro d hd rfl
    have hopen := h.queues.callsOpen d hd p hmem
    rw [hend] at hopen
    cases hopen
  · intro c hc
    have hopen := h.map.queueOpen c batchSlot hc p hmem
    rw [hend] at hopen
    cases hopen

/-- A backlog queue is the value of one entry of `sequence_to_backlog_map_` at most. -/
theorem Inv.backlogOf_injective (h : t.Inv cfg) {c c' : CorrelationId} {q : Nat}
    (hc : t.backlogOf c = some q) (hc' : t.backlogOf c' = some q) : c = c' := by
  obtain ⟨r, hr⟩ := List.exists_mem_of_ne_nil _ (h.backlog.nonempty q (h.backlog.mem c q hc))
  have hocc := (h.backlog.present c q hc r hr).1
  rw [(h.backlog.present c' q hc' r hr).1] at hocc
  exact (congrArg Occupancy.correlationId hocc).symm

theorem Inv.present_place (h : t.Inv cfg) {c : CorrelationId} {q : Nat}
    (hc : t.backlogOf c = some q) : t.place ⟨c, t.opened c⟩ = some (.backlog q) := by
  have hq := h.backlog.mem c q hc
  obtain ⟨r, hr⟩ := List.exists_mem_of_ne_nil _ (h.backlog.nonempty q hq)
  exact (h.backlog.present c q hc r hr).1 ▸ h.backlog.place q hq r hr

/-- The entry of the correlation ID is erased when the request ends its sequence. -/
theorem some_of_erased {ν : Type} {f : CorrelationId → Option ν} {r : Request}
    {c : CorrelationId} {v : ν}
    (hc : (if r.header.seqEnd then Function.update f r.header.correlationId none else f) c =
      some v) : f c = some v ∧ (c = r.header.correlationId → r.header.seqEnd = false) := by
  split at hc
  · rw [Function.update_apply] at hc
    split at hc
    · cases hc
    · next hne => exact ⟨hc, fun heq => absurd heq hne⟩
  · next hend => exact ⟨hc, fun _ => Bool.eq_false_iff.mpr hend⟩

/-! ## Requests of a stay that has a slot -/

theorem inv_call (h : t.Inv cfg) {target : BatchSlot} {r : Request}
    (hslot : t.slotOf r.header.correlationId = some target)
    (hstamp : t.Stamped r (t.opened r.header.correlationId)) : (t.call target r).Inv cfg := by
  have hocc : t.occupant target = some r.occupancy := by
    rw [hstamp.1]; exact h.map.occupant _ _ hslot
  have hsub : ∀ c batchSlot, (t.call target r).slotOf c = some batchSlot →
      t.slotOf c = some batchSlot ∧ (c = r.header.correlationId → r.header.seqEnd = false) :=
    fun _ _ => some_of_erased
  refine ⟨h.slots.frame rfl rfl rfl rfl, ?_, ?_,
    h.backlog.frame rfl rfl rfl (fun _ _ _ ho => ho) rfl fun _ _ _ => rfl⟩
  · refine ⟨h.queues.occupant, h.queues.endsLast, ?_, ?_, h.queues.passed⟩
    · intro d hd
      rcases List.mem_append.mp hd with hd | hd
      · exact h.queues.calls d hd
      · obtain rfl := List.mem_singleton.mp hd
        exact hocc
    · intro d hd
      rcases List.mem_append.mp hd with hd | hd
      · exact h.queues.callsOpen d hd
      · obtain rfl := List.mem_singleton.mp hd
        exact h.map.queueOpen _ _ hslot
  · refine ⟨fun c bs hc => h.map.occupant c bs (hsub c bs hc).1,
      fun c bs hc => h.map.queueOpen c bs (hsub c bs hc).1, ?_, ?_⟩
    · intro c batchSlot hc d hd htarget
      obtain ⟨hc, hend⟩ := hsub c batchSlot hc
      rcases List.mem_append.mp hd with hd | hd
      · exact h.map.callsOpen c batchSlot hc d hd htarget
      · obtain rfl := List.mem_singleton.mp hd
        subst htarget
        exact hend (h.slotOf_injective hc hslot)
    · intro c
      rcases h.map.exclusive c with hnone | hnone
      · refine .inl ?_
        cases hc : (t.call target r).slotOf c with
        | none => rfl
        | some batchSlot =>
          have hsome := (hsub c batchSlot hc).1
          rw [hnone] at hsome
          cases hsome
      · exact .inr hnone

/-! ## A new stay -/

/-- The request begins a stay of its correlation ID, in the place. -/
structure Opens (t t' : SlotTable) (r : Request) (place : Place) : Prop where
  stamp : t.Stamped r (t.opened r.header.correlationId + 1)
  opened : t'.opened = Function.update t.opened r.occupancy.correlationId r.occupancy.nth
  place : t'.place = Function.update t.place r.occupancy (some place)

section
variable {r : Request} {place : Place}

theorem Opens.label (h : Opens t t' r place) :
    r.occupancy.correlationId = r.header.correlationId := by rw [h.stamp.1]

theorem Opens.opened_of_ne (h : Opens t t' r place) {c : CorrelationId}
    (hc : c ≠ r.header.correlationId) : t'.opened c = t.opened c := by
  rw [h.opened, h.label, Function.update_of_ne hc]

/-- The stay is new: the others stay where they are. -/
theorem Opens.place_of_some (h : Opens t t' r place) (hinv : t.Inv cfg) {o : Occupancy}
    {place' : Place} (ho : t.place o = some place') : t'.place o = some place' := by
  have hne : o ≠ r.occupancy := by
    rintro rfl
    rw [h.stamp.1, hinv.new_place] at ho
    cases ho
  rw [h.place, Function.update_of_ne hne, ho]

theorem Opens.le_opened (h : Opens t t' r place) (hinv : t.Inv cfg) {o : Occupancy}
    {place' : Place} (ho : t'.place o = some place') : o.nth ≤ t'.opened o.correlationId := by
  rw [h.place, Function.update_apply] at ho
  rw [h.opened, Function.update_apply]
  split at ho
  · next heq => rw [heq, if_pos rfl]
  · have hle := hinv.slots.opened o place' ho
    split
    · next hcid =>
      rw [hcid, h.label] at hle
      rw [h.stamp.1]
      exact Nat.le_succ_of_le hle
    · exact hle

end

theorem inv_handTo (h : t.Inv cfg) {target : BatchSlot} {r : Request}
    (hbacklog : t.backlogOf r.header.correlationId = none) (hready : target ∈ t.ready)
    (hstamp : t.Stamped r (t.opened r.header.correlationId + 1)) :
    (t.handTo target r).Inv cfg := by
  obtain ⟨hhas, hfree⟩ := (h.slots.ready_iff target).mp hready
  obtain ⟨hempty, hquiet⟩ := h.free_empty hfree
  have hnew : t.place r.occupancy = none := hstamp.1 ▸ h.new_place _
  have hopens : Opens t (t.handTo target r) r (.slot target) := ⟨hstamp, rfl, rfl⟩
  refine ⟨?_, ?_, ?_, ?_⟩
  · refine ⟨h.slots.readyNodup.erase target, ?_, ?_, ?_, fun _ _ ho => hopens.le_opened h ho⟩
    · intro batchSlot
      simp only [handTo, h.slots.readyNodup.mem_erase_iff, h.slots.ready_iff, Function.update_apply]
      by_cases hb : batchSlot = target <;> simp [hb]
    · intro batchSlot o ho
      simp only [handTo, Function.update_apply] at ho
      split at ho
      · next hb => exact hb ▸ hhas
      · exact h.slots.hasSlot batchSlot o ho
    · intro batchSlot o
      simp only [handTo, Function.update_apply]
      have hold := h.slots.occupant_iff batchSlot o
      by_cases hb : batchSlot = target <;> by_cases ho : o = r.occupancy <;> grind
  · refine ⟨?_, h.queues.endsLast, ?_, h.queues.callsOpen, ?_⟩
    · intro batchSlot p hp
      simp only [handTo, Function.update_apply] at hp ⊢
      split
      · next hb => rw [hb, hempty] at hp; cases hp
      · exact h.queues.occupant batchSlot p hp
    · intro d hd
      simp only [handTo, Function.update_apply, if_neg (hquiet d hd)]
      exact h.queues.calls d hd
    · intro batchSlot o ho
      simp only [handTo, Function.update_apply] at ho ⊢
      split
      · next hb => exact ⟨[], by simp [hb, hempty], by simp⟩
      · next hb =>
        rw [if_neg hb] at ho
        exact h.queues.passed batchSlot o ho
  · have hcases : ∀ c batchSlot, (t.handTo target r).slotOf c = some batchSlot →
        (c = r.header.correlationId ∧ batchSlot = target) ∨
          (c ≠ r.header.correlationId ∧ batchSlot ≠ target ∧ t.slotOf c = some batchSlot) := by
      intro c batchSlot hc
      simp only [handTo, Function.update_apply] at hc
      split at hc
      · next hcc => exact .inl ⟨hcc, by simpa using hc.symm⟩
      · next hcc =>
        refine .inr ⟨hcc, ?_, hc⟩
        rintro rfl
        rw [h.map.occupant c _ hc] at hfree
        cases hfree
    refine ⟨?_, ?_, ?_, ?_⟩
    · intro c batchSlot hc
      rcases hcases c batchSlot hc with ⟨rfl, rfl⟩ | ⟨hcc, hb, hc⟩
      · simp [handTo, hstamp.1]
      · rw [hopens.opened_of_ne hcc]
        simp only [handTo, Function.update_apply, if_neg hb]
        exact h.map.occupant c batchSlot hc
    · intro c batchSlot hc
      rcases hcases c batchSlot hc with ⟨rfl, rfl⟩ | ⟨hcc, hb, hc⟩
      · simp [handTo, hempty]
      · exact h.map.queueOpen c batchSlot hc
    · intro c batchSlot hc d hd htarget
      rcases hcases c batchSlot hc with ⟨rfl, rfl⟩ | ⟨hcc, hb, hc⟩
      · exact absurd htarget (hquiet d hd)
      · exact h.map.callsOpen c batchSlot hc d hd htarget
    · intro c
      by_cases hcc : c = r.header.correlationId
      · exact .inr (hcc ▸ hbacklog)
      · simpa [handTo, hcc] using h.map.exclusive c
  · refine h.backlog.frame rfl rfl rfl (fun _ _ _ ho => hopens.place_of_some h ho) rfl ?_
    intro c q hc
    refine hopens.opened_of_ne ?_
    rintro rfl
    rw [hbacklog] at hc
    cases hc

/-! ## The backlog -/

theorem inv_continueBacklog (h : t.Inv cfg) {queue : Nat} {r : Request}
    (he : t.Enabled (.continueBacklog queue r)) :
    (t.after (.continueBacklog queue r)).Inv cfg := by
  obtain ⟨hslot, hbacklog, hstamp⟩ := he
  have hmem := h.backlog.mem _ _ hbacklog
  have hold := h.backlog.present _ _ hbacklog
  have hplace := h.present_place hbacklog
  have hsub : ∀ c q, (t.after (.continueBacklog queue r)).backlogOf c = some q →
      t.backlogOf c = some q ∧ (c = r.header.correlationId → r.header.seqEnd = false) :=
    fun _ _ => some_of_erased
  have hall : ∀ r' ∈ t.backlogs queue ++ [r],
      r'.occupancy = ⟨r.header.correlationId, t.opened r.header.correlationId⟩ := by
    intro r' hr'
    rcases List.mem_append.mp hr' with hr' | hr'
    · exact (hold r' hr').1
    · obtain rfl := List.mem_singleton.mp hr'
      exact hstamp.1
  refine ⟨h.slots.frame rfl rfl rfl rfl, h.queues.frame rfl rfl rfl rfl, ?_, ?_⟩
  · refine ⟨h.map.occupant, h.map.queueOpen, h.map.callsOpen, ?_⟩
    intro c
    rcases h.map.exclusive c with hnone | hnone
    · exact .inl hnone
    · refine .inr ?_
      cases hc : (t.after (.continueBacklog queue r)).backlogOf c with
      | none => rfl
      | some q => rw [(hsub c q hc).1] at hnone; cases hnone
  · refine .of_stays h.backlog.nodup h.backlog.bound (fun q hq => ?_) ?_ ?_ ?_
    · simp only [after, Function.update_apply]
      split
      · next hqq =>
        rw [hqq]
        refine (h.backlog.stay hmem).concat (fun r' hr' => ?_) (by rw [hstamp.1])
          fun r' hr' => (hold r' hr').2
        rw [(hold r' hr').1, hstamp.1]
      · exact h.backlog.stay hq
    · intro q hq last hlast hopen
      simp only [after, Function.update_apply] at hlast ⊢
      split at hlast
      · next hqq =>
        obtain rfl : r = last := by simpa using hlast
        simp only [hopen, Bool.false_eq_true, if_false]
        exact hqq ▸ hbacklog
      · next hqq =>
        have hgrow := h.backlog.growing q hq last hlast hopen
        split
        · rw [Function.update_apply, if_neg]
          · exact hgrow
          · intro hcc
            rw [hcc, hbacklog] at hgrow
            exact hqq (by simpa using hgrow.symm)
        · exact hgrow
    · exact fun c q hc => h.backlog.mem c q (hsub c q hc).1
    · intro c q hq r' hr'
      obtain ⟨hc, hend⟩ := hsub c q hq
      simp only [after, Function.update_apply] at hr'
      split at hr'
      · next hqq =>
        subst hqq
        obtain rfl := h.backlogOf_injective hc hbacklog
        refine ⟨hall r' hr', ?_⟩
        rcases List.mem_append.mp hr' with hr' | hr'
        · exact (hold r' hr').2
        · obtain rfl := List.mem_singleton.mp hr'
          exact hend rfl
      · exact h.backlog.present c q hc r' hr'

theorem inv_openBacklog (h : t.Inv cfg) {r : Request} (he : t.Enabled (.openBacklog r)) :
    (t.after (.openBacklog r)).Inv cfg := by
  obtain ⟨hslot, hbacklog, -, hstamp⟩ := he
  have hnew : t.place r.occupancy = none := hstamp.1 ▸ h.new_place _
  have hopens : Opens t (t.after (.openBacklog r)) r (.backlog t.nextBacklog) :=
    ⟨hstamp, rfl, rfl⟩
  have hfresh : ∀ q ∈ t.backlogQueues, q ≠ t.nextBacklog :=
    fun q hq => Nat.ne_of_lt (h.backlog.bound q hq)
  have hcases : ∀ c q, (t.after (.openBacklog r)).backlogOf c = some q →
      (c = r.header.correlationId ∧ q = t.nextBacklog ∧ r.header.seqEnd = false) ∨
        (c ≠ r.header.correlationId ∧ t.backlogOf c = some q) := by
    intro c q hc
    have hne : t.backlogOf c = some q → c ≠ r.header.correlationId := by
      rintro hc rfl
      rw [hbacklog] at hc
      cases hc
    simp only [after] at hc
    split at hc
    · exact .inr ⟨hne hc, hc⟩
    · next hend =>
      rw [Function.update_apply] at hc
      split at hc
      · next hcc => exact .inl ⟨hcc, by simpa using hc.symm, by simpa using hend⟩
      · exact .inr ⟨hne hc, hc⟩
  refine ⟨?_, h.queues.frame rfl rfl rfl rfl, ?_, ?_⟩
  · refine ⟨h.slots.readyNodup, h.slots.ready_iff, h.slots.hasSlot, ?_,
      fun _ _ ho => hopens.le_opened h ho⟩
    intro batchSlot o
    have hold := h.slots.occupant_iff batchSlot o
    simp only [after, Function.update_apply]
    by_cases ho : o = r.occupancy <;> grind
  · refine ⟨?_, h.map.queueOpen, h.map.callsOpen, ?_⟩
    · intro c batchSlot hc
      change t.slotOf c = some batchSlot at hc
      rw [hopens.opened_of_ne (by rintro rfl; rw [hslot] at hc; cases hc)]
      exact h.map.occupant c batchSlot hc
    · intro c
      by_cases hcc : c = r.header.correlationId
      · exact .inl (hcc ▸ hslot)
      · rcases h.map.exclusive c with hnone | hnone
        · exact .inl hnone
        · refine .inr ?_
          cases hc : (t.after (.openBacklog r)).backlogOf c with
          | none => rfl
          | some q =>
            rcases hcases c q hc with ⟨hc', -⟩ | ⟨-, hc'⟩
            · exact absurd hc' hcc
            · rw [hc'] at hnone; cases hnone
  · have hqueue : ∀ q ∈ (t.after (.openBacklog r)).backlogQueues,
        (q = t.nextBacklog ∧ (t.after (.openBacklog r)).backlogs q = [r]) ∨
          (q ∈ t.backlogQueues ∧ (t.after (.openBacklog r)).backlogs q = t.backlogs q) := by
      intro q hq
      rcases List.mem_append.mp hq with hq | hq
      · exact .inr ⟨hq, by simp [after, hfresh q hq]⟩
      · obtain rfl := List.mem_singleton.mp hq
        exact .inl ⟨rfl, by simp [after]⟩
    refine .of_stays ?_ ?_ (fun q hq => ?_) ?_ ?_ ?_
    · refine List.nodup_append.mpr ⟨h.backlog.nodup, by simp, ?_⟩
      intro q hq q' hq'
      rw [List.mem_singleton.mp hq']
      exact hfresh q hq
    · intro q hq
      rcases hqueue q hq with ⟨rfl, -⟩ | ⟨hq, -⟩
      · exact Nat.lt_succ_self _
      · exact Nat.lt_succ_of_lt (h.backlog.bound q hq)
    · rcases hqueue q hq with ⟨rfl, hb⟩ | ⟨hq, hb⟩
      · rw [hb]
        exact .singleton (Function.update_self ..) hopens.label
      · rw [hb]
        exact (h.backlog.stay hq).of_place fun r' hr' =>
          hopens.place_of_some h (h.backlog.place q hq r' hr')
    · intro q hq last hlast hopen
      rcases hqueue q hq with ⟨rfl, hb⟩ | ⟨hq, hb⟩
      · rw [hb] at hlast
        obtain rfl : r = last := by simpa using hlast
        simp [after, hopen]
      · rw [hb] at hlast
        have hgrow := h.backlog.growing q hq last hlast hopen
        simp only [after]
        split
        · exact hgrow
        · rw [Function.update_apply, if_neg]
          · exact hgrow
          · intro hcc
            rw [hcc, hbacklog] at hgrow
            cases hgrow
    · intro c q hc
      rcases hcases c q hc with ⟨-, rfl, -⟩ | ⟨-, hc⟩
      · simp [after]
      · exact List.mem_append_left _ (h.backlog.mem c q hc)
    · intro c q hc r' hr'
      rcases hcases c q hc with ⟨rfl, rfl, hend⟩ | ⟨hcc, hc⟩
      · obtain rfl : r' = r := by simpa [after] using hr'
        exact ⟨by simp [after, hstamp.1], hend⟩
      · rw [hopens.opened_of_ne hcc]
        have hne := hfresh q (h.backlog.mem c q hc)
        exact h.backlog.present c q hc r' (by simpa [after, hne] using hr')

/-! ## The queues of the slots -/

theorem inv_deliver (h : t.Inv cfg) {call : Nat} {d : Delivery}
    (he : t.Enabled (.deliver call d)) (hp : t.Permitted (.deliver call d)) :
    (t.after (.deliver call d)).Inv cfg := by
  have hd : d ∈ t.inFlight := List.mem_of_getElem? he
  have hsub : ∀ d' ∈ t.inFlight.eraseIdx call, d' ∈ t.inFlight :=
    fun _ hd' => List.mem_of_mem_eraseIdx hd'
  refine ⟨h.slots.frame rfl rfl rfl rfl,
    h.queues.concat (p := .request d.request) (h.queues.calls d hd) (h.queues.callsOpen d hd) hp
      rfl rfl hsub rfl,
    ⟨h.map.occupant, ?_, ?_, h.map.exclusive⟩,
    h.backlog.frame rfl rfl rfl (fun _ _ _ ho => ho) rfl fun _ _ _ => rfl⟩
  · intro c batchSlot hc p hmem
    rcases mem_update_concat hmem with hmem | ⟨rfl, rfl⟩
    · exact h.map.queueOpen c batchSlot hc p hmem
    · exact h.map.callsOpen c _ hc d hd rfl
  · exact fun c batchSlot hc d' hd' => h.map.callsOpen c batchSlot hc d' (hsub d' hd')

theorem inv_collect (h : t.Inv cfg) {batchSlot : BatchSlot} {p : Payload} {rest : List Payload}
    {pass : Nat} (he : t.Enabled (.collect batchSlot p rest pass)) :
    (t.after (.collect batchSlot p rest pass)).Inv cfg := by
  obtain ⟨hq, hend⟩ := he
  have hqueue : ∀ bs, ∀ p' ∈ (t.after (.collect batchSlot p rest pass)).queue bs,
      p' ∈ t.queue bs := by
    intro bs p' hp'
    simp only [after, Function.update_apply] at hp'
    split at hp'
    · next hb => rw [hb, hq]; exact List.mem_cons_of_mem p hp'
    · exact hp'
  refine ⟨h.slots.frame rfl rfl rfl rfl, ?_, ?_,
    h.backlog.frame rfl rfl rfl (fun _ _ _ ho => ho) rfl fun _ _ _ => rfl⟩
  · refine ⟨fun bs p' hp' => h.queues.occupant bs p' (hqueue bs p' hp'), ?_, h.queues.calls,
      fun d hd p' hp' => h.queues.callsOpen d hd p' (hqueue _ p' hp'), ?_⟩
    · intro bs
      simp only [after, Function.update_apply]
      split
      · exact (hq ▸ h.queues.endsLast batchSlot).tail
      · exact h.queues.endsLast bs
    · intro bs o ho
      obtain ⟨gone, hgone, hopen⟩ := h.queues.passed bs o ho
      simp only [after, Function.update_apply]
      split
      · next hb =>
        refine ⟨gone ++ [p], by rw [hgone, hb, hq]; simp, ?_⟩
        intro p' hp'
        rcases List.mem_append.mp hp' with hp' | hp'
        · exact hopen p' hp'
        · rw [List.mem_singleton.mp hp']; exact hend
      · exact ⟨gone, hgone, hopen⟩
  · exact ⟨h.map.occupant, fun c bs hc p' hp' => h.map.queueOpen c bs hc p' (hqueue bs p' hp'),
      h.map.callsOpen, h.map.exclusive⟩

theorem inv_forceEnd (h : t.Inv cfg) {target : BatchSlot} {c : CorrelationId}
    (he : t.Enabled (.forceEnd target c)) (hp : t.Permitted (.forceEnd target c)) :
    (t.after (.forceEnd target c)).Inv cfg := by
  have hslot : t.slotOf c = some target := he
  have hcases : ∀ c' batchSlot, (t.after (.forceEnd target c)).slotOf c' = some batchSlot →
      t.slotOf c' = some batchSlot ∧ batchSlot ≠ target := by
    intro c' batchSlot hc'
    simp only [after, Function.update_apply] at hc'
    split at hc'
    · cases hc'
    · next hne =>
      refine ⟨hc', ?_⟩
      rintro rfl
      exact hne (h.slotOf_injective hc' hslot)
  refine ⟨h.slots.frame rfl rfl rfl rfl,
    h.queues.concat (p := .forceEnd ⟨c, t.opened c⟩) (h.map.occupant c target hslot)
      (h.map.queueOpen c target hslot) (fun _ => hp) rfl rfl (fun _ hd => hd) rfl,
    ?_, h.backlog.frame rfl rfl rfl (fun _ _ _ ho => ho) rfl fun _ _ _ => rfl⟩
  refine ⟨fun c' bs hc' => h.map.occupant c' bs (hcases c' bs hc').1, ?_,
    fun c' bs hc' => h.map.callsOpen c' bs (hcases c' bs hc').1, ?_⟩
  · intro c' batchSlot hc' p hmem
    obtain ⟨hc', hne⟩ := hcases c' batchSlot hc'
    simp only [after, Function.update_apply, if_neg hne] at hmem
    exact h.map.queueOpen c' batchSlot hc' p hmem
  · intro c'
    rcases h.map.exclusive c' with hnone | hnone
    · refine .inl ?_
      simp only [after, Function.update_apply]
      split
      · rfl
      · exact hnone
    · exact .inr hnone

/-! ## The end of a stay -/

/-- What the end of the stay in `batchSlot` does to the places. -/
theorem placeAfter_eq {batchSlot : BatchSlot} {o : Occupancy} (ho : t.occupant batchSlot = some o) :
    t.placeAfter batchSlot = Function.update t.place o (some (.done batchSlot)) := by
  simp [placeAfter, ho]

theorem inv_free (h : t.Inv cfg) {batchSlot : BatchSlot} {p : Payload} {rest : List Payload}
    {pass : Nat} (he : t.Enabled (.free batchSlot p rest pass)) :
    (t.after (.free batchSlot p rest pass)).Inv cfg := by
  obtain ⟨hq, hend, hbacklog⟩ := he
  obtain ⟨rfl, hquiet, hmap⟩ := h.end_alone hq hend
  have hocc : t.occupant batchSlot = some p.occupancy :=
    h.queues.occupant batchSlot p (by simp [hq])
  have hplace := (h.slots.occupant_iff batchSlot p.occupancy).mp hocc
  have hnot : batchSlot ∉ t.ready := by
    intro hmem
    rw [((h.slots.ready_iff batchSlot).mp hmem).2] at hocc
    cases hocc
  refine ⟨?_, ?_, ?_, ?_⟩
  · refine ⟨List.nodup_cons.mpr ⟨hnot, h.slots.readyNodup⟩, ?_, ?_, ?_, ?_⟩
    · intro bs
      simp only [after, List.mem_cons, Function.update_apply]
      have hiff := h.slots.ready_iff bs
      have hhas := h.slots.hasSlot batchSlot _ hocc
      by_cases hb : bs = batchSlot <;> simp [hb, hhas, hiff]
    · intro bs o ho
      simp only [after, Function.update_apply] at ho
      split at ho
      · cases ho
      · exact h.slots.hasSlot bs o ho
    · intro bs o
      have hiff := h.slots.occupant_iff bs o
      simp only [after, placeAfter_eq hocc, Function.update_apply]
      by_cases hb : bs = batchSlot <;> by_cases ho : o = p.occupancy <;> grind
    · intro o place ho
      simp only [after, placeAfter_eq hocc, Function.update_apply] at ho
      split at ho
      · next heq => exact heq ▸ h.slots.opened _ _ hplace
      · exact h.slots.opened o place ho
  · exact h.queues.replace hquiet (fun _ hmem => absurd hmem List.not_mem_nil) EndsLast.nil
      (.inl rfl) rfl rfl rfl rfl
  · have hne : ∀ c bs, t.slotOf c = some bs → bs ≠ batchSlot :=
      fun c bs hc hb => hmap c (hb ▸ hc)
    refine ⟨?_, ?_, h.map.callsOpen, h.map.exclusive⟩
    · intro c bs hc
      simp only [after, Function.update_apply, if_neg (hne c bs hc)]
      exact h.map.occupant c bs hc
    · intro c bs hc p' hp'
      simp only [after, Function.update_apply, if_neg (hne c bs hc)] at hp'
      exact h.map.queueOpen c bs hc p' hp'
  · refine h.backlog.frame rfl rfl rfl ?_ rfl fun _ _ _ => rfl
    intro q _ o ho
    have hne : o ≠ p.occupancy := by rintro rfl; rw [hplace] at ho; cases ho
    simpa [after, placeAfter_eq hocc, hne] using ho

/-! ## Handing a slot on -/

/-- What is known before a slot is handed on to a backlog queue: nothing of the old stay is left,
and the backlog queue holds the requests of one stay, which is still growing exactly when its last
request is no END. -/
structure HandingOn (t : SlotTable) (batchSlot : BatchSlot) (p : Payload) (queue : Nat)
    (queues : List Nat) (first last : Request) : Prop where
  quiet : ∀ d ∈ t.inFlight, d.target ≠ batchSlot
  unmapped : ∀ c, t.slotOf c ≠ some batchSlot
  occupied : t.occupant batchSlot = some p.occupancy
  place : t.place p.occupancy = some (.slot batchSlot)
  queues_eq : t.backlogQueues = queue :: queues
  lastMem : last ∈ t.backlogs queue
  firstPlace : t.place first.occupancy = some (.backlog queue)
  same : ∀ r ∈ t.backlogs queue, r.occupancy = first.occupancy
  growing : last.header.seqEnd = false →
    t.backlogOf last.header.correlationId = some queue ∧
      first.occupancy = ⟨last.header.correlationId, t.opened last.header.correlationId⟩ ∧
      ∀ r ∈ t.backlogs queue, r.header.seqEnd = false

section
variable {batchSlot : BatchSlot} {p : Payload} {rest : List Payload} {pass queue : Nat}
  {queues : List Nat} {first last : Request}

theorem Inv.handingOn (h : t.Inv cfg)
    (he : t.Enabled (.handOn batchSlot p rest pass queue queues first last)) :
    t.HandingOn batchSlot p queue queues first last := by
  obtain ⟨hq, hend, hqueues, hfirst, hlast⟩ := he
  obtain ⟨-, hquiet, hmap⟩ := h.end_alone hq hend
  have hocc : t.occupant batchSlot = some p.occupancy :=
    h.queues.occupant batchSlot p (by simp [hq])
  have hmem : queue ∈ t.backlogQueues := by simp [hqueues]
  have hfirstMem : first ∈ t.backlogs queue := List.mem_of_mem_head? hfirst
  refine ⟨hquiet, hmap, hocc, (h.slots.occupant_iff batchSlot p.occupancy).mp hocc, hqueues,
    List.mem_of_getLast? hlast, h.backlog.place queue hmem first hfirstMem,
    fun r hr => h.backlog.same queue hmem r hr first hfirstMem, fun hopen => ?_⟩
  have hof := h.backlog.growing queue hmem last hlast hopen
  have hpresent := h.backlog.present _ _ hof
  exact ⟨hof, (hpresent first hfirstMem).1, fun r hr => (hpresent r hr).2⟩

namespace HandingOn

variable (hmove : t.HandingOn batchSlot p queue queues first last)

include hmove

theorem mem : queue ∈ t.backlogQueues := by simp [hmove.queues_eq]

theorem mem_of_tail {q : Nat} (hq : q ∈ queues) : q ∈ t.backlogQueues := by
  simp [hmove.queues_eq, hq]

/-- A correlation ID has the slot behind the move when its stay is handed the slot, and no other
slot than before. -/
theorem slotOf_cases {c : CorrelationId} {bs : BatchSlot}
    (hc : (t.after (.handOn batchSlot p rest pass queue queues first last)).slotOf c = some bs) :
    (c = last.header.correlationId ∧ bs = batchSlot ∧ last.header.seqEnd = false) ∨
      (t.slotOf c = some bs ∧ bs ≠ batchSlot) := by
  simp only [after] at hc
  split at hc
  · exact .inr ⟨hc, fun hb => hmove.unmapped c (hb ▸ hc)⟩
  · next hopen =>
    rw [Function.update_apply] at hc
    split at hc
    · next hcc => exact .inl ⟨hcc, by simpa using hc.symm, by simpa using hopen⟩
    · exact .inr ⟨hc, fun hb => hmove.unmapped c (hb ▸ hc)⟩

theorem backlogOf_cases (h : t.Inv cfg) {c : CorrelationId} {q : Nat}
    (hc : (t.after (.handOn batchSlot p rest pass queue queues first last)).backlogOf c =
      some q) : t.backlogOf c = some q ∧ q ≠ queue := by
  simp only [after] at hc
  split at hc
  · next hclosed =>
    refine ⟨hc, ?_⟩
    rintro rfl
    have hopen := (h.backlog.present c q hc last hmove.lastMem).2
    rw [hclosed] at hopen
    cases hopen
  · next hopen =>
    rw [Function.update_apply] at hc
    split at hc
    · cases hc
    · next hcc =>
      refine ⟨hc, ?_⟩
      rintro rfl
      exact hcc (h.backlogOf_injective hc (hmove.growing (by simpa using hopen)).1)

theorem slotsOk (h : t.Inv cfg) :
    (t.after (.handOn batchSlot p rest pass queue queues first last)).SlotsOk cfg := by
  have hocc := hmove.occupied
  have hplace := hmove.place
  have hfirstPlace := hmove.firstPlace
  have hne : first.occupancy ≠ p.occupancy := by
    intro heq
    rw [heq, hplace] at hfirstPlace
    cases hfirstPlace
  refine ⟨h.slots.readyNodup, ?_, ?_, ?_, ?_⟩
  · intro bs
    have hiff := h.slots.ready_iff bs
    simp only [after, Function.update_apply]
    by_cases hb : bs = batchSlot
    · simp [hb, h.slots.ready_iff, hocc]
    · simp [hb, hiff]
  · intro bs o ho
    simp only [after, Function.update_apply] at ho
    split at ho
    · next hb => exact hb ▸ h.slots.hasSlot batchSlot _ hocc
    · exact h.slots.hasSlot bs o ho
  · intro bs o
    have hiff := h.slots.occupant_iff bs o
    simp only [after, placeAfter_eq hocc, Function.update_apply]
    by_cases hb : bs = batchSlot <;> by_cases ho : o = first.occupancy <;>
      by_cases ho' : o = p.occupancy <;> grind
  · intro o place ho
    simp only [after, placeAfter_eq hocc, Function.update_apply] at ho
    split at ho
    · next heq => exact heq ▸ h.slots.opened _ _ hfirstPlace
    · split at ho
      · next heq => exact heq ▸ h.slots.opened _ _ hplace
      · exact h.slots.opened o place ho

theorem queuesOk (h : t.Inv cfg) :
    (t.after (.handOn batchSlot p rest pass queue queues first last)).QueuesOk := by
  refine h.queues.replace hmove.quiet (fun p' hp' => ?_)
    (EndsLast.map (h.backlog.endsLast queue hmove.mem)) (.inr rfl) rfl rfl rfl rfl
  obtain ⟨r, hr, rfl⟩ := List.mem_map.mp hp'
  exact congrArg some (hmove.same r hr).symm

theorem mapOk (h : t.Inv cfg) :
    (t.after (.handOn batchSlot p rest pass queue queues first last)).MapOk := by
  refine ⟨?_, ?_, ?_, ?_⟩
  · intro c bs hc
    rcases hmove.slotOf_cases hc with ⟨rfl, rfl, hopen⟩ | ⟨hc, hb⟩
    · simp [after, (hmove.growing hopen).2.1]
    · simp only [after, Function.update_apply, if_neg hb]
      exact h.map.occupant c bs hc
  · intro c bs hc p' hp'
    rcases hmove.slotOf_cases hc with ⟨rfl, rfl, hopen⟩ | ⟨hc, hb⟩
    · simp only [after, Function.update_self] at hp'
      obtain ⟨r, hr, rfl⟩ := List.mem_map.mp hp'
      exact (hmove.growing hopen).2.2 r hr
    · simp only [after, Function.update_apply, if_neg hb] at hp'
      exact h.map.queueOpen c bs hc p' hp'
  · intro c bs hc d hd htarget
    rcases hmove.slotOf_cases hc with ⟨rfl, rfl, hopen⟩ | ⟨hc, hb⟩
    · exact absurd htarget (hmove.quiet d hd)
    · exact h.map.callsOpen c bs hc d hd htarget
  · intro c
    refine or_iff_not_imp_left.mpr fun hs => Option.eq_none_iff_forall_ne_some.mpr fun q hb => ?_
    obtain ⟨bs, hs⟩ := Option.ne_none_iff_exists'.mp hs
    obtain ⟨hof, hqq⟩ := hmove.backlogOf_cases h hb
    rcases hmove.slotOf_cases hs with ⟨rfl, -, hopen⟩ | ⟨hc, -⟩
    · rw [(hmove.growing hopen).1] at hof
      exact hqq (Option.some.inj hof).symm
    · rcases h.map.exclusive c with hnone | hnone
      · rw [hc] at hnone
        cases hnone
      · rw [hof] at hnone
        cases hnone

theorem backlogOk (h : t.Inv cfg) :
    (t.after (.handOn batchSlot p rest pass queue queues first last)).BacklogOk := by
  have hnodup : (queue :: queues).Nodup := hmove.queues_eq ▸ h.backlog.nodup
  have hother : ∀ q ∈ queues, q ≠ queue := by
    rintro q hq rfl
    exact (List.nodup_cons.mp hnodup).1 hq
  have hbacklogs : ∀ q ∈ queues,
      (t.after (.handOn batchSlot p rest pass queue queues first last)).backlogs q =
        t.backlogs q :=
    fun q hq => Function.update_of_ne (hother q hq) _ _
  refine .of_stays (List.nodup_cons.mp hnodup).2
    (fun q hq => h.backlog.bound q (hmove.mem_of_tail hq)) (fun q hq => ?_) ?_ ?_ ?_
  · rw [hbacklogs q hq]
    refine (h.backlog.stay (hmove.mem_of_tail hq)).of_place fun r hr => ?_
    have hold := h.backlog.place q (hmove.mem_of_tail hq) r hr
    have hne₁ : r.occupancy ≠ first.occupancy := by
      intro heq
      rw [heq, hmove.firstPlace] at hold
      exact hother q hq (by simpa using hold.symm)
    have hne₂ : r.occupancy ≠ p.occupancy := by
      intro heq
      rw [heq, hmove.place] at hold
      cases hold
    simpa [after, placeAfter_eq hmove.occupied, hne₁, hne₂] using hold
  · intro q hq r hr hopen
    rw [hbacklogs q hq] at hr
    have hgrow := h.backlog.growing q (hmove.mem_of_tail hq) r hr hopen
    simp only [after]
    split
    · exact hgrow
    · next hlastOpen =>
      rw [Function.update_apply, if_neg]
      · exact hgrow
      · intro hcc
        rw [hcc, (hmove.growing (by simpa using hlastOpen)).1] at hgrow
        exact hother q hq (by simpa using hgrow.symm)
  · intro c q hc
    obtain ⟨hof, hqq⟩ := hmove.backlogOf_cases h hc
    have hin := h.backlog.mem c q hof
    rw [hmove.queues_eq] at hin
    simpa [after, hqq] using hin
  · intro c q hc r hr
    obtain ⟨hof, hqq⟩ := hmove.backlogOf_cases h hc
    simp only [after, Function.update_apply, if_neg hqq] at hr
    exact h.backlog.present c q hof r hr

end HandingOn

theorem inv_handOn (h : t.Inv cfg)
    (he : t.Enabled (.handOn batchSlot p rest pass queue queues first last)) :
    (t.after (.handOn batchSlot p rest pass queue queues first last)).Inv cfg :=
  have hmove := h.handingOn he
  ⟨hmove.slotsOk h, hmove.queuesOk h, hmove.mapOk h, hmove.backlogOk h⟩

end

/-! ## All moves -/

/-- Every permitted move keeps the invariant. -/
theorem inv_after (h : t.Inv cfg) {m : Move} (he : t.Enabled m) (hp : t.Permitted m) :
    (t.after m).Inv cfg := by
  cases m with
  | idle => exact h
  | continueSlot target r => exact inv_call h he.1 he.2
  | continueBacklog queue r => exact inv_continueBacklog h he
  | openSlot target r =>
    obtain ⟨-, hbacklog, hready, hocc, hid⟩ := he
    refine inv_call (inv_handTo h hbacklog hready ⟨hocc, hid⟩) ?_ ⟨?_, hid⟩
    · simp [handTo]
    · simp [handTo, hocc]
  | openBacklog r => exact inv_openBacklog h he
  | deliver call d => exact inv_deliver h he hp
  | collect batchSlot p rest pass => exact inv_collect h he
  | free batchSlot p rest pass => exact inv_free h he
  | handOn batchSlot p rest pass queue queues first last => exact inv_handOn h he
  | forceEnd target c => exact inv_forceEnd h he hp

/-- The table of a scheduler that has just been created. -/
theorem inv_init (cfg : Config) : (System.init cfg).table.Inv cfg := by
  have hready : ∀ batchSlot, batchSlot ∈ (System.init cfg).table.ready ↔ cfg.HasSlot batchSlot := by
    rintro ⟨b, slot⟩
    simp [System.init, System.table, Scheduler.create, Config.HasSlot]
  refine ⟨⟨?_, ?_, ?_, ?_, ?_⟩, ⟨?_, ?_, ?_, ?_, ?_⟩, ⟨?_, ?_, ?_, ?_⟩,
    ⟨?_, ?_, ?_, ?_, ?_, ?_, ?_, ?_, ?_, ?_⟩⟩
  · simp only [System.init, System.table, Scheduler.create]
    refine List.nodup_flatMap.mpr ⟨fun c _ => ?_, ?_⟩
    · exact List.nodup_range.map fun b b' hb => by simpa using hb
    · refine List.nodup_range.imp fun {c c'} hc => ?_
      simp [Function.onFun, List.disjoint_left, Ne.symm hc]
  · intro batchSlot
    rw [hready]
    simp [System.init, System.table]
  all_goals
    simp [System.init, System.table, Scheduler.create, Scheduler.queue, EndsLast.nil]

end SlotTable

end FinBert.Sequence
