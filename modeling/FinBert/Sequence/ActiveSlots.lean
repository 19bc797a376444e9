import FinBert.Sequence.Delivery
import FinBert.Sequence.Shapes

/-!
# The active slots of a batcher

`slot_correlation_ids_` has an entry that is not 0 for every slot in use, and `max_active_slot_` is
the largest such slot. `SequenceBatch::Enqueue` raises it; a pass lowers it at its end, and only
when the slot that it was has been released in the pass.

Results:
1. `idsNonzero_of_reachableInOrder`: a correlation ID in use is not 0.
2. `Marks`, `largest_of_marks`: what a step does to the entries and the maximum of a batcher.
3. `activeSlots_of_reachableAtomic`: the entries, the maximum and the queues, whenever no pass of
   the batcher is under way.
-/

namespace FinBert.Sequence

open FinBert.Serving Transition

/-! ## Correlation IDs are not 0 -/

namespace SlotTable

/-- No call, slot or backlog queue has the correlation ID 0. -/
structure IdsNonzero (t : SlotTable) : Prop where
  calls : ∀ d ∈ t.inFlight, d.request.header.correlationId ≠ 0
  slots : ∀ c batchSlot, t.slotOf c = some batchSlot → c ≠ 0
  backlogs : ∀ q, ∀ r ∈ t.backlogs q, r.header.correlationId ≠ 0

variable {t : SlotTable}

theorem slots_update_some (h : t.IdsNonzero) {c c' : CorrelationId} {target batchSlot : BatchSlot}
    (hc : c ≠ 0) (hslot : Function.update t.slotOf c (some target) c' = some batchSlot) :
    c' ≠ 0 := by
  rw [Function.update_apply] at hslot
  split at hslot
  · next heq => exact heq ▸ hc
  · exact h.slots c' batchSlot hslot

theorem slots_update_none (h : t.IdsNonzero) {c c' : CorrelationId} {batchSlot : BatchSlot}
    (hslot : Function.update t.slotOf c none c' = some batchSlot) : c' ≠ 0 := by
  rw [Function.update_apply] at hslot
  split at hslot
  · cases hslot
  · exact h.slots c' batchSlot hslot

theorem idsNonzero_call (h : t.IdsNonzero) {target : BatchSlot} {r : Request}
    (hr : r.header.correlationId ≠ 0) : (t.call target r).IdsNonzero := by
  refine ⟨fun d hd => ?_, fun c batchSlot hslot => ?_, h.backlogs⟩
  · rcases List.mem_append.mp hd with hd | hd
    · exact h.calls d hd
    · rw [List.mem_singleton.mp hd]
      exact hr
  · simp only [call] at hslot
    split at hslot
    · exact slots_update_none h hslot
    · exact h.slots c batchSlot hslot

theorem idsNonzero_after (h : t.IdsNonzero) {m : Move} (he : t.Enabled m)
    (haccepts : ∀ r ∈ m.accepts, r.header.correlationId ≠ 0) : (t.after m).IdsNonzero := by
  have hbacklogs : ∀ {queue q : Nat} {l : List Request}, (∀ r ∈ l, r.header.correlationId ≠ 0) →
      ∀ r ∈ Function.update t.backlogs queue l q, r.header.correlationId ≠ 0 := by
    intro queue q l hl r hr
    rw [Function.update_apply] at hr
    split at hr
    · exact hl r hr
    · exact h.backlogs q r hr
  cases m with
  | idle | collect | free => exact ⟨h.calls, h.slots, h.backlogs⟩
  | continueSlot target r => exact idsNonzero_call h (haccepts r List.mem_cons_self)
  | continueBacklog queue r =>
    refine ⟨h.calls, h.slots, fun q => hbacklogs fun r' hr' => ?_⟩
    rcases List.mem_append.mp hr' with hr' | hr'
    · exact h.backlogs queue r' hr'
    · exact haccepts r' hr'
  | openSlot target r =>
    have hr := haccepts r List.mem_cons_self
    exact idsNonzero_call (t := t.handTo target r)
      ⟨h.calls, fun c batchSlot hslot => slots_update_some h hr hslot, h.backlogs⟩ hr
  | openBacklog r => exact ⟨h.calls, h.slots, fun q => hbacklogs haccepts⟩
  | deliver call d =>
    exact ⟨fun d' hd' => h.calls d' (List.mem_of_mem_eraseIdx hd'), h.slots, h.backlogs⟩
  | handOn batchSlot p rest pass queue queues first last =>
    obtain ⟨-, -, -, -, hlast⟩ := he
    have hmem := h.backlogs queue last (List.mem_of_getLast? hlast)
    refine ⟨h.calls, fun c bs hslot => ?_, fun q => hbacklogs fun r hr => by cases hr⟩
    simp only [after] at hslot
    split at hslot
    · exact h.slots c bs hslot
    · exact slots_update_some h hmem hslot
  | forceEnd target c => exact ⟨h.calls, fun c' bs hslot => slots_update_none h hslot, h.backlogs⟩

end SlotTable

namespace System

variable {cfg : Config} {s s' : System}

theorem accepted_step {a : Action} (h : s.step cfg a = some s') :
    ∀ r ∈ s'.history.accepted, r ∈ s.history.accepted ∨ r.header.correlationId ≠ 0 := by
  intro r hr
  cases a with
  | enqueue header now top =>
    rcases accepted_enqueue h with heq | ⟨heq, hne⟩
    · exact .inl (heq ▸ hr)
    · rw [heq] at hr
      rcases List.mem_append.mp hr with hr | hr
      · exact .inl hr
      · rw [List.mem_singleton.mp hr]
        exact .inr hne
  | _ => exact .inl (accepted_other (by simp) h ▸ hr)

theorem accepted_ne_zero {ok : System → Action → Prop}
    (h : ReachableWhen (System.step cfg) ok (.init cfg) s) :
    ∀ r ∈ s.history.accepted, r.header.correlationId ≠ 0 := by
  refine h.invariant (P := fun s => ∀ r ∈ s.history.accepted, r.header.correlationId ≠ 0)
    (fun r hr => by cases hr) fun s a s' ih _ hs r hr => ?_
  exact (accepted_step hs r hr).elim (ih r) id

theorem idsNonzero_init (cfg : Config) : (System.init cfg).table.IdsNonzero := by
  refine ⟨fun d hd => ?_, fun c batchSlot hslot => ?_, fun q r hr => ?_⟩
  · cases hd
  · rw [table, init, Scheduler.create, UnorderedMap.find_empty] at hslot
    cases hslot
  · cases hr

/-- No correlation ID in use is 0. -/
theorem idsNonzero_of_reachableInOrder (h : ReachableInOrder cfg s) : s.table.IdsNonzero := by
  induction h with
  | start => exact idsNonzero_init cfg
  | @step s t a hreach hok hs ih =>
    obtain ⟨m, he, ht, -⟩ := step_refines (inv_of_reachableInOrder hreach) hs
    have haccepted : t.history.accepted = s.history.accepted ++ m.accepts :=
      (congrArg SlotTable.accepted ht).trans (SlotTable.accepted_after m)
    rw [ht]
    refine SlotTable.idsNonzero_after ih he fun r hr => ?_
    exact accepted_ne_zero (hreach.step hok hs) r (haccepted ▸ List.mem_append_right _ hr)

end System

/-! ## The entries and the maximum -/

/-- The pass under way has released the slot that was the maximum. -/
def SequenceBatch.adjusting (sb : SequenceBatch) : Bool :=
  (sb.pass.map CollectPass.adjustMaxActiveSlot).getD false

/-- What a step does to the entries and the maximum of a batcher. -/
inductive Marks (sb : SequenceBatch) : SequenceBatch → Prop
  | same {sb' : SequenceBatch} (ids : sb'.slotCorrelationIds = sb.slotCorrelationIds)
      (active : sb'.maxActiveSlot = sb.maxActiveSlot) (adjusting : sb'.adjusting = sb.adjusting) :
      Marks sb sb'
  | delivered {slot : Nat} {c : CorrelationId} {p : Payload} (known : c ≠ 0) :
      Marks sb (sb.enqueue slot c p)
  | freed {sb' : SequenceBatch} {slot : Nat}
      (ids : sb'.slotCorrelationIds = Function.update sb.slotCorrelationIds slot 0)
      (active : sb'.maxActiveSlot = sb.maxActiveSlot)
      (adjusting : sb'.adjusting = (sb.adjusting || (slot : Int) == sb.maxActiveSlot)) :
      Marks sb sb'
  | ended {sb' : SequenceBatch} (ids : sb'.slotCorrelationIds = sb.slotCorrelationIds)
      (active : sb'.maxActiveSlot =
        if sb.adjusting then activeSlotBelow sb.slotCorrelationIds (sb.maxActiveSlot + 1).toNat
        else sb.maxActiveSlot) (pass : sb'.pass = none) : Marks sb sb'

theorem Marks.of_eq {sb sb' : SequenceBatch} (h : sb' = sb) : Marks sb sb' := by
  subst h
  exact .same rfl rfl rfl

/-- No entry that is not 0 is above the maximum, and the maximum has one, unless the pass is going
to adjust it. -/
structure Topped (sb : SequenceBatch) : Prop where
  bound : -1 ≤ sb.maxActiveSlot
  le : ∀ slot, sb.slotCorrelationIds slot ≠ 0 → (slot : Int) ≤ sb.maxActiveSlot
  top : sb.adjusting = false → sb.maxActiveSlot = -1 ∨
    ∃ slot : Nat, sb.maxActiveSlot = slot ∧ sb.slotCorrelationIds slot ≠ 0

theorem activeSlotBelow_spec (ids : Nat → CorrelationId) (n : Nat) :
    (∀ slot < n, ids slot ≠ 0 → (slot : Int) ≤ activeSlotBelow ids n) ∧
      (activeSlotBelow ids n = -1 ∨ ∃ slot : Nat, activeSlotBelow ids n = slot ∧ ids slot ≠ 0) := by
  induction n with
  | zero => exact ⟨fun slot hlt => absurd hlt (Nat.not_lt_zero slot), .inl rfl⟩
  | succ n ih =>
    unfold activeSlotBelow
    split
    · next hzero =>
      refine ⟨fun slot hlt hne => ?_, ih.2⟩
      rcases Nat.lt_succ_iff_lt_or_eq.mp hlt with hlt | rfl
      · exact ih.1 slot hlt hne
      · exact absurd hzero hne
    · next hne =>
      exact ⟨fun slot hlt _ => Int.ofNat_le.mpr (Nat.le_of_lt_succ hlt), .inr ⟨n, rfl, hne⟩⟩

theorem topped_of_marks {sb sb' : SequenceBatch} (h : Topped sb) (hmarks : Marks sb sb') :
    Topped sb' := by
  cases hmarks with
  | same ids active adjusting =>
    refine ⟨active ▸ h.bound, ?_, ?_⟩
    · rw [ids, active]
      exact h.le
    · rw [ids, active, adjusting]
      exact h.top
  | @delivered slot c p known =>
    refine ⟨Int.le_trans h.bound (Int.le_max_left _ _), fun slot' hne => ?_, fun hadjusting => ?_⟩
    · simp only [SequenceBatch.enqueue, Function.update_apply] at hne ⊢
      split at hne
      · next heq => exact heq ▸ Int.le_max_right _ _
      · exact Int.le_trans (h.le slot' hne) (Int.le_max_left _ _)
    · simp only [SequenceBatch.enqueue, Function.update_apply]
      rcases Int.le_total sb.maxActiveSlot slot with hle | hle
      · exact .inr ⟨slot, Int.max_eq_right hle, by rwa [if_pos rfl]⟩
      · rw [Int.max_eq_left hle]
        rcases h.top hadjusting with hnone | ⟨slot', hmax, hne⟩
        · exact .inl hnone
        · refine .inr ⟨slot', hmax, ?_⟩
          split
          · exact known
          · exact hne
  | @freed _ slot ids active adjusting =>
    refine ⟨active ▸ h.bound, fun slot' hne => ?_, fun hadjusting => ?_⟩
    · rw [ids, Function.update_apply] at hne
      rw [active]
      split at hne
      · exact absurd rfl hne
      · exact h.le slot' hne
    · rw [adjusting, Bool.or_eq_false_iff, beq_eq_false_iff_ne] at hadjusting
      rw [active]
      rcases h.top hadjusting.1 with hnone | ⟨slot', hmax, hne⟩
      · exact .inl hnone
      · refine .inr ⟨slot', hmax, ?_⟩
        rw [ids, Function.update_of_ne]
        · exact hne
        · rintro rfl
          exact hadjusting.2 hmax.symm
  | ended ids active pass =>
    cases hadjusting : sb.adjusting with
    | false =>
      rw [hadjusting, if_neg Bool.false_ne_true] at active
      refine ⟨active ▸ h.bound, ?_, fun _ => ?_⟩
      · rw [ids, active]
        exact h.le
      · rw [ids, active]
        exact h.top hadjusting
    | true =>
      rw [hadjusting, if_pos rfl] at active
      obtain ⟨hbelow, htop⟩ :=
        activeSlotBelow_spec sb.slotCorrelationIds (sb.maxActiveSlot + 1).toNat
      refine ⟨?_, fun slot hne => ?_, fun _ => ?_⟩
      · rcases htop with hnone | ⟨slot, hslot, -⟩
        · exact Int.le_of_eq (active.trans hnone).symm
        · rw [active, hslot]
          exact Int.le_trans (Int.le_of_lt (Int.negSucc_lt_zero 0)) (Int.natCast_nonneg slot)
      · rw [ids] at hne
        rw [active]
        refine hbelow slot ?_ hne
        exact Int.lt_toNat.mpr (Int.lt_add_one_of_le (h.le slot hne))
      · rw [ids, active]
        exact htop

namespace System

variable {cfg : Config} {s s' : System}

theorem marks_collectSlot {b : Nat} (h : s.collectSlot cfg b = some s') :
    Marks (s.sched.batchers b) (s'.sched.batchers b) := by
  obtain ⟨⟨sched, popped, released⟩, hsched, rfl⟩ := Option.map_eq_some_iff.mp h
  obtain ⟨pass, hpass, -, hvisited⟩ := Scheduler.collectSlot_eq_some hsched
  have hadjusting : (s.sched.batchers b).adjusting = pass.adjustMaxActiveSlot := by
    rw [SequenceBatch.adjusting, hpass]
    rfl
  show Marks (s.sched.batchers b) (sched.batchers b)
  cases hvisited with
  | empty | collected | handedOn =>
    rw [Scheduler.batchers_setBatcher, if_pos rfl]
    exact .same rfl rfl hadjusting.symm
  | freed =>
    rw [Scheduler.batchers_setBatcher, if_pos rfl]
    refine .freed rfl rfl ?_
    rw [hadjusting]
    rfl

theorem marks_deliver {sched sched' : Scheduler} {target : BatchSlot} {c : CorrelationId}
    {p : Payload} (hc : c ≠ 0) (h : sched.deliver target c p = some sched') (b : Nat) :
    Marks (sched.batchers b) (sched'.batchers b) := by
  rw [(Scheduler.deliver_eq h).1, Scheduler.batchers_setBatcher]
  split
  · next hb =>
    subst hb
    exact .delivered hc
  · exact .of_eq rfl

/-- The step of the system, seen from the entries and the maximum of batcher `b`. -/
theorem marks {a : Action} (hids : s.table.IdsNonzero) (h : s.step cfg a = some s') (b : Nat) :
    Marks (s.sched.batchers b) (s'.sched.batchers b) := by
  have hother {b' : Nat} (ha : a = .delay b' ∨ a = .collectBegin b' ∨ a = .collectSlot b' ∨
      a = .collectEnd b') (hb : b ≠ b') : Marks (s.sched.batchers b) (s'.sched.batchers b) :=
    .of_eq (batchers_other ha h hb)
  cases a with
  | enqueue header now top =>
    obtain ⟨⟨sched, placement⟩, hsched, rfl⟩ := Option.map_eq_some_iff.mp h
    exact .of_eq (congrFun (batchers_enqueue hsched) b)
  | deliver call =>
    obtain ⟨d, sched, hd, hsched, rfl⟩ := deliver_eq_some h
    exact marks_deliver (hids.calls d (List.mem_of_getElem? hd)) hsched b
  | delay b' =>
    by_cases hb : b = b'
    · subst hb
      obtain ⟨sched, hsched, rfl⟩ := Option.map_eq_some_iff.mp h
      obtain ⟨-, cnts, rfl | rfl⟩ := Scheduler.delay_eq_some hsched
      · exact .of_eq rfl
      · rw [Scheduler.batchers_setBatcher, if_pos rfl]
        exact .same rfl rfl rfl
    · exact hother (.inl rfl) hb
  | collectBegin b' =>
    by_cases hb : b = b'
    · subst hb
      obtain ⟨sched, hsched, rfl⟩ := Option.map_eq_some_iff.mp h
      obtain ⟨⟨hfree, -⟩, maxSlot, -, rfl⟩ := Scheduler.collectBegin_eq_some hsched
      rw [Scheduler.batchers_setBatcher, if_pos rfl]
      refine .same rfl rfl ?_
      rw [SequenceBatch.adjusting, SequenceBatch.adjusting, hfree]
      rfl
    · exact hother (.inr (.inl rfl)) hb
  | collectSlot b' =>
    by_cases hb : b = b'
    · subst hb
      exact marks_collectSlot h
    · exact hother (.inr (.inr (.inl rfl))) hb
  | collectEnd b' =>
    by_cases hb : b = b'
    · subst hb
      obtain ⟨⟨sched, payloads⟩, hsched, rfl⟩ := Option.map_eq_some_iff.mp h
      obtain ⟨pass, hpass, -, -, rfl⟩ := Scheduler.collectEnd_eq_some hsched
      rw [Scheduler.batchers_setBatcher, if_pos rfl]
      refine .ended rfl ?_ rfl
      rw [SequenceBatch.adjusting, hpass]
      rfl
    · exact hother (.inr (.inr (.inr rfl))) hb
  | reapBegin now order =>
    obtain ⟨sched, hsched, rfl⟩ := Option.map_eq_some_iff.mp h
    obtain ⟨-, rfl⟩ := Scheduler.reapBegin_eq_some hsched
    exact .of_eq rfl
  | reapEntry =>
    obtain ⟨⟨sched, forced⟩, hentry, rfl⟩ := Option.map_eq_some_iff.mp h
    obtain ⟨-, pass, timestamps, rfl⟩ |
        ⟨target, c, pass, timestamps, -, -, hslot, hdeliver⟩ :=
      Scheduler.reapEntry_eq_some hentry
    · exact .of_eq rfl
    · exact marks_deliver (hids.slots c target hslot) hdeliver b
  | reapEnd =>
    obtain ⟨sched, hsched, rfl⟩ := Option.map_eq_some_iff.mp h
    obtain ⟨pass, -, -, rfl⟩ := Scheduler.reapEnd_eq_some hsched
    exact .of_eq rfl

theorem topped_of_reachableInOrder (h : ReachableInOrder cfg s) (b : Nat) :
    Topped (s.sched.batchers b) := by
  induction h with
  | start => exact ⟨Int.le_refl _, fun slot hne => absurd rfl hne, fun _ => .inl rfl⟩
  | step hreach _ hs ih =>
    exact topped_of_marks ih (marks (idsNonzero_of_reachableInOrder hreach) hs b)

end System

/-! ## Ready slots -/

/-- The entry of a slot in `slot_correlation_ids_`. -/
def Scheduler.entry (s : Scheduler) (batchSlot : BatchSlot) : CorrelationId :=
  (s.batchers batchSlot.batcherIdx).slotCorrelationIds batchSlot.slot

namespace Scheduler

variable {s : Scheduler} {b : Nat} {sb : SequenceBatch}

theorem entry_setBatcher_same (h : sb.slotCorrelationIds = (s.batchers b).slotCorrelationIds) :
    (s.setBatcher b sb).entry = s.entry := by
  funext batchSlot
  simp only [entry, batchers_setBatcher]
  split
  · next hb => rw [h, hb]
  · rfl

theorem entry_of_sameSequences {s s' : Scheduler} (hsame : s.SameSequences s') :
    s'.entry = s.entry := by
  funext batchSlot
  rw [entry, entry, hsame.slotIds]

theorem entry_setBatcher_update (slot : Nat) (c : CorrelationId)
    (h : sb.slotCorrelationIds = Function.update (s.batchers b).slotCorrelationIds slot c) :
    (s.setBatcher b sb).entry = Function.update s.entry ⟨b, slot⟩ c := by
  funext ⟨b', slot'⟩
  simp only [entry, batchers_setBatcher, Function.update_apply, BatchSlot.mk.injEq]
  by_cases hb : b' = b
  · subst hb
    simp only [if_true, true_and, h, Function.update_apply]
  · simp [hb]

theorem entry_deliver {s' : Scheduler} {target : BatchSlot} {c : CorrelationId} {p : Payload}
    (h : s.deliver target c p = some s') : s'.entry = Function.update s.entry target c := by
  rw [(deliver_eq h).1]
  exact entry_setBatcher_update target.slot c rfl

end Scheduler

/-- `ReleaseBatchSlot` makes the slot ready or hands it on, and says which. -/
theorem Scheduler.ready_of_releaseBatchSlot {cfg : Config} {s s' : Scheduler}
    {batchSlot : BatchSlot} {payloads queue : List Payload} {release : Scheduler.Release}
    (h : s.releaseBatchSlot cfg batchSlot payloads = (s', queue, release)) :
    s'.readyBatchSlots =
      if release = .freed then batchSlot :: s.readyBatchSlots else s.readyBatchSlots := by
  unfold releaseBatchSlot at h
  split at h
  · cases h
    rfl
  · dsimp only at h
    split at h
    · cases h
      rfl
    · split at h
      · cases h
        rfl
      · cases h
        dsimp only
        split <;> rfl

/-- A free slot stays free, or a call is on its way to it. -/
theorem SlotTable.ready_after {t : SlotTable} {batchSlot : BatchSlot} (hmem : batchSlot ∈ t.ready)
    (m : Move) : batchSlot ∈ (t.after m).ready ∨
      ∃ d ∈ (t.after m).inFlight, d.target = batchSlot := by
  cases m with
  | openSlot target r =>
    by_cases hb : batchSlot = target
    · exact .inr ⟨⟨target, r⟩, List.mem_append_right _ List.mem_cons_self, hb.symm⟩
    · exact .inl ((List.mem_erase_of_ne hb).mpr hmem)
  | free => exact .inl (List.mem_cons_of_mem _ hmem)
  | _ => exact .inl hmem

namespace System

variable {cfg : Config} {s s' : System}

/-- A ready slot has the entry 0, and a slot with the entry 0 is ready or a call is on its way to
it. -/
structure EntriesOk (cfg : Config) (s : System) : Prop where
  ready : ∀ batchSlot ∈ s.sched.readyBatchSlots, s.sched.entry batchSlot = 0
  zero : ∀ batchSlot, cfg.HasSlot batchSlot → s.sched.entry batchSlot = 0 →
    batchSlot ∈ s.sched.readyBatchSlots ∨ ∃ d ∈ s.inFlight, d.target = batchSlot

theorem EntriesOk.of_same (h : s.EntriesOk cfg) (hentry : s'.sched.entry = s.sched.entry)
    (hready : s'.sched.readyBatchSlots = s.sched.readyBatchSlots)
    (hflight : s'.inFlight = s.inFlight) : s'.EntriesOk cfg := by
  constructor
  · rw [hentry, hready]
    exact h.ready
  · rw [hentry, hready, hflight]
    exact h.zero

theorem EntriesOk.enqueue (h : s.EntriesOk cfg) {header : InferRequestHeader} {now : Nat}
    {top : BatchSlot} (hs : s.enqueue cfg header now top = some s') : s'.EntriesOk cfg := by
  obtain ⟨m, -, ht, -⟩ := enqueue_refines hs
  have hflight := inFlight_enqueue hs
  obtain ⟨⟨sched, placement⟩, hsched, rfl⟩ := Option.map_eq_some_iff.mp hs
  have hentry : sched.entry = s.sched.entry := by
    unfold Scheduler.entry
    rw [batchers_enqueue hsched]
  refine ⟨fun batchSlot hmem => ?_, fun batchSlot hhas hzero => ?_⟩
  · rw [hentry]
    exact h.ready batchSlot ((Scheduler.assigns_enqueue hsched).ready batchSlot hmem)
  · rw [hentry] at hzero
    rcases h.zero batchSlot hhas hzero with hmem | ⟨d, hd, htarget⟩
    · have hkept := SlotTable.ready_after (t := s.table) hmem m
      rw [← ht] at hkept
      exact hkept
    · refine .inr ⟨d, ?_, htarget⟩
      rcases hflight with heq | ⟨target, heq⟩
      · rw [heq]
        exact hd
      · rw [heq]
        exact List.mem_append_left _ hd

/-- A payload with a correlation ID is put in the queue of a slot that is not ready. -/
theorem EntriesOk.mark (h : s.EntriesOk cfg) {target : BatchSlot} {c : CorrelationId} (hc : c ≠ 0)
    (htarget : target ∉ s.sched.readyBatchSlots)
    (hentry : s'.sched.entry = Function.update s.sched.entry target c)
    (hready : s'.sched.readyBatchSlots = s.sched.readyBatchSlots)
    (hflight : ∀ d ∈ s.inFlight, d.target ≠ target → d ∈ s'.inFlight) : s'.EntriesOk cfg := by
  refine ⟨fun batchSlot hmem => ?_, fun batchSlot hhas hzero => ?_⟩
  · rw [hready] at hmem
    rw [hentry, Function.update_of_ne (ne_of_mem_of_not_mem hmem htarget)]
    exact h.ready batchSlot hmem
  · rw [hentry, Function.update_apply] at hzero
    split at hzero
    · exact absurd hzero hc
    · next hne =>
      rw [hready]
      refine (h.zero batchSlot hhas hzero).imp_right fun ⟨d, hd, heq⟩ => ?_
      exact ⟨d, hflight d hd (heq ▸ hne), heq⟩

/-- A slot is freed. -/
theorem EntriesOk.freed (h : s.EntriesOk cfg) (target : BatchSlot)
    (hentry : s'.sched.entry = Function.update s.sched.entry target 0)
    (hready : s'.sched.readyBatchSlots = target :: s.sched.readyBatchSlots)
    (hflight : s'.inFlight = s.inFlight) : s'.EntriesOk cfg := by
  refine ⟨fun batchSlot hmem => ?_, fun batchSlot hhas hzero => ?_⟩
  · rw [hentry, Function.update_apply]
    split
    · rfl
    · next hne =>
      rw [hready] at hmem
      exact h.ready batchSlot ((List.mem_cons.mp hmem).resolve_left hne)
  · rw [hready, hflight]
    rw [hentry, Function.update_apply] at hzero
    split at hzero
    · next heq => exact .inl (heq ▸ List.mem_cons_self)
    · exact (h.zero batchSlot hhas hzero).imp_left (List.mem_cons_of_mem _)

theorem notMem_ready_of_occupant (hinv : s.table.Inv cfg) {target : BatchSlot} {o : Occupancy}
    (hocc : s.history.occupant target = some o) : target ∉ s.sched.readyBatchSlots := by
  intro hmem
  have hnone : s.history.occupant target = none := ((hinv.slots.ready_iff target).mp hmem).2
  rw [hnone] at hocc
  cases hocc

theorem EntriesOk.collectSlot (h : s.EntriesOk cfg) {b : Nat} (hs : s.collectSlot cfg b = some s') :
    s'.EntriesOk cfg := by
  obtain ⟨⟨sched, popped, released⟩, hsched, rfl⟩ := Option.map_eq_some_iff.mp hs
  obtain ⟨pass, -, -, hvisited⟩ := Scheduler.collectSlot_eq_some hsched
  cases hvisited with
  | empty | collected => exact h.of_same (Scheduler.entry_setBatcher_same rfl) rfl rfl
  | handedOn hqueue hends hfree hlog hrelease =>
    have hbatchers := (Scheduler.released_of_releaseBatchSlot hrelease).batchers
    refine h.of_same ?_ (Scheduler.ready_of_releaseBatchSlot hrelease) rfl
    refine (Scheduler.entry_setBatcher_same ?_).trans ?_
    · rw [hbatchers]
    · unfold Scheduler.entry
      rw [hbatchers]
  | freed hqueue hends hfree hlog hrelease =>
    have hbatchers := (Scheduler.released_of_releaseBatchSlot hrelease).batchers
    refine h.freed ⟨b, pass.slot⟩ ?_ (Scheduler.ready_of_releaseBatchSlot hrelease) rfl
    refine (Scheduler.entry_setBatcher_update pass.slot 0 ?_).trans ?_
    · rw [hbatchers]
    · unfold Scheduler.entry
      rw [hbatchers]

theorem entriesOk_step (hinv : s.table.Inv cfg) (hids : s.table.IdsNonzero) (h : s.EntriesOk cfg)
    {a : Action} (hs : s.step cfg a = some s') : s'.EntriesOk cfg := by
  cases a with
  | enqueue header now top => exact h.enqueue hs
  | deliver call =>
    obtain ⟨d, sched, hd, hsched, rfl⟩ := deliver_eq_some hs
    have hmem := List.mem_of_getElem? hd
    refine h.mark (hids.calls d hmem)
      (notMem_ready_of_occupant hinv (hinv.queues.calls d hmem)) (Scheduler.entry_deliver hsched)
      ?_ fun d' hd' hne => ?_
    · rw [(Scheduler.deliver_eq hsched).1]
      rfl
    · obtain ⟨i, hi⟩ := List.mem_iff_getElem?.mp hd'
      refine List.mem_eraseIdx_iff_getElem?.mpr ⟨i, ?_, hi⟩
      rintro rfl
      rw [hd] at hi
      exact hne (congrArg Delivery.target (Option.some.inj hi).symm)
  | collectSlot b => exact h.collectSlot hs
  | reapEntry =>
    obtain ⟨⟨sched, forced⟩, hentry, rfl⟩ := Option.map_eq_some_iff.mp hs
    obtain ⟨-, pass, timestamps, rfl⟩ |
        ⟨target, c, pass, timestamps, -, -, hslot, hdeliver⟩ :=
      Scheduler.reapEntry_eq_some hentry
    · exact h.of_same rfl rfl rfl
    · have hput := Scheduler.entry_deliver hdeliver
      refine h.mark (hids.slots c target hslot)
        (notMem_ready_of_occupant hinv (hinv.map.occupant c target hslot)) hput ?_ fun _ hd _ => hd
      rw [(Scheduler.deliver_eq hdeliver).1]
      rfl
  | delay | collectBegin | collectEnd | reapBegin | reapEnd =>
    have hsame := sameSequences_of_quiet rfl hs
    exact h.of_same (Scheduler.entry_of_sameSequences hsame) hsame.ready
      (inFlight_step (by simp) (by simp) hs)

theorem entriesOk_of_reachableInOrder (h : ReachableInOrder cfg s) : s.EntriesOk cfg := by
  induction h with
  | start =>
    refine ⟨fun _ _ => rfl, fun batchSlot hhas _ => .inl ?_⟩
    exact ((SlotTable.inv_init cfg).slots.ready_iff batchSlot).mpr ⟨hhas, rfl⟩
  | step hreach _ hs ih =>
    exact entriesOk_step (inv_of_reachableInOrder hreach) (idsNonzero_of_reachableInOrder hreach)
      ih hs

/-! ## The active slots -/

/-- `slot` is the largest slot of the batcher whose entry is not 0, or -1. -/
def IsLargestActive (cfg : Config) (s : System) (b : Nat) (slot : Int) : Prop :=
  (slot = -1 ∧ ∀ other < cfg.batchSize, s.sched.entry ⟨b, other⟩ = 0) ∨
    ∃ active < cfg.batchSize, slot = (active : Int) ∧ s.sched.entry ⟨b, active⟩ ≠ 0 ∧
      ∀ other < cfg.batchSize, s.sched.entry ⟨b, other⟩ ≠ 0 → other ≤ active

/-- The bookkeeping of the active slots of batcher `b`; the maximum is adjusted at the end of a
pass. -/
structure ActiveSlots (cfg : Config) (s : System) (b : Nat) : Prop where
  largest : (s.sched.batchers b).pass = none →
    s.IsLargestActive cfg b (s.sched.batchers b).maxActiveSlot
  entry_iff : ∀ slot < cfg.batchSize,
    s.sched.entry ⟨b, slot⟩ ≠ 0 ↔ (⟨b, slot⟩ : BatchSlot) ∉ s.sched.readyBatchSlots
  queued : ∀ slot, s.sched.queue ⟨b, slot⟩ ≠ [] → (slot : Int) ≤ (s.sched.batchers b).maxActiveSlot

theorem isLargestActive_of_topped {b : Nat} (h : Topped (s.sched.batchers b))
    (hpass : (s.sched.batchers b).pass = none)
    (hbound : (s.sched.batchers b).maxActiveSlot < cfg.batchSize) :
    s.IsLargestActive cfg b (s.sched.batchers b).maxActiveSlot := by
  have hadjusting : (s.sched.batchers b).adjusting = false := by
    rw [SequenceBatch.adjusting, hpass]
    rfl
  rcases h.top hadjusting with hnone | ⟨active, hmax, hne⟩
  · refine .inl ⟨hnone, fun other _ => ?_⟩
    by_contra hne
    have hle := h.le other hne
    rw [hnone] at hle
    exact absurd hle (Int.not_le.mpr (Int.lt_of_lt_of_le (Int.negSucc_lt_zero 0)
      (Int.natCast_nonneg other)))
  · rw [hmax] at hbound ⊢
    refine .inr ⟨active, Int.ofNat_lt.mp hbound, rfl, hne, fun other _ hother => ?_⟩
    exact Int.ofNat_le.mp (hmax ▸ h.le other hother)

/-- With atomic `Enqueue` calls the active slots of every batcher are known. -/
theorem activeSlots_of_reachableAtomic (cfg : Config) (s : System) (h : ReachableAtomic cfg s)
    (b : Nat) (hb : b < cfg.runnerCnt) : s.ActiveSlots cfg b := by
  obtain ⟨hrun, hquiet⟩ := atomic_run h
  have hreach := hrun.inOrder
  have hentries := entriesOk_of_reachableInOrder hreach
  have hinv := inv_of_reachableInOrder hreach
  have htopped := topped_of_reachableInOrder hreach b
  have hbound := maxActiveSlot_of_reachable hreach b
  refine ⟨fun hpass => isLargestActive_of_topped htopped hpass hbound,
    fun slot hslot => ⟨fun hne hmem => hne (hentries.ready _ hmem), fun hmem hzero => ?_⟩,
    fun slot hne => ?_⟩
  · rcases hentries.zero ⟨b, slot⟩ ⟨hb, hslot⟩ hzero with hready | ⟨d, hd, -⟩
    · exact hmem hready
    · rw [hquiet] at hd
      cases hd
  · obtain ⟨p, hp⟩ := List.exists_mem_of_ne_nil _ hne
    have hocc := hinv.queues.occupant ⟨b, slot⟩ p hp
    refine htopped.le slot fun hzero => ?_
    rcases hentries.zero ⟨b, slot⟩ (hinv.slots.hasSlot _ _ hocc) hzero with hready | ⟨d, hd, -⟩
    · exact notMem_ready_of_occupant hinv hocc hready
    · rw [hquiet] at hd
      cases hd

/-- Two sequences begin, and the second one ends at once: a pass frees slot 1, which was the largest
active slot. -/
def secondEnds : List Action :=
  [.enqueue (headerOf 1 1) 0 ⟨0, 0⟩, .enqueue (headerOf 2 3) 0 ⟨0, 1⟩] ++ bothSlots

theorem activeSlots_secondEnds :
    ∃ s, ReachableAtomic twoSlots s ∧ (s.sched.batchers 0).maxActiveSlot = 0 ∧
      s.sched.readyBatchSlots = [⟨0, 1⟩] ∧ s.ActiveSlots twoSlots 0 := by
  have hrun : (runWhen (System.atomicStep twoSlots) (fun _ _ => True) (.init twoSlots)
      secondEnds).map (fun s => (s.sched.batchers 0).maxActiveSlot == 0 &&
        s.sched.readyBatchSlots == [⟨0, 1⟩]) = some true := by decide
  obtain ⟨s, hreach, hs⟩ := exists_of_runWhen hrun
  simp only [Bool.and_eq_true, beq_iff_eq] at hs
  exact ⟨s, hreach, hs.1, hs.2, activeSlots_of_reachableAtomic twoSlots s hreach 0 (by decide)⟩

end System

end FinBert.Sequence
