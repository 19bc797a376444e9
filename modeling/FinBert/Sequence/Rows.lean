import FinBert.Sequence.Stays

/-!
# The rows of the batches

The payload at an index of a batch is the one of the slot with that number, so that a backend that
keeps a state for every index keeps one for every slot. `Rows` reads the batches of a batcher slot
by slot.

Results:
1. `rowsOk_of_reachableInOrder`: the requests at an index are those dispatched in the slot.
2. `headersOk_of_reachableInOrder`: a payload without a request has the header of some request.
3. `foldl_rowAt`: what a backend keeps for an index depends on one stay only.
-/

namespace FinBert.Sequence

open FinBert.Serving Transition

namespace Scheduler

/-- The visit of a slot adds the payload of the slot. -/
theorem Visited.payloads {cfg : Config} {s s' : Scheduler} {b : Nat} {pass : CollectPass}
    {popped : Option Payload} {released : Option Release}
    (h : Visited cfg s b pass s' popped released) :
    ∃ next, (s'.batchers b).pass = some next ∧ next.slot = pass.slot + 1 ∧
      next.maxSlot = pass.maxSlot ∧
      next.payloads = pass.payloads ++ [batchEntry (s.batchers b).nullRequestHeader popped] := by
  have hset (s₁ : Scheduler) (sb : SequenceBatch) :
      ((s₁.setBatcher b sb).batchers b).pass = sb.pass := by
    rw [batchers_setBatcher, if_pos rfl]
  cases h with
  | empty hempty =>
    refine ⟨_, hset _ _, rfl, rfl, ?_⟩
    simp only [nextPass, hempty, List.head?_nil]
  | collected hqueue | handedOn hqueue | freed hqueue =>
    refine ⟨_, hset _ _, rfl, rfl, ?_⟩
    simp only [nextPass, hqueue, List.head?_cons]

end Scheduler

/-- The request at an index of a batch. -/
def rowAt (slot : Nat) (payloads : List BatchEntry) : Option Request :=
  payloads[slot]?.bind BatchEntry.request?

theorem rowAt_concat (slot : Nat) (payloads : List BatchEntry) (e : BatchEntry) :
    rowAt slot (payloads ++ [e]) =
      if slot = payloads.length then e.request? else rowAt slot payloads := by
  unfold rowAt
  rw [List.getElem?_append]
  split
  · next hlt => rw [if_neg (Nat.ne_of_lt hlt)]
  · next hle =>
    split
    · next heq => rw [heq, Nat.sub_self]; rfl
    · next hne =>
      have hlt : payloads.length < slot := Nat.lt_of_le_of_ne (Nat.le_of_not_lt hle) (Ne.symm hne)
      rw [List.getElem?_eq_none (Nat.le_of_lt hlt), List.getElem?_eq_none]
      exact Nat.sub_pos_of_lt hlt

namespace System

variable {cfg : Config} {s s' : System}

/-- The batches of the thread of batcher `b` that were executed. -/
def executedBatches (s : System) (b : Nat) : List (List BatchEntry) :=
  (s.history.executed.filter fun e => e.batcherIdx = b).map (·.payloads)

/-- Those, and the one of an open pass. -/
def batches (s : System) (b : Nat) : List (List BatchEntry) :=
  s.executedBatches b ++ ((s.openPass b).map (·.payloads)).toList

/-! ## What a step does to the batches -/

theorem batches_frame (hpass : ∀ b, s'.openPass b = s.openPass b)
    (hexec : s'.history.executed = s.history.executed) (b : Nat) :
    s'.batches b = s.batches b := by
  unfold batches executedBatches
  rw [hexec, hpass]

/-- A pass begins with an empty batch. -/
theorem collectBegin_spec {b : Nat} (hs : s.collectBegin b = some s') :
    s'.history.dispatched = s.history.dispatched ∧
      (∀ b', s'.batches b' = s.batches b' ++ if b' = b then [[]] else []) ∧
      ∃ maxSlot, maxSlotBelow (s.sched.batchers b).queues
          ((s.sched.batchers b).maxActiveSlot + 1).toNat = some maxSlot ∧
        ∀ b', s'.openPass b' =
          if b' = b then some ⟨0, maxSlot, [], false⟩ else s.openPass b' := by
  obtain ⟨sched, hsched, hs'⟩ := Option.map_eq_some_iff.mp hs
  obtain ⟨⟨hclosed, -⟩, maxSlot, hmax, hbegin⟩ := Scheduler.collectBegin_eq_some hsched
  have hopen (b' : Nat) : s'.openPass b' =
      if b' = b then some ⟨0, maxSlot, [], false⟩ else s.openPass b' := by
    rw [← hs', hbegin]
    show ((s.sched.setBatcher b _).batchers b').pass = _
    rw [Scheduler.batchers_setBatcher]
    split <;> rfl
  have hexec : s'.history.executed = s.history.executed := hs' ▸ rfl
  refine ⟨hs' ▸ rfl, fun b' => ?_, maxSlot, hmax, hopen⟩
  have hnone : s.openPass b = none := hclosed
  unfold batches executedBatches
  rw [hexec, hopen]
  split
  · next hb =>
    rw [hb, hnone]
    exact congrArg (· ++ [[]]) (List.append_nil _).symm
  · exact (List.append_nil _).symm

/-- The batch of the pass is executed. -/
theorem collectEnd_spec {b : Nat} (hs : s.collectEnd b = some s') :
    s'.history.dispatched = s.history.dispatched ∧ (∀ b', s'.batches b' = s.batches b') ∧
      ∀ b', s'.openPass b' = if b' = b then none else s.openPass b' := by
  obtain ⟨⟨sched, payloads⟩, hsched, hs'⟩ := Option.map_eq_some_iff.mp hs
  obtain ⟨pass, hpass, -, hpayloads, hend⟩ := Scheduler.collectEnd_eq_some hsched
  have hopen (b' : Nat) : s'.openPass b' = if b' = b then none else s.openPass b' := by
    rw [← hs']
    show (sched.batchers b').pass = _
    rw [hend, Scheduler.batchers_setBatcher]
    split <;> rfl
  have hexec : s'.history.executed = s.history.executed ++ [⟨b, s.history.passes b, payloads⟩] :=
    hs' ▸ rfl
  refine ⟨hs' ▸ rfl, fun b' => ?_, hopen⟩
  have hsome : s.openPass b = some pass := hpass
  unfold batches executedBatches
  rw [hexec, hopen, hpayloads, List.filter_append, List.map_append]
  by_cases hb : b' = b
  · rw [if_pos hb, hb, hsome, List.filter_cons_of_pos (by simp)]
    exact List.append_nil _
  · rw [if_neg hb, List.filter_cons_of_neg (by simpa using Ne.symm hb)]
    exact congrArg (· ++ _) (List.append_nil _)

/-- The visit of a slot: the batch of the pass gets the payload of the slot, and what was popped
is dispatched there. -/
structure SlotVisited (s s' : System) (b : Nat) (pass next : CollectPass)
    (popped : Option Payload) : Prop where
  before : s.batches b = s.executedBatches b ++ [pass.payloads]
  after : s'.batches b = s.executedBatches b ++ [next.payloads]
  others : ∀ b', b' ≠ b → s'.batches b' = s.batches b'
  payloads : next.payloads =
    pass.payloads ++ [Scheduler.batchEntry (s.sched.batchers b).nullRequestHeader popped]
  more : pass.slot ≤ pass.maxSlot
  slot : next.slot = pass.slot + 1
  maxSlot : next.maxSlot = pass.maxSlot
  isOpen : s.openPass b = some pass
  staysOpen : ∀ b', s'.openPass b' = if b' = b then some next else s.openPass b'
  dispatched : ∀ batchSlot, inSlot s'.history.dispatched batchSlot =
    inSlot s.history.dispatched batchSlot ++
      if batchSlot = ⟨b, pass.slot⟩ then (popped.bind Payload.request?).toList else []

theorem slotVisited_of_collectSlot {b : Nat} (hs : s.collectSlot cfg b = some s') :
    ∃ pass next popped, SlotVisited s s' b pass next popped := by
  obtain ⟨⟨sched, popped, released⟩, hslot, hs'⟩ := Option.map_eq_some_iff.mp hs
  obtain ⟨pass, hpass, hmore, hvisited⟩ := Scheduler.collectSlot_eq_some hslot
  obtain ⟨next, hnext, hadvance, hmax, hpayloads⟩ := hvisited.payloads
  obtain ⟨-, -, -, -, hothers, -⟩ := collected_of_collectSlot hslot
  have hsome : s.openPass b = some pass := hpass
  have hvisit : s.visiting b = ⟨b, pass.slot⟩ := by simp [visiting, hpass]
  obtain ⟨added, hadded, hrequests, hkeys⟩ :=
    dispatched_dispatch s.history s.sched (s.visiting b) popped
  obtain ⟨-, hexec₁⟩ := dispatch_frame s.history s.sched (s.visiting b) popped
  obtain ⟨-, hexec₂, hdisp₂⟩ := release_frame
    (s.history.dispatch s.sched (s.visiting b) popped) s.sched (s.visiting b) released
  have hdisp : s'.history.dispatched = s.history.dispatched ++ added :=
    hs' ▸ hdisp₂.trans hadded
  have hexec : s'.history.executed = s.history.executed := hs' ▸ hexec₂.trans hexec₁
  have hsched : s'.sched = sched := hs' ▸ rfl
  have hopen (b' : Nat) : s'.openPass b' = if b' = b then some next else s.openPass b' := by
    unfold openPass
    rw [hsched]
    split
    · next hb => exact hb ▸ hnext
    · next hb => exact congrArg (·.pass) (hothers b' hb)
  refine ⟨pass, next, popped, ?_, ?_, fun b' hb => ?_, hpayloads, hmore, hadvance, hmax, hsome,
    hopen, fun batchSlot => ?_⟩
  · unfold batches
    rw [hsome]
    rfl
  · unfold batches executedBatches
    rw [hexec, hopen, if_pos rfl]
    rfl
  · unfold batches executedBatches
    rw [hexec, hopen, if_neg hb]
  · unfold inSlot
    rw [hdisp, List.filter_append, List.map_append]
    refine congrArg _ ?_
    split
    · next heq =>
      rw [← hrequests, List.filter_eq_self.mpr]
      intro d hd
      rw [(hkeys d hd).1, hvisit, heq]
      exact decide_eq_true rfl
    · next hne =>
      rw [List.filter_eq_nil_iff.mpr, List.map_nil]
      intro d hd
      rw [(hkeys d hd).1, hvisit, decide_eq_true_eq]
      exact Ne.symm hne

/-! ## Slots and indices -/

/-- The batches, slot by slot. -/
structure RowsOk (cfg : Config) (s : System) : Prop where
  rows : ∀ b slot, inSlot s.history.dispatched ⟨b, slot⟩ = (s.batches b).filterMap (rowAt slot)
  bound : ∀ b, ∀ payloads ∈ s.batches b, payloads.length ≤ cfg.batchSize
  opened : ∀ b pass, s.openPass b = some pass →
    pass.payloads.length = pass.slot ∧ pass.slot ≤ pass.maxSlot + 1 ∧ pass.maxSlot < cfg.batchSize

theorem rowsOk_init (cfg : Config) : RowsOk cfg (.init cfg) := by
  refine ⟨fun b slot => rfl, fun b => ?_, fun b pass hpass => ?_⟩
  · exact List.forall_mem_nil _
  · cases hpass

theorem RowsOk.frame (h : RowsOk cfg s) (hpass : ∀ b, s'.openPass b = s.openPass b)
    (hdisp : s'.history.dispatched = s.history.dispatched)
    (hexec : s'.history.executed = s.history.executed) : RowsOk cfg s' := by
  refine ⟨fun b slot => ?_, fun b => ?_, fun b => ?_⟩
  · rw [hdisp, batches_frame hpass hexec]
    exact h.rows b slot
  · rw [batches_frame hpass hexec]
    exact h.bound b
  · rw [hpass]
    exact h.opened b

theorem rowsOk_collectBegin (h : RowsOk cfg s) (hinv : s.table.Inv cfg) {b : Nat}
    (hs : s.collectBegin b = some s') : RowsOk cfg s' := by
  obtain ⟨hdisp, hbatches, maxSlot, hmax, hopen⟩ := collectBegin_spec hs
  refine ⟨fun b' slot => ?_, fun b' payloads hp => ?_, fun b' pass hpass => ?_⟩
  · have hnil : (if b' = b then [[]] else []).filterMap (rowAt slot) = [] := by
      split <;> rfl
    rw [hbatches, List.filterMap_append, hnil, List.append_nil, hdisp]
    exact h.rows b' slot
  · rw [hbatches] at hp
    rcases List.mem_append.mp hp with hp | hp
    · exact h.bound b' payloads hp
    · split at hp
      · rw [List.mem_singleton.mp hp]
        exact Nat.zero_le _
      · cases hp
  · rw [hopen] at hpass
    split at hpass
    · obtain rfl := Option.some.inj hpass
      obtain ⟨-, hne⟩ := maxSlotBelow_spec hmax
      obtain ⟨p, hp⟩ := List.exists_mem_of_ne_nil _ hne
      have hocc := hinv.queues.occupant ⟨b, maxSlot⟩ p hp
      exact ⟨rfl, Nat.zero_le _, (hinv.slots.hasSlot _ _ hocc).2⟩
    · exact h.opened b' pass hpass

theorem rowsOk_collectEnd (h : RowsOk cfg s) {b : Nat} (hs : s.collectEnd b = some s') :
    RowsOk cfg s' := by
  obtain ⟨hdisp, hbatches, hopen⟩ := collectEnd_spec hs
  refine ⟨fun b' slot => ?_, fun b' => ?_, fun b' pass hpass => ?_⟩
  · rw [hdisp, hbatches]
    exact h.rows b' slot
  · rw [hbatches]
    exact h.bound b'
  · rw [hopen] at hpass
    split at hpass
    · cases hpass
    · exact h.opened b' pass hpass

theorem rowsOk_collectSlot (h : RowsOk cfg s) {b : Nat} (hs : s.collectSlot cfg b = some s') :
    RowsOk cfg s' := by
  obtain ⟨pass, next, popped, hvisited⟩ := slotVisited_of_collectSlot hs
  obtain ⟨hlength, hbound, hmaxSlot⟩ := h.opened b pass hvisited.isOpen
  have hnext : next.payloads.length = next.slot := by
    rw [hvisited.payloads, List.length_append, hlength, hvisited.slot]
    rfl
  refine ⟨fun b' slot => ?_, fun b' payloads hp => ?_, fun b' pass' hpass' => ?_⟩
  · rw [hvisited.dispatched, h.rows b' slot]
    by_cases hb : b' = b
    · subst hb
      rw [hvisited.before, hvisited.after, hvisited.payloads, List.filterMap_append,
        List.filterMap_append, List.append_assoc]
      refine congrArg _ ?_
      simp only [List.filterMap_cons, List.filterMap_nil, rowAt_concat, hlength,
        request?_batchEntry, BatchSlot.mk.injEq, true_and]
      by_cases hslot : slot = pass.slot
      · have hnone : rowAt slot pass.payloads = none := by
          unfold rowAt
          rw [List.getElem?_eq_none (hlength.trans hslot.symm).le]
          rfl
        rw [if_pos hslot, if_pos hslot, hnone]
        cases popped.bind Payload.request? <;> rfl
      · rw [if_neg hslot, if_neg hslot, List.append_nil]
    · rw [hvisited.others b' hb, if_neg fun heq => hb (congrArg BatchSlot.batcherIdx heq),
        List.append_nil]
  · by_cases hb : b' = b
    · subst hb
      rw [hvisited.after] at hp
      rcases List.mem_append.mp hp with hp | hp
      · exact h.bound b' payloads (hvisited.before ▸ List.mem_append_left _ hp)
      · rw [List.mem_singleton.mp hp, hnext, hvisited.slot]
        exact hvisited.more.trans_lt hmaxSlot
    · exact h.bound b' payloads (hvisited.others b' hb ▸ hp)
  · rw [hvisited.staysOpen] at hpass'
    split at hpass'
    · obtain rfl := Option.some.inj hpass'
      refine ⟨hnext, ?_, ?_⟩
      · rw [hvisited.slot, hvisited.maxSlot]
        exact Nat.succ_le_succ hvisited.more
      · exact hvisited.maxSlot ▸ hmaxSlot
    · exact h.opened b' pass' hpass'

theorem rowsOk_step (h : RowsOk cfg s) (hinv : s.table.Inv cfg) {a : Action}
    (hs : s.step cfg a = some s') : RowsOk cfg s' := by
  have houtside (ha : ∀ b, a ≠ .collectBegin b ∧ a ≠ .collectSlot b ∧ a ≠ .collectEnd b) :
      RowsOk cfg s' := by
    obtain ⟨hpass, -, hdisp, hexec⟩ := frame_outside ha hs
    exact h.frame hpass hdisp hexec
  cases a with
  | collectBegin b => exact rowsOk_collectBegin h hinv hs
  | collectSlot b => exact rowsOk_collectSlot h hs
  | collectEnd b => exact rowsOk_collectEnd h hs
  | _ => exact houtside (by simp)

/-- The payload at an index of a batch is the one of that slot. -/
theorem rowsOk_of_reachableInOrder (h : ReachableInOrder cfg s) : RowsOk cfg s := by
  refine (ReachableWhen.invariant (P := fun s => s.table.Inv cfg ∧ RowsOk cfg s)
    ⟨SlotTable.inv_init cfg, rowsOk_init cfg⟩ ?_ h).2
  rintro s a s' ⟨hinv, hrows⟩ hlast hs
  exact ⟨inv_step hinv hlast hs, rowsOk_step hrows hinv hs⟩

/-! ## The header of the payloads without a request -/

/-- The header is the one of an accepted request. -/
def FromRequest (s : System) (header : InferRequestHeader) : Prop :=
  ∃ r ∈ s.history.accepted, r.header = header

/-- Batcher `b` has been given no payload: the requests of the stays that have its slots are on
their way. -/
structure Untouched (s : System) (b : Nat) : Prop where
  inactive : (s.sched.batchers b).maxActiveSlot = -1
  closed : s.openPass b = none
  calls : ∀ slot, s.history.occupant ⟨b, slot⟩ ≠ none →
    ∃ d ∈ s.inFlight, d.target = ⟨b, slot⟩

structure HeadersOk (cfg : Config) (s : System) : Prop where
  checked : ∀ r ∈ s.history.accepted, checkRequest cfg r.header = none
  batcher : ∀ b, s.FromRequest (s.sched.batchers b).nullRequestHeader ∨ s.Untouched b
  entries : ∀ b, ∀ payloads ∈ s.batches b, ∀ e ∈ payloads, ∃ header popped,
    e = Scheduler.batchEntry header popped ∧ s.FromRequest header

theorem headersOk_init (cfg : Config) : HeadersOk cfg (.init cfg) := by
  refine ⟨fun r hr => ?_, fun b => .inr ⟨rfl, rfl, fun slot hocc => ?_⟩, fun b payloads hp => ?_⟩
  · cases hr
  · exact absurd rfl hocc
  · cases hp

/-- A slot gets a stay whose request is on its way, or had one before. -/
theorem occupant_after {t : SlotTable} (h : t.Inv cfg) {m : Move} (he : t.Enabled m)
    {batchSlot : BatchSlot} (hocc : (t.after m).occupant batchSlot ≠ none) :
    t.occupant batchSlot ≠ none ∨ ∃ d ∈ (t.after m).inFlight, d.target = batchSlot := by
  cases m with
  | openSlot target r =>
    by_cases hb : batchSlot = target
    · exact .inr ⟨⟨target, r⟩, List.mem_append_right _ (List.mem_singleton_self _), hb.symm⟩
    · exact .inl (by simpa [SlotTable.after, SlotTable.call, SlotTable.handTo, hb] using hocc)
  | free target p rest pass =>
    by_cases hb : batchSlot = target
    · exact absurd (by simp [SlotTable.after, hb]) hocc
    · exact .inl (by simpa [SlotTable.after, hb] using hocc)
  | handOn target p rest pass queue queues first last =>
    by_cases hb : batchSlot = target
    · rw [hb, h.queues.occupant target p (by simp [he.1])]
      exact .inl (by simp)
    · exact .inl (by simpa [SlotTable.after, hb] using hocc)
  | _ => exact .inl hocc

theorem accepted_subset {a : Action} (hs : s.step cfg a = some s') {r : Request}
    (hr : r ∈ s.history.accepted) : r ∈ s'.history.accepted := by
  cases a with
  | enqueue header now top =>
    rcases accepted_enqueue hs with heq | ⟨heq, -⟩
    · exact heq ▸ hr
    · exact heq ▸ List.mem_append_left _ hr
  | _ => exact accepted_other (by simp) hs ▸ hr

theorem FromRequest.step {header : InferRequestHeader} (h : s.FromRequest header) {a : Action}
    (hs : s.step cfg a = some s') : s'.FromRequest header := by
  obtain ⟨r, hr, rfl⟩ := h
  exact ⟨r, accepted_subset hs hr, rfl⟩

/-- A batcher stays untouched while the calls to it stay on their way. -/
theorem Untouched.frame {b : Nat} (h : s.Untouched b) (hinv : s.table.Inv cfg) {a : Action}
    (hs : s.step cfg a = some s')
    (hactive : (s'.sched.batchers b).maxActiveSlot = (s.sched.batchers b).maxActiveSlot)
    (hpass : s'.openPass b = s.openPass b)
    (hcalls : ∀ d ∈ s.inFlight, d.target.batcherIdx = b → d ∈ s'.inFlight) : s'.Untouched b := by
  refine ⟨hactive.trans h.inactive, hpass.trans h.closed, fun slot hocc => ?_⟩
  obtain ⟨m, he, ht, -⟩ := step_refines hinv hs
  have hocc' : (s.table.after m).occupant ⟨b, slot⟩ ≠ none := by
    rw [← ht]
    exact hocc
  rcases occupant_after hinv he hocc' with hbefore | ⟨d, hd, hdb⟩
  · obtain ⟨d, hd, hdb⟩ := h.calls slot hbefore
    exact ⟨d, hcalls d hd (hdb ▸ rfl), hdb⟩
  · exact ⟨d, by rw [← ht] at hd; exact hd, hdb⟩

theorem nullRequestHeader_collectSlot {b : Nat} (hs : s.collectSlot cfg b = some s') :
    (s'.sched.batchers b).nullRequestHeader = (s.sched.batchers b).nullRequestHeader := by
  obtain ⟨⟨sched, popped, released⟩, hsched, rfl⟩ := Option.map_eq_some_iff.mp hs
  obtain ⟨pass, -, -, hvisited⟩ := Scheduler.collectSlot_eq_some hsched
  show (sched.batchers b).nullRequestHeader = _
  cases hvisited <;> rw [Scheduler.batchers_setBatcher, if_pos rfl]

/-- A request that is delivered gives its header to a batcher that has been given none. -/
theorem headerOk_deliver {b : Nat}
    (h : s.FromRequest (s.sched.batchers b).nullRequestHeader ∨ s.Untouched b)
    (hinv : s.table.Inv cfg) (hledger : s.table.LedgerOk) {call : Nat}
    (hs : s.deliver call = some s') :
    s'.FromRequest (s'.sched.batchers b).nullRequestHeader ∨ s'.Untouched b := by
  have hs₀ : s.step cfg (.deliver call) = some s' := hs
  obtain ⟨d, sched, hd, hsched, rfl⟩ := deliver_eq_some hs
  have hmem : d ∈ s.inFlight := List.mem_of_getElem? hd
  have hbatchers := (Scheduler.deliver_eq hsched).1
  by_cases hb : b = d.target.batcherIdx
  · refine .inl ?_
    show s.FromRequest (sched.batchers b).nullRequestHeader
    rw [hbatchers, Scheduler.batchers_setBatcher, if_pos hb]
    show s.FromRequest (if _ then _ else _)
    split
    · exact ⟨d.request, hledger.accepted_of_inFlight hmem, rfl⟩
    · next hactive => exact hb ▸ h.resolve_right fun hun => hactive (hb ▸ hun.inactive)
  · have hsame : sched.batchers b = s.sched.batchers b := by
      rw [hbatchers, Scheduler.batchers_setBatcher, if_neg hb]
    rcases h with hfrom | huntouched
    · refine .inl ?_
      show s.FromRequest (sched.batchers b).nullRequestHeader
      rw [hsame]
      exact hfrom
    · refine .inr (huntouched.frame hinv hs₀ (congrArg _ hsame) (congrArg _ hsame) ?_)
      intro d' hd' hdb
      obtain ⟨hlt, rfl⟩ := List.getElem?_eq_some_iff.mp hd
      rcases List.mem_cons.mp ((List.getElem_cons_eraseIdx_perm hlt).symm.subset hd') with rfl | hd'
      · exact absurd hdb.symm hb
      · exact hd'

theorem headerOk_step {b : Nat}
    (h : s.FromRequest (s.sched.batchers b).nullRequestHeader ∨ s.Untouched b)
    (hinv : s.table.Inv cfg) (hledger : s.table.LedgerOk) {a : Action}
    (hlast : s.endComesLast cfg a = true) (hs : s.step cfg a = some s') :
    s'.FromRequest (s'.sched.batchers b).nullRequestHeader ∨ s'.Untouched b := by
  have htouched (hheader : (s'.sched.batchers b).nullRequestHeader =
      (s.sched.batchers b).nullRequestHeader) (hnot : ¬ s.Untouched b) :
      s'.FromRequest (s'.sched.batchers b).nullRequestHeader ∨ s'.Untouched b :=
    .inl (hheader ▸ (h.resolve_right hnot).step hs)
  have hsame (hheader : (s'.sched.batchers b).nullRequestHeader =
        (s.sched.batchers b).nullRequestHeader)
      (hactive : (s'.sched.batchers b).maxActiveSlot = (s.sched.batchers b).maxActiveSlot)
      (hpass : s'.openPass b = s.openPass b) (hcalls : ∀ d ∈ s.inFlight, d ∈ s'.inFlight) :
      s'.FromRequest (s'.sched.batchers b).nullRequestHeader ∨ s'.Untouched b := by
    rcases h with hfrom | huntouched
    · exact .inl (hheader ▸ hfrom.step hs)
    · exact .inr (huntouched.frame hinv hs hactive hpass fun d hd _ => hcalls d hd)
  have hequal (heq : s'.sched.batchers b = s.sched.batchers b) :=
    hsame (congrArg _ heq) (congrArg _ heq) (congrArg SequenceBatch.pass heq)
  have hkeep (henq : ∀ header now top, a ≠ .enqueue header now top)
      (hdel : ∀ call, a ≠ .deliver call) : ∀ d ∈ s.inFlight, d ∈ s'.inFlight :=
    fun d hd => inFlight_step henq hdel hs ▸ hd
  have hother {b' : Nat} (ha : a = .delay b' ∨ a = .collectBegin b' ∨ a = .collectSlot b' ∨
      a = .collectEnd b') (hb : b ≠ b') :
      s'.FromRequest (s'.sched.batchers b).nullRequestHeader ∨ s'.Untouched b := by
    refine hequal (batchers_other ha hs hb) (hkeep ?_ ?_) <;>
      rcases ha with rfl | rfl | rfl | rfl <;> simp
  cases a with
  | enqueue header now top =>
    have hbatchers : s'.sched.batchers = s.sched.batchers := by
      obtain ⟨⟨sched, placement⟩, hsched, rfl⟩ := Option.map_eq_some_iff.mp hs
      exact batchers_enqueue hsched
    refine hequal (congrFun hbatchers b) fun d hd => ?_
    rcases inFlight_enqueue hs with heq | ⟨target, heq⟩
    · exact heq ▸ hd
    · exact heq ▸ List.mem_append_left _ hd
  | deliver call => exact headerOk_deliver h hinv hledger hs
  | delay b' =>
    by_cases hb : b = b'
    · subst hb
      have hsb : ∃ cnt, s'.sched.batchers b = { s.sched.batchers b with delayCnt := cnt } := by
        obtain ⟨sched, hsched, rfl⟩ := Option.map_eq_some_iff.mp hs
        obtain ⟨-, cnts, rfl | rfl⟩ := Scheduler.delay_eq_some hsched
        · exact ⟨_, rfl⟩
        · exact ⟨0, by rw [Scheduler.batchers_setBatcher, if_pos rfl]⟩
      obtain ⟨cnt, hsb⟩ := hsb
      refine hsame ?_ ?_ ?_ (hkeep (by simp) (by simp))
      · rw [hsb]
      · rw [hsb]
      · unfold openPass
        rw [hsb]
    · exact hother (.inl rfl) hb
  | collectBegin b' =>
    by_cases hb : b = b'
    · subst hb
      obtain ⟨-, -, maxSlot, hmax, -⟩ := collectBegin_spec hs
      obtain ⟨sched, hsched, rfl⟩ := Option.map_eq_some_iff.mp hs
      obtain ⟨-, _, -, rfl⟩ := Scheduler.collectBegin_eq_some hsched
      refine htouched ?_ fun huntouched => ?_
      · rw [Scheduler.batchers_setBatcher, if_pos rfl]
      · -- no slot of an untouched batcher is looked at
        rw [huntouched.inactive] at hmax
        cases hmax
    · exact hother (.inr (.inl rfl)) hb
  | collectSlot b' =>
    by_cases hb : b = b'
    · subst hb
      obtain ⟨pass, next, popped, hvisited⟩ := slotVisited_of_collectSlot hs
      refine htouched (nullRequestHeader_collectSlot hs) fun huntouched => ?_
      cases hvisited.isOpen.symm.trans huntouched.closed
    · exact hother (.inr (.inr (.inl rfl))) hb
  | collectEnd b' =>
    by_cases hb : b = b'
    · subst hb
      obtain ⟨⟨sched, payloads⟩, hsched, rfl⟩ := Option.map_eq_some_iff.mp hs
      obtain ⟨pass, hpass, -, -, rfl⟩ := Scheduler.collectEnd_eq_some hsched
      refine htouched ?_ fun huntouched => ?_
      · rw [Scheduler.batchers_setBatcher, if_pos rfl]
      · cases hpass.symm.trans huntouched.closed
    · exact hother (.inr (.inr (.inr rfl))) hb
  | reapBegin now order =>
    refine hequal ?_ (hkeep (by simp) (by simp))
    obtain ⟨sched, hsched, rfl⟩ := Option.map_eq_some_iff.mp hs
    obtain ⟨-, rfl⟩ := Scheduler.reapBegin_eq_some hsched
    rfl
  | reapEntry =>
    have hcalls := hkeep (by simp) (by simp)
    obtain ⟨⟨sched, forced⟩, hentry, hs'⟩ := Option.map_eq_some_iff.mp hs
    have hsched : s'.sched = sched := hs' ▸ rfl
    obtain ⟨-, pass, timestamps, hbatchers⟩ |
        ⟨target, c, pass, timestamps, -, htarget, hslot, hdeliver⟩ :=
      Scheduler.reapEntry_eq_some hentry
    · exact hequal (by rw [hsched, hbatchers]) hcalls
    · have hbatchers := (Scheduler.deliver_eq hdeliver).1
      by_cases hb : b = target.batcherIdx
      · refine htouched ?_ fun huntouched => ?_
        · rw [hsched, hbatchers, Scheduler.batchers_setBatcher, if_pos hb, hb]
          exact ite_self _
        · -- the slot has a stay, no request of which is on its way
          have hocc := hinv.map.occupant c target hslot
          obtain ⟨d, hd, hdb⟩ := huntouched.calls target.slot (by
            rw [hb]
            exact fun hnone => by cases hnone.symm.trans hocc)
          simp only [endComesLast, htarget, List.all_eq_true, decide_eq_true_eq] at hlast
          exact hlast d hd (hdb.trans (by rw [hb]))
      · refine hequal ?_ hcalls
        rw [hsched, hbatchers, Scheduler.batchers_setBatcher, if_neg hb]
  | reapEnd =>
    refine hequal ?_ (hkeep (by simp) (by simp))
    obtain ⟨sched, hsched, rfl⟩ := Option.map_eq_some_iff.mp hs
    obtain ⟨pass, -, -, rfl⟩ := Scheduler.reapEnd_eq_some hsched
    rfl

theorem checked_enqueue (h : ∀ r ∈ s.history.accepted, checkRequest cfg r.header = none)
    {header : InferRequestHeader} {now : Nat} {top : BatchSlot}
    (hs : s.enqueue cfg header now top = some s') :
    ∀ r ∈ s'.history.accepted, checkRequest cfg r.header = none := by
  intro r hr
  rcases accepted_enqueue hs with heq | ⟨heq, -⟩
  · exact h r (heq ▸ hr)
  · rw [heq] at hr
    rcases List.mem_append.mp hr with hr | hr
    · exact h r hr
    · obtain rfl := List.mem_singleton.mp hr
      obtain ⟨⟨sched, placement⟩, henq, rfl⟩ := Option.map_eq_some_iff.mp hs
      obtain ⟨-, status, -, rfl⟩ | ⟨hcheck, -⟩ := Scheduler.enqueue_eq_some henq
      · exact absurd heq (by simp [History.accept])
      · exact hcheck

/-- The entries of the batches that a step leaves, by those that were there before it. -/
theorem entries_step {a : Action} (hs : s.step cfg a = some s') {b : Nat}
    {payloads : List BatchEntry} (hp : payloads ∈ s'.batches b) {e : BatchEntry}
    (he : e ∈ payloads) :
    (∃ payloads ∈ s.batches b, e ∈ payloads) ∨ s.openPass b ≠ none ∧
      ∃ popped, e = Scheduler.batchEntry (s.sched.batchers b).nullRequestHeader popped := by
  have houtside (ha : ∀ b, a ≠ .collectBegin b ∧ a ≠ .collectSlot b ∧ a ≠ .collectEnd b) :
      ∃ payloads ∈ s.batches b, e ∈ payloads := by
    obtain ⟨hpass, -, -, hexec⟩ := frame_outside ha hs
    exact ⟨payloads, batches_frame hpass hexec b ▸ hp, he⟩
  cases a with
  | collectBegin b' =>
    obtain ⟨-, hbatches, -⟩ := collectBegin_spec hs
    rw [hbatches] at hp
    rcases List.mem_append.mp hp with hp | hp
    · exact .inl ⟨payloads, hp, he⟩
    · split at hp
      · rw [List.mem_singleton.mp hp] at he
        cases he
      · cases hp
  | collectEnd b' =>
    obtain ⟨-, hbatches, -⟩ := collectEnd_spec hs
    exact .inl ⟨payloads, hbatches b ▸ hp, he⟩
  | collectSlot b' =>
    obtain ⟨pass, next, popped, hvisited⟩ := slotVisited_of_collectSlot hs
    by_cases hb : b = b'
    · subst hb
      rw [hvisited.after] at hp
      rcases List.mem_append.mp hp with hp | hp
      · exact .inl ⟨payloads, hvisited.before ▸ List.mem_append_left _ hp, he⟩
      · rw [List.mem_singleton.mp hp, hvisited.payloads] at he
        rcases List.mem_append.mp he with he | he
        · exact .inl ⟨_, hvisited.before ▸ List.mem_append_right _ (List.mem_singleton_self _), he⟩
        · refine .inr ⟨?_, popped, List.mem_singleton.mp he⟩
          rw [hvisited.isOpen]
          exact Option.some_ne_none _
    · exact .inl ⟨payloads, hvisited.others b hb ▸ hp, he⟩
  | _ => exact .inl (houtside (by simp))

theorem headersOk_step (h : HeadersOk cfg s) (hinv : s.table.Inv cfg)
    (hledger : s.table.LedgerOk) {a : Action} (hlast : s.endComesLast cfg a = true)
    (hs : s.step cfg a = some s') : HeadersOk cfg s' := by
  refine ⟨?_, fun b => headerOk_step (h.batcher b) hinv hledger hlast hs,
    fun b payloads hp e he => ?_⟩
  · cases a with
    | enqueue header now top => exact checked_enqueue h.checked hs
    | _ => exact accepted_other (by simp) hs ▸ h.checked
  · rcases entries_step hs hp he with ⟨before, hbefore, he⟩ | ⟨hopen, popped, rfl⟩
    · obtain ⟨header, popped, rfl, hfrom⟩ := h.entries b before hbefore e he
      exact ⟨header, popped, rfl, hfrom.step hs⟩
    · have hfrom := (h.batcher b).resolve_right fun huntouched => hopen huntouched.closed
      exact ⟨_, popped, rfl, hfrom.step hs⟩

/-- A payload without a request has the header of an accepted one. -/
theorem headersOk_of_reachableInOrder (h : ReachableInOrder cfg s) : HeadersOk cfg s := by
  refine (ReachableWhen.invariant
    (P := fun s => s.table.Inv cfg ∧ s.table.LedgerOk ∧ HeadersOk cfg s)
    ⟨SlotTable.inv_init cfg, SlotTable.ledgerOk_init cfg, headersOk_init cfg⟩ ?_ h).2.2
  rintro s a s' ⟨hinv, hledger, hheaders⟩ hlast hs
  obtain ⟨m, he, ht, -⟩ := step_refines hinv hs
  exact ⟨inv_step hinv hlast hs, ht ▸ SlotTable.ledgerOk_after hinv hledger he,
    headersOk_step hheaders hinv hledger hlast hs⟩

/-! ## A state for every index -/

/-- The requests of a stay in its slot are all that were dispatched of it. -/
theorem ofOccupancy_inSlot (h : s.table.LedgerOk) {batchSlot : BatchSlot} {r : Request}
    (hr : r ∈ inSlot s.history.dispatched batchSlot) :
    ofOccupancy r.occupancy (inSlot s.history.dispatched batchSlot) = s.table.sent r.occupancy := by
  obtain ⟨d, hd, rfl, rfl⟩ := mem_inSlot.mp hr
  show ofOccupancy _ ((s.history.dispatched.filter _).map _) =
    ofOccupancy _ (s.history.dispatched.map _)
  unfold ofOccupancy
  rw [List.filter_map, List.filter_map, List.filter_filter]
  refine congrArg _ (List.filter_congr fun d' hd' => ?_)
  simp only [Function.comp_apply, Bool.and_eq_left_iff_imp, decide_eq_true_eq]
  exact fun heq => oneSlot_of_ledgerOk h hd' hd heq

/-- What a slot has seen of a stay is the first part of what was received. -/
theorem ofOccupancy_prefix_received (h : s.table.LedgerOk) (hord : s.table.Ordered)
    {batchSlot : BatchSlot} {l : List Request}
    (hl : l <+: inSlot s.history.dispatched batchSlot) {r : Request} (hr : r ∈ l) :
    ofOccupancy r.occupancy l <+: s.table.received r.occupancy := by
  have hsent : ofOccupancy r.occupancy l <+: s.table.sent r.occupancy := by
    rw [← ofOccupancy_inSlot h (hl.subset hr)]
    exact hl.filter _
  rw [← hord r.occupancy, SlotTable.ledger, List.append_assoc]
  exact hsent.trans (List.prefix_append _ _)

/-- Whatever a backend keeps for an index, if a request with START makes it forget what it has,
then it has been made by the requests of one stay, in the order of their arrival. -/
theorem foldl_rowAt {σ : Type} {f : σ → Request → σ}
    (hstart : ∀ r, r.header.seqStart = true → ∀ state state', f state r = f state' r)
    (h : OrderedRun cfg (.init cfg) s) {b slot : Nat} {done rest : List (List BatchEntry)}
    {batch : List BatchEntry} (hbatches : s.executedBatches b = done ++ batch :: rest)
    {r : Request} (hrow : rowAt slot batch = some r) :
    ∃ before after, s.table.received r.occupancy = before ++ r :: after ∧
      ∀ state, f ((done.filterMap (rowAt slot)).foldl f state) r =
        (before ++ [r]).foldl f state := by
  obtain ⟨-, hledger⟩ := ledgerOk_of_reachableInOrder h.inOrder
  have hord := ordered_of_orderedRun h
  obtain ⟨hcontiguous, -, hstarts⟩ := staysOk_of_reachableInOrder h.inOrder
  let seen := done.filterMap (rowAt slot)
  have hseen : seen ++ [r] <+: inSlot s.history.dispatched ⟨b, slot⟩ := by
    rw [(rowsOk_of_reachableInOrder h.inOrder).rows b slot]
    refine ⟨(rest ++ ((s.openPass b).map (·.payloads)).toList).filterMap (rowAt slot), ?_⟩
    unfold batches
    rw [hbatches]
    simp [seen, hrow]
  have hown : ofOccupancy r.occupancy (seen ++ [r]) = ofOccupancy r.occupancy seen ++ [r] := by
    rw [ofOccupancy_append, ofOccupancy_eq_self (l := [r]) (by simp)]
  obtain ⟨after, hafter⟩ := ofOccupancy_prefix_received hledger hord hseen
    (List.mem_append_right _ (List.mem_singleton_self r))
  refine ⟨ofOccupancy r.occupancy seen, after, ?_, fun state => ?_⟩
  · rw [← hafter, hown, List.append_assoc]
    rfl
  · have hgrouped := (hcontiguous.grouped ⟨b, slot⟩).of_initial hseen
    calc f (seen.foldl f state) r
        = (seen ++ [r]).foldl f state := by rw [List.foldl_append]; rfl
      _ = (ofOccupancy r.occupancy (seen ++ [r])).foldl f state := by
        refine hgrouped.foldl_eq (fun before y after heq hnew => hstart y ?_) state
        -- the first request of its stay in the slot is the first one that was received of it
        refine hstarts y.occupancy y ?_
        have hfirst := ofOccupancy_prefix_received hledger hord hseen
          (heq ▸ List.mem_append_right _ (List.mem_cons_self ..) : y ∈ seen ++ [r])
        rw [heq, ofOccupancy_append, ofOccupancy_eq_nil hnew, List.nil_append] at hfirst
        have hcons : ofOccupancy y.occupancy (y :: after) =
            y :: ofOccupancy y.occupancy after := List.filter_cons_of_pos (by simp)
        rw [hcons] at hfirst
        obtain ⟨more, hmore⟩ := hfirst
        rw [← hmore]
        rfl
      _ = (ofOccupancy r.occupancy seen ++ [r]).foldl f state := by rw [hown]

end System

end FinBert.Sequence
