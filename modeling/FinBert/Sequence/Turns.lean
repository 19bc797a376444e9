import FinBert.Sequence.Batches

/-!
# What a step does to a batcher

A step leaves a batcher as it is, puts one payload into it, or takes the pass of its thread one slot
further (`Turned`); this holds in any state, and says all that an invariant of the batchers needs.

Results:
1. `turned`: the step of the system, seen from one batcher.
2. `hasSlot_of_reachable`: in every run the slots in use are slots of the batchers.
3. `maxActiveSlot_of_reachable`: in every run a thread looks only at queues that exist.
4. `length_executed`: in every run a batch has no more payloads than a batcher has slots.
-/

namespace FinBert.Sequence

open FinBert.Serving Transition

/-- The backlog that takes over the slot which the pass of batcher `b` visits, when the payload at
the front of the slot ends its sequence. -/
def Scheduler.takenOver (s : Scheduler) (b : Nat) : List Request :=
  match (s.batchers b).pass with
  | none => []
  | some pass =>
    match (s.batchers b).queues pass.slot with
    | [] => []
    | p :: _ => if p.isEnd then (s.backlogQueues.head?.map s.backlogs).getD [] else []

/-- What a step does to batcher `b`. -/
inductive Turned (cfg : Config) (s : System) (b : Nat) : Action → SequenceBatch → Prop
  | same {a : Action} {sb : SequenceBatch}
      (header : sb.nullRequestHeader = (s.sched.batchers b).nullRequestHeader)
      (queues : sb.queues = (s.sched.batchers b).queues)
      (active : sb.maxActiveSlot = (s.sched.batchers b).maxActiveSlot)
      (pass : sb.pass = (s.sched.batchers b).pass) : Turned cfg s b a sb
  | delivered {call : Nat} {d : Delivery} (found : s.inFlight[call]? = some d)
      (target : d.target.batcherIdx = b) (free : (s.sched.batchers b).pass = none) :
      Turned cfg s b (.deliver call) ((s.sched.batchers b).enqueue d.target.slot
        d.request.header.correlationId (.request d.request))
  | forced {target : BatchSlot} {c : CorrelationId} {o : Occupancy}
      (found : s.sched.forceEndTarget cfg = some target)
      (assigned : s.sched.sequenceToBatchslotMap.find c = some target)
      (idx : target.batcherIdx = b) (free : (s.sched.batchers b).pass = none) :
      Turned cfg s b .reapEntry ((s.sched.batchers b).enqueue target.slot c (.forceEnd o))
  | began {maxSlot : Nat}
      (found : maxSlotBelow (s.sched.batchers b).queues
        ((s.sched.batchers b).maxActiveSlot + 1).toNat = some maxSlot) :
      Turned cfg s b (.collectBegin b) { s.sched.batchers b with
        pass := some
          { slot := 0, maxSlot := maxSlot, payloads := [], adjustMaxActiveSlot := false } }
  | collected {pass : CollectPass} {sb : SequenceBatch} {rest : List Payload} {adjust : Bool}
      (running : (s.sched.batchers b).pass = some pass) (more : pass.slot ≤ pass.maxSlot)
      (header : sb.nullRequestHeader = (s.sched.batchers b).nullRequestHeader)
      (active : sb.maxActiveSlot = (s.sched.batchers b).maxActiveSlot)
      (queues : sb.queues = Function.update (s.sched.batchers b).queues pass.slot rest)
      (origin : ∀ p ∈ rest, p ∈ (s.sched.batchers b).queues pass.slot ∨
        ∃ r ∈ s.sched.takenOver b, p = .request r)
      (next : sb.pass = some
        { slot := pass.slot + 1
          maxSlot := pass.maxSlot
          payloads := pass.payloads ++
            [Scheduler.batchEntry (s.sched.batchers b).nullRequestHeader
              ((s.sched.batchers b).queues pass.slot).head?]
          adjustMaxActiveSlot := adjust }) : Turned cfg s b (.collectSlot b) sb
  | ended {pass : CollectPass} {sb : SequenceBatch}
      (running : (s.sched.batchers b).pass = some pass) (done : pass.maxSlot < pass.slot)
      (header : sb.nullRequestHeader = (s.sched.batchers b).nullRequestHeader)
      (queues : sb.queues = (s.sched.batchers b).queues)
      (active : sb.maxActiveSlot ≤ max (-1) (s.sched.batchers b).maxActiveSlot)
      (next : sb.pass = none) : Turned cfg s b (.collectEnd b) sb

variable {cfg : Config} {s s' : System}

theorem Turned.of_eq {a : Action} {b : Nat} {sb : SequenceBatch}
    (h : sb = s.sched.batchers b) : Turned cfg s b a sb := by
  subst h
  exact .same rfl rfl rfl rfl

/-- The queue of a released slot has what it had, or the backlog that takes the slot over. -/
theorem mem_of_released {sched sched' : Scheduler} {batchSlot : BatchSlot}
    {payloads queue : List Payload} (h : sched.Released sched' batchSlot payloads queue)
    {p : Payload} (hp : p ∈ queue) :
    p ∈ payloads ∨ ∃ r ∈ (sched.backlogQueues.head?.map sched.backlogs).getD [],
      p = .request r := by
  rw [h.queue] at hp
  split at hp
  · exact .inl hp
  · next backlog rest hcons =>
    obtain ⟨r, hr, rfl⟩ := List.mem_map.mp hp
    rw [hcons]
    exact .inr ⟨r, hr, rfl⟩

theorem takenOver_of_end {sched : Scheduler} {b : Nat} {pass : CollectPass} {p : Payload}
    {rest : List Payload} (hpass : (sched.batchers b).pass = some pass)
    (hqueue : (sched.batchers b).queues pass.slot = p :: rest) (hend : p.isEnd = true) :
    sched.takenOver b = (sched.backlogQueues.head?.map sched.backlogs).getD [] := by
  simp only [Scheduler.takenOver, hpass, hqueue, hend, if_true]

theorem Scheduler.free_of_deliver {sched sched' : Scheduler} {target : BatchSlot}
    {c : CorrelationId} {p : Payload} (h : sched.deliver target c p = some sched') :
    (sched.batchers target.batcherIdx).pass = none := by
  unfold deliver at h
  dsimp only at h
  split at h
  · cases h
  · next hpass => exact Option.not_isSome_iff_eq_none.mp hpass

namespace System

theorem turned_collectSlot {b : Nat} (h : s.collectSlot cfg b = some s') :
    Turned cfg s b (.collectSlot b) (s'.sched.batchers b) := by
  obtain ⟨⟨sched, popped, released⟩, hsched, rfl⟩ := Option.map_eq_some_iff.mp h
  obtain ⟨pass, hpass, hmore, hvisited⟩ := Scheduler.collectSlot_eq_some hsched
  show Turned cfg s b (.collectSlot b) (sched.batchers b)
  cases hvisited with
  | empty hempty =>
    rw [Scheduler.batchers_setBatcher, if_pos rfl]
    refine .collected hpass hmore rfl rfl (Function.update_eq_self pass.slot _).symm
      (fun p hp => ?_) rfl
    rw [hempty] at hp
    cases hp
  | collected hqueue hgoesOn =>
    rw [Scheduler.batchers_setBatcher, if_pos rfl]
    refine .collected hpass hmore rfl rfl rfl (fun p hp => .inl ?_) rfl
    rw [hqueue]
    exact List.mem_cons_of_mem _ hp
  | handedOn hqueue hends hfree hlog hrelease | freed hqueue hends hfree hlog hrelease =>
    have hreleased := Scheduler.released_of_releaseBatchSlot hrelease
    rw [Scheduler.batchers_setBatcher, if_pos rfl]
    refine .collected hpass hmore rfl rfl rfl (fun p hp => ?_) rfl
    rw [takenOver_of_end hpass hqueue hends, hqueue]
    exact (mem_of_released hreleased hp).imp_left (List.mem_cons_of_mem _)

theorem turned_deliver {call : Nat} (h : s.deliver call = some s') (b : Nat) :
    Turned cfg s b (.deliver call) (s'.sched.batchers b) := by
  obtain ⟨d, sched, hd, hsched, rfl⟩ := deliver_eq_some h
  rw [(Scheduler.deliver_eq hsched).1, Scheduler.batchers_setBatcher]
  split
  · next hb =>
    subst hb
    exact .delivered hd rfl (Scheduler.free_of_deliver hsched)
  · exact .of_eq rfl

theorem turned_reapEntry (h : s.reapEntry cfg = some s') (b : Nat) :
    Turned cfg s b .reapEntry (s'.sched.batchers b) := by
  obtain ⟨⟨sched, forced⟩, hentry, rfl⟩ := Option.map_eq_some_iff.mp h
  obtain ⟨-, pass, timestamps, rfl⟩ |
      ⟨target, c, pass, timestamps, -, htarget, hslot, hdeliver⟩ :=
    Scheduler.reapEntry_eq_some hentry
  · exact .of_eq rfl
  · have hfree := Scheduler.free_of_deliver hdeliver
    rw [(Scheduler.deliver_eq hdeliver).1, Scheduler.batchers_setBatcher]
    split
    · next hb =>
      subst hb
      exact .forced htarget hslot rfl hfree
    · exact .of_eq rfl

theorem turned_collectBegin {b : Nat} (h : s.collectBegin b = some s') :
    Turned cfg s b (.collectBegin b) (s'.sched.batchers b) := by
  obtain ⟨sched, hsched, rfl⟩ := Option.map_eq_some_iff.mp h
  obtain ⟨-, maxSlot, hmax, rfl⟩ := Scheduler.collectBegin_eq_some hsched
  rw [Scheduler.batchers_setBatcher, if_pos rfl]
  exact .began hmax

theorem activeSlotBelow_lt (slotCorrelationIds : Nat → CorrelationId) (n : Nat) :
    activeSlotBelow slotCorrelationIds n < n := by
  induction n with
  | zero => exact Int.negSucc_lt_zero 0
  | succ n ih =>
    have hlt : (n : Int) < (n + 1 : Nat) := Int.ofNat_lt.mpr (Nat.lt_succ_self n)
    unfold activeSlotBelow
    split
    · exact Int.lt_trans ih hlt
    · exact hlt

theorem activeSlotBelow_le (slotCorrelationIds : Nat → CorrelationId) (maxActiveSlot : Int) :
    activeSlotBelow slotCorrelationIds (maxActiveSlot + 1).toNat ≤ max (-1) maxActiveSlot := by
  have hlt := activeSlotBelow_lt slotCorrelationIds (maxActiveSlot + 1).toNat
  rcases Int.le_total (maxActiveSlot + 1) 0 with hneg | hpos
  · rw [Int.toNat_of_nonpos hneg]
    exact Int.le_max_left _ _
  · rw [Int.toNat_of_nonneg hpos] at hlt
    exact Int.le_trans (Int.le_of_lt_add_one hlt) (Int.le_max_right _ _)

theorem turned_collectEnd {b : Nat} (h : s.collectEnd b = some s') :
    Turned cfg s b (.collectEnd b) (s'.sched.batchers b) := by
  obtain ⟨⟨sched, payloads⟩, hsched, rfl⟩ := Option.map_eq_some_iff.mp h
  obtain ⟨pass, hpass, hdone, -, rfl⟩ := Scheduler.collectEnd_eq_some hsched
  rw [Scheduler.batchers_setBatcher, if_pos rfl]
  refine .ended hpass hdone rfl rfl ?_ rfl
  dsimp only
  split
  · exact activeSlotBelow_le _ _
  · exact Int.le_max_right _ _

theorem turned_delay {b b' : Nat} (h : s.step cfg (.delay b') = some s') :
    Turned cfg s b (.delay b') (s'.sched.batchers b) := by
  by_cases hb : b = b'
  · subst hb
    obtain ⟨sched, hsched, rfl⟩ := Option.map_eq_some_iff.mp h
    obtain ⟨-, cnts, rfl | rfl⟩ := Scheduler.delay_eq_some hsched
    · exact .of_eq rfl
    · rw [Scheduler.batchers_setBatcher, if_pos rfl]
      exact .same rfl rfl rfl rfl
  · exact .of_eq (batchers_other (.inl rfl) h hb)

/-- The step of the system, seen from batcher `b`. -/
theorem turned {a : Action} (h : s.step cfg a = some s') (b : Nat) :
    Turned cfg s b a (s'.sched.batchers b) := by
  cases a with
  | enqueue header now top =>
    obtain ⟨⟨sched, placement⟩, hsched, rfl⟩ := Option.map_eq_some_iff.mp h
    exact .of_eq (congrFun (batchers_enqueue hsched) b)
  | deliver call => exact turned_deliver h b
  | delay b' => exact turned_delay h
  | collectBegin b' =>
    by_cases hb : b = b'
    · subst hb
      exact turned_collectBegin h
    · exact .of_eq (batchers_other (.inr (.inl rfl)) h hb)
  | collectSlot b' =>
    by_cases hb : b = b'
    · subst hb
      exact turned_collectSlot h
    · exact .of_eq (batchers_other (.inr (.inr (.inl rfl))) h hb)
  | collectEnd b' =>
    by_cases hb : b = b'
    · subst hb
      exact turned_collectEnd h
    · exact .of_eq (batchers_other (.inr (.inr (.inr rfl))) h hb)
  | reapBegin now order =>
    obtain ⟨sched, hsched, rfl⟩ := Option.map_eq_some_iff.mp h
    obtain ⟨-, rfl⟩ := Scheduler.reapBegin_eq_some hsched
    exact .of_eq rfl
  | reapEntry => exact turned_reapEntry h b
  | reapEnd =>
    obtain ⟨sched, hsched, rfl⟩ := Option.map_eq_some_iff.mp h
    obtain ⟨pass, -, -, rfl⟩ := Scheduler.reapEnd_eq_some hsched
    exact .of_eq rfl

/-- Only the end of a pass executes a batch: the payloads of the pass. -/
theorem executed_step {a : Action} (h : s.step cfg a = some s') {e : Execution}
    (he : e ∈ s'.history.executed) : e ∈ s.history.executed ∨
      ∃ pass, (s.sched.batchers e.batcherIdx).pass = some pass ∧ pass.maxSlot < pass.slot ∧
        e.payloads = pass.payloads := by
  cases a with
  | enqueue header now top =>
    obtain ⟨⟨sched, placement⟩, -, rfl⟩ := Option.map_eq_some_iff.mp h
    refine .inl ?_
    cases placement <;> simp only [History.accept] at he
    · exact he
    all_goals split at he <;> exact he
  | deliver call =>
    obtain ⟨d, sched, -, -, rfl⟩ := deliver_eq_some h
    exact .inl he
  | collectSlot b =>
    obtain ⟨⟨sched, popped, released⟩, -, rfl⟩ := Option.map_eq_some_iff.mp h
    rw [(release_frame _ s.sched (s.visiting b) released).2.1,
      (dispatch_frame s.history s.sched (s.visiting b) popped).2] at he
    exact .inl he
  | collectEnd b =>
    obtain ⟨⟨sched, payloads⟩, hsched, rfl⟩ := Option.map_eq_some_iff.mp h
    obtain ⟨pass, hpass, hdone, rfl, -⟩ := Scheduler.collectEnd_eq_some hsched
    rcases List.mem_append.mp he with he | he
    · exact .inl he
    · obtain rfl := List.mem_singleton.mp he
      exact .inr ⟨pass, hpass, hdone, rfl⟩
  | reapEntry =>
    obtain ⟨⟨sched, forced⟩, -, rfl⟩ := Option.map_eq_some_iff.mp h
    cases forced <;> exact .inl he
  | _ =>
    obtain ⟨_, -, rfl⟩ := Option.map_eq_some_iff.mp h
    exact .inl he

end System

/-! ## The slots in use -/

/-- A slot in use: it is ready, a correlation ID has it, a call is on its way to it, or there are
payloads in its queue. -/
inductive System.Placed (s : System) (target : BatchSlot) : Prop
  | ready (mem : target ∈ s.sched.readyBatchSlots)
  | assigned {c : CorrelationId} (found : s.sched.sequenceToBatchslotMap.find c = some target)
  | called {d : Delivery} (mem : d ∈ s.inFlight) (eq : d.target = target)
  | queued (ne : s.sched.queue target ≠ [])

namespace Scheduler

theorem find_of_erase {m : UnorderedMap CorrelationId BatchSlot} {c c' : CorrelationId}
    {target : BatchSlot} (h : UnorderedMap.find (m.erase c) c' = some target) :
    UnorderedMap.find m c' = some target := by
  rw [UnorderedMap.find_erase, Function.update_apply] at h
  split at h
  · cases h
  · exact h

theorem find_of_insert {m : UnorderedMap CorrelationId BatchSlot} {c c' : CorrelationId}
    {target target' : BatchSlot} (h : UnorderedMap.find (m.insert c target) c' = some target') :
    target' = target ∨ UnorderedMap.find m c' = some target' := by
  rw [UnorderedMap.find_insert_apply] at h
  split at h
  · exact .inl (Option.some.inj h).symm
  · exact .inr h

theorem find_of_assignSlot {sched : Scheduler} {r : Request} {c : CorrelationId}
    {target : BatchSlot} (h : (sched.assignSlot r).sequenceToBatchslotMap.find c = some target) :
    sched.sequenceToBatchslotMap.find c = some target := by
  unfold assignSlot at h
  split at h
  · exact find_of_erase h
  · exact h

theorem ready_assignSlot {sched : Scheduler} {r : Request} :
    (sched.assignSlot r).readyBatchSlots = sched.readyBatchSlots := by
  unfold assignSlot
  split <;> rfl

/-- `Enqueue` uses slots that are ready or assigned. -/
structure Assigns (sched sched' : Scheduler) (placement : Placement) : Prop where
  ready : ∀ target ∈ sched'.readyBatchSlots, target ∈ sched.readyBatchSlots
  assigned : ∀ c target, sched'.sequenceToBatchslotMap.find c = some target →
    target ∈ sched.readyBatchSlots ∨ sched.sequenceToBatchslotMap.find c = some target
  placed : ∀ target opens, placement = .slot target opens →
    target ∈ sched.readyBatchSlots ∨ ∃ c, sched.sequenceToBatchslotMap.find c = some target

theorem Assigns.of_eq {sched sched' : Scheduler} {placement : Placement}
    (hready : sched'.readyBatchSlots = sched.readyBatchSlots)
    (hmap : sched'.sequenceToBatchslotMap = sched.sequenceToBatchslotMap)
    (hplacement : ∀ target opens, placement ≠ .slot target opens) :
    Assigns sched sched' placement := by
  refine ⟨?_, ?_, fun target opens heq => absurd heq (hplacement target opens)⟩
  · rw [hready]
    exact fun _ hmem => hmem
  · rw [hmap]
    exact fun _ _ hfind => .inr hfind

theorem assigns_enqueue {cfg : Config} {sched sched' : Scheduler} {r : Request} {now : Nat}
    {top : BatchSlot} {placement : Placement}
    (h : sched.enqueue cfg r now top = some (sched', placement)) :
    Assigns sched sched' placement := by
  obtain ⟨rfl, status, -, rfl⟩ | ⟨-, -, henqueued⟩ := enqueue_eq_some h
  · exact .of_eq rfl rfl (by simp)
  cases henqueued with
  | rejected | continueBacklog | openBacklog => exact .of_eq rfl rfl (by simp)
  | continueSlot hslot =>
    refine ⟨fun target hmem => ?_, fun c target hassigned => .inr ?_,
      fun target opens heq => .inr ⟨r.header.correlationId, ?_⟩⟩
    · rw [ready_assignSlot] at hmem
      exact hmem
    · have hfound := find_of_assignSlot hassigned
      exact hfound
    · obtain ⟨rfl, -⟩ := Placement.slot.inj heq
      exact hslot
  | openSlot _ _ htop =>
    refine ⟨fun target hmem => ?_, fun c target hfind => ?_, fun target opens heq => .inl ?_⟩
    · rw [ready_assignSlot] at hmem
      exact List.mem_of_mem_erase hmem
    · rcases find_of_insert (find_of_assignSlot hfind) with rfl | hfind
      · exact .inl htop.1
      · exact .inr hfind
    · obtain ⟨rfl, -⟩ := Placement.slot.inj heq
      exact htop.1

/-- A pass makes ready, or hands on, only a slot that it has taken a payload from. -/
theorem collectSlot_slots {cfg : Config} {sched sched' : Scheduler} {b : Nat}
    {popped : Option Payload} {released : Option Release}
    (h : sched.collectSlot cfg b = some (sched', popped, released)) :
    (∀ target ∈ sched'.readyBatchSlots,
      sched.queue target ≠ [] ∨ target ∈ sched.readyBatchSlots) ∧
    ∀ c target, sched'.sequenceToBatchslotMap.find c = some target →
      sched.queue target ≠ [] ∨ sched.sequenceToBatchslotMap.find c = some target := by
  obtain ⟨pass, hpass, -, hvisited⟩ := collectSlot_eq_some h
  cases hvisited with
  | empty | collected => exact ⟨fun _ hmem => .inr hmem, fun _ _ hfind => .inr hfind⟩
  | handedOn hqueue hends hfree hlog hrelease | freed hqueue hends hfree hlog hrelease =>
    have hreleased := released_of_releaseBatchSlot hrelease
    have hne : sched.queue ⟨b, pass.slot⟩ ≠ [] := by
      rw [queue, hqueue]
      exact List.cons_ne_nil _ _
    refine ⟨fun target hmem => ?_, fun c target hfind => ?_⟩
    · rcases hreleased.readyBatchSlots with hready | hready
      · exact .inr (hready ▸ hmem)
      · rcases List.mem_cons.mp (hready ▸ hmem) with rfl | hmem
        · exact .inl hne
        · exact .inr hmem
    · rcases hreleased.sequenceToBatchslotMap with hmap | ⟨c', hmap⟩
      · exact .inr (hmap ▸ hfind)
      · rcases find_of_insert (hmap ▸ hfind) with rfl | hfind
        · exact .inl hne
        · exact .inr hfind

theorem reapEntry_slots {cfg : Config} {sched sched' : Scheduler}
    {forced : CorrelationId → Occupancy} {put : Option (BatchSlot × CorrelationId)}
    (h : sched.reapEntry cfg forced = some (sched', put)) :
    sched'.readyBatchSlots = sched.readyBatchSlots ∧
    ∀ c target, sched'.sequenceToBatchslotMap.find c = some target →
      sched.sequenceToBatchslotMap.find c = some target := by
  obtain ⟨-, pass, timestamps, rfl⟩ | ⟨target, c, pass, timestamps, -, -, -, hdeliver⟩ :=
    reapEntry_eq_some h
  · exact ⟨rfl, fun _ _ hfind => hfind⟩
  · rw [(deliver_eq hdeliver).1]
    exact ⟨rfl, fun _ _ hfind => find_of_erase hfind⟩

end Scheduler

namespace System

theorem queue_of_takenOver {sched : Scheduler} {b : Nat} {pass : CollectPass} {r : Request}
    (hpass : (sched.batchers b).pass = some pass) (hr : r ∈ sched.takenOver b) :
    (sched.batchers b).queues pass.slot ≠ [] := by
  intro hempty
  simp only [Scheduler.takenOver, hpass, hempty] at hr
  cases hr

/-- Only a slot in use gets payloads. -/
theorem placed_of_queue {a : Action} (h : s.step cfg a = some s') {target : BatchSlot}
    (hq : s'.sched.queue target ≠ []) : s.Placed target := by
  unfold Scheduler.queue at hq
  obtain ⟨b, slot⟩ := target
  dsimp only at hq
  have hadded : ∀ {slot' : Nat} {l : List Payload}, s.Placed ⟨b, slot'⟩ →
      Function.update (s.sched.batchers b).queues slot' l slot ≠ [] → s.Placed ⟨b, slot⟩ := by
    intro slot' l hplaced hne
    rw [Function.update_apply] at hne
    split at hne
    · next heq =>
      rw [heq]
      exact hplaced
    · exact .queued hne
  have hturned := turned h b
  generalize s'.sched.batchers b = sb at hturned hq
  cases hturned with
  | same header queues active pass =>
    rw [queues] at hq
    exact .queued hq
  | delivered found target free =>
    subst target
    exact hadded (.called (List.mem_of_getElem? found) rfl) hq
  | forced found assigned idx free =>
    subst idx
    exact hadded (.assigned assigned) hq
  | began found => exact .queued hq
  | @collected pass sb rest adjust running more header active queues origin next =>
    rw [queues, Function.update_apply] at hq
    split at hq
    · next heq =>
      subst heq
      obtain ⟨p, hp⟩ := List.exists_mem_of_ne_nil rest hq
      refine .queued ?_
      rcases origin p hp with hmem | ⟨r, hr, -⟩
      · exact List.ne_nil_of_mem hmem
      · exact queue_of_takenOver running hr
    · exact .queued hq
  | ended running done header queues active next =>
    rw [queues] at hq
    exact .queued hq

theorem slots_of_eq (hready : s'.sched.readyBatchSlots = s.sched.readyBatchSlots)
    (hmap : s'.sched.sequenceToBatchslotMap = s.sched.sequenceToBatchslotMap) :
    (∀ target ∈ s'.sched.readyBatchSlots, s.Placed target) ∧
    ∀ c target, s'.sched.sequenceToBatchslotMap.find c = some target → s.Placed target := by
  rw [hready, hmap]
  exact ⟨fun _ hmem => .ready hmem, fun _ _ hfind => .assigned hfind⟩

/-- The slots that are ready or assigned were in use before the step. -/
theorem slots_step {a : Action} (h : s.step cfg a = some s') :
    (∀ target ∈ s'.sched.readyBatchSlots, s.Placed target) ∧
    ∀ c target, s'.sched.sequenceToBatchslotMap.find c = some target → s.Placed target := by
  cases a with
  | enqueue header now top =>
    obtain ⟨⟨sched, placement⟩, hsched, rfl⟩ := Option.map_eq_some_iff.mp h
    have hassigns := Scheduler.assigns_enqueue hsched
    refine ⟨fun target hmem => .ready (hassigns.ready target hmem), fun c target hfind => ?_⟩
    rcases hassigns.assigned c target hfind with hmem | hfind
    · exact .ready hmem
    · exact .assigned hfind
  | deliver call =>
    obtain ⟨d, sched, -, hsched, rfl⟩ := deliver_eq_some h
    obtain ⟨rfl, -⟩ := Scheduler.deliver_eq hsched
    exact slots_of_eq rfl rfl
  | collectSlot b =>
    obtain ⟨⟨sched, popped, released⟩, hsched, rfl⟩ := Option.map_eq_some_iff.mp h
    have hslots := Scheduler.collectSlot_slots hsched
    refine ⟨fun target hmem => ?_, fun c target hfind => ?_⟩
    · rcases hslots.1 target hmem with hne | hmem
      · exact .queued hne
      · exact .ready hmem
    · rcases hslots.2 c target hfind with hne | hfind
      · exact .queued hne
      · exact .assigned hfind
  | reapEntry =>
    obtain ⟨⟨sched, put⟩, hsched, rfl⟩ := Option.map_eq_some_iff.mp h
    obtain ⟨hready, hassigned⟩ := Scheduler.reapEntry_slots hsched
    refine ⟨fun target hmem => .ready ?_,
      fun c target hfind => .assigned (hassigned c target hfind)⟩
    rw [← hready]
    exact hmem
  | delay | collectBegin | collectEnd | reapBegin | reapEnd =>
    have hsame := sameSequences_of_quiet rfl h
    exact slots_of_eq hsame.ready hsame.slotMap

/-- A call on its way was on its way before the step, or has got a slot that was in use. -/
theorem placed_of_call {a : Action} (h : s.step cfg a = some s') {d : Delivery}
    (hd : d ∈ s'.inFlight) : s.Placed d.target := by
  cases a with
  | enqueue header now top =>
    obtain ⟨⟨sched, placement⟩, hsched, rfl⟩ := Option.map_eq_some_iff.mp h
    cases placement with
    | rejected status => exact .called hd rfl
    | backlog queue opens => exact .called hd rfl
    | slot target opens =>
      rcases List.mem_append.mp hd with hd | hd
      · exact .called hd rfl
      · obtain rfl := List.mem_singleton.mp hd
        rcases (Scheduler.assigns_enqueue hsched).placed target opens rfl with hmem | ⟨c, hfind⟩
        · exact .ready hmem
        · exact .assigned hfind
  | deliver call =>
    obtain ⟨d', sched, -, -, rfl⟩ := deliver_eq_some h
    exact .called (List.mem_of_mem_eraseIdx hd) rfl
  | _ =>
    rw [inFlight_step (by simp) (by simp) h] at hd
    exact .called hd rfl

/-- A slot in use was in use before the step. -/
theorem placed_step {a : Action} (h : s.step cfg a = some s') {target : BatchSlot}
    (hplaced : s'.Placed target) : s.Placed target := by
  cases hplaced with
  | ready mem => exact (slots_step h).1 target mem
  | assigned found => exact (slots_step h).2 _ target found
  | called mem eq => exact eq ▸ placed_of_call h mem
  | queued ne => exact placed_of_queue h ne

theorem hasSlot_init {target : BatchSlot} (h : (System.init cfg).Placed target) :
    cfg.HasSlot target := by
  cases h with
  | ready mem =>
    obtain ⟨c, hc, hmem⟩ := List.mem_flatMap.mp mem
    obtain ⟨slot, hslot, rfl⟩ := List.mem_map.mp hmem
    exact ⟨List.mem_range.mp hc, List.mem_range.mp hslot⟩
  | assigned found =>
    rw [init, Scheduler.create, UnorderedMap.find_empty] at found
    cases found
  | called mem eq => cases mem
  | queued ne => exact absurd rfl ne

/-- In every run the slots in use are slots of the batchers. -/
theorem hasSlot_of_reachable {ok : System → Action → Prop}
    (h : ReachableWhen (System.step cfg) ok (.init cfg) s) :
    ∀ target, s.Placed target → cfg.HasSlot target :=
  h.invariant (P := fun s => ∀ target, s.Placed target → cfg.HasSlot target)
    (fun _ hplaced => hasSlot_init hplaced)
    fun _ _ _ ih _ hs target hplaced => ih target (placed_step hs hplaced)

end System

/-- The slots that a pass has visited, and those that it still will. -/
structure CollectPass.Within (cfg : Config) (pass : CollectPass) : Prop where
  payloads : pass.payloads.length = pass.slot
  slot : pass.slot ≤ pass.maxSlot + 1
  maxSlot : pass.maxSlot < cfg.batchSize

namespace System

theorem within_step {a : Action} (hslots : ∀ target, s.Placed target → cfg.HasSlot target)
    (h : ∀ b pass, (s.sched.batchers b).pass = some pass → pass.Within cfg)
    (hs : s.step cfg a = some s') :
    ∀ b pass, (s'.sched.batchers b).pass = some pass → pass.Within cfg := by
  intro b pass' hpass
  have hturned := turned hs b
  generalize s'.sched.batchers b = sb at hturned hpass
  cases hturned with
  | same header queues active pass => exact h b pass' (pass ▸ hpass)
  | delivered found target free =>
    rw [SequenceBatch.enqueue, free] at hpass
    cases hpass
  | forced found assigned idx free =>
    rw [SequenceBatch.enqueue, free] at hpass
    cases hpass
  | @began maxSlot found =>
    obtain rfl := Option.some.inj hpass
    have hplaced : s.Placed ⟨b, maxSlot⟩ := .queued (maxSlotBelow_spec found).2
    exact ⟨rfl, Nat.zero_le _, (hslots _ hplaced).2⟩
  | collected running more header active queues origin next =>
    obtain rfl := Option.some.inj (next.symm.trans hpass)
    obtain ⟨hlen, -, hmax⟩ := h b _ running
    refine ⟨?_, Nat.succ_le_succ more, hmax⟩
    rw [List.length_append, hlen, List.length_singleton]
  | ended running done header queues active next =>
    rw [next] at hpass
    cases hpass

theorem within_of_reachable {ok : System → Action → Prop}
    (h : ReachableWhen (System.step cfg) ok (.init cfg) s) :
    ∀ b pass, (s.sched.batchers b).pass = some pass → pass.Within cfg := by
  induction h with
  | start =>
    intro b pass hpass
    cases hpass
  | step hreach _ hs ih => exact within_step (hasSlot_of_reachable hreach) ih hs

theorem maxActiveSlot_step {a : Action} (hslots : ∀ target, s.Placed target → cfg.HasSlot target)
    (h : ∀ b, (s.sched.batchers b).maxActiveSlot < cfg.batchSize) (hs : s.step cfg a = some s')
    (b : Nat) : (s'.sched.batchers b).maxActiveSlot < cfg.batchSize := by
  have hturned := turned hs b
  generalize s'.sched.batchers b = sb at hturned ⊢
  cases hturned with
  | same header queues active pass => exact active ▸ h b
  | @delivered call d found target free =>
    have hslot := (hslots d.target (.called (List.mem_of_getElem? found) rfl)).2
    exact Int.max_lt.mpr ⟨h b, Int.ofNat_lt.mpr hslot⟩
  | forced found assigned idx free =>
    exact Int.max_lt.mpr ⟨h b, Int.ofNat_lt.mpr (hslots _ (.assigned assigned)).2⟩
  | began found => exact h b
  | collected running more header active queues origin next => exact active ▸ h b
  | ended running done header queues active next =>
    have hneg : (-1 : Int) < cfg.batchSize :=
      Int.lt_of_lt_of_le (Int.negSucc_lt_zero 0) (Int.natCast_nonneg _)
    exact Int.lt_of_le_of_lt active (Int.max_lt.mpr ⟨hneg, h b⟩)

/-- In every run a scheduler thread looks only at queues that its batcher has. -/
theorem maxActiveSlot_of_reachable {ok : System → Action → Prop}
    (h : ReachableWhen (System.step cfg) ok (.init cfg) s) :
    ∀ b, (s.sched.batchers b).maxActiveSlot < cfg.batchSize := by
  induction h with
  | start =>
    intro b
    exact Int.lt_of_lt_of_le (Int.negSucc_lt_zero 0) (Int.natCast_nonneg _)
  | step hreach _ hs ih => exact maxActiveSlot_step (hasSlot_of_reachable hreach) ih hs

/-- In every run a batch has a payload, and no more payloads than a batcher has slots. -/
theorem length_executed {ok : System → Action → Prop}
    (h : ReachableWhen (System.step cfg) ok (.init cfg) s) :
    ∀ e ∈ s.history.executed, 0 < e.payloads.length ∧ e.payloads.length ≤ cfg.batchSize := by
  induction h with
  | start =>
    intro e he
    cases he
  | step hreach _ hs ih =>
    intro e he
    rcases executed_step hs he with he | ⟨pass, hpass, hdone, heq⟩
    · exact ih e he
    · obtain ⟨hlen, hslot, hmax⟩ := within_of_reachable hreach e.batcherIdx pass hpass
      rw [heq, hlen]
      exact ⟨Nat.zero_lt_of_lt hdone, Nat.le_trans hslot hmax⟩

end System

end FinBert.Sequence
