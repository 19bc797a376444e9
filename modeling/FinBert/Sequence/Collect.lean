import FinBert.Sequence.Batches
import Mathlib.Order.Basic

/-!
# A pass over the slots

A pass takes the front of every slot of its batcher, up to the largest slot that has one, and
refills the slots whose sequences end. It holds the mutex of the batcher all the time and that
of the scheduler only while it releases a slot, so the other threads may change the scheduler
between two slots, but not the batcher.

Results:
1. `taken_of_collectSlot`: the visit of one slot, in any state.
2. `pass_collects`: what a whole pass takes, sends and leaves, whatever the other threads do, and
   that there is a pass exactly when there is something to send.
-/

namespace FinBert.Sequence

open FinBert.Serving

variable {cfg : Config} {s s' t : Scheduler} {b : Nat} {maxSlot : Nat}
  {visits : List (Scheduler × Scheduler)} {payloads : List BatchEntry}

/-! ## One slot -/

/-- The front of the queue ends its sequence. -/
def endsFront : List Payload → Bool
  | [] => false
  | p :: _ => p.isEnd

/-- The queue of a slot behind the visit, `queue` before it: the oldest backlog replaces what is
left, when the sequence has ended and there is a backlog. -/
def Scheduler.queueAfter (s : Scheduler) (queue : List Payload) : List Payload :=
  if endsFront queue then
    match s.backlogQueues with
    | [] => queue.tail
    | backlog :: _ => (s.backlogs backlog).map .request
  else queue.tail

/-- A slot is visited: `s` is the scheduler before and `s'` behind it. -/
structure Taken (b : Nat) (s s' : Scheduler) (pass next : CollectPass) : Prop where
  running : (s.batchers b).pass = some pass
  more : pass.slot ≤ pass.maxSlot
  goesOn : (s'.batchers b).pass = some next
  slot : next.slot = pass.slot + 1
  maxSlot : next.maxSlot = pass.maxSlot
  payloads : next.payloads = pass.payloads ++ [Scheduler.batchEntry
    (s.batchers b).nullRequestHeader ((s.batchers b).queues pass.slot).head?]
  header : (s'.batchers b).nullRequestHeader = (s.batchers b).nullRequestHeader
  queues : (s'.batchers b).queues = Function.update (s.batchers b).queues pass.slot
    (s.queueAfter ((s.batchers b).queues pass.slot))
  backlogQueues : s'.backlogQueues =
    if endsFront ((s.batchers b).queues pass.slot) then s.backlogQueues.tail else s.backlogQueues
  reaper : s'.reaper = s.reaper

theorem taken_setBatcher {s₁ : Scheduler} {sb : SequenceBatch} {pass next : CollectPass}
    {queue : List Payload} (hqueue : (s.batchers b).queues pass.slot = queue)
    (hpass : (s.batchers b).pass = some pass) (hmore : pass.slot ≤ pass.maxSlot)
    (hnext : sb.pass = some next) (hslot : next.slot = pass.slot + 1)
    (hmaxSlot : next.maxSlot = pass.maxSlot)
    (hpayloads : next.payloads = pass.payloads ++
      [Scheduler.batchEntry (s.batchers b).nullRequestHeader queue.head?])
    (hheader : sb.nullRequestHeader = (s.batchers b).nullRequestHeader)
    (hqueues : sb.queues = Function.update (s.batchers b).queues pass.slot (s.queueAfter queue))
    (hbacklog : s₁.backlogQueues =
      if endsFront queue then s.backlogQueues.tail else s.backlogQueues)
    (hreaper : s₁.reaper = s.reaper) : Taken b s (s₁.setBatcher b sb) pass next := by
  have hsb : (s₁.setBatcher b sb).batchers b = sb := Function.update_self ..
  subst hqueue
  exact ⟨hpass, hmore, (congrArg SequenceBatch.pass hsb).trans hnext, hslot, hmaxSlot, hpayloads,
    (congrArg SequenceBatch.nullRequestHeader hsb).trans hheader,
    (congrArg SequenceBatch.queues hsb).trans hqueues, hbacklog, hreaper⟩

/-- The visit of one slot. -/
theorem taken_of_collectSlot {popped : Option Payload} {released : Option Scheduler.Release}
    (h : s.collectSlot cfg b = some (s', popped, released)) :
    ∃ pass next, Taken b s s' pass next := by
  obtain ⟨pass, hpass, hmore, hvisited⟩ := Scheduler.collectSlot_eq_some h
  cases hvisited with
  | empty hempty =>
    have hsame : (s.batchers b).queues =
        Function.update (s.batchers b).queues pass.slot (s.queueAfter []) := by
      rw [Scheduler.queueAfter, endsFront, if_neg Bool.false_ne_true, List.tail_nil, ← hempty,
        Function.update_eq_self]
    exact ⟨pass, _, taken_setBatcher hempty hpass hmore rfl rfl rfl (by rw [← hempty]; rfl) rfl
      hsame rfl rfl⟩
  | collected hqueue hgoesOn =>
    have hgoesOn' := Bool.eq_false_iff.mp hgoesOn
    refine ⟨pass, _, taken_setBatcher hqueue hpass hmore rfl rfl rfl (by rw [← hqueue]; rfl) rfl
      ?_ ?_ rfl⟩
    · rw [Scheduler.queueAfter, endsFront, if_neg hgoesOn']
      rfl
    · rw [endsFront, if_neg hgoesOn']
  | handedOn hqueue hends hfree hlog hrelease | freed hqueue hends hfree hlog hrelease =>
    have hreleased := Scheduler.released_of_releaseBatchSlot hrelease
    refine ⟨pass, _, taken_setBatcher hqueue hpass hmore rfl rfl rfl (by rw [← hqueue]; rfl) rfl
      ?_ ?_ hreleased.reaper⟩
    · rw [hreleased.queue, Scheduler.queueAfter, endsFront, if_pos hends]
      rfl
    · rw [hreleased.backlogQueues, endsFront, if_pos hends]

/-- A pass can visit its next slot while no other thread holds the mutex of the scheduler. -/
theorem exists_collectSlot {pass : CollectPass} (cfg : Config)
    (hpass : (s.batchers b).pass = some pass) (hmore : pass.slot ≤ pass.maxSlot)
    (hfree : s.reaper = none) :
    ∃ s' popped released, s.collectSlot cfg b = some (s', popped, released) := by
  unfold Scheduler.collectSlot
  dsimp only
  rw [hpass]
  dsimp only
  rw [if_neg (Nat.not_lt_of_le hmore), hfree]
  split
  · exact ⟨_, _, _, rfl⟩
  · split
    · rw [if_neg (by simp)]
      split
      · exact ⟨_, _, _, rfl⟩
      · exact ⟨_, _, _, rfl⟩
    · exact ⟨_, _, _, rfl⟩

/-! ## All slots -/

/-- The loop over the slots. `visits` has the scheduler before and behind each visit. After a
visit, the other threads may change everything but the batcher. -/
inductive Visits (cfg : Config) (b : Nat) :
    Scheduler → List (Scheduler × Scheduler) → Scheduler → Prop
  | done (s : Scheduler) : Visits cfg b s [] s
  | visit {s s₁ s₂ t : Scheduler} {popped : Option Payload} {released : Option Scheduler.Release}
      {visits : List (Scheduler × Scheduler)}
      (slot : s.collectSlot cfg b = some (s₁, popped, released))
      (others : s₂.batchers b = s₁.batchers b) (rest : Visits cfg b s₂ visits t) :
      Visits cfg b s ((s, s₁) :: visits) t

/-- A pass of the thread of batcher `b`, from the state in which it takes the mutex to the one
in which it gives it back, with the payloads that it runs then. -/
inductive Pass (cfg : Config) (b : Nat) (s : Scheduler) (visits : List (Scheduler × Scheduler))
    (t : Scheduler) (payloads : List BatchEntry) : Prop
  | intro {s₀ s₁ s₂ : Scheduler} (start : s.collectBegin b = some s₀)
      (others : s₁.batchers b = s₀.batchers b) (slots : Visits cfg b s₁ visits s₂)
      (finish : s₂.collectEnd b = some (t, payloads))

/-- Some slots have been visited, from `pass` to `last`. -/
structure TakenAll (b : Nat) (s : Scheduler) (visits : List (Scheduler × Scheduler))
    (t : Scheduler) (pass last : CollectPass) : Prop where
  goesOn : (t.batchers b).pass = some last
  slot : last.slot = pass.slot + visits.length
  maxSlot : last.maxSlot = pass.maxSlot
  within : visits = [] ∨ last.slot ≤ last.maxSlot + 1
  payloads : last.payloads = pass.payloads ++ (List.range' pass.slot visits.length).map fun i =>
    Scheduler.batchEntry (s.batchers b).nullRequestHeader ((s.batchers b).queues i).head?
  visited : ∀ k before after, visits[k]? = some (before, after) →
    (t.batchers b).queues (pass.slot + k) =
        before.queueAfter ((s.batchers b).queues (pass.slot + k)) ∧
      after.backlogQueues = if endsFront ((s.batchers b).queues (pass.slot + k)) then
        before.backlogQueues.tail else before.backlogQueues
  others : ∀ i, i < pass.slot ∨ pass.slot + visits.length ≤ i →
    (t.batchers b).queues i = (s.batchers b).queues i

theorem takenAll {pass : CollectPass} (h : Visits cfg b s visits t)
    (hpass : (s.batchers b).pass = some pass) : ∃ last, TakenAll b s visits t pass last := by
  induction h generalizing pass with
  | done s =>
    exact ⟨pass, hpass, rfl, rfl, .inl rfl, (List.append_nil _).symm, by simp, fun _ _ => rfl⟩
  | @visit s s₁ s₂ t popped released visits hslot hothers hvisits ih =>
    obtain ⟨pass', next, htaken⟩ := taken_of_collectSlot hslot
    obtain rfl := Option.some.inj (hpass.symm.trans htaken.running)
    obtain ⟨last, hrest⟩ := ih (hothers ▸ htaken.goesOn)
    have hqueues : (s₂.batchers b).queues = Function.update (s.batchers b).queues pass.slot
        (s.queueAfter ((s.batchers b).queues pass.slot)) := hothers ▸ htaken.queues
    have hheader : (s₂.batchers b).nullRequestHeader = (s.batchers b).nullRequestHeader :=
      hothers ▸ htaken.header
    have hother : ∀ i, i ≠ pass.slot → (s₂.batchers b).queues i = (s.batchers b).queues i :=
      fun i hi => by rw [hqueues, Function.update_of_ne hi]
    refine ⟨last, hrest.goesOn, ?_, hrest.maxSlot.trans htaken.maxSlot, .inr ?_, ?_, ?_, ?_⟩
    · rw [hrest.slot, htaken.slot, List.length_cons, Nat.add_assoc, Nat.add_comm 1]
    · rcases hrest.within with hnil | hle
      · rw [hrest.slot, hrest.maxSlot, htaken.slot, htaken.maxSlot, hnil]
        exact Nat.succ_le_succ htaken.more
      · exact hle
    · rw [hrest.payloads, htaken.payloads, List.length_cons, List.range'_succ, List.map_cons,
        List.append_assoc, List.singleton_append, hheader, htaken.slot]
      congr 2
      refine List.map_congr_left fun i hi => ?_
      rw [hother i (Nat.ne_of_gt (List.left_le_of_mem_range' hi))]
    · rintro (_ | k) before after hk
      · -- the slot of this visit is not visited again
        cases hk
        have hkept := hrest.others pass.slot (.inl (htaken.slot ▸ Nat.lt_succ_self _))
        rw [hqueues, Function.update_self] at hkept
        exact ⟨hkept, htaken.backlogQueues⟩
      · have hne : pass.slot + (k + 1) ≠ pass.slot := fun h =>
          Nat.succ_ne_zero k (Nat.add_left_cancel (h.trans (Nat.add_zero _).symm))
        have hvisited := hrest.visited k before after hk
        rwa [htaken.slot, Nat.add_assoc, Nat.add_comm 1 k, hother _ hne] at hvisited
    · intro i hi
      have hne : i ≠ pass.slot := by
        rintro rfl
        rcases hi with hi | hi
        · exact Nat.lt_irrefl _ hi
        · exact Nat.not_succ_le_self _ ((Nat.succ_le_succ (Nat.le_add_right _ _)).trans hi)
      rw [← hother i hne]
      refine hrest.others i (hi.imp (fun hi => ?_) fun hi => ?_)
      · exact htaken.slot ▸ Nat.lt_succ_of_lt hi
      · rwa [htaken.slot, Nat.add_assoc, Nat.add_comm 1]

theorem exists_visits (cfg : Config) {n : Nat} {pass : CollectPass}
    (hpass : (s.batchers b).pass = some pass) (hslots : pass.slot + n = pass.maxSlot + 1)
    (hfree : s.reaper = none) :
    ∃ visits t last, Visits cfg b s visits t ∧ (t.batchers b).pass = some last ∧
      last.maxSlot < last.slot := by
  induction n generalizing s pass with
  | zero => exact ⟨[], s, pass, .done s, hpass, Nat.lt_of_succ_le hslots.ge⟩
  | succ n ih =>
    have hmore : pass.slot ≤ pass.maxSlot :=
      Nat.le_of_succ_le_succ ((Nat.succ_le_succ (Nat.le_add_right _ n)).trans hslots.le)
    obtain ⟨s₁, popped, released, hslot⟩ := exists_collectSlot cfg hpass hmore hfree
    obtain ⟨pass', next, htaken⟩ := taken_of_collectSlot hslot
    obtain rfl := Option.some.inj (hpass.symm.trans htaken.running)
    obtain ⟨visits, t, last, hvisits, hlast⟩ := ih htaken.goesOn
      (by rw [htaken.slot, htaken.maxSlot, Nat.add_assoc, Nat.add_comm 1, hslots])
      (htaken.reaper.trans hfree)
    exact ⟨(s, s₁) :: visits, t, last, .visit hslot rfl hvisits, hlast⟩

/-! ## The pass -/

theorem maxSlotBelow_eq_none_iff {queues : Nat → List Payload} {n : Nat} :
    maxSlotBelow queues n = none ↔ ∀ i < n, queues i = [] := by
  induction n with
  | zero => exact iff_of_true rfl fun i hi => absurd hi (Nat.not_lt_zero i)
  | succ n ih =>
    rw [maxSlotBelow, Nat.forall_lt_succ_right]
    split
    · next hnil => rw [ih, and_iff_left hnil]
    · next hne => exact iff_of_false (Option.some_ne_none n) fun h => hne h.2

theorem eq_nil_of_maxSlotBelow {queues : Nat → List Payload} {n maxSlot : Nat}
    (h : maxSlotBelow queues n = some maxSlot) : ∀ i < n, maxSlot < i → queues i = [] := by
  induction n with
  | zero => exact fun i hi => absurd hi (Nat.not_lt_zero i)
  | succ n ih =>
    rw [maxSlotBelow] at h
    split at h
    · next hnil => exact Nat.forall_lt_succ_right.mpr ⟨ih h, fun _ => hnil⟩
    · obtain rfl := Option.some.inj h
      exact fun i hi hlt => absurd (Nat.le_of_lt_succ hi) (Nat.not_le_of_lt hlt)

/-- `max_active_slot_` is not below any slot that has payloads. -/
def SequenceBatch.Covers (sb : SequenceBatch) : Prop :=
  ∀ slot, sb.queues slot ≠ [] → (slot : Int) ≤ sb.maxActiveSlot

/-- The largest slot that has payloads. -/
structure SequenceBatch.IsMaxSlot (sb : SequenceBatch) (maxSlot : Nat) : Prop where
  ne_nil : sb.queues maxSlot ≠ []
  le : ∀ slot, sb.queues slot ≠ [] → slot ≤ maxSlot

theorem SequenceBatch.Covers.isMaxSlot {sb : SequenceBatch} (h : sb.Covers)
    (hmax : maxSlotBelow sb.queues (sb.maxActiveSlot + 1).toNat = some maxSlot) :
    sb.IsMaxSlot maxSlot where
  ne_nil := (maxSlotBelow_spec hmax).2
  le slot hslot := by
    refine Nat.le_of_not_lt fun hlt => hslot (eq_nil_of_maxSlotBelow hmax slot ?_ hlt)
    exact Int.lt_toNat.mpr (Int.lt_add_one_iff.mpr (h slot hslot))

/-- What a pass does with the slots of a batcher. -/
structure Collects (sb : SequenceBatch) (b maxSlot : Nat) (visits : List (Scheduler × Scheduler))
    (t : Scheduler) (payloads : List BatchEntry) : Prop where
  length : payloads.length = maxSlot + 1
  request : ∀ i ≤ maxSlot, ∀ r rest, sb.queues i = .request r :: rest →
    payloads[i]? = some (.request r (if r.header.seqStart then .start else .continue))
  null : ∀ i ≤ maxSlot, (∀ r rest, sb.queues i ≠ .request r :: rest) →
    payloads[i]? = some (.null sb.nullRequestHeader .notready)
  empty : ∀ i, sb.queues i = [] → (t.batchers b).queues i = []
  taken : ∀ i p rest, sb.queues i = p :: rest → ∃ before after, visits[i]? = some (before, after) ∧
    (p.isEnd = false ∨ before.backlogQueues = [] →
      (t.batchers b).queues i = rest ∧ after.backlogQueues = before.backlogQueues) ∧
    ∀ backlog backlogs, p.isEnd = true → before.backlogQueues = backlog :: backlogs →
      (t.batchers b).queues i = (before.backlogs backlog).map .request ∧
        after.backlogQueues = backlogs

theorem batchEntry_head? (header : InferRequestHeader) (queue : List Payload) :
    (∀ r rest, queue = .request r :: rest → Scheduler.batchEntry header queue.head? =
      .request r (if r.header.seqStart then .start else .continue)) ∧
    ((∀ r rest, queue ≠ .request r :: rest) →
      Scheduler.batchEntry header queue.head? = .null header .notready) := by
  constructor
  · rintro r rest rfl
    rfl
  · intro h
    cases queue with
    | nil => rfl
    | cons p rest =>
      cases p with
      | request r => exact absurd rfl (h r rest)
      | forceEnd o => rfl

/-- The loop over the slots, from the first to the last one. -/
theorem TakenAll.collects {sb : SequenceBatch} {pass last : CollectPass}
    (h : TakenAll b s visits t pass last) (hqueues : (s.batchers b).queues = sb.queues)
    (hheader : (s.batchers b).nullRequestHeader = sb.nullRequestHeader)
    (hmax : sb.IsMaxSlot maxSlot) (hslot : pass.slot = 0) (hpayloads : pass.payloads = [])
    (hlength : visits.length = maxSlot + 1) {t' : Scheduler}
    (hend : (t'.batchers b).queues = (t.batchers b).queues) :
    Collects sb b maxSlot visits t' last.payloads := by
  have hlast := h.payloads
  rw [hslot, hpayloads, hlength, hqueues, hheader, List.nil_append] at hlast
  have hentry : ∀ i ≤ maxSlot, last.payloads[i]? =
      some (Scheduler.batchEntry sb.nullRequestHeader (sb.queues i).head?) := by
    intro i hi
    rw [hlast, List.getElem?_map, List.getElem?_range' (Nat.lt_succ_of_le hi), Nat.one_mul,
      Nat.zero_add]
    rfl
  have hvisit : ∀ i ≤ maxSlot, ∃ before after, visits[i]? = some (before, after) :=
    fun i hi => ⟨_, _, List.getElem?_eq_getElem (hlength ▸ Nat.lt_succ_of_le hi)⟩
  refine ⟨?_, fun i hi r rest hqueue => ?_, fun i hi hqueue => ?_, fun i hnil => ?_, ?_⟩
  · rw [hlast, List.length_map, List.length_range']
  · rw [hentry i hi, (batchEntry_head? _ _).1 r rest hqueue]
  · rw [hentry i hi, (batchEntry_head? _ _).2 hqueue]
  · rcases Nat.lt_or_ge maxSlot i with hlt | hle
    · rw [hend, h.others i (.inr (by rwa [hslot, hlength, Nat.zero_add])), hqueues, hnil]
    · obtain ⟨before, after, hvisit⟩ := hvisit i hle
      have hvisited := (h.visited i before after hvisit).1
      rwa [hslot, Nat.zero_add, hqueues, hnil, ← hend] at hvisited
  · intro i p rest hqueue
    obtain ⟨before, after, hvisit⟩ := hvisit i (hmax.le i (hqueue ▸ List.cons_ne_nil p rest))
    have hvisited := h.visited i before after hvisit
    rw [hslot, Nat.zero_add, hqueues, hqueue, Scheduler.queueAfter, endsFront] at hvisited
    rw [hend]
    refine ⟨before, after, hvisit, ?_, fun backlog backlogs hend hbacklog => ?_⟩
    · rintro (hgoesOn | hnone)
      · rwa [hgoesOn, if_neg Bool.false_ne_true, if_neg Bool.false_ne_true] at hvisited
      · rw [hnone] at hvisited ⊢
        simpa using hvisited
    · rwa [hend, if_pos rfl, if_pos rfl, hbacklog] at hvisited

theorem exists_pass (cfg : Config) (hcovers : (s.batchers b).Covers)
    (hpass : (s.batchers b).pass = none) (hdelay : (s.batchers b).delayCnt = 0)
    (hfree : s.reaper = none) {slot : Nat} (hslot : (s.batchers b).queues slot ≠ []) :
    ∃ visits t payloads, Pass cfg b s visits t payloads := by
  obtain ⟨maxSlot, hmax⟩ : ∃ maxSlot, maxSlotBelow (s.batchers b).queues
      ((s.batchers b).maxActiveSlot + 1).toNat = some maxSlot := by
    refine Option.ne_none_iff_exists'.mp fun hnone => hslot ?_
    exact maxSlotBelow_eq_none_iff.mp hnone slot
      (Int.lt_toNat.mpr (Int.lt_add_one_iff.mpr (hcovers slot hslot)))
  let pass : CollectPass :=
    { slot := 0, maxSlot := maxSlot, payloads := [], adjustMaxActiveSlot := false }
  let s₀ := s.setBatcher b { s.batchers b with pass := some pass }
  have hstart : s.collectBegin b = some s₀ := by
    unfold Scheduler.collectBegin
    dsimp only
    rw [hpass, if_neg (by simp [hdelay]), hmax]
  have hrunning : (s₀.batchers b).pass = some pass := by
    rw [Scheduler.batchers_setBatcher, if_pos rfl]
  obtain ⟨visits, t, last, hvisits, hlast, hlt⟩ :=
    exists_visits cfg hrunning (Nat.zero_add _) hfree
  obtain ⟨⟨t', payloads⟩, hfinish⟩ : ∃ result, t.collectEnd b = some result := by
    unfold Scheduler.collectEnd
    dsimp only
    rw [hlast]
    dsimp only
    rw [if_pos hlt]
    exact ⟨_, rfl⟩
  exact ⟨visits, t', payloads, .intro hstart rfl hvisits hfinish⟩

/-- A pass collects, whatever the other threads do. -/
theorem Pass.collects (h : Pass cfg b s visits t payloads) (hcovers : (s.batchers b).Covers) :
    ∃ maxSlot, (s.batchers b).IsMaxSlot maxSlot ∧
      Collects (s.batchers b) b maxSlot visits t payloads := by
  obtain ⟨hstart, hothers, hslots, hfinish⟩ := h
  obtain ⟨-, maxSlot, hmaxSlot, rfl⟩ := Scheduler.collectBegin_eq_some hstart
  have hmax := hcovers.isMaxSlot hmaxSlot
  have hbegun := hothers.trans (Function.update_self b _ s.batchers)
  obtain ⟨last, htaken⟩ := takenAll hslots (congrArg SequenceBatch.pass hbegun)
  obtain ⟨pass, hpass, hlt, rfl, rfl⟩ := Scheduler.collectEnd_eq_some hfinish
  obtain rfl := Option.some.inj (htaken.goesOn.symm.trans hpass)
  refine ⟨maxSlot, hmax, htaken.collects (by rw [hbegun]) (by rw [hbegun]) hmax rfl rfl ?_
    (by rw [Scheduler.batchers_setBatcher, if_pos rfl])⟩
  -- the loop ends behind the largest slot
  have hslot := htaken.slot
  have hlast := htaken.maxSlot
  rw [Nat.zero_add] at hslot
  rw [hlast, hslot] at hlt
  refine Nat.le_antisymm ?_ hlt
  rcases htaken.within with hnil | hle
  · rw [hnil]
    exact Nat.zero_le _
  · rwa [hslot, hlast] at hle

/-- For every state in which no slot with payloads lies behind `max_active_slot_`: a pass sends
the fronts of the slots, each at the index of its slot, and refills the slots whose sequences
have ended. The thread makes a pass exactly when there is something to send. -/
theorem pass_collects (cfg : Config) (s : Scheduler) (b : Nat) (hcovers : (s.batchers b).Covers) :
    (∀ visits t payloads, Pass cfg b s visits t payloads → ∃ maxSlot,
      (s.batchers b).IsMaxSlot maxSlot ∧
        Collects (s.batchers b) b maxSlot visits t payloads) ∧
    ((s.batchers b).pass = none → (s.batchers b).delayCnt = 0 → s.reaper = none →
      ((∃ visits t payloads, Pass cfg b s visits t payloads) ↔
        ∃ slot, (s.batchers b).queues slot ≠ [])) := by
  refine ⟨fun visits t payloads hpass => hpass.collects hcovers, fun hpass hdelay hfree => ?_⟩
  constructor
  · rintro ⟨visits, t, payloads, hrun⟩
    obtain ⟨maxSlot, hmax, -⟩ := hrun.collects hcovers
    exact ⟨maxSlot, hmax.ne_nil⟩
  · rintro ⟨slot, hslot⟩
    exact exists_pass cfg hcovers hpass hdelay hfree hslot

/-- Two slots, and a request that ends its sequence in the second one. -/
def oneQueued (cfg : Config) : Scheduler :=
  (Scheduler.create cfg).setBatcher 0 <| ((Scheduler.create cfg).batchers 0).enqueue 1 7
    (.request { header := { batchSize := 1, correlationId := 7, flags := 3 }, id := 0,
                occupancy := ⟨7, 0⟩ })

theorem covers_oneQueued (cfg : Config) : ((oneQueued cfg).batchers 0).Covers := by
  intro slot hslot
  obtain rfl : slot = 1 := by
    by_contra hne
    exact hslot (Function.update_of_ne hne _ _)
  exact Int.le_max_right _ _

theorem pass_collects_oneQueued :
    ∃ visits t payloads, Pass ⟨"model", 1, 2, 1000, 0, 0⟩ 0 (oneQueued ⟨"model", 1, 2, 1000, 0, 0⟩)
      visits t payloads :=
  ((pass_collects ⟨"model", 1, 2, 1000, 0, 0⟩ (oneQueued ⟨"model", 1, 2, 1000, 0, 0⟩) 0
    (covers_oneQueued _)).2 rfl rfl rfl).mpr ⟨1, List.cons_ne_nil _ _⟩

end FinBert.Sequence
