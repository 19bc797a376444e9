import FinBert.Sequence.Delivery
import FinBert.Sequence.Locks

/-!
# Threads that wait for each other

The reaper asks for a batcher's mutex while it holds the scheduler mutex; a scheduler
thread asks for the scheduler mutex while it holds its own. A client holds nothing
while it waits.

Results:
1. `not_waitCycle_of_run`: no threads wait for each other in a cycle, as long as the
   reaper and a scheduler thread that still needs the scheduler mutex keep out of each
   other's way.
2. `waitCycle_of_interleaving`: the reaper and a scheduler thread can meet.
-/

namespace FinBert.Sequence

open FinBert.Serving Transition Locks

/-- The mutexes of the sections that a client is in. -/
def ClientPc.Inside : ClientPc → Mutex → Prop
  | .inScheduler _, m => m = .scheduler
  | .inBatcher d, m => m = .batcher d.target.batcherIdx
  | _, _ => False

def ReaperPc.Inside : ReaperPc → Mutex → Prop
  | .sweeping, m | .waitsBatcher _, m => m = .scheduler
  | .inBatcher b, m => m = .scheduler ∨ m = .batcher b
  | _, _ => False

def SchedulerPc.Inside (b : Nat) : SchedulerPc → Mutex → Prop
  | .outside, _ | .waitsOwn, _ => False
  | .inScheduler _, m => m = .scheduler ∨ m = .batcher b
  | _, m => m = .batcher b

namespace Locked

/-- The thread is in a section of the mutex. -/
def Inside (s : Locked) : Thread → Mutex → Prop
  | .client n => (s.client n).Inside
  | .reaper => s.reaper.Inside
  | .scheduler b => (s.scheduler b).Inside b

/-- One of the slots from `first` on and below `stop` has an end in front. -/
def endsIn (sb : SequenceBatch) (first stop : Nat) : Bool :=
  (List.range stop).any fun slot => first ≤ slot && (sb.queues slot).head?.any Payload.isEnd

/-- The thread of batcher `b` is in its section and still has to take the scheduler mutex:
for `DelayScheduler`, or for `ReleaseBatchSlot` of a slot that it will visit. -/
def needsScheduler (s : Locked) (b : Nat) : Bool :=
  let sb := s.sys.sched.batchers b
  match s.scheduler b with
  | .outside | .waitsOwn | .leaving => false
  | .looking => 0 < sb.delayCnt || endsIn sb 0 (sb.maxActiveSlot + 1).toNat
  | .collecting => sb.pass.any fun pass => endsIn sb pass.slot (pass.maxSlot + 1)
  | .waitsScheduler _ | .inScheduler _ => true

/-- The reaper does not ask for the mutex of a batcher whose thread is in its section and
still needs the scheduler mutex; and no such section begins while the reaper waits. -/
def keepsApart (cfg : Config) (s : Locked) : LockAction → Bool
  | .requestForceEnd =>
    (s.sys.sched.forceEndTarget cfg).all fun target => !s.needsScheduler target.batcherIdx
  | .acquire (.scheduler b) =>
    !(s.scheduler b = .waitsOwn && s.reaper = .waitsBatcher b &&
      (s.setScheduler b .looking).needsScheduler b)
  | _ => true

structure LockInv (s : Locked) : Prop where
  owned : Owned s.owner s.Inside
  apart : ∀ b, s.reaper = .waitsBatcher b → s.needsScheduler b = false

variable {cfg : Config} {s s' : Locked}

/-! ## The owners -/

theorem inside_setClient {n : Nat} {pc : ClientPc} :
    ∀ t' ≠ .client n, (s.setClient n pc).Inside t' = s.Inside t' := by
  intro t' ht
  cases t' with
  | client n' =>
    have hne : n' ≠ n := by rintro rfl; exact ht rfl
    simp [Inside, setClient, hne]
  | _ => rfl

theorem inside_setReaper {pc : ReaperPc} :
    ∀ t' ≠ .reaper, (s.setReaper pc).Inside t' = s.Inside t' := by
  intro t' ht
  cases t' with
  | reaper => exact absurd rfl ht
  | _ => rfl

theorem inside_setScheduler {b : Nat} {pc : SchedulerPc} :
    ∀ t' ≠ .scheduler b, (s.setScheduler b pc).Inside t' = s.Inside t' := by
  intro t' ht
  cases t' with
  | scheduler b' =>
    have hne : b' ≠ b := by rintro rfl; exact ht rfl
    simp [Inside, setScheduler, hne]
  | _ => rfl

@[simp] theorem inside_setClient_self {n : Nat} {pc : ClientPc} :
    (s.setClient n pc).Inside (.client n) = pc.Inside := by
  simp [Inside, setClient]

@[simp] theorem inside_setScheduler_self {b : Nat} {pc : SchedulerPc} :
    (s.setScheduler b pc).Inside (.scheduler b) = pc.Inside b := by
  simp [Inside, setScheduler]

/-- A client, the reaper or a scheduler thread moves to a place in no other sections. -/
theorem owned_setClient (h : Owned s.owner s.Inside) {n : Nat} {pc : ClientPc}
    (hin : ∀ m, pc.Inside m ↔ (s.client n).Inside m) :
    Owned s.owner (s.setClient n pc).Inside :=
  h.move inside_setClient fun m => by rw [inside_setClient_self]; exact hin m

theorem owned_setReaper (h : Owned s.owner s.Inside) {pc : ReaperPc}
    (hin : ∀ m, pc.Inside m ↔ s.reaper.Inside m) : Owned s.owner (s.setReaper pc).Inside :=
  h.move inside_setReaper hin

theorem owned_setScheduler (h : Owned s.owner s.Inside) {b : Nat} {pc : SchedulerPc}
    (hin : ∀ m, pc.Inside b m ↔ (s.scheduler b).Inside b m) :
    Owned s.owner (s.setScheduler b pc).Inside :=
  h.move inside_setScheduler fun m => by rw [inside_setScheduler_self]; exact hin m

/-- It enters a section of a free mutex. -/
theorem owned_enterClient (h : Owned s.owner s.Inside) {n : Nat} {pc : ClientPc} {m : Mutex}
    (hfree : s.owner m = none) (hin : ∀ m', pc.Inside m' ↔ (s.client n).Inside m' ∨ m' = m) :
    Owned (Function.update s.owner m (some (.client n))) (s.setClient n pc).Inside :=
  h.acquire hfree inside_setClient fun m' => by rw [inside_setClient_self]; exact hin m'

theorem owned_enterReaper (pc : ReaperPc) (h : Owned s.owner s.Inside) {m : Mutex}
    (hfree : s.owner m = none) (hin : ∀ m', pc.Inside m' ↔ s.reaper.Inside m' ∨ m' = m) :
    Owned (Function.update s.owner m (some .reaper)) (s.setReaper pc).Inside :=
  h.acquire hfree inside_setReaper hin

theorem owned_enterScheduler (h : Owned s.owner s.Inside) {b : Nat} {pc : SchedulerPc}
    {m : Mutex} (hfree : s.owner m = none)
    (hin : ∀ m', pc.Inside b m' ↔ (s.scheduler b).Inside b m' ∨ m' = m) :
    Owned (Function.update s.owner m (some (.scheduler b))) (s.setScheduler b pc).Inside :=
  h.acquire hfree inside_setScheduler fun m' => by rw [inside_setScheduler_self]; exact hin m'

/-- It leaves a section. -/
theorem owned_releaseClient (h : Owned s.owner s.Inside) {n : Nat} {pc : ClientPc} {m : Mutex}
    (hm : (s.client n).Inside m) (hin : ∀ m', pc.Inside m' ↔ (s.client n).Inside m' ∧ m' ≠ m) :
    Owned (Function.update s.owner m none) (s.setClient n pc).Inside :=
  have hm : s.Inside (.client n) m := hm
  h.release hm inside_setClient fun m' => by
    rw [inside_setClient_self]; exact hin m'

theorem owned_releaseReaper (pc : ReaperPc) (h : Owned s.owner s.Inside) {m : Mutex}
    (hm : s.reaper.Inside m) (hin : ∀ m', pc.Inside m' ↔ s.reaper.Inside m' ∧ m' ≠ m) :
    Owned (Function.update s.owner m none) (s.setReaper pc).Inside :=
  have hm : s.Inside .reaper m := hm
  h.release hm inside_setReaper hin

theorem owned_releaseScheduler (h : Owned s.owner s.Inside) {b : Nat} {pc : SchedulerPc}
    {m : Mutex} (hm : (s.scheduler b).Inside b m)
    (hin : ∀ m', pc.Inside b m' ↔ (s.scheduler b).Inside b m' ∧ m' ≠ m) :
    Owned (Function.update s.owner m none) (s.setScheduler b pc).Inside :=
  have hm : s.Inside (.scheduler b) m := hm
  h.release hm inside_setScheduler fun m' => by
    rw [inside_setScheduler_self]; exact hin m'

/-- A thread goes on with the mutex that it has waited for, in each place where one waits. -/
inductive Entered (s : Locked) : Thread → Mutex → Locked → Prop
  | clientScheduler {n : Nat} {header : InferRequestHeader}
      (hpc : s.client n = .waitsScheduler header) :
      Entered s (.client n) .scheduler (s.setClient n (.inScheduler header))
  | clientBatcher {n : Nat} {d : Delivery} (hpc : s.client n = .waitsBatcher d) :
      Entered s (.client n) (.batcher d.target.batcherIdx) (s.setClient n (.inBatcher d))
  | reaperScheduler (hpc : s.reaper = .waitsScheduler) :
      Entered s .reaper .scheduler (s.setReaper .sweeping)
  | reaperBatcher {b : Nat} (hpc : s.reaper = .waitsBatcher b) :
      Entered s .reaper (.batcher b) (s.setReaper (.inBatcher b))
  | schedulerOwn {b : Nat} (hpc : s.scheduler b = .waitsOwn) :
      Entered s (.scheduler b) (.batcher b) (s.setScheduler b .looking)
  | schedulerNested {b : Nat} {call : NestedCall} (hpc : s.scheduler b = .waitsScheduler call) :
      Entered s (.scheduler b) .scheduler (s.setScheduler b (.inScheduler call))

theorem entered_of_waits {t : Thread} {m : Mutex} (hm : s.waits t = some m) :
    Entered s t m (s.enter t) := by
  unfold waits at hm
  unfold enter
  cases t with
  | client n =>
    cases hpc : s.client n <;> simp only [hpc] at hm ⊢ <;> cases hm
    · exact .clientScheduler hpc
    · exact .clientBatcher hpc
  | reaper =>
    cases hpc : s.reaper <;> simp only [hpc] at hm ⊢ <;> cases hm
    · exact .reaperScheduler hpc
    · exact .reaperBatcher hpc
  | scheduler b =>
    cases hpc : s.scheduler b <;> simp only [hpc] at hm ⊢ <;> cases hm
    · exact .schedulerOwn hpc
    · exact .schedulerNested hpc

/-- A mutex that is taken was waited for, and free. -/
theorem acquire_cases {t : Thread} (hs : s.acquire t = some s') :
    ∃ m s₁, Entered s t m s₁ ∧ s.owner m = none ∧
      s' = { s₁ with owner := Function.update s.owner m (some t) } := by
  unfold acquire at hs
  cases hm : s.waits t with
  | none =>
    rw [hm] at hs
    cases hs
  | some m =>
    rw [hm] at hs
    obtain ⟨hfree, hs⟩ := Option.ite_none_right_eq_some.mp hs
    exact ⟨m, s.enter t, entered_of_waits hm, hfree, (Option.some.inj hs).symm⟩

theorem owned_acquire (h : Owned s.owner s.Inside) {t : Thread} (hs : s.acquire t = some s') :
    Owned s'.owner s'.Inside := by
  obtain ⟨m, s₁, hentered, hfree, rfl⟩ := acquire_cases hs
  cases hentered with
  | clientScheduler hpc =>
    exact owned_enterClient h hfree fun m' => by simp [hpc, ClientPc.Inside]
  | clientBatcher hpc =>
    exact owned_enterClient h hfree fun m' => by simp [hpc, ClientPc.Inside]
  | reaperScheduler hpc =>
    exact owned_enterReaper .sweeping h hfree fun m' => by simp [hpc, ReaperPc.Inside]
  | @reaperBatcher b hpc =>
    exact owned_enterReaper (.inBatcher b) h hfree fun m' => by simp [hpc, ReaperPc.Inside]
  | schedulerOwn hpc =>
    exact owned_enterScheduler h hfree fun m' => by simp [hpc, SchedulerPc.Inside]
  | schedulerNested hpc =>
    exact owned_enterScheduler h hfree fun m' => by simp [hpc, SchedulerPc.Inside, or_comm]

/-- The owners follow the sections along every step. -/
theorem owned_step (h : Owned s.owner s.Inside) {a : LockAction} (hs : s.step cfg a = some s') :
    Owned s'.owner s'.Inside := by
  cases a with
  | acquire t => exact owned_acquire h hs
  | call n header =>
    obtain ⟨hpc, hs⟩ := Option.ite_none_right_eq_some.mp hs
    obtain rfl := Option.some.inj hs
    simp only [Bool.and_eq_true, decide_eq_true_eq] at hpc
    exact owned_setClient h fun m => by simp [hpc.1, ClientPc.Inside]
  | enqueue n now top =>
    simp only [step, enqueue] at hs
    split at hs
    · next header hpc =>
      obtain ⟨sys, -, rfl⟩ := Option.map_eq_some_iff.mp hs
      refine owned_releaseClient h (by simp [hpc, ClientPc.Inside]) fun m => ?_
      split <;> simp [hpc, ClientPc.Inside]
    · cases hs
  | deliver n =>
    simp only [step, deliver] at hs
    split at hs
    · next d hpc =>
      obtain ⟨sys, -, rfl⟩ := Option.map_eq_some_iff.mp hs
      exact owned_releaseClient h (by simp [hpc, ClientPc.Inside]) fun m => by
        simp [hpc, ClientPc.Inside]
    · cases hs
  | wakeReaper =>
    obtain ⟨hpc, hs⟩ := Option.ite_none_right_eq_some.mp hs
    obtain rfl := Option.some.inj hs
    exact owned_setReaper h fun m => by simp [hpc, ReaperPc.Inside]
  | reapBegin now order =>
    obtain ⟨-, hs⟩ := Option.ite_none_right_eq_some.mp hs
    obtain ⟨sys, -, rfl⟩ := Option.map_eq_some_iff.mp hs
    exact h
  | reapEntry =>
    obtain ⟨-, hs⟩ := Option.ite_none_right_eq_some.mp hs
    obtain ⟨sys, -, rfl⟩ := Option.map_eq_some_iff.mp hs
    exact h
  | requestForceEnd =>
    obtain ⟨hpc, hs⟩ := Option.ite_none_right_eq_some.mp hs
    obtain ⟨target, -, rfl⟩ := Option.map_eq_some_iff.mp hs
    exact owned_setReaper h fun m => by simp [hpc, ReaperPc.Inside]
  | forceEnd =>
    simp only [step, forceEnd] at hs
    split at hs
    · next b hpc =>
      obtain ⟨sys, -, rfl⟩ := Option.map_eq_some_iff.mp hs
      exact owned_releaseReaper .sweeping h (by simp [hpc, ReaperPc.Inside]) fun m => by
        simp only [hpc, ReaperPc.Inside]
        grind
    · cases hs
  | reapEnd =>
    obtain ⟨hpc, hs⟩ := Option.ite_none_right_eq_some.mp hs
    obtain ⟨sys, -, rfl⟩ := Option.map_eq_some_iff.mp hs
    exact owned_releaseReaper .asleep h (by simp [hpc, ReaperPc.Inside]) fun m => by
      simp [hpc, ReaperPc.Inside]
  | look b =>
    obtain ⟨hpc, hs⟩ := Option.ite_none_right_eq_some.mp hs
    obtain rfl := Option.some.inj hs
    simp only [Bool.and_eq_true, decide_eq_true_eq] at hpc
    exact owned_setScheduler h fun m => by simp [hpc.1, SchedulerPc.Inside]
  | requestDelay b =>
    obtain ⟨hpc, hs⟩ := Option.ite_none_right_eq_some.mp hs
    obtain rfl := Option.some.inj hs
    simp only [Bool.and_eq_true, decide_eq_true_eq] at hpc
    exact owned_setScheduler h fun m => by simp [hpc.1, SchedulerPc.Inside]
  | delay b =>
    obtain ⟨hpc, hs⟩ := Option.ite_none_right_eq_some.mp hs
    obtain ⟨sys, -, rfl⟩ := Option.map_eq_some_iff.mp hs
    exact owned_releaseScheduler h (by simp [hpc, SchedulerPc.Inside]) fun m => by
      simp only [hpc, SchedulerPc.Inside]
      grind
  | collectBegin b =>
    obtain ⟨hpc, hs⟩ := Option.ite_none_right_eq_some.mp hs
    obtain ⟨sys, -, rfl⟩ := Option.map_eq_some_iff.mp hs
    exact owned_setScheduler h fun m => by simp [hpc, SchedulerPc.Inside]
  | collectSlot b =>
    obtain ⟨-, hs⟩ := Option.ite_none_right_eq_some.mp hs
    obtain ⟨sys, -, rfl⟩ := Option.map_eq_some_iff.mp hs
    exact h
  | requestRelease b =>
    obtain ⟨hpc, hs⟩ := Option.ite_none_right_eq_some.mp hs
    obtain rfl := Option.some.inj hs
    simp only [Bool.and_eq_true, decide_eq_true_eq] at hpc
    exact owned_setScheduler h fun m => by simp [hpc.1.1, SchedulerPc.Inside]
  | releaseSlot b =>
    obtain ⟨hpc, hs⟩ := Option.ite_none_right_eq_some.mp hs
    obtain ⟨sys, -, rfl⟩ := Option.map_eq_some_iff.mp hs
    exact owned_releaseScheduler h (by simp [hpc, SchedulerPc.Inside]) fun m => by
      simp only [hpc, SchedulerPc.Inside]
      grind
  | collectEnd b =>
    obtain ⟨hpc, hs⟩ := Option.ite_none_right_eq_some.mp hs
    obtain ⟨sys, -, rfl⟩ := Option.map_eq_some_iff.mp hs
    exact owned_releaseScheduler h (by simp [hpc, SchedulerPc.Inside]) fun m => by
      simp [hpc, SchedulerPc.Inside]
  | wait b =>
    obtain ⟨hpc, hs⟩ := Option.ite_none_right_eq_some.mp hs
    obtain rfl := Option.some.inj hs
    have hin : ∀ m, (s.scheduler b).Inside b m ↔ m = .batcher b := by
      intro m
      simp only [Bool.or_eq_true, Bool.and_eq_true, decide_eq_true_eq] at hpc
      rcases hpc with hpc | ⟨⟨hpc, -⟩, -⟩ <;> simp [hpc, SchedulerPc.Inside]
    exact owned_releaseScheduler h ((hin _).mpr rfl) fun m => by
      rw [hin]
      simp [SchedulerPc.Inside]

/-! ## The reaper and the scheduler threads -/

/-- Whether a thread still needs the scheduler mutex is read off its own batcher. -/
theorem needsScheduler_frame {b : Nat} (hpc : s'.scheduler b = s.scheduler b)
    (hbatcher : s'.sys.sched.batchers b = s.sys.sched.batchers b) :
    s'.needsScheduler b = s.needsScheduler b := by
  unfold needsScheduler
  rw [hpc, hbatcher]

theorem needsScheduler_setScheduler {b b' : Nat} {pc : SchedulerPc} (hb : b' ≠ b) :
    (s.setScheduler b pc).needsScheduler b' = s.needsScheduler b' :=
  needsScheduler_frame (by simp [setScheduler, hb]) rfl

/-- A thread outside its section needs nothing. -/
theorem needsScheduler_of_not_inside {b : Nat}
    (hout : ¬ s.Inside (.scheduler b) (.batcher b)) : s.needsScheduler b = false := by
  unfold needsScheduler
  cases hpc : s.scheduler b with
  | outside | waitsOwn | leaving => rfl
  | looking | collecting | waitsScheduler call | inScheduler call =>
    exact absurd (by simp [Inside, hpc, SchedulerPc.Inside]) hout

theorem endsIn_mono {sb sb' : SequenceBatch} {first first' stop stop' : Nat}
    (hfirst : first ≤ first') (hstop : stop' ≤ stop)
    (hqueues : ∀ slot, first' ≤ slot → sb'.queues slot = sb.queues slot)
    (h : endsIn sb first stop = false) : endsIn sb' first' stop' = false := by
  simp only [endsIn, List.any_eq_false, List.mem_range, Bool.and_eq_true, decide_eq_true_eq,
    not_and] at h ⊢
  intro slot hlt hle
  rw [hqueues slot hle]
  exact h slot (hlt.trans_le hstop) (hfirst.trans hle)

/-- A pass that begins meets the ends that its thread has been looking at. -/
theorem needsScheduler_collectBegin {b : Nat} {sys : System} (hpc : s.scheduler b = .looking)
    (hs : s.sys.collectBegin b = some sys) (h : s.needsScheduler b = false) :
    Locked.needsScheduler { s.setScheduler b .collecting with sys := sys } b = false := by
  obtain ⟨sched, hsched, rfl⟩ := Option.map_eq_some_iff.mp hs
  obtain ⟨-, maxSlot, hmax, rfl⟩ := Scheduler.collectBegin_eq_some hsched
  simp only [needsScheduler, hpc, Bool.or_eq_false_iff] at h
  simp only [needsScheduler, setScheduler, Function.update_self, Scheduler.batchers_setBatcher,
    if_true, Option.any_some]
  exact endsIn_mono (Nat.le_refl 0) (maxSlotBelow_spec hmax).1 (fun _ _ => rfl) h.2

/-- Collecting a payload that is no end leaves the slots ahead alone. -/
theorem needsScheduler_collectSlot {b : Nat} {sys : System} (hpc : s.scheduler b = .collecting)
    (hend : s.endInFront b = false) (hs : s.sys.collectSlot cfg b = some sys)
    (h : s.needsScheduler b = false) :
    Locked.needsScheduler { s with sys := sys } b = false := by
  obtain ⟨⟨sched, popped, released⟩, hsched, rfl⟩ := Option.map_eq_some_iff.mp hs
  obtain ⟨pass, hpass, -, hvisited⟩ := Scheduler.collectSlot_eq_some hsched
  have hvisit : s.sys.visiting b = ⟨b, pass.slot⟩ := by simp [System.visiting, hpass]
  simp only [needsScheduler, hpc, hpass, Option.any_some] at h
  cases hvisited with
  | empty hempty =>
    simp only [needsScheduler, hpc, Scheduler.batchers_setBatcher, if_true, Option.any_some]
    exact endsIn_mono (Nat.le_succ _) (Nat.le_refl _) (fun _ _ => rfl) h
  | collected hqueue hgoesOn =>
    simp only [needsScheduler, hpc, Scheduler.batchers_setBatcher, if_true, Option.any_some]
    refine endsIn_mono (Nat.le_succ _) (Nat.le_refl _) (fun slot hslot => ?_) h
    exact Function.update_of_ne (Nat.ne_of_gt hslot) ..
  | handedOn hqueue hends | freed hqueue hends =>
    simp [endInFront, hvisit, Scheduler.queue, hqueue, hends] at hend

/-- A step that moves the thread of batcher `b'` leaves what the others need. -/
theorem needsScheduler_others {sys : System} {a : Action} {b b' : Nat} {pc : SchedulerPc}
    {owner : Mutex → Option Thread}
    (ha : a = .delay b' ∨ a = .collectBegin b' ∨ a = .collectSlot b' ∨ a = .collectEnd b')
    (hs : s.sys.step cfg a = some sys) (hb : b ≠ b') :
    Locked.needsScheduler { s.setScheduler b' pc with sys := sys, owner := owner } b =
      s.needsScheduler b :=
  needsScheduler_frame (by simp [setScheduler, hb]) (System.batchers_other ha hs hb)

theorem apart_acquire (h : LockInv s) {t : Thread}
    (hok : s.keepsApart cfg (.acquire t) = true) (hs : s.acquire t = some s') {b : Nat}
    (hreaper : s'.reaper = .waitsBatcher b) : s'.needsScheduler b = false := by
  obtain ⟨m, s₁, hentered, -, rfl⟩ := acquire_cases hs
  cases hentered with
  | clientScheduler _ => exact h.apart b hreaper
  | clientBatcher _ => exact h.apart b hreaper
  | reaperScheduler _ => cases hreaper
  | reaperBatcher _ => cases hreaper
  | @schedulerOwn b' hpc =>
    by_cases hb : b = b'
    · subst hb
      have hreaper : s.reaper = .waitsBatcher b := hreaper
      simp only [keepsApart, hpc, hreaper, decide_true, Bool.true_and, Bool.not_eq_true'] at hok
      exact hok
    · exact (needsScheduler_setScheduler hb).trans (h.apart b hreaper)
  | @schedulerNested b' call hpc =>
    have hneeds := h.apart b hreaper
    by_cases hb : b = b'
    · subst hb
      simp [needsScheduler, hpc] at hneeds
    · exact (needsScheduler_setScheduler hb).trans hneeds

/-- A request is delivered to a batcher whose thread is outside its section. -/
theorem apart_deliver (h : LockInv s) {n : Nat} (hs : s.deliver cfg n = some s') {b : Nat}
    (hreaper : s'.reaper = .waitsBatcher b) : s'.needsScheduler b = false := by
  unfold deliver at hs
  split at hs
  · next d hpc =>
    obtain ⟨sys, hsys, rfl⟩ := Option.map_eq_some_iff.mp hs
    obtain ⟨d', sched, hd', hsched, rfl⟩ := System.deliver_eq_some hsys
    have hneeds := h.apart b hreaper
    have hsame : d' = d := by
      obtain ⟨hlt, heq⟩ := List.getElem?_eq_some_iff.mp hd'
      rw [← heq, List.getElem_idxOf]
    by_cases hb : b = d'.target.batcherIdx
    · have hin : s.Inside (.client n) (.batcher b) := by
        simp [Inside, hpc, ClientPc.Inside, hb, hsame]
      refine needsScheduler_of_not_inside fun hinside => ?_
      have hown := (h.owned (.client n) (.batcher b)).mpr hin
      rw [(h.owned (.scheduler b) (.batcher b)).mpr hinside] at hown
      cases hown
    · rw [← hneeds]
      refine needsScheduler_frame rfl ?_
      simp [(Scheduler.deliver_eq hsched).1, hb]
  · cases hs

theorem apart_step (h : LockInv s) {a : LockAction} (hok : s.keepsApart cfg a = true)
    (hs : s.step cfg a = some s') :
    ∀ b, s'.reaper = .waitsBatcher b → s'.needsScheduler b = false := by
  intro b hreaper
  have apart := h.apart b
  cases a with
  | call n header =>
    obtain ⟨-, hs⟩ := Option.ite_none_right_eq_some.mp hs
    obtain rfl := Option.some.inj hs
    exact apart hreaper
  | acquire t =>
    exact apart_acquire h hok hs hreaper
  | enqueue n now top =>
    simp only [step, enqueue] at hs
    split at hs
    · obtain ⟨sys, hsys, rfl⟩ := Option.map_eq_some_iff.mp hs
      obtain ⟨⟨sched, placement⟩, henq, rfl⟩ := Option.map_eq_some_iff.mp hsys
      have hneeds := apart hreaper
      rw [← hneeds]
      exact needsScheduler_frame rfl (congrFun (System.batchers_enqueue henq) b)
    · cases hs
  | deliver n => exact apart_deliver h hs hreaper
  | wakeReaper =>
    obtain ⟨-, hs⟩ := Option.ite_none_right_eq_some.mp hs
    obtain rfl := Option.some.inj hs
    cases hreaper
  | reapBegin now order =>
    obtain ⟨hpc, hs⟩ := Option.ite_none_right_eq_some.mp hs
    obtain ⟨sys, -, rfl⟩ := Option.map_eq_some_iff.mp hs
    exact absurd (hpc.symm.trans hreaper) (by simp)
  | reapEntry =>
    obtain ⟨hpc, hs⟩ := Option.ite_none_right_eq_some.mp hs
    obtain ⟨sys, -, rfl⟩ := Option.map_eq_some_iff.mp hs
    simp only [Bool.and_eq_true, decide_eq_true_eq] at hpc
    exact absurd (hpc.1.symm.trans hreaper) (by simp)
  | requestForceEnd =>
    obtain ⟨-, hs⟩ := Option.ite_none_right_eq_some.mp hs
    obtain ⟨target, htarget, rfl⟩ := Option.map_eq_some_iff.mp hs
    obtain rfl : target.batcherIdx = b := by simpa [setReaper] using hreaper
    simp only [keepsApart, htarget, Option.all_some, Bool.not_eq_true'] at hok
    exact hok
  | forceEnd =>
    simp only [step, forceEnd] at hs
    split at hs
    · obtain ⟨sys, -, rfl⟩ := Option.map_eq_some_iff.mp hs
      cases hreaper
    · cases hs
  | reapEnd =>
    obtain ⟨-, hs⟩ := Option.ite_none_right_eq_some.mp hs
    obtain ⟨sys, -, rfl⟩ := Option.map_eq_some_iff.mp hs
    cases hreaper
  | look b' =>
    obtain ⟨-, hs⟩ := Option.ite_none_right_eq_some.mp hs
    obtain rfl := Option.some.inj hs
    by_cases hb : b = b'
    · simp [needsScheduler, setScheduler, hb]
    · exact (needsScheduler_setScheduler hb).trans (apart hreaper)
  | requestDelay b' =>
    obtain ⟨hpc, hs⟩ := Option.ite_none_right_eq_some.mp hs
    obtain rfl := Option.some.inj hs
    have hneeds := apart hreaper
    by_cases hb : b = b'
    · subst hb
      simp only [Bool.and_eq_true, decide_eq_true_eq] at hpc
      simp [needsScheduler, hpc] at hneeds
    · exact (needsScheduler_setScheduler hb).trans hneeds
  | delay b' =>
    obtain ⟨-, hs⟩ := Option.ite_none_right_eq_some.mp hs
    obtain ⟨sys, hsys, rfl⟩ := Option.map_eq_some_iff.mp hs
    by_cases hb : b = b'
    · simp [needsScheduler, setScheduler, hb]
    · exact (needsScheduler_others (.inl rfl) hsys hb).trans (apart hreaper)
  | collectBegin b' =>
    obtain ⟨hpc, hs⟩ := Option.ite_none_right_eq_some.mp hs
    obtain ⟨sys, hsys, rfl⟩ := Option.map_eq_some_iff.mp hs
    by_cases hb : b = b'
    · subst hb
      exact needsScheduler_collectBegin hpc hsys (apart hreaper)
    · exact (needsScheduler_others (.inr (.inl rfl)) hsys hb).trans (apart hreaper)
  | collectSlot b' =>
    obtain ⟨hpc, hs⟩ := Option.ite_none_right_eq_some.mp hs
    obtain ⟨sys, hsys, rfl⟩ := Option.map_eq_some_iff.mp hs
    simp only [Bool.and_eq_true, decide_eq_true_eq, Bool.not_eq_true'] at hpc
    by_cases hb : b = b'
    · subst hb
      exact needsScheduler_collectSlot hpc.1 hpc.2 hsys (apart hreaper)
    · have hneeds := apart hreaper
      rw [← hneeds]
      exact needsScheduler_frame rfl (System.batchers_other (.inr (.inr (.inl rfl))) hsys hb)
  | requestRelease b' =>
    obtain ⟨hpc, hs⟩ := Option.ite_none_right_eq_some.mp hs
    obtain rfl := Option.some.inj hs
    have hneeds := apart hreaper
    by_cases hb : b = b'
    · subst hb
      simp only [Bool.and_eq_true, decide_eq_true_eq, Option.any_eq_true] at hpc
      obtain ⟨⟨hcollecting, hend⟩, pass, hpass, hle⟩ := hpc
      have hvisit : s.sys.visiting b = ⟨b, pass.slot⟩ := by simp [System.visiting, hpass]
      simp only [endInFront, hvisit, Scheduler.queue] at hend
      simp only [needsScheduler, hcollecting, hpass, Option.any_some, endsIn,
        List.any_eq_false, List.mem_range] at hneeds
      exact absurd (by simp [hend]) (hneeds pass.slot (Nat.lt_succ_of_le hle))
    · exact (needsScheduler_setScheduler hb).trans hneeds
  | releaseSlot b' =>
    obtain ⟨hpc, hs⟩ := Option.ite_none_right_eq_some.mp hs
    obtain ⟨sys, hsys, rfl⟩ := Option.map_eq_some_iff.mp hs
    have hneeds := apart hreaper
    by_cases hb : b = b'
    · subst hb
      simp [needsScheduler, hpc] at hneeds
    · exact (needsScheduler_others (.inr (.inr (.inl rfl))) hsys hb).trans hneeds
  | collectEnd b' =>
    obtain ⟨-, hs⟩ := Option.ite_none_right_eq_some.mp hs
    obtain ⟨sys, hsys, rfl⟩ := Option.map_eq_some_iff.mp hs
    by_cases hb : b = b'
    · simp [needsScheduler, setScheduler, hb]
    · exact (needsScheduler_others (.inr (.inr (.inr rfl))) hsys hb).trans (apart hreaper)
  | wait b' =>
    obtain ⟨-, hs⟩ := Option.ite_none_right_eq_some.mp hs
    obtain rfl := Option.some.inj hs
    by_cases hb : b = b'
    · simp [needsScheduler, setScheduler, hb]
    · exact (needsScheduler_setScheduler hb).trans (apart hreaper)

/-! ## Runs -/

theorem lockInv_init (cfg : Config) : LockInv (init cfg) where
  owned := by
    intro t m
    cases t <;> simp [init, Inside, ClientPc.Inside, ReaperPc.Inside, SchedulerPc.Inside]
  apart := fun b hb => by cases hb

theorem lockInv_step (h : LockInv s) {a : LockAction} (hok : s.keepsApart cfg a = true)
    (hs : s.step cfg a = some s') : LockInv s' :=
  ⟨owned_step h.owned hs, apart_step h hok hs⟩

/-- A client holds nothing while it waits. -/
theorem not_blocked_client (h : LockInv s) (n : Nat) :
    ¬ BlockedHolder s.owner s.waits (.client n) := by
  rintro ⟨⟨m, hm⟩, hwait⟩
  have hin := (h.owned _ _).mp hm
  unfold waits at hwait
  cases hpc : s.client n <;> simp [Inside, hpc, ClientPc.Inside] at hin hwait

/-- Where the reaper is when it holds a mutex and waits for one. -/
theorem blocked_reaper (h : LockInv s) (hb : BlockedHolder s.owner s.waits .reaper) :
    ∃ b, s.reaper = .waitsBatcher b := by
  obtain ⟨⟨m, hm⟩, hwait⟩ := hb
  have hin := (h.owned _ _).mp hm
  unfold waits at hwait
  cases hpc : s.reaper with
  | waitsBatcher b => exact ⟨b, rfl⟩
  | _ => simp [Inside, hpc, ReaperPc.Inside] at hin hwait

theorem blocked_scheduler (h : LockInv s) {b : Nat}
    (hb : BlockedHolder s.owner s.waits (.scheduler b)) :
    ∃ call, s.scheduler b = .waitsScheduler call := by
  obtain ⟨⟨m, hm⟩, hwait⟩ := hb
  have hin := (h.owned _ _).mp hm
  unfold waits at hwait
  cases hpc : s.scheduler b with
  | waitsScheduler call => exact ⟨call, rfl⟩
  | _ => simp [Inside, hpc, SchedulerPc.Inside] at hin hwait

/-- Of two blocked holders only the reaper is waited for, and it waits for none: its rank
is below that of the scheduler threads. -/
theorem not_waitCycle_of_inv (h : LockInv s) : ¬ WaitCycle s.owner s.waits := by
  refine not_waitCycle_of_rank (fun t => match t with | .scheduler _ => 1 | _ => 0) ?_
  intro t t' m ht ht' hm hown
  have hin := (h.owned _ _).mp hown
  cases t with
  | client n => exact absurd ht (not_blocked_client h n)
  | reaper =>
    obtain ⟨b, hpc⟩ := blocked_reaper h ht
    obtain rfl : Mutex.batcher b = m := by simpa [waits, hpc] using hm
    have hneeds := h.apart b hpc
    cases t' with
    | client n => exact absurd ht' (not_blocked_client h n)
    | reaper => simp [Inside, hpc, ReaperPc.Inside] at hin
    | scheduler b' =>
      obtain ⟨call, hpc'⟩ := blocked_scheduler h ht'
      obtain rfl : b = b' := by simpa [Inside, hpc', SchedulerPc.Inside] using hin
      simp [needsScheduler, hpc'] at hneeds
  | scheduler b =>
    obtain ⟨call, hpc⟩ := blocked_scheduler h ht
    obtain rfl : Mutex.scheduler = m := by simpa [waits, hpc] using hm
    cases t' with
    | client n => exact absurd ht' (not_blocked_client h n)
    | reaper => exact Nat.zero_lt_one
    | scheduler b' =>
      obtain ⟨call', hpc'⟩ := blocked_scheduler h ht'
      simp [Inside, hpc', SchedulerPc.Inside] at hin

/-- No threads wait for each other in a cycle along a run that keeps the reaper and the
scheduler threads apart. -/
theorem not_waitCycle_of_run (cfg : Config) (s : Locked)
    (h : ReachableWhen (Locked.step cfg) (fun s a => s.keepsApart cfg a = true) (.init cfg) s) :
    ¬ WaitCycle s.owner s.waits :=
  not_waitCycle_of_inv
    (h.invariant (lockInv_init cfg) fun _ _ _ hinv hok hs => lockInv_step hinv hok hs)

/-- One runner with two slots. -/
def twoSlots : Config where
  modelName := "m"
  runnerCnt := 1
  maxBatchSize := 2
  maxSequenceIdleMicroseconds := 1000

/-- A client's `Enqueue` from beginning to end. -/
def oneCall (header : InferRequestHeader) (now : Nat) (top : BatchSlot) : List LockAction :=
  [.call 0 header, .acquire (.client 0), .enqueue 0 now top, .acquire (.client 0), .deliver 0]

/-- Sequence 1 is in slot 0, the only request of sequence 2 in slot 1, and the reaper has
found sequence 1 idle. -/
def idleFound : List LockAction :=
  oneCall (System.headerOf 1 1) 0 ⟨0, 0⟩ ++ oneCall (System.headerOf 2 3) 1000 ⟨0, 1⟩ ++
    [.wakeReaper, .acquire .reaper, .reapBegin 1200 [1, 2]]

/-- The scheduler thread collects slot 0 and begins a pass only after the reaper has gone
to sleep. -/
theorem not_waitCycle_apart :
    ∃ s, ReachableWhen (Locked.step twoSlots) (fun s a => s.keepsApart twoSlots a = true)
      (.init twoSlots) s ∧ s.scheduler 0 = .waitsScheduler .releaseBatchSlot ∧
        s.reaper = .asleep ∧ ¬ WaitCycle s.owner s.waits := by
  have hrun : (runWhen (Locked.step twoSlots) (fun s a => s.keepsApart twoSlots a = true)
      (.init twoSlots) (idleFound ++ [.requestForceEnd, .acquire .reaper, .forceEnd, .reapEntry,
        .reapEnd, .look 0, .acquire (.scheduler 0), .collectBegin 0, .collectSlot 0,
        .requestRelease 0])).map (fun s => s.scheduler 0 == .waitsScheduler .releaseBatchSlot &&
          s.reaper == .asleep) = some true := by decide
  obtain ⟨s, hreach, hs⟩ := exists_of_runWhen hrun
  simp only [Bool.and_eq_true, beq_iff_eq] at hs
  exact ⟨s, hreach, hs.1, hs.2, not_waitCycle_of_run twoSlots s hreach⟩

/-! ## A deadlock -/

/-- The scheduler thread begins a pass meanwhile and asks for the scheduler mutex to release
slot 1; the reaper asks for the batcher's mutex to end sequence 1. -/
theorem waitCycle_of_interleaving :
    ¬ ∀ (cfg : Config) (s : Locked), Reachable (Locked.step cfg) (.init cfg) s →
      ¬ WaitCycle s.owner s.waits := by
  intro hall
  have hrun : (runWhen (Locked.step twoSlots) (fun _ _ => True) (.init twoSlots)
      (idleFound ++ [.look 0, .acquire (.scheduler 0), .collectBegin 0, .collectSlot 0,
        .requestRelease 0, .requestForceEnd])).map (fun s =>
          s.owner .scheduler == some .reaper && s.owner (.batcher 0) == some (.scheduler 0) &&
            s.waits .reaper == some (.batcher 0) && s.waits (.scheduler 0) == some .scheduler) =
      some true := by decide
  obtain ⟨s, hreach, hs⟩ := exists_of_runWhen hrun
  simp only [Bool.and_eq_true, beq_iff_eq] at hs
  obtain ⟨⟨⟨hm, hm'⟩, ht⟩, ht'⟩ := hs
  exact hall twoSlots s hreach (waitCycle_pair (by simp) hm hm' ht ht')

end Locked

end FinBert.Sequence
