import FinBert.Lib.EndsLast
import FinBert.Sequence.System

/-!
# The slot table

What the sequence batcher is for, without clocks, passes and control tensors: each
stay of a correlation ID is collected in a backlog queue or given a slot; requests
travel through the queues; a slot is freed or handed on when the end of its stay is
collected. A `Move` of the table is one change of these data. `Inv` is the invariant
that keeps a stay and its slot together, and `inv_after` says that every permitted
move keeps it.

`Refinement` shows that every step of the system is a move of its table.
-/

namespace FinBert.Sequence

open FinBert.Serving

@[ext]
structure SlotTable where
  slotOf : CorrelationId → Option BatchSlot
  backlogOf : CorrelationId → Option Nat
  backlogQueues : List Nat
  backlogs : Nat → List Request
  nextBacklog : Nat
  ready : List BatchSlot
  queue : BatchSlot → List Payload
  inFlight : List Delivery
  opened : CorrelationId → Nat
  occupant : BatchSlot → Option Occupancy
  place : Occupancy → Option Place
  passed : BatchSlot → List Payload
  accepted : List Request
  dispatched : List Dispatch

/-- The table of a system. -/
def System.table (s : System) : SlotTable where
  slotOf := s.sched.sequenceToBatchslotMap.find
  backlogOf := s.sched.sequenceToBacklogMap.find
  backlogQueues := s.sched.backlogQueues
  backlogs := s.sched.backlogs
  nextBacklog := s.sched.nextBacklog
  ready := s.sched.readyBatchSlots
  queue := s.sched.queue
  inFlight := s.inFlight
  opened := s.history.opened
  occupant := s.history.occupant
  place := s.history.place
  passed := s.history.passed
  accepted := s.history.accepted
  dispatched := s.history.dispatched

/-- The slots that exist. -/
def Config.HasSlot (cfg : Config) (batchSlot : BatchSlot) : Prop :=
  batchSlot.batcherIdx < cfg.runnerCnt ∧ batchSlot.slot < cfg.batchSize

inductive Move
  | idle
  | continueSlot (target : BatchSlot) (r : Request)
  | continueBacklog (queue : Nat) (r : Request)
  | openSlot (target : BatchSlot) (r : Request)
  | openBacklog (r : Request)
  | deliver (call : Nat) (d : Delivery)
  | collect (batchSlot : BatchSlot) (p : Payload) (rest : List Payload) (pass : Nat)
  | free (batchSlot : BatchSlot) (p : Payload) (rest : List Payload) (pass : Nat)
  | handOn (batchSlot : BatchSlot) (p : Payload) (rest : List Payload) (pass : Nat)
      (queue : Nat) (queues : List Nat) (first : Request) (last : Request)
  | forceEnd (target : BatchSlot) (c : CorrelationId)

/-- A delivery is of the oldest call on its way. -/
def Move.InOrder : Move → Prop
  | .deliver call _ => call = 0
  | _ => True

namespace SlotTable

/-- A request of the stay `nth` of its correlation ID, accepted now. -/
def Stamped (t : SlotTable) (r : Request) (nth : Nat) : Prop :=
  r.occupancy = ⟨r.header.correlationId, nth⟩ ∧ r.id = t.accepted.length

/-- When a move can be made. -/
def Enabled (t : SlotTable) : Move → Prop
  | .idle => True
  | .continueSlot target r =>
    t.slotOf r.header.correlationId = some target ∧
      t.Stamped r (t.opened r.header.correlationId)
  | .continueBacklog queue r =>
    t.slotOf r.header.correlationId = none ∧ t.backlogOf r.header.correlationId = some queue ∧
      t.Stamped r (t.opened r.header.correlationId)
  | .openSlot target r =>
    t.slotOf r.header.correlationId = none ∧ t.backlogOf r.header.correlationId = none ∧
      target ∈ t.ready ∧ t.Stamped r (t.opened r.header.correlationId + 1)
  | .openBacklog r =>
    t.slotOf r.header.correlationId = none ∧ t.backlogOf r.header.correlationId = none ∧
      t.ready = [] ∧ t.Stamped r (t.opened r.header.correlationId + 1)
  | .deliver call d => t.inFlight[call]? = some d
  | .collect batchSlot p rest _ => t.queue batchSlot = p :: rest ∧ p.isEnd = false
  | .free batchSlot p rest _ =>
    t.queue batchSlot = p :: rest ∧ p.isEnd = true ∧ t.backlogQueues = []
  | .handOn batchSlot p rest _ queue queues first last =>
    t.queue batchSlot = p :: rest ∧ p.isEnd = true ∧ t.backlogQueues = queue :: queues ∧
      (t.backlogs queue).head? = some first ∧ (t.backlogs queue).getLast? = some last
  | .forceEnd target c => t.slotOf c = some target

/-- An end is put in the queue of a slot only when no other request is on its way
to that slot. -/
def Permitted (t : SlotTable) : Move → Prop
  | .deliver call d =>
    d.request.header.seqEnd = true → ∀ d' ∈ t.inFlight.eraseIdx call, d'.target ≠ d.target
  | .forceEnd target _ => ∀ d ∈ t.inFlight, d.target ≠ target
  | _ => True

/-- A request of the correlation ID's present stay is on its way to its slot. -/
def call (t : SlotTable) (target : BatchSlot) (r : Request) : SlotTable :=
  { t with
    slotOf :=
      if r.header.seqEnd then Function.update t.slotOf r.header.correlationId none else t.slotOf
    inFlight := t.inFlight ++ [⟨target, r⟩]
    accepted := t.accepted ++ [r] }

/-- A free slot is handed to the stay that the request begins. -/
def handTo (t : SlotTable) (target : BatchSlot) (r : Request) : SlotTable :=
  { t with
    slotOf := Function.update t.slotOf r.header.correlationId (some target)
    ready := t.ready.erase target
    opened := Function.update t.opened r.occupancy.correlationId r.occupancy.nth
    occupant := Function.update t.occupant target (some r.occupancy)
    place := Function.update t.place r.occupancy (some (.slot target))
    passed := Function.update t.passed target [] }

/-- The record of what was collected. -/
def record (t : SlotTable) (batchSlot : BatchSlot) (p : Payload) (pass : Nat) : List Dispatch :=
  match p.request? with
  | none => t.dispatched
  | some r =>
    t.dispatched ++ [⟨batchSlot, pass, r, t.occupant batchSlot, batchSlot ∈ t.ready⟩]

/-- The places after the stay that has the slot is over. -/
def placeAfter (t : SlotTable) (batchSlot : BatchSlot) : Occupancy → Option Place :=
  match t.occupant batchSlot with
  | some o => Function.update t.place o (some (.done batchSlot))
  | none => t.place

def after (t : SlotTable) : Move → SlotTable
  | .idle => t
  | .continueSlot target r => t.call target r
  | .continueBacklog queue r =>
    { t with
      backlogs := Function.update t.backlogs queue (t.backlogs queue ++ [r])
      backlogOf :=
        if r.header.seqEnd then Function.update t.backlogOf r.header.correlationId none
        else t.backlogOf
      accepted := t.accepted ++ [r] }
  | .openSlot target r => (t.handTo target r).call target r
  | .openBacklog r =>
    { t with
      backlogQueues := t.backlogQueues ++ [t.nextBacklog]
      backlogs := Function.update t.backlogs t.nextBacklog [r]
      nextBacklog := t.nextBacklog + 1
      backlogOf :=
        if r.header.seqEnd then t.backlogOf
        else Function.update t.backlogOf r.header.correlationId (some t.nextBacklog)
      opened := Function.update t.opened r.occupancy.correlationId r.occupancy.nth
      place := Function.update t.place r.occupancy (some (.backlog t.nextBacklog))
      accepted := t.accepted ++ [r] }
  | .deliver call d =>
    { t with
      inFlight := t.inFlight.eraseIdx call
      queue := Function.update t.queue d.target (t.queue d.target ++ [.request d.request])
      passed := Function.update t.passed d.target (t.passed d.target ++ [.request d.request]) }
  | .collect batchSlot p rest pass =>
    { t with
      queue := Function.update t.queue batchSlot rest
      dispatched := t.record batchSlot p pass }
  | .free batchSlot p rest pass =>
    { t with
      queue := Function.update t.queue batchSlot rest
      dispatched := t.record batchSlot p pass
      ready := batchSlot :: t.ready
      occupant := Function.update t.occupant batchSlot none
      place := t.placeAfter batchSlot
      passed := Function.update t.passed batchSlot [] }
  | .handOn batchSlot p _ pass queue queues first last =>
    { t with
      queue := Function.update t.queue batchSlot ((t.backlogs queue).map .request)
      dispatched := t.record batchSlot p pass
      backlogQueues := queues
      backlogs := Function.update t.backlogs queue []
      slotOf :=
        if last.header.seqEnd then t.slotOf
        else Function.update t.slotOf last.header.correlationId (some batchSlot)
      backlogOf :=
        if last.header.seqEnd then t.backlogOf
        else Function.update t.backlogOf last.header.correlationId none
      occupant := Function.update t.occupant batchSlot (some first.occupancy)
      place := Function.update (t.placeAfter batchSlot) first.occupancy (some (.slot batchSlot))
      passed := Function.update t.passed batchSlot ((t.backlogs queue).map .request) }
  | .forceEnd target c =>
    { t with
      slotOf := Function.update t.slotOf c none
      queue := Function.update t.queue target (t.queue target ++ [.forceEnd ⟨c, t.opened c⟩])
      passed := Function.update t.passed target (t.passed target ++ [.forceEnd ⟨c, t.opened c⟩]) }

/-! ## The invariant -/

/-- Free slots, slots in use and the stays that have them. -/
structure SlotsOk (cfg : Config) (t : SlotTable) : Prop where
  readyNodup : t.ready.Nodup
  ready_iff : ∀ batchSlot,
    batchSlot ∈ t.ready ↔ cfg.HasSlot batchSlot ∧ t.occupant batchSlot = none
  hasSlot : ∀ batchSlot o, t.occupant batchSlot = some o → cfg.HasSlot batchSlot
  occupant_iff : ∀ batchSlot o,
    t.occupant batchSlot = some o ↔ t.place o = some (.slot batchSlot)
  opened : ∀ o place, t.place o = some place → o.nth ≤ t.opened o.correlationId

/-- The queues of the slots hold payloads of the stays that have the slots, and so do
the calls on their way; an end is the last payload of its queue, and no call is on
its way behind one. -/
structure QueuesOk (t : SlotTable) : Prop where
  occupant : ∀ batchSlot, ∀ p ∈ t.queue batchSlot, t.occupant batchSlot = some p.occupancy
  endsLast : ∀ batchSlot, EndsLast Payload.isEnd (t.queue batchSlot)
  calls : ∀ d ∈ t.inFlight, t.occupant d.target = some d.request.occupancy
  callsOpen : ∀ d ∈ t.inFlight, ∀ p ∈ t.queue d.target, p.isEnd = false
  passed : ∀ batchSlot o, t.occupant batchSlot = some o →
    ∃ gone, t.passed batchSlot = gone ++ t.queue batchSlot ∧ ∀ p ∈ gone, p.isEnd = false

/-- A correlation ID in `sequence_to_batchslot_map_` has the slot for its present
stay, and no end of it is in the queue or on its way. -/
structure MapOk (t : SlotTable) : Prop where
  occupant : ∀ c batchSlot, t.slotOf c = some batchSlot →
    t.occupant batchSlot = some ⟨c, t.opened c⟩
  queueOpen : ∀ c batchSlot, t.slotOf c = some batchSlot →
    ∀ p ∈ t.queue batchSlot, p.isEnd = false
  callsOpen : ∀ c batchSlot, t.slotOf c = some batchSlot →
    ∀ d ∈ t.inFlight, d.target = batchSlot → d.request.header.seqEnd = false
  exclusive : ∀ c, t.slotOf c = none ∨ t.backlogOf c = none

/-- The backlog queues are distinct and nonempty; each holds the requests of one
stay, its end in the last place; and those that can still grow are the values of
`sequence_to_backlog_map_`. -/
structure BacklogOk (t : SlotTable) : Prop where
  nodup : t.backlogQueues.Nodup
  bound : ∀ q ∈ t.backlogQueues, q < t.nextBacklog
  nonempty : ∀ q ∈ t.backlogQueues, t.backlogs q ≠ []
  place : ∀ q ∈ t.backlogQueues, ∀ r ∈ t.backlogs q, t.place r.occupancy = some (.backlog q)
  same : ∀ q ∈ t.backlogQueues, ∀ r ∈ t.backlogs q, ∀ r' ∈ t.backlogs q,
    r.occupancy = r'.occupancy
  label : ∀ q ∈ t.backlogQueues, ∀ r ∈ t.backlogs q,
    r.occupancy.correlationId = r.header.correlationId
  endsLast : ∀ q ∈ t.backlogQueues, EndsLast (fun r => r.header.seqEnd) (t.backlogs q)
  growing : ∀ q ∈ t.backlogQueues, ∀ r, (t.backlogs q).getLast? = some r →
    r.header.seqEnd = false → t.backlogOf r.header.correlationId = some q
  mem : ∀ c q, t.backlogOf c = some q → q ∈ t.backlogQueues
  present : ∀ c q, t.backlogOf c = some q → ∀ r ∈ t.backlogs q,
    r.occupancy = ⟨c, t.opened c⟩ ∧ r.header.seqEnd = false

structure Inv (cfg : Config) (t : SlotTable) : Prop where
  slots : t.SlotsOk cfg
  queues : t.QueuesOk
  map : t.MapOk
  backlog : t.BacklogOk

end SlotTable

end FinBert.Sequence
