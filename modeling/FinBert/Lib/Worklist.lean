import Mathlib.Data.Finset.Card
import Mathlib.Logic.Function.Iterate
import Mathlib.Order.Bounds.Basic

/-!
# Worklists

Nodes of a directed graph are marked, beginning with the inputs. A node is taken from the queue, and
its successors are looked at; one that is not marked, and whose predecessors are all marked, is
marked and put in the queue.

Results:
1. `queue_iterate_turn`: in a finite graph the queue runs empty.
2. `Flowing.isLeast`: when the queue is empty, the marked nodes are the least set that contains the
   inputs and every node with predecessors, all of which it contains.
-/

namespace Worklist

variable {ν : Type}

/-- The lists of neighbours of the nodes. -/
@[ext] structure Graph (ν : Type) where
  prev : ν → List ν
  next : ν → List ν

/-- Both lists have the edges, in whatever order and however often. -/
structure Graph.HasEdges (g : Graph ν) (edge : ν → ν → Prop) : Prop where
  prev : ∀ p n, p ∈ g.prev n ↔ edge p n
  next : ∀ p n, n ∈ g.next p ↔ edge p n

theorem Graph.HasEdges.congr {g : Graph ν} {edge edge' : ν → ν → Prop} (h : g.HasEdges edge)
    (hedge : ∀ p n, edge p n ↔ edge' p n) : g.HasEdges edge' where
  prev := fun p n => (h.prev p n).trans (hedge p n)
  next := fun p n => (h.next p n).trans (hedge p n)

/-- The set has the inputs and every node with predecessors, all of which it has. -/
structure Closed (edge : ν → ν → Prop) (inputs s : Set ν) : Prop where
  inputs : inputs ⊆ s
  reached : ∀ p n, edge p n → (∀ q, edge q n → q ∈ s) → n ∈ s

structure State (ν : Type) where
  marked : ν → Bool
  queue : List ν

variable [DecidableEq ν]

/-- A successor of the node that was taken from the queue. -/
def look (g : Graph ν) (s : State ν) (n : ν) : State ν :=
  if s.marked n then s
  else if (g.prev n).all s.marked then
    { marked := Function.update s.marked n true, queue := s.queue ++ [n] }
  else s

/-- The next node of the queue. -/
def turn (g : Graph ν) (s : State ν) : State ν :=
  match s.queue with
  | [] => s
  | n :: queue => (g.next n).foldl (look g) { s with queue := queue }

variable {g : Graph ν} {edge : ν → ν → Prop} {inputs : Set ν} {s : State ν}

/-! ## The marked nodes -/

/-- Nothing is marked that is not in every closed set, and a node that could be marked waits to be
looked at, or one of its predecessors is in the queue. -/
structure Flowing (edge : ν → ν → Prop) (inputs : Set ν) (s : State ν) (waiting : List ν) :
    Prop where
  sound : ∀ t, Closed edge inputs t → ∀ n, s.marked n = true → n ∈ t
  inputs : ∀ n ∈ inputs, s.marked n = true
  pending : ∀ p n, edge p n → (∀ q, edge q n → s.marked q = true) →
    s.marked n = true ∨ n ∈ waiting ∨ ∃ q ∈ s.queue, edge q n

omit [DecidableEq ν] in
/-- In the beginning the inputs are marked and in the queue. -/
theorem Flowing.start (hmarked : ∀ n, s.marked n = true ↔ n ∈ inputs)
    (hqueue : ∀ n ∈ inputs, n ∈ s.queue) : Flowing edge inputs s [] where
  sound := fun _ ht n hn => ht.inputs ((hmarked n).mp hn)
  inputs := fun n hn => (hmarked n).mpr hn
  pending := fun p _ hedge hall =>
    .inr (.inr ⟨p, hqueue p ((hmarked p).mp (hall p hedge)), hedge⟩)

theorem Flowing.look (hg : g.HasEdges edge) {p n : ν} {waiting : List ν}
    (h : Flowing edge inputs s (n :: waiting)) (hedge : edge p n) :
    Flowing edge inputs (look g s n) waiting := by
  unfold Worklist.look
  split
  · next hmarked =>
    refine { h with pending := fun p' n' hedge' hall => ?_ }
    rcases h.pending p' n' hedge' hall with hn' | hwaiting | hqueue
    · exact .inl hn'
    · rcases List.mem_cons.mp hwaiting with rfl | hwaiting
      · exact .inl hmarked
      · exact .inr (.inl hwaiting)
    · exact .inr (.inr hqueue)
  · split
    · next hall =>
      have hall : ∀ q, edge q n → s.marked q = true := fun q hq =>
        List.all_eq_true.mp hall q ((hg.prev q n).mpr hq)
      have hmarked : ∀ n', Function.update s.marked n true n' = true ↔
          n' = n ∨ s.marked n' = true := fun n' => by
        rw [Function.update_apply]
        split
        · next heq => exact iff_of_true rfl (.inl heq)
        · next hne => exact (or_iff_right hne).symm
      refine ⟨fun t ht n' hn' => ?_, fun n' hn' => (hmarked n').mpr (.inr (h.inputs n' hn')),
        fun p' n' hedge' hall' => ?_⟩
      · rcases (hmarked n').mp hn' with rfl | hn'
        · exact ht.reached p n' hedge fun q hq => h.sound t ht q (hall q hq)
        · exact h.sound t ht n' hn'
      · by_cases hnew : edge n n'
        · exact .inr (.inr ⟨n, List.mem_append_right _ (List.mem_singleton_self n), hnew⟩)
        · -- its predecessors were marked before
          have hbefore : ∀ q, edge q n' → s.marked q = true := fun q hq =>
            ((hmarked q).mp (hall' q hq)).resolve_left fun heq => hnew (heq ▸ hq)
          rcases h.pending p' n' hedge' hbefore with hn' | hwaiting | ⟨q, hq, hedge⟩
          · exact .inl ((hmarked n').mpr (.inr hn'))
          · rcases List.mem_cons.mp hwaiting with heq | hwaiting
            · exact .inl ((hmarked n').mpr (.inl heq))
            · exact .inr (.inl hwaiting)
          · exact .inr (.inr ⟨q, List.mem_append_left _ hq, hedge⟩)
    · next hnot =>
      refine { h with pending := fun p' n' hedge' hall => ?_ }
      rcases h.pending p' n' hedge' hall with hn' | hwaiting | hqueue
      · exact .inl hn'
      · rcases List.mem_cons.mp hwaiting with rfl | hwaiting
        · have hprev := List.all_eq_true.mpr fun q hq => hall q ((hg.prev q _).mp hq)
          exact absurd hprev hnot
        · exact .inr (.inl hwaiting)
      · exact .inr (.inr hqueue)

theorem Flowing.foldl_look (hg : g.HasEdges edge) {waiting : List ν}
    (h : Flowing edge inputs s waiting) (hedges : ∀ n ∈ waiting, ∃ p, edge p n) :
    Flowing edge inputs (waiting.foldl (Worklist.look g) s) [] := by
  induction waiting generalizing s with
  | nil => exact h
  | cons n waiting ih =>
    rw [List.forall_mem_cons] at hedges
    obtain ⟨p, hedge⟩ := hedges.1
    exact ih (h.look hg hedge) hedges.2

theorem Flowing.turn (hg : g.HasEdges edge) (h : Flowing edge inputs s []) :
    Flowing edge inputs (turn g s) [] := by
  unfold Worklist.turn
  split
  · exact h
  · next p queue hqueue =>
    refine Flowing.foldl_look hg ⟨h.sound, h.inputs, fun p' n hedge hall => ?_⟩
      fun n hn => ⟨p, (hg.next p n).mp hn⟩
    rcases h.pending p' n hedge hall with hn | hnil | ⟨q, hq, hedge⟩
    · exact .inl hn
    · exact absurd hnil List.not_mem_nil
    · rw [hqueue] at hq
      rcases List.mem_cons.mp hq with rfl | hq
      · exact .inr (.inl ((hg.next q n).mpr hedge))
      · exact .inr (.inr ⟨q, hq, hedge⟩)

theorem Flowing.iterate (hg : g.HasEdges edge) (h : Flowing edge inputs s []) (turns : Nat) :
    Flowing edge inputs ((Worklist.turn g)^[turns] s) [] := by
  induction turns generalizing s with
  | zero => exact h
  | succ turns ih => exact ih (h.turn hg)

omit [DecidableEq ν] in
/-- When the queue is empty, the marked nodes are the least closed set. -/
theorem Flowing.isLeast (h : Flowing edge inputs s []) (hqueue : s.queue = []) :
    IsLeast {t | Closed edge inputs t} {n | s.marked n = true} := by
  refine ⟨⟨h.inputs, fun p n hedge hall => ?_⟩, fun t ht n hn => h.sound t ht n hn⟩
  rcases h.pending p n hedge hall with hn | hnil | ⟨q, hq, -⟩
  · exact hn
  · exact absurd hnil List.not_mem_nil
  · rw [hqueue] at hq
    exact absurd hq List.not_mem_nil

/-! ## The turns -/

/-- The nodes of the queue and those that are not marked. -/
def measure (nodes : Finset ν) (s : State ν) : Nat :=
  s.queue.length + (nodes.filter fun n => s.marked n = false).card

omit [DecidableEq ν] in
theorem measure_le (nodes : Finset ν) (s : State ν) :
    measure nodes s ≤ s.queue.length + nodes.card :=
  Nat.add_le_add_left (Finset.card_filter_le _ _) _

/-- A node that is put in the queue is one less that is not marked. -/
theorem measure_look {nodes : Finset ν} {n : ν} (hn : n ∈ nodes) :
    measure nodes (look g s n) = measure nodes s := by
  unfold look
  split
  · rfl
  · next hmarked =>
    split
    · have herase : (nodes.filter fun n' => Function.update s.marked n true n' = false) =
          (nodes.filter fun n' => s.marked n' = false).erase n := by
        ext n'
        rw [Finset.mem_erase, Finset.mem_filter, Finset.mem_filter, Function.update_apply]
        split
        · next heq => exact iff_of_false (fun hfalse => by cases hfalse.2) fun hne => hne.1 heq
        · next hne => exact (and_iff_right hne).symm
      have hmem : n ∈ nodes.filter fun n' => s.marked n' = false :=
        Finset.mem_filter.mpr ⟨hn, Bool.eq_false_iff.mpr hmarked⟩
      unfold measure
      rw [herase, List.length_append, List.length_singleton, Nat.add_assoc, Nat.add_comm 1,
        Finset.card_erase_add_one hmem]
    · rfl

theorem measure_foldl_look {nodes : Finset ν} {waiting : List ν} (h : ∀ n ∈ waiting, n ∈ nodes) :
    measure nodes (waiting.foldl (look g) s) = measure nodes s := by
  induction waiting generalizing s with
  | nil => rfl
  | cons n waiting ih =>
    rw [List.forall_mem_cons] at h
    exact (ih h.2).trans (measure_look h.1)

/-- A turn takes one node from the queue. -/
theorem measure_turn {nodes : Finset ν} (hnodes : ∀ p, ∀ n ∈ g.next p, n ∈ nodes)
    (hqueue : s.queue ≠ []) : measure nodes (turn g s) + 1 = measure nodes s := by
  obtain ⟨p, queue, hcons⟩ := List.exists_cons_of_ne_nil hqueue
  have hturn : turn g s = (g.next p).foldl (look g) { s with queue := queue } := by
    unfold turn
    rw [hcons]
  rw [hturn, measure_foldl_look (hnodes p)]
  unfold measure
  rw [hcons, List.length_cons]
  exact (Nat.add_right_comm _ _ _).symm

/-- The queue runs empty. -/
theorem queue_iterate_turn {nodes : Finset ν} (hnodes : ∀ p, ∀ n ∈ g.next p, n ∈ nodes)
    {turns : Nat} (h : measure nodes s ≤ turns) : ((turn g)^[turns] s).queue = [] := by
  induction turns generalizing s with
  | zero =>
    have hzero := Nat.le_zero.mp (Nat.le_trans (Nat.le_add_right _ _) h)
    exact List.eq_nil_of_length_eq_zero hzero
  | succ turns ih =>
    by_cases hqueue : s.queue = []
    · have hfixed : turn g s = s := by
        unfold turn
        rw [hqueue]
      rw [Function.iterate_fixed hfixed, hqueue]
    · exact ih (Nat.le_of_succ_le_succ (Nat.le_trans (Nat.le_of_eq (measure_turn hnodes hqueue)) h))

/-- What is in the queue was there or was looked at. -/
theorem mem_queue_foldl_look {waiting : List ν} {n : ν}
    (h : n ∈ (waiting.foldl (look g) s).queue) : n ∈ s.queue ∨ n ∈ waiting := by
  induction waiting generalizing s with
  | nil => exact .inl h
  | cons n' waiting ih =>
    rcases ih h with hqueue | hwaiting
    · unfold look at hqueue
      split at hqueue
      · exact .inl hqueue
      · split at hqueue
        · exact (List.mem_append.mp hqueue).imp_right fun hnew =>
            List.mem_cons.mpr (.inl (List.mem_singleton.mp hnew))
        · exact .inl hqueue
    · exact .inr (List.mem_cons_of_mem n' hwaiting)

end Worklist
