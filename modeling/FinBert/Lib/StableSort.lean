import Mathlib.Data.List.Count
import Mathlib.Data.List.Sort
import Mathlib.Order.Lattice

/-!
# Stable sorting by a score

`sorted(xs, key=score, reverse=True)`: the greatest score comes first, and elements of the same
score keep their order. An element together with its index in the list is ahead of another one if
its score is greater, or the same and its index smaller.

Results:
1. `exists_ranking`: the sorted list is that of the elements with their indexes, each ahead of those
   behind it.
2. `countP_ahead`: what comes before an element in that list is what is ahead of it.
-/

namespace StableSort

variable {α β : Type} [LinearOrder β] (score : α → β)

/-- `sorted(xs, key=score, reverse=True)`. -/
def sortedDesc (xs : List α) : List α := xs.insertionSort fun a b => score b ≤ score a

/-- One element of a list with its index is sorted before another one. -/
def Ahead (a b : α × Nat) : Prop := score b.1 < score a.1 ∨ score b.1 = score a.1 ∧ a.2 < b.2

instance (a b : α × Nat) : Decidable (Ahead score a b) := inferInstanceAs (Decidable (_ ∨ _))

/-- The elements of a list with their indexes, in the order of the sorted list. -/
structure Ranking (xs : List α) (ranked : List (α × Nat)) : Prop where
  perm : ranked.Perm xs.zipIdx
  sorted : ranked.map Prod.fst = sortedDesc score xs
  ahead : ranked.Pairwise (Ahead score)

variable {score}

theorem Ahead.irrefl (a : α × Nat) : ¬ Ahead score a a := by
  rintro (hlt | ⟨-, hlt⟩)
  · exact lt_irrefl _ hlt
  · exact lt_irrefl _ hlt

theorem Ahead.asymm {a b : α × Nat} (h : Ahead score a b) : ¬ Ahead score b a := by
  rintro (hlt | ⟨heq, hlt⟩) <;> rcases h with hlt' | ⟨heq', hlt'⟩
  · exact lt_asymm hlt hlt'
  · exact hlt.ne' heq'
  · exact hlt'.ne' heq
  · exact lt_asymm hlt hlt'

/-- An element with a smaller index than all others is inserted ahead of those with its score. -/
theorem pairwise_orderedInsert {a : α × Nat} {ranked : List (α × Nat)}
    (h : ranked.Pairwise (Ahead score)) (hindex : ∀ b ∈ ranked, a.2 < b.2) :
    (ranked.orderedInsert (fun a b => score b.1 ≤ score a.1) a).Pairwise (Ahead score) := by
  induction ranked with
  | nil => exact List.pairwise_singleton _ a
  | cons b ranked ih =>
    obtain ⟨hb, hranked⟩ := List.pairwise_cons.mp h
    obtain ⟨hab, hindex'⟩ := List.forall_mem_cons.mp hindex
    rw [List.orderedInsert_cons]
    split
    · next hle =>
      refine List.pairwise_cons.mpr ⟨fun c hc => ?_, h⟩
      have hcb : score c.1 ≤ score b.1 := by
        rcases List.mem_cons.mp hc with rfl | hc
        · exact le_rfl
        · exact (hb c hc).elim le_of_lt fun hsame => hsame.1.le
      rcases (hcb.trans hle).lt_or_eq with hlt | heq
      · exact .inl hlt
      · exact .inr ⟨heq, hindex c hc⟩
    · next hlt =>
      refine List.pairwise_cons.mpr ⟨fun c hc => ?_, ih hranked hindex'⟩
      rcases (List.mem_orderedInsert _).mp hc with rfl | hc
      · exact .inl (not_le.mp hlt)
      · exact hb c hc

theorem pairwise_insertionSort {xs : List (α × Nat)}
    (h : xs.Pairwise fun a b => a.2 < b.2) :
    (xs.insertionSort fun a b => score b.1 ≤ score a.1).Pairwise (Ahead score) := by
  induction xs with
  | nil => exact .nil
  | cons a xs ih =>
    obtain ⟨ha, hxs⟩ := List.pairwise_cons.mp h
    exact pairwise_orderedInsert (ih hxs) fun b hb => ha b ((List.mem_insertionSort _).mp hb)

theorem pairwise_zipIdx (xs : List α) (i : Nat) : (xs.zipIdx i).Pairwise fun a b => a.2 < b.2 := by
  induction xs generalizing i with
  | nil => exact .nil
  | cons x xs ih =>
    rw [List.zipIdx_cons]
    exact List.pairwise_cons.mpr ⟨fun b hb => List.le_snd_of_mem_zipIdx hb, ih (i + 1)⟩

/-- The sorted list as a ranking. -/
theorem exists_ranking (score : α → β) (xs : List α) : ∃ ranked, Ranking score xs ranked := by
  refine ⟨xs.zipIdx.insertionSort fun a b => score b.1 ≤ score a.1,
    List.perm_insertionSort _ _, ?_, pairwise_insertionSort (pairwise_zipIdx xs 0)⟩
  rw [List.map_insertionSort _ (fun a b => score b ≤ score a) Prod.fst _ fun _ _ _ _ => Iff.rfl,
    List.zipIdx_map_fst]
  rfl

/-- The first one of a ranking is ahead of all others. -/
theorem Ranking.first {xs : List α} {first : α × Nat} {ranked : List (α × Nat)}
    (h : Ranking score xs (first :: ranked)) {c : α × Nat} (hc : c ∈ xs.zipIdx) (hne : c ≠ first) :
    Ahead score first c := by
  rcases List.mem_cons.mp (h.perm.mem_iff.mpr hc) with heq | hmem
  · exact absurd heq hne
  · exact (List.pairwise_cons.mp h.ahead).1 c hmem

/-- What is ahead of an element comes before it. -/
theorem Ranking.countP_ahead {xs : List α} {before after : List (α × Nat)} {q : α × Nat}
    (h : Ranking score xs (before ++ q :: after)) (p : α → Bool) :
    xs.zipIdx.countP (fun c => p c.1 && decide (Ahead score c q)) =
      (before.map Prod.fst).countP p := by
  obtain ⟨-, hafter, hbefore⟩ := List.pairwise_append.mp h.ahead
  have hahead : ∀ c ∈ before, Ahead score c q := fun c hc => hbefore c hc q List.mem_cons_self
  have hbehind : ∀ c ∈ q :: after, ¬ Ahead score c q := by
    intro c hc
    rcases List.mem_cons.mp hc with rfl | hc
    · exact Ahead.irrefl c
    · exact ((List.pairwise_cons.mp hafter).1 c hc).asymm
  rw [← h.perm.countP_eq, List.countP_append, List.countP_map]
  have hnone : (q :: after).countP (fun c => p c.1 && decide (Ahead score c q)) = 0 :=
    List.countP_eq_zero.mpr fun c hc hboth =>
      hbehind c hc (of_decide_eq_true (Bool.and_eq_true_iff.mp hboth).2)
  rw [hnone, Nat.add_zero]
  refine List.countP_congr fun c hc => ?_
  rw [Function.comp_apply, Bool.and_eq_true, decide_eq_true_eq, and_iff_left (hahead c hc)]

end StableSort
