import Mathlib.Data.Fintype.EquivFin
import Mathlib.Data.Fintype.Sets
import Mathlib.Logic.Relation

/-!
# Dataflow networks

The steps of a network read and write tokens. A step is scheduled when one of the tokens that
it reads is updated and all of them are available; when it completes, it updates tokens that it
writes. A `Run` is any order of completions. In an `eager` run a step that completes updates all
that it writes, and every step that can be scheduled is scheduled.

Results:
1. `Run.nodup_scheduled`: no step is scheduled twice when every token has one writer, and a
   token that is available from the start and written later is not read before it is written.
2. `Acyclic.bounded`: the runs of an acyclic network are bounded.
3. `Run.complete`: an eager run of an acyclic network with nothing pending has completed every
   step.
-/

namespace Dataflow

variable {σ τ : Type}

/-- The steps, the tokens that each of them reads and writes, and the tokens that are available
from the start. -/
structure Network (σ τ : Type) where
  steps : List σ
  reads : σ → List τ
  writes : σ → List τ
  sources : List τ

/-- The available tokens, and every scheduling and every completion of a step. -/
structure Progress (σ τ : Type) where
  available : τ → Prop
  scheduled : List σ
  completed : List σ

namespace Network

variable (net : Network σ τ)

/-- A step that reads an updated token, with all tokens that it reads available. -/
structure Starts (available updated : τ → Prop) (b : σ) : Prop where
  mem : b ∈ net.steps
  updated : ∃ x ∈ net.reads b, updated x
  available : ∀ x ∈ net.reads b, available x

inductive Run [DecidableEq σ] (eager : Prop) : Progress σ τ → Prop
  | start {supply : τ → Prop} {newly : List σ}
      (hsupply : ∀ x, supply x → x ∈ net.sources)
      (hnodup : newly.Nodup)
      (hnewly : ∀ b ∈ newly, net.Starts supply supply b)
      (heager : eager → (∀ x ∈ net.sources, supply x) ∧
        ∀ b, net.Starts supply supply b → b ∈ newly) :
      Run eager ⟨supply, newly, []⟩
  | complete {p : Progress σ τ} {c : σ} {updated : τ → Prop} {newly : List σ}
      (hp : Run eager p)
      (hpending : p.completed.count c < p.scheduled.count c)
      (hupdated : ∀ x, updated x → x ∈ net.writes c)
      (hnodup : newly.Nodup)
      (hnewly : ∀ b ∈ newly, net.Starts (fun x => p.available x ∨ updated x) updated b)
      (heager : eager → (∀ x ∈ net.writes c, updated x) ∧
        ∀ b, net.Starts (fun x => p.available x ∨ updated x) updated b → b ∈ newly) :
      Run eager ⟨fun x => p.available x ∨ updated x, p.scheduled ++ newly, p.completed ++ [c]⟩

/-! ## Graphs -/

/-- The tokens that can become available while the step `a` has not completed. -/
inductive AvailableBefore (a : σ) : τ → Prop
  | source {x : τ} : x ∈ net.sources → AvailableBefore a x
  | written {c : σ} {x : τ} : c ∈ net.steps → c ≠ a →
      (∀ y ∈ net.reads c, AvailableBefore a y) → x ∈ net.writes c → AvailableBefore a x

/-- The step `b` can be scheduled while the step `a` has not completed. -/
def RunsBefore (a b : σ) : Prop := ∀ x ∈ net.reads b, net.AvailableBefore a x

/-- No token is written by two steps. -/
def SingleWriter : Prop :=
  ∀ a ∈ net.steps, ∀ b ∈ net.steps, ∀ x, x ∈ net.writes a → x ∈ net.writes b → a = b

/-- A token that is available from the start is not read by a step that can be scheduled before
the token's writer has completed, unless the writer cannot be scheduled at all. -/
def WrittenFirst : Prop :=
  ∀ x ∈ net.sources, ∀ a ∈ net.steps, x ∈ net.writes a → net.RunsBefore a a →
    ∀ b ∈ net.steps, x ∈ net.reads b → ¬ net.RunsBefore a b

/-- The step `b` reads what the step `c` writes. -/
def Feeds (c b : σ) : Prop := c ∈ net.steps ∧ ∃ x ∈ net.writes c, x ∈ net.reads b

instance [DecidableEq σ] [DecidableEq τ] (c b : σ) : Decidable (net.Feeds c b) :=
  inferInstanceAs (Decidable (_ ∧ _))

/-- No step depends on itself. -/
def Acyclic : Prop := ∀ b, ¬ Relation.TransGen net.Feeds b b

end Network

/-! ## Every step at most once -/

section
variable [DecidableEq σ] {net : Network σ τ} {eager : Prop} {p : Progress σ τ}

/-- Every step completes at most as often as it is scheduled, and what is scheduled has its
tokens. -/
structure Grounded (net : Network σ τ) (p : Progress σ τ) : Prop where
  mem : ∀ b ∈ p.scheduled, b ∈ net.steps
  count : ∀ c, p.completed.count c ≤ p.scheduled.count c
  reads : ∀ b ∈ p.scheduled, ∀ x ∈ net.reads b, p.available x
  available : ∀ x, p.available x → x ∈ net.sources ∨ ∃ c ∈ p.completed, x ∈ net.writes c

theorem mem_of_count_lt {c : σ} (h : p.completed.count c < p.scheduled.count c) :
    c ∈ p.scheduled :=
  List.count_pos_iff.mp (Nat.zero_lt_of_lt h)

theorem Network.Run.grounded (h : net.Run eager p) : Grounded net p := by
  induction h with
  | start hsupply _ hnewly _ =>
    exact ⟨fun b hb => (hnewly b hb).mem, fun c => Nat.zero_le _,
      fun b hb => (hnewly b hb).available, fun x hx => .inl (hsupply x hx)⟩
  | @complete p c updated newly _ hpending hupdated _ hnewly _ ih =>
    refine ⟨fun b hb => ?_, fun c' => ?_, fun b hb x hx => ?_, fun x hx => ?_⟩
    · rcases List.mem_append.mp hb with hb | hb
      · exact ih.mem b hb
      · exact (hnewly b hb).mem
    · have hle := ih.count c'
      rw [List.count_append, List.count_append, List.count_singleton]
      split
      · next heq =>
        obtain rfl := eq_of_beq heq
        exact Nat.le_add_right_of_le hpending
      · exact Nat.le_add_right_of_le hle
    · rcases List.mem_append.mp hb with hb | hb
      · exact .inl (ih.reads b hb x hx)
      · exact (hnewly b hb).available x hx
    · rcases hx with hx | hx
      · refine (ih.available x hx).imp_right fun ⟨c', hc', hwrites⟩ => ?_
        exact ⟨c', List.mem_append_left _ hc', hwrites⟩
      · exact .inr ⟨c, List.mem_append_right _ (List.mem_singleton_self c), hupdated x hx⟩

/-- While a step has not completed, everything that happened could happen without it. -/
structure Independent (net : Network σ τ) (p : Progress σ τ) : Prop where
  scheduled : ∀ a, a ∉ p.completed → ∀ b ∈ p.scheduled, net.RunsBefore a b
  available : ∀ a, a ∉ p.completed → ∀ x, p.available x → net.AvailableBefore a x

theorem Network.Run.independent (h : net.Run eager p) : Independent net p := by
  induction h with
  | start hsupply _ hnewly _ =>
    exact ⟨fun a _ b hb x hx => .source (hsupply x ((hnewly b hb).available x hx)),
      fun a _ x hx => .source (hsupply x hx)⟩
  | @complete p c updated newly hp hpending hupdated _ hnewly _ ih =>
    have hc : c ∈ p.scheduled := mem_of_count_lt hpending
    have havailable : ∀ a, a ∉ p.completed ++ [c] → ∀ x, p.available x ∨ updated x →
        net.AvailableBefore a x := fun a ha x hx => by
      rw [List.mem_append, List.mem_singleton, not_or] at ha
      rcases hx with hx | hx
      · exact ih.available a ha.1 x hx
      · exact .written (hp.grounded.mem c hc) (Ne.symm ha.2) (ih.scheduled a ha.1 c hc)
          (hupdated x hx)
    refine ⟨fun a ha b hb => ?_, havailable⟩
    rcases List.mem_append.mp hb with hb | hb
    · exact ih.scheduled a (fun h => ha (List.mem_append_left _ h)) b hb
    · exact fun x hx => havailable a ha x ((hnewly b hb).available x hx)

/-- Every step is scheduled at most once. -/
theorem Network.Run.nodup_scheduled (hwriter : net.SingleWriter) (hfirst : net.WrittenFirst)
    (h : net.Run eager p) : p.scheduled.Nodup := by
  induction h with
  | start _ hnodup _ _ => exact hnodup
  | @complete p c updated newly hp hpending hupdated hnodup hnewly _ ih =>
    have hgrounded := hp.grounded
    have hc : c ∈ p.scheduled := mem_of_count_lt hpending
    have hcompleted : c ∉ p.completed := fun hmem => by
      have hpos := List.count_pos_iff.mpr hmem
      have hle := List.nodup_iff_count_le_one.mp ih c
      exact absurd hpending (Nat.not_lt.mpr (hle.trans hpos))
    refine List.nodup_append.mpr ⟨ih, hnodup, fun b hb b' hb' heq => ?_⟩
    subst heq
    obtain ⟨x, hreads, hx⟩ := (hnewly b hb').updated
    -- the updated token was available already, when `b` was scheduled before
    rcases hgrounded.available x (hgrounded.reads b hb x hreads) with hsource | ⟨c', hc', hwrites⟩
    · exact hfirst x hsource c (hgrounded.mem c hc) (hupdated x hx)
        (hp.independent.scheduled c hcompleted c hc) b (hgrounded.mem b hb) hreads
        (hp.independent.scheduled c hcompleted b hb)
    · have hmem : c' ∈ p.scheduled :=
        List.count_pos_iff.mp ((List.count_pos_iff.mpr hc').trans_le (hgrounded.count c'))
      obtain rfl := hwriter c' (hgrounded.mem c' hmem) c (hgrounded.mem c hc) x hwrites
        (hupdated x hx)
      exact hcompleted hc'

end

/-! ## Acyclic networks -/

section
variable {net : Network σ τ}

/-- A network whose steps are fed by steps of a smaller rank is acyclic. -/
theorem Network.acyclic_of_rank (rank : σ → Nat)
    (h : ∀ c b, net.Feeds c b → rank c < rank b) : net.Acyclic := by
  have hlt : ∀ c b, Relation.TransGen net.Feeds c b → rank c < rank b := fun c b hcb => by
    induction hcb with
    | single hfeeds => exact h _ _ hfeeds
    | tail _ hfeeds ih => exact ih.trans (h _ _ hfeeds)
  exact fun b hb => Nat.lt_irrefl _ (hlt b b hb)

/-- Induction along the steps that feed a step. -/
theorem Network.Acyclic.induction (h : net.Acyclic) {motive : σ → Prop}
    (hstep : ∀ b ∈ net.steps, (∀ c, net.Feeds c b → motive c) → motive b) :
    ∀ b ∈ net.steps, motive b := by
  classical
  have hwf : WellFounded fun c b : { x // x ∈ net.steps } => Relation.TransGen net.Feeds c b :=
    haveI : IsTrans { x // x ∈ net.steps } fun c b => Relation.TransGen net.Feeds c b :=
      ⟨fun _ _ _ => Relation.TransGen.trans⟩
    haveI : Std.Irrefl fun c b : { x // x ∈ net.steps } => Relation.TransGen net.Feeds c b :=
      ⟨fun b => h b⟩
    Finite.wellFounded_of_trans_of_irrefl _
  intro b hb
  refine hwf.induction (C := fun b => motive b) ⟨b, hb⟩ fun b ih => ?_
  exact hstep b b.2 fun c hc => ih ⟨c, hc.1⟩ (.single hc)

end

section
variable [DecidableEq σ] {net : Network σ τ}

/-- A step is scheduled at the start, or when a step that feeds it completes. -/
theorem Network.Run.count_scheduled_le [DecidableEq τ] {eager : Prop} {p : Progress σ τ}
    (h : net.Run eager p) (b : σ) :
    p.scheduled.count b ≤ p.completed.countP (fun c => decide (net.Feeds c b)) + 1 := by
  induction h with
  | start _ hnodup _ _ => exact List.nodup_iff_count_le_one.mp hnodup b
  | @complete p c updated newly hp hpending hupdated hnodup hnewly _ ih =>
    rw [List.count_append, List.countP_append, List.countP_singleton]
    by_cases hb : b ∈ newly
    · obtain ⟨x, hreads, hx⟩ := (hnewly b hb).updated
      have hfeeds : net.Feeds c b :=
        ⟨hp.grounded.mem c (mem_of_count_lt hpending), x, hupdated x hx, hreads⟩
      rw [if_pos (decide_eq_true hfeeds)]
      exact Nat.add_le_add ih (List.nodup_iff_count_le_one.mp hnodup b)
    · rw [List.count_eq_zero_of_not_mem hb]
      exact ih.trans (Nat.add_le_add_right (Nat.le_add_right _ _) 1)

/-- The elements of a list that are among `d :: support`. -/
theorem countP_mem_cons_le (l : List σ) (d : σ) (support : List σ) :
    l.countP (fun c => decide (c ∈ d :: support)) ≤
      l.countP (fun c => decide (c ∈ support)) + l.count d := by
  induction l with
  | nil => exact Nat.le_refl 0
  | cons c l ih =>
    rw [List.countP_cons, List.countP_cons, List.count_cons]
    by_cases hd : c = d
    · simp only [hd, List.mem_cons, true_or, decide_true, if_true, beq_self_eq_true] at ih ⊢
      exact Nat.add_le_add_right (ih.trans (Nat.add_le_add_right (Nat.le_add_right _ _) _)) 1
    · simp only [List.mem_cons, hd, false_or, beq_iff_eq, if_false, Nat.add_zero] at ih ⊢
      rw [Nat.add_right_comm]
      exact Nat.add_le_add_right ih _

/-- What is bounded for each of finitely many elements is bounded for all together. -/
theorem countP_mem_bounded {ι : Type} (lists : ι → List σ) (P : ι → Prop) (support : List σ)
    (hbounded : ∀ c ∈ support, ∃ n, ∀ i, P i → (lists i).count c ≤ n) :
    ∃ n, ∀ i, P i → (lists i).countP (fun c => decide (c ∈ support)) ≤ n := by
  induction support with
  | nil => exact ⟨0, fun i _ => by simp⟩
  | cons d support ih =>
    rw [List.forall_mem_cons] at hbounded
    obtain ⟨n, hn⟩ := hbounded.1
    obtain ⟨m, hm⟩ := ih hbounded.2
    exact ⟨m + n, fun i hi =>
      (countP_mem_cons_le _ d support).trans (Nat.add_le_add (hm i hi) (hn i hi))⟩

/-- The runs of an acyclic network are bounded. -/
theorem Network.Acyclic.bounded (h : net.Acyclic) (eager : Prop) :
    ∃ n, ∀ p, net.Run eager p → p.scheduled.length ≤ n := by
  classical
  have hstep : ∀ b ∈ net.steps, ∃ n, ∀ p, net.Run eager p → p.scheduled.count b ≤ n := by
    refine h.induction fun b _ ih => ?_
    obtain ⟨n, hn⟩ := countP_mem_bounded Progress.completed (net.Run eager)
      (net.steps.filter fun c => decide (net.Feeds c b)) fun c hc => by
        obtain ⟨n, hn⟩ := ih c (of_decide_eq_true (List.mem_filter.mp hc).2)
        exact ⟨n, fun p hp => (hp.grounded.count c).trans (hn p hp)⟩
    refine ⟨n + 1, fun p hp => (hp.count_scheduled_le b).trans (Nat.add_le_add_right ?_ 1)⟩
    refine (List.countP_mono_left fun c _ hc => ?_).trans (hn p hp)
    exact decide_eq_true (List.mem_filter.mpr ⟨(of_decide_eq_true hc).1, hc⟩)
  obtain ⟨n, hn⟩ := countP_mem_bounded Progress.scheduled (net.Run eager) net.steps hstep
  refine ⟨n, fun p hp => ?_⟩
  rw [← List.countP_true]
  exact (List.countP_mono_left fun b hb _ => decide_eq_true (hp.grounded.mem b hb)).trans (hn p hp)

/-! ## Eager runs -/

/-- What an eager run has done so far. -/
structure Eager (net : Network σ τ) (p : Progress σ τ) : Prop where
  sources : ∀ x ∈ net.sources, p.available x
  written : ∀ c ∈ p.completed, ∀ x ∈ net.writes c, p.available x
  scheduled : ∀ b ∈ net.steps, net.reads b ≠ [] → (∀ x ∈ net.reads b, p.available x) →
    b ∈ p.scheduled

theorem Network.Run.eager {eager : Prop} {p : Progress σ τ} (h : net.Run eager p) (he : eager) :
    Eager net p := by
  induction h with
  | start _ _ _ heager =>
    obtain ⟨hsources, hall⟩ := heager he
    refine ⟨hsources, fun c hc => absurd hc List.not_mem_nil, fun b hb hne hreads => ?_⟩
    obtain ⟨x, hx⟩ := List.exists_mem_of_ne_nil _ hne
    exact hall b ⟨hb, ⟨x, hx, hreads x hx⟩, hreads⟩
  | @complete p c updated newly _ _ _ _ _ heager ih =>
    obtain ⟨hwrites, hall⟩ := heager he
    refine ⟨fun x hx => .inl (ih.sources x hx), fun c' hc' x hx => ?_,
      fun b hb hne hreads => ?_⟩
    · rcases List.mem_append.mp hc' with hc' | hc'
      · exact .inl (ih.written c' hc' x hx)
      · rw [List.mem_singleton.mp hc'] at hx
        exact .inr (hwrites x hx)
    · by_cases hupdated : ∃ x ∈ net.reads b, updated x
      · exact List.mem_append_right _ (hall b ⟨hb, hupdated, hreads⟩)
      · -- nothing that the step reads has changed
        refine List.mem_append_left _ (ih.scheduled b hb hne fun x hx => ?_)
        exact (hreads x hx).resolve_right fun h => hupdated ⟨x, hx, h⟩

/-- An eager run of an acyclic network in which nothing is pending has completed every step. -/
theorem Network.Run.complete_all {eager : Prop} {p : Progress σ τ} (h : net.Run eager p)
    (he : eager) (hacyclic : net.Acyclic) (hne : ∀ b ∈ net.steps, net.reads b ≠ [])
    (hreads : ∀ b ∈ net.steps, ∀ x ∈ net.reads b,
      x ∈ net.sources ∨ ∃ c ∈ net.steps, x ∈ net.writes c)
    (hdone : ∀ b ∈ p.scheduled, b ∈ p.completed) : ∀ b ∈ net.steps, b ∈ p.completed := by
  have heager := h.eager he
  refine hacyclic.induction fun b hb ih => hdone b (heager.scheduled b hb (hne b hb) fun x hx => ?_)
  rcases hreads b hb x hx with hsource | ⟨c, hc, hwrites⟩
  · exact heager.sources x hsource
  · exact heager.written c (ih c ⟨hc, x, hwrites, hx⟩) x hwrites

end

end Dataflow
