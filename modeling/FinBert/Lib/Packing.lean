import Mathlib.Data.List.Perm.Subperm
import Mathlib.Data.List.Flatten
import Mathlib.Data.List.Lattice
import Mathlib.Data.Nat.Basic
import Mathlib.Order.Basic

/-!
# Greedy packing under a quota

Sets of items are offered one after the other. A set is taken when it is disjoint from the
items that are covered already and the quota has room for all of its items; the pass stops
when the quota is used up.

Results:
1. `disjoint_pack`, `length_pack_le`: what is taken is pairwise disjoint and fits.
2. `maximal_pack`: a set that is not taken overlaps what is covered, or no longer fits.
3. `length_pack_of_singletons`: how much is taken of single items.
4. `pack_append`: disjoint sets that fit are all taken when they are offered first.
5. `exists_leftOut_iff`: when some order of the sets leaves an item out.
-/

namespace Packing

variable {α : Type} [DecidableEq α]

/-- The sets that are taken, where `covered` lists the items taken before. -/
def pack (quota : Nat) : List (List α) → List α → List (List α)
  | [], _ => []
  | set :: sets, covered =>
    if quota ≤ covered.length then []
    else if quota < covered.length + set.length then pack quota sets covered
    else if set.any (· ∈ covered) then pack quota sets covered
    else set :: pack quota sets (covered ++ set)

/-- Sets that can all be taken together. -/
structure Admissible (quota : Nat) (sets : List (List α)) : Prop where
  disjoint : sets.Pairwise List.Disjoint
  fits : sets.flatten.length ≤ quota

variable {quota : Nat} {sets rest : List (List α)} {set : List α} {covered : List α} {x : α}

theorem any_mem_eq_false : set.any (· ∈ covered) = false ↔ set.Disjoint covered := by
  rw [List.any_eq_false]
  exact forall₂_congr fun x _ => by rw [decide_eq_true_iff]

/-- The cases of one turn. -/
theorem pack_cons_cases (quota : Nat) (set : List α) (sets : List (List α)) (covered : List α) :
    (quota ≤ covered.length ∧ pack quota (set :: sets) covered = []) ∨
      (¬ quota ≤ covered.length ∧
        (quota < covered.length + set.length ∨ ¬ set.Disjoint covered) ∧
        pack quota (set :: sets) covered = pack quota sets covered) ∨
      (covered.length + set.length ≤ quota ∧ set.Disjoint covered ∧
        pack quota (set :: sets) covered = set :: pack quota sets (covered ++ set)) := by
  rw [pack]
  split
  · next hfull => exact .inl ⟨hfull, rfl⟩
  · next hfull =>
    split
    · next hbig => exact .inr (.inl ⟨hfull, .inl hbig, rfl⟩)
    · next hbig =>
      split
      · next hany =>
        refine .inr (.inl ⟨hfull, .inr fun hdisjoint => ?_, rfl⟩)
        rw [any_mem_eq_false.mpr hdisjoint] at hany
        cases hany
      · next hany =>
        exact .inr (.inr ⟨Nat.le_of_not_lt hbig,
          any_mem_eq_false.mp (Bool.eq_false_iff.mpr hany), rfl⟩)

/-! ## What is taken -/

theorem pack_sublist (quota : Nat) (sets : List (List α)) (covered : List α) :
    (pack quota sets covered).Sublist sets := by
  induction sets generalizing covered with
  | nil => exact List.Sublist.refl _
  | cons set sets ih =>
    obtain ⟨-, heq⟩ | ⟨-, -, heq⟩ | ⟨-, -, heq⟩ := pack_cons_cases quota set sets covered
    · rw [heq]
      exact List.nil_sublist _
    · rw [heq]
      exact (ih covered).cons set
    · rw [heq]
      exact (ih (covered ++ set)).cons_cons set

theorem disjoint_covered_of_mem_pack (h : set ∈ pack quota sets covered) :
    set.Disjoint covered := by
  induction sets generalizing covered with
  | nil => cases h
  | cons set' sets ih =>
    obtain ⟨-, heq⟩ | ⟨-, -, heq⟩ | ⟨-, hdisjoint, heq⟩ :=
      pack_cons_cases quota set' sets covered
    · rw [heq] at h
      cases h
    · exact ih (heq ▸ h)
    · rw [heq] at h
      rcases List.mem_cons.mp h with rfl | h
      · exact hdisjoint
      · exact (List.disjoint_append_right.mp (ih h)).1

theorem disjoint_pack (quota : Nat) (sets : List (List α)) (covered : List α) :
    (pack quota sets covered).Pairwise List.Disjoint := by
  induction sets generalizing covered with
  | nil => exact List.Pairwise.nil
  | cons set sets ih =>
    obtain ⟨-, heq⟩ | ⟨-, -, heq⟩ | ⟨-, -, heq⟩ := pack_cons_cases quota set sets covered
    · rw [heq]
      exact List.Pairwise.nil
    · rw [heq]
      exact ih covered
    · rw [heq, List.pairwise_cons]
      refine ⟨fun set' hset' => ?_, ih _⟩
      have hdisjoint := disjoint_covered_of_mem_pack hset'
      exact List.Disjoint.symm (List.disjoint_append_right.mp hdisjoint).2

theorem length_pack_le (sets : List (List α)) (h : covered.length ≤ quota) :
    covered.length + (pack quota sets covered).flatten.length ≤ quota := by
  induction sets generalizing covered with
  | nil => exact h
  | cons set sets ih =>
    obtain ⟨-, heq⟩ | ⟨-, -, heq⟩ | ⟨hfits, -, heq⟩ := pack_cons_cases quota set sets covered
    · rw [heq]
      exact h
    · rw [heq]
      exact ih h
    · rw [heq, List.flatten_cons, List.length_append, ← Nat.add_assoc, ← List.length_append]
      exact ih (List.length_append.trans_le hfits)

theorem admissible_pack (quota : Nat) (sets : List (List α)) :
    Admissible quota (pack quota sets []) where
  disjoint := disjoint_pack quota sets []
  fits := by
    have hnil : ([] : List α).length ≤ quota := Nat.zero_le quota
    exact (Nat.zero_add _).symm.trans_le (length_pack_le sets hnil)

/-- A set that is not empty is taken, unless it overlaps what is covered at the end or what
is covered leaves too little room. -/
theorem maximal_pack (hmem : set ∈ sets) (hne : set ≠ []) :
    set ∈ pack quota sets covered ∨
      ¬ set.Disjoint (covered ++ (pack quota sets covered).flatten) ∨
      quota < covered.length + (pack quota sets covered).flatten.length + set.length := by
  induction sets generalizing covered with
  | nil => cases hmem
  | cons set' sets ih =>
    obtain ⟨hfull, heq⟩ | ⟨-, hskip, heq⟩ | ⟨-, -, heq⟩ := pack_cons_cases quota set' sets covered
    · refine .inr (.inr (hfull.trans_lt ?_))
      rw [heq]
      exact Nat.lt_add_of_pos_right (List.length_pos_iff.mpr hne)
    · rw [heq]
      rcases List.mem_cons.mp hmem with rfl | hmem
      · refine .inr (hskip.symm.imp (fun hoverlap hdisjoint => ?_) fun hbig => ?_)
        · exact hoverlap (List.disjoint_append_right.mp hdisjoint).1
        · exact hbig.trans_le (Nat.add_le_add_right (Nat.le_add_right _ _) _)
      · exact ih hmem
    · rw [heq, List.flatten_cons, List.length_append, ← Nat.add_assoc, ← List.length_append,
        ← List.append_assoc]
      rcases List.mem_cons.mp hmem with rfl | hmem
      · exact .inl List.mem_cons_self
      · exact (ih hmem).imp_left (List.mem_cons_of_mem set')

theorem maximal_pack_nil (hmem : set ∈ sets) (hne : set ≠ []) :
    set ∈ pack quota sets [] ∨ ¬ set.Disjoint (pack quota sets []).flatten ∨
      quota < (pack quota sets []).flatten.length + set.length := by
  have h : set ∈ pack quota sets [] ∨ ¬ set.Disjoint ([] ++ (pack quota sets []).flatten) ∨
      quota < 0 + (pack quota sets []).flatten.length + set.length := maximal_pack hmem hne
  rwa [List.nil_append, Nat.zero_add] at h

/-- An item that is a set of its own is taken, or the quota is used up. -/
theorem mem_pack_or_full (hmem : [x] ∈ sets) :
    x ∈ (pack quota sets []).flatten ∨ quota ≤ (pack quota sets []).flatten.length := by
  rcases maximal_pack_nil hmem (List.cons_ne_nil x []) with htaken | hoverlap | hfull
  · exact .inl (List.mem_flatten_of_mem htaken (List.mem_singleton_self x))
  · rw [List.singleton_disjoint, not_not] at hoverlap
    exact .inl hoverlap
  · exact .inr (Nat.le_of_lt_succ hfull)

/-- When every set is a single item, as many items are taken as there are, up to the quota. -/
theorem length_pack_of_singletons (hsingle : ∀ set ∈ sets, ∃ x, set = [x])
    (hnodup : sets.flatten.Nodup) :
    (pack quota sets []).flatten.length = min quota sets.flatten.length := by
  have hsub : (pack quota sets []).flatten.Sublist sets.flatten := (pack_sublist _ _ _).flatten
  refine Nat.le_antisymm (Nat.le_min.mpr ⟨(admissible_pack quota sets).fits, hsub.length_le⟩) ?_
  rcases Nat.lt_or_ge (pack quota sets []).flatten.length quota with hroom | hfull
  · have hall : sets.flatten ⊆ (pack quota sets []).flatten := by
      intro x hx
      obtain ⟨set, hset, hxset⟩ := List.mem_flatten.mp hx
      obtain ⟨y, rfl⟩ := hsingle set hset
      obtain rfl := List.mem_singleton.mp hxset
      exact (mem_pack_or_full hset).resolve_right (Nat.not_le_of_lt hroom)
    exact (Nat.min_le_right _ _).trans (hnodup.subperm hall).length_le
  · exact (Nat.min_le_left _ _).trans hfull

/-! ## What can be taken -/

theorem pack_of_full (sets : List (List α)) (h : quota ≤ covered.length) :
    pack quota sets covered = [] := by
  cases sets with
  | nil => rfl
  | cons set sets => rw [pack, if_pos h]

/-- Sets that are disjoint, from each other and from what is covered, and that fit. -/
theorem pack_append (hdisjoint : sets.Pairwise List.Disjoint)
    (hcovered : ∀ set ∈ sets, set.Disjoint covered) (hne : ∀ set ∈ sets, set ≠ [])
    (hfits : covered.length + sets.flatten.length ≤ quota) (rest : List (List α)) :
    pack quota (sets ++ rest) covered = sets ++ pack quota rest (covered ++ sets.flatten) := by
  induction sets generalizing covered with
  | nil => rw [List.flatten_nil, List.append_nil, List.nil_append, List.nil_append]
  | cons set sets ih =>
    obtain ⟨hset, hsets⟩ := List.pairwise_cons.mp hdisjoint
    rw [List.flatten_cons, List.length_append, ← Nat.add_assoc] at hfits
    have hroom : covered.length + set.length ≤ quota := (Nat.le_add_right _ _).trans hfits
    have hpos : 0 < set.length := List.length_pos_iff.mpr (hne set List.mem_cons_self)
    have hnotFull : ¬ quota ≤ covered.length :=
      Nat.not_le_of_lt ((Nat.lt_add_of_pos_right hpos).trans_le hroom)
    have hany : set.any (· ∈ covered) = false :=
      any_mem_eq_false.mpr (hcovered set List.mem_cons_self)
    rw [List.cons_append, pack, if_neg hnotFull, if_neg (Nat.not_lt_of_le hroom), hany,
      if_neg Bool.false_ne_true, List.cons_append, List.flatten_cons, ← List.append_assoc]
    congr 1
    refine ih hsets (fun set' hset' => ?_) (fun set' hset' => hne set' (.tail _ hset')) ?_
    · exact List.disjoint_append_right.mpr
        ⟨hcovered set' (List.mem_cons_of_mem set hset'), List.Disjoint.symm (hset set' hset')⟩
    · rwa [List.length_append]

/-- A set that is offered first and fits is taken. -/
theorem pack_cons_of_fits (hne : set ≠ []) (hfits : set.length ≤ quota) :
    pack quota (set :: sets) [] = set :: pack quota sets set := by
  have hpack := @pack_append _ _ quota [set] [] (List.pairwise_singleton _ _)
    (fun set' _ => List.disjoint_nil_right _)
    (fun set' hset' => (List.mem_singleton.mp hset') ▸ hne) (by simpa using hfits) sets
  simpa using hpack

/-- A set that is offered first and fills the quota is the only one taken. -/
theorem exists_pack_eq_singleton (hmem : set ∈ sets) (hne : set ≠ []) :
    ∃ order, order.Perm sets ∧ pack set.length order [] = [set] := by
  refine ⟨set :: sets.erase set, (List.perm_cons_erase hmem).symm, ?_⟩
  rw [pack_cons_of_fits hne (Nat.le_refl _), pack_of_full _ (Nat.le_refl _)]

/-- An item is left out in some order of the sets exactly when there are disjoint sets
without it, within the quota, that overlap or leave too little room for each set with it. -/
theorem exists_leftOut_iff (hne : ∀ set ∈ sets, set ≠ []) :
    (∃ order, order.Perm sets ∧ x ∉ (pack quota order []).flatten) ↔
      ∃ taken, taken.Subperm sets ∧ Admissible quota taken ∧ x ∉ taken.flatten ∧
        ∀ set ∈ sets, x ∈ set →
          ¬ set.Disjoint taken.flatten ∨ quota < taken.flatten.length + set.length := by
  constructor
  · rintro ⟨order, hperm, hx⟩
    refine ⟨pack quota order [], ?_, admissible_pack quota order, hx, fun set hset hxset => ?_⟩
    · exact (pack_sublist quota order []).subperm.trans hperm.subperm
    · refine (maximal_pack_nil (hperm.mem_iff.mpr hset) (hne set hset)).resolve_left ?_
      exact fun htaken => hx (List.mem_flatten_of_mem htaken hxset)
  · rintro ⟨taken, hsub, hadmissible, hx, hleft⟩
    obtain ⟨taken', hperm, hsublist⟩ := hsub
    obtain ⟨rest, hrest⟩ := hsublist.exists_perm_append
    have horder : (taken ++ rest).Perm sets :=
      ((List.perm_append_right_iff rest).mpr hperm.symm).trans hrest.symm
    have hmem : ∀ set ∈ taken ++ rest, set ∈ sets := fun set hset => horder.mem_iff.mp hset
    refine ⟨taken ++ rest, horder, ?_⟩
    rw [pack_append hadmissible.disjoint (fun set _ => List.disjoint_nil_right _)
      (fun set hset => hne set (hmem set (List.mem_append_left _ hset)))
      ((Nat.zero_add _).trans_le hadmissible.fits), List.nil_append, List.flatten_append,
      List.mem_append]
    rintro (hxtaken | hxrest)
    · exact hx hxtaken
    · obtain ⟨set, hset, hxset⟩ := List.mem_flatten.mp hxrest
      have hdisjoint := disjoint_covered_of_mem_pack hset
      have hin : set ∈ sets :=
        hmem set (List.mem_append_right _ ((pack_sublist _ _ _).mem hset))
      rcases hleft set hin hxset with hoverlap | hbig
      · exact hoverlap hdisjoint
      · have hfits := length_pack_le rest hadmissible.fits
        have hle : set.length ≤ (pack quota rest taken.flatten).flatten.length :=
          (List.sublist_flatten_of_mem hset).length_le
        exact Nat.not_lt_of_le (Nat.add_le_add_left hle _ |>.trans hfits) hbig

end Packing
