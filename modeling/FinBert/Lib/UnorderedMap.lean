import Mathlib.Algebra.BigOperators.Group.List.Basic
import Mathlib.Data.Finset.Card
import Mathlib.Data.List.AList
import Mathlib.Logic.Function.Basic

/-!
# Unordered maps

`std::unordered_map<κ, ν>` as Mathlib's association lists without repeated keys.
`find`, `insert_or_assign` and `erase` are `AList.lookup`, `AList.insert` and
`AList.erase`; an update of the map is an update of its lookup function.
-/

/-- A map from `κ` to `ν`; the order of its entries carries no meaning. -/
abbrev UnorderedMap (κ ν : Type) := AList fun _ : κ => ν

namespace UnorderedMap

variable {κ ν : Type} [DecidableEq κ]

/-- What a map finds under each key. -/
def find (m : UnorderedMap κ ν) (k : κ) : Option ν := m.lookup k

@[simp] theorem find_empty : find (∅ : UnorderedMap κ ν) = fun _ => none :=
  funext AList.lookup_empty

theorem find_insert (m : UnorderedMap κ ν) (k : κ) (v : ν) :
    find (m.insert k v) = Function.update (find m) k (some v) := by
  funext k'
  rw [Function.update_apply]
  split
  · next h => rw [h]; exact AList.lookup_insert m
  · next h => exact AList.lookup_insert_ne h

theorem find_insert_apply (m : UnorderedMap κ ν) (k : κ) (v : ν) (k' : κ) :
    find (m.insert k v) k' = if k' = k then some v else find m k' := by
  rw [find_insert, Function.update_apply]

/-- One more key of a list has a value. -/
theorem find_insert_concat {m : UnorderedMap κ ν} {ks : List κ}
    (h : ∀ k ∈ ks, ∃ v, find m k = some v) (k : κ) (v : ν) :
    ∀ k' ∈ ks ++ [k], ∃ v', find (m.insert k v) k' = some v' := by
  intro k' hmem
  rw [find_insert_apply]
  split
  · exact ⟨v, rfl⟩
  · next hne =>
    exact h k' ((List.mem_append.mp hmem).resolve_right fun heq => hne (List.mem_singleton.mp heq))

theorem find_erase (m : UnorderedMap κ ν) (k : κ) :
    find (m.erase k) = Function.update (find m) k none := by
  funext k'
  rw [Function.update_apply]
  split
  · next h => rw [h]; exact AList.lookup_erase k m
  · next h => exact AList.lookup_erase_ne h

/-- What is still found was there. -/
theorem find_erase_or (m : UnorderedMap κ ν) (k k' : κ) :
    find (m.erase k) k' = none ∨ find (m.erase k) k' = find m k' := by
  rw [find_erase, Function.update_apply]
  split
  · exact .inl rfl
  · exact .inr rfl

theorem mem_keys_iff (m : UnorderedMap κ ν) (k : κ) : k ∈ m.keys ↔ (find m k).isSome := by
  rw [← AList.mem_keys, ← AList.lookup_isSome, find]

theorem card_keys_le (m : UnorderedMap κ ν) : m.keys.toFinset.card ≤ m.entries.length :=
  (List.toFinset_card_le m.keys).trans (Nat.le_of_eq (List.length_map _))

theorem mem_entries_iff (m : UnorderedMap κ ν) (k : κ) (v : ν) :
    ⟨k, v⟩ ∈ m.entries ↔ find m k = some v :=
  AList.mem_lookup_iff.symm

/-- What holds of all entries holds of everything that is found. -/
theorem all_entries_iff (m : UnorderedMap κ ν) (p : ν → Bool) :
    (m.entries.all fun e => p e.2) = true ↔ ∀ k v, find m k = some v → p v = true := by
  rw [List.all_eq_true]
  exact ⟨fun h k v hfind => h ⟨k, v⟩ ((mem_entries_iff m k v).mpr hfind),
    fun h ⟨k, v⟩ hmem => h k v ((mem_entries_iff m k v).mp hmem)⟩

/-- A value that is counted is replaced by one that is not. -/
theorem countP_insert {m : UnorderedMap κ ν} {k : κ} {v v' : ν} {p : ν → Bool}
    (h : find m k = some v) (hv : p v = true) (hv' : p v' = false) :
    (m.insert k v').entries.countP (fun e => p e.2) + 1 = m.entries.countP fun e => p e.2 := by
  have hmem : k ∈ m.keys := (mem_keys_iff m k).mpr (by rw [h]; rfl)
  obtain ⟨v₀, before, after, -, hentries, herase⟩ := List.exists_of_kerase hmem
  have hsame : v₀ = v := by
    have hentry : (⟨k, v₀⟩ : Σ _ : κ, ν) ∈ m.entries := hentries ▸ List.mem_append_cons_self
    exact Option.some.inj (((mem_entries_iff m k v₀).mp hentry).symm.trans h)
  rw [AList.entries_insert, herase, hentries, hsame]
  simp [hv, hv', Nat.add_assoc]

/-- A sum over the entries loses the term of the old value and gains that of the new one. -/
theorem sum_insert {M : Type} [AddCommMonoid M] (m : UnorderedMap κ ν) (k : κ) (v : ν)
    (f : κ → ν → M) :
    ((m.insert k v).entries.map fun e => f e.1 e.2).sum + ((find m k).map (f k)).getD 0 =
      (m.entries.map fun e => f e.1 e.2).sum + f k v := by
  rw [AList.entries_insert, List.map_cons, List.sum_cons, add_assoc, add_comm]
  congr 1
  cases hfind : find m k with
  | none =>
    have hnotMem : k ∉ m.keys := fun hmem => by
      have hsome := (mem_keys_iff m k).mp hmem
      rw [hfind] at hsome
      cases hsome
    rw [List.kerase_of_notMem_keys hnotMem]
    exact add_zero _
  | some v₀ =>
    have hmem : k ∈ m.keys := (mem_keys_iff m k).mpr (by rw [hfind]; rfl)
    obtain ⟨v₁, before, after, -, hentries, herase⟩ := List.exists_of_kerase hmem
    have hsame : v₁ = v₀ := by
      have hentry : (⟨k, v₁⟩ : Σ _ : κ, ν) ∈ m.entries := hentries ▸ List.mem_append_cons_self
      exact Option.some.inj (((mem_entries_iff m k v₁).mp hentry).symm.trans hfind)
    rw [herase, hentries, hsame]
    simp only [List.map_append, List.map_cons, List.sum_append, List.sum_cons, Option.map_some,
      Option.getD_some]
    rw [add_assoc, add_comm (f k v₀)]

/-- `insert_or_assign` of one entry after the other. -/
def insertAll (m : UnorderedMap κ ν) (entries : List (κ × ν)) : UnorderedMap κ ν :=
  entries.foldl (fun m e => m.insert e.1 e.2) m

theorem find_insertAll_of_notMem (m : UnorderedMap κ ν) {entries : List (κ × ν)} {k : κ}
    (h : k ∉ entries.map Prod.fst) : find (m.insertAll entries) k = find m k := by
  induction entries generalizing m with
  | nil => rfl
  | cons e entries ih =>
    rw [List.map_cons, List.mem_cons, not_or] at h
    exact (ih _ h.2).trans ((find_insert_apply m e.1 e.2 k).trans (if_neg h.1))

theorem find_insertAll_of_mem (m : UnorderedMap κ ν) {entries : List (κ × ν)} {k : κ} {v : ν}
    (hnodup : (entries.map Prod.fst).Nodup) (h : (k, v) ∈ entries) :
    find (m.insertAll entries) k = some v := by
  induction entries generalizing m with
  | nil => cases h
  | cons e entries ih =>
    rw [List.map_cons, List.nodup_cons] at hnodup
    rcases List.mem_cons.mp h with rfl | hmem
    · have hlast := find_insertAll_of_notMem (m.insert k v) hnodup.1
      exact hlast.trans ((find_insert_apply m k v k).trans (if_pos rfl))
    · exact ih _ hnodup.2 hmem

/-- The order in which the entries of a map are met: some order, that may be another one for
every map. -/
structure IterationOrder (κ : Type) where
  entries : {ν : Type} → UnorderedMap κ ν → List (Σ _ : κ, ν)
  perm : ∀ {ν : Type} (m : UnorderedMap κ ν), (entries m).Perm m.entries

/-- The order of the list. -/
instance : Inhabited (IterationOrder κ) := ⟨⟨fun m => m.entries, fun _ => .refl _⟩⟩

namespace IterationOrder

variable (order : IterationOrder κ)

theorem mem_entries {m : UnorderedMap κ ν} {e : Σ _ : κ, ν} :
    e ∈ order.entries m ↔ find m e.1 = some e.2 :=
  (order.perm m).mem_iff.trans (mem_entries_iff m e.1 e.2)

omit [DecidableEq κ] in
theorem nodup_keys (m : UnorderedMap κ ν) : ((order.entries m).map Sigma.fst).Nodup :=
  ((order.perm m).map Sigma.fst).nodup_iff.mpr m.nodupKeys

/-- A key is met at most once. -/
theorem filter_key (m : UnorderedMap κ ν) (k : κ) :
    (order.entries m).filter (fun e => k = e.1) = (find m k).toList.map (Sigma.mk k) := by
  have hmem : ∀ e, e ∈ (order.entries m).filter (fun e => k = e.1) ↔
      e ∈ (find m k).toList.map (Sigma.mk k) := by
    rintro ⟨k', v⟩
    rw [List.mem_filter, mem_entries, decide_eq_true_eq, List.mem_map]
    constructor
    · rintro ⟨hfind, rfl⟩
      exact ⟨v, Option.mem_toList.mpr hfind, rfl⟩
    · rintro ⟨v', hv', heq⟩
      cases heq
      exact ⟨Option.mem_toList.mp hv', rfl⟩
  have hnodup : ((order.entries m).filter fun e => k = e.1).Nodup :=
    (List.Nodup.of_map _ (order.nodup_keys m)).filter _
  cases hfind : find m k with
  | none =>
    rw [hfind] at hmem
    exact List.eq_nil_iff_forall_not_mem.mpr fun e he => by cases (hmem e).mp he
  | some v =>
    rw [hfind] at hmem
    exact List.perm_singleton.mp
      ((List.perm_ext_iff_of_nodup hnodup (List.nodup_singleton _)).mpr hmem)

end IterationOrder

end UnorderedMap
