import Mathlib.Data.List.Basic
import Mathlib.Data.List.Nodup

/-!
# Python dictionaries that keep their insertion order

A dictionary is the list of its items. An assignment to a key that is there replaces the
value in place; otherwise it appends an item. Lookup is `List.lookup`.

Results:
1. `lookup_assign`, `keys_assign`: an assignment changes one key, and appends it if it is new.
2. `lookup_inverse`: the inverse dictionary of one without repeated values.
3. `exists_lookup`: a key has a value, and the item is one of the dictionary.
4. `keysAfter_eq_append_iff`: when a loop of assignments appends all its keys.
-/

/-- The items of a dictionary, in insertion order. -/
abbrev OrderedDict (κ ν : Type) := List (κ × ν)

namespace OrderedDict

variable {κ ν : Type}

/-- `d.keys()`. -/
def keys (d : OrderedDict κ ν) : List κ := d.map (·.1)

/-- `d.values()`. -/
def values (d : OrderedDict κ ν) : List ν := d.map (·.2)

section
variable [DecidableEq κ]

/-- `d[k] = v`. -/
def assign (k : κ) (v : ν) : OrderedDict κ ν → OrderedDict κ ν
  | [] => [(k, v)]
  | (k', v') :: d => if k' = k then (k, v) :: d else (k', v') :: assign k v d

theorem lookup_cons_eq (k : κ) (v : ν) (d : OrderedDict κ ν) (k' : κ) :
    List.lookup k' ((k, v) :: d) = if k' = k then some v else d.lookup k' := by
  rw [List.lookup_cons]
  split
  · next h => rw [if_pos (beq_iff_eq.mp h)]
  · next h => rw [if_neg (beq_eq_false_iff_ne.mp h)]

theorem lookup_assign (k : κ) (v : ν) (d : OrderedDict κ ν) (k' : κ) :
    (assign k v d).lookup k' = if k' = k then some v else d.lookup k' := by
  induction d with
  | nil => exact lookup_cons_eq k v [] k'
  | cons item d ih =>
    obtain ⟨k₀, v₀⟩ := item
    unfold assign
    split
    · next h =>
      subst h
      rw [lookup_cons_eq, lookup_cons_eq]
      split <;> rfl
    · next h =>
      rw [lookup_cons_eq, lookup_cons_eq, ih]
      split
      · next heq => rw [if_neg (heq ▸ h)]
      · rfl

/-- An assignment to a new key appends an item. -/
theorem assign_eq_concat {k : κ} {d : OrderedDict κ ν} (h : k ∉ keys d) (v : ν) :
    assign k v d = d ++ [(k, v)] := by
  induction d with
  | nil => rfl
  | cons item d ih =>
    obtain ⟨hne, h'⟩ := List.ne_and_not_mem_of_not_mem_cons h
    unfold assign
    rw [if_neg (Ne.symm hne), ih h']
    rfl

theorem keys_assign (k : κ) (v : ν) (d : OrderedDict κ ν) :
    keys (assign k v d) = if k ∈ keys d then keys d else keys d ++ [k] := by
  induction d with
  | nil => rfl
  | cons item d ih =>
    obtain ⟨k₀, v₀⟩ := item
    unfold assign
    by_cases heq : k₀ = k
    · subst heq
      rw [if_pos rfl]
      exact (if_pos (show k₀ ∈ k₀ :: keys d from List.mem_cons_self)).symm
    · rw [if_neg heq]
      show k₀ :: keys (assign k v d) =
        if k ∈ k₀ :: keys d then k₀ :: keys d else k₀ :: keys d ++ [k]
      simp only [ih, List.mem_cons, (Ne.symm heq : k ≠ k₀), false_or]
      split <;> rfl

/-- The keys after an assignment to each of `new`. -/
def keysAfter (ks new : List κ) : List κ :=
  new.foldl (fun ks k => if k ∈ ks then ks else ks ++ [k]) ks

theorem length_keysAfter_le (ks new : List κ) :
    (keysAfter ks new).length ≤ ks.length + new.length := by
  induction new generalizing ks with
  | nil => exact Nat.le_refl _
  | cons k new ih =>
    refine Nat.le_trans (ih _) ?_
    rw [List.length_cons, Nat.add_comm new.length, ← Nat.add_assoc]
    refine Nat.add_le_add_right ?_ _
    show (if k ∈ ks then ks else ks ++ [k]).length ≤ ks.length + 1
    split
    · exact Nat.le_succ _
    · exact Nat.le_of_eq List.length_append

/-- Every assignment appends its key if and only if no key is used twice. -/
theorem keysAfter_eq_append_iff {ks : List κ} (h : ks.Nodup) (new : List κ) :
    keysAfter ks new = ks ++ new ↔ (ks ++ new).Nodup := by
  induction new generalizing ks with
  | nil => exact iff_of_true (List.append_nil ks).symm ((List.append_nil ks).symm ▸ h)
  | cons k new ih =>
    show keysAfter (if k ∈ ks then ks else ks ++ [k]) new = _ ↔ _
    by_cases hmem : k ∈ ks
    · rw [if_pos hmem]
      refine iff_of_false (fun heq => ?_) fun hnodup =>
        (List.nodup_append.mp hnodup).2.2 k hmem k List.mem_cons_self rfl
      have hle := length_keysAfter_le ks new
      rw [heq, List.length_append, List.length_cons] at hle
      exact Nat.not_succ_le_self _ hle
    · rw [if_neg hmem, List.append_cons ks k new]
      refine ih (List.nodup_append.mpr ⟨h, List.nodup_singleton k, fun a ha b hb => ?_⟩)
      rw [List.mem_singleton.mp hb]
      exact fun heq => hmem (heq ▸ ha)

/-- The items after an assignment are the new one and old ones. -/
theorem mem_assign {k : κ} {v : ν} {d : OrderedDict κ ν} {item : κ × ν}
    (h : item ∈ assign k v d) : item = (k, v) ∨ item ∈ d := by
  induction d with
  | nil => exact .inl (List.mem_singleton.mp h)
  | cons item₀ d ih =>
    unfold assign at h
    split at h
    · rcases List.mem_cons.mp h with rfl | h
      · exact .inl rfl
      · exact .inr (List.mem_cons_of_mem _ h)
    · rcases List.mem_cons.mp h with rfl | h
      · exact .inr List.mem_cons_self
      · exact (ih h).imp id (List.mem_cons_of_mem _)

/-- A new value keeps the values apart. -/
theorem nodup_values_assign {k : κ} {v : ν} {d : OrderedDict κ ν} (hv : v ∉ values d)
    (h : (values d).Nodup) : (values (assign k v d)).Nodup := by
  induction d with
  | nil => exact List.nodup_singleton v
  | cons item d ih =>
    obtain ⟨k₀, v₀⟩ := item
    obtain ⟨hne, hv'⟩ := List.ne_and_not_mem_of_not_mem_cons hv
    obtain ⟨hv₀, h'⟩ := List.nodup_cons.mp h
    unfold assign
    split
    · exact List.nodup_cons.mpr ⟨hv', h'⟩
    · refine List.nodup_cons.mpr ⟨fun hmem => ?_, ih hv' h'⟩
      obtain ⟨item, hitem, rfl⟩ := List.mem_map.mp hmem
      rcases mem_assign hitem with rfl | hitem
      · exact hne rfl
      · exact hv₀ (List.mem_map.mpr ⟨item, hitem, rfl⟩)

/-- A key has a value. -/
theorem exists_lookup {d : OrderedDict κ ν} {k : κ} (h : k ∈ keys d) :
    ∃ v, d.lookup k = some v ∧ (k, v) ∈ d := by
  induction d with
  | nil => cases h
  | cons item d ih =>
    obtain ⟨k₀, v₀⟩ := item
    rw [lookup_cons_eq]
    split
    · next heq => exact ⟨v₀, rfl, heq ▸ List.mem_cons_self⟩
    · next hne =>
      obtain ⟨v, hv, hmem⟩ := ih ((List.mem_cons.mp h).resolve_left hne)
      exact ⟨v, hv, List.mem_cons_of_mem _ hmem⟩

theorem lookup_of_notMem {d : OrderedDict κ ν} {k : κ} (h : k ∉ keys d) : d.lookup k = none := by
  refine List.lookup_eq_none_iff.mpr fun item hitem => bne_iff_ne.mpr fun heq => h ?_
  exact List.mem_map.mpr ⟨item, hitem, heq.symm⟩

end

/-! ## The inverse -/

variable [DecidableEq ν]

/-- `{v: k for k, v in d.items()}`. -/
def inverse (d : OrderedDict κ ν) : OrderedDict ν κ :=
  d.foldl (fun inv item => assign item.2 item.1 inv) []

theorem lookup_foldl_of_notMem {d : OrderedDict κ ν} {v : ν} (hv : v ∉ values d)
    (inv : OrderedDict ν κ) :
    (d.foldl (fun inv item => assign item.2 item.1 inv) inv).lookup v = inv.lookup v := by
  induction d generalizing inv with
  | nil => rfl
  | cons item d ih =>
    obtain ⟨hne, hv'⟩ := List.ne_and_not_mem_of_not_mem_cons hv
    rw [List.foldl_cons, ih hv', lookup_assign, if_neg hne]

theorem lookup_foldl_of_mem {d : OrderedDict κ ν} (h : (values d).Nodup) {k : κ} {v : ν}
    (hmem : (k, v) ∈ d) (inv : OrderedDict ν κ) :
    (d.foldl (fun inv item => assign item.2 item.1 inv) inv).lookup v = some k := by
  induction d generalizing inv with
  | nil => cases hmem
  | cons item d ih =>
    obtain ⟨hv, h'⟩ := List.nodup_cons.mp h
    rw [List.foldl_cons]
    rcases List.mem_cons.mp hmem with rfl | hmem
    · rw [lookup_foldl_of_notMem hv, lookup_assign, if_pos rfl]
    · exact ih h' hmem _

/-- Without repeated values the inverse finds the key of every item. -/
theorem lookup_inverse {d : OrderedDict κ ν} (h : (values d).Nodup) {k : κ} {v : ν}
    (hmem : (k, v) ∈ d) : (inverse d).lookup v = some k :=
  lookup_foldl_of_mem h hmem []

/-- The inverse finds nothing else. -/
theorem lookup_inverse_iff {d : OrderedDict κ ν} (h : (values d).Nodup) {k : κ} {v : ν} :
    (inverse d).lookup v = some k ↔ (k, v) ∈ d := by
  refine ⟨fun hlookup => ?_, lookup_inverse h⟩
  by_cases hv : v ∈ values d
  · obtain ⟨⟨k', v'⟩, hmem, rfl⟩ := List.mem_map.mp hv
    rw [lookup_inverse h hmem] at hlookup
    exact Option.some.inj hlookup ▸ hmem
  · rw [inverse, lookup_foldl_of_notMem hv] at hlookup
    cases hlookup

end OrderedDict
