import FinBert.Lib.DescendingSet
import FinBert.Repository.Manager
import Mathlib.Data.List.Dedup
import Mathlib.Data.List.Count
import Mathlib.Data.List.TakeWhile

/-!
# The versions that are loaded

`ModelRepositoryManager::VersionsToLoad` reads the names of the subdirectories of a model as
numbers, and `CreateBackendHandle` later builds the path of a version from its number. The list
of a specific policy is checked by inserting into the set of the existing versions.

Results:
1. `stoll_toString`: the decimal of a number is read back.
2. `existingVersions_spec`, `count_specificVersions`: the two loops.
3. `selects_iff`: when the versions are those that the policy asks for.
4. `directoriesExist_iff`: when every version that is loaded has its directory.
-/

namespace FinBert.Repository

open FinBert.Serving

/-! ## `std::stoll` -/

/-- A number that fits into an `int64_t`. -/
def FitsInt64 (v : Int) : Prop := -9223372036854775808 ≤ v ∧ v ≤ 9223372036854775807

instance (v : Int) : Decidable (FitsInt64 v) := inferInstanceAs (Decidable (_ ∧ _))

/-- The directory of a version in the path that `CreateBackendHandle` builds:
`std::to_string(version)`. -/
def versionDirectory (version : Int) : String := toString version

theorem digitsValue_toDigits (n : Nat) : digitsValue (Nat.toDigits 10 n) = some n := by
  have hdigits : (Nat.toDigits 10 n).takeWhile Char.isDigit = Nat.toDigits 10 n :=
    List.takeWhile_eq_self_iff.mpr fun c hc =>
      Nat.isDigit_of_mem_toDigits (by decide) (by decide) hc
  unfold digitsValue
  rw [hdigits]
  dsimp only
  rw [if_neg (by rw [List.isEmpty_iff]; exact Nat.toDigits_ne_nil), ← Nat.ofDigitChars_eq_foldl,
    Nat.ofDigitChars_ten_toDigits]

theorem toList_versionDirectory (v : Int) : (versionDirectory v).toList =
    if 0 ≤ v then Nat.toDigits 10 v.toNat else '-' :: Nat.toDigits 10 (-v).toNat := by
  rw [versionDirectory, Int.toString_eq_repr, Int.repr_eq_if]
  split
  · exact Nat.toList_repr
  · rw [String.toList_append, Nat.toList_repr]
    rfl

theorem toDigits_injective {m n : Nat} (h : Nat.toDigits 10 m = Nat.toDigits 10 n) : m = n :=
  Option.some.inj ((digitsValue_toDigits m).symm.trans (h ▸ digitsValue_toDigits n))

theorem toDigits_ne_minus (n : Nat) (cs : List Char) : Nat.toDigits 10 n ≠ '-' :: cs := by
  intro h
  have hdigit : '-'.isDigit = true := Nat.isDigit_of_mem_toDigits (n := n) (b := 10) (by decide)
    (by decide) (h ▸ List.mem_cons_self)
  exact absurd hdigit (by decide)

/-- Two versions do not have one directory. -/
theorem versionDirectory_injective {v w : Int} (h : versionDirectory v = versionDirectory w) :
    v = w := by
  have hlist := congrArg String.toList h
  rw [toList_versionDirectory, toList_versionDirectory] at hlist
  split_ifs at hlist with hv hw hw
  · have hnat := toDigits_injective hlist
    omega
  · exact absurd hlist (toDigits_ne_minus _ _)
  · exact absurd hlist.symm (toDigits_ne_minus _ _)
  · have hnat := toDigits_injective (List.cons.inj hlist).2
    omega

/-- A digit begins a number without a sign. -/
theorem stoll_of_digit {text : String} {c : Char} {cs : List Char} {n : Nat}
    (h : text.toList = c :: cs) (hc : c.isDigit = true) (hn : digitsValue (c :: cs) = some n)
    (hfits : FitsInt64 n) : stoll text = .ok n := by
  have hge : 48 ≤ c.toNat := by
    rw [Char.isDigit, Bool.and_eq_true, decide_eq_true_eq, decide_eq_true_eq] at hc
    exact UInt32.le_iff_toNat_le.mp hc.1
  have hspace : ¬ isSpace c = true := by
    rw [isSpace, Bool.or_eq_true, Bool.and_eq_true, decide_eq_true_eq, decide_eq_true_eq,
      decide_eq_true_eq]
    rintro (rfl | ⟨-, hle⟩)
    · exact absurd hge (by decide)
    · exact absurd (hge.trans hle) (by decide)
  unfold stoll
  rw [h, List.dropWhile_cons_of_neg hspace]
  have hminus : c ≠ '-' := by
    rintro rfl
    exact absurd hge (by decide)
  have hplus : c ≠ '+' := by
    rintro rfl
    exact absurd hge (by decide)
  dsimp only
  split
  · next hvalue =>
    split at hvalue
    · next heq => exact absurd (List.cons.inj heq).1 hminus
    · next heq => exact absurd (List.cons.inj heq).1 hplus
    · rw [hn] at hvalue
      cases hvalue
  · next value hvalue =>
    split at hvalue
    · next heq => exact absurd (List.cons.inj heq).1 hminus
    · next heq => exact absurd (List.cons.inj heq).1 hplus
    · rw [hn] at hvalue
      obtain rfl := Option.some.inj hvalue
      exact if_pos hfits

/-- The decimal of a number is read back. -/
theorem stoll_versionDirectory {v : Int} (h : FitsInt64 v) :
    stoll (versionDirectory v) = .ok v := by
  have hlist := toList_versionDirectory v
  split_ifs at hlist with hsign
  · obtain ⟨c, cs, hdigits⟩ := List.exists_cons_of_ne_nil
      (Nat.toDigits_ne_nil (n := v.toNat) (b := 10))
    have hc : c.isDigit = true := Nat.isDigit_of_mem_toDigits (by decide) (by decide)
      (hdigits ▸ List.mem_cons_self)
    have hv : (v.toNat : Int) = v := Int.toNat_of_nonneg hsign
    have hread := stoll_of_digit (hlist.trans hdigits) hc
      (hdigits ▸ digitsValue_toDigits v.toNat) (hv.symm ▸ h)
    rwa [hv] at hread
  · have hspace : ¬ isSpace '-' = true := by decide
    unfold stoll
    rw [hlist, List.dropWhile_cons_of_neg hspace]
    have hv : -(((-v).toNat : Nat) : Int) = v := by
      rw [Int.toNat_of_nonneg (by omega), Int.neg_neg]
    simp only [digitsValue_toDigits]
    show (if FitsInt64 (-(((-v).toNat : Nat) : Int)) then
      Except.ok (-(((-v).toNat : Nat) : Int)) else _) = _
    rw [hv]
    exact if_pos h

/-! ## The loops -/

/-- The numbers that the names are read as. -/
def numbers (subdirs : List String) : List Int :=
  subdirs.filterMap fun name => (stoll name).toOption

theorem mem_numbers {subdirs : List String} {v : Int} :
    v ∈ numbers subdirs ↔ ∃ name ∈ subdirs, stoll name = .ok v := by
  unfold numbers
  rw [List.mem_filterMap]
  refine exists_congr fun name => and_congr_right fun _ => ?_
  cases stoll name with
  | error e => exact iff_of_false (Option.some_ne_none v).symm (fun h => by cases h)
  | ok n => exact ⟨fun h => congrArg _ (Option.some.inj h), fun h => congrArg _ (Except.ok.inj h)⟩

theorem numbers_cons (name : String) (subdirs : List String) :
    numbers (name :: subdirs) = match stoll name with
      | .ok v => v :: numbers subdirs
      | .error _ => numbers subdirs := by
  unfold numbers
  rw [List.filterMap_cons]
  cases stoll name with
  | error e => rfl
  | ok n => rfl

theorem insertVersion_eq (v : Int) (existing : List Int) :
    insertVersion v existing = DescendingSet.insert v existing := rfl

/-- The loop over the subdirectories throws, or it has the numbers of all names. -/
theorem existingVersions_spec (subdirs : List String) {existing : List Int}
    (h : existing.Pairwise (· > ·)) :
    (existingVersions subdirs existing = .error .outOfRange ∧
        ∃ name ∈ subdirs, stoll name = .error .outOfRange) ∨
      ∃ versions, existingVersions subdirs existing = .ok versions ∧
        (∀ name ∈ subdirs, stoll name ≠ .error .outOfRange) ∧ versions.Pairwise (· > ·) ∧
        ∀ v, v ∈ versions ↔ v ∈ existing ∨ v ∈ numbers subdirs := by
  induction subdirs generalizing existing with
  | nil =>
    refine .inr ⟨existing, rfl, List.forall_mem_nil _, h, fun v => ?_⟩
    exact (or_iff_left List.not_mem_nil).symm
  | cons name subdirs ih =>
    rw [existingVersions, numbers_cons, List.exists_mem_cons_iff, List.forall_mem_cons]
    cases hname : stoll name with
    | ok version =>
      refine (ih (DescendingSet.pairwise_insert version h)).imp
        (fun ⟨hthrows, hbad⟩ => ⟨hthrows, .inr hbad⟩) ?_
      rintro ⟨versions, hversions, hgood, hsorted, hmem⟩
      refine ⟨versions, hversions, ⟨by simp, hgood⟩, hsorted, fun v => ?_⟩
      rw [hmem, DescendingSet.mem_insert, List.mem_cons]
      tauto
    | error e =>
      cases e with
      | outOfRange => exact .inl ⟨rfl, .inl rfl⟩
      | invalidArgument =>
        refine (ih h).imp (fun ⟨hthrows, hbad⟩ => ⟨hthrows, .inr hbad⟩) ?_
        rintro ⟨versions, hversions, hgood, hrest⟩
        exact ⟨versions, hversions, ⟨by simp, hgood⟩, hrest⟩

/-- How often the loop over the specific versions selects a version: a version that does not
exist is selected each time that it is listed again. -/
theorem count_specificVersions (listed existing : List Int) (v : Int) :
    (specificVersions listed existing).count v =
      if v ∈ existing then listed.count v else listed.count v - 1 := by
  induction listed generalizing existing with
  | nil => simp [specificVersions]
  | cons w listed ih =>
    rw [specificVersions]
    split
    · next hw =>
      rw [List.count_cons, List.count_cons, ih]
      split
      · rfl
      · next hv =>
        have hne : (w == v) = false := beq_eq_false_iff_ne.mpr fun heq => hv (heq ▸ hw)
        rw [hne]
        rfl
    · next hw =>
      rw [ih, insertVersion_eq, List.count_cons]
      rcases eq_or_ne v w with rfl | hne
      · rw [if_pos (DescendingSet.mem_insert.mpr (.inl rfl)), if_neg hw,
          if_pos (beq_self_eq_true v), Nat.add_sub_cancel]
      · simp only [DescendingSet.mem_insert, or_iff_right hne, beq_eq_false_iff_ne.mpr hne.symm,
          Bool.false_eq_true, if_false, Nat.add_zero]

theorem mem_specificVersions {listed existing : List Int} {v : Int} :
    v ∈ specificVersions listed existing ↔
      v ∈ listed ∧ (v ∈ existing ∨ 2 ≤ listed.count v) := by
  rw [← List.one_le_count_iff, ← List.one_le_count_iff, count_specificVersions]
  split
  · next hv => exact ⟨fun h => ⟨h, .inl hv⟩, And.left⟩
  · next hv =>
    rw [or_iff_right hv]
    omega

/-! ## The versions of a policy -/

/-- The names of version directories: decimals of numbers. -/
def Canonical (subdirs : List String) : Prop :=
  ∀ name ∈ subdirs, ∃ v, FitsInt64 v ∧ name = versionDirectory v

/-- The versions are those that the policy asks for, each of them once. -/
structure Selects (subdirs : List String) (policy : Option VersionPolicy) (versions : List Int) :
    Prop where
  nodup : versions.Nodup
  existing : ∀ v ∈ versions, versionDirectory v ∈ subdirs
  selected : match policy with
    | some (.specific listed) => ∀ v, v ∈ versions ↔ v ∈ listed ∧ versionDirectory v ∈ subdirs
    | some (.latest n) => versions.length ≤ n ∧
        ∀ v, versionDirectory v ∈ subdirs → v ∉ versions →
          versions.length = n ∧ ∀ w ∈ versions, v < w
    | _ => ∀ v, v ∈ versions ↔ versionDirectory v ∈ subdirs

/-- A specific policy lists no version twice. -/
def ListsOnce : Option VersionPolicy → Prop
  | some (.specific listed) => listed.Nodup
  | _ => True

instance : (policy : Option VersionPolicy) → Decidable (ListsOnce policy)
  | some (.specific listed) => inferInstanceAs (Decidable listed.Nodup)
  | some (.latest _) | some .all | none => .isTrue trivial

/-- What `VersionsToLoad` selects from the existing versions. -/
def selectVersions (policy : Option VersionPolicy) (existing : List Int) : List Int :=
  match policy with
  | some (.specific versions) => specificVersions versions existing
  | some (.latest numVersions) => existing.take numVersions
  | _ => existing

/-- `VersionsToLoad` throws, or it selects from the numbers of the names. -/
theorem versionsToLoad_spec (subdirs : List String) (config : ModelConfig) :
    (versionsToLoad (.ok subdirs) config = .error .outOfRange ∧
        ∃ name ∈ subdirs, stoll name = .error .outOfRange) ∨
      ∃ existing, versionsToLoad (.ok subdirs) config =
          .ok (selectVersions config.versionPolicy existing) ∧
        (∀ name ∈ subdirs, stoll name ≠ .error .outOfRange) ∧ existing.Pairwise (· > ·) ∧
        ∀ v, v ∈ existing ↔ v ∈ numbers subdirs := by
  obtain ⟨hthrows, hbad⟩ | ⟨existing, hexisting, hgood, hsorted, hmem⟩ :=
    existingVersions_spec subdirs List.Pairwise.nil
  · refine .inl ⟨?_, hbad⟩
    unfold versionsToLoad
    dsimp only
    rw [hthrows]
    rfl
  · refine .inr ⟨existing, ?_, hgood, hsorted, fun v => ?_⟩
    · unfold versionsToLoad
      dsimp only
      rw [hexisting]
      rfl
    · exact (hmem v).trans (or_iff_right List.not_mem_nil)

/-- The numbers of canonical names are the versions with a directory. -/
theorem mem_numbers_of_canonical {subdirs : List String} (h : Canonical subdirs) {v : Int} :
    v ∈ numbers subdirs ↔ versionDirectory v ∈ subdirs := by
  rw [mem_numbers]
  constructor
  · rintro ⟨name, hmem, hname⟩
    obtain ⟨w, hw, rfl⟩ := h name hmem
    obtain rfl := Except.ok.inj ((stoll_versionDirectory hw).symm.trans hname)
    exact hmem
  · intro hmem
    obtain ⟨w, hw, heq⟩ := h _ hmem
    obtain rfl := versionDirectory_injective heq
    exact ⟨_, hmem, stoll_versionDirectory hw⟩

theorem ok_of_canonical {subdirs : List String} (h : Canonical subdirs) :
    ∀ name ∈ subdirs, stoll name ≠ .error .outOfRange := by
  intro name hmem
  obtain ⟨v, hv, rfl⟩ := h name hmem
  rw [stoll_versionDirectory hv]
  exact fun h => by cases h

section
variable {subdirs : List String} {existing : List Int}

/-- A version that is listed twice is selected twice, or it does not exist. -/
theorem selects_specific_iff (hexisting : ∀ v, v ∈ existing ↔ versionDirectory v ∈ subdirs)
    (listed : List Int) :
    Selects subdirs (some (.specific listed)) (specificVersions listed existing) ↔
      listed.Nodup := by
  constructor
  · intro h
    refine List.nodup_iff_count_le_one.mpr fun v => Nat.le_of_not_lt fun htwice => ?_
    have hselected : v ∈ specificVersions listed existing :=
      mem_specificVersions.mpr ⟨List.one_le_count_iff.mp htwice.le, .inr htwice⟩
    have hv : v ∈ existing := (hexisting v).mpr (h.existing v hselected)
    have hcount := List.nodup_iff_count_le_one.mp h.nodup v
    rw [count_specificVersions, if_pos hv] at hcount
    exact absurd htwice (Nat.not_lt.mpr hcount)
  · intro honce
    have hmem (v : Int) : v ∈ specificVersions listed existing ↔
        v ∈ listed ∧ versionDirectory v ∈ subdirs := by
      rw [mem_specificVersions, ← hexisting]
      refine and_congr_right fun _ => or_iff_left ?_
      exact Nat.not_le_of_lt (Nat.lt_succ_of_le (List.nodup_iff_count_le_one.mp honce v))
    refine ⟨List.nodup_iff_count_le_one.mpr fun v => ?_, fun v hv => ((hmem v).mp hv).2, hmem⟩
    have hlisted := List.nodup_iff_count_le_one.mp honce v
    rw [count_specificVersions]
    split
    · exact hlisted
    · exact (Nat.sub_le _ _).trans hlisted

/-- The first versions of a decreasing list are the greatest ones. -/
theorem selects_latest (hsorted : existing.Pairwise (· > ·))
    (hexisting : ∀ v, v ∈ existing ↔ versionDirectory v ∈ subdirs) (n : Nat) :
    Selects subdirs (some (.latest n)) (existing.take n) := by
  have hnodup : existing.Nodup := hsorted.imp fun hgt => hgt.ne'
  refine ⟨hnodup.sublist (List.take_sublist _ _), fun v hv => ?_, List.length_take_le _ _,
    fun v hv hnot => ?_⟩
  · exact (hexisting v).mp (List.mem_of_mem_take hv)
  · have hdrop : v ∈ existing.drop n := by
      have hmem := (hexisting v).mpr hv
      rw [← List.take_append_drop n existing, List.mem_append] at hmem
      exact hmem.resolve_left hnot
    refine ⟨?_, fun w hw => ?_⟩
    · refine List.length_take_of_le (Nat.le_of_not_lt fun hlt => ?_)
      rw [List.drop_eq_nil_of_le hlt.le] at hdrop
      cases hdrop
    · rw [← List.take_append_drop n existing] at hsorted
      exact (List.pairwise_append.mp hsorted).2.2 w hw v hdrop

/-- The versions that are selected from the existing ones. -/
theorem selects_selectVersions (hsorted : existing.Pairwise (· > ·))
    (hexisting : ∀ v, v ∈ existing ↔ versionDirectory v ∈ subdirs)
    (policy : Option VersionPolicy) :
    Selects subdirs policy (selectVersions policy existing) ↔ ListsOnce policy := by
  have hnodup : existing.Nodup := hsorted.imp fun hgt => hgt.ne'
  have hall : ∀ v ∈ existing, versionDirectory v ∈ subdirs := fun v hv => (hexisting v).mp hv
  match policy with
  | some (.specific listed) => exact selects_specific_iff hexisting listed
  | some (.latest n) => exact iff_of_true (selects_latest hsorted hexisting n) trivial
  | some .all => exact iff_of_true ⟨hnodup, hall, hexisting⟩ trivial
  | none => exact iff_of_true ⟨hnodup, hall, hexisting⟩ trivial

end

/-- `VersionsToLoad` returns the versions that the policy asks for if and only if a specific
policy lists no version twice. -/
theorem selects_iff {subdirs : List String} (hcanonical : Canonical subdirs)
    (config : ModelConfig) :
    (∃ versions, versionsToLoad (.ok subdirs) config = .ok versions ∧
        Selects subdirs config.versionPolicy versions) ↔ ListsOnce config.versionPolicy := by
  obtain ⟨-, name, hmem, hbad⟩ | ⟨existing, hversions, -, hsorted, hexisting⟩ :=
    versionsToLoad_spec subdirs config
  · exact absurd hbad (ok_of_canonical hcanonical name hmem)
  rw [← selects_selectVersions hsorted fun v =>
    (hexisting v).trans (mem_numbers_of_canonical hcanonical)]
  constructor
  · rintro ⟨versions, heq, hselects⟩
    obtain rfl := Except.ok.inj (hversions.symm.trans heq)
    exact hselects
  · exact fun hselects => ⟨_, hversions, hselects⟩

/-- Three versions, of which a specific policy asks for two, and for one that does not exist. -/
theorem selects_threeVersions : ∃ versions, versionsToLoad (.ok ["1", "2", "10"])
      { versionPolicy := some (.specific [10, 3, 1]) } = .ok versions ∧
    Selects ["1", "2", "10"] (some (.specific [10, 3, 1])) versions :=
  (@selects_iff ["1", "2", "10"]
    (by
      intro name hname
      simp only [List.mem_cons, List.not_mem_nil, or_false] at hname
      rcases hname with rfl | rfl | rfl
      · exact ⟨1, by decide, by decide⟩
      · exact ⟨2, by decide, by decide⟩
      · exact ⟨10, by decide, by decide⟩)
    { versionPolicy := some (.specific [10, 3, 1]) }).mpr (by decide)

/-- A version that does not exist is listed twice: it is selected. -/
theorem not_selects_listedTwice : ¬ ∃ versions, versionsToLoad (.ok ["1"])
      { versionPolicy := some (.specific [5, 5]) } = .ok versions ∧
    Selects ["1"] (some (.specific [5, 5])) versions := by
  rintro ⟨versions, heq, hselects⟩
  obtain rfl := Except.ok.inj heq
  have hmissing := hselects.existing 5 (by decide)
  exact absurd hmissing (by decide)

/-! ## The directories of the versions -/

/-- A version that the policy selects, whether it has a directory or not: by how often it is
listed, or by how many numbers are greater. -/
def Asked (subdirs : List String) (policy : Option VersionPolicy) (v : Int) : Prop :=
  match policy with
  | some (.specific listed) => v ∈ listed ∧ (v ∈ numbers subdirs ∨ 2 ≤ listed.count v)
  | some (.latest n) =>
    v ∈ numbers subdirs ∧ (numbers subdirs).dedup.countP (fun w => decide (v < w)) < n
  | _ => v ∈ numbers subdirs

/-- No name is a number out of range, and every version that the policy selects has the decimal
of its number among the names. -/
def WellNamed (subdirs : List String) (policy : Option VersionPolicy) : Prop :=
  (∀ name ∈ subdirs, stoll name ≠ .error .outOfRange) ∧
    ∀ v, Asked subdirs policy v → versionDirectory v ∈ subdirs

theorem mem_selectVersions {subdirs : List String} {existing : List Int}
    (hsorted : existing.Pairwise (· > ·)) (hexisting : ∀ v, v ∈ existing ↔ v ∈ numbers subdirs)
    (policy : Option VersionPolicy) (v : Int) :
    v ∈ selectVersions policy existing ↔ Asked subdirs policy v := by
  match policy with
  | some (.specific listed) =>
    rw [selectVersions, mem_specificVersions, hexisting]
    rfl
  | some (.latest n) =>
    have hperm : existing.Perm (numbers subdirs).dedup :=
      (List.perm_ext_iff_of_nodup (hsorted.imp fun hgt => hgt.ne') (List.nodup_dedup _)).mpr
        fun w => (hexisting w).trans List.mem_dedup.symm
    rw [selectVersions, DescendingSet.mem_take_iff hsorted, hexisting, hperm.countP_eq]
    rfl
  | some .all => exact hexisting v
  | none => exact hexisting v

/-- `VersionsToLoad` does not throw, and each version that it returns has its directory, if and
only if the subdirectories are well named for the policy. -/
theorem directoriesExist_iff (subdirs : List String) (config : ModelConfig) :
    (versionsToLoad (.ok subdirs) config ≠ .error .outOfRange ∧
        ∀ versions, versionsToLoad (.ok subdirs) config = .ok versions →
          ∀ v ∈ versions, versionDirectory v ∈ subdirs) ↔
      WellNamed subdirs config.versionPolicy := by
  obtain ⟨hthrows, name, hmem, hbad⟩ | ⟨existing, hversions, hgood, hsorted, hexisting⟩ :=
    versionsToLoad_spec subdirs config
  · exact iff_of_false (fun h => h.1 hthrows) fun h => h.1 name hmem hbad
  · constructor
    · rintro ⟨-, hdirectories⟩
      refine ⟨hgood, fun v hv => hdirectories _ hversions v ?_⟩
      exact (mem_selectVersions hsorted hexisting _ v).mpr hv
    · rintro ⟨-, hasked⟩
      refine ⟨(by cases hversions.symm.trans ·), fun versions heq v hv => ?_⟩
      obtain rfl := Except.ok.inj (hversions.symm.trans heq)
      exact hasked v ((mem_selectVersions hsorted hexisting _ v).mp hv)

/-- A name is a number out of range: the exception escapes. The only name has a leading zero: its
version has no directory. -/
theorem not_directoriesExist :
    ¬ versionsToLoad (.ok ["99999999999999999999"]) { versionPolicy := some .all } ≠
        .error .outOfRange ∧
      ¬ ∀ versions, versionsToLoad (.ok ["01"]) { versionPolicy := some .all } = .ok versions →
        ∀ v ∈ versions, versionDirectory v ∈ ["01"] := by
  constructor
  · decide
  · intro h
    exact absurd (h [1] (by decide) 1 (by decide)) (by decide)

end FinBert.Repository
