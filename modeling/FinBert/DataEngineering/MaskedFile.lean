import FinBert.Lib.Random
import FinBert.Prep.Tokenization

/-!
# The masked rows of the evaluation data

`masked_file_gen.py`: a row of the earnings calls is accepted by its raw fields, cleaned field by
field, and masked word by word.

Results:
1. `cleanRow_eq`, `flatten_cleanedRow`: what a row is when it is cleaned.
2. `maskRow_append`, `getElem?_maskRow`: the words are masked one by one.
3. `keepsWhatItMust_iff`: for which accepted rows the outcome is right whatever is drawn.
-/

namespace FinBert.DataEngineering

open Prep (Text)
open Random (Rng)

/-! ## The functions -/

/-- The exceptions that `clean_row` may raise. -/
inductive CleanError
  | indexError
deriving DecidableEq

/-- `str.lower`: only of the empty text it makes the empty text, and it leaves no capitals. -/
structure Lowering where
  lower : Text → Text
  lower_eq_nil : ∀ text, lower text = [] ↔ text = []
  capital_notMem : ∀ text, 'M' ∉ lower text

/-- `c in string.punctuation`. -/
def isPunctuation (c : Char) : Bool :=
  let cp := c.toNat
  (33 ≤ cp && cp ≤ 47) || (58 ≤ cp && cp ≤ 64) || (91 ≤ cp && cp ≤ 96) || (123 ≤ cp && cp ≤ 126)

def minParagraphWordLength : Nat := 50

def maskToken : Text := "[MASK]".toList

/-- `np.random.rand() > mask_ratio`, for a draw that stands for a multiple of 2⁻⁵³. -/
def randAboveMaskRatio (draw : Nat) : Bool :=
  9007199254740992 < 10 * (draw % 9007199254740992)

section
variable (financialKeywords : List Text)

/-- `test_row`. -/
def testRow (row : List Text) : Bool :=
  row.length > minParagraphWordLength - 1 && financialKeywords.any (row.contains ·)

/-- What `mask_row` appends for a word that it keeps. -/
def shown (word : Text) : Text := if word = ".".toList then ". [SEP]".toList else word

/-- A turn of the loop of `mask_row`. -/
def maskWord (draw : Nat) (word : Text) : Text :=
  if randAboveMaskRatio draw || financialKeywords.contains word || word.length == 1 then shown word
  else maskToken

/-- `mask_row`. -/
def maskRow (rng : Rng) : List Text → List Text
  | [] => []
  | word :: row => maskWord financialKeywords (rng 0) word :: maskRow (rng.skip 1) row

end

section
variable (lowering : Lowering)

/-- A turn of the loop of `clean_row`. -/
def cleanWord (wordPre : Text) : Except CleanError (List Text) :=
  let word := lowering.lower wordPre
  match word.getLast? with
  | none => .error .indexError
  | some c => if isPunctuation c then .ok [word.dropLast, [c]] else .ok [word]

/-- `clean_row`. -/
def cleanRow : List Text → Except CleanError (List Text)
  | [] => .ok []
  | wordPre :: row => do
    let words ← cleanWord lowering wordPre
    let newRow ← cleanRow row
    return words ++ newRow

end

/-! ## What is asked of a row -/

/-- The keyword because of which `test_row` accepts the row. -/
def acceptedBy (financialKeywords : List Text) (row : List Text) : Option Text :=
  financialKeywords.find? (row.contains ·)

/-- An occurrence of the keyword in the row is kept in the masked row. -/
def Unmasked (lowering : Lowering) (row : List Text) (keyword : Text) (masked : List Text) : Prop :=
  ∃ before after cleanedBefore words maskedBefore maskedAfter,
    row = before ++ keyword :: after ∧
      cleanRow lowering before = .ok cleanedBefore ∧ cleanWord lowering keyword = .ok words ∧
      masked = maskedBefore ++ (words.map shown ++ maskedAfter) ∧
      maskedBefore.length = cleanedBefore.length

/-- The row is cleaned and masked without an exception and keeps what it must, whatever is drawn. -/
def KeepsWhatItMust (lowering : Lowering) (financialKeywords : List Text) (row : List Text) :
    Prop :=
  ∃ cleaned, cleanRow lowering row = .ok cleaned ∧
    cleaned.flatten = (row.map lowering.lower).flatten ∧
    ∀ rng,
      (∀ i : Nat, (maskRow financialKeywords rng cleaned)[i]? = some maskToken →
        ∃ word : Text, cleaned[i]? = some word ∧ word ≠ []) ∧
      ∃ keyword, acceptedBy financialKeywords row = some keyword ∧
        Unmasked lowering row keyword (maskRow financialKeywords rng cleaned)

/-- The word without a punctuation mark at its end. -/
def stem (word : Text) : Text :=
  match word.getLast? with
  | none => word
  | some c => if isPunctuation c then word.dropLast else word

/-- `mask_row` keeps the word, whatever is drawn. -/
def Kept (financialKeywords : List Text) (word : Text) : Prop :=
  word ∈ financialKeywords ∨ word.length = 1

/-- No field is empty, no field is a single punctuation mark unless the empty text is a keyword, and
the accepting keyword is kept when it is cleaned. -/
structure Maskable (lowering : Lowering) (financialKeywords : List Text) (row : List Text) :
    Prop where
  nonempty : [] ∉ row
  marks : ∀ field ∈ row, ∀ c, lowering.lower field = [c] → isPunctuation c →
    [] ∈ financialKeywords
  keyword : ∀ keyword, acceptedBy financialKeywords row = some keyword →
    Kept financialKeywords (stem (lowering.lower keyword))

/-! ## Cleaning -/

section
variable {lowering : Lowering}

/-- The words that `clean_row` makes of a field. -/
def wordsOf (word : Text) : List Text :=
  match word.getLast? with
  | none => []
  | some c => if isPunctuation c then [word.dropLast, [c]] else [word]

theorem cleanWord_eq {field : Text} (hfield : field ≠ []) :
    cleanWord lowering field = .ok (wordsOf (lowering.lower field)) := by
  have hword := (lowering.lower_eq_nil field).not.mpr hfield
  unfold cleanWord wordsOf
  dsimp only
  cases hlast : (lowering.lower field).getLast? with
  | none => exact absurd (List.getLast?_eq_none_iff.mp hlast) hword
  | some c =>
    dsimp only
    split
    · rfl
    · rfl

theorem cleanWord_nil : cleanWord lowering [] = .error .indexError := by
  unfold cleanWord
  rw [(lowering.lower_eq_nil []).mpr rfl]
  rfl

theorem flatten_wordsOf (word : Text) : (wordsOf word).flatten = word := by
  unfold wordsOf
  cases hlast : word.getLast? with
  | none => exact (List.getLast?_eq_none_iff.mp hlast).symm
  | some c =>
    dsimp only
    split
    · show word.dropLast ++ ([c] ++ []) = word
      rw [List.append_nil, List.dropLast_append_getLast? c hlast]
    · exact List.append_nil word

theorem cleanRow_cons {field : Text} {row words newRow : List Text}
    (hwords : cleanWord lowering field = .ok words) (hrow : cleanRow lowering row = .ok newRow) :
    cleanRow lowering (field :: row) = .ok (words ++ newRow) := by
  rw [cleanRow, hwords, hrow]
  rfl

theorem cleanRow_eq {row : List Text} (hrow : [] ∉ row) :
    cleanRow lowering row = .ok (row.flatMap (wordsOf <| lowering.lower ·)) := by
  induction row with
  | nil => rfl
  | cons field row ih =>
    rw [List.mem_cons, not_or] at hrow
    exact cleanRow_cons (cleanWord_eq (Ne.symm hrow.1)) (ih hrow.2)

theorem cleanRow_error {row : List Text} (hrow : [] ∈ row) :
    cleanRow lowering row = .error .indexError := by
  induction row with
  | nil => cases hrow
  | cons field row ih =>
    rw [cleanRow]
    by_cases hfield : field = []
    · rw [hfield, cleanWord_nil]
      rfl
    · rw [cleanWord_eq hfield, ih ((List.mem_cons.mp hrow).resolve_left (Ne.symm hfield))]
      rfl

theorem flatten_flatMap_wordsOf (row : List Text) :
    (row.flatMap (wordsOf <| lowering.lower ·)).flatten = (row.map lowering.lower).flatten := by
  induction row with
  | nil => rfl
  | cons field row ih =>
    rw [List.flatMap_cons, List.flatten_append, flatten_wordsOf, ih, List.map_cons,
      List.flatten_cons]

theorem capital_notMem_stem (field : Text) : 'M' ∉ stem (lowering.lower field) := by
  have hfield := lowering.capital_notMem field
  unfold stem
  cases (lowering.lower field).getLast? with
  | none => exact hfield
  | some c =>
    dsimp only
    split
    · exact fun hmem => hfield (List.dropLast_subset _ hmem)
    · exact hfield

end

theorem wordsOf_eq {word : Text} (hword : word ≠ []) :
    ∃ marks, wordsOf word = stem word :: marks ∧ ∀ mark ∈ marks, mark.length = 1 := by
  unfold wordsOf stem
  cases hlast : word.getLast? with
  | none => exact absurd (List.getLast?_eq_none_iff.mp hlast) hword
  | some c =>
    dsimp only
    split
    · exact ⟨[[c]], rfl, fun mark hmark => List.eq_of_mem_singleton hmark ▸ rfl⟩
    · exact ⟨[], rfl, fun _ hmark => absurd hmark List.not_mem_nil⟩

theorem stem_eq_nil {word : Text} (hword : word ≠ []) :
    stem word = [] ↔ ∃ c, word = [c] ∧ isPunctuation c := by
  constructor
  · intro hstem
    unfold stem at hstem
    cases hlast : word.getLast? with
    | none => exact absurd (List.getLast?_eq_none_iff.mp hlast) hword
    | some c =>
      rw [hlast] at hstem
      dsimp only at hstem
      split at hstem
      next hmark =>
        exact ⟨c, by rw [← List.dropLast_append_getLast? c hlast, hstem, List.nil_append], hmark⟩
      next => exact absurd hstem hword
  · rintro ⟨c, rfl, hmark⟩
    exact if_pos hmark

/-- The empty word comes of a field that is a single punctuation mark. -/
theorem nil_mem_words {lowering : Lowering} {row : List Text} (hrow : [] ∉ row) :
    [] ∈ row.flatMap (wordsOf <| lowering.lower ·) ↔
      ∃ field ∈ row, ∃ c, lowering.lower field = [c] ∧ isPunctuation c := by
  rw [List.mem_flatMap]
  refine exists_congr fun field => and_congr_right fun hmem => ?_
  have hword : lowering.lower field ≠ [] :=
    (lowering.lower_eq_nil field).not.mpr (ne_of_mem_of_not_mem hmem hrow)
  obtain ⟨marks, hwords, hmarks⟩ := wordsOf_eq hword
  rw [← stem_eq_nil hword, hwords, List.mem_cons]
  constructor
  · rintro (hstem | hmark)
    · exact hstem.symm
    · cases hmarks [] hmark
  · exact fun hstem => .inl hstem.symm

/-! ## Masking -/

section
variable {financialKeywords : List Text}

theorem maskWord_kept {word : Text} (hkept : Kept financialKeywords word) (draw : Nat) :
    maskWord financialKeywords draw word = shown word := by
  unfold maskWord
  refine if_pos ?_
  rcases hkept with hmem | hlength
  · simp [hmem]
  · simp [hlength]

/-- What is not kept is masked when the smallest number is drawn. -/
theorem maskWord_masked {word : Text} (hkept : ¬ Kept financialKeywords word) :
    maskWord financialKeywords 0 word = maskToken := by
  unfold Kept at hkept
  unfold maskWord
  refine if_neg ?_
  simpa [randAboveMaskRatio] using hkept

theorem shown_ne_maskToken {word : Text} (hcapital : 'M' ∉ word) : shown word ≠ maskToken := by
  unfold shown
  split
  · decide
  · intro hmask
    exact hcapital (hmask ▸ by decide)

theorem maskRow_append (rng : Rng) (xs ys : List Text) :
    maskRow financialKeywords rng (xs ++ ys) =
      maskRow financialKeywords rng xs ++ maskRow financialKeywords (rng.skip xs.length) ys := by
  induction xs generalizing rng with
  | nil => rfl
  | cons word xs ih =>
    rw [List.cons_append, maskRow, ih]
    rfl

theorem getElem?_maskRow (rng : Rng) (row : List Text) (i : Nat) :
    (maskRow financialKeywords rng row)[i]? =
      row[i]?.map (maskWord financialKeywords (rng i)) := by
  induction row generalizing rng i with
  | nil => rfl
  | cons word row ih =>
    cases i with
    | zero => rfl
    | succ i => exact ih (rng.skip 1) i

theorem length_maskRow (rng : Rng) (row : List Text) :
    (maskRow financialKeywords rng row).length = row.length := by
  induction row generalizing rng with
  | nil => rfl
  | cons word row ih => exact congrArg Nat.succ (ih (rng.skip 1))

theorem maskRow_kept {words : List Text} (hkept : ∀ word ∈ words, Kept financialKeywords word)
    (rng : Rng) : maskRow financialKeywords rng words = words.map shown := by
  induction words generalizing rng with
  | nil => rfl
  | cons word words ih =>
    rw [List.forall_mem_cons] at hkept
    rw [maskRow, maskWord_kept hkept.1, ih hkept.2, List.map_cons]

/-- A mask stands for a word that is not empty, when the empty word is kept. -/
theorem masked_ne_nil {words : List Text} (hnil : [] ∈ words → [] ∈ financialKeywords) {rng : Rng}
    {i : Nat} (hmasked : (maskRow financialKeywords rng words)[i]? = some maskToken) :
    ∃ word : Text, words[i]? = some word ∧ word ≠ [] := by
  rw [getElem?_maskRow, Option.map_eq_some_iff] at hmasked
  obtain ⟨word, hword, hmask⟩ := hmasked
  refine ⟨word, hword, ?_⟩
  rintro rfl
  rw [maskWord_kept (.inl (hnil (List.mem_of_getElem? hword)))] at hmask
  exact absurd hmask (by decide)

/-- An empty word is masked when the smallest number is drawn each time, unless it is a keyword. -/
theorem exists_masked_nil {words : List Text} (hmem : [] ∈ words)
    (hnil : [] ∉ financialKeywords) :
    ∃ i : Nat, (maskRow financialKeywords (fun _ => 0) words)[i]? = some maskToken ∧
      words[i]? = some [] := by
  obtain ⟨i, hi⟩ := List.mem_iff_getElem?.mp hmem
  have hkept : ¬ Kept financialKeywords [] := not_or.mpr ⟨hnil, Nat.zero_ne_one⟩
  refine ⟨i, ?_, hi⟩
  rw [getElem?_maskRow, hi, Option.map_some, maskWord_masked hkept]

end

/-! ## Rows -/

section
variable {lowering : Lowering} {financialKeywords row : List Text}

/-- A keyword whose stem is kept is kept wherever the row has it. -/
theorem unmasked_of_kept (hrow : [] ∉ row) {keyword : Text} (hmem : keyword ∈ row)
    (hkept : Kept financialKeywords (stem (lowering.lower keyword))) (rng : Rng) :
    Unmasked lowering row keyword
      (maskRow financialKeywords rng (row.flatMap (wordsOf <| lowering.lower ·))) := by
  obtain ⟨before, after, rfl⟩ := List.append_of_mem hmem
  have hbefore : [] ∉ before := fun h => hrow (List.mem_append_left _ h)
  have hkeyword : keyword ≠ [] := ne_of_mem_of_not_mem hmem hrow
  obtain ⟨marks, hwords, hmarks⟩ :=
    wordsOf_eq ((lowering.lower_eq_nil keyword).not.mpr hkeyword)
  have hall : ∀ word ∈ wordsOf (lowering.lower keyword), Kept financialKeywords word := by
    rw [hwords]
    exact List.forall_mem_cons.mpr ⟨hkept, fun mark hmark => .inr (hmarks mark hmark)⟩
  rw [List.flatMap_append, List.flatMap_cons, maskRow_append, maskRow_append, maskRow_kept hall]
  exact ⟨before, after, _, _, _, _, rfl, cleanRow_eq hbefore, cleanWord_eq hkeyword, rfl,
    length_maskRow rng _⟩

/-- When the smallest number is drawn each time, a keyword is kept only when its stem is. -/
theorem kept_of_unmasked (hrow : [] ∉ row) {keyword : Text}
    (hunmasked : Unmasked lowering row keyword
      (maskRow financialKeywords (fun _ => 0) (row.flatMap (wordsOf <| lowering.lower ·)))) :
    Kept financialKeywords (stem (lowering.lower keyword)) := by
  obtain ⟨before, after, cleanedBefore, words, maskedBefore, maskedAfter, rfl, hclean, hword,
    hmasked, hlength⟩ := hunmasked
  have hkeyword : keyword ≠ [] := fun h => hrow (h ▸ by simp)
  have hbefore : [] ∉ before := fun h => hrow (List.mem_append_left _ h)
  obtain ⟨marks, hwords, -⟩ := wordsOf_eq ((lowering.lower_eq_nil keyword).not.mpr hkeyword)
  rw [cleanRow_eq hbefore] at hclean
  rw [cleanWord_eq hkeyword, hwords] at hword
  cases hclean
  cases hword
  rw [List.flatMap_append, List.flatMap_cons, maskRow_append, hwords] at hmasked
  obtain ⟨-, hbehind⟩ := List.append_inj hmasked ((length_maskRow _ _).trans hlength.symm)
  by_contra hkept
  have hshown := (maskWord_masked hkept).symm.trans (List.cons.inj hbehind).1
  exact shown_ne_maskToken (capital_notMem_stem keyword) hshown.symm

theorem acceptedBy_mem {keyword : Text} (h : acceptedBy financialKeywords row = some keyword) :
    keyword ∈ row := by
  simpa using List.find?_some h

theorem exists_acceptedBy (haccept : testRow financialKeywords row) :
    ∃ keyword, acceptedBy financialKeywords row = some keyword := by
  unfold testRow at haccept
  rw [Bool.and_eq_true, List.any_eq_true] at haccept
  exact Option.isSome_iff_exists.mp (List.find?_isSome.mpr haccept.2)

theorem KeepsWhatItMust.maskable (hkeeps : KeepsWhatItMust lowering financialKeywords row) :
    Maskable lowering financialKeywords row := by
  obtain ⟨cleaned, hclean, -, hall⟩ := hkeeps
  have hrow : [] ∉ row := by
    intro hmem
    rw [cleanRow_error hmem] at hclean
    cases hclean
  rw [cleanRow_eq hrow] at hclean
  cases hclean
  obtain ⟨hmasks, accepting, haccepting, hunmasked⟩ := hall fun _ => 0
  refine ⟨hrow, fun field hfield c hc hmark => ?_, fun keyword hkeyword => ?_⟩
  · by_contra hnil
    obtain ⟨i, hmasked, hempty⟩ :=
      exists_masked_nil ((nil_mem_words hrow).mpr ⟨field, hfield, c, hc, hmark⟩) hnil
    obtain ⟨word, hword, hne⟩ := hmasks i hmasked
    exact hne (Option.some.inj (hword.symm.trans hempty))
  · cases hkeyword.symm.trans haccepting
    exact kept_of_unmasked hrow hunmasked

theorem Maskable.keepsWhatItMust (hmaskable : Maskable lowering financialKeywords row)
    {keyword : Text} (hkeyword : acceptedBy financialKeywords row = some keyword) :
    KeepsWhatItMust lowering financialKeywords row := by
  have hnil : [] ∈ row.flatMap (wordsOf <| lowering.lower ·) → [] ∈ financialKeywords := by
    intro hmem
    obtain ⟨field, hfield, c, hc, hmark⟩ := (nil_mem_words hmaskable.nonempty).mp hmem
    exact hmaskable.marks field hfield c hc hmark
  refine ⟨_, cleanRow_eq hmaskable.nonempty, flatten_flatMap_wordsOf row, fun rng => ?_⟩
  refine ⟨fun i => masked_ne_nil hnil, keyword, hkeyword, ?_⟩
  exact unmasked_of_kept hmaskable.nonempty (acceptedBy_mem hkeyword)
    (hmaskable.keyword keyword hkeyword) rng

/-- An accepted row keeps what it must, whatever is drawn, exactly when it is maskable. -/
theorem keepsWhatItMust_iff (haccept : testRow financialKeywords row) :
    KeepsWhatItMust lowering financialKeywords row ↔ Maskable lowering financialKeywords row := by
  obtain ⟨keyword, hkeyword⟩ := exists_acceptedBy haccept
  exact ⟨KeepsWhatItMust.maskable, fun hmaskable => hmaskable.keepsWhatItMust hkeyword⟩

end

theorem toLower_ne_capital (c : Char) : c.toLower ≠ 'M' := by
  unfold Char.toLower
  split
  next h =>
    intro heq
    have hval := congrArg (fun c : Char => c.val.toNat) heq
    have hlow := UInt32.le_iff_toNat_le.mp h.1
    have hhigh := UInt32.le_iff_toNat_le.mp h.2
    simp at hval hlow hhigh
    omega
  next h =>
    rintro rfl
    exact h (by decide)

/-- `str.lower` on ASCII texts. -/
def asciiLowering : Lowering where
  lower := fun text => text.map Char.toLower
  lower_eq_nil := fun _ => List.map_eq_nil_iff
  capital_notMem := by
    intro text hmem
    obtain ⟨c, -, hc⟩ := List.mem_map.mp hmem
    exact toLower_ne_capital c hc

/-- Fifty fields, of which the last one is given. -/
def fiftyFields (last : String) : List Text :=
  List.replicate 49 "grew".toList ++ [last.toList]

theorem fiftyFields_keeps :
    KeepsWhatItMust asciiLowering ["grew".toList] (fiftyFields "cash.") ↔
      Maskable asciiLowering ["grew".toList] (fiftyFields "cash.") :=
  keepsWhatItMust_iff (by decide)

/-- An empty field, a dash and a keyword with capitals: each row is accepted. -/
theorem not_keepsWhatItMust :
    (testRow ["grew".toList] (fiftyFields "") ∧
      cleanRow asciiLowering (fiftyFields "") = .error .indexError ∧
      ¬ KeepsWhatItMust asciiLowering ["grew".toList] (fiftyFields "")) ∧
    (testRow ["grew".toList] (fiftyFields "-") ∧
      ¬ KeepsWhatItMust asciiLowering ["grew".toList] (fiftyFields "-")) ∧
    (testRow ["EBITDA".toList] (fiftyFields "EBITDA") ∧
      ¬ KeepsWhatItMust asciiLowering ["EBITDA".toList] (fiftyFields "EBITDA")) := by
  refine ⟨⟨by decide, by decide, fun hkeeps => ?_⟩, ⟨by decide, fun hkeeps => ?_⟩, by decide,
    fun hkeeps => ?_⟩
  · exact hkeeps.maskable.nonempty (by decide)
  · exact absurd (hkeeps.maskable.marks "-".toList (by decide) '-' (by decide) (by decide))
      (by decide)
  · have hkept := hkeeps.maskable.keyword "EBITDA".toList (by decide)
    unfold Kept at hkept
    exact absurd hkept (by decide)

end FinBert.DataEngineering
