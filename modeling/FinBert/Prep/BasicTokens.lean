import FinBert.Lib.Words
import FinBert.Prep.Tokenization

/-!
# What basic tokenization keeps

`BasicTokenizer.tokenize` without lower casing, for any classes of characters: cleaning, the
padding of CJK characters, the split at whitespace, the split at punctuation and the second split
are one pass that turns each character into itself, into marks, or into itself between marks. The
tokens are the words between the marks.

Results:
1. `basicTokenize_eq_words`: the passes together.
2. `basicTokens`: which characters are kept, where the tokens end, and that the tokens are stable.
3. `basicTokenize_eq`: the classes of the Unicode database are an instance.
-/

namespace FinBert.Prep

open Words

/-- Tests of which the space passes one only. -/
structure CharClasses extends CharTests where
  control_space : isControl ' ' = false
  whitespace_space : isWhitespace ' ' = true
  punctuation_space : isPunctuation ' ' = false
  chinese_space : isChineseChar ' ' = false

namespace CharClasses

variable (classes : CharClasses)

/-- `BasicTokenizer.tokenize`, with `do_lower_case` off. -/
def basicTokenize (text : Text) : List Text := classes.toCharTests.basicTokenize id text

/-! ## What is asked of the tokens -/

/-- The character is removed without a trace. -/
def removed (c : Char) : Bool := c.toNat == 0 || c.toNat == 0xfffd || classes.isControl c

/-- The character separates words. -/
def white (c : Char) : Bool := !classes.removed c && (classes.isWhitespace c || isSpace c)

/-- The character is in a token. -/
def keeps (c : Char) : Bool := !classes.removed c && !classes.white c

/-- The character is a token by itself. -/
def alone (c : Char) : Bool := classes.isPunctuation c || classes.isChineseChar c

/-- The tokens of a text. -/
structure BasicTokens (text : Text) (tokens : List Text) : Prop where
  /-- Nothing else is lost, and nothing is moved. -/
  flatten : tokens.flatten = text.filter classes.keeps
  nonempty : ∀ token ∈ tokens, token ≠ []
  alone : ∀ token ∈ tokens, ∀ c ∈ token, classes.alone c = true → token = [c]
  /-- Of two neighbours among the characters that are kept. -/
  neighbours : ∀ before a between b after, text = before ++ a :: (between ++ b :: after) →
    classes.keeps a = true → classes.keeps b = true →
    (∀ c ∈ between, classes.keeps c = false) →
    (SameWord tokens (before.filter classes.keeps).length ↔
      (∀ c ∈ between, classes.white c = false) ∧ classes.alone a = false ∧ classes.alone b = false)
  /-- The tokens, joined by spaces, have the same tokens. -/
  again : classes.basicTokenize ([' '].intercalate tokens) = tokens

/-! ## One pass -/

end CharClasses

/-- What `str.split` sees of a character. -/
def spaceMark (c : Char) : Option Char := if isSpace c then none else some c

theorem split_eq_words (text : Text) : split text = words (text.map spaceMark) :=
  filter_splitOnP isSpace text

/-- To strip a text makes no difference to its words. -/
theorem whitespaceTokenize_eq_words (text : Text) :
    whitespaceTokenize text = words (text.map spaceMark) := by
  have hdrop : ∀ text : Text,
      words ((text.dropWhile isSpace).map spaceMark) = words (text.map spaceMark) := by
    intro text
    induction text with
    | nil => rfl
    | cons c text ih =>
      rw [List.dropWhile_cons]
      split
      · next hspace => rw [ih, List.map_cons, spaceMark, if_pos hspace, words_none]
      · rfl
  have hrdrop : ∀ text : Text,
      words ((text.rdropWhile isSpace).map spaceMark) = words (text.map spaceMark) := by
    intro text
    conv_rhs => rw [← @List.rdropWhile_append_rtakeWhile _ isSpace text, List.map_append]
    refine (words_append_marks _ fun o ho => ?_).symm
    obtain ⟨c, hc, rfl⟩ := List.mem_map.mp ho
    exact if_pos (List.mem_rtakeWhile_imp hc)
  have hstrip : split (strip text) = words (text.map spaceMark) := by
    rw [split_eq_words, strip, hrdrop, hdrop]
  unfold whitespaceTokenize
  dsimp only
  split
  · next hempty =>
    rw [← hstrip, List.isEmpty_iff.mp hempty]
    rfl
  · exact hstrip

/-- The second split finds the words that were joined. -/
theorem whitespaceTokenize_intercalate {tokens : List Text} (hne : ∀ token ∈ tokens, token ≠ [])
    (hspace : ∀ token ∈ tokens, ∀ c ∈ token, isSpace c = false) :
    whitespaceTokenize ([' '].intercalate tokens) = tokens := by
  have hmark : [' '].flatMap (fun c => [spaceMark c]) = [none] := rfl
  have hwords : ∀ token ∈ tokens, words (token.flatMap fun c => [spaceMark c]) = [token] := by
    intro token htoken
    have hsome : token.flatMap (fun c => [spaceMark c]) = token.map some := by
      rw [← List.map_eq_flatMap]
      refine List.map_congr_left fun c hc => ?_
      rw [spaceMark, hspace token htoken c hc, if_neg Bool.false_ne_true]
    rw [hsome, words_map_some (hne token htoken)]
  rw [whitespaceTokenize_eq_words, List.map_eq_flatMap, flatMap_intercalate, hmark,
    words_intercalate, List.flatMap_map]
  calc tokens.flatMap (fun token => words (token.flatMap fun c => [spaceMark c]))
      = tokens.flatMap fun token => [token] := List.flatMap_congr hwords
    _ = tokens := List.flatMap_singleton' tokens

namespace CharClasses

variable (classes : CharClasses)

/-- A character behind the first two passes. -/
def padded (c : Char) : Text :=
  if classes.removed c then []
  else if classes.isWhitespace c then [' ']
  else if classes.isChineseChar c then [' ', c, ' ']
  else [c]

theorem tokenizeChineseChars_cleanText (text : Text) :
    classes.tokenizeChineseChars (classes.cleanText text) = text.flatMap classes.padded := by
  induction text with
  | nil => rfl
  | cons c text ih =>
    rw [CharTests.cleanText, List.flatMap_cons, ← ih, padded, removed]
    split
    · rfl
    · split
      · rw [CharTests.tokenizeChineseChars, classes.chinese_space, if_neg Bool.false_ne_true]
        rfl
      · rw [CharTests.tokenizeChineseChars]
        split <;> rfl

/-- A character that may be punctuation. -/
def puncMarks (c : Char) : List (Option Char) :=
  if classes.isPunctuation c then [none, some c, none] else [some c]

/-- `_run_split_on_punc` puts marks around punctuation. -/
theorem runSplitOnPunc_eq_words (text : Text) :
    classes.runSplitOnPunc text = words (text.flatMap classes.puncMarks) := by
  have hloop : (∀ output, classes.splitOnPuncFrom output true text =
        output ++ words (text.flatMap classes.puncMarks)) ∧
      ∀ output run, run ≠ [] → classes.splitOnPuncFrom (output ++ [run]) false text =
        output ++ wordsFrom run (text.flatMap classes.puncMarks) := by
    induction text with
    | nil =>
      refine ⟨fun output => (List.append_nil output).symm, fun output run hrun => ?_⟩
      rw [CharTests.splitOnPuncFrom, List.flatMap_nil, wordsFrom, ended_of_ne_nil hrun]
    | cons c text ih =>
      obtain ⟨ihStart, ihRun⟩ := ih
      refine ⟨fun output => ?_, fun output run hrun => ?_⟩
      all_goals
        rw [CharTests.splitOnPuncFrom, List.flatMap_cons, puncMarks]
        split
      · rw [ihStart, List.append_assoc]
        rfl
      · dsimp only
        rw [if_pos rfl, appendToLast_concat, List.nil_append,
          ihRun output [c] (List.cons_ne_nil c [])]
        rfl
      · have hpunc : ∀ l, wordsFrom run ([none, some c, none] ++ l) =
            ended run ++ [c] :: words l := fun _ => rfl
        rw [ihStart, hpunc, ended_of_ne_nil hrun, List.append_assoc, List.append_assoc]
        rfl
      · dsimp only
        rw [if_neg Bool.false_ne_true, appendToLast_concat,
          ihRun output _ (List.concat_ne_nil c run)]
        rfl
  exact hloop.1 []

/-- The split at punctuation, on marks too. -/
def puncMarksOf : Option Char → List (Option Char)
  | none => [none]
  | some c => classes.puncMarks c

theorem flatMap_runSplitOnPunc (l : List (Option Char)) :
    (words l).flatMap classes.runSplitOnPunc = words (l.flatMap classes.puncMarksOf) := by
  have hended : ∀ run : Text, (ended run).flatMap classes.runSplitOnPunc =
      words (run.flatMap classes.puncMarks) := by
    rintro (_ | ⟨c, run⟩)
    · rfl
    · rw [ended, List.flatMap_cons, List.flatMap_nil, List.append_nil, runSplitOnPunc_eq_words]
  have hrun : ∀ run : Text, (wordsFrom run l).flatMap classes.runSplitOnPunc =
      words (run.flatMap classes.puncMarks ++ l.flatMap classes.puncMarksOf) := by
    induction l with
    | nil =>
      intro run
      rw [wordsFrom, hended, List.flatMap_nil, List.append_nil]
    | cons o l ih =>
      intro run
      cases o with
      | none =>
        rw [wordsFrom, List.flatMap_append, hended, ih, List.flatMap_cons, puncMarksOf,
          List.singleton_append, words_append_none, List.flatMap_nil, List.nil_append]
      | some c =>
        rw [wordsFrom, ih, List.flatMap_append, List.flatMap_singleton, List.flatMap_cons,
          List.append_assoc]
        rfl
  exact hrun []

/-- What all passes make of a character. -/
def marks (c : Char) : List (Option Char) :=
  ((classes.padded c).map spaceMark).flatMap classes.puncMarksOf

theorem splitTokens_eq_words (text : Text) :
    (whitespaceTokenize (classes.tokenizeChineseChars (classes.cleanText text))).flatMap
      classes.runSplitOnPunc = words (text.flatMap classes.marks) := by
  rw [tokenizeChineseChars_cleanText, whitespaceTokenize_eq_words, flatMap_runSplitOnPunc,
    List.map_flatMap, List.flatMap_assoc]
  rfl

/-! ## The marks of a character -/

variable {classes}

theorem marks_of_removed {c : Char} (h : classes.removed c = true) : classes.marks c = [] := by
  rw [marks, padded, if_pos h]
  rfl

/-- A character that separates words is nothing but marks. -/
theorem marks_of_white {c : Char} (h : classes.white c = true) :
    ∃ n, classes.marks c = List.replicate (n + 1) none := by
  obtain ⟨hkept, hwhite⟩ := Bool.and_eq_true_iff.mp h
  rw [marks, padded, if_neg (by simpa using hkept)]
  split
  · exact ⟨0, rfl⟩
  · next hnot =>
    have hspace : isSpace c = true := by simpa [hnot] using hwhite
    have hmark : spaceMark c = none := if_pos hspace
    split
    · refine ⟨2, ?_⟩
      rw [List.map_cons, List.map_cons, hmark]
      rfl
    · refine ⟨0, ?_⟩
      rw [List.map_singleton, hmark]
      rfl

/-- The marks on both sides of a character that is kept. -/
def pad (classes : CharClasses) (c : Char) : List (Option Char) :=
  (if classes.isChineseChar c then [none] else []) ++
    if classes.isPunctuation c then [none] else []

theorem mem_pad {c : Char} {o : Option Char} (h : o ∈ classes.pad c) : o = none := by
  rcases List.mem_append.mp h with h | h
  all_goals
    split at h
    · exact List.mem_singleton.mp h
    · cases h

theorem pad_eq_nil_iff (c : Char) : classes.pad c = [] ↔ classes.alone c = false := by
  rw [pad, alone, List.append_eq_nil_iff, Bool.or_eq_false_iff]
  cases classes.isChineseChar c <;> cases classes.isPunctuation c <;> decide

theorem marks_of_keeps {c : Char} (h : classes.keeps c = true) :
    classes.marks c = classes.pad c ++ some c :: classes.pad c := by
  obtain ⟨hkept, hnot⟩ := Bool.and_eq_true_iff.mp h
  rw [white, hkept, Bool.true_and, Bool.not_eq_true', Bool.or_eq_false_iff] at hnot
  have hmark : spaceMark c = some c := if_neg (by rw [hnot.2]; exact Bool.false_ne_true)
  rw [marks, padded, if_neg (by simpa using hkept), hnot.1, if_neg Bool.false_ne_true, pad]
  have hspace : spaceMark ' ' = none := rfl
  by_cases hpunc : classes.isPunctuation c = true
  · have hmarks : classes.puncMarks c = [none, some c, none] := if_pos hpunc
    split <;> simp [hmark, hspace, puncMarksOf, hmarks]
  · have hmarks : classes.puncMarks c = [some c] := if_neg hpunc
    split <;> simp [hmark, hspace, puncMarksOf, hmarks]

theorem removed_or_white {c : Char} (h : classes.keeps c = false) :
    classes.removed c = true ∨ classes.white c = true := by
  rwa [keeps, Bool.and_eq_false_iff, Bool.not_eq_false', Bool.not_eq_false'] at h

theorem marks_of_not_keeps {c : Char} (h : classes.keeps c = false) :
    (∀ o ∈ classes.marks c, o = none) ∧ (classes.marks c = [] ↔ classes.white c = false) := by
  rcases removed_or_white h with hremoved | hwhite
  · rw [marks_of_removed hremoved, white, hremoved]
    exact ⟨fun o ho => absurd ho List.not_mem_nil, iff_of_true rfl rfl⟩
  · obtain ⟨n, hmarks⟩ := marks_of_white hwhite
    rw [hmarks, hwhite]
    exact ⟨fun o ho => List.eq_of_mem_replicate ho,
      iff_of_false (List.cons_ne_nil _ _) fun h => by cases h⟩

theorem reduceOption_marks (c : Char) :
    (classes.marks c).reduceOption = if classes.keeps c then [c] else [] := by
  split
  · next hkeeps =>
    have hpad : (classes.pad c).reduceOption = [] := Words.reduceOption_marks fun _ => mem_pad
    rw [marks_of_keeps hkeeps, List.reduceOption_append, List.reduceOption_cons_of_some, hpad]
    rfl
  · next hnot =>
    exact Words.reduceOption_marks (marks_of_not_keeps (Bool.eq_false_iff.mpr hnot)).1

/-- The characters behind all passes are those that are kept. -/
theorem reduceOption_flatMap_marks (text : Text) :
    (text.flatMap classes.marks).reduceOption = text.filter classes.keeps := by
  induction text with
  | nil => rfl
  | cons c text ih =>
    rw [List.flatMap_cons, List.reduceOption_append, ih, reduceOption_marks, List.filter_cons]
    split <;> rfl

/-! ## The tokens -/

theorem keeps_of_mem_words {text token : Text} (htoken : token ∈ words (text.flatMap classes.marks))
    {c : Char} (hc : c ∈ token) : classes.keeps c = true := by
  have hmem : c ∈ (words (text.flatMap classes.marks)).flatten :=
    List.mem_flatten.mpr ⟨token, htoken, hc⟩
  rw [flatten_words, reduceOption_flatMap_marks] at hmem
  exact (List.mem_filter.mp hmem).2

theorem isSpace_of_keeps {c : Char} (h : classes.keeps c = true) : isSpace c = false := by
  obtain ⟨hkept, hnot⟩ := Bool.and_eq_true_iff.mp h
  rw [white, hkept, Bool.true_and, Bool.not_eq_true', Bool.or_eq_false_iff] at hnot
  exact hnot.2

/-- All passes together. -/
theorem basicTokenize_eq_words (text : Text) :
    classes.basicTokenize text = words (text.flatMap classes.marks) := by
  have hsplit := splitTokens_eq_words classes text
  unfold basicTokenize CharTests.basicTokenize
  simp only [id_eq]
  rw [hsplit]
  exact whitespaceTokenize_intercalate (fun _ => ne_nil_of_mem_wordsFrom)
    fun token htoken c hc => isSpace_of_keeps (keeps_of_mem_words htoken hc)

/-- A token is a character that stands alone, or has none. -/
def Separate (classes : CharClasses) (token : Text) : Prop :=
  (∃ c, token = [c]) ∨ ∀ c ∈ token, classes.alone c = false

theorem separate_words (text : Text) :
    ∀ token ∈ words (text.flatMap classes.marks), classes.Separate token := by
  have hended : ∀ run : Text, (∀ c ∈ run, classes.alone c = false) → ∀ token ∈ ended run,
      classes.Separate token := by
    rintro (_ | ⟨c, run⟩) hrun token htoken
    · cases htoken
    · rw [List.mem_singleton.mp htoken]
      exact .inr hrun
  have hrun : ∀ run : Text, (∀ c ∈ run, classes.alone c = false) →
      ∀ token ∈ wordsFrom run (text.flatMap classes.marks), classes.Separate token := by
    induction text with
    | nil => exact hended
    | cons c text ih =>
      intro run hrun
      rw [List.flatMap_cons]
      have hrest := ih [] fun c hc => absurd hc List.not_mem_nil
      by_cases hkeeps : classes.keeps c = true
      · rw [marks_of_keeps hkeeps, List.append_assoc, List.cons_append]
        by_cases halone : classes.alone c = true
        · -- there are marks on both sides of the character
          have hpad : classes.pad c ≠ [] := fun h => by
            rw [(pad_eq_nil_iff c).mp h] at halone
            cases halone
          rw [wordsFrom_marks _ (fun _ => mem_pad) hpad, words, wordsFrom,
            wordsFrom_marks _ (fun _ => mem_pad) hpad]
          intro token htoken
          rcases List.mem_append.mp htoken with htoken | htoken
          · exact hended run hrun token htoken
          · rcases List.mem_append.mp htoken with htoken | htoken
            · exact .inl ⟨c, List.mem_singleton.mp htoken⟩
            · exact hrest token htoken
        · have halone : classes.alone c = false := Bool.eq_false_iff.mpr halone
          rw [(pad_eq_nil_iff c).mpr halone, List.nil_append, List.nil_append, wordsFrom]
          exact ih _ (List.forall_mem_append.mpr ⟨hrun, List.forall_mem_singleton.mpr halone⟩)
      · obtain ⟨hmarks, -⟩ := marks_of_not_keeps (Bool.eq_false_iff.mpr hkeeps)
        by_cases hnil : classes.marks c = []
        · rw [hnil]
          exact ih run hrun
        · rw [wordsFrom_marks _ hmarks hnil]
          exact List.forall_mem_append.mpr ⟨hended run hrun, hrest⟩
  exact hrun [] fun c hc => absurd hc List.not_mem_nil

/-- A token has itself as its only token. -/
theorem words_token {token : Text} (hne : token ≠ [])
    (hkeeps : ∀ c ∈ token, classes.keeps c = true) (hseparate : classes.Separate token) :
    words (token.flatMap classes.marks) = [token] := by
  by_cases halone : ∀ c ∈ token, classes.alone c = false
  · have hsome : token.flatMap classes.marks = token.map some := by
      rw [List.map_eq_flatMap]
      refine List.flatMap_congr fun c hc => ?_
      rw [marks_of_keeps (hkeeps c hc), (pad_eq_nil_iff c).mpr (halone c hc)]
      rfl
    rw [hsome, words_map_some hne]
  · obtain ⟨c, rfl⟩ := hseparate.resolve_right halone
    have hpad : classes.pad c ≠ [] := fun h =>
      halone (List.forall_mem_singleton.mpr ((pad_eq_nil_iff c).mp h))
    have hmarks := marks_of_keeps (hkeeps c (List.mem_singleton_self c))
    rw [List.flatMap_singleton, hmarks, words, wordsFrom_marks _ (fun _ => mem_pad) hpad, words,
      wordsFrom, ← List.append_nil (classes.pad c), wordsFrom_marks _ (fun _ => mem_pad) hpad]
    rfl

/-- The tokens of a text joined by spaces. -/
theorem basicTokenize_intercalate {tokens : List Text} (hne : ∀ token ∈ tokens, token ≠ [])
    (hkeeps : ∀ token ∈ tokens, ∀ c ∈ token, classes.keeps c = true)
    (hseparate : ∀ token ∈ tokens, classes.Separate token) :
    classes.basicTokenize ([' '].intercalate tokens) = tokens := by
  have hspace : [' '].flatMap classes.marks = [none] := by
    rw [List.flatMap_singleton, marks, padded, removed, classes.control_space,
      classes.whitespace_space]
    rfl
  rw [basicTokenize_eq_words, flatMap_intercalate, hspace, words_intercalate, List.flatMap_map]
  calc tokens.flatMap (fun token => words (token.flatMap classes.marks))
      = tokens.flatMap fun token => [token] :=
        List.flatMap_congr fun token htoken =>
          words_token (hne token htoken) (hkeeps token htoken) (hseparate token htoken)
    _ = tokens := List.flatMap_singleton' tokens

theorem sameWord_basicTokenize (before : Text) (a : Char) (between : Text) (b : Char) (after : Text)
    (ha : classes.keeps a = true) (hb : classes.keeps b = true)
    (hbetween : ∀ c ∈ between, classes.keeps c = false) :
    SameWord (words ((before ++ a :: (between ++ b :: after)).flatMap classes.marks))
        (before.filter classes.keeps).length ↔
      (∀ c ∈ between, classes.white c = false) ∧ classes.alone a = false ∧
        classes.alone b = false := by
  have hnone : ∀ o ∈ classes.pad a ++ (between.flatMap classes.marks ++ classes.pad b),
      o = none := by
    intro o ho
    rcases List.mem_append.mp ho with ho | ho
    · exact mem_pad ho
    · rcases List.mem_append.mp ho with ho | ho
      · obtain ⟨c, hc, ho⟩ := List.mem_flatMap.mp ho
        exact (marks_of_not_keeps (hbetween c hc)).1 o ho
      · exact mem_pad ho
  have hlength : (before.filter classes.keeps).length =
      (before.flatMap classes.marks ++ classes.pad a).reduceOption.length := by
    rw [List.reduceOption_append, Words.reduceOption_marks fun _ => mem_pad, List.append_nil,
      reduceOption_flatMap_marks]
  have htext : (before ++ a :: (between ++ b :: after)).flatMap classes.marks =
      (before.flatMap classes.marks ++ classes.pad a) ++ some a ::
        ((classes.pad a ++ (between.flatMap classes.marks ++ classes.pad b)) ++ some b ::
          (classes.pad b ++ after.flatMap classes.marks)) := by
    rw [List.flatMap_append, List.flatMap_cons, List.flatMap_append, List.flatMap_cons,
      marks_of_keeps ha, marks_of_keeps hb]
    simp only [List.append_assoc, List.cons_append]
  rw [htext, hlength, sameWord_words_iff _ _ a b hnone, List.append_eq_nil_iff,
    List.append_eq_nil_iff, pad_eq_nil_iff, pad_eq_nil_iff, List.flatMap_eq_nil_iff]
  constructor
  · rintro ⟨halone, hmarks, halone'⟩
    exact ⟨fun c hc => (marks_of_not_keeps (hbetween c hc)).2.mp (hmarks c hc), halone, halone'⟩
  · rintro ⟨hwhite, halone, halone'⟩
    exact ⟨halone, fun c hc => (marks_of_not_keeps (hbetween c hc)).2.mpr (hwhite c hc), halone'⟩

/-- What `BasicTokenizer.tokenize` does to every text. -/
theorem basicTokens (classes : CharClasses) (text : Text) :
    classes.BasicTokens text (classes.basicTokenize text) := by
  have hne : ∀ token ∈ classes.basicTokenize text, token ≠ [] := by
    rw [basicTokenize_eq_words]
    exact fun _ => ne_nil_of_mem_wordsFrom
  have hkeeps : ∀ token ∈ classes.basicTokenize text, ∀ c ∈ token, classes.keeps c = true := by
    rw [basicTokenize_eq_words]
    exact fun _ htoken _ => keeps_of_mem_words htoken
  have hseparate : ∀ token ∈ classes.basicTokenize text, classes.Separate token := by
    rw [basicTokenize_eq_words]
    exact separate_words text
  constructor
  · rw [basicTokenize_eq_words, flatten_words, reduceOption_flatMap_marks]
  · exact hne
  · intro token htoken c hc halone
    rcases hseparate token htoken with ⟨c', rfl⟩ | hnone
    · rw [List.mem_singleton.mp hc]
    · rw [hnone c hc] at halone
      cases halone
  · rintro before a between b after rfl ha hb hbetween
    rw [basicTokenize_eq_words]
    exact sameWord_basicTokenize before a between b after ha hb hbetween
  · exact basicTokenize_intercalate hne hkeeps hseparate

end CharClasses

/-! ## The classes of the Unicode database -/

/-- The tests of the tokenizer, when the space has its category. -/
def Unicode.classes (unicode : Unicode) (hspace : unicode.category ' ' = .Zs) : CharClasses where
  toCharTests := unicode.tests
  control_space := by
    show isControl unicode ' ' = false
    rw [isControl, hspace]
    rfl
  whitespace_space := rfl
  punctuation_space := by
    show isPunctuation unicode ' ' = false
    rw [isPunctuation, hspace]
    rfl
  chinese_space := rfl

theorem basicTokenize_eq {unicode : Unicode} (hspace : unicode.category ' ' = .Zs) (text : Text) :
    basicTokenize unicode false text = (unicode.classes hspace).basicTokenize text :=
  rfl

/-- A tab ends a word, a comma is one, and a NUL is nothing. -/
example :
    let unicode : Unicode :=
      { category := fun c => if c == ' ' then .Zs else .Ll, lower := id, nfd := id }
    (unicode.classes rfl).basicTokenize ['a', 'b', ',', '\t', '\x00', 'c', '\x00', 'd'] =
      [['a', 'b'], [','], ['c', 'd']] := by
  decide

end FinBert.Prep
