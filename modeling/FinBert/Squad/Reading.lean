import FinBert.Prep.BasicTokens
import FinBert.Squad.Projection
import FinBert.Squad.Targets

/-!
# Reading the examples

`read_squad_examples` (`run_squad.py`) cuts the text of a paragraph into words, keeps the index of
its word for each character, and turns the place of an annotated answer in the text into the indexes
of its words. An example is skipped if these words do not contain the answer.

* `scanText`, `readAnswer`, `readSquadExamples`: the function, from the parsed file on.
* `scanned_scanText`: the words, and the index for each character.
* `readAnswer_spec`: an answer that is a part of the text is found in its words.
* `readSquadExamples_spec`: no example with such an answer is skipped.
* `readSquadExamples_converted`: the features of all examples are made.
-/

namespace FinBert.Squad

open Prep (Text isSpace spaceMark whitespaceTokenize whitespaceTokenize_eq_words appendToLast
  appendToLast_concat)
open Words

/-! ## The file -/

/-- An element of `answers`. -/
structure AnnotatedAnswer where
  text : Text
  answerStart : Int

/-- An element of `qas`. Files of the first version have no `is_impossible`. -/
structure QuestionAnswers where
  id : String
  question : String
  isImpossible : Option Bool := none
  answers : List AnnotatedAnswer

/-- An element of `paragraphs`. -/
structure Paragraph where
  context : Text
  qas : List QuestionAnswers

/-- An element of `data`. -/
structure Entry where
  paragraphs : List Paragraph

/-- The exceptions that `read_squad_examples` may raise. -/
inductive ReadError
  | valueError
  | indexError
  | keyError
deriving DecidableEq

/-! ## The words of a paragraph -/

/-- `is_whitespace`. -/
def isWhitespace (c : Char) : Bool :=
  c == ' ' || c == '\t' || c == '\r' || c == '\n' || c.toNat == 0x202F

/-- The variables of the loop over the characters of a paragraph. -/
structure DocScan where
  docTokens : List Text := []
  charToWordOffset : List Int := []
  prevIsWhitespace : Bool := true

/-- The body of the loop. -/
def DocScan.step (scan : DocScan) (c : Char) : DocScan :=
  let docTokens :=
    if isWhitespace c then scan.docTokens
    else if scan.prevIsWhitespace then scan.docTokens ++ [[c]]
    else appendToLast scan.docTokens c
  { docTokens
    charToWordOffset := scan.charToWordOffset ++ [(docTokens.length : Int) - 1]
    prevIsWhitespace := isWhitespace c }

/-- The loop. -/
def scanText (text : Text) : DocScan := text.foldl DocScan.step {}

/-! ## The examples -/

/-- `xs[i]`, where a negative index counts from the end. -/
def offsetAt (xs : List Int) (i : Int) : Except ReadError Int :=
  let i := if i < 0 then xs.length + i else i
  if i < 0 then throw .indexError
  else
    match xs[i.toNat]? with
    | some x => pure x
    | none => throw .indexError

/-- Where a slice of `n` words begins or ends. -/
def sliceBound (n : Nat) (i : Int) : Nat := (if i < 0 then n + i else i).toNat

/-- `words[i:j]`. -/
def wordSlice (ws : List Text) (i j : Int) : List Text :=
  (ws.take (sliceBound ws.length j)).drop (sliceBound ws.length i)

/-- `start_position` and `end_position` of an answer, or nothing if the example is skipped. -/
def readAnswer (scan : DocScan) (answer : AnnotatedAnswer) :
    Except ReadError (Option (Int × Int)) := do
  let startPosition ← offsetAt scan.charToWordOffset answer.answerStart
  let endPosition ←
    offsetAt scan.charToWordOffset (answer.answerStart + answer.text.length - 1)
  let actualText := joinWords (wordSlice scan.docTokens startPosition (endPosition + 1))
  let cleanedAnswerText := joinWords (whitespaceTokenize answer.text)
  match find cleanedAnswerText actualText with
  | none => return none
  | some _ => return some (startPosition, endPosition)

/-- `is_impossible`, in training. -/
def readImpossible (version2WithNegative : Bool) (qa : QuestionAnswers) : Except ReadError Bool :=
  if version2WithNegative then
    match qa.isImpossible with
    | some isImpossible => pure isImpossible
    | none => throw .keyError
  else pure false

/-- The example of a question that is not for training. -/
def plainExample (scan : DocScan) (qa : QuestionAnswers) : SquadExample where
  qasId := qa.id
  questionText := qa.question
  docTokens := scan.docTokens.map String.ofList

/-- The example of a question that is impossible. -/
def impossibleExample (scan : DocScan) (qa : QuestionAnswers) : SquadExample :=
  { plainExample scan qa with
    startPosition := some (-1), endPosition := some (-1), isImpossible := true }

/-- The example of a question and its answer. -/
def answeredExample (scan : DocScan) (qa : QuestionAnswers) (answer : AnnotatedAnswer)
    (startPosition endPosition : Int) : SquadExample :=
  { plainExample scan qa with
    origAnswerText := String.ofList answer.text
    startPosition := some startPosition
    endPosition := some endPosition }

/-- The body of the loop over the questions. -/
def readQa (isTraining version2WithNegative : Bool) (scan : DocScan) (qa : QuestionAnswers) :
    Except ReadError (Option SquadExample) := do
  if isTraining then
    let isImpossible ← readImpossible version2WithNegative qa
    if isImpossible then return some (impossibleExample scan qa)
    else
      match qa.answers with
      | [answer] =>
        match ← readAnswer scan answer with
        | none => return none
        | some (startPosition, endPosition) =>
          return some (answeredExample scan qa answer startPosition endPosition)
      | _ => throw .valueError
  else return some (plainExample scan qa)

/-- The loop over the questions of a paragraph. -/
def readQas (isTraining version2WithNegative : Bool) (scan : DocScan) :
    List QuestionAnswers → Except ReadError (List SquadExample)
  | [] => pure []
  | qa :: qas => do
    let read ← readQa isTraining version2WithNegative scan qa
    let examples ← readQas isTraining version2WithNegative scan qas
    return read.toList ++ examples

/-- The loop over the paragraphs of an entry. -/
def readParagraphs (isTraining version2WithNegative : Bool) :
    List Paragraph → Except ReadError (List SquadExample)
  | [] => pure []
  | paragraph :: paragraphs => do
    let scan := scanText paragraph.context
    let read ← readQas isTraining version2WithNegative scan paragraph.qas
    let examples ← readParagraphs isTraining version2WithNegative paragraphs
    return read ++ examples

/-- `read_squad_examples`, from `json.load(reader)["data"]` on. -/
def readSquadExamples (isTraining version2WithNegative : Bool) :
    List Entry → Except ReadError (List SquadExample)
  | [] => pure []
  | entry :: entries => do
    let read ← readParagraphs isTraining version2WithNegative entry.paragraphs
    let examples ← readSquadExamples isTraining version2WithNegative entries
    return read ++ examples

/-! ## Words and characters -/

/-- What the loop sees of a character. -/
def wordMark (c : Char) : Option Char := if isWhitespace c then none else some c

/-- The words of a text. -/
def docWords (text : Text) : List Text := words (text.map wordMark)

/-- Behind a text, the words `closed` have ended and the word `run` may go on. -/
structure Scanned (text : Text) (scan : DocScan) (closed : List Text) (run : Text) : Prop where
  words_append : ∀ l, words (text.map wordMark ++ l) = closed ++ wordsFrom run l
  docTokens : scan.docTokens = closed ++ ended run
  prevIsWhitespace : scan.prevIsWhitespace = run.isEmpty
  length : scan.charToWordOffset.length = text.length
  offsets : ∀ k < text.length,
    scan.charToWordOffset[k]? = some (((docWords (text.take (k + 1))).length : Int) - 1)

theorem Scanned.docTokens_eq {text : Text} {scan : DocScan} {closed : List Text} {run : Text}
    (h : Scanned text scan closed run) : scan.docTokens = docWords text :=
  h.docTokens.trans (wordsFrom_of_closed h.words_append).symm

/-- The body of the loop, from what the character does to the words. -/
theorem Scanned.concat {text : Text} {scan : DocScan} {closed closed' : List Text} {run run' : Text}
    (h : Scanned text scan closed run) {c : Char}
    (happend : ∀ l, words ((text ++ [c]).map wordMark ++ l) = closed' ++ wordsFrom run' l)
    (htokens : (scan.step c).docTokens = closed' ++ ended run')
    (hwhite : isWhitespace c = run'.isEmpty) :
    Scanned (text ++ [c]) (scan.step c) closed' run' := by
  have hlast : (scan.step c).docTokens = docWords (text ++ [c]) :=
    htokens.trans (wordsFrom_of_closed happend).symm
  have hoffsets : (scan.step c).charToWordOffset =
      scan.charToWordOffset ++ [((docWords (text ++ [c])).length : Int) - 1] := by
    rw [← hlast]
    rfl
  have hlength : (text ++ [c]).length = text.length + 1 := by
    rw [List.length_append, List.length_singleton]
  refine ⟨happend, htokens, hwhite, ?_, fun k hk => ?_⟩
  · rw [hoffsets, List.length_append, List.length_singleton, h.length, hlength]
  · rw [hlength] at hk
    rw [hoffsets]
    rcases Nat.lt_succ_iff_lt_or_eq.mp hk with hlt | rfl
    · rw [List.getElem?_append_left (h.length ▸ hlt), List.take_append_of_le_length hlt]
      exact h.offsets k hlt
    · rw [← h.length, List.getElem?_concat_length, h.length, List.take_of_length_le hlength.le]

theorem Scanned.step {text : Text} {scan : DocScan} {closed : List Text} {run : Text}
    (h : Scanned text scan closed run) (c : Char) :
    ∃ closed run, Scanned (text ++ [c]) (scan.step c) closed run := by
  cases hwhite : isWhitespace c with
  | true =>
    have hmark : [c].map wordMark = [none] := by rw [List.map_singleton, wordMark, if_pos hwhite]
    refine ⟨closed ++ ended run, [], h.concat (fun l => ?_) ?_ hwhite⟩
    · rw [List.map_append, hmark, List.append_assoc, List.singleton_append, h.words_append,
        wordsFrom, List.append_assoc]
    · rw [DocScan.step]
      simp only [hwhite, if_true]
      rw [h.docTokens]
      exact (List.append_nil _).symm
  | false =>
    have hmark : [c].map wordMark = [some c] := by
      rw [List.map_singleton, wordMark, hwhite, if_neg Bool.false_ne_true]
    have hne : run ++ [c] ≠ [] := List.concat_ne_nil c run
    refine ⟨closed, run ++ [c], h.concat (fun l => ?_) ?_ ?_⟩
    · rw [List.map_append, hmark, List.append_assoc, List.singleton_append, h.words_append,
        wordsFrom]
    · rw [DocScan.step, ended_of_ne_nil hne]
      simp only [hwhite, h.prevIsWhitespace, h.docTokens, Bool.false_eq_true, if_false]
      cases run with
      | nil => rw [if_pos List.isEmpty_nil, ended, List.append_nil, List.nil_append]
      | cons a run => rw [if_neg (by simp), ended, appendToLast_concat]
    · rw [List.isEmpty_eq_false_iff.mpr hne]
      exact hwhite

theorem scanned_scanText (text : Text) : ∃ closed run, Scanned text (scanText text) closed run := by
  induction text using List.reverseRecOn with
  | nil => exact ⟨[], [], fun l => rfl, rfl, rfl, rfl, fun k hk => absurd hk (Nat.not_lt_zero k)⟩
  | append_singleton text c ih =>
    obtain ⟨closed, run, h⟩ := ih
    rw [scanText, List.foldl_append]
    exact h.step c

theorem docTokens_scanText (text : Text) : (scanText text).docTokens = docWords text := by
  obtain ⟨closed, run, h⟩ := scanned_scanText text
  exact h.docTokens_eq

/-- The offset of a character is the index of the last word up to it. -/
theorem offsetAt_scanText (before after : Text) (hne : before ≠ []) :
    offsetAt (scanText (before ++ after)).charToWordOffset ((before.length : Int) - 1) =
      .ok (((docWords before).length : Int) - 1) := by
  obtain ⟨closed, run, h⟩ := scanned_scanText (before ++ after)
  have hpos : 0 < before.length := List.length_pos_of_ne_nil hne
  have hk : before.length - 1 < (before ++ after).length := by
    rw [List.length_append]
    omega
  have hoffset := h.offsets (before.length - 1) hk
  rw [Nat.sub_add_cancel hpos, List.take_left] at hoffset
  have hindex : ((before.length : Int) - 1).toNat = before.length - 1 := by omega
  have hnonneg : ¬ (before.length : Int) - 1 < 0 := by omega
  rw [offsetAt, if_neg hnonneg]
  simp only [if_neg hnonneg, hindex, hoffset]
  rfl

/-! ## An answer in its words -/

theorem joinWords_prefix (run w : Text) (ws : List Text) :
    joinWords ((run ++ w) :: ws) = run ++ joinWords (w :: ws) := by
  unfold joinWords
  cases ws with
  | nil => rw [List.intercalate_singleton, List.intercalate_singleton]
  | cons w' ws =>
    rw [List.intercalate_cons_cons, List.intercalate_cons_cons, List.append_assoc,
      List.append_assoc, List.append_assoc]

theorem joinWords_suffix (ws : List Text) (w x : Text) :
    joinWords (ws ++ [w ++ x]) = joinWords (ws ++ [w]) ++ x := by
  induction ws with
  | nil =>
    unfold joinWords
    rw [List.nil_append, List.nil_append, List.intercalate_singleton, List.intercalate_singleton]
  | cons w' ws ih =>
    unfold joinWords at ih ⊢
    obtain ⟨v, vs, hv⟩ := List.exists_cons_of_ne_nil (List.concat_ne_nil w ws)
    obtain ⟨v', vs', hv'⟩ := List.exists_cons_of_ne_nil (List.concat_ne_nil (w ++ x) ws)
    rw [List.cons_append, List.cons_append, hv, hv', List.intercalate_cons_cons,
      List.intercalate_cons_cons, ← hv, ← hv', ih, List.append_assoc, List.append_assoc,
      List.append_assoc]

/-- As many words as there are in a part that begins the text: its last word may go on. -/
theorem exists_take_wordsFrom (run : Text) (l l' : List (Option Char)) :
    (wordsFrom run l).length ≤ (wordsFrom run (l ++ l')).length ∧
      ∃ x, joinWords ((wordsFrom run (l ++ l')).take (wordsFrom run l).length) =
        joinWords (wordsFrom run l) ++ x := by
  obtain ⟨closed, rest, hclosed⟩ := exists_closed run l
  rw [hclosed l', wordsFrom_of_closed hclosed]
  by_cases hrest : rest = []
  · subst hrest
    rw [ended, List.append_nil, List.take_left, List.length_append]
    exact ⟨Nat.le_add_right _ _, [], (List.append_nil _).symm⟩
  · obtain ⟨x, ws, hgo⟩ := exists_wordsFrom l'
    have hlength : (closed ++ [rest]).length = (closed ++ [rest ++ x]).length := by
      rw [List.length_append, List.length_append, List.length_singleton, List.length_singleton]
    rw [ended_of_ne_nil hrest, hgo rest hrest, List.append_cons closed (rest ++ x), hlength,
      List.take_left, @List.length_append _ _ ws]
    exact ⟨Nat.le_add_right _ _, x, joinWords_suffix closed rest x⟩

/-- The words from the first one of a part of the text to its last one contain the part. -/
theorem isInfix_docWords (before after : Text) {c : Char} (rest : Text)
    (hc : isWhitespace c = false) :
    let ws := docWords (before ++ c :: rest ++ after)
    ∃ start len, (docWords (before ++ [c])).length = start + 1 ∧
      (docWords (before ++ c :: rest)).length = start + len + 1 ∧ start + len < ws.length ∧
      joinWords (docWords (c :: rest)) <:+: joinWords ((ws.take (start + len + 1)).drop start) := by
  dsimp only
  have hmark : wordMark c = some c := by rw [wordMark, hc, if_neg Bool.false_ne_true]
  obtain ⟨closed, run, hclosed⟩ := exists_closed [] (before.map wordMark)
  obtain ⟨x, ws, hx⟩ := exists_wordsFrom (rest.map wordMark)
  -- the words of the part, by itself and behind the run
  have hpart : docWords (c :: rest) = ([c] ++ x) :: ws := by
    rw [docWords, List.map_cons, hmark, words, wordsFrom]
    exact hx _ (List.concat_ne_nil c [])
  have hrun : wordsFrom run ((c :: rest).map wordMark) = (run ++ ([c] ++ x)) :: ws := by
    rw [List.map_cons, hmark, wordsFrom, hx _ (List.concat_ne_nil c run), List.append_assoc]
  have hfirst : docWords (before ++ [c]) = closed ++ [run ++ [c]] := by
    rw [docWords, words, List.map_append, hclosed, List.map_singleton, hmark, wordsFrom, wordsFrom,
      ended_of_ne_nil (List.concat_ne_nil c run)]
  have hlast : docWords (before ++ c :: rest) = closed ++ (run ++ ([c] ++ x)) :: ws := by
    rw [docWords, words, List.map_append, hclosed, hrun]
  have hall : docWords (before ++ c :: rest ++ after) =
      closed ++ wordsFrom run ((c :: rest).map wordMark ++ after.map wordMark) := by
    rw [docWords, words, List.map_append, List.map_append, List.append_assoc, hclosed]
  obtain ⟨hle, y, hy⟩ :=
    exists_take_wordsFrom run ((c :: rest).map wordMark) (after.map wordMark)
  rw [hrun, List.length_cons] at hle hy
  refine ⟨closed.length, ws.length, ?_, ?_, ?_, ?_⟩
  · rw [hfirst, List.length_append, List.length_singleton]
  · rw [hlast, List.length_append, List.length_cons, Nat.add_assoc]
  · rw [hall, List.length_append]
    exact Nat.add_lt_add_left hle _
  · rw [hall, Nat.add_assoc, List.take_length_add_append, List.drop_left, hy, hpart,
      joinWords_prefix run]
    exact ⟨run, y, rfl⟩

/-! ## Reading an answer -/

/-- The answer is the part of the text at the place that is given. It begins with a character of a
word, and `str.split` finds no other spaces in it than `is_whitespace`. -/
structure Annotated (context : Text) (answer : AnnotatedAnswer) : Prop where
  occurs : ∃ before after : Text, context = before ++ answer.text ++ after ∧
    answer.answerStart = before.length
  first : ∃ c rest, answer.text = c :: rest ∧ isWhitespace c = false
  spaces : ∀ c ∈ answer.text, isSpace c = true → isWhitespace c = true

/-- `is_whitespace` knows some of the spaces of Python. -/
theorem isSpace_of_isWhitespace {c : Char} (h : isWhitespace c = true) : isSpace c = true := by
  unfold isWhitespace at h
  simp only [Bool.or_eq_true, beq_iff_eq] at h
  rcases h with (((rfl | rfl) | rfl) | rfl) | h
  · decide
  · decide
  · decide
  · decide
  · unfold isSpace
    simp [h]

theorem whitespaceTokenize_eq_docWords {text : Text}
    (h : ∀ c ∈ text, isSpace c = true → isWhitespace c = true) :
    whitespaceTokenize text = docWords text := by
  rw [whitespaceTokenize_eq_words, docWords]
  refine congrArg words (List.map_congr_left fun c hc => ?_)
  have hsame : isSpace c = isWhitespace c :=
    Bool.eq_iff_iff.mpr ⟨h c hc, isSpace_of_isWhitespace⟩
  rw [spaceMark, wordMark, hsame]

/-- The words from `start` to `last` contain the answer. -/
structure InWords (ws : List Text) (text : Text) (start last : Nat) : Prop where
  start_le_last : start ≤ last
  last_lt : last < ws.length
  contains : joinWords (whitespaceTokenize text) <:+: joinWords ((ws.take (last + 1)).drop start)

/-- An answer that is annotated is found in its words. -/
theorem readAnswer_spec {context : Text} {answer : AnnotatedAnswer} (h : Annotated context answer) :
    ∃ start last : Nat, InWords (docWords context) answer.text start last ∧
      readAnswer (scanText context) answer = .ok (some ((start : Int), (last : Int))) := by
  obtain ⟨before, after, rfl, hstart⟩ := h.occurs
  obtain ⟨c, rest, htext, hc⟩ := h.first
  have hcleaned := whitespaceTokenize_eq_docWords h.spaces
  obtain ⟨text, answerStart⟩ := answer
  dsimp only at hstart htext hcleaned ⊢
  subst hstart htext
  obtain ⟨start, len, hfirst, hlast, hlt, hinfix⟩ := isInfix_docWords before after rest hc
  -- the offsets of the first and of the last character of the answer
  have hoffsetFirst : offsetAt (scanText (before ++ c :: rest ++ after)).charToWordOffset
      (before.length : Int) = .ok (start : Int) := by
    have hoffset := offsetAt_scanText (before ++ [c]) (rest ++ after) (List.concat_ne_nil c before)
    rw [List.append_assoc, List.singleton_append, ← List.cons_append, ← List.append_assoc, hfirst,
      List.length_append, List.length_singleton, Int.natCast_add, Int.natCast_add,
      Int.natCast_one, Int.add_sub_cancel, Int.add_sub_cancel] at hoffset
    exact hoffset
  have hoffsetLast : offsetAt (scanText (before ++ c :: rest ++ after)).charToWordOffset
      ((before.length : Int) + (c :: rest).length - 1) = .ok ((start + len : Nat) : Int) := by
    have hoffset := offsetAt_scanText (before ++ c :: rest) after
      (List.append_ne_nil_of_right_ne_nil before (List.cons_ne_nil c rest))
    rw [hlast, List.length_append, Int.natCast_add, Int.natCast_add (start + len), Int.natCast_one,
      Int.add_sub_cancel] at hoffset
    exact hoffset
  have hslice : wordSlice (docWords (before ++ c :: rest ++ after)) (start : Int)
      (((start + len : Nat) : Int) + 1) =
      ((docWords (before ++ c :: rest ++ after)).take (start + len + 1)).drop start := by
    have hbound : ∀ n k : Nat, sliceBound n (k : Int) = k := by
      intro n k
      rw [sliceBound, if_neg (Int.not_lt.mpr (Int.natCast_nonneg k)), Int.toNat_natCast]
    rw [wordSlice, hbound, ← Int.natCast_one, ← Int.natCast_add, hbound]
  obtain ⟨i, hi⟩ := exists_firstAt hinfix
  refine ⟨start, start + len, ⟨Nat.le_add_right _ _, hlt, hcleaned ▸ hinfix⟩, ?_⟩
  rw [readAnswer]
  dsimp only
  rw [hoffsetFirst, hoffsetLast, docTokens_scanText, hcleaned]
  dsimp only [bind, Except.bind]
  rw [hslice, find_eq_some_iff.mpr hi]
  rfl

/-- A space of Python that is no whitespace here is lost from the answer, not from the words. -/
example : readAnswer (scanText ['a', '\u00a0', 'b'])
    { text := ['a', '\u00a0', 'b'], answerStart := 0 } = .ok none := by
  rfl

/-! ## Reading the file -/

/-- A question of a training file that has one annotated answer, or is marked as impossible. -/
def Complete (version2WithNegative : Bool) (context : Text) (qa : QuestionAnswers) : Prop :=
  readImpossible version2WithNegative qa = .ok true ∨
    readImpossible version2WithNegative qa = .ok false ∧
      ∃ answer, qa.answers = [answer] ∧ Annotated context answer

/-- The example of a question: its answer is in the words that are given, or it is impossible. -/
structure ReadAs (version2WithNegative : Bool) (question : Text × QuestionAnswers)
    (e : SquadExample) : Prop where
  qasId : e.qasId = question.2.id
  questionText : e.questionText = question.2.question
  docTokens : e.docTokens = (docWords question.1).map String.ofList
  isImpossible : readImpossible version2WithNegative question.2 = .ok e.isImpossible
  answer : e.isImpossible = true ∧ e.startPosition = some (-1) ∧ e.endPosition = some (-1) ∨
    e.isImpossible = false ∧ ∃ answer ∈ question.2.answers, ∃ start last : Nat,
      e.origAnswerText = String.ofList answer.text ∧
      e.startPosition = some (start : Int) ∧ e.endPosition = some (last : Int) ∧
      InWords (docWords question.1) answer.text start last

theorem readQa_spec {version2WithNegative : Bool} {context : Text} {qa : QuestionAnswers}
    (h : Complete version2WithNegative context qa) :
    ∃ e, readQa true version2WithNegative (scanText context) qa = .ok (some e) ∧
      ReadAs version2WithNegative (context, qa) e := by
  have htokens := congrArg (List.map String.ofList) (docTokens_scanText context)
  rcases h with himpossible | ⟨hpossible, answer, hanswers, hannotated⟩
  · refine ⟨impossibleExample (scanText context) qa, ?_, rfl, rfl, htokens,
      himpossible, .inl ⟨rfl, rfl, rfl⟩⟩
    rw [readQa, if_pos rfl, himpossible]
    rfl
  · obtain ⟨start, last, hin, hread⟩ := readAnswer_spec hannotated
    refine ⟨answeredExample (scanText context) qa answer start last, ?_, rfl, rfl, htokens,
      hpossible, .inr ⟨rfl, answer, ?_, start, last, rfl, rfl, rfl, hin⟩⟩
    · rw [readQa, if_pos rfl, hpossible]
      dsimp only [bind, Except.bind]
      rw [if_neg Bool.false_ne_true, hanswers]
      dsimp only
      rw [hread]
      rfl
    · rw [hanswers]
      exact List.mem_singleton_self answer

theorem readQas_spec {version2WithNegative : Bool} {context : Text} {qas : List QuestionAnswers}
    (h : ∀ qa ∈ qas, Complete version2WithNegative context qa) :
    ∃ examples, readQas true version2WithNegative (scanText context) qas = .ok examples ∧
      List.Forall₂ (ReadAs version2WithNegative) (qas.map fun qa => (context, qa)) examples := by
  induction qas with
  | nil => exact ⟨[], rfl, .nil⟩
  | cons qa qas ih =>
    obtain ⟨hfirst, hothers⟩ := List.forall_mem_cons.mp h
    obtain ⟨e, hread, hreadAs⟩ := readQa_spec hfirst
    obtain ⟨examples, hloop, hall⟩ := ih hothers
    refine ⟨e :: examples, ?_, .cons hreadAs hall⟩
    rw [readQas, hread, hloop]
    rfl

/-- The questions of a file, each with the text of its paragraph. -/
def paragraphQuestions (paragraphs : List Paragraph) : List (Text × QuestionAnswers) :=
  paragraphs.flatMap fun paragraph => paragraph.qas.map fun qa => (paragraph.context, qa)

def questions (entries : List Entry) : List (Text × QuestionAnswers) :=
  entries.flatMap fun entry => paragraphQuestions entry.paragraphs

theorem readParagraphs_spec {version2WithNegative : Bool} {paragraphs : List Paragraph}
    (h : ∀ question ∈ paragraphQuestions paragraphs,
      Complete version2WithNegative question.1 question.2) :
    ∃ examples, readParagraphs true version2WithNegative paragraphs = .ok examples ∧
      List.Forall₂ (ReadAs version2WithNegative) (paragraphQuestions paragraphs) examples := by
  induction paragraphs with
  | nil => exact ⟨[], rfl, .nil⟩
  | cons paragraph paragraphs ih =>
    rw [paragraphQuestions, List.flatMap_cons, List.forall_mem_append] at h
    have hqas : ∀ qa ∈ paragraph.qas, Complete version2WithNegative paragraph.context qa :=
      fun qa hqa => h.1 (paragraph.context, qa) (List.mem_map_of_mem hqa)
    obtain ⟨read, hread, hfirst⟩ := readQas_spec hqas
    obtain ⟨examples, hloop, hall⟩ := ih h.2
    refine ⟨read ++ examples, ?_, List.rel_append hfirst hall⟩
    rw [readParagraphs, hread, hloop]
    rfl

/-- No example is skipped, and none is without its answer. -/
theorem readSquadExamples_spec {version2WithNegative : Bool} {entries : List Entry}
    (h : ∀ question ∈ questions entries, Complete version2WithNegative question.1 question.2) :
    ∃ examples, readSquadExamples true version2WithNegative entries = .ok examples ∧
      List.Forall₂ (ReadAs version2WithNegative) (questions entries) examples := by
  induction entries with
  | nil => exact ⟨[], rfl, .nil⟩
  | cons entry entries ih =>
    rw [questions, List.flatMap_cons, List.forall_mem_append] at h
    obtain ⟨read, hread, hfirst⟩ := readParagraphs_spec h.1
    obtain ⟨examples, hloop, hall⟩ := ih h.2
    refine ⟨read ++ examples, ?_, List.rel_append hfirst hall⟩
    rw [readSquadExamples, hread, hloop]
    rfl

/-! ## The features of a training file -/

theorem tokSpanOf_readAs (tokenize : String → List String) {version2WithNegative : Bool}
    {question : Text × QuestionAnswers} {e : SquadExample}
    (h : ReadAs version2WithNegative question e) :
    ∃ span, tokSpanOf tokenize true (indexDocTokens tokenize e.docTokens 0 {}) e =
      some (some span) := by
  rcases h.answer with ⟨himpossible, -, -⟩ |
    ⟨hpossible, answer, -, start, last, -, hstart, hlast, hin⟩
  · refine ⟨(-1, -1), ?_⟩
    rw [tokSpanOf, himpossible]
    rfl
  · have hlt : last < e.docTokens.length := by
      rw [h.docTokens, List.length_map]
      exact hin.last_lt
    obtain ⟨span, hspan, -⟩ := answerSpan_spec tokenize hstart hlast hin.start_le_last hlt
    refine ⟨span, ?_⟩
    rw [tokSpanOf, hpossible, hspan]
    rfl

/-- The vocabulary has ids for all tokens of the features: the special ones, and the pieces. -/
structure Tokenizer.Closed (tokenizer : Tokenizer) : Prop where
  cls : (tokenizer.vocab "[CLS]").isSome
  sep : (tokenizer.vocab "[SEP]").isSome
  pieces : ∀ text, ∀ piece ∈ tokenizer.tokenize text, (tokenizer.vocab piece).isSome

theorem Tokenizer.Closed.hasIds {tokenizer : Tokenizer} (h : tokenizer.Closed)
    (maxQueryLength : Nat) (e : SquadExample) (count : Nat) :
    HasIds tokenizer maxQueryLength e count := by
  intro token hmem
  simp only [List.cons_append, List.mem_cons, List.mem_append] at hmem
  rcases hmem with rfl | rfl | hquery | hdoc
  · exact h.cls
  · exact h.sep
  · exact h.pieces _ token (List.mem_of_mem_take hquery)
  · obtain ⟨word, -, hpiece⟩ := List.mem_flatMap.mp (List.mem_of_mem_take hdoc)
    exact h.pieces word token hpiece

/-- The tokenizer of `tokenization.py`, on strings. -/
def Tokenizer.ofFullTokenizer (full : Prep.FullTokenizer) : Tokenizer where
  tokenize text := (full.tokenize text.toList).map String.ofList
  vocab token := full.vocab.lookup token.toList

theorem vocab_ofFullTokenizer {full : Prep.FullTokenizer} {token : Prep.Token}
    (hmem : token ∈ full.vocab.keys) {s : String} (hs : s.toList = token) :
    ((Tokenizer.ofFullTokenizer full).vocab s).isSome := by
  subst hs
  obtain ⟨item, hitem, hkey⟩ := List.mem_map.mp hmem
  rw [Tokenizer.ofFullTokenizer, Option.isSome_iff_ne_none]
  exact fun hnone => bne_iff_ne.mp (List.lookup_eq_none_iff.mp hnone item hitem) hkey.symm

/-- It finds its pieces in the vocabulary. -/
theorem closed_ofFullTokenizer {full : Prep.FullTokenizer} (hUNK : Prep.UNK ∈ full.vocab.keys)
    (hCLS : Prep.CLS ∈ full.vocab.keys) (hSEP : Prep.SEP ∈ full.vocab.keys) :
    (Tokenizer.ofFullTokenizer full).Closed where
  cls := vocab_ofFullTokenizer hCLS rfl
  sep := vocab_ofFullTokenizer hSEP rfl
  pieces text := by
    have hpieces : ∀ piece ∈ (full.tokenize text.toList).map String.ofList,
        ((Tokenizer.ofFullTokenizer full).vocab piece).isSome :=
      List.forall_mem_map.mpr fun token htoken =>
        vocab_ofFullTokenizer (@Prep.mem_keys_of_mem_tokenize full hUNK text.toList token htoken)
          String.toList_ofList
    dsimp only [Tokenizer.ofFullTokenizer] at hpieces ⊢
    exact hpieces

/-- A training file whose answers are annotated is read without an exception, no question of it is
skipped, and all features of all examples are made, if the vocabulary has the tokens. -/
theorem readSquadExamples_converted {tokenizer : Tokenizer} (hclosed : tokenizer.Closed)
    {version2WithNegative : Bool} {entries : List Entry}
    (h : ∀ question ∈ questions entries, Complete version2WithNegative question.1 question.2)
    {maxSeqLength docStride maxQueryLength : Nat} (hmax : maxQueryLength + 4 ≤ maxSeqLength)
    (hstride : 1 ≤ docStride) (exampleIndex uniqueId : Nat) :
    ∃ examples features, readSquadExamples true version2WithNegative entries = .ok examples ∧
      List.Forall₂ (ReadAs version2WithNegative) (questions entries) examples ∧
      convertExamplesToFeatures tokenizer maxSeqLength docStride maxQueryLength true exampleIndex
        uniqueId examples = (features, true) ∧
      AllMade tokenizer maxSeqLength maxQueryLength true exampleIndex uniqueId examples
        features := by
  obtain ⟨examples, hread, hall⟩ := readSquadExamples_spec h
  have hspans := (List.forall₂_and_left ..).mp (hall.flip.imp fun e question hreadAs =>
    ⟨tokSpanOf_readAs tokenizer.tokenize hreadAs, hreadAs⟩)
  obtain ⟨features, hfeatures, hmade⟩ := convertExamplesToFeatures_spec
    (fun e hmem => (hspans.1 e hmem).elim fun span hspan => ⟨some span, hspan⟩)
    (fun e _ => hclosed.hasIds maxQueryLength e) hmax hstride exampleIndex uniqueId
  exact ⟨examples, features, hread, hall, hfeatures, hmade⟩

/-- A paragraph with a question whose answer is in the middle of it. -/
def annotatedEntry : Entry where
  paragraphs := [
    { context := ['a', '(', 'b', 'c', ' ', ' ', 'd', ')', ' ', 'e']
      qas := [
        { id := "q"
          question := "b"
          answers := [{ text := ['b', 'c', ' ', ' ', 'd'], answerStart := 2 }] }] }]

/-- Every word is one piece, and every piece has an id. -/
def wholeWords : Tokenizer where
  tokenize word := [word]
  vocab token := some token.length

theorem converted_annotatedEntry :
    ∃ examples features, readSquadExamples true false [annotatedEntry] = .ok examples ∧
      List.Forall₂ (ReadAs false) (questions [annotatedEntry]) examples ∧
      convertExamplesToFeatures wholeWords 16 4 8 true 0 1000000000 examples = (features, true) ∧
      AllMade wholeWords 16 8 true 0 1000000000 examples features := by
  refine readSquadExamples_converted ⟨rfl, rfl, fun _ _ _ => rfl⟩ ?_ (by decide) (by decide) 0
    1000000000
  intro question hquestion
  obtain rfl := List.mem_singleton.mp hquestion
  have hall : ['b', 'c', ' ', ' ', 'd'].all (fun c => !isSpace c || isWhitespace c) = true := rfl
  refine .inr ⟨rfl, _, rfl, ⟨['a', '('], [')', ' ', 'e'], rfl, rfl⟩, ⟨'b', _, rfl, rfl⟩, ?_⟩
  intro c hc hspace
  have hwhite := List.all_eq_true.mp hall c hc
  rwa [hspace, Bool.not_true, Bool.false_or] at hwhite

end FinBert.Squad
