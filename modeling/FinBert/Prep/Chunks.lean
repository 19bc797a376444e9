import FinBert.Lib.Substitution
import FinBert.Prep.Records
import Mathlib.Data.List.Chain

/-!
# From a corpus to documents

`to_chunk` of `src/data/prep/prep.py` writes a file with a sentence to a line and a blank
line between chunks; `create_training_instances` reads it line by line.

Results:
1. `collapsed_clean`: a cleaned chunk has single spaces only, and none at its ends.
2. `isCut_sentences`: the lines of a chunk.
3. `toChunk_readBack`: the file is read back as one group of lines for each chunk that is
   not empty after cleaning.
-/

namespace FinBert.Prep

open Substitution

/-! ## `to_chunk` -/

/-- `\r\n`, `\r`: the newlines that reading in text mode translates. -/
def carriageReturn : Text → Nat
  | '\r' :: '\n' :: _ => 2
  | '\r' :: _ => 1
  | _ => 0

/-- `open(file, 'rt').read()`, from the characters of the file. -/
def readText (file : Text) : Text := sub carriageReturn ['\n'] file

/-- `corpus.split('\n\n')`, behind the `chunk` that was read so far. -/
def splitChunks (chunk : Text) : Text → List Text
  | [] => [chunk]
  | '\n' :: '\n' :: corpus => chunk :: splitChunks [] corpus
  | c :: corpus => splitChunks (chunk ++ [c]) corpus

/-- `\n`. -/
def newline : Text → Nat
  | '\n' :: _ => 1
  | _ => 0

/-- `\s+`. -/
def spaceRun (text : Text) : Nat := (text.takeWhile isSpace).length

/-- `\s-+\s`. The run of dashes is as long as possible: a shorter one is followed by a dash. -/
def dashRun : Text → Nat
  | [] => 0
  | c :: text =>
    let dashes := (text.takeWhile (· == '-')).length
    if isSpace c && decide (0 < dashes) && (text.drop dashes).head?.any isSpace then dashes + 2
    else 0

/-- `'. '`. -/
def periodSpace : Text → Nat
  | '.' :: ' ' :: _ => 2
  | _ => 0

/-- The four steps that clean a chunk. -/
def cleanChunk (chunk : Text) : Text :=
  strip (sub dashRun [' '] (sub spaceRun [' '] (sub newline [' '] chunk)))

/-- The chunks that are longer than `minCharacterLen`, cleaned. -/
def cleanedChunks (minCharacterLen : Int) (corpus : Text) : List Text :=
  ((splitChunks [] corpus).filter fun chunk => minCharacterLen < chunk.length).map cleanChunk

/-- `c.replace('. ', '.\n')`. -/
def breakSentences (chunk : Text) : Text := sub periodSpace ['.', '\n'] chunk

/-- `to_chunk`: what it writes, from what is in its input file. -/
def toChunk (minCharacterLen : Int) (file : Text) : Text :=
  ['\n', '\n'].intercalate ((cleanedChunks minCharacterLen (readText file)).map breakSentences)

/-! ## Reading it back -/

/-- The lines that `readline` returns, each with its newline, behind a `line` that was begun. -/
def linesFrom (line : Text) : Text → List Text
  | [] => if line.isEmpty then [] else [line]
  | c :: text =>
    if c == '\n' then (line ++ [c]) :: linesFrom [] text else linesFrom (line ++ [c]) text

def fileLines (text : Text) : List Text := linesFrom [] text

/-- The loop of `create_training_instances` before the lines are tokenized. -/
def addGroupLine (groups : List (List Text)) (line : Text) : List (List Text) :=
  let line := strip line
  if line.isEmpty then groups ++ [[]] else appendToLast groups line

/-- The groups of lines that are not blank. -/
def readGroups (lines : List Text) : List (List Text) :=
  (lines.foldl addGroupLine [[]]).filter fun group => !group.isEmpty

/-- The lines of a group that have tokens. -/
def tokenizeGroup (tokenizer : FullTokenizer) (group : List Text) : Document :=
  (group.map tokenizer.tokenize).filter fun tokens => !tokens.isEmpty

/-- The documents that the groups are tokenized into. -/
def documentsOf (tokenizer : FullTokenizer) (groups : List (List Text)) : List Document :=
  (groups.map (tokenizeGroup tokenizer)).filter fun document => !document.isEmpty

/-! ## Whitespace -/

/-- No two whitespace characters in a row. -/
abbrev Apart (a b : Char) : Prop := ¬ (isSpace a = true ∧ isSpace b = true)

/-- The only whitespace is the single space. -/
structure Collapsed (text : Text) : Prop where
  space : ∀ c ∈ text, isSpace c = true → c = ' '
  apart : text.IsChain Apart

/-- A text that begins with whitespace only if `other` does. -/
def StartsLike (text other : Text) : Prop :=
  ∀ c ∈ text.head?, isSpace c = true → ∃ d ∈ other.head?, isSpace d = true

theorem StartsLike.not_space {text other : Text} (h : StartsLike text other)
    (hother : ∀ c ∈ other.head?, isSpace c = false) : ∀ c ∈ text.head?, isSpace c = false := by
  intro c hc
  by_contra hspace
  obtain ⟨d, hd, hspace'⟩ := h c hc (Bool.not_eq_false _ ▸ hspace)
  rw [hother d hd] at hspace'
  cases hspace'

theorem isChain_part {α : Type} {R : α → α → Prop} {xs part : List α} (h : xs.IsChain R)
    (hpart : part <:+: xs) : part.IsChain R := by
  obtain ⟨front, back, rfl⟩ := hpart
  exact h.left_of_append.right_of_append

theorem Collapsed.part {text part : Text} (h : Collapsed text) (hpart : part <:+: text) :
    Collapsed part :=
  ⟨fun c hc => h.space c (hpart.subset hc), isChain_part h.apart hpart⟩

theorem Collapsed.nil : Collapsed [] := ⟨fun _ hc => absurd hc List.not_mem_nil, .nil⟩

theorem Collapsed.cons {text : Text} {c : Char} (h : Collapsed text)
    (hc : isSpace c = true → c = ' ') (hapart : ∀ d ∈ text.head?, Apart c d) :
    Collapsed (c :: text) where
  space := by
    intro d hd
    rcases List.mem_cons.mp hd with rfl | hd
    · exact hc
    · exact h.space d hd
  apart := List.isChain_cons.mpr ⟨hapart, h.apart⟩

theorem Collapsed.cons_space {text : Text} (h : Collapsed text)
    (hstart : ∀ c ∈ text.head?, isSpace c = false) : Collapsed (' ' :: text) :=
  h.cons (fun _ => rfl) fun c hc hspaces => by
    rw [hstart c hc] at hspaces
    exact Bool.noConfusion hspaces.2

/-! ### `\s+` -/

theorem drop_length_takeWhile (p : Char → Bool) (text : Text) :
    text.drop (text.takeWhile p).length = text.dropWhile p := by
  have h : (text.takeWhile p ++ text.dropWhile p).drop (text.takeWhile p).length =
      text.dropWhile p := List.drop_left
  rwa [List.takeWhile_append_dropWhile] at h

theorem not_of_mem_head?_dropWhile {p : Char → Bool} {text : Text} :
    ∀ c ∈ (text.dropWhile p).head?, p c = false := by
  intro c hc
  have h := List.head?_dropWhile_not p text
  rw [Option.mem_def.mp hc] at h
  exact h

theorem not_space_of_spaceRun {c : Char} {text : Text} (h : spaceRun (c :: text) = 0) :
    isSpace c = false := by
  unfold spaceRun at h
  rw [List.takeWhile_cons] at h
  split at h
  · cases h
  · next hc => exact Bool.eq_false_iff.mpr hc

theorem space_of_spaceRun {c : Char} {text : Text} {n : Nat} (h : spaceRun (c :: text) = n + 1) :
    isSpace c = true ∧ ∀ d ∈ (text.drop n).head?, isSpace d = false := by
  unfold spaceRun at h
  rw [List.takeWhile_cons] at h
  split at h
  · next hc =>
    rw [← Nat.succ.inj h, drop_length_takeWhile]
    exact ⟨hc, not_of_mem_head?_dropWhile⟩
  · cases h

theorem collapsed_sub_spaceRun (text : Text) : Collapsed (sub spaceRun [' '] text) := by
  have hsub : ∀ text, Collapsed (sub spaceRun [' '] text) ∧
      StartsLike (sub spaceRun [' '] text) text := by
    refine sub_induction (motive := fun text out => Collapsed out ∧ StartsLike out text)
      ⟨Collapsed.nil, fun c hc => by cases hc⟩ ?_ ?_
    · rintro c text hzero ⟨hcollapsed, -⟩
      have hc := not_space_of_spaceRun hzero
      refine ⟨hcollapsed.cons (fun hspace => ?_) fun d _ hspaces => ?_, fun d hd hspace => ?_⟩
      · rw [hc] at hspace
        cases hspace
      · rw [hc] at hspaces
        exact Bool.noConfusion hspaces.1
      · exact ⟨d, hd, hspace⟩
    · rintro c text n hrun ⟨hcollapsed, hstart⟩
      obtain ⟨hc, hnext⟩ := space_of_spaceRun hrun
      exact ⟨hcollapsed.cons_space (hstart.not_space hnext), fun _ _ _ => ⟨c, rfl, hc⟩⟩
  exact (hsub text).1

/-! ### `\s-+\s` -/

theorem space_of_dashRun {c : Char} {text : Text} {n : Nat} (h : dashRun (c :: text) = n + 1) :
    isSpace c = true ∧ ∃ d, isSpace d = true ∧ d :: text.drop n <:+ text := by
  simp only [dashRun] at h
  split at h
  · next hmatch =>
    rw [Bool.and_eq_true, Bool.and_eq_true] at hmatch
    obtain ⟨⟨hc, -⟩, hany⟩ := hmatch
    cases hrest : text.drop (text.takeWhile (· == '-')).length with
    | nil =>
      rw [hrest] at hany
      cases hany
    | cons d rest =>
      rw [hrest] at hany
      refine ⟨hc, d, hany, ?_⟩
      have hdrop : text.drop n = rest := by
        rw [← Nat.succ.inj h, ← List.drop_drop, hrest]
        rfl
      rw [hdrop, ← hrest]
      exact List.drop_suffix _ text
  · cases h

/-- A dash run takes its whitespace with it, so that no two spaces come together. -/
theorem collapsed_sub_dashRun {text : Text} (h : Collapsed text) :
    Collapsed (sub dashRun [' '] text) := by
  have hsub : ∀ text, Collapsed text → Collapsed (sub dashRun [' '] text) ∧
      StartsLike (sub dashRun [' '] text) text := by
    refine sub_induction
      (motive := fun text out => Collapsed text → Collapsed out ∧ StartsLike out text)
      (fun h => ⟨h, fun c hc => by cases hc⟩) ?_ ?_
    · intro c text _ ih h
      obtain ⟨hcollapsed, hstart⟩ := ih (h.part (List.suffix_cons c text).isInfix)
      refine ⟨hcollapsed.cons (h.space c List.mem_cons_self) fun d hd hspaces => ?_,
        fun d hd hspace => ⟨d, hd, hspace⟩⟩
      obtain ⟨d', hd', hspace'⟩ := hstart d hd hspaces.2
      exact (List.isChain_cons.mp h.apart).1 d' hd' ⟨hspaces.1, hspace'⟩
    · intro c text n hrun ih h
      obtain ⟨hc, d, hd, hsuffix⟩ := space_of_dashRun hrun
      have hrest : Collapsed (d :: text.drop n) :=
        h.part (hsuffix.trans (List.suffix_cons c text)).isInfix
      obtain ⟨hcollapsed, hstart⟩ := ih (hrest.part (List.suffix_cons d _).isInfix)
      refine ⟨hcollapsed.cons_space (hstart.not_space fun e he => ?_), fun _ _ _ => ⟨c, rfl, hc⟩⟩
      by_contra hspace
      exact (List.isChain_cons.mp hrest.apart).1 e he ⟨hd, Bool.not_eq_false _ ▸ hspace⟩
  exact (hsub text h).1

/-! ### `strip` -/

/-- Neither end of the text is whitespace. -/
structure Stripped (text : Text) : Prop where
  head : ∀ c ∈ text.head?, isSpace c = false
  last : ∀ c ∈ text.getLast?, isSpace c = false

theorem isInfix_strip (text : Text) : strip text <:+: text :=
  (List.rdropWhile_prefix _ _).isInfix.trans (List.dropWhile_suffix _).isInfix

theorem stripped_strip (text : Text) : Stripped (strip text) where
  head := by
    intro c hc
    have hprefix : strip text <+: text.dropWhile isSpace := List.rdropWhile_prefix isSpace _
    obtain ⟨rest, hrest⟩ := hprefix
    refine @not_of_mem_head?_dropWhile isSpace text c ?_
    rw [← hrest, List.head?_append, Option.mem_def.mp hc]
    rfl
  last := by
    intro c hc
    have hne : strip text ≠ [] := by
      intro hnil
      rw [hnil] at hc
      cases hc
    have hlast := List.rdropWhile_last_not isSpace (text.dropWhile isSpace) hne
    rw [List.getLast?_eq_some_getLast hne] at hc
    obtain rfl := Option.some.inj hc
    exact Bool.eq_false_iff.mpr hlast

theorem Stripped.strip_eq {text : Text} (h : Stripped text) : strip text = text := by
  have hhead : text.dropWhile isSpace = text := by
    cases text with
    | nil => rfl
    | cons c text =>
      refine List.dropWhile_cons_of_neg ?_
      rw [h.head c rfl]
      exact Bool.false_ne_true
  unfold strip
  rw [hhead, List.rdropWhile_eq_self_iff]
  intro hne
  rw [h.last _ (List.getLast?_eq_some_getLast hne)]
  exact Bool.false_ne_true

/-- The newline at the end of a line does not matter. -/
theorem strip_concat_newline (line : Text) : strip (line ++ ['\n']) = strip line := by
  unfold strip
  rw [List.dropWhile_append]
  split
  · next hempty =>
    rw [List.isEmpty_iff.mp hempty]
    rfl
  · exact List.rdropWhile_concat_pos _ _ _ rfl

/-- A cleaned chunk. -/
structure Cleaned (chunk : Text) : Prop extends Collapsed chunk, Stripped chunk

theorem cleaned_cleanChunk (chunk : Text) : Cleaned (cleanChunk chunk) where
  toCollapsed := (collapsed_sub_dashRun (collapsed_sub_spaceRun _)).part (isInfix_strip _)
  toStripped := stripped_strip _

/-! ## Sentences -/

/-- A newline turned back into a space. -/
def unbreak (c : Char) : Char := if c == '\n' then ' ' else c

/-- Two characters in a row of a chunk that is broken into lines. -/
structure Follows (a b : Char) : Prop where
  apart : Apart a b
  uncut : ¬ (a = '.' ∧ b = ' ')
  period : b = '\n' → a = '.'

theorem Collapsed.not_newline {text : Text} (h : Collapsed text) {c : Char} (hc : c ∈ text) :
    c ≠ '\n' := by
  rintro rfl
  exact absurd (h.space '\n' hc rfl) (by decide)

/-- What breaking a chunk does: it turns the spaces behind periods into newlines. -/
structure Broken (chunk lines : Text) : Prop where
  restored : lines.map unbreak = chunk
  head : lines.head? = chunk.head?
  follows : lines.IsChain Follows

theorem periodSpace_eq_succ {c : Char} {text : Text} {n : Nat}
    (h : periodSpace (c :: text) = n + 1) : c = '.' ∧ n = 1 ∧ text = ' ' :: text.drop 1 := by
  unfold periodSpace at h
  split at h
  · next rest heq =>
    obtain ⟨rfl, rfl⟩ := List.cons_eq_cons.mp heq
    exact ⟨rfl, (Nat.succ.inj h).symm, rfl⟩
  · cases h

theorem broken_breakSentences {chunk : Text} (h : Collapsed chunk) :
    Broken chunk (breakSentences chunk) := by
  unfold breakSentences
  refine sub_induction (motive := fun chunk lines => Collapsed chunk → Broken chunk lines)
    (fun _ => ⟨rfl, rfl, .nil⟩) ?_ ?_ chunk h
  · intro c text hzero ih h
    have htext := h.part (List.suffix_cons c text).isInfix
    obtain ⟨hrestored, hhead, hfollows⟩ := ih htext
    refine ⟨?_, rfl, List.isChain_cons.mpr ⟨fun d hd => ?_, hfollows⟩⟩
    · rw [List.map_cons, hrestored, unbreak, if_neg]
      exact fun hc => h.not_newline List.mem_cons_self (eq_of_beq hc)
    · rw [hhead] at hd
      refine ⟨(List.isChain_cons.mp h.apart).1 d hd, ?_, fun hnewline => ?_⟩
      · rintro ⟨rfl, rfl⟩
        cases text with
        | nil => cases hd
        | cons d text =>
          obtain rfl := Option.some.inj hd
          cases hzero
      · exact absurd hnewline (htext.not_newline (List.mem_of_mem_head? hd))
  · intro c text n hmatch ih h
    obtain ⟨rfl, rfl, htext⟩ := periodSpace_eq_succ hmatch
    rw [htext] at h
    have hspace := h.part (List.suffix_cons '.' _).isInfix
    have hrest := hspace.part (List.suffix_cons ' ' _).isInfix
    obtain ⟨hrestored, hhead, hfollows⟩ := ih hrest
    refine ⟨?_, rfl, ?_⟩
    · rw [List.map_append, hrestored, htext]
      rfl
    · refine List.isChain_cons.mpr ⟨fun d hd => ?_, List.isChain_cons.mpr ⟨fun d hd => ?_,
        hfollows⟩⟩
      · obtain rfl := Option.some.inj hd
        exact ⟨by decide, by decide, fun _ => rfl⟩
      · have hd' : d ∈ (text.drop 1).head? := hhead ▸ hd
        have hapart := (List.isChain_cons.mp hspace.apart).1 d hd'
        refine ⟨fun hspaces => hapart ⟨rfl, hspaces.2⟩, fun h => ?_, fun hnewline => ?_⟩
        · exact absurd h.1 (by decide)
        · exact absurd hnewline (hrest.not_newline (List.mem_of_mem_head? hd'))

/-- The lines of a chunk: joined by spaces they are the chunk, and it is cut behind every
period that a space follows, and nowhere else. -/
structure IsCut (chunk : Text) (lines : List Text) : Prop where
  joined : [' '].intercalate lines = chunk
  period : ∀ line ∈ lines.dropLast, line.getLast? = some '.'
  uncut : ∀ line ∈ lines, ¬ ['.', ' '] <:+: line

/-- A line that reading keeps as it is. -/
structure IsLine (line : Text) : Prop extends Stripped line where
  ne_nil : line ≠ []
  noNewline : '\n' ∉ line

theorem Broken.ne_nil_iff {chunk lines : Text} (h : Broken chunk lines) :
    lines ≠ [] ↔ chunk ≠ [] := by
  rw [← h.restored, Ne, Ne, List.map_eq_nil_iff]

theorem map_unbreak {line : Text} (h : '\n' ∉ line) : line.map unbreak = line := by
  refine (List.map_congr_left fun c hc => ?_).trans (List.map_id line)
  have hc' : ¬ (c == '\n') = true := fun heq => h (eq_of_beq heq ▸ hc)
  rw [unbreak, if_neg hc', id]

theorem not_space_of_follows {line : Text} (h : ('\n' :: line).IsChain Follows) :
    ∀ c ∈ line.head?, isSpace c = false := by
  intro c hc
  by_contra hspace
  exact ((List.isChain_cons.mp h).1 c hc).apart ⟨rfl, Bool.not_eq_false _ ▸ hspace⟩

theorem uncut_of_follows {line : Text} (h : ('\n' :: line).IsChain Follows) :
    ¬ ['.', ' '] <:+: line := fun hpart =>
  ((List.isChain_cons.mp (isChain_part h.tail hpart)).1 ' ' rfl).uncut ⟨rfl, rfl⟩

/-- The lines of a text that starts behind a newline and is broken as `Follows` says. -/
theorem isCut_splitOn {text : Text} (hfollows : ('\n' :: text).IsChain Follows) (hne : text ≠ [])
    (hlast : ∀ c ∈ text.getLast?, isSpace c = false) :
    IsCut (text.map unbreak) (text.splitOn '\n') ∧ ∀ line ∈ text.splitOn '\n', IsLine line := by
  refine splitOn_induction '\n' (motive := fun text lines => ('\n' :: text).IsChain Follows →
    text ≠ [] → (∀ c ∈ text.getLast?, isSpace c = false) →
    IsCut (text.map unbreak) lines ∧ ∀ line ∈ lines, IsLine line) ?_ ?_ text hfollows hne hlast
  · intro line hnewline hfollows hne hlast
    refine ⟨⟨?_, fun line hline => absurd hline List.not_mem_nil, fun line' hline' => ?_⟩,
      fun line' hline' => ?_⟩
    · rw [List.intercalate_singleton, map_unbreak hnewline]
    · rw [List.mem_singleton.mp hline']
      exact uncut_of_follows hfollows
    · rw [List.mem_singleton.mp hline']
      exact ⟨⟨not_space_of_follows hfollows, hlast⟩, hne, hnewline⟩
  · intro line rest hnewline ih hfollows _ hlast
    have hline : ('\n' :: line).IsChain Follows := hfollows.prefix ⟨'\n' :: rest, rfl⟩
    have hrest : ('\n' :: rest).IsChain Follows := hfollows.suffix ⟨'\n' :: line, rfl⟩
    have hend : ∀ c ∈ line.getLast?, Follows c '\n' := fun c hc =>
      (List.isChain_append.mp hfollows.tail).2.2 c hc '\n' rfl
    have hlineNe : line ≠ [] := by
      rintro rfl
      exact ((List.isChain_cons.mp hfollows).1 '\n' rfl).apart ⟨rfl, rfl⟩
    have hrestNe : rest ≠ [] := by
      rintro rfl
      exact absurd (hlast '\n' (by rw [List.getLast?_concat]; rfl)) (by decide)
    have hrestLast : ∀ c ∈ rest.getLast?, isSpace c = false := by
      intro c hc
      refine hlast c ?_
      rw [List.getLast?_append, List.getLast?_cons, Option.mem_def.mp hc]
      rfl
    obtain ⟨hcut, hlines⟩ := ih hrest hrestNe hrestLast
    refine ⟨⟨?_, fun line' hline' => ?_, fun line' hline' => ?_⟩, fun line' hline' => ?_⟩
    · rw [List.intercalate_cons_of_ne_nil (List.splitOn_ne_nil _ _), hcut.joined, List.map_append,
        map_unbreak hnewline, List.append_assoc]
      rfl
    · rw [List.dropLast_cons_of_ne_nil (List.splitOn_ne_nil _ _)] at hline'
      rcases List.mem_cons.mp hline' with rfl | hline'
      · have hget := List.getLast?_eq_some_getLast hlineNe
        rw [hget, (hend _ hget).period rfl]
      · exact hcut.period line' hline'
    · rcases List.mem_cons.mp hline' with rfl | hline'
      · exact uncut_of_follows hline
      · exact hcut.uncut line' hline'
    · rcases List.mem_cons.mp hline' with rfl | hline'
      · refine ⟨⟨not_space_of_follows hline, fun c hc => ?_⟩, hlineNe, hnewline⟩
        exact Bool.eq_false_iff.mpr fun hspace => (hend c hc).apart ⟨hspace, rfl⟩
      · exact hlines line' hline'

/-- The lines that a cleaned chunk is written as. -/
def sentences (chunk : Text) : List Text := (breakSentences chunk).splitOn '\n'

theorem isCut_sentences {chunk : Text} (h : Cleaned chunk) (hne : chunk ≠ []) :
    IsCut chunk (sentences chunk) ∧ ∀ line ∈ sentences chunk, IsLine line := by
  have hbroken := broken_breakSentences h.toCollapsed
  have hfollows : ('\n' :: breakSentences chunk).IsChain Follows := by
    refine List.isChain_cons.mpr ⟨fun c hc => ?_, hbroken.follows⟩
    rw [hbroken.head] at hc
    refine ⟨fun hspaces => ?_, fun heq => absurd heq.1 (by decide), fun hnewline => ?_⟩
    · rw [h.head c hc] at hspaces
      exact Bool.noConfusion hspaces.2
    · exact absurd hnewline (h.not_newline (List.mem_of_mem_head? hc))
  have hlast : ∀ c ∈ (breakSentences chunk).getLast?, isSpace c = false := by
    intro c hc
    have hc' : unbreak c ∈ chunk.getLast? := by
      rw [← hbroken.restored, List.getLast?_map, Option.mem_def.mp hc]
      rfl
    have hspace := h.last _ hc'
    unfold unbreak at hspace
    split at hspace
    · cases hspace
    · exact hspace
  have hcut := isCut_splitOn hfollows (hbroken.ne_nil_iff.mpr hne) hlast
  rwa [hbroken.restored] at hcut

/-! ## Reading the file -/

theorem foldl_lines {lines : List Text} (h : ∀ line ∈ lines, IsLine line)
    (groups : List (List Text)) (group : List Text) :
    lines.foldl addGroupLine (groups ++ [group]) = groups ++ [group ++ lines] := by
  induction lines generalizing group with
  | nil => rw [List.append_nil]; rfl
  | cons line lines ih =>
    have hline := h line List.mem_cons_self
    have hstep : addGroupLine (groups ++ [group]) line = groups ++ [group ++ [line]] := by
      unfold addGroupLine
      simp only [hline.strip_eq, List.isEmpty_eq_false_iff.mpr hline.ne_nil, Bool.false_eq_true,
        if_false, appendToLast_concat]
    rw [List.foldl_cons, hstep, ih fun line' hline' => h line' (List.mem_cons_of_mem line hline'),
      List.append_assoc, List.singleton_append]

/-- The groups that are not empty. -/
def nonempty (groups : List (List Text)) : List (List Text) :=
  groups.filter fun group => !group.isEmpty

theorem nonempty_concat_nil (groups : List (List Text)) :
    nonempty (groups ++ [[]]) = nonempty groups := by
  unfold nonempty
  rw [List.filter_append]
  exact List.append_nil _

theorem nonempty_append (groups groups' : List (List Text)) :
    nonempty (groups ++ groups') = nonempty groups ++ nonempty groups' :=
  List.filter_append _ _

/-- The chunks that are written as lines. -/
def chunkLines (chunks : List Text) : List (List Text) :=
  (chunks.filter fun chunk => !chunk.isEmpty).map sentences

theorem blank_line (groups : List (List Text)) : addGroupLine groups [] = groups ++ [[]] := rfl

theorem nonempty_foldl_sentences {chunk : Text} (h : Cleaned chunk) (groups : List (List Text)) :
    nonempty ((sentences chunk).foldl addGroupLine (groups ++ [[]])) =
      nonempty groups ++ chunkLines [chunk] := by
  by_cases hnil : chunk = []
  · rw [hnil]
    have hblank : sentences [] = [[]] := rfl
    rw [hblank, List.foldl_cons, blank_line, List.foldl_nil, nonempty_concat_nil,
      nonempty_concat_nil]
    exact (List.append_nil _).symm
  · obtain ⟨-, hlines⟩ := isCut_sentences h hnil
    have hne : sentences chunk ≠ [] := List.splitOn_ne_nil _ _
    have hkept : nonempty [sentences chunk] = [sentences chunk] := by simp [nonempty, hne]
    have hwritten : chunkLines [chunk] = [sentences chunk] := by simp [chunkLines, hnil]
    rw [foldl_lines hlines, List.nil_append, nonempty_append, hkept, hwritten]

/-- The lines of the chunks, with a blank line between two chunks. -/
theorem nonempty_foldl_chunks {chunks : List Text} (h : ∀ chunk ∈ chunks, Cleaned chunk)
    (groups : List (List Text)) :
    nonempty ((['\n', '\n'].intercalate (chunks.map breakSentences)).splitOn '\n' |>.foldl
        addGroupLine (groups ++ [[]])) = nonempty groups ++ chunkLines chunks := by
  induction chunks generalizing groups with
  | nil =>
    rw [List.map_nil, List.intercalate_nil, List.splitOn_nil, List.foldl_cons, blank_line,
      List.foldl_nil, nonempty_concat_nil, nonempty_concat_nil]
    exact (List.append_nil _).symm
  | cons chunk chunks ih =>
    have hchunk := h chunk List.mem_cons_self
    have hchunks : ∀ chunk ∈ chunks, Cleaned chunk :=
      fun chunk' hmem => h chunk' (List.mem_cons_of_mem chunk hmem)
    cases chunks with
    | nil =>
      rw [List.map_singleton, List.intercalate_singleton]
      exact nonempty_foldl_sentences hchunk groups
    | cons chunk' chunks =>
      have hsplit : ∀ rest, (breakSentences chunk ++ ['\n', '\n'] ++ rest).splitOn '\n' =
          sentences chunk ++ [] :: rest.splitOn '\n' := fun rest => by
        rw [List.append_assoc, List.cons_append, List.splitOn_append_cons_self]
        exact congrArg _ (List.splitOn_append_cons_self [] rest)
      rw [List.map_cons, List.map_cons, List.intercalate_cons_cons, hsplit, List.foldl_append,
        List.foldl_cons, blank_line]
      refine (ih hchunks _).trans ?_
      rw [nonempty_foldl_sentences hchunk, List.append_assoc]
      unfold chunkLines
      rw [← List.map_append, ← List.filter_append, List.singleton_append]

/-- Reading lines makes no difference between a line and its newline. -/
theorem nonempty_foldl_linesFrom {line : Text} (hline : '\n' ∉ line) (text : Text)
    (groups : List (List Text)) :
    nonempty ((linesFrom line text).foldl addGroupLine groups) =
      nonempty (((line ++ text).splitOn '\n').foldl addGroupLine groups) := by
  induction text generalizing line groups with
  | nil =>
    rw [List.append_nil, List.splitOn_eq_singleton hline, linesFrom]
    split
    · next hempty =>
      rw [List.isEmpty_iff.mp hempty, List.foldl_cons, blank_line]
      exact (nonempty_concat_nil groups).symm
    · rfl
  | cons c text ih =>
    rw [linesFrom]
    split
    · next hc =>
      obtain rfl := eq_of_beq hc
      have hstrip : addGroupLine groups (line ++ ['\n']) = addGroupLine groups line := by
        unfold addGroupLine
        rw [strip_concat_newline]
      rw [List.splitOn_append_cons_self_of_not_mem hline, List.foldl_cons, List.foldl_cons, hstrip]
      exact ih List.not_mem_nil _
    · next hc =>
      have hline' : '\n' ∉ line ++ [c] := by
        rw [List.mem_append, List.mem_singleton, not_or]
        exact ⟨hline, fun heq => hc (beq_iff_eq.mpr heq.symm)⟩
      rw [ih hline', List.append_assoc, List.singleton_append]

theorem readGroups_toChunk (minCharacterLen : Int) (file : Text) :
    readGroups (fileLines (toChunk minCharacterLen file)) =
      chunkLines (cleanedChunks minCharacterLen (readText file)) := by
  have hcleaned : ∀ chunk ∈ cleanedChunks minCharacterLen (readText file), Cleaned chunk := by
    intro chunk hmem
    obtain ⟨piece, -, rfl⟩ := List.mem_map.mp hmem
    exact cleaned_cleanChunk piece
  exact (nonempty_foldl_linesFrom List.not_mem_nil _ _).trans (nonempty_foldl_chunks hcleaned [])

/-! ## The documents -/

theorem linesFrom_ne_nil (line text : Text) : ∀ line' ∈ linesFrom line text, line' ≠ [] := by
  induction text generalizing line with
  | nil =>
    intro line' hmem
    rw [linesFrom] at hmem
    split at hmem
    · cases hmem
    · next hne =>
      rw [List.mem_singleton.mp hmem]
      exact fun hnil => hne (List.isEmpty_iff.mpr hnil)
  | cons c text ih =>
    intro line' hmem
    rw [linesFrom] at hmem
    split at hmem
    · rcases List.mem_cons.mp hmem with rfl | hmem
      · exact List.concat_ne_nil _ _
      · exact ih [] line' hmem
    · exact ih _ line' hmem

theorem readLines_fileLines (text : Text) : readLines (fileLines text) = fileLines text := by
  refine List.takeWhile_eq_self_iff.mpr fun line hmem => ?_
  rw [List.isEmpty_eq_false_iff.mpr (linesFrom_ne_nil [] text line hmem)]
  rfl

theorem whitespaceTokenize_nil : whitespaceTokenize [] = [] := rfl

theorem tokenize_nil (tokenizer : FullTokenizer) : tokenizer.tokenize [] = [] := by
  have hclean : tokenizer.unicode.tests.tokenizeChineseChars
      (tokenizer.unicode.tests.cleanText []) = [] := rfl
  have hjoined : [' '].intercalate ([] : List Text) = [] := rfl
  unfold FullTokenizer.tokenize basicTokenize CharTests.basicTokenize
  simp only [hclean, whitespaceTokenize_nil, List.flatMap_nil, hjoined]

/-- Tokenizing the groups is what the loop over the lines does. -/
theorem addLine_map (tokenizer : FullTokenizer) {groups : List (List Text)} (hne : groups ≠ [])
    (line : Text) :
    addLine tokenizer (groups.map (tokenizeGroup tokenizer)) line =
        (addGroupLine groups line).map (tokenizeGroup tokenizer) ∧
      addGroupLine groups line ≠ [] := by
  obtain ⟨init, group, rfl⟩ := List.eq_nil_or_concat' groups |>.resolve_left hne
  unfold addLine addGroupLine
  by_cases hblank : strip line = []
  · simp [hblank, tokenize_nil, tokenizeGroup]
  · simp only [List.isEmpty_eq_false_iff.mpr hblank, Bool.false_eq_true, if_false,
      appendToLast_concat, List.map_append, List.map_singleton]
    refine ⟨?_, List.concat_ne_nil _ _⟩
    split
    · next hempty => simp [tokenizeGroup, List.filter_append, hempty]
    · next hempty => simp [tokenizeGroup, List.filter_append, hempty]

theorem foldl_addLine (tokenizer : FullTokenizer) (lines : List Text) {groups : List (List Text)}
    (hne : groups ≠ []) :
    lines.foldl (addLine tokenizer) (groups.map (tokenizeGroup tokenizer)) =
      (lines.foldl addGroupLine groups).map (tokenizeGroup tokenizer) := by
  induction lines generalizing groups with
  | nil => rfl
  | cons line lines ih =>
    obtain ⟨hstep, hne'⟩ := addLine_map tokenizer hne line
    rw [List.foldl_cons, List.foldl_cons, hstep, ih hne']

/-- An empty group makes no document. -/
theorem documentsOf_nonempty (tokenizer : FullTokenizer) (groups : List (List Text)) :
    documentsOf tokenizer (nonempty groups) = documentsOf tokenizer groups := by
  unfold documentsOf nonempty
  rw [List.filter_map, List.filter_map, List.filter_filter]
  congr 1
  refine List.filter_congr fun group _ => ?_
  cases group with
  | nil => rfl
  | cons line group => exact Bool.and_true _

theorem readDocuments_fileLines (tokenizer : FullTokenizer) (text : Text) :
    readDocuments tokenizer [fileLines text] =
      documentsOf tokenizer (readGroups (fileLines text)) := by
  have hfold := foldl_addLine tokenizer (fileLines text) (List.cons_ne_nil [] [])
  refine Eq.trans ?_ (documentsOf_nonempty tokenizer _).symm
  unfold readDocuments documentsOf
  rw [List.flatMap_singleton, readLines_fileLines]
  exact congrArg _ hfold

/-- The file that `to_chunk` writes is read back as one group of lines for each chunk that is
not empty after cleaning, in their order. -/
theorem toChunk_readBack (minCharacterLen : Int) (file : Text) (tokenizer : FullTokenizer) :
    List.Forall₂ (fun chunk lines => IsCut chunk lines ∧ ∀ line ∈ lines, IsLine line)
        ((cleanedChunks minCharacterLen (readText file)).filter fun chunk => !chunk.isEmpty)
        (readGroups (fileLines (toChunk minCharacterLen file))) ∧
      readDocuments tokenizer [fileLines (toChunk minCharacterLen file)] =
        documentsOf tokenizer (readGroups (fileLines (toChunk minCharacterLen file))) := by
  refine ⟨?_, readDocuments_fileLines tokenizer _⟩
  rw [readGroups_toChunk, chunkLines, List.forall₂_map_right_iff, List.forall₂_same]
  intro chunk hmem
  obtain ⟨hmem, hne⟩ := List.mem_filter.mp hmem
  obtain ⟨piece, -, rfl⟩ := List.mem_map.mp hmem
  refine isCut_sentences (cleaned_cleanChunk piece) fun hnil => ?_
  rw [hnil] at hne
  cases hne

/-- A chunk that is too short, and one of which nothing is left. -/
example : toChunk 2 "One. Two -- three.\r\n\r\nx\n\n - \n\nFour".toList =
    "One.\nTwo three.\n\n\n\nFour".toList := by decide

end FinBert.Prep
