import FinBert.Lib.OrderedDict
import FinBert.Prep.Instances
import Mathlib.Data.List.DropRight

/-!
# Tokenization

`src/data/prep/tokenization.py`: the vocabulary, `BasicTokenizer`, `WordpieceTokenizer`
and `FullTokenizer`. The tables of the Unicode database are an argument.

Results:
1. `mem_keys_of_mem_tokenize`: the tokenizer yields words of its vocabulary.
2. `nodup_values_loadVocab`: two words never have the same id.
-/

namespace FinBert.Prep

open Random

/-! ## Python's strings -/

/-- The general category of a character (`unicodedata.category`). -/
inductive GeneralCategory
  | Lu | Ll | Lt | Lm | Lo
  | Mn | Mc | Me
  | Nd | Nl | No
  | Pc | Pd | Ps | Pe | Pi | Pf | Po
  | Sm | Sc | Sk | So
  | Zs | Zl | Zp
  | Cc | Cf | Cs | Co | Cn
deriving DecidableEq

/-- `cat.startswith("P")`. -/
def GeneralCategory.isP : GeneralCategory → Bool
  | .Pc | .Pd | .Ps | .Pe | .Pi | .Pf | .Po => true
  | _ => false

/-- What the tokenizer takes from the Unicode database: the categories, `str.lower` and
the normal form NFD. -/
structure Unicode where
  category : Char → GeneralCategory
  lower : Text → Text
  nfd : Text → Text

/-- The characters that `str.strip` and `str.split` count as whitespace. -/
def isSpace (c : Char) : Bool :=
  let cp := c.toNat
  (0x9 ≤ cp && cp ≤ 0xd) || (0x1c ≤ cp && cp ≤ 0x20) || cp == 0x85 || cp == 0xa0 ||
    cp == 0x1680 || (0x2000 ≤ cp && cp ≤ 0x200a) || cp == 0x2028 || cp == 0x2029 ||
    cp == 0x202f || cp == 0x205f || cp == 0x3000

/-- `text.strip()`. -/
def strip (text : Text) : Text := (text.dropWhile isSpace).rdropWhile isSpace

/-- `text.split()`. -/
def split (text : Text) : List Text := (text.splitOnP isSpace).filter fun word => !word.isEmpty

/-- `whitespace_tokenize`. -/
def whitespaceTokenize (text : Text) : List Text :=
  let text := strip text
  if text.isEmpty then [] else split text

/-! ## The vocabulary -/

abbrev Vocab := OrderedDict Token Nat

/-- The lines that `readline` returns before the empty string that marks the end. -/
def readLines (file : List Text) : List Text := file.takeWhile fun line => !line.isEmpty

/-- The loop of `load_vocab`. -/
def loadVocabFrom (index : Nat) (vocab : Vocab) : List Text → Vocab
  | [] => vocab
  | line :: lines => loadVocabFrom (index + 1) (vocab.assign (strip line) index) lines

/-- `load_vocab`, from the lines of the file. -/
def loadVocab (file : List Text) : Vocab := loadVocabFrom 0 [] (readLines file)

/-- `convert_by_vocab`. -/
def convertByVocab {κ ν : Type} [DecidableEq κ] (vocab : OrderedDict κ ν) : List κ → Py (List ν)
  | [] => pure []
  | item :: items =>
    match vocab.lookup item with
    | none => throw .keyError
    | some value => do
      let output ← convertByVocab vocab items
      return value :: output

/-! ## `BasicTokenizer` -/

/-- The tests that the passes of `BasicTokenizer` make on a character. -/
structure CharTests where
  isControl : Char → Bool
  isWhitespace : Char → Bool
  isPunctuation : Char → Bool
  isChineseChar : Char → Bool

namespace CharTests

variable (tests : CharTests)

/-- `_clean_text`. -/
def cleanText : Text → Text
  | [] => []
  | c :: text =>
    if c.toNat == 0 || c.toNat == 0xfffd || tests.isControl c then cleanText text
    else if tests.isWhitespace c then ' ' :: cleanText text
    else c :: cleanText text

/-- `_tokenize_chinese_chars`. -/
def tokenizeChineseChars : Text → Text
  | [] => []
  | c :: text =>
    if tests.isChineseChar c then ' ' :: c :: ' ' :: tokenizeChineseChars text
    else c :: tokenizeChineseChars text

/-- The loop of `_run_split_on_punc`. -/
def splitOnPuncFrom (output : List Text) (startNewWord : Bool) : Text → List Text
  | [] => output
  | c :: text =>
    if tests.isPunctuation c then splitOnPuncFrom (output ++ [[c]]) true text
    else
      let output := if startNewWord then output ++ [[]] else output
      splitOnPuncFrom (appendToLast output c) false text

/-- `_run_split_on_punc`. -/
def runSplitOnPunc (text : Text) : List Text := tests.splitOnPuncFrom [] true text

/-- `BasicTokenizer.tokenize`, where `lowered` is what it does to a token before it splits it. -/
def basicTokenize (lowered : Text → Text) (text : Text) : List Text :=
  let origTokens := whitespaceTokenize (tests.tokenizeChineseChars (tests.cleanText text))
  let splitTokens := origTokens.flatMap fun token => tests.runSplitOnPunc (lowered token)
  whitespaceTokenize ([' '].intercalate splitTokens)

end CharTests

/-! ## The tests of a character -/

section
variable (unicode : Unicode)

/-- `_is_whitespace`. -/
def isWhitespace (c : Char) : Bool :=
  c == ' ' || c == '\t' || c == '\n' || c == '\r' || unicode.category c == .Zs

/-- `_is_control`. -/
def isControl (c : Char) : Bool :=
  if c == '\t' || c == '\n' || c == '\r' then false
  else unicode.category c == .Cc || unicode.category c == .Cf

/-- `_is_punctuation`. -/
def isPunctuation (c : Char) : Bool :=
  let cp := c.toNat
  (33 ≤ cp && cp ≤ 47) || (58 ≤ cp && cp ≤ 64) || (91 ≤ cp && cp ≤ 96) ||
    (123 ≤ cp && cp ≤ 126) || (unicode.category c).isP

/-- `_is_chinese_char`. -/
def isChineseChar (cp : Nat) : Bool :=
  (0x4E00 ≤ cp && cp ≤ 0x9FFF) || (0x3400 ≤ cp && cp ≤ 0x4DBF) ||
    (0x20000 ≤ cp && cp ≤ 0x2A6DF) || (0x2A700 ≤ cp && cp ≤ 0x2B73F) ||
    (0x2B740 ≤ cp && cp ≤ 0x2B81F) || (0x2B820 ≤ cp && cp ≤ 0x2CEAF) ||
    (0xF900 ≤ cp && cp ≤ 0xFAFF) || (0x2F800 ≤ cp && cp ≤ 0x2FA1F)

/-- The tests of `tokenization.py` on a character. -/
def Unicode.tests : CharTests where
  isControl := isControl unicode
  isWhitespace := isWhitespace unicode
  isPunctuation := isPunctuation unicode
  isChineseChar c := isChineseChar c.toNat

/-- `_run_strip_accents`. -/
def runStripAccents (text : Text) : Text :=
  (unicode.nfd text).filter fun c => unicode.category c != .Mn

/-- `BasicTokenizer.tokenize`. -/
def basicTokenize (doLowerCase : Bool) (text : Text) : List Text :=
  unicode.tests.basicTokenize
    (fun token => if doLowerCase then runStripAccents unicode (unicode.lower token) else token) text

end

/-! ## `WordpieceTokenizer` -/

/-- `max_input_chars_per_word`. -/
def maxInputCharsPerWord : Nat := 200

/-- `substr`, the candidate for a piece from `start` to `end_`. -/
def substrOf (chars : Text) (start end_ : Nat) : Token :=
  let substr := (chars.drop start).take (end_ - start)
  if 0 < start then "##".toList ++ substr else substr

/-- The inner loop: the longest piece of the vocabulary that begins at `start` and ends at
`end_` at the latest, and where it ends. -/
def longestMatch (vocab : Vocab) (chars : Text) (start : Nat) : Nat → Option (Token × Nat)
  | 0 => none
  | end_ + 1 =>
    if start < end_ + 1 then
      if substrOf chars start (end_ + 1) ∈ vocab.keys then
        some (substrOf chars start (end_ + 1), end_ + 1)
      else longestMatch vocab chars start end_
    else none

/-- The loop over the pieces of a word, none for a bad one. Each turn moves `start` on, so
that there are at most as many turns as characters. -/
def subTokensFrom (vocab : Vocab) (chars : Text) : Nat → Nat → Option (List Token)
  | 0, start => if start < chars.length then none else some []
  | turns + 1, start =>
    if start < chars.length then
      match longestMatch vocab chars start chars.length with
      | some (curSubstr, end_) => (subTokensFrom vocab chars turns end_).map (curSubstr :: ·)
      | none => none
    else some []

/-- The body of the loop of `WordpieceTokenizer.tokenize` over the words of its text. -/
def wordpieces (vocab : Vocab) (token : Text) : List Token :=
  if maxInputCharsPerWord < token.length then [UNK]
  else (subTokensFrom vocab token token.length 0).getD [UNK]

/-- `WordpieceTokenizer.tokenize`. -/
def wordpieceTokenize (vocab : Vocab) (text : Text) : List Token :=
  (whitespaceTokenize text).flatMap (wordpieces vocab)

/-! ## `FullTokenizer` -/

/-- `FullTokenizer`: the inverse vocabulary and the two tokenizers are made from these. -/
structure FullTokenizer where
  unicode : Unicode
  vocab : Vocab
  doLowerCase : Bool

namespace FullTokenizer

/-- `FullTokenizer.__init__`. -/
def create (unicode : Unicode) (vocabFile : List Text) (doLowerCase : Bool) : FullTokenizer where
  unicode := unicode
  vocab := loadVocab vocabFile
  doLowerCase := doLowerCase

def invVocab (tokenizer : FullTokenizer) : OrderedDict Nat Token := tokenizer.vocab.inverse

def tokenize (tokenizer : FullTokenizer) (text : Text) : List Token :=
  (basicTokenize tokenizer.unicode tokenizer.doLowerCase text).flatMap
    (wordpieceTokenize tokenizer.vocab)

def convertTokensToIds (tokenizer : FullTokenizer) (tokens : List Token) : Py (List Nat) :=
  convertByVocab tokenizer.vocab tokens

def convertIdsToTokens (tokenizer : FullTokenizer) (ids : List Nat) : Py (List Token) :=
  convertByVocab tokenizer.invVocab ids

end FullTokenizer

/-! ## Tokens are words of the vocabulary -/

section
variable {vocab : Vocab}

theorem longestMatch_mem {chars : Text} {start end_ end' : Nat} {piece : Token}
    (h : longestMatch vocab chars start end_ = some (piece, end')) : piece ∈ vocab.keys := by
  induction end_ with
  | zero => cases h
  | succ end_ ih =>
    unfold longestMatch at h
    split at h
    · split at h
      · next hmem =>
        obtain ⟨rfl, -⟩ := Prod.mk.inj (Option.some.inj h)
        exact hmem
      · exact ih h
    · cases h

theorem subTokensFrom_mem {chars : Text} {turns start : Nat} {pieces : List Token}
    (h : subTokensFrom vocab chars turns start = some pieces) :
    ∀ piece ∈ pieces, piece ∈ vocab.keys := by
  induction turns generalizing start pieces with
  | zero =>
    unfold subTokensFrom at h
    split at h
    · cases h
    · obtain rfl := Option.some.inj h
      exact fun piece hpiece => absurd hpiece List.not_mem_nil
  | succ turns ih =>
    unfold subTokensFrom at h
    split at h
    · split at h
      · next curSubstr end_ hmatch =>
        obtain ⟨rest, hrest, rfl⟩ := Option.map_eq_some_iff.mp h
        intro piece hpiece
        rcases List.mem_cons.mp hpiece with rfl | hpiece
        · exact longestMatch_mem hmatch
        · exact ih hrest piece hpiece
      · cases h
    · obtain rfl := Option.some.inj h
      exact fun piece hpiece => absurd hpiece List.not_mem_nil

theorem mem_keys_of_mem_wordpieces (hUNK : UNK ∈ vocab.keys) {word : Text} {token : Token}
    (h : token ∈ wordpieces vocab word) : token ∈ vocab.keys := by
  unfold wordpieces at h
  split at h
  · exact (List.mem_singleton.mp h) ▸ hUNK
  · cases hpieces : subTokensFrom vocab word word.length 0 with
    | none =>
      rw [hpieces] at h
      exact (List.mem_singleton.mp h) ▸ hUNK
    | some pieces =>
      rw [hpieces] at h
      exact subTokensFrom_mem hpieces token h

/-- The tokenizer yields pieces that it found in the vocabulary, and `[UNK]`. -/
theorem mem_keys_of_mem_tokenize {tokenizer : FullTokenizer} (hUNK : UNK ∈ tokenizer.vocab.keys)
    {text : Text} {token : Token} (h : token ∈ tokenizer.tokenize text) :
    token ∈ tokenizer.vocab.keys := by
  obtain ⟨split, -, hsplit⟩ := List.mem_flatMap.mp h
  obtain ⟨word, -, hword⟩ := List.mem_flatMap.mp hsplit
  exact mem_keys_of_mem_wordpieces hUNK hword

end

/-! ## Ids -/

/-- The ids that were given are below the next one, and none was given twice. -/
theorem loadVocabFrom_nodup {index : Nat} {vocab : Vocab} {lines : List Text}
    (hlt : ∀ item ∈ vocab, item.2 < index) (hnodup : vocab.values.Nodup) :
    (loadVocabFrom index vocab lines).values.Nodup := by
  induction lines generalizing index vocab with
  | nil => exact hnodup
  | cons line lines ih =>
    refine ih (fun item hitem => ?_) (OrderedDict.nodup_values_assign (fun hmem => ?_) hnodup)
    · rcases OrderedDict.mem_assign hitem with rfl | hitem
      · exact Nat.lt_succ_self index
      · exact Nat.lt_succ_of_lt (hlt item hitem)
    · obtain ⟨item, hitem, heq⟩ := List.mem_map.mp hmem
      exact absurd heq (hlt item hitem).ne

theorem nodup_values_loadVocab (file : List Text) : (loadVocab file).values.Nodup :=
  loadVocabFrom_nodup (fun _ hitem => absurd hitem List.not_mem_nil) List.nodup_nil

end FinBert.Prep
