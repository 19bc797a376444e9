import FinBert.Lib.Substitution
import FinBert.Prep.Tokenization

/-!
# From the tokens of an answer to its text

`get_final_text` (`run_squad.py`) looks for the tokens of a prediction in the text of the document
that they come from, and cuts out of this text what they stand for. Where the two cannot be aligned
it takes all of the text.

* `detokenize`: the text of the tokens, with their pieces put together.
* `getFinalText`: the function.
* `getFinalText_infix`: what it returns is a part of the text of the document.
-/

namespace FinBert.Squad

open Prep (Text Unicode strip split basicTokenize)

/-! ## Strings -/

/-- `text.replace(old, "")`, for a text `old` that is not empty. -/
def remove (old text : Text) : Text :=
  Substitution.sub (fun text => if old.isPrefixOf text then old.length else 0) [] text

/-- `text.find(part)`, which is missing in place of `-1`. -/
def find (part : Text) : Text → Option Nat
  | [] => if part.isEmpty then some 0 else none
  | c :: text =>
    if part.isPrefixOf (c :: text) then some 0 else (find part text).map (· + 1)

/-- `" ".join(words)`. -/
def joinWords (words : List Text) : Text := [' '].intercalate words

/-- `tok_text` of the loop over the predictions: pieces are put together again, and whitespace is
cleaned. -/
def detokenize (tokTokens : List Text) : Text :=
  let tokText := joinWords tokTokens
  let tokText := remove " ##".toList tokText
  let tokText := remove "##".toList tokText
  let tokText := strip tokText
  joinWords (split tokText)

/-! ## The projection -/

/-- The loop of `_strip_spaces`, from the index `i` on. -/
def stripSpacesFrom : Nat → Text → Text → OrderedDict Nat Nat → Text × OrderedDict Nat Nat
  | _, [], nsChars, nsToSMap => (nsChars, nsToSMap)
  | i, c :: text, nsChars, nsToSMap =>
    if c = ' ' then stripSpacesFrom (i + 1) text nsChars nsToSMap
    else stripSpacesFrom (i + 1) text (nsChars ++ [c]) (nsToSMap.assign nsChars.length i)

/-- `_strip_spaces`. -/
def stripSpaces (text : Text) : Text × OrderedDict Nat Nat := stripSpacesFrom 0 text [] []

/-- `orig_start_position` and `orig_end_position`, from the position in the text of the tokens. -/
def origPosition (tokSToNsMap : OrderedDict Int Nat) (origNsToSMap : OrderedDict Nat Nat)
    (position : Int) : Option Nat := do
  let nsPosition ← tokSToNsMap.lookup position
  origNsToSMap.lookup nsPosition

/-- `tok_s_to_ns_map`. -/
def tokSToNs (tokNsToSMap : OrderedDict Nat Nat) : OrderedDict Int Nat :=
  tokNsToSMap.foldl (fun tokSToNsMap item => tokSToNsMap.assign (item.2 : Int) item.1) []

/-- `get_final_text`, behind the place where the prediction was found. -/
def projectText (tokText predText origText : Text) (startPosition : Nat) : Text :=
  let endPosition : Int := startPosition + predText.length - 1
  let (origNsText, origNsToSMap) := stripSpaces origText
  let (tokNsText, tokNsToSMap) := stripSpaces tokText
  if origNsText.length ≠ tokNsText.length then origText
  else
    match origPosition (tokSToNs tokNsToSMap) origNsToSMap startPosition with
    | none => origText
    | some origStartPosition =>
      match origPosition (tokSToNs tokNsToSMap) origNsToSMap endPosition with
      | none => origText
      | some origEndPosition =>
        (origText.drop origStartPosition).take (origEndPosition + 1 - origStartPosition)

/-- `get_final_text`. -/
def getFinalText (unicode : Unicode) (predText origText : Text) (doLowerCase : Bool) : Text :=
  let tokText := joinWords (basicTokenize unicode doLowerCase origText)
  match find predText tokText with
  | none => origText
  | some startPosition => projectText tokText predText origText startPosition

theorem projectText_infix (tokText predText origText : Text) (startPosition : Nat) :
    projectText tokText predText origText startPosition <:+: origText := by
  unfold projectText
  dsimp only
  split
  · exact List.infix_rfl
  · split
    · exact List.infix_rfl
    · split
      · exact List.infix_rfl
      · exact (List.take_prefix _ _).isInfix.trans (List.drop_suffix _ _).isInfix

/-- The final text is a part of the text of the document. -/
theorem getFinalText_infix (unicode : Unicode) (predText origText : Text) (doLowerCase : Bool) :
    getFinalText unicode predText origText doLowerCase <:+: origText := by
  unfold getFinalText
  dsimp only
  cases hfind : find predText (joinWords (basicTokenize unicode doLowerCase origText)) with
  | none => exact List.infix_rfl
  | some startPosition => exact projectText_infix _ predText origText startPosition

/-- What the Unicode database says of English words, blanks and apostrophes. -/
def asciiUnicode : Unicode where
  category := fun c => if c = ' ' then .Zs else if c = '\'' then .Po else .Ll
  lower := fun text => text.map Char.toLower
  nfd := id

example : getFinalText asciiUnicode "steve smith".toList "Steve Smith's".toList true =
    "Steve Smith".toList := by decide

end FinBert.Squad
