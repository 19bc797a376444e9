import FinBert.Lib.RankSelect
import FinBert.Squad.FinalText

/-!
# What the projection of an answer covers

`get_final_text` counts the characters that are no spaces, in the text of the tokens and in the text
of the document. If both have the same number of them, the final text is the part of the document
with the same numbers as the prediction.

* `getFinalTextBy`: `get_final_text` with any tokenizer.
* `stripSpaces_spec`: the map of `_strip_spaces` is the selection of the non-space characters.
* `getFinalTextBy_projected`: the final text and the prediction cover the same numbers.
-/

namespace FinBert.Squad

open Prep (Text Unicode basicTokenize)
open RankSelect

/-- `get_final_text`, with any tokenizer. -/
def getFinalTextBy (tokenize : Text → List Text) (predText origText : Text) : Text :=
  let tokText := joinWords (tokenize origText)
  match find predText tokText with
  | none => origText
  | some startPosition => projectText tokText predText origText startPosition

theorem getFinalText_eq (unicode : Unicode) (predText origText : Text) (doLowerCase : Bool) :
    getFinalText unicode predText origText doLowerCase =
      getFinalTextBy (basicTokenize unicode doLowerCase) predText origText := by
  cases hfind : find predText (joinWords (basicTokenize unicode doLowerCase origText)) with
  | none => simp only [getFinalText, getFinalTextBy, hfind]
  | some startPosition => simp only [getFinalText, getFinalTextBy, hfind]

/-! ## The first occurrence -/

/-- The first place where `part` stands in a text. -/
structure FirstAt (part text : Text) (i : Nat) : Prop where
  le_length : i ≤ text.length
  occurs : part <+: text.drop i
  first : ∀ j < i, ¬ part <+: text.drop j

theorem firstAt_cons {part text : Text} {c : Char} (hnot : ¬ part <+: c :: text) {i : Nat} :
    FirstAt part (c :: text) i ↔ ∃ j, FirstAt part text j ∧ i = j + 1 := by
  constructor
  · intro h
    cases i with
    | zero => exact absurd h.occurs hnot
    | succ i =>
      exact ⟨i, ⟨Nat.le_of_succ_le_succ h.le_length, h.occurs,
        fun j hj => h.first (j + 1) (Nat.succ_lt_succ hj)⟩, rfl⟩
  · rintro ⟨j, h, rfl⟩
    refine ⟨Nat.succ_le_succ h.le_length, h.occurs, fun j' hj' => ?_⟩
    cases j' with
    | zero => exact hnot
    | succ j' => exact h.first j' (Nat.lt_of_succ_lt_succ hj')

theorem firstAt_zero {part text : Text} (h : part <+: text) {i : Nat} :
    FirstAt part text i ↔ i = 0 := by
  constructor
  · intro hfirst
    by_contra hne
    exact hfirst.first 0 (Nat.pos_of_ne_zero hne) h
  · rintro rfl
    exact ⟨Nat.zero_le _, h, fun j hj => absurd hj (Nat.not_lt_zero j)⟩

/-- `find` returns the first place. -/
theorem find_eq_some_iff {part text : Text} {i : Nat} :
    find part text = some i ↔ FirstAt part text i := by
  induction text generalizing i with
  | nil =>
    unfold find
    by_cases hnil : part = []
    · subst hnil
      rw [firstAt_zero (List.nil_prefix)]
      exact Option.some_inj.trans eq_comm
    · rw [if_neg fun hempty => hnil (List.isEmpty_iff.mp hempty)]
      refine iff_of_false (fun h => by cases h) fun h => hnil ?_
      exact List.prefix_nil.mp (List.drop_nil ▸ h.occurs)
  | cons c text ih =>
    unfold find
    by_cases hpart : part <+: c :: text
    · rw [if_pos (List.isPrefixOf_iff_prefix.mpr hpart), firstAt_zero hpart]
      exact Option.some_inj.trans eq_comm
    · rw [if_neg fun h => hpart (List.isPrefixOf_iff_prefix.mp h), firstAt_cons hpart,
        Option.map_eq_some_iff]
      exact exists_congr fun j => and_congr ih eq_comm

theorem exists_firstAt {part text : Text} (h : part <:+: text) : ∃ i, FirstAt part text i := by
  classical
  have hsome : ∃ i, i ≤ text.length ∧ part <+: text.drop i := by
    obtain ⟨before, after, rfl⟩ := h
    refine ⟨before.length, ?_, after, ?_⟩
    · rw [List.append_assoc, List.length_append]
      exact Nat.le_add_right _ _
    · rw [List.append_assoc, List.drop_left]
  obtain ⟨hle, hoccurs⟩ := Nat.find_spec hsome
  exact ⟨Nat.find hsome, hle, hoccurs, fun j hj hpart =>
    Nat.find_min hsome hj ⟨hj.le.trans hle, hpart⟩⟩

theorem FirstAt.isInfix {part text : Text} {i : Nat} (h : FirstAt part text i) : part <:+: text :=
  h.occurs.isInfix.trans (List.drop_suffix i text).isInfix

/-! ## The maps -/

/-- Not a space. -/
def nonSpace (c : Char) : Bool := c != ' '

/-- The map of `_strip_spaces` for the characters so far. -/
structure Maps (text : Text) (nsToSMap : OrderedDict Nat Nat) : Prop where
  mem : ∀ k i, (k, i) ∈ nsToSMap ↔ Selects nonSpace text k i
  nodup : nsToSMap.values.Nodup

theorem Maps.notMem_keys {text : Text} {nsToSMap : OrderedDict Nat Nat} (h : Maps text nsToSMap) :
    text.countP nonSpace ∉ nsToSMap.keys := by
  intro hmem
  obtain ⟨i, -, hi⟩ := OrderedDict.exists_lookup hmem
  exact Nat.lt_irrefl _ ((h.mem _ i).mp hi).lt_countP

theorem Maps.notMem_values {text : Text} {nsToSMap : OrderedDict Nat Nat} (h : Maps text nsToSMap) :
    text.length ∉ nsToSMap.values := by
  intro hmem
  obtain ⟨⟨k, i⟩, hitem, heq⟩ := List.mem_map.mp hmem
  exact ((h.mem k i).mp hitem).lt_length.ne heq

/-- The loop of `_strip_spaces` behind the characters `done`. -/
theorem stripSpacesFrom_spec (text : Text) {done : Text} {nsToSMap : OrderedDict Nat Nat}
    (h : Maps done nsToSMap) :
    (stripSpacesFrom done.length text (done.filter nonSpace) nsToSMap).1 =
        (done ++ text).filter nonSpace ∧
      Maps (done ++ text)
        (stripSpacesFrom done.length text (done.filter nonSpace) nsToSMap).2 := by
  induction text generalizing done nsToSMap with
  | nil =>
    rw [List.append_nil]
    exact ⟨rfl, h⟩
  | cons c text ih =>
    rw [List.append_cons]
    unfold stripSpacesFrom
    have hlength : (done ++ [c]).length = done.length + 1 := List.length_append
    by_cases hc : c = ' '
    · have hspace : nonSpace c = false := by
        rw [hc]
        rfl
      have hfilter : (done ++ [c]).filter nonSpace = done.filter nonSpace := by
        rw [List.filter_append, List.filter_cons_of_neg (Bool.not_eq_true _ ▸ hspace),
          List.filter_nil, List.append_nil]
      have hnext : Maps (done ++ [c]) nsToSMap := by
        refine ⟨fun k i => (h.mem k i).trans ?_, h.nodup⟩
        rw [selects_concat, hspace]
        exact (or_iff_left fun hlast => Bool.false_ne_true hlast.1).symm
      rw [if_pos hc, ← hlength, ← hfilter]
      exact ih hnext
    · have hchar : nonSpace c = true := bne_iff_ne.mpr hc
      have hcount : (done.filter nonSpace).length = done.countP nonSpace :=
        List.countP_eq_length_filter.symm
      have hfilter : (done ++ [c]).filter nonSpace = done.filter nonSpace ++ [c] := by
        rw [List.filter_append, List.filter_cons_of_pos hchar, List.filter_nil]
      have hnext : Maps (done ++ [c])
          (nsToSMap.assign (done.filter nonSpace).length done.length) := by
        refine ⟨fun k i => ?_, OrderedDict.nodup_values_assign h.notMem_values h.nodup⟩
        rw [hcount, OrderedDict.assign_eq_concat h.notMem_keys, List.mem_append, h.mem,
          selects_concat, List.mem_singleton, Prod.mk_inj, and_iff_right hchar]
      rw [if_neg hc, ← hlength, ← hfilter]
      exact ih hnext

theorem stripSpaces_spec (text : Text) :
    (stripSpaces text).1.length = text.countP nonSpace ∧ Maps text (stripSpaces text).2 := by
  have hempty : Maps [] [] := by
    refine ⟨fun k i => iff_of_false List.not_mem_nil fun h => ?_, List.nodup_nil⟩
    exact absurd h.lt_length (Nat.not_lt_zero i)
  obtain ⟨hchars, hmap⟩ := stripSpacesFrom_spec text hempty
  refine ⟨?_, hmap⟩
  rw [List.countP_eq_length_filter]
  exact congrArg List.length hchars

/-- What the map finds. -/
theorem Maps.lookup_eq_some_iff {text : Text} {nsToSMap : OrderedDict Nat Nat}
    (h : Maps text nsToSMap) {k i : Nat} :
    nsToSMap.lookup k = some i ↔ Selects nonSpace text k i := by
  by_cases hk : k ∈ nsToSMap.keys
  · obtain ⟨i', hlookup, hmem⟩ := OrderedDict.exists_lookup hk
    have hi' := (h.mem k i').mp hmem
    rw [hlookup, Option.some_inj]
    exact ⟨fun heq => heq ▸ hi', fun hi => hi'.index_unique hi⟩
  · rw [OrderedDict.lookup_of_notMem hk]
    refine iff_of_false (fun hnone => by cases hnone) fun hi => hk ?_
    exact List.mem_map.mpr ⟨(k, i), (h.mem k i).mpr hi, rfl⟩

theorem tokSToNs_eq (nsToSMap : OrderedDict Nat Nat) :
    tokSToNs nsToSMap =
      OrderedDict.inverse (nsToSMap.map fun item => (item.1, (item.2 : Int))) := by
  rw [OrderedDict.inverse, List.foldl_map]
  rfl

/-- What the inverse map finds. -/
theorem Maps.lookup_tokSToNs {text : Text} {nsToSMap : OrderedDict Nat Nat}
    (h : Maps text nsToSMap) {k : Nat} {position : Int} :
    (tokSToNs nsToSMap).lookup position = some k ↔
      ∃ i : Nat, position = i ∧ Selects nonSpace text k i := by
  rw [tokSToNs_eq]
  have hvalues : OrderedDict.values (nsToSMap.map fun item => (item.1, (item.2 : Int))) =
      nsToSMap.values.map Nat.cast := by
    rw [OrderedDict.values, OrderedDict.values, List.map_map, List.map_map]
    rfl
  have hnodup : (OrderedDict.values (nsToSMap.map fun item => (item.1, (item.2 : Int)))).Nodup := by
    rw [hvalues]
    exact h.nodup.map Int.ofNat_injective
  rw [OrderedDict.lookup_inverse_iff hnodup, List.mem_map]
  constructor
  · rintro ⟨⟨k', i⟩, hitem, heq⟩
    obtain ⟨rfl, rfl⟩ := Prod.mk.inj heq
    exact ⟨i, rfl, (h.mem k' i).mp hitem⟩
  · rintro ⟨i, rfl, hi⟩
    exact ⟨(k, i), (h.mem k i).mpr hi, rfl⟩

/-- The position in the document of a position in the text of the tokens. -/
theorem origPosition_eq_some_iff {tokText origText : Text} {tokMap origMap : OrderedDict Nat Nat}
    (htok : Maps tokText tokMap) (horig : Maps origText origMap) {position : Int} {j : Nat} :
    origPosition (tokSToNs tokMap) origMap position = some j ↔
      ∃ k i : Nat, position = i ∧ Selects nonSpace tokText k i ∧ Selects nonSpace origText k j := by
  rw [origPosition, Option.bind_eq_bind, Option.bind_eq_some_iff]
  constructor
  · rintro ⟨k, hk, hj⟩
    obtain ⟨i, hi, hselects⟩ := htok.lookup_tokSToNs.mp hk
    exact ⟨k, i, hi, hselects, horig.lookup_eq_some_iff.mp hj⟩
  · rintro ⟨k, i, hi, hselects, hj⟩
    exact ⟨k, htok.lookup_tokSToNs.mpr ⟨i, hi, hselects⟩, horig.lookup_eq_some_iff.mpr hj⟩

/-! ## What the final text covers -/

/-- A text that begins and ends with a character that is no space. -/
def Trimmed (text : Text) : Prop :=
  (∃ c, text.head? = some c ∧ nonSpace c = true) ∧ ∃ c, text.getLast? = some c ∧ nonSpace c = true

/-- The characters from `i` to `j` that are no spaces are those with the numbers from `k` to `l`. -/
structure Covers (text : Text) (i j k l : Nat) : Prop where
  ordered : i ≤ j
  first : Selects nonSpace text k i
  last : Selects nonSpace text l j
  between : ∀ m position, Selects nonSpace text m position →
    (i ≤ position ∧ position ≤ j ↔ k ≤ m ∧ m ≤ l)

theorem covers_of_selects {text : Text} {i j k l : Nat} (hi : Selects nonSpace text k i)
    (hj : Selects nonSpace text l j) (h : k ≤ l) : Covers text i j k l where
  ordered := (hi.le_iff hj).mpr h
  first := hi
  last := hj
  between := fun _ _ hm => and_congr (hi.le_iff hm) (hm.le_iff hj)

theorem getElem?_of_begins {part text : Text} {start n : Nat} (h : part <+: text.drop start)
    (hn : n < part.length) : text[start + n]? = part[n]? := by
  obtain ⟨rest, hrest⟩ := h
  rw [← List.getElem?_drop, ← hrest, List.getElem?_append_left hn]

/-- The ends of a text that stands at `start`. -/
theorem trimmed_iff {part text : Text} {start : Nat} (h : part <+: text.drop start)
    (hpos : 0 < part.length) :
    Trimmed part ↔ (∃ c, text[start]? = some c ∧ nonSpace c = true) ∧
      ∃ c, text[start + (part.length - 1)]? = some c ∧ nonSpace c = true := by
  rw [getElem?_of_begins h (Nat.sub_lt hpos Nat.one_pos), ← List.getLast?_eq_getElem?]
  have hfirst := getElem?_of_begins h hpos
  rw [Nat.add_zero, ← List.head?_eq_getElem?] at hfirst
  rw [hfirst, Trimmed]

theorem Trimmed.length_pos {part : Text} (h : Trimmed part) : 0 < part.length := by
  obtain ⟨⟨c, hc, -⟩, -⟩ := h
  cases part with
  | nil => cases hc
  | cons c part => exact Nat.succ_pos _

/-- What a text that stands at `start` covers. -/
theorem covers_of_trimmed {part text : Text} {start : Nat} (h : part <+: text.drop start)
    (htrimmed : Trimmed part) :
    ∃ k l, Covers text start (start + (part.length - 1)) k l := by
  obtain ⟨hfirst, hlast⟩ := (trimmed_iff h htrimmed.length_pos).mp htrimmed
  exact ⟨_, _, covers_of_selects ⟨hfirst, rfl⟩ ⟨hlast, rfl⟩ (rank_mono _ (Nat.le_add_right _ _))⟩

/-- What `get_final_text` returns. -/
structure Projected (tokText predText origText result : Text) : Prop where
  isInfix : result <:+: origText
  aligned : predText <:+: tokText → Trimmed predText →
    origText.countP nonSpace = tokText.countP nonSpace →
    ∃ start i j k l, FirstAt predText tokText start ∧
      Covers tokText start (start + (predText.length - 1)) k l ∧ Covers origText i j k l ∧
      result = (origText.drop i).take (j + 1 - i)
  otherwise : ¬ (predText <:+: tokText ∧ Trimmed predText ∧
    origText.countP nonSpace = tokText.countP nonSpace) → result = origText

theorem endPosition_eq {predText : Text} (hpos : 0 < predText.length) (start : Nat) :
    (start : Int) + predText.length - 1 = ((start + (predText.length - 1) : Nat) : Int) := by
  omega

/-- Both ends of a prediction have a position in the document only if it is trimmed. -/
theorem trimmed_of_origPosition {tokText predText origText : Text} {start : Nat}
    (hfirst : FirstAt predText tokText start) {i j : Nat}
    {tokMap origMap : OrderedDict Nat Nat} (htok : Maps tokText tokMap)
    (horig : Maps origText origMap)
    (hi : origPosition (tokSToNs tokMap) origMap start = some i)
    (hj : origPosition (tokSToNs tokMap) origMap ((start : Int) + predText.length - 1) = some j) :
    Trimmed predText := by
  obtain ⟨k, start', hstart, hk, -⟩ := (origPosition_eq_some_iff htok horig).mp hi
  obtain ⟨l, last, hlast, hl, -⟩ := (origPosition_eq_some_iff htok horig).mp hj
  rcases Nat.eq_zero_or_pos predText.length with hzero | hpos
  · -- the empty text stands at 0, and ends in front of it
    have hnil := List.eq_nil_of_length_eq_zero hzero
    have hstart0 := (firstAt_zero (hnil ▸ List.nil_prefix)).mp hfirst
    rw [hstart0, hzero] at hlast
    omega
  · rw [endPosition_eq hpos] at hlast
    obtain rfl := Int.ofNat.inj hstart
    obtain rfl := Int.ofNat.inj hlast
    exact (trimmed_iff hfirst.occurs hpos).mpr ⟨hk.1, hl.1⟩

theorem projectText_trimmed {tokText predText origText : Text} {start : Nat}
    (hfirst : FirstAt predText tokText start) (htrimmed : Trimmed predText)
    (hcount : origText.countP nonSpace = tokText.countP nonSpace) :
    ∃ i j k l, Covers tokText start (start + (predText.length - 1)) k l ∧
      Covers origText i j k l ∧
      projectText tokText predText origText start = (origText.drop i).take (j + 1 - i) := by
  obtain ⟨hlengthOrig, horig⟩ := stripSpaces_spec origText
  obtain ⟨hlengthTok, htok⟩ := stripSpaces_spec tokText
  obtain ⟨k, l, hcovers⟩ := covers_of_trimmed hfirst.occurs htrimmed
  obtain ⟨i, hi⟩ := exists_selects (hcount ▸ hcovers.first.lt_countP)
  obtain ⟨j, hj⟩ := exists_selects (hcount ▸ hcovers.last.lt_countP)
  have hle := (hcovers.first.le_iff hcovers.last).mp hcovers.ordered
  refine ⟨i, j, k, l, hcovers, covers_of_selects hi hj hle, ?_⟩
  unfold projectText
  dsimp only
  rw [hlengthOrig, hlengthTok, if_neg (not_not.mpr hcount), endPosition_eq htrimmed.length_pos,
    (origPosition_eq_some_iff htok horig).mpr ⟨k, start, rfl, hcovers.first, hi⟩,
    (origPosition_eq_some_iff htok horig).mpr ⟨l, _, rfl, hcovers.last, hj⟩]

theorem projectText_otherwise {tokText predText origText : Text} {start : Nat}
    (hfirst : FirstAt predText tokText start)
    (hnot : ¬ (Trimmed predText ∧ origText.countP nonSpace = tokText.countP nonSpace)) :
    projectText tokText predText origText start = origText := by
  obtain ⟨hlengthOrig, horig⟩ := stripSpaces_spec origText
  obtain ⟨hlengthTok, htok⟩ := stripSpaces_spec tokText
  unfold projectText
  dsimp only
  rw [hlengthOrig, hlengthTok]
  split
  · rfl
  next hcount =>
  split
  · rfl
  next i hi =>
  split
  · rfl
  next j hj =>
  exact absurd ⟨trimmed_of_origPosition hfirst htok horig hi hj, not_not.mp hcount⟩ hnot

/-- The final text is the part of the document that covers what the prediction covers, or all of the
document. -/
theorem getFinalTextBy_projected (tokenize : Text → List Text) (predText origText : Text) :
    Projected (joinWords (tokenize origText)) predText origText
      (getFinalTextBy tokenize predText origText) := by
  unfold getFinalTextBy
  dsimp only
  cases hfind : find predText (joinWords (tokenize origText)) with
  | none =>
    refine ⟨List.infix_rfl, fun hinfix => ?_, fun _ => rfl⟩
    obtain ⟨start, hfirst⟩ := exists_firstAt hinfix
    rw [find_eq_some_iff.mpr hfirst] at hfind
    cases hfind
  | some start =>
    have hfirst := find_eq_some_iff.mp hfind
    have hpart := projectText_infix (joinWords (tokenize origText)) predText origText start
    refine ⟨hpart, fun _ htrimmed hcount => ?_, fun hnot => ?_⟩
    · obtain ⟨i, j, k, l, htok, horig, htext⟩ := projectText_trimmed hfirst htrimmed hcount
      exact ⟨start, i, j, k, l, hfirst, htok, horig, htext⟩
    · exact projectText_otherwise hfirst fun hboth => hnot ⟨hfirst.isInfix, hboth⟩

end FinBert.Squad
