import FinBert.Lib.Decides
import FinBert.Squad.Predictions
import Mathlib.Algebra.Order.BigOperators.Group.List
import Mathlib.Algebra.Order.Ring.Rat

/-!
# When every example is answered

With `version_2_with_negative`, `write_predictions` compares the score of the empty answer with that
of the best entry that has a text, and there may be no such entry. It is there if and only if a
valid span with a text is ranked high enough: the entries for the empty answer that are ranked
ahead of it have to leave a place among the `n_best_size` entries.

* `scanFeatures_decides`: what the loop over the features collects.
* `nbestLoop_text_iff`: when the loop over the sorted predictions meets a text.
* `predictExample_decides`: when an example is answered, and how it fails if it is not.
* `writePredictions_iff`: when there is exactly one prediction for each example.
-/

namespace FinBert.Squad

open Prep (Text)
open Programs StableSort

section
variable {L : Type} [LinearOrder L] {args : PredictionArgs L}

/-! ## The spans of the features -/

theorem isValidSpan_find {maxAnswerLength : Int} {feature : InputFeatures}
    {startIndex endIndex : Nat}
    (h : isValidSpan maxAnswerLength feature startIndex endIndex = true) :
    (∃ orig, feature.tokenToOrigMap.find startIndex = some orig) ∧
      ∃ orig, feature.tokenToOrigMap.find endIndex = some orig := by
  unfold isValidSpan at h
  split at h
  · cases h
  split at h
  · cases h
  split at h
  · cases h
  next hstart =>
  split at h
  · cases h
  next hend =>
  exact ⟨Option.ne_none_iff_exists'.mp fun hnone => hstart (hnone ▸ rfl),
    Option.ne_none_iff_exists'.mp fun hnone => hend (hnone ▸ rfl)⟩

theorem mem_spansOf {featureIndex : Nat} {feature : InputFeatures} {result : RawResult L}
    {pred : PrelimPrediction L} (h : pred ∈ spansOf args featureIndex feature result) :
    pred.featureIndex = featureIndex ∧
      isValidSpan args.maxAnswerLength feature pred.startIndex pred.endIndex = true := by
  obtain ⟨startIndex, -, h⟩ := List.mem_flatMap.mp h
  obtain ⟨endIndex, -, h⟩ := List.mem_filterMap.mp h
  obtain ⟨startLogit, -, h⟩ := Option.bind_eq_some_iff.mp h
  obtain ⟨endLogit, -, h⟩ := Option.bind_eq_some_iff.mp h
  obtain ⟨_, hguard, h⟩ := Option.bind_eq_some_iff.mp h
  cases h
  refine ⟨rfl, Decidable.byContradiction fun hnot => ?_⟩
  rw [guard, if_neg hnot] at hguard
  cases hguard

/-- The valid spans of a feature with its index. -/
def spansAt (args : PredictionArgs L) (results : UnorderedMap Nat (RawResult L))
    (p : InputFeatures × Nat) : List (PrelimPrediction L) :=
  (results.find p.1.uniqueId).elim [] (spansOf args p.2 p.1)

/-- The valid spans of the features of an example. -/
def allSpans (args : PredictionArgs L) (results : UnorderedMap Nat (RawResult L))
    (features : List InputFeatures) : List (PrelimPrediction L) :=
  features.zipIdx.flatMap (spansAt args results)

variable {results : UnorderedMap Nat (RawResult L)} {features : List InputFeatures}

theorem mem_allSpans {pred : PrelimPrediction L} (h : pred ∈ allSpans args results features) :
    ∃ feature, features[pred.featureIndex]? = some feature ∧
      isValidSpan args.maxAnswerLength feature pred.startIndex pred.endIndex = true := by
  obtain ⟨⟨feature, i⟩, hmem, h⟩ := List.mem_flatMap.mp h
  unfold spansAt at h
  cases hresult : results.find feature.uniqueId with
  | none =>
    rw [hresult] at h
    cases h
  | some result =>
    rw [hresult] at h
    obtain ⟨rfl, hvalid⟩ := mem_spansOf h
    exact ⟨feature, List.mk_mem_zipIdx_iff_getElem?.mp hmem, hvalid⟩

end

/-! ## The scan of the features -/

section
variable {L : Type} [LinearOrder L] [Add L] [NatCast L] {args : PredictionArgs L}
  {results : UnorderedMap Nat (RawResult L)}

/-- A feature has a result, with logits for position 0. -/
def HasResult (results : UnorderedMap Nat (RawResult L)) (feature : InputFeatures) : Prop :=
  ∃ result, results.find feature.uniqueId = some result ∧
    result.startLogits ≠ [] ∧ result.endLogits ≠ []

/-- The least score of position 0, after a feature with its index. -/
def nullAt (results : UnorderedMap Nat (RawResult L)) (null : NullScore L)
    (p : InputFeatures × Nat) : NullScore L :=
  let updated := do
    let result ← results.find p.1.uniqueId
    let startLogit ← result.startLogits.head?
    let endLogit ← result.endLogits.head?
    return null.update p.2 startLogit endLogit
  updated.getD null

/-- The least score of position 0 of the features of an example. -/
def nullOf (results : UnorderedMap Nat (RawResult L)) (features : List InputFeatures) :
    NullScore L :=
  features.zipIdx.foldl (nullAt results) {}

/-- The predictions of an example: its valid spans, and the empty answer. -/
def candidatesOf (args : PredictionArgs L) (results : UnorderedMap Nat (RawResult L))
    (features : List InputFeatures) : List (PrelimPrediction L) :=
  allSpans args results features ++ [(nullOf results features).prediction]

/-- How an example fails. -/
def Fails (e : PyError) : Prop := e = .keyError ∨ e = .indexError ∨ e = .attributeError

omit [LinearOrder L] [Add L] [NatCast L] in
theorem valueOf_decides {ν : Type} (m : UnorderedMap Nat ν) (k : Nat) :
    Decides Fails (∃ v, m.find k = some v) (fun v => m.find k = some v) (valueOf m k) := by
  unfold valueOf
  cases hfind : m.find k with
  | none => exact .error (fun ⟨v, hv⟩ => by cases hv) (.inl rfl)
  | some v => exact .ok ⟨v, rfl⟩ rfl

theorem lookAtNull_decides (hv2 : args.version2WithNegative = true) {feature : InputFeatures}
    {result : RawResult L} (hfind : results.find feature.uniqueId = some result) (i : Nat)
    (null : NullScore L) :
    Decides Fails (HasResult results feature)
      (fun null' => null' = nullAt results null (feature, i))
      (lookAtNull args i result null) := by
  have hiff : HasResult results feature ↔ result.startLogits ≠ [] ∧ result.endLogits ≠ [] := by
    constructor
    · rintro ⟨result', hfind', hne⟩
      exact Option.some.inj (hfind.symm.trans hfind') ▸ hne
    · exact fun hne => ⟨result, hfind, hne⟩
  refine Decides.congr ?_ hiff.symm
  unfold lookAtNull nullAt
  rw [if_pos hv2, hfind]
  cases hstart : result.startLogits with
  | nil => exact .error (fun h => h.1 rfl) (.inr (.inl rfl))
  | cons startLogit startLogits =>
    cases hend : result.endLogits with
    | nil => exact .error (fun h => h.2 rfl) (.inr (.inl rfl))
    | cons endLogit endLogits =>
      refine .ok ⟨List.cons_ne_nil _ _, List.cons_ne_nil _ _⟩ ?_
      dsimp only [Option.bind_eq_bind, Option.bind_some]
      rw [hstart, hend]
      rfl

/-- The loop over the features decides whether they have results. -/
theorem scanFeatures_decides (hv2 : args.version2WithNegative = true) (i : Nat)
    (features : List InputFeatures) (scan : Scan L) :
    Decides Fails (∀ feature ∈ features, HasResult results feature)
      (fun scan' => scan'.prelimPredictions =
          scan.prelimPredictions ++ (features.zipIdx i).flatMap (spansAt args results) ∧
        scan'.null = (features.zipIdx i).foldl (nullAt results) scan.null)
      (scanFeatures args results i features scan) := by
  induction features generalizing i scan with
  | nil => exact .ok (fun feature h => by cases h) ⟨(List.append_nil _).symm, rfl⟩
  | cons feature features ih =>
    rw [List.zipIdx_cons, List.flatMap_cons, List.foldl_cons]
    refine ((valueOf_decides results feature.uniqueId).bind fun result _ hfind =>
      (lookAtNull_decides hv2 hfind i scan.null).bind fun null _ hnull =>
        (ih (i + 1) _).imp Iff.rfl fun scan' _ hscan => ?_).congr ?_
    · obtain ⟨hspans, hnull'⟩ := hscan
      rw [hspans, hnull', hnull, List.append_assoc, spansAt, hfind]
      exact ⟨rfl, rfl⟩
    · rw [List.forall_mem_cons]
      exact and_iff_right_of_imp fun ⟨⟨result, hfind, _⟩, _⟩ => ⟨result, hfind⟩

end

/-! ## The entries with a text -/

section
variable {L : Type} {args : PredictionArgs L} {e : SquadExample} {features : List InputFeatures}

/-- The final text of a span; there is none for a prediction of the empty answer. -/
def spanText (args : PredictionArgs L) (e : SquadExample) (features : List InputFeatures)
    (pred : PrelimPrediction L) : Option Text :=
  if 0 < pred.startIndex then do
    let feature ← features[pred.featureIndex]?
    let origDocStart ← feature.tokenToOrigMap.find pred.startIndex
    let origDocEnd ← feature.tokenToOrigMap.find pred.endIndex
    return finalText args e feature pred origDocStart origDocEnd
  else none

/-- A span with a text. -/
def HasText (args : PredictionArgs L) (e : SquadExample) (features : List InputFeatures)
    (pred : PrelimPrediction L) : Prop :=
  ∃ text, spanText args e features pred = some text ∧ text ≠ []

/-- A prediction of the empty answer. -/
def isNull (pred : PrelimPrediction L) : Bool := pred.startIndex = 0

/-- The turn of the loop for a prediction that is not behind the last entry. -/
inductive Turn (args : PredictionArgs L) (e : SquadExample) (features : List InputFeatures)
    (pred : PrelimPrediction L) (s : NbestState L) : NbestState L → Prop
  | null (hnull : isNull pred = true) : Turn args e features pred s (s.add [] pred)
  | seen {text : Text} (htext : spanText args e features pred = some text)
      (hseen : text ∈ s.seenPredictions) : Turn args e features pred s s
  | new {text : Text} (htext : spanText args e features pred = some text)
      (hnew : text ∉ s.seenPredictions) : Turn args e features pred s (s.add text pred)

theorem spanText_of_isNull {pred : PrelimPrediction L} (h : isNull pred = true) :
    spanText args e features pred = none :=
  if_neg (Nat.not_lt.mpr (of_decide_eq_true h).le)

theorem features_ne_nil {pred : PrelimPrediction L} {text : Text}
    (h : spanText args e features pred = some text) : features ≠ [] := by
  rintro rfl
  unfold spanText at h
  split at h <;> cases h

/-- A span is read without an error if and only if it has a final text. -/
theorem addSpan_eq {pred : PrelimPrediction L} (hpos : 0 < pred.startIndex)
    {feature : InputFeatures} (hfeature : features[pred.featureIndex]? = some feature)
    (s : NbestState L) :
    addSpan args e feature pred s =
      (spanText args e features pred).elim (.error .keyError) fun text =>
        .ok (if text ∈ s.seenPredictions then s else s.add text pred) := by
  rw [spanText, if_pos hpos, hfeature]
  unfold addSpan valueOf
  dsimp only [Option.bind_eq_bind, Option.bind_some]
  cases feature.tokenToOrigMap.find pred.startIndex with
  | none => rfl
  | some origDocStart =>
    cases feature.tokenToOrigMap.find pred.endIndex with
    | none => rfl
    | some origDocEnd => rfl

theorem turn_of_addSpan {pred : PrelimPrediction L} (hpos : 0 < pred.startIndex)
    {feature : InputFeatures} (hfeature : features[pred.featureIndex]? = some feature)
    {s s₁ : NbestState L} (h : addSpan args e feature pred s = .ok s₁) :
    Turn args e features pred s s₁ := by
  rw [addSpan_eq hpos hfeature] at h
  cases htext : spanText args e features pred with
  | none =>
    rw [htext] at h
    cases h
  | some text =>
    rw [htext] at h
    obtain rfl := Except.ok.inj h
    split
    · next hseen => exact .seen htext hseen
    · next hnew => exact .new htext hnew

/-- The loop ends, or goes on behind a turn. -/
theorem nbestLoop_cons {pred : PrelimPrediction L} {preds : List (PrelimPrediction L)}
    {s s' : NbestState L} (h : nbestLoop args e features (pred :: preds) s = .ok s') :
    args.nBestSize ≤ s.nbest.length ∧ s' = s ∨
      s.nbest.length < args.nBestSize ∧ ∃ s₁, Turn args e features pred s s₁ ∧
        nbestLoop args e features preds s₁ = .ok s' := by
  unfold nbestLoop at h
  split at h
  · next hfull => exact .inl ⟨hfull, (Except.ok.inj h).symm⟩
  next hroom =>
  refine .inr ⟨not_le.mp hroom, ?_⟩
  cases hfeature : features[pred.featureIndex]? with
  | none =>
    rw [hfeature] at h
    cases h
  | some feature =>
    rw [hfeature] at h
    dsimp only at h
    split at h
    · next hpos =>
      cases hadd : addSpan args e feature pred s with
      | error err =>
        rw [hadd] at h
        cases h
      | ok s₁ =>
        rw [hadd] at h
        exact ⟨s₁, turn_of_addSpan hpos hfeature hadd, h⟩
    · next hzero => exact ⟨_, .null (decide_eq_true (Nat.eq_zero_of_not_pos hzero)), h⟩

/-- The loop fails only at a prediction of a feature that is not there. -/
theorem nbestLoop_error {preds : List (PrelimPrediction L)}
    (hspans : ∀ pred ∈ preds, isNull pred = false →
      ∃ text, spanText args e features pred = some text)
    {s : NbestState L} {err : PyError} (h : nbestLoop args e features preds s = .error err) :
    err = .indexError ∧ ∃ pred ∈ preds, features[pred.featureIndex]? = none := by
  induction preds generalizing s with
  | nil => cases h
  | cons pred preds ih =>
    obtain ⟨hspan, hspans'⟩ := List.forall_mem_cons.mp hspans
    have hlater : ∀ {s₁}, nbestLoop args e features preds s₁ = .error err →
        err = .indexError ∧ ∃ pred' ∈ pred :: preds, features[pred'.featureIndex]? = none := by
      intro s₁ h₁
      obtain ⟨herr, pred', hmem, hnone⟩ := ih hspans' h₁
      exact ⟨herr, pred', List.mem_cons_of_mem _ hmem, hnone⟩
    unfold nbestLoop at h
    split at h
    · cases h
    cases hfeature : features[pred.featureIndex]? with
    | none =>
      rw [hfeature] at h
      exact ⟨(Except.error.inj h).symm, pred, List.mem_cons_self, hfeature⟩
    | some feature =>
      rw [hfeature] at h
      dsimp only at h
      split at h
      · next hpos =>
        obtain ⟨text, htext⟩ := hspan (decide_eq_false hpos.ne')
        rw [addSpan_eq hpos hfeature, htext] at h
        exact hlater h
      · exact hlater h

/-- What every turn of the loop keeps, the loop keeps. -/
theorem nbestLoop_invariant {P : NbestState L → Prop}
    (hturn : ∀ pred s s₁, Turn args e features pred s s₁ → P s → P s₁)
    {preds : List (PrelimPrediction L)} {s s' : NbestState L}
    (h : nbestLoop args e features preds s = .ok s') (hs : P s) : P s' := by
  induction preds generalizing s with
  | nil => exact Except.ok.inj h ▸ hs
  | cons pred preds ih =>
    rcases nbestLoop_cons h with ⟨-, rfl⟩ | ⟨-, s₁, hfirst, hloop⟩
    · exact hs
    · exact ih hloop (hturn pred s s₁ hfirst hs)

/-- The entries stay. -/
theorem mem_nbest_of_nbestLoop {preds : List (PrelimPrediction L)} {s s' : NbestState L}
    (h : nbestLoop args e features preds s = .ok s') {entry : NbestPrediction L}
    (hentry : entry ∈ s.nbest) : entry ∈ s'.nbest := by
  refine nbestLoop_invariant (P := fun s => entry ∈ s.nbest) (fun pred s s₁ hturn hs => ?_) h hentry
  cases hturn with
  | null hnull => exact List.mem_append_left _ hs
  | seen htext hseen => exact hs
  | new htext hnew => exact List.mem_append_left _ hs

/-- Every text that was seen is that of an entry. -/
def SeenInNbest (s : NbestState L) : Prop :=
  ∀ text ∈ s.seenPredictions, ∃ entry ∈ s.nbest, entry.text = text

theorem SeenInNbest.add {s : NbestState L} (h : SeenInNbest s) (text : Text)
    (pred : PrelimPrediction L) : SeenInNbest (s.add text pred) := by
  intro text' hmem
  rcases List.mem_cons.mp hmem with rfl | hmem
  · exact ⟨_, List.mem_append_right _ List.mem_cons_self, rfl⟩
  · obtain ⟨entry, hentry, htext⟩ := h text' hmem
    exact ⟨entry, List.mem_append_left _ hentry, htext⟩

theorem SeenInNbest.turn {pred : PrelimPrediction L} {s s₁ : NbestState L}
    (h : Turn args e features pred s s₁) (hs : SeenInNbest s) : SeenInNbest s₁ := by
  cases h with
  | null hnull => exact hs.add [] pred
  | seen htext hseen => exact hs
  | @new text htext hnew => exact hs.add text pred

/-- The first prediction is a span without a text. -/
def EmptyHead (args : PredictionArgs L) (e : SquadExample) (features : List InputFeatures)
    (preds : List (PrelimPrediction L)) : Prop :=
  ∃ first rest, preds = first :: rest ∧ spanText args e features first = some []

/-- There is room for an entry behind `before`: each empty answer takes a place, and so does a span
without a text if it comes first. -/
def Room (args : PredictionArgs L) (e : SquadExample) (features : List InputFeatures)
    (s : NbestState L) (preds before : List (PrelimPrediction L)) : Prop :=
  s.nbest.length + before.countP isNull < args.nBestSize ∧
    ([] ∉ s.seenPredictions → EmptyHead args e features preds →
      s.nbest.length + before.countP isNull + 1 < args.nBestSize)

/-- A span with a text is reached. -/
def Reached (args : PredictionArgs L) (e : SquadExample) (features : List InputFeatures)
    (s : NbestState L) (preds : List (PrelimPrediction L)) : Prop :=
  ∃ before q after, preds = before ++ q :: after ∧ HasText args e features q ∧
    Room args e features s preds before

/-- Behind a prediction without a text. -/
theorem reached_cons_iff {pred : PrelimPrediction L} (hpred : ¬ HasText args e features pred)
    {preds : List (PrelimPrediction L)} {s s₁ : NbestState L}
    (hroom : ∀ before, Room args e features s₁ preds before ↔
      Room args e features s (pred :: preds) (pred :: before)) :
    Reached args e features s₁ preds ↔ Reached args e features s (pred :: preds) := by
  constructor
  · rintro ⟨before, q, after, rfl, hq, h⟩
    exact ⟨pred :: before, q, after, rfl, hq, (hroom before).mp h⟩
  · rintro ⟨before, q, after, heq, hq, h⟩
    cases before with
    | nil =>
      obtain ⟨rfl, -⟩ := List.cons.inj heq
      exact absurd hq hpred
    | cons first before =>
      obtain ⟨rfl, htail⟩ := List.cons.inj heq
      exact ⟨before, q, after, htail, hq, (hroom before).mpr h⟩

theorem room_iff {s : NbestState L} {preds before : List (PrelimPrediction L)}
    (h : [] ∈ s.seenPredictions ∨ ¬ EmptyHead args e features preds) :
    Room args e features s preds before ↔
      s.nbest.length + before.countP isNull < args.nBestSize :=
  and_iff_left fun hnew hhead => h.elim (fun hmem => absurd hmem hnew) fun hnot => absurd hhead hnot

theorem room_iff_of_emptyHead {s : NbestState L} {preds before : List (PrelimPrediction L)}
    (hseen : [] ∉ s.seenPredictions) (hhead : EmptyHead args e features preds) :
    Room args e features s preds before ↔
      s.nbest.length + before.countP isNull + 1 < args.nBestSize :=
  ⟨fun h => h.2 hseen hhead, fun h => ⟨(Nat.lt_succ_self _).trans h, fun _ _ => h⟩⟩

theorem length_add (s : NbestState L) (text : Text) (pred : PrelimPrediction L) :
    (s.add text pred).nbest.length = s.nbest.length + 1 :=
  List.length_append

theorem mem_seenPredictions_add (s : NbestState L) (text : Text) (pred : PrelimPrediction L) :
    text ∈ (s.add text pred).seenPredictions :=
  List.mem_cons_self

theorem isNull_eq_false {pred : PrelimPrediction L} {text : Text}
    (h : spanText args e features pred = some text) : isNull pred = false := by
  cases hnull : isNull pred with
  | false => rfl
  | true =>
    rw [spanText_of_isNull hnull] at h
    cases h

theorem not_hasText_of_isNull {pred : PrelimPrediction L} (h : isNull pred = true) :
    ¬ HasText args e features pred := by
  rintro ⟨text, htext, -⟩
  rw [isNull_eq_false htext] at h
  cases h

theorem not_hasText_of_empty {pred : PrelimPrediction L}
    (h : spanText args e features pred = some []) : ¬ HasText args e features pred := by
  rintro ⟨text, htext, hne⟩
  exact hne (Option.some.inj (htext.symm.trans h))

theorem EmptyHead.spanText_eq {pred : PrelimPrediction L} {preds : List (PrelimPrediction L)}
    (h : EmptyHead args e features (pred :: preds)) : spanText args e features pred = some [] := by
  obtain ⟨first, rest, heq, htext⟩ := h
  exact (List.cons.inj heq).1 ▸ htext

/-- A prediction of the empty answer takes a place. -/
theorem reached_null {pred : PrelimPrediction L} (hnull : isNull pred = true)
    (preds : List (PrelimPrediction L)) (s : NbestState L) :
    Reached args e features (s.add [] pred) preds ↔ Reached args e features s (pred :: preds) := by
  refine reached_cons_iff (not_hasText_of_isNull hnull) fun before => ?_
  have hhead : ¬ EmptyHead args e features (pred :: preds) := fun hhead => by
    rw [isNull_eq_false hhead.spanText_eq] at hnull
    cases hnull
  rw [room_iff (.inl (mem_seenPredictions_add s [] pred)), room_iff (.inr hhead), length_add,
    List.countP_cons_of_pos hnull, Nat.add_right_comm, Nat.add_assoc]

/-- A span without a text takes no place if the empty text was seen. -/
theorem reached_seen {pred : PrelimPrediction L} (hempty : spanText args e features pred = some [])
    (preds : List (PrelimPrediction L)) {s : NbestState L} (hseen : [] ∈ s.seenPredictions) :
    Reached args e features s preds ↔ Reached args e features s (pred :: preds) := by
  refine reached_cons_iff (not_hasText_of_empty hempty) fun before => ?_
  rw [room_iff (.inl hseen), room_iff (.inl hseen),
    List.countP_cons_of_neg (Bool.not_eq_true _ ▸ isNull_eq_false hempty)]

/-- A span without a text takes a place if the empty text is new. -/
theorem reached_new {pred : PrelimPrediction L} (hempty : spanText args e features pred = some [])
    (preds : List (PrelimPrediction L)) {s : NbestState L} (hnew : [] ∉ s.seenPredictions) :
    Reached args e features (s.add [] pred) preds ↔ Reached args e features s (pred :: preds) := by
  refine reached_cons_iff (not_hasText_of_empty hempty) fun before => ?_
  rw [room_iff (.inl (mem_seenPredictions_add s [] pred)),
    room_iff_of_emptyHead hnew ⟨pred, preds, rfl, hempty⟩, length_add,
    List.countP_cons_of_neg (Bool.not_eq_true _ ▸ isNull_eq_false hempty), Nat.add_right_comm]

/-- What the loop does with predictions without a text, before it reaches one with a text. -/
theorem nbestLoop_text_iff {preds : List (PrelimPrediction L)} {s s' : NbestState L}
    (hnbest : ∀ entry ∈ s.nbest, entry.text = []) (hseen : ∀ text ∈ s.seenPredictions, text = [])
    (h : nbestLoop args e features preds s = .ok s') :
    (∃ entry ∈ s'.nbest, entry.text ≠ []) ↔ Reached args e features s preds := by
  have hno : ¬ ∃ entry ∈ s.nbest, entry.text ≠ [] := fun ⟨entry, hentry, hne⟩ =>
    hne (hnbest entry hentry)
  induction preds generalizing s with
  | nil =>
    obtain rfl := Except.ok.inj h
    refine iff_of_false hno fun ⟨before, q, after, heq, _⟩ => ?_
    exact List.append_ne_nil_of_right_ne_nil before (List.cons_ne_nil q after) heq.symm
  | cons pred preds ih =>
    have hadd : (∀ entry ∈ (s.add [] pred).nbest, entry.text = []) ∧
        ∀ text ∈ (s.add [] pred).seenPredictions, text = [] := by
      refine ⟨fun entry hentry => ?_, List.forall_mem_cons.mpr ⟨rfl, hseen⟩⟩
      rcases List.mem_append.mp hentry with hold | hnew
      · exact hnbest entry hold
      · rw [List.mem_singleton.mp hnew]
    have hnoAdd : ¬ ∃ entry ∈ (s.add [] pred).nbest, entry.text ≠ [] :=
      fun ⟨entry, hentry, hne⟩ => hne (hadd.1 entry hentry)
    rcases nbestLoop_cons h with ⟨hfull, rfl⟩ | ⟨hroom, s₁, hturn, hloop⟩
    · refine iff_of_false hno fun ⟨before, q, after, heq, hq, hlt, _⟩ => ?_
      exact absurd hlt (not_lt.mpr (hfull.trans (Nat.le_add_right _ _)))
    · cases hturn with
      | null hnull => exact (ih hadd.1 hadd.2 hloop hnoAdd).trans (reached_null hnull preds s)
      | @seen text htext hmem =>
        obtain rfl := hseen text hmem
        exact (ih hnbest hseen hloop hno).trans (reached_seen htext preds hmem)
      | @new text htext hnew =>
        by_cases hempty : text = []
        · subst hempty
          exact (ih hadd.1 hadd.2 hloop hnoAdd).trans (reached_new htext preds hnew)
        · refine iff_of_true ?_
            ⟨[], pred, preds, rfl, ⟨text, htext, hempty⟩, (room_iff ?_).mpr hroom⟩
          · exact ⟨_, mem_nbest_of_nbestLoop hloop (List.mem_append_right _ List.mem_cons_self),
              hempty⟩
          · exact .inr fun hhead => hempty (Option.some.inj (htext.symm.trans hhead.spanText_eq))

end

/-! ## The ranking of the predictions -/

section
variable {L : Type} [LinearOrder L] [Add L] {args : PredictionArgs L} {e : SquadExample}
  {features : List InputFeatures}

/-- The number of the empty answers that are ranked ahead of a prediction. -/
def nullsAhead (candidates : List (PrelimPrediction L)) (q : PrelimPrediction L × Nat) : Nat :=
  candidates.zipIdx.countP fun c => isNull c.1 && decide (Ahead PrelimPrediction.score c q)

/-- A span without a text is ranked ahead of all other predictions. -/
def EmptyFirst (args : PredictionArgs L) (e : SquadExample) (features : List InputFeatures)
    (candidates : List (PrelimPrediction L)) : Prop :=
  ∃ first ∈ candidates.zipIdx, spanText args e features first.1 = some [] ∧
    ∀ c ∈ candidates.zipIdx, c ≠ first → Ahead PrelimPrediction.score first c

/-- A span with a text is ranked so high that there is a place for it. -/
def TextRanked (args : PredictionArgs L) (e : SquadExample) (features : List InputFeatures)
    (candidates : List (PrelimPrediction L)) : Prop :=
  ∃ q ∈ candidates.zipIdx, HasText args e features q.1 ∧
    nullsAhead candidates q < args.nBestSize ∧
    (EmptyFirst args e features candidates → nullsAhead candidates q + 1 < args.nBestSize)

theorem emptyHead_iff {candidates : List (PrelimPrediction L)}
    {ranked : List (PrelimPrediction L × Nat)}
    (h : Ranking PrelimPrediction.score candidates ranked) :
    EmptyHead args e features (ranked.map Prod.fst) ↔ EmptyFirst args e features candidates := by
  constructor
  · rintro ⟨first, rest, heq, hempty⟩
    obtain ⟨first, ranked, rfl, rfl, rfl⟩ := List.map_eq_cons_iff.mp heq
    exact ⟨first, h.perm.mem_iff.mp List.mem_cons_self, hempty, fun c hc => h.first hc⟩
  · rintro ⟨c, hc, hempty, hahead⟩
    cases ranked with
    | nil => cases h.perm.mem_iff.mpr hc
    | cons first ranked =>
      have hfirst : first ∈ candidates.zipIdx := h.perm.mem_iff.mp List.mem_cons_self
      have heq : c = first := by
        by_contra hne
        exact (h.first hc hne).asymm (hahead first hfirst (Ne.symm hne))
      exact ⟨first.1, ranked.map Prod.fst, rfl, heq ▸ hempty⟩

/-- The loop reaches a span with a text if its rank allows it. -/
theorem reached_sortedDesc_iff (candidates : List (PrelimPrediction L)) :
    Reached args e features {} (sortedDesc PrelimPrediction.score candidates) ↔
      TextRanked args e features candidates := by
  obtain ⟨ranked, hranking⟩ := exists_ranking PrelimPrediction.score candidates
  rw [← hranking.sorted]
  have hroom : ∀ {before q after}, ranked = before ++ q :: after →
      (Room args e features {} (ranked.map Prod.fst) (before.map Prod.fst) ↔
        nullsAhead candidates q < args.nBestSize ∧
          (EmptyFirst args e features candidates →
            nullsAhead candidates q + 1 < args.nBestSize)) := by
    intro before q after heq
    have hcount : nullsAhead candidates q = (before.map Prod.fst).countP isNull :=
      (heq ▸ hranking).countP_ahead isNull
    unfold Room
    rw [hcount, emptyHead_iff hranking, show ({} : NbestState L).nbest.length = 0 from rfl,
      Nat.zero_add]
    exact and_congr_right fun _ => forall_prop_of_true List.not_mem_nil
  constructor
  · rintro ⟨before, q, after, heq, htext, h⟩
    obtain ⟨before, rest, hsplit, rfl, hrest⟩ := List.map_eq_append_iff.mp heq
    obtain ⟨q, after, rfl, rfl, rfl⟩ := List.map_eq_cons_iff.mp hrest
    have hmem : q ∈ ranked := hsplit ▸ List.mem_append_right _ List.mem_cons_self
    exact ⟨q, hranking.perm.mem_iff.mp hmem, htext, (hroom hsplit).mp h⟩
  · rintro ⟨q, hq, htext, h⟩
    obtain ⟨before, after, hsplit⟩ := List.append_of_mem (hranking.perm.mem_iff.mpr hq)
    refine ⟨before.map Prod.fst, q.1, after.map Prod.fst, ?_, htext, (hroom hsplit).mpr h⟩
    rw [hsplit, List.map_append, List.map_cons]

end

/-! ## The answer to an example -/

section
variable {L : Type} [NatCast L] {args : PredictionArgs L}

theorem completeNbest_eq (hv2 : args.version2WithNegative = true) (null : NullScore L)
    {s : NbestState L} (hs : SeenInNbest s) :
    completeNbest args null s =
      if [] ∈ s.seenPredictions then s.nbest else (s.add [] null.prediction).nbest := by
  unfold completeNbest
  rw [hv2, Bool.true_and]
  by_cases hseen : [] ∈ s.seenPredictions
  · obtain ⟨entry, hentry, -⟩ := hs [] hseen
    rw [if_pos hseen, decide_eq_false (not_not_intro hseen)]
    exact if_neg fun hempty => List.ne_nil_of_mem hentry (List.isEmpty_iff.mp hempty)
  · rw [if_neg hseen, decide_eq_true hseen]
    exact if_neg fun hempty => List.append_ne_nil_of_right_ne_nil _ (List.cons_ne_nil _ _)
      (List.isEmpty_iff.mp hempty)

theorem completeNbest_ne_nil (null : NullScore L) (s : NbestState L) :
    completeNbest args null s ≠ [] := by
  have hne : ∀ nbest : List (NbestPrediction L), (if nbest.isEmpty then
      [{ text := "empty".toList, startLogit := (0 : Nat), endLogit := (0 : Nat) }]
      else nbest) ≠ [] := by
    intro nbest
    split
    · exact List.cons_ne_nil _ _
    · next hnot => exact fun hnil => hnot (List.isEmpty_iff.mpr hnil)
  exact hne _

/-- The empty answer that is added has no text. -/
theorem exists_text_completeNbest (hv2 : args.version2WithNegative = true) (null : NullScore L)
    {s : NbestState L} (hs : SeenInNbest s) :
    (∃ entry ∈ completeNbest args null s, entry.text ≠ []) ↔
      ∃ entry ∈ s.nbest, entry.text ≠ [] := by
  rw [completeNbest_eq hv2 null hs]
  split
  · exact Iff.rfl
  · constructor
    · rintro ⟨entry, hentry, hne⟩
      rcases List.mem_append.mp hentry with hold | hnew
      · exact ⟨entry, hold, hne⟩
      · rw [List.mem_singleton.mp hnew] at hne
        exact absurd rfl hne
    · rintro ⟨entry, hentry, hne⟩
      exact ⟨entry, List.mem_append_left _ hentry, hne⟩

omit [NatCast L] in
theorem nbestJson_ne_nil {nbest : List (NbestPrediction L)} {probs : List L} (hne : nbest ≠ [])
    (hlength : probs.length = nbest.length) : nbestJson nbest probs ≠ [] := by
  refine List.ne_nil_of_length_pos ?_
  rw [nbestJson, List.length_zipWith, hlength, Nat.min_self]
  exact List.length_pos_iff.mpr hne

omit [NatCast L] in
theorem assertNonempty_decides {α : Type} {xs : List α} (h : xs ≠ []) :
    Decides Fails True (fun _ => True) (assertNonempty xs) := by
  unfold assertNonempty
  rw [if_neg fun hempty => h (List.isEmpty_iff.mp hempty)]
  exact .ok trivial trivial

end

section
variable {L : Type} [LinearOrder L] [Add L] [Sub L] [Div L] [NatCast L] {args : PredictionArgs L}

omit [Add L] [Div L] in
/-- A best entry with a text is there, or it is not and has no score. -/
theorem answerOf_decides (hv2 : args.version2WithNegative = true) (null : NullScore L)
    (nbest : List (NbestPrediction L)) (json : List (NbestOutput L)) :
    Decides Fails (∃ entry ∈ nbest, entry.text ≠ []) (fun _ => True)
      (answerOf args null nbest json) := by
  unfold answerOf bestNonNullEntry
  rw [hv2, Bool.not_true, if_neg Bool.false_ne_true]
  cases hfind : nbest.find? fun entry => !entry.text.isEmpty with
  | none =>
    refine .error ?_ (.inr (.inr rfl))
    rintro ⟨entry, hentry, hne⟩
    have hnot := List.find?_eq_none.mp hfind entry hentry
    rw [Bool.not_eq_true', List.isEmpty_eq_false_iff] at hnot
    exact hnot hne
  | some entry =>
    have htext : ∃ entry ∈ nbest, entry.text ≠ [] := by
      refine ⟨entry, List.mem_of_find?_eq_some hfind, fun hnil => ?_⟩
      have hfound := List.find?_some hfind
      rw [hnil] at hfound
      cases hfound
    dsimp only
    split <;> exact .ok htext trivial

omit [Add L] [Div L] [NatCast L] in
theorem length_expScores (exp : L → L) (scores : List L) :
    (expScores exp scores).length = scores.length := by
  cases scores with
  | nil => rfl
  | cons first scores => exact List.length_map _

theorem computeSoftmax_decides {scores : List L}
    (hsum : scores ≠ [] → totalSum args.exp scores ≠ (0 : Nat)) :
    Decides Fails True (fun probs => probs.length = scores.length)
      (computeSoftmax args.exp scores) := by
  unfold computeSoftmax
  split
  · next hempty => exact .ok trivial (List.isEmpty_iff.mp hempty ▸ rfl)
  · next hne =>
    rw [if_neg (hsum fun hnil => hne (List.isEmpty_iff.mpr hnil))]
    exact .ok trivial (List.length_map _ |>.trans (length_expScores _ scores))

/-- Every feature of an example has a result, and one of its spans has a text and is ranked high
enough. -/
structure Answerable (args : PredictionArgs L) (results : UnorderedMap Nat (RawResult L))
    (e : SquadExample) (features : List InputFeatures) : Prop where
  hasResults : ∀ feature ∈ features, HasResult results feature
  textRanked : TextRanked args e features (candidatesOf args results features)

variable {results : UnorderedMap Nat (RawResult L)} {e : SquadExample}
  {features : List InputFeatures}

omit [Sub L] [Div L] in
/-- The least score is that of the feature, or the one before. -/
theorem minNullFeatureIndex_nullAt (results : UnorderedMap Nat (RawResult L)) (null : NullScore L)
    (p : InputFeatures × Nat) {n : Nat} (hnull : null.minNullFeatureIndex < n) (hp : p.2 < n) :
    (nullAt results null p).minNullFeatureIndex < n := by
  have hupdate : ∀ startLogit endLogit : L,
      (null.update p.2 startLogit endLogit).minNullFeatureIndex < n := by
    intro startLogit endLogit
    unfold NullScore.update
    dsimp only
    split
    · exact hp
    · exact hnull
  unfold nullAt
  cases results.find p.1.uniqueId with
  | none => exact hnull
  | some result =>
    dsimp only [Option.bind_eq_bind, Option.bind_some]
    cases result.startLogits.head? with
    | none => exact hnull
    | some startLogit =>
      cases result.endLogits.head? with
      | none => exact hnull
      | some endLogit => exact hupdate startLogit endLogit

omit [Sub L] [Div L] in
theorem minNullFeatureIndex_lt (results : UnorderedMap Nat (RawResult L)) (h : features ≠ []) :
    (nullOf results features).minNullFeatureIndex < features.length := by
  have hfold : ∀ (ps : List (InputFeatures × Nat)) (null : NullScore L),
      null.minNullFeatureIndex < features.length → (∀ p ∈ ps, p.2 < features.length) →
      (ps.foldl (nullAt results) null).minNullFeatureIndex < features.length := by
    intro ps
    induction ps with
    | nil => exact fun null hnull _ => hnull
    | cons p ps ih =>
      intro null hnull hps
      obtain ⟨hp, hps'⟩ := List.forall_mem_cons.mp hps
      exact ih _ (minNullFeatureIndex_nullAt results null p hnull hp) hps'
  exact hfold features.zipIdx {} (List.length_pos_iff.mpr h) fun p hp =>
    List.snd_lt_of_mem_zipIdx hp

omit [Sub L] [Div L] in
/-- The predictions of an example with features are for features that are there. -/
theorem feature_of_mem_candidatesOf (hne : features ≠ []) {pred : PrelimPrediction L}
    (h : pred ∈ candidatesOf args results features) :
    ∃ feature, features[pred.featureIndex]? = some feature := by
  rcases List.mem_append.mp h with hspan | hnull
  · obtain ⟨feature, hfeature, -⟩ := mem_allSpans hspan
    exact ⟨feature, hfeature⟩
  · rw [List.mem_singleton.mp hnull]
    exact ⟨_, List.getElem?_eq_getElem (minNullFeatureIndex_lt results hne)⟩

omit [Sub L] [Div L] in
theorem spanText_of_mem_candidatesOf {pred : PrelimPrediction L}
    (h : pred ∈ candidatesOf args results features) (hpred : isNull pred = false) :
    ∃ text, spanText args e features pred = some text := by
  rcases List.mem_append.mp h with hspan | hnull
  · obtain ⟨feature, hfeature, hvalid⟩ := mem_allSpans hspan
    obtain ⟨⟨origDocStart, hstart⟩, origDocEnd, hend⟩ := isValidSpan_find hvalid
    have hpos : 0 < pred.startIndex := Nat.pos_of_ne_zero (of_decide_eq_false hpred)
    refine ⟨finalText args e feature pred origDocStart origDocEnd, ?_⟩
    rw [spanText, if_pos hpos, hfeature]
    dsimp only [Option.bind_eq_bind, Option.bind_some]
    rw [hstart, hend]
    rfl
  · rw [List.mem_singleton.mp hnull] at hpred
    cases hpred

/-- Behind the loop over the features, a span with a text decides. -/
theorem predictExample_decides (hv2 : args.version2WithNegative = true)
    (hsum : ∀ scores : List L, scores ≠ [] → totalSum args.exp scores ≠ (0 : Nat))
    (results : UnorderedMap Nat (RawResult L)) (e : SquadExample) (features : List InputFeatures) :
    Decides Fails (Answerable args results e features) (fun _ => True)
      (predictExample args results e features) := by
  refine ((scanFeatures_decides hv2 0 features {}).bind fun scan _ hscan => ?_).congr
    ⟨fun h => ⟨h.1, h.2⟩, fun h => ⟨h.hasResults, h.textRanked⟩⟩
  have hcandidates : scan.candidates args = candidatesOf args results features := by
    unfold Scan.candidates
    rw [if_pos hv2, hscan.1, hscan.2]
    rfl
  have hmem : ∀ {pred}, pred ∈ sortedDesc PrelimPrediction.score
      (candidatesOf args results features) ↔ pred ∈ candidatesOf args results features :=
    List.mem_insertionSort _
  dsimp only
  rw [hcandidates]
  cases hloop : nbestLoop args e features
      (sortedDesc PrelimPrediction.score (candidatesOf args results features)) {} with
  | error err =>
    obtain ⟨herr, pred, hpred, hnone⟩ := nbestLoop_error
      (fun pred hpred => spanText_of_mem_candidatesOf (hmem.mp hpred)) hloop
    refine .error ?_ (.inr (.inl herr))
    rintro ⟨q, hq, ⟨text, htext, -⟩, -⟩
    obtain ⟨feature, hfeature⟩ :=
      feature_of_mem_candidatesOf (features_ne_nil htext) (hmem.mp hpred)
    rw [hfeature] at hnone
    cases hnone
  | ok s =>
    have hseen : SeenInNbest s :=
      nbestLoop_invariant (fun _ _ _ => .turn) hloop fun text h => by cases h
    have htext : (∃ entry ∈ completeNbest args scan.null s, entry.text ≠ []) ↔
        TextRanked args e features (candidatesOf args results features) := by
      rw [exists_text_completeNbest hv2 scan.null hseen, ← reached_sortedDesc_iff]
      exact nbestLoop_text_iff (fun entry h => by cases h) (fun text h => by cases h) hloop
    have hne : completeNbest args scan.null s ≠ [] := completeNbest_ne_nil scan.null s
    refine (assertNonempty_decides hne).bind_of trivial fun _ _ =>
      (computeSoftmax_decides fun h => hsum _ h).bind_of trivial fun probs hlength =>
        (assertNonempty_decides ?_).bind_of trivial fun _ _ => ?_
    · exact nbestJson_ne_nil hne (hlength.trans (List.length_map _))
    · exact (((answerOf_decides hv2 scan.null _ _).bind fun _ _ _ =>
        decides_pure trivial).congr (and_iff_left trivial)).congr htext

/-! ## One prediction for each example -/

/-- The loop over the examples decides whether all of them are answered. -/
theorem predictLoop_decides (hv2 : args.version2WithNegative = true)
    (hsum : ∀ scores : List L, scores ≠ [] → totalSum args.exp scores ≠ (0 : Nat))
    (allFeatures : List InputFeatures) (results : UnorderedMap Nat (RawResult L)) (i : Nat)
    (examples : List SquadExample) (out : Outputs L) :
    Decides Fails
      (∀ p ∈ examples.zipIdx i, Answerable args results p.1 (featuresOf allFeatures p.2))
      (fun out' => out'.allPredictions.keys =
        OrderedDict.keysAfter out.allPredictions.keys (examples.map SquadExample.qasId))
      (predictLoop args allFeatures results i examples out) := by
  induction examples generalizing i out with
  | nil => exact .ok (fun p hp => by cases hp) rfl
  | cons e examples ih =>
    rw [List.zipIdx_cons]
    refine ((predictExample_decides hv2 hsum results e (featuresOf allFeatures i)).bind
      fun o _ _ => (ih (i + 1) (out.assign e.qasId o)).imp Iff.rfl fun out' _ hkeys => ?_).congr ?_
    · rw [hkeys]
      show OrderedDict.keysAfter (OrderedDict.keys (out.allPredictions.assign e.qasId o.text)) _ = _
      rw [OrderedDict.keys_assign]
      rfl
    · rw [List.forall_mem_cons]

/-- There is exactly one prediction for each example if and only if the examples have different
ids and all of them are answered. -/
theorem writePredictions_iff (hv2 : args.version2WithNegative = true)
    (hsum : ∀ scores : List L, scores ≠ [] → totalSum args.exp scores ≠ (0 : Nat))
    (allExamples : List SquadExample) (allFeatures : List InputFeatures)
    (allResults : List (RawResult L)) :
    (∃ out, writePredictions args allExamples allFeatures allResults = .ok out ∧
        out.allPredictions.keys = allExamples.map SquadExample.qasId) ↔
      (allExamples.map SquadExample.qasId).Nodup ∧
        ∀ exampleIndex e, allExamples[exampleIndex]? = some e →
          Answerable args (resultsById allResults) e (featuresOf allFeatures exampleIndex) := by
  have hdecides :=
    predictLoop_decides hv2 hsum allFeatures (resultsById allResults) 0 allExamples {}
  have hall : (∀ p ∈ allExamples.zipIdx,
        Answerable args (resultsById allResults) p.1 (featuresOf allFeatures p.2)) ↔
      ∀ exampleIndex e, allExamples[exampleIndex]? = some e →
        Answerable args (resultsById allResults) e (featuresOf allFeatures exampleIndex) :=
    ⟨fun h i e he => h (e, i) (List.mk_mem_zipIdx_iff_getElem?.mpr he),
      fun h p hp => h p.2 p.1 (List.mem_zipIdx_iff_getElem?.mp hp)⟩
  have hkeys := OrderedDict.keysAfter_eq_append_iff List.nodup_nil
    (allExamples.map SquadExample.qasId)
  rw [List.nil_append] at hkeys
  rw [← hall, writePredictions]
  cases hrun : predictLoop args allFeatures (resultsById allResults) 0 allExamples {} with
  | error err =>
    rw [hrun] at hdecides
    refine iff_of_false (fun ⟨out, hout, _⟩ => by cases hout) fun h => ?_
    obtain ⟨out, hout⟩ := hdecides.returns_iff.mpr h.2
    cases hout
  | ok out =>
    rw [hrun] at hdecides
    obtain ⟨hanswered, hpost⟩ := hdecides.of_ok
    constructor
    · rintro ⟨out', hout, hids⟩
      obtain rfl := Except.ok.inj hout
      exact ⟨hkeys.mp (hpost.symm.trans hids), hanswered⟩
    · exact fun h => ⟨out, rfl, hpost.trans (hkeys.mpr h.1)⟩

end

/-- A sum of exponentials is positive. -/
theorem totalSum_ne_zero {L : Type} [Ring L] [LinearOrder L] [IsStrictOrderedRing L] {exp : L → L}
    (hexp : ∀ x, 0 < exp x) {scores : List L} (h : scores ≠ []) :
    totalSum exp scores ≠ (0 : Nat) := by
  have hpos : ∀ x ∈ expScores exp scores, 0 < x := by
    intro x hx
    cases scores with
    | nil => exact absurd rfl h
    | cons first scores =>
      obtain ⟨score, -, rfl⟩ := List.mem_map.mp hx
      exact hexp _
  have hne : expScores exp scores ≠ [] :=
    List.ne_nil_of_length_pos ((length_expScores exp scores).symm ▸ List.length_pos_iff.mpr h)
  rw [totalSum, Nat.cast_zero, ← List.sum_eq_foldl]
  exact (List.sum_pos _ hpos hne).ne'

/-- A document of one word. -/
def oneWord : SquadExample where
  qasId := "q"
  questionText := ""
  docTokens := ["a"]

/-- Its only feature, for a question without a word. -/
def oneWordFeature : InputFeatures where
  uniqueId := 7
  exampleIndex := 0
  docSpanIndex := 0
  tokens := ["[CLS]", "[SEP]", "a", "[SEP]"]
  tokenToOrigMap := (∅ : UnorderedMap Nat Nat).insert 2 0
  tokenIsMaxContext := (∅ : UnorderedMap Nat Bool).insert 2 true
  inputIds := [101, 102, 7, 102]
  inputMask := [1, 1, 1, 1]
  segmentIds := [0, 0, 1, 1]
  startPosition := none
  endPosition := none
  isImpossible := false

/-- A result with a logit for the first position, and 0 for all others. -/
def firstLogits (logit : ℚ) : RawResult ℚ where
  uniqueId := 7
  startLogits := [logit, 0, 0, 0]
  endLogits := [logit, 0, 0, 0]

/-- The `exp` of these results is only asked for the difference of equal scores. -/
def oneWordArgs (nBestSize : Nat) : PredictionArgs ℚ where
  nBestSize := nBestSize
  maxAnswerLength := 30
  doLowerCase := true
  version2WithNegative := true
  nullScoreDiffThreshold := 0
  unicode := asciiUnicode
  exp := fun _ => 1

/-- With the same logit everywhere the word is the answer. -/
theorem answerable_even :
    Answerable (oneWordArgs 20) (resultsById [firstLogits 0]) oneWord
      (featuresOf [oneWordFeature] 0) := by
  have hsum : ∀ scores : List ℚ, scores ≠ [] →
      totalSum (oneWordArgs 20).exp scores ≠ (0 : Nat) :=
    fun scores h => totalSum_ne_zero (fun _ => zero_lt_one) h
  have hrun : writePredictions (oneWordArgs 20) [oneWord] [oneWordFeature] [firstLogits 0] =
      .ok {
        allPredictions := [("q", ['a'])]
        allNbestJson := [("q", [
          { text := ['a'], startLogit := 0, endLogit := 0, probability := 1 / 2 },
          { text := [], startLogit := 0, endLogit := 0, probability := 1 / 2 }])]
        scoresDiffJson := [("q", 0)] } := by
    decide +kernel
  have hiff := writePredictions_iff rfl hsum [oneWord] [oneWordFeature] [firstLogits 0]
  exact (hiff.mp ⟨_, hrun, rfl⟩).2 0 oneWord rfl

/-- With the greatest logits at the first position and one entry there is no answer. -/
theorem not_writePredictions_first :
    writePredictions (oneWordArgs 1) [oneWord] [oneWordFeature] [firstLogits 3] =
        .error .attributeError ∧
      ¬ ∃ out, writePredictions (oneWordArgs 1) [oneWord] [oneWordFeature] [firstLogits 3] =
          .ok out ∧ out.allPredictions.keys = [oneWord].map SquadExample.qasId := by
  have hrun : writePredictions (oneWordArgs 1) [oneWord] [oneWordFeature] [firstLogits 3] =
      .error .attributeError := by decide +kernel
  refine ⟨hrun, ?_⟩
  rintro ⟨out, hout, -⟩
  rw [hrun] at hout
  cases hout

end FinBert.Squad
