import FinBert.Lib.FirstBest
import Mathlib.Algebra.Order.Ring.Int
import Mathlib.Algebra.Order.Ring.Rat
import Mathlib.Data.Nat.Cast.Order.Ring

/-!
# The windows of a document

`convert_examples_to_features` (`run_squad.py`) takes a document that is too long in windows, each a
stride behind the one before, and `_check_is_max_context` decides for every token in which of its
windows it has the most context.

Results:
1. `docSpanLoop_spec`: the loop ends, and its windows cover the document from their start on.
2. `docSpanLoop_reach`: the windows up to the first one that reaches a place.
3. `exists_isMaxContext`: a token has its maximum context in exactly one of its windows.
4. `docSpanLoop_windowed`: the first and the third, for every document, window size and stride.
-/

namespace FinBert.Squad

open FirstBest

/-! ## The functions -/

/-- `_DocSpan`. -/
structure DocSpan where
  start : Nat
  length : Nat
deriving DecidableEq

/-- The loop over the windows from `start_offset` on, for a document of `total` tokens, with at most
`turns` turns; nothing if they are not enough. -/
def docSpanLoop (total maxTokensForDoc docStride : Nat) : Nat → Nat → Option (List DocSpan)
  | 0, startOffset => if startOffset < total then none else some []
  | turns + 1, startOffset =>
    if startOffset < total then
      let rest := total - startOffset
      let length := if rest > maxTokensForDoc then maxTokensForDoc else rest
      let span : DocSpan := { start := startOffset, length := length }
      if startOffset + length = total then some [span]
      else
        (docSpanLoop total maxTokensForDoc docStride turns
          (startOffset + min length docStride)).map (span :: ·)
    else some []

/-- The score of a window for a token that it contains. -/
def DocSpan.score (position : Nat) (docSpan : DocSpan) : Option ℚ :=
  let stop : Int := docSpan.start + docSpan.length - 1
  if (position : Int) < docSpan.start then none
  else if (position : Int) > stop then none
  else
    let numLeftContext : Int := position - docSpan.start
    let numRightContext : Int := stop - position
    some ((min numLeftContext numRightContext : Int) + 1 / 100 * docSpan.length)

/-- `_check_is_max_context`. -/
def checkIsMaxContext (docSpans : List DocSpan) (curSpanIndex position : Nat) : Bool :=
  (bestFrom (DocSpan.score position) docSpans 0 none).map Prod.snd = some curSpanIndex

/-! ## The loop -/

/-- The token is one of the window. -/
def DocSpan.Contains (docSpan : DocSpan) (position : Nat) : Prop :=
  docSpan.start ≤ position ∧ position < docSpan.start + docSpan.length

/-- The windows of a document from a token on. -/
structure WindowsFrom (total maxTokensForDoc startOffset : Nat) (docSpans : List DocSpan) :
    Prop where
  length : ∀ span ∈ docSpans, 1 ≤ span.length ∧ span.length ≤ maxTokensForDoc
  inside : ∀ span ∈ docSpans, startOffset ≤ span.start ∧ span.start + span.length ≤ total
  increasing : (docSpans.map DocSpan.start).Pairwise (· < ·)
  covers : ∀ position, startOffset ≤ position → position < total →
    ∃ span ∈ docSpans, span.Contains position

theorem windowsFrom_nil {total startOffset : Nat} (maxTokensForDoc : Nat)
    (h : ¬ startOffset < total) : WindowsFrom total maxTokensForDoc startOffset [] where
  length := List.forall_mem_nil _
  inside := List.forall_mem_nil _
  increasing := List.Pairwise.nil
  covers := fun _ hge hlt => absurd (hge.trans_lt hlt) h

/-- The last window reaches the end of the document. -/
theorem windowsFrom_last {total maxTokensForDoc startOffset length : Nat} (hpos : 1 ≤ length)
    (hmax : length ≤ maxTokensForDoc) (hend : startOffset + length = total) :
    WindowsFrom total maxTokensForDoc startOffset [{ start := startOffset, length := length }] where
  length := List.forall_mem_singleton.mpr ⟨hpos, hmax⟩
  inside := List.forall_mem_singleton.mpr ⟨Nat.le_refl _, hend.le⟩
  increasing := List.pairwise_singleton _ _
  covers := fun _ hge hlt => ⟨_, List.mem_singleton_self _, hge, hlt.trans_eq hend.symm⟩

/-- The next window begins inside of the window before it, or directly behind it. -/
theorem WindowsFrom.cons {total maxTokensForDoc startOffset length next : Nat}
    {docSpans : List DocSpan} (h : WindowsFrom total maxTokensForDoc next docSpans)
    (hmax : length ≤ maxTokensForDoc) (hend : startOffset + length ≤ total)
    (hlt : startOffset < next) (hnext : next ≤ startOffset + length) :
    WindowsFrom total maxTokensForDoc startOffset
      ({ start := startOffset, length := length } :: docSpans) where
  length := List.forall_mem_cons.mpr
    ⟨⟨Nat.pos_of_lt_add_right (hlt.trans_le hnext), hmax⟩, h.length⟩
  inside := List.forall_mem_cons.mpr
    ⟨⟨Nat.le_refl _, hend⟩, fun span hmem => (h.inside span hmem).imp_left hlt.le.trans⟩
  increasing := by
    rw [List.map_cons, List.pairwise_cons]
    refine ⟨fun start hstart => ?_, h.increasing⟩
    obtain ⟨span, hmem, rfl⟩ := List.mem_map.mp hstart
    exact hlt.trans_le (h.inside span hmem).1
  covers := by
    intro position hge hposition
    rcases Nat.lt_or_ge position next with hbefore | hbehind
    · exact ⟨_, List.mem_cons_self, hge, hbefore.trans_le hnext⟩
    · obtain ⟨span, hmem, hcontains⟩ := h.covers position hbehind hposition
      exact ⟨span, List.mem_cons_of_mem _ hmem, hcontains⟩

/-- The loop ends after at most one turn for each token that is left. -/
theorem docSpanLoop_spec {total maxTokensForDoc docStride : Nat} (hmax : 1 ≤ maxTokensForDoc)
    (hstride : 1 ≤ docStride) {turns startOffset : Nat} (hturns : total - startOffset ≤ turns) :
    ∃ docSpans, WindowsFrom total maxTokensForDoc startOffset docSpans ∧
      ∀ more, docSpanLoop total maxTokensForDoc docStride (turns + more) startOffset =
        some docSpans := by
  induction turns generalizing startOffset with
  | zero =>
    have hend : ¬ startOffset < total :=
      Nat.not_lt.mpr (Nat.sub_eq_zero_iff_le.mp (Nat.le_zero.mp hturns))
    refine ⟨[], windowsFrom_nil maxTokensForDoc hend, fun more => ?_⟩
    cases more with
    | zero => exact if_neg hend
    | succ more => exact if_neg hend
  | succ turns ih =>
    by_cases hlt : startOffset < total
    · generalize hlength : (if total - startOffset > maxTokensForDoc then maxTokensForDoc
        else total - startOffset) = length
      obtain ⟨hpos, hle, hinside⟩ : 1 ≤ length ∧ length ≤ maxTokensForDoc ∧
          length ≤ total - startOffset := by
        rw [← hlength]
        split
        · next hgt => exact ⟨hmax, Nat.le_refl _, hgt.le⟩
        · next hle => exact ⟨Nat.sub_pos_of_lt hlt, Nat.not_lt.mp hle, Nat.le_refl _⟩
      have hend : startOffset + length ≤ total :=
        (Nat.add_le_add_left hinside _).trans_eq (Nat.add_sub_cancel' hlt.le)
      by_cases hlast : startOffset + length = total
      · refine ⟨_, windowsFrom_last hpos hle hlast, fun more => ?_⟩
        rw [Nat.succ_add, docSpanLoop, if_pos hlt]
        simp only [hlength, if_pos hlast]
      · have hstep : 1 ≤ min length docStride := Nat.le_min.mpr ⟨hpos, hstride⟩
        obtain ⟨docSpans, hwindows, hloop⟩ := @ih (startOffset + min length docStride) (by omega)
        refine ⟨_, hwindows.cons hle hend (Nat.lt_add_of_pos_right hstep)
          (Nat.add_le_add_left (Nat.min_le_left _ _) _), fun more => ?_⟩
        rw [Nat.succ_add, docSpanLoop, if_pos hlt]
        simp only [hlength, if_neg hlast, hloop more]
        rfl
    · refine ⟨[], windowsFrom_nil maxTokensForDoc hlt, fun more => ?_⟩
      rw [Nat.succ_add, docSpanLoop, if_neg hlt]

/-- A document without tokens has no window. -/
theorem WindowsFrom.eq_nil {maxTokensForDoc : Nat} {docSpans : List DocSpan}
    (h : WindowsFrom 0 maxTokensForDoc 0 docSpans) : docSpans = [] := by
  cases docSpans with
  | nil => rfl
  | cons docSpan docSpans =>
    have hlength := (h.length docSpan List.mem_cons_self).1
    have hinside := (h.inside docSpan List.mem_cons_self).2
    omega

/-! ## The first window that reaches a place -/

/-- The end of the first window that reaches the place `offset` behind the start of the loop, in a
document that is long enough. -/
def reach (maxTokensForDoc docStride offset : Nat) : Nat :=
  let step := min maxTokensForDoc docStride
  maxTokensForDoc + step * ((offset - maxTokensForDoc + (step - 1)) / step)

section
variable {maxTokensForDoc docStride offset : Nat}

theorem reach_of_le (hmax : 1 ≤ maxTokensForDoc) (hstride : 1 ≤ docStride)
    (h : offset ≤ maxTokensForDoc) : reach maxTokensForDoc docStride offset = maxTokensForDoc := by
  have hstep : 1 ≤ min maxTokensForDoc docStride := Nat.le_min.mpr ⟨hmax, hstride⟩
  unfold reach
  dsimp only
  rw [Nat.sub_eq_zero_of_le h, Nat.zero_add, Nat.div_eq_of_lt (by omega), Nat.mul_zero,
    Nat.add_zero]

/-- A place that the first window does not reach is `min maxTokensForDoc docStride` nearer to the
next one. -/
theorem reach_of_lt (hmax : 1 ≤ maxTokensForDoc) (hstride : 1 ≤ docStride)
    (h : maxTokensForDoc < offset) :
    reach maxTokensForDoc docStride offset = min maxTokensForDoc docStride +
      reach maxTokensForDoc docStride (offset - min maxTokensForDoc docStride) := by
  have hstep : 1 ≤ min maxTokensForDoc docStride := Nat.le_min.mpr ⟨hmax, hstride⟩
  have hle : min maxTokensForDoc docStride ≤ maxTokensForDoc := Nat.min_le_left _ _
  unfold reach
  dsimp only
  generalize min maxTokensForDoc docStride = step at *
  have hturns : (offset - maxTokensForDoc + (step - 1)) / step =
      (offset - step - maxTokensForDoc + (step - 1)) / step + 1 := by
    rcases Nat.le_total maxTokensForDoc (offset - step) with hfar | hnear
    · rw [← Nat.add_div_right _ hstep]
      congr 1
      omega
    · rw [Nat.sub_eq_zero_of_le hnear, Nat.zero_add, Nat.div_eq_of_lt (by omega : step - 1 < step)]
      exact Nat.div_eq_of_lt_le (by omega) (by omega)
  rw [hturns, Nat.mul_succ]
  omega

/-- The first window that reaches the place: the windows up to it are those of a document that ends
with it. -/
structure FirstReaching (total maxTokensForDoc docStride startOffset position : Nat)
    (docSpans : List DocSpan) (k : Nat) (docSpan : DocSpan) : Prop where
  at_index : docSpans[k]? = some docSpan
  reaches : docSpan.start ≤ position ∧ position ≤ docSpan.start + docSpan.length
  first : ∀ j docSpan', docSpans[j]? = some docSpan' →
    position ≤ docSpan'.start + docSpan'.length → k ≤ j
  end_eq : docSpan.start + docSpan.length =
    min total (startOffset + reach maxTokensForDoc docStride (position - startOffset))
  windows : WindowsFrom (docSpan.start + docSpan.length) maxTokensForDoc startOffset
    (docSpans.take (k + 1))

/-- The windows of a document that is not empty reach all its places. -/
theorem docSpanLoop_reach {total turns startOffset position : Nat} {docSpans : List DocSpan}
    (hmax : 1 ≤ maxTokensForDoc) (hstride : 1 ≤ docStride)
    (h : docSpanLoop total maxTokensForDoc docStride turns startOffset = some docSpans)
    (hstart : startOffset < total) (hge : startOffset ≤ position) (hle : position ≤ total) :
    ∃ k docSpan, FirstReaching total maxTokensForDoc docStride startOffset position docSpans k
      docSpan := by
  induction turns generalizing startOffset docSpans with
  | zero =>
    rw [docSpanLoop, if_pos hstart] at h
    cases h
  | succ turns ih =>
    rw [docSpanLoop, if_pos hstart] at h
    dsimp only at h
    generalize hlength : (if total - startOffset > maxTokensForDoc then maxTokensForDoc
      else total - startOffset) = length at h
    have hmin : length = min maxTokensForDoc (total - startOffset) := by
      rw [← hlength]
      split <;> omega
    -- the first window is the one, or the place is behind it
    rcases Nat.lt_or_ge (startOffset + length) position with hbehind | hreaches
    · rw [if_neg (by omega)] at h
      obtain ⟨others, hothers, rfl⟩ := Option.map_eq_some_iff.mp h
      have hfull : length = maxTokensForDoc := by omega
      have hstep : 1 ≤ min length docStride := Nat.le_min.mpr ⟨by omega, hstride⟩
      obtain ⟨k, docSpan, hk⟩ := ih hothers (by omega) (by omega)
      refine ⟨k + 1, docSpan, hk.at_index, hk.reaches, fun j docSpan' hj hreach => ?_, ?_, ?_⟩
      · cases j with
        | zero =>
          cases hj
          exact absurd hreach (Nat.not_le.mpr hbehind)
        | succ j => exact Nat.succ_le_succ (hk.first j docSpan' hj hreach)
      · rw [hk.end_eq, @reach_of_lt maxTokensForDoc docStride (position - startOffset) hmax hstride
          (by omega), hfull, ← Nat.add_assoc, Nat.sub_add_eq]
      · have hend := hk.reaches.2
        exact hk.windows.cons (by omega) (by omega) (by omega) (by omega)
    · have hfirst : ∃ others, docSpans = { start := startOffset, length := length } :: others := by
        split at h
        · exact ⟨[], (Option.some.inj h).symm⟩
        · obtain ⟨others, -, rfl⟩ := Option.map_eq_some_iff.mp h
          exact ⟨others, rfl⟩
      obtain ⟨others, rfl⟩ := hfirst
      refine ⟨0, _, rfl, ⟨hge, hreaches⟩, fun j _ _ _ => Nat.zero_le j, ?_,
        windowsFrom_last (by omega) (by omega) rfl⟩
      rw [reach_of_le hmax hstride (by omega)]
      dsimp only
      omega

end

/-! ## The maximum context -/

/-- The score of a window: the smaller context of the token, and a bonus for the length. -/
def DocSpan.context (docSpan : DocSpan) (position : Nat) : ℚ :=
  (min (position - docSpan.start) (docSpan.start + docSpan.length - 1 - position) : Nat) +
    docSpan.length / 100

theorem score_of_contains {docSpan : DocSpan} {position : Nat} (h : docSpan.Contains position) :
    docSpan.score position = some (docSpan.context position) := by
  obtain ⟨hge, hlt⟩ := h
  have hright : (docSpan.start : Int) + docSpan.length - 1 - position =
      (docSpan.start + docSpan.length - 1 - position : Nat) := by omega
  unfold DocSpan.score DocSpan.context
  rw [if_neg (by omega), if_neg (by omega)]
  simp only [hright]
  rw [← Int.ofNat_sub hge, ← Nat.cast_min, Int.cast_natCast, one_div_mul_eq_div]

theorem score_of_not_contains {docSpan : DocSpan} {position : Nat}
    (h : ¬ docSpan.Contains position) : docSpan.score position = none := by
  unfold DocSpan.score
  split
  · rfl
  · next hge =>
    rw [DocSpan.Contains, not_and] at h
    have hbehind := h (by omega)
    exact if_pos (by omega)

/-- The window at this index is the one that `_check_is_max_context` takes for the token. -/
structure IsMaxContext (docSpans : List DocSpan) (position index : Nat) (docSpan : DocSpan) :
    Prop where
  at_index : docSpans[index]? = some docSpan
  contains : docSpan.Contains position
  greatest : ∀ span ∈ docSpans, span.Contains position →
    span.context position ≤ docSpan.context position
  only : ∀ curSpanIndex, checkIsMaxContext docSpans curSpanIndex position = true ↔
    curSpanIndex = index

theorem exists_isMaxContext {docSpans : List DocSpan} {position : Nat}
    (hcovered : ∃ span ∈ docSpans, span.Contains position) :
    ∃ index docSpan, IsMaxContext docSpans position index docSpan := by
  obtain ⟨span, hmem, hcontains⟩ := hcovered
  have hbest := isBest_bestFrom (show IsBest (DocSpan.score position) [] none from
    List.forall_mem_nil _) docSpans
  rw [List.nil_append, List.length_nil] at hbest
  cases hresult : bestFrom (DocSpan.score position) docSpans 0 none with
  | none =>
    rw [hresult] at hbest
    cases (hbest span hmem).symm.trans (score_of_contains hcontains)
  | some best =>
    obtain ⟨score, index⟩ := best
    rw [hresult] at hbest
    obtain ⟨⟨docSpan, hat, hscore⟩, hgreatest⟩ := hbest
    have hcontained : docSpan.Contains position := by_contra fun hnot => by
      cases hscore.symm.trans (score_of_not_contains hnot)
    have hcontext : docSpan.context position = score :=
      Option.some.inj ((score_of_contains hcontained).symm.trans hscore)
    refine ⟨index, docSpan, hat, hcontained, fun other hother hin => ?_, fun curSpanIndex => ?_⟩
    · rw [hcontext]
      exact hgreatest other hother _ (score_of_contains hin)
    · unfold checkIsMaxContext
      rw [hresult, decide_eq_true_iff]
      exact ⟨fun heq => (Option.some.inj heq).symm, fun heq => congrArg some heq.symm⟩

/-- What the windows of a whole document should be like. -/
structure Windowed (total maxTokensForDoc : Nat) (docSpans : List DocSpan) : Prop extends
    WindowsFrom total maxTokensForDoc 0 docSpans where
  maxContext : ∀ position < total, ∃ index docSpan, IsMaxContext docSpans position index docSpan

/-- The loop ends, and each token of the document has its maximum context in exactly one window. -/
theorem docSpanLoop_windowed (total : Nat) {maxTokensForDoc docStride : Nat}
    (hmax : 1 ≤ maxTokensForDoc) (hstride : 1 ≤ docStride) :
    ∃ docSpans, (∀ turns, total ≤ turns →
        docSpanLoop total maxTokensForDoc docStride turns 0 = some docSpans) ∧
      Windowed total maxTokensForDoc docSpans := by
  obtain ⟨docSpans, hwindows, hloop⟩ :=
    @docSpanLoop_spec total maxTokensForDoc docStride hmax hstride total 0 (Nat.le_refl total)
  refine ⟨docSpans, fun turns hturns => ?_, hwindows, fun position hlt => ?_⟩
  · rw [← Nat.add_sub_cancel' hturns]
    exact hloop _
  · exact exists_isMaxContext (hwindows.covers position (Nat.zero_le _) hlt)

/-- Three windows, of which the last one is short. -/
theorem docSpanLoop_windowed_six : ∃ docSpans, (∀ turns, 6 ≤ turns →
      docSpanLoop 6 3 2 turns 0 = some docSpans) ∧ Windowed 6 3 docSpans :=
  docSpanLoop_windowed 6 (by decide) (by decide)

example : docSpanLoop 6 3 2 6 0 = some [⟨0, 3⟩, ⟨2, 3⟩, ⟨4, 2⟩] := by decide

end FinBert.Squad
