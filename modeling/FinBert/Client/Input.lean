import FinBert.Lib.LengthPrefixed
import FinBert.Lib.Transition
import FinBert.Serving.ModelConfig
import Mathlib.Algebra.Ring.Nat

/-!
# Inputs of the client

`InputImpl` (`request_common.cc`) collects one buffer for each batch entry. Sizes do not wrap
around.

Results:
1. `getNextLoop_spec`: what `GetNext` delivers.
2. `accounted_call_iff`: the calls that keep the total in step with the buffers.
3. `accounted_of_keeps`: the same over every run.
-/

namespace FinBert.Client

open FinBert.Serving LengthPrefixed Transition

/-! ## `InputImpl` -/

/-- `InputImpl`. A pointer of `bufs` is the bytes that it points to. -/
structure InputImpl where
  mio : ModelInput
  byteSize : Int
  totalByteSize : Nat := 0
  needsShape : Bool
  shape : List Int := []
  batchSize : Nat := 0
  bufsIdx : Nat := 0
  bufPos : Nat := 0
  bufs : List Bytes := []
  bufByteSizes : List Nat := []
  strBufs : List Bytes := []
deriving DecidableEq

def invalidArg (message : String) : Status := { code := .invalidArg, message }

namespace InputImpl

/-- `InputImpl::InputImpl(mio)`. -/
def create (mio : ModelInput) : InputImpl where
  mio := mio
  byteSize := if getElementCount mio.dims = -1 then -1 else getByteSize mio.dataType mio.dims
  needsShape := getElementCount mio.dims = -1

/-- `InputImpl::InputImpl(obj)`. -/
def copy (obj : InputImpl) : InputImpl := { obj with bufsIdx := 0, bufPos := 0 }

/-- `SetBatchSize`. -/
def setBatchSize (batchSize : Nat) (io : InputImpl) : InputImpl := { io with batchSize }

/-- `SetShape`. -/
def setShape (dims : List Int) (io : InputImpl) : Status × InputImpl :=
  match dims.find? (· < 0) with
  | some dim =>
    (invalidArg ("attempt to set invalid shape dimension " ++ toString dim ++
      ", shape dimensions must be >= 0 for input '" ++ io.mio.name), io)
  | none =>
    (.ok, { io with needsShape := false, shape := dims,
                    byteSize := getByteSize io.mio.dataType dims })

/-- The buffers are cleared when a call is refused. -/
def clear (io : InputImpl) : InputImpl := { io with bufs := [], bufByteSizes := [], strBufs := [] }

/-- `SetRaw`. -/
def setRaw (input : Bytes) (io : InputImpl) : Status × InputImpl :=
  if io.needsShape then
    (invalidArg ("must set shape for variable-size input '" ++ io.mio.name ++
      "' before setting input data"), io.clear)
  else if isFixedSizeDataType io.mio.dataType && decide (input.length ≠ uint64 io.byteSize) then
    (invalidArg ("invalid size " ++ toString input.length ++ " bytes for input '" ++ io.mio.name ++
      "', expects " ++ toString io.byteSize ++ " bytes"), io.clear)
  else if io.batchSize ≤ io.bufs.length then
    (invalidArg ("expecting " ++ toString io.batchSize ++ " invocations of SetRaw for input '" ++
      io.mio.name ++ "', one per batch entry"), io.clear)
  else
    (.ok, { io with
      totalByteSize := io.totalByteSize + input.length
      bufs := io.bufs ++ [input]
      bufByteSizes := io.bufByteSizes ++ [input.length] })

/-- `element_count` of `SetFromString`. -/
def elementCount (io : InputImpl) : Int :=
  getElementCount (if io.shape.isEmpty then io.mio.dims else io.shape)

/-- `SetFromString`. -/
def setFromString (input : List Bytes) (io : InputImpl) : Status × InputImpl :=
  if io.mio.dataType ≠ .string then
    (invalidArg ("non-string tensor '" ++ io.mio.name ++ "' cannot be set from string data"),
      io.clear)
  else if io.needsShape then
    (invalidArg ("must set shape for variable-size input '" ++ io.mio.name ++
      "' before setting input data"), io)
  else if input.length ≠ uint64 io.elementCount then
    (invalidArg ("expecting " ++ toString io.elementCount ++ " strings for input '" ++
      io.mio.name ++ "', got " ++ toString input.length), io.clear)
  else
    let sbuf := input.foldl (fun sbuf str => sbuf ++ word str.length ++ str) []
    setRaw sbuf { io with strBufs := io.strBufs ++ [sbuf] }

/-- `Reset`. -/
def reset (io : InputImpl) : InputImpl :=
  { io.clear with bufsIdx := 0, bufPos := 0, totalByteSize := 0 }

/-- `PrepareForRequest`. -/
def prepareForRequest (io : InputImpl) : Status × InputImpl :=
  if io.bufs.length ≠ io.batchSize then
    (invalidArg ("expecting " ++ toString io.batchSize ++ " invocations of SetRaw for input '" ++
      io.mio.name ++ "', have " ++ toString io.bufs.length), io)
  else (.ok, { io with bufsIdx := 0, bufPos := 0 })

/-- `GetRaw`: an error, or the buffer and its size, if there is such a buffer. -/
def getRaw (batchIdx : Nat) (io : InputImpl) : Except Status (Option (Bytes × Nat)) :=
  if io.batchSize ≤ batchIdx then
    .error (invalidArg ("unexpected batch entry " ++ toString batchIdx ++
      " requested for input '" ++ io.mio.name ++ "', batch size is " ++ toString io.batchSize))
  else
    .ok (io.bufs[batchIdx]?.bind fun buf => (io.bufByteSizes[batchIdx]?).map fun byteSize =>
      (buf, byteSize))

/-- The loop of `GetNext`, with the bytes that were copied so far. It is `none` as long as the
loop has not ended. -/
def getNextLoop : Nat → Bytes → Nat → InputImpl → Option (Bytes × InputImpl)
  | 0, _, _, _ => none
  | iterations + 1, copied, size, io =>
    if io.bufsIdx < io.bufs.length ∧ 0 < size then
      let bufByteSize := io.bufByteSizes.getD io.bufsIdx 0
      let csz := min (bufByteSize - io.bufPos) size
      let copied := copied ++ ((io.bufs.getD io.bufsIdx []).drop io.bufPos).take csz
      let io := { io with bufPos := io.bufPos + csz }
      let io := if io.bufPos = bufByteSize then { io with bufsIdx := io.bufsIdx + 1, bufPos := 0 }
        else io
      getNextLoop iterations copied (size - csz) io
    else some (copied, io)

/-- `GetNext`: the bytes and whether they end the input. Every iteration of the loop copies a
byte or goes to the next buffer. -/
def getNext (size : Nat) (io : InputImpl) : Option (Bytes × Bool × InputImpl) :=
  (getNextLoop (size + io.bufs.length + 1) [] size io).map fun (copied, io) =>
    (copied, decide (io.bufs.length ≤ io.bufsIdx), io)

end InputImpl

/-! ## Calls -/

/-- The calls that an application makes on an input, and the copy of `AsyncRun`. -/
inductive InputCall
  | setRaw (input : Bytes)
  | setFromString (input : List Bytes)
  | setShape (dims : List Int)
  | reset
  | copy

namespace InputImpl

/-- The error of a call, and the input behind it. -/
def call (io : InputImpl) : InputCall → Status × InputImpl
  | .setRaw input => io.setRaw input
  | .setFromString input => io.setFromString input
  | .setShape dims => io.setShape dims
  | .reset => (.ok, io.reset)
  | .copy => (.ok, io.copy)

/-- A call is made, whether it succeeds or not. -/
def step (io : InputImpl) (c : InputCall) : Option InputImpl := some (io.call c).2

/-- The input of a context with a batch size. -/
def start (mio : ModelInput) (batchSize : Nat) : InputImpl :=
  (create mio).setBatchSize batchSize

/-- The total is that of the sizes of the buffers, of which there are no more than batch
entries. -/
structure Accounted (io : InputImpl) : Prop where
  total : io.totalByteSize = io.bufByteSizes.sum
  sizes : io.bufByteSizes = io.bufs.map List.length
  most : io.bufs.length ≤ io.batchSize

/-- The call is refused, and the buffers are cleared. -/
def clears (io : InputImpl) : InputCall → Bool
  | .setRaw input =>
    io.needsShape ||
      (isFixedSizeDataType io.mio.dataType && decide (input.length ≠ uint64 io.byteSize)) ||
      decide (io.batchSize ≤ io.bufs.length)
  | .setFromString input =>
    decide (io.mio.dataType ≠ .string) ||
      (!io.needsShape && (decide (input.length ≠ uint64 io.elementCount) ||
        decide (io.batchSize ≤ io.bufs.length)))
  | _ => false

/-- The condition on a call: when it is refused and clears the buffers, they are empty. -/
def Keeps (io : InputImpl) (c : InputCall) : Prop := io.clears c = true → io.totalByteSize = 0

instance (io : InputImpl) (c : InputCall) : Decidable (Keeps io c) :=
  inferInstanceAs (Decidable (_ → _))

/-! ## What a call does to the buffers -/

/-- The input with a further buffer. -/
def store (input : Bytes) (io : InputImpl) : InputImpl :=
  { io with
    totalByteSize := io.totalByteSize + input.length
    bufs := io.bufs ++ [input]
    bufByteSizes := io.bufByteSizes ++ [input.length] }

/-- The two inputs have the same buffers, of the same total, for the same batch size. -/
structure SameBufs (io io' : InputImpl) : Prop where
  totalByteSize : io'.totalByteSize = io.totalByteSize
  bufs : io'.bufs = io.bufs
  bufByteSizes : io'.bufByteSizes = io.bufByteSizes
  batchSize : io'.batchSize = io.batchSize

theorem Accounted.congr {io io' : InputImpl} (h : Accounted io) (hsame : SameBufs io io') :
    Accounted io' where
  total := by rw [hsame.totalByteSize, hsame.bufByteSizes, h.total]
  sizes := by rw [hsame.bufByteSizes, hsame.bufs, h.sizes]
  most := by rw [hsame.bufs, hsame.batchSize]; exact h.most

theorem accounted_store {io : InputImpl} (h : Accounted io) (input : Bytes)
    (hroom : io.bufs.length < io.batchSize) : Accounted (io.store input) where
  total := by
    rw [store, h.total, List.sum_append, List.sum_singleton]
  sizes := by
    rw [store, h.sizes, List.map_append, List.map_singleton]
  most := by
    rw [store, List.length_append, List.length_singleton]
    exact hroom

theorem accounted_clear_iff {io : InputImpl} : Accounted io.clear ↔ io.totalByteSize = 0 :=
  ⟨fun h => h.total, fun h => ⟨h, rfl, Nat.zero_le _⟩⟩

theorem accounted_reset (io : InputImpl) : Accounted io.reset := ⟨rfl, rfl, Nat.zero_le _⟩

theorem setRaw_of_clears {input : Bytes} {io : InputImpl}
    (h : io.clears (.setRaw input) = true) : (io.setRaw input).2 = io.clear := by
  unfold setRaw
  split
  · rfl
  · next hshape =>
    split
    · rfl
    · next hsize =>
      split
      · rfl
      · next hfull =>
        rw [clears, Bool.eq_false_iff.mpr hshape, Bool.eq_false_iff.mpr hsize,
          decide_eq_false hfull] at h
        cases h

theorem setRaw_of_stores {input : Bytes} {io : InputImpl}
    (h : io.clears (.setRaw input) = false) :
    io.bufs.length < io.batchSize ∧ (io.setRaw input).2 = io.store input := by
  rw [clears, Bool.or_eq_false_iff, Bool.or_eq_false_iff, decide_eq_false_iff_not] at h
  obtain ⟨⟨hshape, hsize⟩, hfull⟩ := h
  unfold setRaw
  rw [if_neg (Bool.eq_false_iff.mp hshape), if_neg (Bool.eq_false_iff.mp hsize), if_neg hfull]
  exact ⟨Nat.lt_of_not_le hfull, rfl⟩

/-- What one call does: it clears the buffers, or it leaves them, or it stores one more, or it
is a reset. -/
theorem call_cases (io : InputImpl) (c : InputCall) :
    (io.clears c = true ∧ SameBufs io.clear (io.call c).2) ∨
      (io.clears c = false ∧
        (SameBufs io (io.call c).2 ∨ (io.call c).2 = io.reset ∨
          ∃ input, io.bufs.length < io.batchSize ∧
            SameBufs (io.store input) (io.call c).2)) := by
  cases c with
  | setRaw input =>
    cases hclears : io.clears (.setRaw input) with
    | true =>
      refine .inl ⟨rfl, ?_⟩
      rw [call, setRaw_of_clears hclears]
      exact ⟨rfl, rfl, rfl, rfl⟩
    | false =>
      obtain ⟨hroom, heq⟩ := setRaw_of_stores hclears
      refine .inr ⟨rfl, .inr (.inr ⟨input, hroom, ?_⟩)⟩
      rw [call, heq]
      exact ⟨rfl, rfl, rfl, rfl⟩
  | setFromString input =>
    by_cases htype : io.mio.dataType ≠ .string
    · rw [call, clears, setFromString, if_pos htype, decide_eq_true htype]
      exact .inl ⟨rfl, rfl, rfl, rfl, rfl⟩
    by_cases hshape : io.needsShape = true
    · rw [call, clears, setFromString, if_neg htype, if_pos hshape, decide_eq_false htype, hshape]
      exact .inr ⟨rfl, .inl ⟨rfl, rfl, rfl, rfl⟩⟩
    by_cases hcount : input.length ≠ uint64 io.elementCount
    · rw [call, clears, setFromString, if_neg htype, if_neg hshape, if_pos hcount,
        decide_eq_false htype, decide_eq_true hcount, Bool.eq_false_iff.mpr hshape]
      exact .inl ⟨rfl, rfl, rfl, rfl, rfl⟩
    rw [call, setFromString, if_neg htype, if_neg hshape, if_neg hcount]
    -- the call of `SetRaw`, which only a full input refuses
    generalize input.foldl (fun sbuf str => sbuf ++ word str.length ++ str) [] = sbuf
    have hfixed : isFixedSizeDataType io.mio.dataType = false := by
      rw [not_not.mp htype]
      rfl
    have hinner : ({ io with strBufs := io.strBufs ++ [sbuf] } : InputImpl).clears
        (.setRaw sbuf) = io.clears (.setFromString input) := by
      simp only [clears, Bool.eq_false_iff.mpr hshape, hfixed, decide_eq_false htype,
        decide_eq_false hcount, Bool.false_and, Bool.false_or, Bool.not_false, Bool.true_and]
    cases hclears : io.clears (.setFromString input) with
    | true =>
      refine .inl ⟨rfl, ?_⟩
      dsimp only
      rw [setRaw_of_clears (hinner.trans hclears)]
      exact ⟨rfl, rfl, rfl, rfl⟩
    | false =>
      obtain ⟨hroom, heq⟩ := setRaw_of_stores (hinner.trans hclears)
      refine .inr ⟨rfl, .inr (.inr ⟨sbuf, hroom, ?_⟩)⟩
      dsimp only
      rw [heq]
      exact ⟨rfl, rfl, rfl, rfl⟩
  | setShape dims =>
    refine .inr ⟨rfl, .inl ?_⟩
    unfold call setShape
    dsimp only
    split
    · exact ⟨rfl, rfl, rfl, rfl⟩
    · exact ⟨rfl, rfl, rfl, rfl⟩
  | reset => exact .inr ⟨rfl, .inr (.inl rfl)⟩
  | copy => exact .inr ⟨rfl, .inl ⟨rfl, rfl, rfl, rfl⟩⟩

/-- From a state that is in order, a call leads to one that is exactly if it keeps the bytes
that it does not account for. -/
theorem accounted_call_iff {io : InputImpl} (h : Accounted io) (c : InputCall) :
    Accounted (io.call c).2 ↔ Keeps io c := by
  unfold Keeps
  obtain ⟨hclears, hsame⟩ | ⟨hclears, hrest⟩ := call_cases io c
  · rw [imp_iff_right hclears]
    refine ⟨fun hcall => ?_, fun htotal => (accounted_clear_iff.mpr htotal).congr hsame⟩
    have htotal := hcall.total
    rw [hsame.totalByteSize, hsame.bufByteSizes] at htotal
    exact htotal
  · rw [hclears]
    refine iff_of_true ?_ (fun hfalse => Bool.noConfusion hfalse)
    rcases hrest with hsame | heq | ⟨input, hroom, hsame⟩
    · exact h.congr hsame
    · rw [heq]
      exact accounted_reset io
    · exact (accounted_store h input hroom).congr hsame

theorem accounted_start (mio : ModelInput) (batchSize : Nat) : Accounted (start mio batchSize) :=
  ⟨rfl, rfl, Nat.zero_le _⟩

/-- In every run in which no call that is refused clears bytes that were stored, the total is
that of the buffers. -/
theorem accounted_of_keeps (mio : ModelInput) (batchSize : Nat) {io : InputImpl}
    (h : ReachableWhen step Keeps (start mio batchSize) io) : Accounted io := by
  refine h.invariant (accounted_start mio batchSize) fun io c io' haccounted hkeeps hstep => ?_
  obtain rfl := Option.some.inj hstep
  exact (accounted_call_iff haccounted c).mpr hkeeps

/-- An input of one byte for one batch entry. -/
def oneByte : ModelInput where
  name := "INPUT"
  dataType := .uint8
  dims := [1]

/-- A call that is refused before anything is stored, a buffer, and the copy of a request. -/
theorem accounted_oneByte :
    Accounted ((((start oneByte 1).setRaw [8, 9]).2.setRaw [8]).2.copy) := by
  have hrun : runWhen step Keeps (start oneByte 1) [.setRaw [8, 9], .setRaw [8], .copy] =
      some (((start oneByte 1).setRaw [8, 9]).2.setRaw [8]).2.copy := by decide
  exact accounted_of_keeps oneByte 1 (reachableWhen_of_runWhen hrun)

/-- The second buffer is refused and clears the first, and the third is stored: two bytes are
announced, and one is there. -/
theorem not_accounted_retried :
    ∃ io, Reachable step (start oneByte 1) io ∧ ¬ Accounted io := by
  have hrun : (runWhen step (fun _ _ => True) (start oneByte 1)
      [.setRaw [7], .setRaw [8], .setRaw [9]]).map
        (fun io => io.totalByteSize == 2 && io.bufByteSizes == [1]) = some true := by decide
  obtain ⟨io, hreachable, hfacts⟩ := exists_of_runWhen hrun
  rw [Bool.and_eq_true, beq_iff_eq, beq_iff_eq] at hfacts
  refine ⟨io, hreachable, fun h => ?_⟩
  have htotal := h.total
  rw [hfacts.1, hfacts.2] at htotal
  exact absurd htotal (by decide)

/-! ## What `GetNext` delivers -/

/-- The bytes that are still to be delivered. -/
def remaining (io : InputImpl) : Bytes := ((io.bufs.drop io.bufsIdx).flatten).drop io.bufPos

/-- The position is inside of a buffer, or behind all of them. -/
structure Positioned (io : InputImpl) : Prop where
  sizes : io.bufByteSizes = io.bufs.map List.length
  pos : io.bufPos ≤ (io.bufs.getD io.bufsIdx []).length

/-- Only the position has changed. -/
structure Moved (io io' : InputImpl) : Prop where
  bufs : io'.bufs = io.bufs
  positioned : Positioned io'

/-- One turn of the loop. -/
def advance (csz : Nat) (io : InputImpl) : InputImpl :=
  if io.bufPos + csz = io.bufByteSizes.getD io.bufsIdx 0 then
    { io with bufsIdx := io.bufsIdx + 1, bufPos := 0 }
  else { io with bufPos := io.bufPos + csz }

theorem remaining_eq {io : InputImpl} (h : Positioned io) (hidx : io.bufsIdx < io.bufs.length) :
    remaining io = (io.bufs.getD io.bufsIdx []).drop io.bufPos ++
      (io.bufs.drop (io.bufsIdx + 1)).flatten := by
  have hpos := h.pos
  unfold remaining
  rw [List.drop_eq_getElem_cons hidx, List.flatten_cons]
  rw [List.getD_eq_getElem?_getD, List.getElem?_eq_getElem hidx, Option.getD_some] at hpos ⊢
  exact List.drop_append_of_le_length hpos

theorem remaining_of_end {io : InputImpl} (hidx : io.bufs.length ≤ io.bufsIdx) :
    remaining io = [] := by
  unfold remaining
  rw [List.drop_eq_nil_of_le hidx, List.flatten_nil, List.drop_nil]

theorem bufByteSizes_getD {io : InputImpl} (h : Positioned io) (k : Nat) :
    io.bufByteSizes.getD k 0 = (io.bufs.getD k []).length := by
  rw [h.sizes]
  simp only [List.getD_eq_getElem?_getD, List.getElem?_map]
  cases io.bufs[k]? <;> rfl

/-- One turn of the loop takes `csz` of the bytes that remain, and its number of bytes to come
or of buffers to come becomes smaller. -/
theorem advance_spec {io : InputImpl} (h : Positioned io) (hidx : io.bufsIdx < io.bufs.length)
    {csz size : Nat}
    (hcsz : csz = min (io.bufByteSizes.getD io.bufsIdx 0 - io.bufPos) size) (hsize : 0 < size) :
    Moved io (io.advance csz) ∧ remaining (io.advance csz) = (remaining io).drop csz ∧
      ((io.bufs.getD io.bufsIdx []).drop io.bufPos).take csz = (remaining io).take csz ∧
      (size - csz) + (io.bufs.length - (io.advance csz).bufsIdx) <
        size + (io.bufs.length - io.bufsIdx) := by
  have hpos := h.pos
  rw [bufByteSizes_getD h] at hcsz
  have hle : csz ≤ ((io.bufs.getD io.bufsIdx []).drop io.bufPos).length := by
    rw [List.length_drop, hcsz]
    exact Nat.min_le_left _ _
  have htake : ((io.bufs.getD io.bufsIdx []).drop io.bufPos).take csz =
      (remaining io).take csz := by
    rw [remaining_eq h hidx, List.take_append_of_le_length hle]
  have hdrop : (remaining io).drop csz = (io.bufs.getD io.bufsIdx []).drop (io.bufPos + csz) ++
      (io.bufs.drop (io.bufsIdx + 1)).flatten := by
    rw [remaining_eq h hidx, List.drop_append_of_le_length hle, List.drop_drop]
  refine ⟨?_, ?_, htake, ?_⟩
  · unfold advance
    split
    · exact ⟨rfl, h.sizes, Nat.zero_le _⟩
    · refine ⟨rfl, h.sizes, ?_⟩
      show io.bufPos + csz ≤ (io.bufs.getD io.bufsIdx []).length
      omega
  · rw [hdrop]
    unfold advance
    split
    · next hend =>
      rw [bufByteSizes_getD h] at hend
      rw [hend, List.drop_length, List.nil_append]
      rfl
    · have hmoved : Positioned { io with bufPos := io.bufPos + csz } :=
        ⟨h.sizes, by show io.bufPos + csz ≤ (io.bufs.getD io.bufsIdx []).length; omega⟩
      exact remaining_eq hmoved hidx
  · unfold advance
    rw [bufByteSizes_getD h]
    split
    · show size - csz + (io.bufs.length - (io.bufsIdx + 1)) < _
      omega
    · show size - csz + (io.bufs.length - io.bufsIdx) < _
      omega

theorem getNextLoop_turn {iterations : Nat} (copied : Bytes) {size : Nat} {io : InputImpl}
    (hmore : io.bufsIdx < io.bufs.length ∧ 0 < size) :
    getNextLoop (iterations + 1) copied size io =
      let csz := min (io.bufByteSizes.getD io.bufsIdx 0 - io.bufPos) size
      getNextLoop iterations (copied ++ ((io.bufs.getD io.bufsIdx []).drop io.bufPos).take csz)
        (size - csz) (io.advance csz) := by
  rw [getNextLoop, if_pos hmore]
  rfl

/-- The loop ends, and it has copied the next bytes. -/
theorem getNextLoop_spec {iterations : Nat} (copied : Bytes) {size : Nat} {io : InputImpl}
    (h : Positioned io) (hiterations : size + (io.bufs.length - io.bufsIdx) < iterations) :
    ∃ io', getNextLoop iterations copied size io = some (copied ++ (remaining io).take size, io') ∧
      Moved io io' ∧ remaining io' = (remaining io).drop size := by
  induction iterations generalizing copied size io with
  | zero => exact absurd hiterations (Nat.not_lt_zero _)
  | succ iterations ih =>
    by_cases hmore : io.bufsIdx < io.bufs.length ∧ 0 < size
    · obtain ⟨hmoved, hremaining, htake, hless⟩ := advance_spec h hmore.1 rfl hmore.2
      obtain ⟨io', hloop, hmoved', hremaining'⟩ := ih (copied ++ (remaining io).take
        (min (io.bufByteSizes.getD io.bufsIdx 0 - io.bufPos) size)) hmoved.positioned
        (Nat.lt_of_lt_of_le (by rw [hmoved.bufs]; exact hless) (Nat.le_of_lt_succ hiterations))
      refine ⟨io', ?_, ⟨hmoved'.bufs.trans hmoved.bufs, hmoved'.positioned⟩, ?_⟩
      · rw [getNextLoop_turn copied hmore]
        dsimp only
        rw [htake, hloop, hremaining, List.append_assoc, ← List.take_add,
          Nat.add_sub_cancel' (Nat.min_le_right _ _)]
      · rw [hremaining', hremaining, List.drop_drop, Nat.add_sub_cancel' (Nat.min_le_right _ _)]
    · have hnone : (remaining io).take size = [] ∧ remaining io = (remaining io).drop size := by
        rcases Nat.eq_zero_or_pos size with rfl | hsize
        · exact ⟨List.take_zero, List.drop_zero.symm⟩
        · rw [remaining_of_end (Nat.le_of_not_lt fun hidx => hmore ⟨hidx, hsize⟩)]
          exact ⟨List.take_nil, List.drop_nil.symm⟩
      refine ⟨io, ?_, ⟨rfl, h⟩, hnone.2⟩
      rw [getNextLoop, if_neg hmore, hnone.1, List.append_nil]

end InputImpl

end FinBert.Client
