import FinBert.Serving.StringTensor

/-!
# Results of the client

`ResultImpl` (`request_common.cc`) takes the bytes of one output of a response, in pieces of any
size, and puts them into one buffer for each batch entry. All entries of an output of a fixed-size
data type have the same size; the entries of a string output are parsed when all of them have
come, and until then they are pending. Sizes do not wrap around.

Results:
1. `setBatchRawResult_spec`: the entries of one size, one after another.
2. `setNextRawResult_spec`: how much of a piece is taken, and what is known of the result then.
-/

namespace FinBert.Client

open FinBert.Serving LengthPrefixed

/-! ## `ResultImpl` -/

/-- `InferContext::Result::ResultFormat`. -/
inductive ResultFormat
  | raw
  | classes
deriving DecidableEq

/-- `OutputImpl`: an output of the model, with the format of the run options. -/
structure OutputImpl where
  name : String
  dType : DataType
  resultFormat : ResultFormat

/-- `ResultImpl`. A pointer of `inplacePtrs` is the bytes that it points to. -/
structure ResultImpl where
  output : OutputImpl
  batchSize : Nat
  hasFixedBatch1ByteSize : Bool := false
  batch1ByteSize : Nat := 0
  batch1ElementCount : Nat := 0
  shape : List Int := []
  inplace : Bool := false
  inplacePtrs : List Bytes
  buffers : List Bytes
  bufsIdx : Nat := 0
  bufsPos : List Nat
  bufsByteSize : List Nat
  pending : Bytes := []

namespace ResultImpl

/-- `ResultImpl::ResultImpl`. -/
def create (output : OutputImpl) (batchSize : Nat) : ResultImpl where
  output := output
  batchSize := batchSize
  inplacePtrs := List.replicate batchSize []
  buffers := List.replicate batchSize []
  bufsPos := List.replicate batchSize 0
  bufsByteSize := List.replicate batchSize 0

/-- `SetBatchnByteSize`. -/
def setBatchnByteSize (s : Nat) (io : ResultImpl) : ResultImpl :=
  { io with hasFixedBatch1ByteSize := true, batch1ByteSize := s / io.batchSize }

/-- `SetBatch1Shape`. -/
def setBatch1Shape (dims : List Int) (io : ResultImpl) : ResultImpl :=
  { io with shape := dims, batch1ElementCount := uint64 (getElementCount dims) }

/-- The first `csz` bytes of `buf` go to the buffer of the current batch entry. -/
def takeBytes (buf : Bytes) (csz : Nat) (io : ResultImpl) : ResultImpl :=
  { io with
    inplacePtrs := if io.inplace then io.inplacePtrs.set io.bufsIdx buf else io.inplacePtrs
    buffers := if io.inplace then io.buffers else io.buffers.modify io.bufsIdx (· ++ buf.take csz)
    bufsPos := io.bufsPos.modify io.bufsIdx (· + csz)
    bufsByteSize := io.bufsByteSize.modify io.bufsIdx (· + csz) }

/-- The loop of `SetBatchRawResult`: the number of the bytes that are taken. It is `none` as long
as the loop has not ended. -/
def setBatchLoop (batch1ByteSize : Nat) :
    Nat → Bytes → Nat → ResultImpl → Option (Nat × ResultImpl)
  | 0, _, _, _ => none
  | iterations + 1, buf, totalSize, io =>
    if io.bufsIdx < io.buffers.length ∧ buf.length > 0 then
      let csz := min (batch1ByteSize - io.bufsPos.getD io.bufsIdx 0) buf.length
      let io := if csz > 0 then io.takeBytes buf csz else io
      let io :=
        if io.bufsPos.getD io.bufsIdx 0 = batch1ByteSize then
          { io with bufsIdx := io.bufsIdx + 1 }
        else io
      setBatchLoop batch1ByteSize iterations (buf.drop csz) (totalSize + csz) io
    else some (totalSize, io)

/-- `SetBatchRawResult`. Every iteration of the loop takes a byte or goes to the next entry. -/
def setBatchRawResult (batch1ByteSize : Nat) (buf : Bytes) (io : ResultImpl) :
    Option (Nat × ResultImpl) :=
  let io := if batch1ByteSize = 0 then { io with bufsIdx := io.buffers.length } else io
  setBatchLoop batch1ByteSize (buf.length + io.buffers.length + 1) buf 0 io

/-! ## Strings -/

/-- The loop over the elements of a batch entry, of which `elements` are left: the size of the
entry and the offset behind it. It ends when a string ends behind the buffer; the memory behind
the buffer is `behind`. -/
def entryByteSize (buf behind : Bytes) : Nat → Nat → Nat → Nat × Nat
  | 0, batchByteSize, bufOffset => (batchByteSize, bufOffset)
  | elements + 1, batchByteSize, bufOffset =>
    let len := wordAt (buf ++ behind) bufOffset
    if bufOffset + (4 + len) > buf.length then
      (batchByteSize + (4 + len), bufOffset + (4 + len))
    else
      entryByteSize buf behind elements (batchByteSize + (4 + len)) (bufOffset + (4 + len))

/-- The loop over the batch entries, of which `batches` are left: `batch_byte_sizes` and
`buf_offset`. -/
def batchByteSizes (buf behind : Bytes) (batch1ElementCount : Nat) :
    Nat → Nat → List Nat × Nat
  | 0, bufOffset => ([], bufOffset)
  | batches + 1, bufOffset =>
    let (batchByteSize, bufOffset) := entryByteSize buf behind batch1ElementCount 0 bufOffset
    if bufOffset > buf.length then ([], bufOffset)
    else
      let (sizes, bufOffset) := batchByteSizes buf behind batch1ElementCount batches bufOffset
      (batchByteSize :: sizes, bufOffset)

/-- The loop over `batch_byte_sizes`. -/
def setBatches : List Nat → Bytes → ResultImpl → Option (Status × ResultImpl)
  | [], _, io => some (.ok, io)
  | sz :: sizes, buf, io =>
    match io.setBatchRawResult sz (buf.take sz) with
    | none => none
    | some (batch1ResultBytes, io) =>
      if batch1ResultBytes ≠ sz then
        some ({ code := .internal,
                message := "output '" ++ io.output.name ++ "' expecting batch size " ++
                  toString sz ++ " for non-fixed-sized result, got " ++
                  toString batch1ResultBytes }, io)
      else setBatches sizes (buf.drop sz) io

/-- The part of `SetNextRawResult` for strings. -/
def setNextStrings (behind : Bytes → Bytes) (buf : Bytes) (io : ResultImpl) :
    Option (Except Status Nat × ResultImpl) :=
  if io.bufsIdx = io.buffers.length then some (.ok 0, io)
  else
    let data := io.pending ++ buf
    let io := if io.pending.isEmpty then io else { io with pending := data }
    let (sizes, bufOffset) :=
      batchByteSizes data (behind data) io.batch1ElementCount io.batchSize 0
    if sizes.length < io.batchSize then
      some (.ok buf.length, if io.pending.isEmpty then { io with pending := buf } else io)
    else
      match io.setBatches sizes data with
      | none => none
      | some (status, io) =>
        if status.isOk then
          if io.bufsIdx ≠ io.buffers.length then
            some (.error { code := .internal,
                           message := "output '" ++ io.output.name ++
                             "' failed to set result for entire batch" }, io)
          else
            some (.ok (buf.length - (data.length - bufOffset)), { io with pending := [] })
        else some (.error status, io)

/-- `SetNextRawResult`: the number of the bytes that are taken. The memory behind a buffer is
given by `behind`. -/
def setNextRawResult (behind : Bytes → Bytes) (buf : Bytes) (inplace : Bool) (io : ResultImpl) :
    Option (Except Status Nat × ResultImpl) :=
  if inplace ∧ io.inplace then
    some (.error { code := .internal,
                   message := "in-place results for '" ++ io.output.name ++
                     "' must be delivered in a single continguous buffer" }, io)
  else
    let io := { io with inplace := inplace }
    if io.hasFixedBatch1ByteSize then
      (io.setBatchRawResult io.batch1ByteSize buf).map fun (resultBytes, io) =>
        (.ok resultBytes, io)
    else io.setNextStrings behind buf

end ResultImpl

namespace ResultImpl

/-! ## Entries of one size -/

/-- A result with these buffers, of which the ones in `done` are complete. -/
def filled (io : ResultImpl) (done left : List Bytes) : ResultImpl :=
  { io with
    inplace := false
    buffers := done ++ left
    bufsIdx := done.length
    bufsPos := (done ++ left).map List.length
    bufsByteSize := (done ++ left).map List.length }

section
variable {io : ResultImpl} {b iterations totalSize : Nat} {buf cur : Bytes}
  {done left : List Bytes}

theorem modify_append_cons {α : Type} (xs ys : List α) (x : α) (f : α → α) :
    (xs ++ x :: ys).modify xs.length f = xs ++ f x :: ys := by
  induction xs with
  | nil => rfl
  | cons y xs ih => rw [List.cons_append, List.length_cons, List.modify_succ_cons, ih]; rfl

theorem takeBytes_filled {csz : Nat} (h : csz ≤ buf.length) :
    (io.filled done (cur :: left)).takeBytes buf csz =
      io.filled done ((cur ++ buf.take csz) :: left) := by
  have hlength : (done.map List.length).length = done.length := List.length_map _
  unfold takeBytes filled
  simp only [Bool.false_eq_true, if_false, List.map_append, List.map_cons, List.length_append,
    List.length_take_of_le h, modify_append_cons]
  rw [← hlength, modify_append_cons]

theorem bufsPos_filled :
    (io.filled done (cur :: left)).bufsPos.getD done.length 0 = cur.length := by
  unfold filled
  simp

/-- Without bytes, or when all entries are complete, the loop ends. -/
theorem setBatchLoop_end (h : buf = [] ∨ left = []) :
    setBatchLoop b (iterations + 1) buf totalSize (io.filled done left) =
      some (totalSize, io.filled done left) := by
  refine if_neg fun hmore => ?_
  obtain ⟨hidx, hsize⟩ := hmore
  rcases h with rfl | rfl
  · exact absurd hsize (Nat.lt_irrefl 0)
  · simp [filled] at hidx

/-- The bytes do not complete the entry. -/
theorem setBatchLoop_part (hbuf : buf ≠ []) (hpart : cur.length + buf.length < b) :
    setBatchLoop b (iterations + 2) buf totalSize (io.filled done (cur :: left)) =
      some (totalSize + buf.length, io.filled done ((cur ++ buf) :: left)) := by
  have hsize := List.length_pos_iff.mpr hbuf
  have hcsz : min (b - cur.length) buf.length = buf.length := Nat.min_eq_right (by omega)
  rw [setBatchLoop, if_pos ⟨by simp [filled], hsize⟩]
  have hidx : (io.filled done (cur :: left)).bufsIdx = done.length := rfl
  have hidx' : (io.filled done ((cur ++ buf) :: left)).bufsIdx = done.length := rfl
  simp only [hidx, bufsPos_filled, hcsz, if_pos hsize, takeBytes_filled le_rfl, List.take_length]
  rw [hidx', bufsPos_filled, if_neg (by rw [List.length_append]; omega), List.drop_length,
    setBatchLoop_end (.inl rfl)]

/-- The bytes complete the entry. -/
theorem setBatchLoop_full (hbuf : buf ≠ []) (hcur : cur.length ≤ b)
    (hfull : b ≤ cur.length + buf.length) :
    setBatchLoop b (iterations + 1) buf totalSize (io.filled done (cur :: left)) =
      setBatchLoop b iterations (buf.drop (b - cur.length)) (totalSize + (b - cur.length))
        (io.filled (done ++ [cur ++ buf.take (b - cur.length)]) left) := by
  have hsize := List.length_pos_iff.mpr hbuf
  have hcsz : min (b - cur.length) buf.length = b - cur.length := Nat.min_eq_left (by omega)
  have hidx (cur : Bytes) : (io.filled done (cur :: left)).bufsIdx = done.length := rfl
  have htaken : (if b - cur.length > 0 then
      (io.filled done (cur :: left)).takeBytes buf (b - cur.length)
    else io.filled done (cur :: left)) =
      io.filled done ((cur ++ buf.take (b - cur.length)) :: left) := by
    split
    · exact takeBytes_filled (by omega)
    · next hzero => rw [Nat.eq_zero_of_not_pos hzero, List.take_zero, List.append_nil]
  have hnext : { io.filled done ((cur ++ buf.take (b - cur.length)) :: left) with
      bufsIdx := done.length + 1 } =
        io.filled (done ++ [cur ++ buf.take (b - cur.length)]) left := by
    unfold filled
    simp only [List.append_assoc, List.cons_append, List.nil_append, List.length_append,
      List.length_singleton]
  rw [setBatchLoop, if_pos ⟨by simp [filled], hsize⟩]
  simp only [hidx, bufsPos_filled, hcsz, htaken]
  rw [if_pos (by rw [List.length_append, List.length_take]; omega), hnext]

/-- The loop puts the bytes into the entries, until there are no more bytes or no more entries. -/
theorem setBatchLoop_spec (hiterations : left.length < iterations)
    (hleft : ∀ x ∈ left, x.length ≤ b) (htail : ∀ x ∈ left.tail, x = []) :
    ∃ done' left' taken rest, buf = taken ++ rest ∧
      setBatchLoop b (iterations + 1) buf totalSize (io.filled done left) =
        some (totalSize + taken.length, io.filled (done ++ done') left') ∧
      (∀ x ∈ done', x.length = b) ∧ (∀ x ∈ left', x.length ≤ b) ∧ (∀ x ∈ left'.tail, x = []) ∧
      (done' ++ left').length = left.length ∧
      (done' ++ left').flatten = left.flatten ++ taken ∧ (rest = [] ∨ left' = []) := by
  induction left generalizing iterations buf totalSize done with
  | nil =>
    refine ⟨[], [], [], buf, rfl, ?_, nofun, nofun, nofun, rfl, rfl, .inr rfl⟩
    rw [setBatchLoop_end (.inr rfl), List.append_nil]
    rfl
  | cons cur left ih =>
    rw [List.forall_mem_cons] at hleft
    have hempty : left.flatten = [] := List.flatten_eq_nil_iff.mpr htail
    obtain ⟨iterations, rfl⟩ : ∃ n, iterations = n + 1 :=
      Nat.exists_eq_succ_of_ne_zero (by rintro rfl; exact Nat.not_lt_zero _ hiterations)
    rw [List.length_cons] at hiterations
    rcases eq_or_ne buf [] with rfl | hbuf
    · refine ⟨[], cur :: left, [], [], rfl, ?_, nofun, List.forall_mem_cons.mpr hleft, htail, rfl,
        (List.append_nil _).symm, .inl rfl⟩
      rw [setBatchLoop_end (.inl rfl), List.append_nil]
      rfl
    rcases Nat.lt_or_ge (cur.length + buf.length) b with hpart | hfull
    · refine ⟨[], (cur ++ buf) :: left, buf, [], (List.append_nil _).symm, ?_, nofun, ?_, htail,
        rfl, ?_, .inl rfl⟩
      · rw [setBatchLoop_part hbuf hpart, List.append_nil]
      · refine List.forall_mem_cons.mpr ⟨?_, hleft.2⟩
        rw [List.length_append]
        omega
      · simp only [List.nil_append, List.flatten_cons, hempty, List.append_nil]
    · obtain ⟨done', left', taken, rest, hbuf', hloop, hdone', hleft', htail', hlength, hflatten,
          hend⟩ :=
        ih (show left.length < iterations by omega) hleft.2
          fun x hx => htail x (List.mem_of_mem_tail hx)
      have htake : (buf.take (b - cur.length)).length = b - cur.length :=
        List.length_take_of_le (by omega)
      refine ⟨(cur ++ buf.take (b - cur.length)) :: done', left',
        buf.take (b - cur.length) ++ taken, rest, ?_, ?_, ?_, hleft', htail', ?_, ?_, hend⟩
      · rw [List.append_assoc, ← hbuf', List.take_append_drop]
      · rw [setBatchLoop_full hbuf hleft.1 hfull, hloop, List.length_append, htake,
          List.append_assoc, Nat.add_assoc]
        rfl
      · refine List.forall_mem_cons.mpr ⟨?_, hdone'⟩
        rw [List.length_append, htake]
        omega
      · rw [List.cons_append, List.length_cons, hlength, List.length_cons]
      · rw [List.cons_append, List.flatten_cons, hflatten, List.flatten_cons, hempty]
        simp only [List.append_nil, List.nil_append, List.append_assoc]

/-- All the bytes of one entry. -/
theorem setBatchRawResult_entry (hcur : buf ≠ []) :
    (io.filled done ([] :: left)).setBatchRawResult buf.length buf =
      some (buf.length, io.filled (done ++ [buf]) left) := by
  have hsize := List.length_pos_iff.mpr hcur
  unfold setBatchRawResult
  rw [if_neg (Nat.ne_of_gt hsize)]
  obtain ⟨n, hn⟩ : ∃ n, buf.length + (io.filled done ([] :: left)).buffers.length = n + 1 :=
    Nat.exists_eq_succ_of_ne_zero (by omega)
  simp only [hn]
  rw [setBatchLoop_full hcur (Nat.zero_le _) (by simp), setBatchLoop_end (.inl (by simp))]
  simp

/-- Entries without bytes: all of them are complete at once. -/
theorem setBatchRawResult_zero :
    (io.filled done left).setBatchRawResult 0 buf = some (0, io.filled (done ++ left) []) := by
  have hnext : { io.filled done left with bufsIdx := (io.filled done left).buffers.length } =
      io.filled (done ++ left) [] := by
    unfold filled
    simp only [List.append_nil]
  unfold setBatchRawResult
  rw [if_pos rfl, hnext, setBatchLoop_end (.inr rfl)]

end

/-! ## Strings of all entries -/

section
variable {buf behind more tail : Bytes} {strings : List Bytes}

/-- The size of an entry whose strings have come, and an offset behind the buffer otherwise. -/
theorem entryByteSize_spec (before : Bytes) (batchByteSize : Nat)
    (hstrings : ∀ s ∈ strings, s.length < 4294967296)
    (hbuf : buf ++ more = before ++ (encodeAll strings ++ tail))
    (hbefore : before.length ≤ buf.length) :
    (before.length + (encodeAll strings).length ≤ buf.length →
      entryByteSize buf behind strings.length batchByteSize before.length =
        (batchByteSize + (encodeAll strings).length,
          before.length + (encodeAll strings).length)) ∧
    (buf.length < before.length + (encodeAll strings).length →
      buf.length < (entryByteSize buf behind strings.length batchByteSize before.length).2) := by
  induction strings generalizing before batchByteSize with
  | nil => exact ⟨fun _ => rfl, fun hlt => absurd hlt (Nat.not_lt.mpr hbefore)⟩
  | cons s strings ih =>
    rw [List.forall_mem_cons] at hstrings
    have hsize : (encodeAll (s :: strings)).length =
        4 + s.length + (encodeAll strings).length := by
      rw [encodeAll_cons, List.length_append, List.length_append, ← Nat.add_assoc]
      rfl
    rw [hsize, List.length_cons]
    simp only [entryByteSize]
    rcases Nat.lt_or_ge buf.length (before.length + 4) with hshort | hfour
    · -- a part of the length is missing
      rw [if_pos (by omega)]
      exact ⟨fun hle => by omega, fun _ => by simp only; omega⟩
    · have hlen : wordAt (buf ++ behind) before.length = s.length := by
        rw [wordAt_append_left _ hfour, ← wordAt_append_left more hfour, hbuf, encodeAll_cons,
          List.append_assoc, wordAt_word hstrings.1]
      rw [hlen]
      split
      · exact ⟨fun hle => by omega, fun _ => by simp only; omega⟩
      · next hle =>
        have hbefore' : (before ++ (word s.length ++ s)).length =
            before.length + (4 + s.length) := by
          rw [List.length_append, List.length_append]
          rfl
        have hnext := ih (before ++ (word s.length ++ s)) (batchByteSize + (4 + s.length))
          hstrings.2 (by rw [hbuf, encodeAll_cons]; simp only [List.append_assoc])
          (by rw [hbefore']; omega)
        rw [hbefore'] at hnext
        refine ⟨fun hall => ?_, fun hpart => hnext.2 (by omega)⟩
        rw [hnext.1 (by omega)]
        exact Prod.ext (by simp only; omega) (by simp only; omega)

/-- The sizes of the entries, when the strings of all of them have come. -/
theorem batchByteSizes_spec {batches : List (List Bytes)} {cnt : Nat} (before : Bytes)
    (hcnt : ∀ strings ∈ batches, strings.length = cnt)
    (hstrings : ∀ strings ∈ batches, ∀ s ∈ strings, s.length < 4294967296)
    (hbuf : buf ++ more = before ++ ((batches.map encodeAll).flatten ++ tail))
    (hbefore : before.length ≤ buf.length) :
    (before.length + (batches.map encodeAll).flatten.length ≤ buf.length →
      batchByteSizes buf behind cnt batches.length before.length =
        ((batches.map encodeAll).map List.length,
          before.length + (batches.map encodeAll).flatten.length)) ∧
    (buf.length < before.length + (batches.map encodeAll).flatten.length →
      (batchByteSizes buf behind cnt batches.length before.length).1.length <
        batches.length) := by
  induction batches generalizing before with
  | nil => exact ⟨fun _ => rfl, fun hlt => absurd hlt (Nat.not_lt.mpr hbefore)⟩
  | cons strings batches ih =>
    rw [List.forall_mem_cons] at hcnt hstrings
    rw [List.map_cons, List.flatten_cons, List.append_assoc] at hbuf
    obtain ⟨hall, hpart⟩ :=
      entryByteSize_spec before 0 hstrings.1 hbuf hbefore
    rw [hcnt.1] at hall hpart
    simp only [List.map_cons, List.flatten_cons, List.length_append, List.length_cons,
      batchByteSizes]
    rcases Nat.lt_or_ge buf.length (before.length + (encodeAll strings).length) with hlt | hle
    · rw [if_pos (hpart hlt)]
      exact ⟨fun hle => by omega, fun _ => Nat.succ_pos _⟩
    · rw [hall hle, if_neg (Nat.not_lt.mpr hle)]
      have hnext := ih (before ++ encodeAll strings) hcnt.2 hstrings.2
        (by rw [hbuf, List.append_assoc]) (by rw [List.length_append]; exact hle)
      rw [List.length_append] at hnext
      refine ⟨fun hsum => ?_, fun hsum => Nat.succ_lt_succ (hnext.2 (by omega))⟩
      rw [hnext.1 (by omega), Nat.zero_add, Nat.add_assoc]

/-- The entries are put into the buffers, if all of them have bytes. -/
theorem setBatches_entries {io : ResultImpl} {entries done : List Bytes}
    (hentries : ∀ entry ∈ entries, entry ≠ []) (tail : Bytes) :
    (io.filled done (List.replicate entries.length [])).setBatches (entries.map List.length)
        (entries.flatten ++ tail) = some (.ok, io.filled (done ++ entries) []) := by
  induction entries generalizing done with
  | nil =>
    rw [List.append_nil]
    rfl
  | cons entry entries ih =>
    rw [List.forall_mem_cons] at hentries
    rw [List.map_cons, setBatches, List.flatten_cons, List.append_assoc, List.take_left,
      List.length_cons, List.replicate_succ, setBatchRawResult_entry hentries.1, List.drop_left]
    simp only [ne_eq, not_true_eq_false, if_false]
    rw [ih hentries.2, List.append_assoc]
    rfl

/-- Entries without bytes are complete from the first one on. -/
theorem setBatches_empty {io : ResultImpl} {left : List Bytes} (sizes : List Nat)
    (hsizes : ∀ sz ∈ sizes, sz = 0) (hne : sizes ≠ []) (done : List Bytes) (buf : Bytes) :
    (io.filled done left).setBatches sizes buf = some (.ok, io.filled (done ++ left) []) := by
  induction sizes generalizing done left buf with
  | nil => exact absurd rfl hne
  | cons sz sizes ih =>
    rw [List.forall_mem_cons] at hsizes
    obtain ⟨rfl, hsizes⟩ := hsizes
    rw [setBatches, setBatchRawResult_zero]
    simp only [ne_eq, not_true_eq_false, if_false]
    cases sizes with
    | nil => rfl
    | cons sz sizes => rw [ih hsizes (List.cons_ne_nil _ _), List.append_nil]

end

/-! ## What a result has received -/

/-- The result is one of an output of a fixed-size data type, with entries of one size. -/
structure FixedEntries (entries : List Bytes) (io : ResultImpl) : Prop where
  resultFormat : io.output.resultFormat = .raw
  fixed : io.hasFixedBatch1ByteSize = true
  size : ∀ entry ∈ entries, entry.length = io.batch1ByteSize

/-- The result is one of a string output, and the entries encode its strings. -/
structure StringEntries (entries : List Bytes) (io : ResultImpl) : Prop where
  resultFormat : io.output.resultFormat = .raw
  strings : io.hasFixedBatch1ByteSize = false
  batchSize : entries.length = io.batchSize
  encoded : ∃ batches : List (List Bytes), entries = batches.map encodeAll ∧
    (∀ strings ∈ batches, strings.length = io.batch1ElementCount) ∧
    ∀ strings ∈ batches, ∀ s ∈ strings, s.length < 4294967296

/-- The result has received the first bytes of its entries. Bytes of strings are pending until
all of them have come. -/
inductive Received (entries : List Bytes) : Bytes → ResultImpl → Prop
  | classes {io : ResultImpl} : io.output.resultFormat = .classes → io.buffers = entries →
      io.bufsByteSize = entries.map List.length → entries.flatten = [] → Received entries [] io
  | fixed {io : ResultImpl} {done left : List Bytes} : FixedEntries entries io →
      (∀ x ∈ done, x.length = io.batch1ByteSize) → (∀ x ∈ left, x.length ≤ io.batch1ByteSize) →
      (∀ x ∈ left.tail, x = []) → (done ++ left).length = entries.length →
      Received entries (done ++ left).flatten (io.filled done left)
  | strings {io : ResultImpl} : StringEntries entries io →
      io.pending.length < entries.flatten.length ∨ entries.flatten = [] ∧ io.pending = [] →
      Received entries io.pending (io.filled [] (List.replicate entries.length []))
  | complete {io : ResultImpl} : StringEntries entries io → Received entries entries.flatten
      (io.filled entries [])

section
variable {io : ResultImpl} {entries : List Bytes} {received : Bytes}

theorem length_flatten_le {b : Nat} {xs : List Bytes} (h : ∀ x ∈ xs, x.length ≤ b) :
    xs.flatten.length ≤ xs.length * b := by
  induction xs with
  | nil => exact Nat.zero_le _
  | cons x xs ih =>
    rw [List.forall_mem_cons] at h
    rw [List.flatten_cons, List.length_append, List.length_cons, Nat.succ_mul]
    have hrest := ih h.2
    omega

theorem length_flatten_eq {b : Nat} {xs : List Bytes} (h : ∀ x ∈ xs, x.length = b) :
    xs.flatten.length = xs.length * b := by
  induction xs with
  | nil => exact (Nat.zero_mul b).symm
  | cons x xs ih =>
    rw [List.forall_mem_cons] at h
    rw [List.flatten_cons, List.length_append, List.length_cons, Nat.succ_mul, ih h.2, h.1,
      Nat.add_comm]

/-- Two lists of parts that make up the same whole are the same, if the parts of one have one
size, which is the largest one of the other. -/
theorem eq_of_flatten_eq {b : Nat} {xs ys : List Bytes} (hxs : ∀ x ∈ xs, x.length ≤ b)
    (hys : ∀ y ∈ ys, y.length = b) (hlength : xs.length = ys.length)
    (hflatten : xs.flatten = ys.flatten) : xs = ys := by
  induction xs generalizing ys with
  | nil => exact (List.eq_nil_of_length_eq_zero hlength.symm).symm
  | cons x xs ih =>
    cases ys with
    | nil => cases hlength
    | cons y ys =>
      rw [List.forall_mem_cons] at hxs hys
      rw [List.length_cons, List.length_cons, Nat.add_right_cancel_iff] at hlength
      rw [List.flatten_cons, List.flatten_cons] at hflatten
      have hx : x.length = y.length := by
        have hle := length_flatten_le hxs.2
        have heq := length_flatten_eq hys.2
        have hsum := congrArg List.length hflatten
        rw [List.length_append, List.length_append] at hsum
        rw [← hlength] at heq
        have hxb := hxs.1
        have hyb := hys.1
        omega
      obtain ⟨rfl, hrest⟩ := List.append_inj hflatten hx
      rw [ih hxs.2 hys.2 hlength hrest]

/-- No more bytes are received than the entries have. -/
theorem Received.length_le (h : Received entries received io) :
    received.length ≤ entries.flatten.length := by
  cases h with
  | classes => exact Nat.zero_le _
  | fixed hfixed hdone hleft _ hlength =>
    rw [length_flatten_eq hfixed.size, ← hlength]
    exact length_flatten_le (List.forall_mem_append.mpr ⟨fun x hx => (hdone x hx).le, hleft⟩)
  | strings _ hpending =>
    obtain hlt | ⟨-, hnil⟩ := hpending
    · exact hlt.le
    · rw [hnil]
      exact Nat.zero_le _
  | complete => exact le_rfl

/-- All bytes have come: they are in the buffers. -/
theorem Received.all (h : Received entries received io) (hall : received = entries.flatten) :
    io.buffers = entries ∧ io.bufsByteSize = entries.map List.length := by
  cases h with
  | classes _ hbuffers hsizes _ => exact ⟨hbuffers, hsizes⟩
  | fixed hfixed hdone hleft _ hlength =>
    have heq := eq_of_flatten_eq
      (List.forall_mem_append.mpr ⟨fun x hx => (hdone x hx).le, hleft⟩) hfixed.size hlength hall
    exact ⟨heq, congrArg (List.map List.length) heq⟩
  | strings _ hpending =>
    have hnil : entries.flatten = [] := by
      rcases hpending with hlt | hnone
      · rw [hall] at hlt
        exact absurd hlt (Nat.lt_irrefl _)
      · exact hnone.1
    have heq : List.replicate entries.length [] = entries :=
      (List.eq_replicate_of_mem (List.flatten_eq_nil_iff.mp hnil)).symm
    exact ⟨heq, congrArg (List.map List.length) heq⟩
  | complete =>
    exact ⟨List.append_nil _, congrArg (List.map List.length) (List.append_nil _)⟩

end

section
variable {io : ResultImpl} {entries : List Bytes} {received buf more tail : Bytes}
  {behind : Bytes → Bytes}

/-- What a result does with the next bytes of the response, which may go on behind its
entries: it takes all of them, or the ones that complete its entries. -/
def Takes (behind : Bytes → Bytes) (buf : Bytes) (entries : List Bytes) (received : Bytes)
    (io : ResultImpl) : Prop :=
  ∃ taken rest io', buf = taken ++ rest ∧
    io.setNextRawResult behind buf false = some (.ok taken.length, io') ∧
    Received entries (received ++ taken) io' ∧ io'.output = io.output ∧
    (rest = [] ∨ received ++ taken = entries.flatten)

theorem takes_fixed {done left : List Bytes} (hbuf : buf ≠ []) (hfixed : FixedEntries entries io)
    (hdone : ∀ x ∈ done, x.length = io.batch1ByteSize)
    (hleft : ∀ x ∈ left, x.length ≤ io.batch1ByteSize) (htail : ∀ x ∈ left.tail, x = [])
    (hlength : (done ++ left).length = entries.length)
    (hnext : (done ++ left).flatten ++ buf ++ more = entries.flatten ++ tail) :
    Takes behind buf entries (done ++ left).flatten (io.filled done left) := by
  have hset : (io.filled done left).setNextRawResult behind buf false =
      ((io.filled done left).setBatchRawResult io.batch1ByteSize buf).map
        fun (resultBytes, io) => (.ok resultBytes, io) := by
    unfold setNextRawResult
    rw [if_neg fun h => absurd h.1 Bool.false_ne_true]
    exact if_pos hfixed.fixed
  unfold Takes
  rw [hset]
  rcases Nat.eq_zero_or_pos io.batch1ByteSize with hzero | hpos
  · -- the entries have no bytes
    have hempty : ∀ x ∈ done ++ left, x.length = io.batch1ByteSize :=
      List.forall_mem_append.mpr ⟨hdone, fun x hx => by have := hleft x hx; omega⟩
    have hnil : (done ++ left).flatten = entries.flatten := by
      have hlength' := length_flatten_eq hempty
      have hlength'' := length_flatten_eq hfixed.size
      rw [hzero, Nat.mul_zero] at hlength' hlength''
      rw [List.eq_nil_of_length_eq_zero hlength', List.eq_nil_of_length_eq_zero hlength'']
    refine ⟨[], buf, io.filled (done ++ left) [], rfl, ?_, ?_, rfl, .inr ?_⟩
    · rw [hzero, setBatchRawResult_zero]
      rfl
    · have hreceived := Received.fixed hfixed hempty
        (show ∀ x ∈ ([] : List Bytes), x.length ≤ io.batch1ByteSize from nofun) nofun
        (by rw [List.append_nil, hlength])
      rwa [List.append_nil] at hreceived ⊢
    · rw [List.append_nil, hnil]
  · obtain ⟨done', left', taken, rest, hbuf', hloop, hdone', hleft', htail', hlength', hflatten,
      hend⟩ := setBatchLoop_spec (b := io.batch1ByteSize)
        (show left.length < buf.length + (done ++ left).length by
          have := List.length_pos_iff.mpr hbuf
          rw [List.length_append]
          omega) hleft htail
    have hall : (done ++ done' ++ left').flatten = (done ++ left).flatten ++ taken := by
      rw [List.append_assoc, List.flatten_append, hflatten, List.flatten_append,
        List.append_assoc]
    refine ⟨taken, rest, io.filled (done ++ done') left', hbuf', ?_, ?_, rfl, ?_⟩
    · unfold setBatchRawResult
      rw [if_neg (Nat.ne_of_gt hpos)]
      show (setBatchLoop _ (buf.length + (done ++ left).length + 1) _ _ _).map _ = _
      rw [hloop, Nat.zero_add]
      rfl
    · rw [← hall]
      refine .fixed hfixed (List.forall_mem_append.mpr ⟨hdone, hdone'⟩) hleft' htail' ?_
      rw [List.append_assoc, List.length_append, hlength', ← List.length_append, hlength]
    · refine hend.imp_right ?_
      rintro rfl
      rw [List.append_nil] at hall hlength'
      have hsum := length_flatten_eq (List.forall_mem_append.mpr ⟨hdone, hdone'⟩)
      have hsum' := length_flatten_eq hfixed.size
      have hcount : (done ++ done').length = entries.length := by
        rw [List.length_append, hlength', ← List.length_append, hlength]
      rw [hall, hcount, ← hsum'] at hsum
      rw [hbuf', ← List.append_assoc, List.append_assoc _ rest] at hnext
      exact (List.append_inj hnext hsum).1

/-- All strings have come: they are put into the buffers. -/
theorem setBatches_all (hstrings : StringEntries entries io) (hne : entries ≠ []) :
    (io.filled [] (List.replicate entries.length [])).setBatches (entries.map List.length)
      (entries.flatten ++ tail) = some (.ok, io.filled entries []) := by
  obtain ⟨batches, rfl, hcnt, -⟩ := hstrings.encoded
  rcases Nat.eq_zero_or_pos io.batch1ElementCount with hzero | hpos
  · -- without elements, no entry has bytes
    have hempty : ∀ entry ∈ batches.map encodeAll, entry = [] := by
      intro entry hentry
      obtain ⟨strings, hmem, rfl⟩ := List.mem_map.mp hentry
      rw [List.eq_nil_of_length_eq_zero ((hcnt strings hmem).trans hzero), encodeAll_nil]
    have hsizes : ∀ sz ∈ (batches.map encodeAll).map List.length, sz = 0 := by
      intro sz hsz
      obtain ⟨entry, hmem, rfl⟩ := List.mem_map.mp hsz
      rw [hempty entry hmem, List.length_nil]
    rw [setBatches_empty _ hsizes (mt List.map_eq_nil_iff.mp hne), List.nil_append,
      ← List.eq_replicate_of_mem hempty]
  · refine setBatches_entries (fun entry hentry hnil => ?_) tail
    obtain ⟨strings, hmem, rfl⟩ := List.mem_map.mp hentry
    have hlength := hcnt strings hmem
    cases strings with
    | nil => exact absurd hlength (Nat.ne_of_lt hpos)
    | cons s strings =>
      rw [encodeAll_cons, word] at hnil
      cases hnil

theorem StringEntries.withPending (h : StringEntries entries io) (pending : Bytes) :
    StringEntries entries { io with pending := pending } :=
  ⟨h.resultFormat, h.strings, h.batchSize, h.encoded⟩

theorem takes_strings (hstrings : StringEntries entries io)
    (hpending : io.pending.length < entries.flatten.length ∨
      entries.flatten = [] ∧ io.pending = [])
    (hnext : io.pending ++ buf ++ more = entries.flatten ++ tail) :
    Takes behind buf entries io.pending (io.filled [] (List.replicate entries.length [])) := by
  have hset : (io.filled [] (List.replicate entries.length [])).setNextRawResult behind buf false =
      (io.filled [] (List.replicate entries.length [])).setNextStrings behind buf := by
    unfold setNextRawResult
    rw [if_neg fun h => absurd h.1 Bool.false_ne_true]
    exact if_neg (by show ¬ io.hasFixedBatch1ByteSize = true; rw [hstrings.strings]; nofun)
  unfold Takes
  rw [hset]
  unfold setNextStrings
  split
  · next hidx =>
    -- there are no entries
    have hnone : entries = [] := List.eq_nil_of_length_eq_zero (by simpa [filled] using hidx.symm)
    subst hnone
    obtain hlt | ⟨-, hnil⟩ := hpending
    · cases hlt
    · refine ⟨[], buf, _, rfl, rfl, ?_, rfl, .inr (by rw [List.append_nil, hnil]; rfl)⟩
      rw [List.append_nil]
      exact .strings hstrings (.inr ⟨rfl, hnil⟩)
  · next hidx =>
    have hne : entries ≠ [] := by
      rintro rfl
      exact hidx rfl
    obtain ⟨batches, hentries, hcnt, hlen⟩ := hstrings.encoded
    have hbatches : batches.length = io.batchSize := by
      rw [← hstrings.batchSize, hentries, List.length_map]
    obtain ⟨hall, hpart⟩ := batchByteSizes_spec [] hcnt hlen
      (by rw [List.nil_append, ← hentries]; exact hnext) (Nat.zero_le (io.pending ++ buf).length)
    rw [← hentries, hbatches, List.length_nil, Nat.zero_add] at hall hpart
    -- what was pending, and the new bytes if there was something
    let appended : ResultImpl :=
      { io with pending := if io.pending.isEmpty then io.pending else io.pending ++ buf }
    have happended : (if io.pending.isEmpty then io.filled [] (List.replicate entries.length [])
        else { io.filled [] (List.replicate entries.length []) with
          pending := io.pending ++ buf }) =
        appended.filled [] (List.replicate entries.length []) := by
      unfold appended
      split
      · rfl
      · rfl
    have hpend : (io.filled [] (List.replicate entries.length [])).pending = io.pending := rfl
    simp only [hpend, happended]
    rcases Nat.lt_or_ge (io.pending ++ buf).length entries.flatten.length with hlt | hge
    · refine ⟨buf, [], { io with pending := io.pending ++ buf }.filled []
        (List.replicate entries.length []), (List.append_nil _).symm, ?_, ?_, rfl, .inl rfl⟩
      · refine (if_pos (hpart hlt)).trans ?_
        show some (_, if appended.pending.isEmpty then
          { appended with pending := buf }.filled [] (List.replicate entries.length [])
          else appended.filled [] (List.replicate entries.length [])) = _
        unfold appended
        cases hold : io.pending with
        | nil => rfl
        | cons byte pending => rfl
      · exact @Received.strings entries { io with pending := io.pending ++ buf }
          (hstrings.withPending _) (.inl hlt)
    · have hold : io.pending.length ≤ entries.flatten.length := by
        obtain hlt | ⟨hnil, hnone⟩ := hpending
        · exact hlt.le
        · rw [hnone]
          exact Nat.zero_le _
      have hdata : (io.pending ++ buf).take entries.flatten.length = entries.flatten := by
        have htake := congrArg (List.take entries.flatten.length) hnext
        rwa [List.take_append_of_le_length hge, List.take_left] at htake
      have htaken : io.pending ++ buf.take (entries.flatten.length - io.pending.length) =
          entries.flatten := by
        rw [List.take_append, List.take_of_length_le hold] at hdata
        exact hdata
      have hbatchset : (appended.filled [] (List.replicate entries.length [])).setBatches
          (entries.map List.length) (io.pending ++ buf) =
            some (.ok, appended.filled entries []) := by
        rw [← List.take_append_drop entries.flatten.length (io.pending ++ buf), hdata]
        exact setBatches_all (hstrings.withPending _) hne
      refine ⟨buf.take (entries.flatten.length - io.pending.length),
        buf.drop (entries.flatten.length - io.pending.length),
        { io with pending := [] }.filled entries [], (List.take_append_drop _ _).symm, ?_, ?_, rfl,
        .inr htaken⟩
      · have hcount : (appended.filled [] (List.replicate entries.length [])).batch1ElementCount =
            io.batch1ElementCount := rfl
        have hbatch : (appended.filled [] (List.replicate entries.length [])).batchSize =
            io.batchSize := rfl
        have hidx' : (appended.filled entries []).bufsIdx =
            (appended.filled entries []).buffers.length := by simp [filled]
        have hlength : (buf.take (entries.flatten.length - io.pending.length)).length =
            buf.length - ((io.pending ++ buf).length - entries.flatten.length) := by
          rw [List.length_append] at hge ⊢
          rw [List.length_take]
          omega
        have hsizes : ¬ (entries.map List.length).length < io.batchSize := by
          rw [List.length_map, hstrings.batchSize]
          exact Nat.lt_irrefl _
        simp only [hcount, hbatch, hall hge, if_neg hsizes, hbatchset, hlength]
        rw [if_pos (show Status.ok.isOk from rfl), if_neg (not_not.mpr hidx')]
        rfl
      · rw [htaken]
        exact .complete (hstrings.withPending [])

theorem takes_complete (hstrings : StringEntries entries io) :
    Takes behind buf entries entries.flatten (io.filled entries []) := by
  refine ⟨[], buf, io.filled entries [], rfl, ?_, ?_, rfl, .inr (List.append_nil _)⟩
  · unfold setNextRawResult
    rw [if_neg fun h => absurd h.1 Bool.false_ne_true]
    have hidx : (io.filled entries []).bufsIdx = (io.filled entries []).buffers.length := by
      simp [filled]
    show (if io.hasFixedBatch1ByteSize then _ else _) = _
    rw [hstrings.strings]
    unfold setNextStrings
    exact if_pos hidx
  · rw [List.append_nil]
    exact .complete hstrings

/-- A raw output takes the next bytes of the response until its entries are complete. -/
theorem setNextRawResult_spec (hbuf : buf ≠ []) (h : Received entries received io)
    (hraw : io.output.resultFormat = .raw)
    (hnext : received ++ buf ++ more = entries.flatten ++ tail) :
    Takes behind buf entries received io := by
  cases h with
  | classes hclasses => cases hraw.symm.trans hclasses
  | fixed hfixed hdone hleft htail hlength =>
    exact takes_fixed hbuf hfixed hdone hleft htail hlength hnext
  | strings hstrings hpending => exact takes_strings hstrings hpending hnext
  | complete hstrings => exact takes_complete hstrings

end

end ResultImpl

end FinBert.Client
