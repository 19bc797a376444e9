import FinBert.Client.Chunks
import FinBert.Lib.Slices

/-!
# The lengths that a string result reads

To find the end of each batch entry, `ResultImpl::SetNextRawResult` (`request_common.cc`) reads the
length in front of every string, as a 32-bit word at an offset into the bytes received so far. That
the offset is behind these bytes is only found out when the word has been added to it.

Results:
1. `batchReads_eq`: the lengths of all entries are read as those of one list of strings.
2. `entryReads_spec`: when these reads stay inside of the buffer.
3. `readsInside_iff`: the same over every sequence of chunks.
-/

namespace FinBert.Client

open FinBert.Serving LengthPrefixed

namespace ResultImpl

/-! ## What is read -/

/-- The offsets of the words that the loop over the elements of a batch entry reads. -/
def entryReads (buf behind : Bytes) : Nat → Nat → List Nat
  | 0, _ => []
  | elements + 1, bufOffset =>
    let len := wordAt (buf ++ behind) bufOffset
    if bufOffset + (4 + len) > buf.length then [bufOffset]
    else bufOffset :: entryReads buf behind elements (bufOffset + (4 + len))

/-- The offsets of the words that the loop over the batch entries reads. -/
def batchReads (buf behind : Bytes) (batch1ElementCount : Nat) : Nat → Nat → List Nat
  | 0, _ => []
  | batches + 1, bufOffset =>
    let bufOffset' := (entryByteSize buf behind batch1ElementCount 0 bufOffset).2
    entryReads buf behind batch1ElementCount bufOffset ++
      if bufOffset' > buf.length then []
      else batchReads buf behind batch1ElementCount batches bufOffset'

/-- A word that is read: its offset, and the bytes received so far. -/
structure WordRead where
  received : Bytes
  offset : Nat
deriving DecidableEq

/-- The words that one call of `SetNextRawResult` reads. -/
def setNextReads (behind : Bytes → Bytes) (buf : Bytes) (inplace : Bool) (io : ResultImpl) :
    List WordRead :=
  if inplace ∧ io.inplace then []
  else if io.hasFixedBatch1ByteSize then []
  else if io.bufsIdx = io.buffers.length then []
  else
    let data := io.pending ++ buf
    (batchReads data (behind data) io.batch1ElementCount io.batchSize 0).map
      ({ received := data, offset := · })

/-- The words that calls with these chunks read. -/
def reads (behind : Bytes → Bytes) (inplace : Bool) : List Bytes → ResultImpl → List WordRead
  | [], _ => []
  | chunk :: chunks, io =>
    io.setNextReads behind chunk inplace ++
      match io.setNextRawResult behind chunk inplace with
      | none => []
      | some (_, io) => reads behind inplace chunks io

/-- The word lies completely inside of the bytes received so far. -/
def WordRead.Inside (read : WordRead) : Prop := read.offset + 4 ≤ read.received.length

instance (read : WordRead) : Decidable read.Inside := inferInstanceAs (Decidable (_ ≤ _))

/-- The result that is created for a string output. -/
def stringResult (name : String) (batchSize : Nat) (dims : List Int) : ResultImpl :=
  newResult { name, dType := .string, resultFormat := .raw } batchSize { name, dims }

/-- The number of the strings of all batch entries. -/
def stringCount (batchSize : Nat) (dims : List Int) : Nat :=
  batchSize * uint64 (getElementCount dims)

/-- The whole strings of these bytes are all `n` strings, or the whole length of the next one
stands behind them. -/
def ShowsLength (n : Nat) (received : Bytes) : Prop :=
  (decode n received).1.length = n ∨ 4 ≤ (decode n received).2.length

instance (n : Nat) (received : Bytes) : Decidable (ShowsLength n received) :=
  inferInstanceAs (Decidable (_ ∨ _))

/-! ## One call -/

section
variable {buf behind : Bytes}

/-- A list of strings is read from its first ones and the others, unless it ends before. -/
theorem entryReads_add (elements elements' batchByteSize bufOffset : Nat)
    (hoffset : bufOffset ≤ buf.length) :
    entryReads buf behind (elements + elements') bufOffset =
        entryReads buf behind elements bufOffset ++
          (if (entryByteSize buf behind elements batchByteSize bufOffset).2 > buf.length then []
          else entryReads buf behind elements'
            (entryByteSize buf behind elements batchByteSize bufOffset).2) := by
  induction elements generalizing batchByteSize bufOffset with
  | zero =>
    show _ = [] ++ if bufOffset > buf.length then [] else entryReads buf behind elements' bufOffset
    rw [Nat.zero_add, if_neg (Nat.not_lt.mpr hoffset)]
    rfl
  | succ elements ih =>
    rw [Nat.succ_add]
    by_cases hend : bufOffset + (4 + wordAt (buf ++ behind) bufOffset) > buf.length
    · simp only [entryReads, entryByteSize, if_pos hend, List.append_nil]
    · simp only [entryReads, entryByteSize, if_neg hend, List.cons_append]
      exact congrArg _ (ih _ _ (Nat.not_lt.mp hend))

/-- The lengths of all entries are read as those of one list of strings. -/
theorem batchReads_eq (cnt batches bufOffset : Nat) (hoffset : bufOffset ≤ buf.length) :
    batchReads buf behind cnt batches bufOffset =
      entryReads buf behind (batches * cnt) bufOffset := by
  induction batches generalizing bufOffset with
  | zero => rw [Nat.zero_mul, batchReads, entryReads]
  | succ batches ih =>
    rw [Nat.succ_mul, Nat.add_comm (batches * cnt), entryReads_add cnt _ 0 bufOffset hoffset,
      batchReads]
    split
    · rfl
    · next hend => rw [ih _ (Nat.not_lt.mp hend)]

/-- The length of a string that begins behind `before`. -/
theorem wordAt_behind {before bytes : Bytes} {b₀ b₁ b₂ b₃ : UInt8}
    (hbuf : buf = before ++ b₀ :: b₁ :: b₂ :: b₃ :: bytes) :
    wordAt (buf ++ behind) before.length = ofBytes b₀ b₁ b₂ b₃ ∧
      buf.length = before.length + (bytes.length + 4) := by
  constructor
  · rw [hbuf, List.append_assoc]
    exact wordAt_append
  · rw [hbuf, List.length_append]
    rfl

/-- The words that are read of a list of strings lie inside of the buffer exactly if the buffer
shows the length of the string at its end. -/
theorem entryReads_spec (n : Nat) (bytes before : Bytes) (hbuf : buf = before ++ bytes) :
    (∀ offset ∈ entryReads buf behind n before.length, offset + 4 ≤ buf.length) ↔
      ShowsLength n bytes := by
  unfold ShowsLength
  fun_induction decode n bytes generalizing before with
  | case1 n b₀ b₁ b₂ b₃ bytes hlen =>
    obtain ⟨hword, hlength⟩ := @wordAt_behind buf behind before _ _ _ _ _ hbuf
    simp only [entryReads, hword]
    rw [if_pos (by omega), List.forall_mem_singleton]
    exact iff_of_true (by omega) (.inr (Nat.le_add_left 4 _))
  | case2 n b₀ b₁ b₂ b₃ bytes hlen strings rest hdecode ih =>
    obtain ⟨hword, hlength⟩ := @wordAt_behind buf behind before _ _ _ _ _ hbuf
    have hbefore : (before ++ b₀ :: b₁ :: b₂ :: b₃ :: bytes.take (ofBytes b₀ b₁ b₂ b₃)).length =
        before.length + (4 + ofBytes b₀ b₁ b₂ b₃) := by
      simp only [List.length_append, List.length_cons, List.length_take]
      omega
    have hrest := ih (before ++ b₀ :: b₁ :: b₂ :: b₃ :: bytes.take (ofBytes b₀ b₁ b₂ b₃)) (by
      rw [hbuf, List.append_assoc]
      simp only [List.cons_append, List.take_append_drop])
    rw [hdecode, hbefore] at hrest
    simp only [entryReads, hword]
    rw [if_neg (by omega), List.forall_mem_cons, List.length_cons, Nat.add_right_cancel_iff]
    exact (and_iff_right (by omega)).trans hrest
  | case3 n bytes hnot =>
    cases n with
    | zero => exact iff_of_true (List.forall_mem_nil _) (.inl rfl)
    | succ n =>
      have hshort : bytes.length < 4 := by
        rcases bytes with _ | ⟨b₀, _ | ⟨b₁, _ | ⟨b₂, _ | ⟨b₃, bytes⟩⟩⟩⟩
        · exact Nat.zero_lt_succ 3
        · exact Nat.succ_lt_succ (Nat.zero_lt_succ 2)
        · exact Nat.succ_lt_succ (Nat.succ_lt_succ (Nat.zero_lt_succ 1))
        · exact Nat.lt_succ_self 3
        · exact (hnot n b₀ b₁ b₂ b₃ bytes rfl rfl).elim
      refine iff_of_false (fun hinside => ?_) ?_
      · have hfirst := hinside before.length (by
          simp only [entryReads]
          split <;> exact List.mem_cons_self)
        rw [hbuf, List.length_append] at hfirst
        omega
      · rintro (hall | hfour)
        · cases hall
        · exact absurd hfour (Nat.not_le.mpr hshort)

end

/-! ## What stays as it is -/

/-- The parts of a result that no bytes change. -/
structure SameOutput (io io' : ResultImpl) : Prop where
  inplace : io'.inplace = io.inplace
  hasFixedBatch1ByteSize : io'.hasFixedBatch1ByteSize = io.hasFixedBatch1ByteSize
  batchSize : io'.batchSize = io.batchSize
  batch1ElementCount : io'.batch1ElementCount = io.batch1ElementCount

section
variable {io io' : ResultImpl}

theorem SameOutput.refl (io : ResultImpl) : SameOutput io io := ⟨rfl, rfl, rfl, rfl⟩

theorem SameOutput.trans {io'' : ResultImpl} (h : SameOutput io io') (h' : SameOutput io' io'') :
    SameOutput io io'' :=
  ⟨h'.inplace.trans h.inplace, h'.hasFixedBatch1ByteSize.trans h.hasFixedBatch1ByteSize,
    h'.batchSize.trans h.batchSize, h'.batch1ElementCount.trans h.batch1ElementCount⟩

theorem sameOutput_setBatchLoop {batch1ByteSize iterations totalSize totalSize' : Nat}
    {buf : Bytes}
    (h : setBatchLoop batch1ByteSize iterations buf totalSize io = some (totalSize', io')) :
    SameOutput io io' := by
  induction iterations generalizing buf totalSize io with
  | zero => cases h
  | succ iterations ih =>
    rw [setBatchLoop] at h
    split at h
    · refine SameOutput.trans ?_ (ih h)
      split <;> split <;> exact ⟨rfl, rfl, rfl, rfl⟩
    · obtain ⟨-, rfl⟩ := Prod.mk.inj (Option.some.inj h)
      exact .refl io

theorem sameOutput_setBatchRawResult {batch1ByteSize resultBytes : Nat} {buf : Bytes}
    (h : io.setBatchRawResult batch1ByteSize buf = some (resultBytes, io')) :
    SameOutput io io' := by
  unfold setBatchRawResult at h
  refine SameOutput.trans ?_ (sameOutput_setBatchLoop h)
  split <;> exact ⟨rfl, rfl, rfl, rfl⟩

theorem sameOutput_setBatches {sizes : List Nat} {buf : Bytes} {status : Status}
    (h : io.setBatches sizes buf = some (status, io')) : SameOutput io io' := by
  induction sizes generalizing buf io with
  | nil =>
    obtain ⟨-, rfl⟩ := Prod.mk.inj (Option.some.inj h)
    exact .refl io
  | cons sz sizes ih =>
    rw [setBatches] at h
    split at h
    · cases h
    · next resultBytes io₁ hset =>
      refine SameOutput.trans (sameOutput_setBatchRawResult hset) ?_
      split at h
      · obtain ⟨-, rfl⟩ := Prod.mk.inj (Option.some.inj h)
        exact .refl io₁
      · exact ih h

theorem sameOutput_setNextStrings {behind : Bytes → Bytes} {buf : Bytes}
    {result : Except Status Nat} (h : io.setNextStrings behind buf = some (result, io')) :
    SameOutput io io' := by
  unfold setNextStrings at h
  split at h
  · obtain ⟨-, rfl⟩ := Prod.mk.inj (Option.some.inj h)
    exact .refl io
  · have hpending : SameOutput io (if io.pending.isEmpty then io
        else { io with pending := io.pending ++ buf }) := by
      split <;> exact ⟨rfl, rfl, rfl, rfl⟩
    dsimp only at h
    generalize (if io.pending.isEmpty then io
      else { io with pending := io.pending ++ buf }) = io₁ at h hpending
    refine hpending.trans ?_
    split at h
    · obtain ⟨-, rfl⟩ := Prod.mk.inj (Option.some.inj h)
      split <;> exact ⟨rfl, rfl, rfl, rfl⟩
    · split at h
      · cases h
      · next status io₂ hset =>
        refine SameOutput.trans (sameOutput_setBatches hset) ?_
        split at h
        · split at h <;> obtain ⟨-, rfl⟩ := Prod.mk.inj (Option.some.inj h) <;>
            exact ⟨rfl, rfl, rfl, rfl⟩
        · obtain ⟨-, rfl⟩ := Prod.mk.inj (Option.some.inj h)
          exact .refl io₂

/-- A call sets `inplace_`, and leaves the shape of the result. -/
theorem sameOutput_setNextRawResult {behind : Bytes → Bytes} {buf : Bytes} {inplace : Bool}
    {result : Except Status Nat}
    (h : io.setNextRawResult behind buf inplace = some (result, io')) :
    SameOutput { io with inplace := inplace } io' := by
  unfold setNextRawResult at h
  split at h
  · next hrefused =>
    obtain ⟨-, rfl⟩ := Prod.mk.inj (Option.some.inj h)
    exact ⟨hrefused.2.trans hrefused.1.symm, rfl, rfl, rfl⟩
  · simp only at h
    split at h
    · obtain ⟨⟨resultBytes, io₁⟩, hset, heq⟩ := Option.map_eq_some_iff.mp h
      obtain ⟨-, rfl⟩ := Prod.mk.inj heq
      exact sameOutput_setBatchRawResult hset
    · exact sameOutput_setNextStrings h

end

/-! ## Every sequence of chunks -/

section
variable {io : ResultImpl} {entries : List Bytes} {behind : Bytes → Bytes}

/-- Once a call has been made in place, the next ones in place are refused. -/
theorem reads_refused (hinplace : io.inplace = true) (chunks : List Bytes) :
    reads behind true chunks io = [] := by
  induction chunks with
  | nil => rfl
  | cons chunk chunks ih =>
    rw [reads, setNextReads, if_pos ⟨rfl, hinplace⟩, setNextRawResult, if_pos ⟨rfl, hinplace⟩]
    exact ih

/-- A result without strings reads nothing. -/
theorem reads_of_zero (hzero : io.batchSize * io.batch1ElementCount = 0) (inplace : Bool)
    (chunks : List Bytes) : reads behind inplace chunks io = [] := by
  induction chunks generalizing io with
  | nil => rfl
  | cons chunk chunks ih =>
    have hfirst : io.setNextReads behind chunk inplace = [] := by
      unfold setNextReads
      dsimp only
      rw [batchReads_eq _ _ _ (Nat.zero_le _), hzero]
      split
      · rfl
      · split
        · rfl
        · split <;> rfl
    rw [reads, hfirst, List.nil_append]
    split
    · rfl
    · next result io' hset =>
      have hsame := sameOutput_setNextRawResult hset
      exact ih (by rw [hsame.batchSize, hsame.batch1ElementCount]; exact hzero)

/-- A result whose entries are complete reads nothing. -/
theorem reads_complete (hstrings : StringEntries entries io) (chunks : List Bytes) :
    reads behind false chunks (io.filled entries []) = [] := by
  have hidx : (io.filled entries []).bufsIdx = (io.filled entries []).buffers.length := by
    simp [filled]
  have hnot : ¬ (io.filled entries []).hasFixedBatch1ByteSize = true := by
    show ¬ io.hasFixedBatch1ByteSize = true
    rw [hstrings.strings]
    exact Bool.false_ne_true
  induction chunks with
  | nil => rfl
  | cons chunk chunks ih =>
    rw [reads, setNextReads, if_neg fun h => Bool.false_ne_true h.1, if_neg hnot, if_pos hidx,
      setNextRawResult, if_neg fun h => Bool.false_ne_true h.1]
    dsimp only
    rw [if_neg hnot, setNextStrings, if_pos hidx]
    exact ih

theorem encodeAll_flatten (batches : List (List Bytes)) :
    encodeAll batches.flatten = (batches.map encodeAll).flatten := by
  induction batches with
  | nil => rfl
  | cons strings batches ih =>
    rw [List.flatten_cons, encodeAll_append, ih, List.map_cons, List.flatten_cons]

/-- The strings of all entries, one after another. -/
theorem StringEntries.flatten (h : StringEntries entries io) :
    ∃ strings, strings.length = io.batchSize * io.batch1ElementCount ∧
      (∀ s ∈ strings, s.length < 4294967296) ∧ entries.flatten = encodeAll strings := by
  obtain ⟨batches, rfl, hcnt, hlen⟩ := h.encoded
  refine ⟨batches.flatten, ?_, ?_, (encodeAll_flatten batches).symm⟩
  · have hlengths : batches.map List.length =
        List.replicate batches.length io.batch1ElementCount :=
      List.map_eq_replicate_iff.mpr hcnt
    rw [List.length_flatten, hlengths, List.sum_replicate, ← h.batchSize, List.length_map]
    rfl
  · intro s hs
    obtain ⟨strings, hstrings, hmem⟩ := List.mem_flatten.mp hs
    exact hlen strings hstrings s hmem

/-- With all the strings in the buffer, no length is missing. -/
theorem showsLength_of_all (h : StringEntries entries io) (rest : Bytes) :
    ShowsLength (io.batchSize * io.batch1ElementCount) (entries.flatten ++ rest) := by
  obtain ⟨strings, hlength, hbounded, hflatten⟩ := h.flatten
  rw [hflatten, ShowsLength, ← hlength, decode_encodeAll_append hbounded]
  exact .inl rfl

/-- What a result does with the next chunk: it waits for more, or it is complete. -/
theorem setNextRawResult_cases {chunk more tail : Bytes} (hstrings : StringEntries entries io)
    (hpending : io.pending.length < entries.flatten.length)
    (hnext : io.pending ++ chunk ++ more = entries.flatten ++ tail) :
    ∃ resultBytes io', (io.filled [] (List.replicate entries.length [])).setNextRawResult behind
        chunk false = some (.ok resultBytes, io') ∧
      ((∃ io₁, StringEntries entries io₁ ∧ io₁.pending = io.pending ++ chunk ∧
          io₁.pending.length < entries.flatten.length ∧
          io' = io₁.filled [] (List.replicate entries.length [])) ∨
        (∃ io₁ rest, StringEntries entries io₁ ∧ io.pending ++ chunk = entries.flatten ++ rest ∧
          io' = io₁.filled entries [])) := by
  obtain ⟨taken, rest, io', hchunk, hset, hreceived, houtput, hend⟩ :=
    @takes_strings io entries chunk more tail behind hstrings (.inl hpending) hnext
  refine ⟨taken.length, io', hset, ?_⟩
  have hformat : io'.output.resultFormat = .raw := houtput ▸ hstrings.resultFormat
  have hsame := sameOutput_setNextRawResult hset
  generalize hbytes : io.pending ++ taken = bytes at hreceived hend
  cases hreceived with
  | classes hclasses => cases hformat.symm.trans hclasses
  | fixed hfixed =>
    have hfalse := hsame.hasFixedBatch1ByteSize.trans hstrings.strings
    exact absurd (hfalse.symm.trans hfixed.fixed) Bool.false_ne_true
  | @strings io₁ hstrings₁ hpending₁ =>
    have hlt := hpending₁.resolve_right fun h => by
      rw [h.1] at hpending
      exact absurd hpending (Nat.not_lt_zero _)
    have hrest := hend.resolve_right fun h => by
      rw [h] at hlt
      exact absurd hlt (Nat.lt_irrefl _)
    rw [hrest, List.append_nil] at hchunk
    exact .inl ⟨io₁, hstrings₁, by rw [hchunk, hbytes], hlt, rfl⟩
  | @complete io₁ hstrings₁ =>
    exact .inr ⟨io₁, rest, hstrings₁, by rw [hchunk, ← List.append_assoc, hbytes], rfl⟩

/-- The reads of a call, while the strings have not all come. -/
theorem setNextReads_inside_iff (hstrings : StringEntries entries io)
    (hpending : io.pending.length < entries.flatten.length) (chunk : Bytes) :
    (∀ read ∈ (io.filled [] (List.replicate entries.length [])).setNextReads behind chunk false,
        read.Inside) ↔
      ShowsLength (io.batchSize * io.batch1ElementCount) (io.pending ++ chunk) := by
  have hidx : ¬ (io.filled [] (List.replicate entries.length [])).bufsIdx =
      (io.filled [] (List.replicate entries.length [])).buffers.length := by
    intro hidx
    have hnone : entries = [] :=
      List.eq_nil_of_length_eq_zero (by simpa [filled] using hidx.symm)
    rw [hnone] at hpending
    exact Nat.not_lt_zero _ hpending
  rw [setNextReads, if_neg fun h => Bool.false_ne_true h.1,
    if_neg (by show ¬ io.hasFixedBatch1ByteSize = true; rw [hstrings.strings]; decide),
    if_neg hidx, List.forall_mem_map]
  show (∀ offset ∈ batchReads (io.pending ++ chunk) _ io.batch1ElementCount io.batchSize 0,
    offset + 4 ≤ (io.pending ++ chunk).length) ↔ _
  rw [batchReads_eq _ _ _ (Nat.zero_le _)]
  exact entryReads_spec _ (io.pending ++ chunk) [] rfl

/-- What has come after some of the chunks: the first one alone, or more behind it. -/
theorem forall_received_cons {P : Bytes → Prop} (pending chunk : Bytes) (chunks : List Bytes) :
    (∀ received, received <+: chunk :: chunks → received ≠ [] → P (pending ++ received.flatten)) ↔
      P (pending ++ chunk) ∧ ∀ received, received <+: chunks → received ≠ [] →
        P (pending ++ chunk ++ received.flatten) := by
  constructor
  · intro h
    refine ⟨?_, fun received hinitial _ => ?_⟩
    · have hone := h [chunk] (List.prefix_append [chunk] chunks) (List.cons_ne_nil _ _)
      rwa [List.flatten_singleton] at hone
    · have hmore := h (chunk :: received) (List.cons_prefix_cons.mpr ⟨rfl, hinitial⟩)
        (List.cons_ne_nil _ _)
      rwa [List.flatten_cons, ← List.append_assoc] at hmore
  · rintro ⟨hone, hmore⟩ received hinitial hne
    obtain rfl | ⟨received', rfl, hinitial'⟩ := List.prefix_cons_iff.mp hinitial
    · exact absurd rfl hne
    · rw [List.flatten_cons, ← List.append_assoc]
      rcases eq_or_ne received' [] with rfl | hne'
      · rw [List.flatten_nil, List.append_nil]
        exact hone
      · exact hmore received' hinitial' hne'

/-- The reads of all calls, while the strings have not all come. -/
theorem reads_strings {chunks : List Bytes} {more tail : Bytes}
    (hstrings : StringEntries entries io)
    (hpending : io.pending.length < entries.flatten.length)
    (hnext : io.pending ++ chunks.flatten ++ more = entries.flatten ++ tail) :
    (∀ read ∈ reads behind false chunks (io.filled [] (List.replicate entries.length [])),
        read.Inside) ↔
      ∀ received, received <+: chunks → received ≠ [] →
        ShowsLength (io.batchSize * io.batch1ElementCount) (io.pending ++ received.flatten) := by
  induction chunks generalizing io with
  | nil =>
    refine iff_of_true (List.forall_mem_nil _) fun received hinitial hne => ?_
    exact absurd (List.prefix_nil.mp hinitial) hne
  | cons chunk chunks ih =>
    rw [List.flatten_cons, ← List.append_assoc, List.append_assoc _ _ more] at hnext
    obtain ⟨resultBytes, io', hset, hcases⟩ :=
      @setNextRawResult_cases io entries behind _ _ _ hstrings hpending hnext
    have hsame := sameOutput_setNextRawResult hset
    rw [reads, hset, List.forall_mem_append, setNextReads_inside_iff hstrings hpending,
      forall_received_cons]
    refine and_congr_right fun _ => ?_
    rcases hcases with ⟨io₁, hstrings₁, hpending₁, hlt, rfl⟩ | ⟨io₁, rest, hstrings₁, hall, rfl⟩
    · have hrest := @ih io₁ hstrings₁ hlt
        (by rw [hpending₁, List.append_assoc, hnext])
      have hbatchSize : io₁.batchSize = io.batchSize := hsame.batchSize
      have hcount : io₁.batch1ElementCount = io.batch1ElementCount := hsame.batch1ElementCount
      rw [hbatchSize, hcount, hpending₁] at hrest
      exact hrest
    · rw [hall]
      refine iff_of_true ?_ fun received _ _ => ?_
      · simp only [reads_complete hstrings₁]
        exact List.forall_mem_nil _
      · rw [List.append_assoc]
        exact showsLength_of_all hstrings _

/-- A result before the first chunk. -/
theorem stringResult_filled (name : String) (batchSize : Nat) (dims : List Int) :
    (stringResult name batchSize dims).filled [] (List.replicate batchSize []) =
      stringResult name batchSize dims := by
  unfold filled stringResult newResult setBatch1Shape create
  simp [isFixedSizeDataType]

theorem readsInside_notInplace (name : String) (batchSize : Nat) (dims : List Int)
    (behind : Bytes → Bytes) (chunks : List Bytes) :
    (∀ read ∈ reads behind false chunks (stringResult name batchSize dims), read.Inside) ↔
      ∀ received, received <+: chunks → received ≠ [] →
        ShowsLength (stringCount batchSize dims) received.flatten := by
  have hbatchSize : (stringResult name batchSize dims).batchSize = batchSize := rfl
  have hcount : (stringResult name batchSize dims).batch1ElementCount =
      uint64 (getElementCount dims) := rfl
  rcases Nat.eq_zero_or_pos (stringCount batchSize dims) with hzero | hpos
  · rw [reads_of_zero (by rw [hbatchSize, hcount]; exact hzero), hzero]
    refine iff_of_true (List.forall_mem_nil _) fun received _ _ => .inl ?_
    rw [decode_zero]
    rfl
  -- the chunks are the beginning of some strings
  obtain ⟨strings, more, tail, hlength, hbounded, hnext⟩ :=
    exists_encodeAll_append (stringCount batchSize dims) chunks.flatten
  let batches := slices (List.replicate batchSize (uint64 (getElementCount dims))) strings
  have hsum : (List.replicate batchSize (uint64 (getElementCount dims))).sum = strings.length := by
    rw [List.sum_replicate, hlength]
    rfl
  have hsizes : batches.map List.length =
      List.replicate batchSize (uint64 (getElementCount dims)) := map_length_slices hsum.le
  have hflatten : batches.flatten = strings := by
    rw [flatten_slices, hsum, List.take_length]
  have hentries : (batches.map encodeAll).length = batchSize := by
    rw [List.length_map, length_slices, List.length_replicate]
  have hstrings : StringEntries (batches.map encodeAll) (stringResult name batchSize dims) := by
    refine ⟨rfl, rfl, hentries, batches, rfl, fun strings' hmem => ?_, fun strings' hmem s hs => ?_⟩
    · exact List.eq_of_mem_replicate (hsizes ▸ List.mem_map_of_mem hmem)
    · exact hbounded s (hflatten ▸ List.mem_flatten.mpr ⟨strings', hmem, hs⟩)
  have hpending : (stringResult name batchSize dims).pending.length <
      (batches.map encodeAll).flatten.length := by
    rw [← encodeAll_flatten, hflatten]
    cases strings with
    | nil => exact absurd hlength (Nat.ne_of_lt hpos)
    | cons s strings => exact Nat.succ_pos _
  have hreads := @reads_strings _ _ behind chunks more tail hstrings hpending (by
    rw [← encodeAll_flatten, hflatten]
    exact hnext)
  rw [hentries, stringResult_filled] at hreads
  exact hreads

/-- The chunks that are not refused. -/
def accepted (inplace : Bool) (chunks : List Bytes) : List Bytes :=
  if inplace then chunks.take 1 else chunks

/-- Every word that the calls read lies inside of the bytes received so far if and only if these
bytes, whenever a chunk has come, show the length of the string at their end. -/
theorem readsInside_iff (name : String) (batchSize : Nat) (dims : List Int)
    (behind : Bytes → Bytes) (inplace : Bool) (chunks : List Bytes) :
    (∀ read ∈ reads behind inplace chunks (stringResult name batchSize dims), read.Inside) ↔
      ∀ received, received <+: accepted inplace chunks → received ≠ [] →
        ShowsLength (stringCount batchSize dims) received.flatten := by
  rw [← readsInside_notInplace name batchSize dims behind]
  cases inplace with
  | false => rfl
  | true =>
    cases chunks with
    | nil => rfl
    | cons chunk chunks =>
      -- of calls in place, only the first one is not refused
      have hrest : (match (stringResult name batchSize dims).setNextRawResult behind chunk true with
          | none => []
          | some (_, io) => reads behind true chunks io) = [] := by
        split
        · rfl
        · next hset => exact reads_refused (sameOutput_setNextRawResult hset).inplace chunks
      have hnone :
          (match (stringResult name batchSize dims).setNextRawResult behind chunk false with
          | none => []
          | some (_, io) => reads behind false [] io) = [] := by
        split <;> rfl
      have hsame : (stringResult name batchSize dims).setNextReads behind chunk true =
          (stringResult name batchSize dims).setNextReads behind chunk false := rfl
      rw [accepted, if_pos rfl, List.take_succ_cons, List.take_zero, reads, reads, hrest, hnone,
        hsame]

/-- The length of the second string is cut off behind the first one: the four bytes that are read
for it lie behind the chunk. -/
theorem readOutside_secondLength : ¬ ∀ read ∈ reads (fun _ => []) false [word 0, word 0]
    (stringResult "o" 1 [2]), read.Inside := by
  decide

end

end ResultImpl

end FinBert.Client
