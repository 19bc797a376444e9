import FinBert.Client.Result

/-!
# Responses in chunks

`HttpRequestImpl::SetNextRawResult` (`request_http.cc`) takes the body of a response in the chunks
in which the network delivers it, and gives the bytes to the results of the outputs in the order
of the response header; what is left is the serialized `InferResponseHeader`.

Results:
1. `setNextLoop_spec`: what one chunk does to the results.
2. `receive_chunks`: the results do not depend on the chunks.
-/

namespace FinBert.Client

open FinBert.Serving LengthPrefixed

/-! ## `HttpRequestImpl` -/

/-- `InferResponseHeader::Output`, with its `raw`, which is empty for an output with classes. -/
structure RawOutput where
  name : String
  dims : List Int := []
  batchByteSize : Nat := 0

/-- `HttpRequestImpl`, with what it keeps of a response. -/
structure HttpRequestImpl where
  orderedResults : List ResultImpl := []
  resultPosIdx : Nat := 0
  inferResponseBuffer : Bytes := []

/-- `InferContextImpl::GetOutput`. -/
def getOutput (modelName : String) (outputs : List OutputImpl) (name : String) :
    Except Status OutputImpl :=
  match outputs.find? (·.name == name) with
  | some output => .ok output
  | none =>
    .error { code := .invalidArg,
             message := "unknown output '" ++ name ++ "' for '" ++ modelName ++ "'" }

/-- The result that `CreateResult` creates. -/
def newResult (inferOutput : OutputImpl) (batchSize : Nat) (output : RawOutput) : ResultImpl :=
  let result := (ResultImpl.create inferOutput batchSize).setBatch1Shape output.dims
  if isFixedSizeDataType inferOutput.dType then result.setBatchnByteSize output.batchByteSize
  else result

namespace HttpRequestImpl

/-- `CreateResult`. -/
def createResult (modelName : String) (outputs : List OutputImpl) (output : RawOutput)
    (batchSize : Nat) (request : HttpRequestImpl) : Except Status HttpRequestImpl :=
  match getOutput modelName outputs output.name with
  | .error status => .error status
  | .ok inferOutput =>
    .ok { request with
      orderedResults := request.orderedResults ++ [newResult inferOutput batchSize output] }

/-- The results for the outputs of a response header, if all of them are created. -/
def createResults (modelName : String) (outputs : List OutputImpl) (batchSize : Nat) :
    List RawOutput → HttpRequestImpl → Except Status HttpRequestImpl
  | [], request => .ok request
  | output :: rest, request =>
    match request.createResult modelName outputs output batchSize with
    | .error status => .error status
    | .ok request => createResults modelName outputs batchSize rest request

/-- The loop of `SetNextRawResult`: the bytes that no result has taken, and the number of those
that were taken. It is `none` as long as the loop has not ended. -/
def setNextLoop (behind : Bytes → Bytes) :
    Nat → Bytes → Nat → HttpRequestImpl → Option (Except Status (Bytes × Nat) × HttpRequestImpl)
  | 0, _, _, _ => none
  | iterations + 1, buf, resultBytes, request =>
    match request.orderedResults[request.resultPosIdx]? with
    | none => some (.ok (buf, resultBytes), request)
    | some io =>
      if buf.length > 0 then
        -- only a raw result is tried
        let next :=
          if io.output.resultFormat = .raw then io.setNextRawResult behind buf false
          else some (.ok 0, io)
        match next with
        | none => none
        | some (.error status, io) =>
          some (.error status, { request with
            orderedResults := request.orderedResults.set request.resultPosIdx io })
        | some (.ok ob, io) =>
          let request := { request with
            orderedResults := request.orderedResults.set request.resultPosIdx io }
          if ob = 0 then
            setNextLoop behind iterations buf resultBytes
              { request with resultPosIdx := request.resultPosIdx + 1 }
          else setNextLoop behind iterations (buf.drop ob) (resultBytes + ob) request
      else some (.ok (buf, resultBytes), request)

/-- `SetNextRawResult`: the number of the bytes that were taken. Every iteration of the loop takes
a byte or goes to the next result. -/
def setNextRawResult (behind : Bytes → Bytes) (buf : Bytes) (request : HttpRequestImpl) :
    Option (Except Status Nat × HttpRequestImpl) :=
  match request.setNextLoop behind (buf.length + request.orderedResults.length + 1) buf 0 with
  | none => none
  | some (.error status, request) => some (.error status, request)
  | some (.ok (rest, resultBytes), request) =>
    if rest.length > 0 then
      some (.ok (resultBytes + rest.length),
        { request with inferResponseBuffer := request.inferResponseBuffer ++ rest })
    else some (.ok resultBytes, request)

/-- The chunks of a body one after another, each with what the memory holds behind a buffer: the
numbers of bytes that were taken of them. -/
def receive :
    List (Bytes × (Bytes → Bytes)) → HttpRequestImpl →
      Option (Except Status (List Nat) × HttpRequestImpl)
  | [], request => some (.ok [], request)
  | (chunk, behind) :: chunks, request =>
    match request.setNextRawResult behind chunk with
    | none => none
    | some (.error status, request) => some (.error status, request)
    | some (.ok resultBytes, request) =>
      match receive chunks request with
      | none => none
      | some (.error status, request) => some (.error status, request)
      | some (.ok sizes, request) => some (.ok (resultBytes :: sizes), request)

/-! ## The results behind a chunk -/

/-- A request with these results, of which the ones in `done` are complete. -/
def reached (request : HttpRequestImpl) (done left : List ResultImpl) : HttpRequestImpl :=
  { request with orderedResults := done ++ left, resultPosIdx := done.length }

/-- The results that are not complete: the first one has received some bytes, and the others have
received nothing. -/
inductive Waits : List (List Bytes) → List ResultImpl → Bytes → Prop
  | nil : Waits [] [] []
  | cons {entries : List Bytes} {rest : List (List Bytes)} {io : ResultImpl}
      {ios : List ResultImpl} {received : Bytes} : io.Received entries received →
      List.Forall₂ (fun entries io => io.Received entries []) rest ios →
      Waits (entries :: rest) (io :: ios) received

/-- The results that are complete. -/
def Complete (entries : List (List Bytes)) (ios : List ResultImpl) : Prop :=
  List.Forall₂ (fun entries io => io.Received entries entries.flatten) entries ios

section
variable {behind : Bytes → Bytes} {request : HttpRequestImpl} {done left ios : List ResultImpl}
  {entries : List (List Bytes)} {received buf more tail : Bytes}

theorem waits_of_forall₂
    (h : List.Forall₂ (fun entries io => ResultImpl.Received entries [] io) entries ios) :
    Waits entries ios [] := by
  cases h with
  | nil => exact .nil
  | cons hio hios => exact .cons hio hios

theorem getElem?_reached (io : ResultImpl) :
    (request.reached done (io :: ios)).orderedResults[
      (request.reached done (io :: ios)).resultPosIdx]? = some io := by
  unfold reached
  simp

/-- The current result has changed. -/
theorem set_reached (io io' : ResultImpl) :
    { request.reached done (io :: ios) with
      orderedResults := (request.reached done (io :: ios)).orderedResults.set
        (request.reached done (io :: ios)).resultPosIdx io' } =
      request.reached done (io' :: ios) := by
  unfold reached
  simp

/-- The current result has changed, and the next one is the current one. -/
theorem next_reached (io io' : ResultImpl) :
    { request.reached done (io :: ios) with
      orderedResults := (request.reached done (io :: ios)).orderedResults.set
        (request.reached done (io :: ios)).resultPosIdx io'
      resultPosIdx := (request.reached done (io :: ios)).resultPosIdx + 1 } =
      request.reached (done ++ [io']) ios := by
  unfold reached
  simp

/-- The loop gives the bytes to the results, until there are no more bytes or no more results. -/
theorem setNextLoop_spec (behind : Bytes → Bytes) (request : HttpRequestImpl)
    (done : List ResultImpl) {iterations : Nat} (resultBytes : Nat)
    (hiterations : buf.length + left.length < iterations) (hwaits : Waits entries left received)
    (hnext : received ++ buf ++ more = entries.flatten.flatten ++ tail) :
    ∃ doneEntries leftEntries done' left' taken rest received',
      entries = doneEntries ++ leftEntries ∧ buf = taken ++ rest ∧
      (request.reached done left).setNextLoop behind iterations buf resultBytes =
        some (.ok (rest, resultBytes + taken.length), request.reached (done ++ done') left') ∧
      Complete doneEntries done' ∧ Waits leftEntries left' received' ∧
      received ++ taken = doneEntries.flatten.flatten ++ received' ∧
      (rest = [] ∨ left' = []) := by
  induction iterations generalizing buf left entries received done resultBytes with
  | zero => cases hiterations
  | succ iterations ih =>
    cases hwaits with
    | nil =>
      refine ⟨[], [], [], [], [], buf, [], rfl, rfl, ?_, .nil, .nil, rfl, .inr rfl⟩
      rw [setNextLoop, List.append_nil]
      unfold reached
      simp
    | @cons es rest io ios _ hio hios =>
      rcases eq_or_ne buf [] with rfl | hbuf
      · refine ⟨[], es :: rest, [], io :: ios, [], [], received, rfl, rfl, ?_, .nil,
          .cons hio hios, List.append_nil _, .inl rfl⟩
        rw [setNextLoop, getElem?_reached, List.append_nil]
        rfl
      have hsize := List.length_pos_iff.mpr hbuf
      rw [List.length_cons] at hiterations
      -- the next result, when this one is complete
      have hmove (io' : ResultImpl) (hio' : io'.Received es es.flatten)
          (hall : received = es.flatten) :
          ∃ doneEntries leftEntries done' left' taken rest' received',
            es :: rest = doneEntries ++ leftEntries ∧ buf = taken ++ rest' ∧
            (request.reached (done ++ [io']) ios).setNextLoop behind iterations buf resultBytes =
              some (.ok (rest', resultBytes + taken.length),
                request.reached (done ++ done') left') ∧
            Complete doneEntries done' ∧ Waits leftEntries left' received' ∧
            received ++ taken = doneEntries.flatten.flatten ++ received' ∧
            (rest' = [] ∨ left' = []) := by
        rw [List.flatten_cons, List.flatten_append, ← hall, List.append_assoc, List.append_assoc,
          List.append_cancel_left_eq] at hnext
        obtain ⟨doneEntries, leftEntries, done', left', taken, rest', received', rfl, rfl, hloop,
          hcomplete, hwaits, hreceived, hend⟩ :=
            ih (done ++ [io']) resultBytes (by omega) (waits_of_forall₂ hios) hnext
        refine ⟨es :: doneEntries, leftEntries, io' :: done', left', taken, rest', received', rfl,
          rfl, ?_, .cons hio' hcomplete, hwaits, ?_, hend⟩
        · rw [hloop, List.append_assoc]
          rfl
        · rw [List.nil_append] at hreceived
          rw [hall, hreceived, List.flatten_cons, List.flatten_append, List.append_assoc]
      rw [setNextLoop, getElem?_reached]
      simp only [if_pos hsize]
      by_cases hraw : io.output.resultFormat = .raw
      · have htakes : ResultImpl.Takes behind buf es received io :=
          ResultImpl.setNextRawResult_spec hbuf hio hraw
            (by rw [hnext, List.flatten_cons, List.flatten_append, List.append_assoc])
        obtain ⟨taken, rest', io', rfl, hset, hio', hout, hend⟩ := htakes
        simp only [if_pos hraw, hset, set_reached, next_reached]
        rcases eq_or_ne taken [] with rfl | htaken
        · rw [if_pos List.length_nil]
          rw [List.append_nil] at hend hio'
          have hall := hend.resolve_left hbuf
          exact hmove io' (hall ▸ hio') hall
        · rw [if_neg (mt List.eq_nil_of_length_eq_zero htaken), List.drop_left]
          have htaken' := List.length_pos_iff.mpr htaken
          rw [List.length_append] at hiterations
          obtain ⟨doneEntries, leftEntries, done', left', taken', rest'', received',
            hentries, rfl, hloop, hcomplete, hwaits, hreceived, hend'⟩ :=
              ih done (resultBytes + taken.length)
                (show rest'.length + (io' :: ios).length < iterations by
                  rw [List.length_cons]
                  omega) (.cons hio' hios)
                (by rw [← hnext]; simp only [List.append_assoc])
          refine ⟨doneEntries, leftEntries, done', left', taken ++ taken', rest'', received',
            hentries, (List.append_assoc _ _ _).symm, ?_, hcomplete, hwaits, ?_, hend'⟩
          · rw [hloop, List.length_append, Nat.add_assoc]
          · rw [← hreceived, List.append_assoc]
      · cases hio with
        | classes hclasses hbuffers hsizes hnil =>
          simp only [if_neg hraw, if_true, next_reached]
          exact hmove io (hnil ▸ .classes hclasses hbuffers hsizes hnil) hnil.symm
        | fixed hfixed => exact absurd hfixed.resultFormat hraw
        | strings hstrings => exact absurd hstrings.resultFormat hraw
        | complete hstrings => exact absurd hstrings.resultFormat hraw

/-! ## The whole body -/

/-- The request has received the first bytes of a body: the ones of the results that are complete,
and then the ones of the current result, or the first bytes of the response header. -/
def Reached (entries : List (List Bytes)) (body : Bytes) (request : HttpRequestImpl) : Prop :=
  ∃ (base : HttpRequestImpl) (done left : List ResultImpl)
    (doneEntries leftEntries : List (List Bytes)) (received : Bytes),
    request = base.reached done left ∧ entries = doneEntries ++ leftEntries ∧
      Complete doneEntries done ∧ Waits leftEntries left received ∧
      body = doneEntries.flatten.flatten ++ received ++ base.inferResponseBuffer ∧
      (left = [] ∨ base.inferResponseBuffer = [])

/-- A chunk is taken completely. -/
theorem setNextRawResult_spec {body : Bytes} (h : Reached entries body request)
    (hnext : body ++ buf ++ more = entries.flatten.flatten ++ tail) :
    ∃ request', request.setNextRawResult behind buf = some (.ok buf.length, request') ∧
      Reached entries (body ++ buf) request' := by
  obtain ⟨base, done, left, doneEntries, leftEntries, received, rfl, rfl, hcomplete, hwaits, rfl,
    hbuffer⟩ := h
  unfold setNextRawResult
  rcases hbuffer with rfl | hbuffer
  · -- all the bytes belong to the response header
    cases hwaits
    have hloop : (base.reached done []).setNextLoop behind
        (buf.length + (base.reached done []).orderedResults.length + 1) buf 0 =
          some (.ok (buf, 0), base.reached done []) := by
      rw [setNextLoop]
      unfold reached
      simp
    simp only [hloop]
    split
    · let next := { base with inferResponseBuffer := base.inferResponseBuffer ++ buf }
      refine ⟨next.reached done [], by rw [Nat.zero_add]; rfl, next, done, [], doneEntries, [], [],
        rfl, rfl, hcomplete, .nil, ?_, .inl rfl⟩
      simp only [next, List.append_assoc]
    · next hempty =>
      have hnil := List.eq_nil_of_length_eq_zero (Nat.eq_zero_of_not_pos hempty)
      refine ⟨_, by rw [hnil]; rfl, base, done, [], doneEntries, [], [], rfl, rfl, hcomplete,
        .nil, ?_, .inl rfl⟩
      rw [hnil, List.append_nil]
  · rw [hbuffer, List.append_nil, List.flatten_append, List.flatten_append] at hnext
    simp only [List.append_assoc, List.append_cancel_left_eq] at hnext
    obtain ⟨doneEntries', leftEntries', done', left', taken, rest, received', rfl, rfl, hloop,
      hcomplete', hwaits', hreceived, hend⟩ :=
        setNextLoop_spec behind base done 0
          (show buf.length + left.length <
              buf.length + (base.reached done left).orderedResults.length + 1 by
            unfold reached
            rw [List.length_append]
            omega) hwaits
          (by simp only [List.append_assoc]; exact hnext)
    simp only [hloop]
    have hall : Complete (doneEntries ++ doneEntries') (done ++ done') :=
      List.rel_append hcomplete hcomplete'
    have hbody : doneEntries.flatten.flatten ++ received ++ base.inferResponseBuffer ++
        (taken ++ rest) =
          (doneEntries ++ doneEntries').flatten.flatten ++ received' ++
            (base.inferResponseBuffer ++ rest) := by
      rw [hbuffer, List.append_nil, List.nil_append, List.flatten_append, List.flatten_append,
        List.append_assoc, ← List.append_assoc received, hreceived]
      simp only [List.append_assoc]
    split
    · next hmore =>
      let next := { base with inferResponseBuffer := base.inferResponseBuffer ++ rest }
      refine ⟨next.reached (done ++ done') left', by rw [Nat.zero_add, List.length_append]; rfl,
        next, done ++ done', left', doneEntries ++ doneEntries', leftEntries', received', rfl,
        (List.append_assoc _ _ _).symm, hall, hwaits', hbody, ?_⟩
      exact .inl (hend.resolve_left (List.ne_nil_of_length_pos hmore))
    · next hempty =>
      have hnil := List.eq_nil_of_length_eq_zero (Nat.eq_zero_of_not_pos hempty)
      rw [hnil, List.append_nil, List.append_nil] at hbody
      refine ⟨base.reached (done ++ done') left', by rw [Nat.zero_add, hnil, List.append_nil],
        base, done ++ done', left', doneEntries ++ doneEntries', leftEntries', received', rfl,
        (List.append_assoc _ _ _).symm, hall, hwaits', ?_, .inr hbuffer⟩
      rw [hnil, List.append_nil, hbody]

/-- The chunks of a body are taken completely. -/
theorem receive_spec {chunks : List (Bytes × (Bytes → Bytes))} {body : Bytes}
    (h : Reached entries body request)
    (hnext : body ++ (chunks.map Prod.fst).flatten = entries.flatten.flatten ++ tail) :
    ∃ request', request.receive chunks =
        some (.ok (chunks.map fun chunk => chunk.1.length), request') ∧
      Reached entries (body ++ (chunks.map Prod.fst).flatten) request' := by
  induction chunks generalizing body request with
  | nil => exact ⟨request, rfl, by rwa [List.map_nil, List.flatten_nil, List.append_nil]⟩
  | cons chunk chunks ih =>
    obtain ⟨chunk, behind⟩ := chunk
    rw [List.map_cons, List.flatten_cons, ← List.append_assoc] at hnext
    obtain ⟨request', hset, hreached⟩ := setNextRawResult_spec h hnext
    obtain ⟨request'', hreceive, hreached'⟩ := ih hreached hnext
    refine ⟨request'', ?_, ?_⟩
    · rw [receive, hset]
      simp only [hreceive]
      rfl
    · rwa [List.map_cons, List.flatten_cons, ← List.append_assoc]

theorem Complete.buffers (h : Complete entries ios) : ios.map ResultImpl.buffers = entries ∧
    ios.map ResultImpl.bufsByteSize = entries.map (·.map List.length) := by
  induction h with
  | nil => exact ⟨rfl, rfl⟩
  | cons hio _ ih =>
    obtain ⟨hbuffers, hsizes⟩ := hio.all rfl
    rw [List.map_cons, List.map_cons, List.map_cons, hbuffers, hsizes, ih.1, ih.2]
    exact ⟨rfl, rfl⟩

/-- Results without bytes are complete from the first one on. -/
theorem complete_of_nil
    (h : List.Forall₂ (fun entries io => ResultImpl.Received entries [] io) entries ios)
    (hnil : entries.flatten.flatten = []) : Complete entries ios := by
  induction h with
  | nil => exact .nil
  | cons hio _ ih =>
    rw [List.flatten_cons, List.flatten_append, List.append_eq_nil_iff] at hnil
    refine .cons ?_ (ih hnil.2)
    rw [hnil.1]
    exact hio

/-- When the whole body has come, all results are complete, and the response header is what is
left. -/
theorem reached_all {responseHeader : Bytes}
    (h : Reached entries (entries.flatten.flatten ++ responseHeader) request) :
    Complete entries request.orderedResults ∧ request.inferResponseBuffer = responseHeader := by
  obtain ⟨base, done, left, doneEntries, leftEntries, received, rfl, rfl, hcomplete, hwaits, hbody,
    hbuffer⟩ := h
  rw [List.flatten_append, List.flatten_append, List.append_assoc, List.append_assoc,
    List.append_cancel_left_eq] at hbody
  cases hwaits with
  | nil =>
    refine ⟨?_, hbody.symm⟩
    show Complete (doneEntries ++ []) (done ++ [])
    rwa [List.append_nil, List.append_nil]
  | @cons es rest io ios _ hio hios =>
    have hnone := hbuffer.resolve_left (List.cons_ne_nil _ _)
    rw [hnone, List.append_nil, List.flatten_cons, List.flatten_append, List.append_assoc] at hbody
    have hle := hio.length_le
    rw [← hbody, List.length_append] at hle
    have hnil : rest.flatten.flatten ++ responseHeader = [] :=
      List.eq_nil_of_length_eq_zero (by omega)
    rw [hnil, List.append_nil] at hbody
    obtain ⟨hrest, hheader⟩ := List.append_eq_nil_iff.mp hnil
    subst hbody
    exact ⟨List.rel_append hcomplete (.cons hio (complete_of_nil hios hrest)),
      hnone.trans hheader.symm⟩

/-! ## The results of a response header -/

/-- The entries of an output: without bytes when it has classes; of one size, which the response
header gives for the whole batch, when its data type has a fixed size; and else its strings, behind
their lengths. -/
structure EntriesOf (inferOutput : OutputImpl) (batchSize : Nat) (output : RawOutput)
    (entries : List Bytes) : Prop where
  length : entries.length = batchSize
  classes : inferOutput.resultFormat = .classes → ∀ entry ∈ entries, entry = []
  fixed : inferOutput.resultFormat = .raw → isFixedSizeDataType inferOutput.dType →
    ∃ b, output.batchByteSize = b * batchSize ∧ ∀ entry ∈ entries, entry.length = b
  strings : inferOutput.resultFormat = .raw → ¬ isFixedSizeDataType inferOutput.dType →
    ∃ batches : List (List Bytes), entries = batches.map encodeAll ∧
      (∀ strings ∈ batches, strings.length = uint64 (getElementCount output.dims)) ∧
      ∀ strings ∈ batches, ∀ s ∈ strings, s.length < 4294967296

/-- The entries of the outputs of a response header. -/
def AllEntriesOf (outputs : List OutputImpl) (batchSize : Nat) (header : List RawOutput)
    (entries : List (List Bytes)) : Prop :=
  List.Forall₂ (fun output entries => ∃ inferOutput,
    outputs.find? (·.name == output.name) = some inferOutput ∧
      EntriesOf inferOutput batchSize output entries) header entries

theorem newResult_eq_filled (inferOutput : OutputImpl) (batchSize : Nat) (output : RawOutput) :
    newResult inferOutput batchSize output =
      (newResult inferOutput batchSize output).filled [] (List.replicate batchSize []) := by
  unfold newResult ResultImpl.setBatchnByteSize ResultImpl.setBatch1Shape ResultImpl.create
    ResultImpl.filled
  split
  · simp
  · simp

/-- A new result has received nothing. -/
theorem received_newResult {inferOutput : OutputImpl} {batchSize : Nat} {output : RawOutput}
    {es : List Bytes} (hbatch : 1 ≤ batchSize) (h : EntriesOf inferOutput batchSize output es) :
    (newResult inferOutput batchSize output).Received es [] := by
  have hout : (newResult inferOutput batchSize output).output = inferOutput := by
    unfold newResult
    split <;> rfl
  cases hformat : inferOutput.resultFormat with
  | classes =>
    have hreplicate := List.eq_replicate_of_mem (h.classes hformat)
    rw [h.length] at hreplicate
    refine .classes (by rw [hout, hformat]) ?_ ?_ (List.flatten_eq_nil_iff.mpr (h.classes hformat))
    · rw [hreplicate, newResult_eq_filled]
      rfl
    · rw [hreplicate, newResult_eq_filled]
      rfl
  | raw =>
    by_cases hfixed : isFixedSizeDataType inferOutput.dType
    · obtain ⟨b, hsize, hentries⟩ := h.fixed hformat hfixed
      have hb : (newResult inferOutput batchSize output).batch1ByteSize = b := by
        unfold newResult
        rw [if_pos hfixed]
        show output.batchByteSize / batchSize = b
        rw [hsize, Nat.mul_div_cancel _ hbatch]
      have hfixed' : (newResult inferOutput batchSize output).hasFixedBatch1ByteSize = true := by
        unfold newResult
        rw [if_pos hfixed]
        rfl
      have hreceived := ResultImpl.Received.fixed
        ⟨by rw [hout, hformat], hfixed', by rw [hb]; exact hentries⟩
        (show ∀ x ∈ ([] : List Bytes), x.length = _ from nofun)
        (fun x hx => by rw [List.eq_of_mem_replicate hx]; exact Nat.zero_le _)
        (fun x hx => List.eq_of_mem_replicate (List.mem_of_mem_tail hx))
        (by rw [List.nil_append, List.length_replicate, h.length])
      rw [← newResult_eq_filled, List.nil_append, List.flatten_replicate_nil] at hreceived
      exact hreceived
    · obtain ⟨batches, hencoded⟩ := h.strings hformat hfixed
      have hresult : newResult inferOutput batchSize output =
          (ResultImpl.create inferOutput batchSize).setBatch1Shape output.dims := by
        unfold newResult
        rw [if_neg hfixed]
      have hreceived := ResultImpl.Received.strings
        ⟨by rw [hout, hformat], by rw [hresult]; rfl, by rw [hresult]; exact h.length,
          batches, by rw [hresult]; exact hencoded⟩
        ((Nat.eq_zero_or_pos es.flatten.length).symm.imp (by rw [hresult]; exact id)
          fun hzero => ⟨List.eq_nil_of_length_eq_zero hzero, by rw [hresult]; rfl⟩)
      have hpending : (newResult inferOutput batchSize output).pending = [] := by
        rw [hresult]
        rfl
      rwa [h.length, ← newResult_eq_filled, hpending] at hreceived

/-- The results that are created for a response header have received nothing. -/
theorem createResults_spec {modelName : String} {outputs : List OutputImpl} {batchSize : Nat}
    {header : List RawOutput} {request' : HttpRequestImpl} (hbatch : 1 ≤ batchSize)
    (hentries : AllEntriesOf outputs batchSize header entries)
    (hcreate : createResults modelName outputs batchSize header request = .ok request') :
    ∃ ios, List.Forall₂ (fun entries io => ResultImpl.Received entries [] io) entries ios ∧
      request' = { request with orderedResults := request.orderedResults ++ ios } := by
  induction hentries generalizing request with
  | nil =>
    cases hcreate
    exact ⟨[], .nil, by rw [List.append_nil]⟩
  | @cons output es header entries hes _ ih =>
    obtain ⟨inferOutput, hfind, hes⟩ := hes
    have hget : getOutput modelName outputs output.name = .ok inferOutput := by
      rw [getOutput, hfind]
    rw [createResults, createResult, hget] at hcreate
    obtain ⟨ios, hios, rfl⟩ := ih hcreate
    refine ⟨newResult inferOutput batchSize output :: ios,
      .cons (received_newResult hbatch hes) hios, ?_⟩
    simp only [List.append_assoc, List.cons_append, List.nil_append]

/-- The results of a response do not depend on the chunks in which its body comes. -/
theorem receive_chunks (modelName : String) (outputs : List OutputImpl) (batchSize : Nat)
    (header : List RawOutput) (entries : List (List Bytes)) (responseHeader : Bytes)
    (chunks : List (Bytes × (Bytes → Bytes))) (request : HttpRequestImpl) (hbatch : 1 ≤ batchSize)
    (hentries : AllEntriesOf outputs batchSize header entries)
    (hcreate : createResults modelName outputs batchSize header {} = .ok request)
    (hbody : (chunks.map Prod.fst).flatten = entries.flatten.flatten ++ responseHeader) :
    ∃ request', request.receive chunks =
        some (.ok (chunks.map fun chunk => chunk.1.length), request') ∧
      request'.orderedResults.map ResultImpl.buffers = entries ∧
      request'.orderedResults.map ResultImpl.bufsByteSize = entries.map (·.map List.length) ∧
      request'.inferResponseBuffer = responseHeader := by
  obtain ⟨ios, hios, rfl⟩ := createResults_spec hbatch hentries hcreate
  have hstart : Reached entries [] { orderedResults := [] ++ ios } :=
    ⟨{}, [], ios, [], entries, [], rfl, rfl, .nil, waits_of_forall₂ hios, rfl, .inr rfl⟩
  obtain ⟨request', hreceive, hreached⟩ := receive_spec hstart hbody
  rw [List.nil_append, hbody] at hreached
  obtain ⟨hcomplete, hheader⟩ := reached_all hreached
  exact ⟨request', hreceive, hcomplete.buffers.1, hcomplete.buffers.2, hheader⟩

/-- A raw output, a string and an output with classes, in chunks that end inside of the length of
the string, inside of the string and inside of the response header. -/
theorem receive_fiveChunks :
    let outputs : List OutputImpl := [⟨"x", .uint8, .raw⟩, ⟨"s", .string, .raw⟩,
      ⟨"c", .fp32, .classes⟩]
    let header : List RawOutput := [⟨"x", [2], 2⟩, ⟨"s", [1], 6⟩, ⟨"c", [], 0⟩]
    let chunks : List Bytes := [[7], [8, 2, 0], [0, 0, 104], [105, 1], [2, 3]]
    ∃ request request', createResults "m" outputs 1 header {} = .ok request ∧
      request.receive (chunks.map (·, fun _ => [255, 255, 255])) =
        some (.ok [1, 3, 3, 2, 2], request') ∧
      request'.orderedResults.map ResultImpl.buffers =
        [[[7, 8]], [encodeAll [[104, 105]]], [[]]] ∧
      request'.inferResponseBuffer = [1, 2, 3] := by
  intro outputs header chunks
  have hentries : AllEntriesOf outputs 1 header [[[7, 8]], [encodeAll [[104, 105]]], [[]]] := by
    refine .cons ⟨_, rfl, rfl, nofun, fun _ _ => ⟨2, rfl, by decide⟩, fun _ h => absurd rfl h⟩
      (.cons ⟨_, rfl, rfl, nofun, nofun, fun _ _ => ⟨[[[104, 105]]], rfl, by decide, by decide⟩⟩
        (.cons ⟨_, rfl, rfl, fun _ => by decide, nofun, nofun⟩ .nil))
  obtain ⟨request', hreceive, hbuffers, -, hheader⟩ :=
    receive_chunks "m" outputs 1 header _ [1, 2, 3]
      (chunks.map (·, fun _ => [255, 255, 255])) _ le_rfl hentries rfl (by decide)
  exact ⟨_, request', rfl, hreceive, hbuffers, hheader⟩

end

end HttpRequestImpl

end FinBert.Client
