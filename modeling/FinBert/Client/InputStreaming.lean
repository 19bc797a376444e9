import FinBert.Client.Request
import FinBert.Lib.Slices

/-!
# The body of a request

`HttpRequestImpl::GetNextInput` (`request_http.cc`) hands the bytes of the inputs to libcurl, in
pieces of the sizes that libcurl asks for. One position is the input that comes next, and each
input has a position of its own (`InputImpl::GetNext`).

Results:
1. `getNext_spec`: what one call of `GetNext` delivers, and when it reports the end of the input.
2. `getNextInput_spec`: what one call of `GetNextInput` delivers.
3. `streams_inputs`: the pieces make up the inputs, whatever their sizes are.
-/

namespace FinBert.Client

open FinBert.Serving

/-! ## `HttpRequestImpl` -/

/-- `HttpRequestImpl`, with what it keeps of a request that is being sent. -/
structure HttpSending extends HttpUpload where
  inputPosIdx : Nat := 0

namespace HttpSending

/-- `InitializeRequest`. -/
def initializeRequest (request : HttpSending) : HttpSending :=
  { request.toHttpUpload.initializeRequest with inputPosIdx := 0 }

/-- The loop of `GetNextInput`, with the bytes that were copied so far. It is `none` as long as
the loop has not ended. -/
def getNextInputLoop : Nat → Bytes → Nat → HttpSending → Option (Bytes × HttpSending)
  | 0, _, _, _ => none
  | iterations + 1, copied, size, request =>
    match request.inputs[request.inputPosIdx]? with
    | none => some (copied, request)
    | some io =>
      if 0 < size then
        match io.getNext size with
        | none => none
        | some (bytes, endOfInput, io) =>
          getNextInputLoop iterations (copied ++ bytes) (size - bytes.length)
            { request with
              inputs := request.inputs.set request.inputPosIdx io
              inputPosIdx :=
                if endOfInput then request.inputPosIdx + 1 else request.inputPosIdx }
      else some (copied, request)

/-- `GetNextInput`. Every iteration of the loop but the last one goes to the next input. -/
def getNextInput (size : Nat) (request : HttpSending) : Option (Bytes × HttpSending) :=
  getNextInputLoop (request.inputs.length + 2) [] size request

/-- One call after another, with the bytes that each returns. -/
def getNextInputs : List Nat → HttpSending → Option (List Bytes × HttpSending)
  | [], request => some ([], request)
  | size :: sizes, request =>
    match request.getNextInput size with
    | none => none
    | some (reply, request) =>
      (getNextInputs sizes request).map fun (replies, request) => (reply :: replies, request)

end HttpSending

/-! ## One input -/

namespace InputImpl

/-- Nothing of the input has been delivered. -/
structure Fresh (io : InputImpl) : Prop where
  sizes : io.bufByteSizes = io.bufs.map List.length
  bufsIdx : io.bufsIdx = 0
  bufPos : io.bufPos = 0

theorem Fresh.positioned {io : InputImpl} (h : Fresh io) : Positioned io where
  sizes := h.sizes
  pos := h.bufPos ▸ Nat.zero_le _

theorem Fresh.remaining {io : InputImpl} (h : Fresh io) : remaining io = io.bufs.flatten := by
  unfold InputImpl.remaining
  rw [h.bufsIdx, h.bufPos, List.drop_zero, List.drop_zero]

/-- An input that is set completely is delivered from the start. -/
theorem fresh_prepared {batchSize : Nat} {io : InputImpl} (h : Ready batchSize io)
    (hlength : io.bufs.length = batchSize) : Fresh io.prepared := by
  unfold prepared prepareForRequest
  rw [if_neg (not_not.mpr (hlength.trans h.batchSize.symm))]
  exact ⟨h.sizes, rfl, rfl⟩

/-- The loop of `GetNext` ends behind the last buffer, or when it has copied all the bytes that
were asked for. -/
theorem getNextLoop_exit {iterations : Nat} {copied copied' : Bytes} {size : Nat}
    {io io' : InputImpl} (h : Positioned io)
    (hloop : getNextLoop iterations copied size io = some (copied', io')) :
    io'.bufs.length ≤ io'.bufsIdx ∨ copied'.length = copied.length + size := by
  induction iterations generalizing copied size io with
  | zero => cases hloop
  | succ iterations ih =>
    by_cases hmore : io.bufsIdx < io.bufs.length ∧ 0 < size
    · rw [getNextLoop_turn copied hmore] at hloop
      obtain ⟨hmoved, -, -, -⟩ := advance_spec h hmore.1 rfl hmore.2
      refine (ih hmoved.positioned hloop).imp_right fun hlength => ?_
      have hturn : (((io.bufs.getD io.bufsIdx []).drop io.bufPos).take
          (min (io.bufByteSizes.getD io.bufsIdx 0 - io.bufPos) size)).length =
            min (io.bufByteSizes.getD io.bufsIdx 0 - io.bufPos) size := by
        rw [bufByteSizes_getD h, List.length_take, List.length_drop]
        exact Nat.min_eq_left (Nat.min_le_left _ _)
      rw [hlength, List.length_append, hturn, Nat.add_assoc,
        Nat.add_sub_cancel' (Nat.min_le_right _ _)]
    · rw [getNextLoop, if_neg hmore] at hloop
      obtain ⟨rfl, rfl⟩ := Prod.mk.inj (Option.some.inj hloop)
      rcases Nat.eq_zero_or_pos size with rfl | hsize
      · exact .inr rfl
      · exact .inl (Nat.le_of_not_lt fun hidx => hmore ⟨hidx, hsize⟩)

/-- `GetNext` delivers the next bytes. Behind the end of the input none remain, and before it as
many were delivered as were asked for. -/
theorem getNext_spec {io : InputImpl} (h : Positioned io) (size : Nat) :
    ∃ endOfInput io', io.getNext size = some ((remaining io).take size, endOfInput, io') ∧
      Positioned io' ∧ remaining io' = (remaining io).drop size ∧
      (endOfInput = true → remaining io' = []) ∧
      (endOfInput = false → ((remaining io).take size).length = size) := by
  obtain ⟨io', hloop, hmoved, hremaining⟩ := getNextLoop_spec [] h
    (show size + (io.bufs.length - io.bufsIdx) < size + io.bufs.length + 1 from
      Nat.lt_succ_of_le (Nat.add_le_add_left (Nat.sub_le _ _) _))
  refine ⟨decide (io'.bufs.length ≤ io'.bufsIdx), io', ?_, hmoved.positioned, hremaining, ?_, ?_⟩
  · rw [getNext, hloop]
    rfl
  · exact fun hend => remaining_of_end (of_decide_eq_true hend)
  · intro hend
    have hexit := (getNextLoop_exit h hloop).resolve_left (of_decide_eq_false hend)
    rwa [List.nil_append, List.length_nil, Nat.zero_add] at hexit

end InputImpl

/-! ## The inputs one after another -/

namespace HttpSending

open InputImpl

/-- The bytes that are still to be sent. -/
def remaining (request : HttpSending) : Bytes :=
  (request.inputs.drop request.inputPosIdx).flatMap InputImpl.remaining

/-- Every input is positioned. -/
def Positioned (request : HttpSending) : Prop := ∀ io ∈ request.inputs, io.Positioned

variable {request : HttpSending}

theorem remaining_eq {io : InputImpl}
    (hio : request.inputs[request.inputPosIdx]? = some io) :
    remaining request = io.remaining ++
      (request.inputs.drop (request.inputPosIdx + 1)).flatMap InputImpl.remaining := by
  obtain ⟨hidx, rfl⟩ := List.getElem?_eq_some_iff.mp hio
  rw [remaining, List.drop_eq_getElem_cons hidx, List.flatMap_cons]

/-- The request behind a call of `GetNext` on its current input. -/
def moved (endOfInput : Bool) (io : InputImpl) (request : HttpSending) : HttpSending :=
  { request with
    inputs := request.inputs.set request.inputPosIdx io
    inputPosIdx := if endOfInput then request.inputPosIdx + 1 else request.inputPosIdx }

/-- A call of `GetNext` on the current input takes bytes from those that remain. -/
theorem moved_spec {io io' : InputImpl} {endOfInput : Bool} (h : Positioned request)
    (hio : request.inputs[request.inputPosIdx]? = some io) (hpositioned : io'.Positioned)
    (hend : endOfInput = true → io'.remaining = []) :
    Positioned (request.moved endOfInput io') ∧
      remaining (request.moved endOfInput io') = io'.remaining ++
        (request.inputs.drop (request.inputPosIdx + 1)).flatMap InputImpl.remaining := by
  obtain ⟨hidx, -⟩ := List.getElem?_eq_some_iff.mp hio
  have hdrop : (request.inputs.set request.inputPosIdx io').drop (request.inputPosIdx + 1) =
      request.inputs.drop (request.inputPosIdx + 1) := by
    rw [List.drop_set_of_lt (Nat.lt_succ_self _)]
  constructor
  · intro x hx
    rcases List.mem_or_eq_of_mem_set hx with hmem | rfl
    · exact h x hmem
    · exact hpositioned
  · cases endOfInput with
    | true =>
      rw [hend rfl, List.nil_append, ← hdrop]
      rfl
    | false =>
      have hcur : (request.moved false io').inputs[(request.moved false io').inputPosIdx]? =
          some io' := List.getElem?_set_self hidx
      rw [remaining_eq hcur, ← hdrop]
      rfl

/-- The loop ends, and it has copied the next bytes. -/
theorem getNextInputLoop_spec {iterations : Nat} (copied : Bytes) (size : Nat)
    (h : Positioned request)
    (hiterations : request.inputs.length - request.inputPosIdx + 1 < iterations) :
    ∃ request', getNextInputLoop iterations copied size request =
        some (copied ++ (remaining request).take size, request') ∧
      Positioned request' ∧ remaining request' = (remaining request).drop size := by
  induction iterations generalizing copied size request with
  | zero => exact absurd hiterations (Nat.not_lt_zero _)
  | succ iterations ih =>
    rw [getNextInputLoop]
    cases hio : request.inputs[request.inputPosIdx]? with
    | none =>
      have hnone : remaining request = [] := by
        rw [remaining, List.drop_eq_nil_of_le (List.getElem?_eq_none_iff.mp hio),
          List.flatMap_nil]
      refine ⟨request, ?_, h, ?_⟩
      · rw [hnone, List.take_nil, List.append_nil]
      · rw [hnone, List.drop_nil]
    | some io =>
      obtain ⟨hidx, -⟩ := List.getElem?_eq_some_iff.mp hio
      rcases Nat.eq_zero_or_pos size with rfl | hsize
      · refine ⟨request, ?_, h, List.drop_zero.symm⟩
        rw [List.take_zero, List.append_nil]
        rfl
      obtain ⟨endOfInput, io', hnext, hpositioned, hremaining, hend, hnotEnd⟩ :=
        getNext_spec (h io (List.mem_of_getElem? hio)) size
      obtain ⟨hmoved, hrest⟩ := moved_spec h hio hpositioned hend
      simp only [if_pos hsize, hnext]
      -- the input is at its end, or the call has all the bytes that it asked for
      cases endOfInput with
      | true =>
        obtain ⟨request', hloop, hpositioned', hremaining'⟩ :=
          @ih (request.moved true io') (copied ++ io.remaining.take size)
            (size - (io.remaining.take size).length) hmoved
            (by
              show (request.inputs.set _ _).length - (request.inputPosIdx + 1) + 1 < iterations
              rw [List.length_set]
              omega)
        have hall : io.remaining.length ≤ size :=
          List.drop_eq_nil_iff.mp (hremaining.symm.trans (hend rfl))
        rw [hend rfl, List.nil_append] at hrest
        refine ⟨request', ?_, hpositioned', ?_⟩
        · refine hloop.trans ?_
          rw [hrest, remaining_eq hio, List.take_of_length_le hall, List.take_append,
            List.take_of_length_le hall, List.append_assoc]
        · rw [hremaining', hrest, remaining_eq hio, List.take_of_length_le hall,
            List.drop_append, List.drop_eq_nil_of_le hall, List.nil_append]
      | false =>
        have hfull := hnotEnd rfl
        have hle : size ≤ io.remaining.length := by
          rw [← hfull]
          exact List.length_take_le' _ _
        obtain ⟨iterations, rfl⟩ : ∃ n, iterations = n + 1 :=
          Nat.exists_eq_succ_of_ne_zero (by omega)
        refine ⟨request.moved false io', ?_, hmoved, ?_⟩
        · rw [hfull, Nat.sub_self, getNextInputLoop, remaining_eq hio,
            List.take_append_of_le_length hle]
          simp only [List.getElem?_set_self hidx, Bool.false_eq_true, if_false]
          rfl
        · rw [hrest, hremaining, remaining_eq hio, List.drop_append_of_le_length hle]

/-- `GetNextInput` delivers the next bytes. -/
theorem getNextInput_spec (h : Positioned request) (size : Nat) :
    ∃ request', request.getNextInput size = some ((remaining request).take size, request') ∧
      Positioned request' ∧ remaining request' = (remaining request).drop size := by
  obtain ⟨request', hloop, hspec⟩ := getNextInputLoop_spec [] size h
    (show request.inputs.length - request.inputPosIdx + 1 < request.inputs.length + 2 by omega)
  exact ⟨request', hloop, hspec⟩

/-- The replies to calls of `GetNextInput` are slices of the bytes. -/
theorem getNextInputs_slices (h : Positioned request) (sizes : List Nat) :
    ∃ request',
      request.getNextInputs sizes = some (slices sizes (remaining request), request') := by
  induction sizes generalizing request with
  | nil => exact ⟨request, rfl⟩
  | cons size sizes ih =>
    obtain ⟨request₁, hnext, hpositioned, hremaining⟩ := getNextInput_spec h size
    obtain ⟨request', hrest⟩ := ih hpositioned
    refine ⟨request', ?_⟩
    simp only [getNextInputs, hnext, hrest, Option.map_some]
    rw [hremaining, slices]

/-- What calls of `GetNextInput` return for these bytes. -/
structure Streams (bytes : Bytes) (sizes : List Nat) (replies : List Bytes) : Prop where
  length : replies.length = sizes.length
  most : ∀ (k size : Nat) (reply : Bytes), sizes[k]? = some size → replies[k]? = some reply →
    reply.length ≤ size
  -- no byte remains when a call returns none
  zero : ∀ k : Nat, replies[k]? = some [] → (replies.take k).flatten = bytes
  inOrder : replies.flatten <+: bytes
  -- one more call than there are bytes, and one of them returns none
  ends : bytes.length < sizes.length → [] ∈ replies
  whole : [] ∈ replies → replies.flatten = bytes

theorem streams_slices (bytes : Bytes) {sizes : List Nat} (hpos : ∀ size ∈ sizes, 0 < size) :
    Streams bytes sizes (slices sizes bytes) := by
  have hzero : ∀ k : Nat, (slices sizes bytes)[k]? = some [] →
      bytes.length ≤ (sizes.take k).sum := by
    intro k hk
    rw [getElem?_slices] at hk
    obtain ⟨size, hsize, hnil⟩ := Option.map_eq_some_iff.mp hk
    refine List.drop_eq_nil_iff.mp ((List.take_eq_nil_iff.mp hnil).resolve_left ?_)
    exact Nat.ne_of_gt (hpos size (List.mem_of_getElem? hsize))
  refine ⟨length_slices _ _, ?_, ?_, ?_, nil_mem_slices, ?_⟩
  · intro k size reply hsize hreply
    rw [getElem?_slices, hsize] at hreply
    obtain rfl := Option.some.inj hreply
    exact List.length_take_le _ _
  · intro k hk
    rw [take_slices, flatten_slices, List.take_of_length_le (hzero k hk)]
  · rw [flatten_slices]
    exact List.take_prefix _ _
  · intro hmem
    obtain ⟨k, hk⟩ := List.mem_iff_getElem?.mp hmem
    rw [flatten_slices, List.take_of_length_le]
    exact (hzero k hk).trans ((List.take_sublist k sizes).sum_le_sum fun _ _ => Nat.zero_le _)

/-- The bytes of the inputs are sent in order, whatever sizes they are asked for in. -/
theorem streams_inputs (request : HttpUpload) (hfresh : ∀ io ∈ request.inputs, io.Fresh)
    (sizes : List Nat) (hpos : ∀ size ∈ sizes, 0 < size) :
    ∃ replies request', getNextInputs sizes { toHttpUpload := request } =
        some (replies, request') ∧
      Streams (request.inputs.flatMap fun io => io.bufs.flatten) sizes replies := by
  have hbytes : remaining { toHttpUpload := request } =
      request.inputs.flatMap fun io => io.bufs.flatten :=
    List.flatMap_congr fun io hio => (hfresh io hio).remaining
  obtain ⟨request', hreplies⟩ := @getNextInputs_slices { toHttpUpload := request }
    (fun io hio => (hfresh io hio).positioned) sizes
  rw [hbytes] at hreplies
  exact ⟨_, request', hreplies, streams_slices _ hpos⟩

/-- An input with these buffers, of which nothing has been delivered. -/
def withBufs (bufs : List Bytes) : InputImpl :=
  { InputImpl.start InputImpl.oneByte bufs.length with
    bufs := bufs, bufByteSizes := bufs.map List.length }

/-- The first input has empty buffers, and the second one ends with one; an input without a
buffer follows. -/
theorem streams_emptyBuffers :
    ∃ replies request', getNextInputs [2, 1, 3, 2] { toHttpUpload :=
        { easyHandle := none,
          inputs := [withBufs [[], [1, 2, 3], []], withBufs [[4], []], withBufs []] } } =
        some (replies, request') ∧
      Streams [1, 2, 3, 4] [2, 1, 3, 2] replies :=
  streams_inputs
    { easyHandle := none,
      inputs := [withBufs [[], [1, 2, 3], []], withBufs [[4], []], withBufs []] }
    (by
      intro io hio
      simp only [List.mem_cons, List.not_mem_nil, or_false] at hio
      rcases hio with rfl | rfl | rfl <;> exact ⟨rfl, rfl, rfl⟩)
    [2, 1, 3, 2] (by decide)

end HttpSending

end FinBert.Client
