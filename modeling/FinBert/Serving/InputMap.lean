import FinBert.Lib.Slices
import FinBert.Lib.UnorderedMap
import FinBert.Serving.Basic
import Mathlib.Algebra.BigOperators.Group.List.Basic
import Mathlib.Algebra.Ring.Nat

/-!
# The input data of a request

`EVBufferToInputMap` and `GRPCInferRequestToInputMap` (`provider_utils.cc`). The body of an
HTTP request comes in chunks, which need not end where the data of an input ends: the memory
of an input refers to pieces of the chunks. A GRPC request has the data of each input apart.

`sliceBody` says what the body means, and does not know of chunks.

Results:
1. `evBufferToInputMap_eq`: `EVBufferToInputMap` computes `sliceBody` of the joined chunks.
2. `grpcInferRequestToInputMap_eq`: so does `GRPCInferRequestToInputMap` on the slices.
3. `inputMap_exact`: the slicing is exact, and independent of the chunks.
-/

namespace FinBert.Serving

abbrev InputMap := UnorderedMap String SystemMemory

/-- `emplace` has no effect on a name that is there. -/
def emplace (inputMap : InputMap) (name : String) (memory : SystemMemory) : InputMap :=
  if name ∈ inputMap then inputMap else inputMap.insert name memory

/-! ## `EVBufferToInputMap` -/

/-- The loop that collects the blocks of one input, with the number of the bytes that are
missing and the chunks that are left. A chunk that is only used in part stays in front. -/
def addBuffers : Nat → List (List UInt8) → List (List UInt8) × Nat × List (List UInt8)
  | byteSize, [] => ([], byteSize, [])
  | byteSize, chunk :: chunks =>
    if byteSize = 0 then ([], 0, chunk :: chunks)
    else if chunk.length > byteSize then
      ([chunk.take byteSize], 0, chunk.drop byteSize :: chunks)
    else
      let (blocks, missing, chunks) := addBuffers (byteSize - chunk.length) chunks
      (chunk :: blocks, missing, chunks)

def unexpectedSize (modelName : String) (io : InferInput) (missing : Nat) : Status :=
  { code := .invalidArg,
    message := "unexpected size for input '" ++ io.name ++ "', expecting " ++ toString missing ++
      " bytes for model '" ++ modelName ++ "'" }

def unexpectedAdditional (modelName : String) : Status :=
  { code := .invalidArg,
    message := "unexpected additional input data for model '" ++ modelName ++ "'" }

/-- The loop over the inputs. -/
def addInputBuffers (modelName : String) :
    List InferInput → List (List UInt8) → InputMap → Except Status (InputMap × List (List UInt8))
  | [], chunks, inputMap => .ok (inputMap, chunks)
  | io :: ios, chunks, inputMap =>
    let (blocks, missing, chunks) := addBuffers io.batchByteSize chunks
    let inputMap := emplace inputMap io.name { blocks := blocks }
    if missing ≠ 0 then .error (unexpectedSize modelName io missing)
    else addInputBuffers modelName ios chunks inputMap

/-- `EVBufferToInputMap` on the chunks that `evbuffer_peek` finds. -/
def evBufferToInputMap (modelName : String) (header : InferRequestHeader)
    (chunks : List (List UInt8)) : Except Status InputMap :=
  match addInputBuffers modelName header.input chunks ∅ with
  | .error status => .error status
  | .ok (inputMap, chunks) =>
    if chunks ≠ [] then .error (unexpectedAdditional modelName) else .ok inputMap

/-! ## `GRPCInferRequestToInputMap` -/

/-- `InferRequest` (`grpc_service.proto`). -/
structure InferRequest where
  modelName : String
  rawInput : List (List UInt8)

/-- The loop over the inputs, which are as many as the raw inputs. -/
def addRawInputs (request : InferRequest) :
    List InferInput → List (List UInt8) → InputMap → Except Status InputMap
  | io :: ios, raw :: rawInput, inputMap =>
    if io.batchByteSize ≠ raw.length then
      .error { code := .invalidArg,
               message := "unexpected size " ++ toString raw.length ++ " for input '" ++ io.name ++
                 "', expecting " ++ toString io.batchByteSize ++ " for model '" ++
                 request.modelName ++ "'" }
    else addRawInputs request ios rawInput (emplace inputMap io.name { blocks := [raw] })
  | _, _, inputMap => .ok inputMap

/-- `GRPCInferRequestToInputMap`. -/
def grpcInferRequestToInputMap (header : InferRequestHeader) (request : InferRequest) :
    Except Status InputMap :=
  if header.input.length ≠ request.rawInput.length then
    .error { code := .invalidArg,
             message := "expected tensor data for " ++ toString header.input.length ++
               " inputs but got " ++ toString request.rawInput.length ++
               " sets of data for model '" ++ request.modelName ++ "'" }
  else addRawInputs request header.input request.rawInput ∅

/-! ## What the body means -/

/-- The bytes of the inputs. -/
abbrev Contents := String → Option (List UInt8)

/-- The bytes that an input map gives the inputs. -/
def contents (inputMap : InputMap) : Contents := fun name =>
  (inputMap.lookup name).map SystemMemory.bytes

/-- The first bytes for a name stay. -/
def Contents.emplace (data : Contents) (name : String) (bytes : List UInt8) : Contents :=
  if (data name).isSome then data else Function.update data name (some bytes)

/-- Each input takes its bytes from the front of the body. -/
def sliceInputs (modelName : String) :
    List InferInput → List UInt8 → Contents → Except Status (Contents × List UInt8)
  | [], body, data => .ok (data, body)
  | io :: ios, body, data =>
    if body.length < io.batchByteSize then
      .error (unexpectedSize modelName io (io.batchByteSize - body.length))
    else
      sliceInputs modelName ios (body.drop io.batchByteSize)
        (data.emplace io.name (body.take io.batchByteSize))

/-- The meaning of a body: the inputs take all of it. -/
def sliceBody (modelName : String) (header : InferRequestHeader) (body : List UInt8) :
    Except Status Contents :=
  match sliceInputs modelName header.input body fun _ => none with
  | .error status => .error status
  | .ok (data, rest) =>
    if rest ≠ [] then .error (unexpectedAdditional modelName) else .ok data

/-- The byte sizes of the inputs. -/
def InferRequestHeader.sizes (header : InferRequestHeader) : List Nat :=
  header.input.map (·.batchByteSize)

/-! ## The chunks do not matter -/

section
variable {modelName : String} {header : InferRequestHeader} {inputMap : InputMap}
  {chunks : List (List UInt8)}

theorem contents_emplace (inputMap : InputMap) (name : String) (memory : SystemMemory) :
    contents (emplace inputMap name memory) =
      (contents inputMap).emplace name memory.bytes := by
  unfold emplace Contents.emplace
  have hmem : (contents inputMap name).isSome = true ↔ name ∈ inputMap := by
    unfold contents
    rw [Option.isSome_map, AList.lookup_isSome]
  split
  · next h => rw [if_pos (hmem.mpr h)]
  · next h =>
    rw [if_neg (mt hmem.mp h)]
    funext name'
    rw [Function.update_apply]
    split
    · next heq => rw [heq, contents, AList.lookup_insert, Option.map_some]
    · next hne => rw [contents, AList.lookup_insert_ne hne, contents]

/-- The blocks are the front of the chunks, the chunks that are left are the rest, and no
empty chunk is left. -/
theorem addBuffers_spec {byteSize missing : Nat} {blocks left : List (List UInt8)}
    (hchunks : [] ∉ chunks) (h : addBuffers byteSize chunks = (blocks, missing, left)) :
    blocks.flatten = chunks.flatten.take byteSize ∧ left.flatten = chunks.flatten.drop byteSize ∧
      missing = byteSize - chunks.flatten.length ∧ [] ∉ left := by
  induction chunks generalizing byteSize blocks missing left with
  | nil =>
    obtain ⟨rfl, rfl, rfl⟩ := h
    simp
  | cons chunk chunks ih =>
    rw [List.mem_cons, not_or] at hchunks
    unfold addBuffers at h
    split at h
    · next hzero =>
      obtain ⟨rfl, rfl, rfl⟩ := h
      rw [hzero]
      refine ⟨rfl, rfl, (Nat.zero_sub _).symm, ?_⟩
      rw [List.mem_cons, not_or]
      exact hchunks
    · split at h
      · -- the input ends inside of the chunk
        next hlt =>
        obtain ⟨rfl, rfl, rfl⟩ := h
        have hdrop : chunk.drop byteSize ≠ [] := fun hnil => by
          have := List.drop_eq_nil_iff.mp hnil
          omega
        refine ⟨?_, ?_, ?_, ?_⟩
        · rw [List.flatten_singleton, List.flatten_cons, List.take_append_of_le_length hlt.le]
        · rw [List.flatten_cons, List.flatten_cons, List.drop_append_of_le_length hlt.le]
        · rw [List.flatten_cons, List.length_append]
          omega
        · rw [List.mem_cons, not_or]
          exact ⟨hdrop.symm, hchunks.2⟩
      · next hge =>
        have hle := Nat.not_lt.mp hge
        obtain ⟨rfl, rfl, rfl⟩ := h
        obtain ⟨hblocks, hleft, hmissing, hne⟩ := ih hchunks.2 rfl
        refine ⟨?_, ?_, ?_, hne⟩
        · rw [List.flatten_cons, List.flatten_cons, hblocks, List.take_append,
            List.take_of_length_le hle]
        · rw [List.flatten_cons, hleft, List.drop_append, List.drop_of_length_le hle,
            List.nil_append]
        · rw [hmissing, List.flatten_cons, List.length_append]
          omega

/-- The loop over the inputs computes what the bytes of the chunks mean. -/
theorem addInputBuffers_eq (modelName : String) (ios : List InferInput) (inputMap : InputMap)
    (hchunks : [] ∉ chunks) :
    (addInputBuffers modelName ios chunks inputMap).map
        (fun result => (contents result.1, result.2.flatten)) =
      sliceInputs modelName ios chunks.flatten (contents inputMap) := by
  induction ios generalizing chunks inputMap with
  | nil => rfl
  | cons io ios ih =>
    unfold addInputBuffers sliceInputs
    generalize hresult : addBuffers io.batchByteSize chunks = result
    obtain ⟨blocks, missing, left⟩ := result
    obtain ⟨hblocks, hleft, hmissing, hne⟩ := addBuffers_spec hchunks hresult
    simp only
    split
    · next hmiss =>
      rw [if_pos (by omega), hmissing]
      rfl
    · next hfull =>
      rw [if_neg (by omega), ih _ hne, contents_emplace, hleft, SystemMemory.bytes_eq, hblocks]

theorem addInputBuffers_left {ios : List InferInput} {inputMap' : InputMap}
    {left : List (List UInt8)} (hchunks : [] ∉ chunks)
    (h : addInputBuffers modelName ios chunks inputMap = .ok (inputMap', left)) : [] ∉ left := by
  induction ios generalizing chunks inputMap with
  | nil =>
    cases h
    exact hchunks
  | cons io ios ih =>
    unfold addInputBuffers at h
    generalize hresult : addBuffers io.batchByteSize chunks = result at h
    obtain ⟨blocks, missing, rest⟩ := result
    simp only at h
    split at h
    · cases h
    · exact ih (addBuffers_spec hchunks hresult).2.2.2 h

/-- `EVBufferToInputMap` computes what the joined chunks mean. -/
theorem evBufferToInputMap_eq (modelName : String) (header : InferRequestHeader)
    (hchunks : [] ∉ chunks) :
    (evBufferToInputMap modelName header chunks).map contents =
      sliceBody modelName header chunks.flatten := by
  have hempty : contents ∅ = fun _ => none := funext fun _ => rfl
  have hloop := addInputBuffers_eq modelName header.input ∅ hchunks
  unfold evBufferToInputMap sliceBody
  rw [← hempty, ← hloop]
  cases hresult : addInputBuffers modelName header.input chunks ∅ with
  | error status => rfl
  | ok result =>
    obtain ⟨inputMap, left⟩ := result
    have hleft := addInputBuffers_left hchunks hresult
    -- without empty chunks, chunks are left exactly when bytes are left
    have hiff : left = [] ↔ left.flatten = [] := by
      refine ⟨fun h => by rw [h]; rfl, fun h => List.eq_nil_iff_forall_not_mem.mpr ?_⟩
      exact fun chunk hchunk => hleft (List.flatten_eq_nil_iff.mp h chunk hchunk ▸ hchunk)
    simp only [Except.map]
    rcases eq_or_ne left [] with hnil | hne
    · rw [if_neg (not_not.mpr hnil), if_neg (not_not.mpr (hiff.mp hnil))]
    · rw [if_pos hne, if_pos (mt hiff.mpr hne)]

/-- `GRPCInferRequestToInputMap` computes the same from the slices. -/
theorem addRawInputs_eq {request : InferRequest} {ios : List InferInput} {body rest : List UInt8}
    {data : Contents} (h : sliceInputs modelName ios body (contents inputMap) = .ok (data, rest)) :
    (addRawInputs request ios (slices (ios.map (·.batchByteSize)) body) inputMap).map contents =
      .ok data := by
  induction ios generalizing body inputMap with
  | nil =>
    cases h
    rfl
  | cons io ios ih =>
    unfold sliceInputs at h
    rw [List.map_cons, slices, addRawInputs]
    split at h
    · cases h
    · next hlt =>
      have hlength : (body.take io.batchByteSize).length = io.batchByteSize :=
        List.length_take_of_le (Nat.not_lt.mp hlt)
      rw [if_neg (not_not.mpr hlength.symm)]
      refine ih ?_
      rw [contents_emplace, SystemMemory.bytes_eq, List.flatten_singleton]
      exact h

theorem grpcInferRequestToInputMap_eq {request : InferRequest} {body : List UInt8}
    {data : Contents} (h : sliceBody modelName header body = .ok data)
    (hraw : request.rawInput = slices header.sizes body) :
    (grpcInferRequestToInputMap header request).map contents = .ok data := by
  have hlength : header.input.length = request.rawInput.length := by
    rw [hraw, length_slices, InferRequestHeader.sizes, List.length_map]
  unfold sliceBody at h
  unfold grpcInferRequestToInputMap
  rw [if_neg (not_not.mpr hlength), hraw]
  split at h
  · cases h
  · next data' rest hslice =>
    split at h
    · cases h
    · cases h
      exact addRawInputs_eq hslice

/-! ## Exact slices -/

/-- The loop succeeds exactly when the bytes suffice, and leaves the others. -/
theorem sliceInputs_isOk (modelName : String) (ios : List InferInput) (body : List UInt8)
    (data : Contents) :
    ((ios.map (·.batchByteSize)).sum ≤ body.length ∧
      ∃ data', sliceInputs modelName ios body data =
        .ok (data', body.drop (ios.map (·.batchByteSize)).sum)) ∨
    (body.length < (ios.map (·.batchByteSize)).sum ∧
      ∃ io missing, sliceInputs modelName ios body data =
        .error (unexpectedSize modelName io missing)) := by
  induction ios generalizing body data with
  | nil => exact .inl ⟨Nat.zero_le _, data, rfl⟩
  | cons io ios ih =>
    unfold sliceInputs
    rw [List.map_cons, List.sum_cons]
    split
    · next hlt => exact .inr ⟨by omega, io, _, rfl⟩
    · next hge =>
      rcases ih (body.drop io.batchByteSize)
        (data.emplace io.name (body.take io.batchByteSize)) with
        ⟨hle, data', h⟩ | ⟨hlt, herror⟩
      · rw [List.drop_drop] at h
        rw [List.length_drop] at hle
        exact .inl ⟨by omega, data', h⟩
      · rw [List.length_drop] at hlt
        exact .inr ⟨by omega, herror⟩

/-- With distinct names, each input has its own slice. -/
theorem sliceInputs_data {ios : List InferInput} {body rest : List UInt8} {data data' : Contents}
    (hnames : (ios.map (·.name)).Nodup) (hfresh : ∀ io ∈ ios, data io.name = none)
    (h : sliceInputs modelName ios body data = .ok (data', rest)) :
    (∀ p ∈ ios.zip (slices (ios.map (·.batchByteSize)) body), data' p.1.name = some p.2) ∧
      ∀ name, name ∉ ios.map (·.name) → data' name = data name := by
  induction ios generalizing body data with
  | nil =>
    cases h
    exact ⟨fun _ hmem => absurd hmem List.not_mem_nil, fun _ _ => rfl⟩
  | cons io ios ih =>
    unfold sliceInputs at h
    split at h
    · cases h
    · rw [List.map_cons, List.nodup_cons] at hnames
      rw [List.forall_mem_cons] at hfresh
      have hsome : data.emplace io.name (body.take io.batchByteSize) =
          Function.update data io.name (some (body.take io.batchByteSize)) := by
        unfold Contents.emplace
        rw [if_neg (by rw [hfresh.1]; decide)]
      rw [hsome] at h
      obtain ⟨hslices, hothers⟩ := ih hnames.2 (fun io' hio' => by
        rw [Function.update_of_ne]
        · exact hfresh.2 io' hio'
        · exact fun heq => hnames.1 (heq ▸ List.mem_map_of_mem hio')) h
      rw [List.map_cons, slices, List.zip_cons_cons]
      refine ⟨List.forall_mem_cons.mpr ⟨?_, hslices⟩, fun name hname => ?_⟩
      · rw [hothers io.name hnames.1, Function.update_self]
      · rw [List.map_cons, List.mem_cons, not_or] at hname
        rw [hothers name hname.2, Function.update_of_ne hname.1]

theorem sliceBody_isOk_iff (modelName : String) (header : InferRequestHeader) (body : List UInt8) :
    (statusOf (sliceBody modelName header body)).isOk ↔ body.length = header.sizes.sum := by
  unfold sliceBody InferRequestHeader.sizes
  rcases sliceInputs_isOk modelName header.input body (fun _ => none) with
    ⟨hle, data, h⟩ | ⟨hlt, io, missing, h⟩
  · rw [h]
    simp only
    split
    · next hrest => exact iff_of_false nofun fun heq => hrest (List.drop_of_length_le heq.le)
    · next hrest =>
      have := List.drop_eq_nil_iff.mp (not_not.mp hrest)
      exact iff_of_true rfl (Nat.le_antisymm this hle)
  · rw [h]
    exact iff_of_false nofun (by omega)

theorem sliceBody_data {body : List UInt8} {data : Contents}
    (hnames : (header.input.map (·.name)).Nodup) (h : sliceBody modelName header body = .ok data) :
    (∀ p ∈ header.input.zip (slices header.sizes body), data p.1.name = some p.2) ∧
      ∀ name, name ∉ header.input.map (·.name) → data name = none := by
  unfold sliceBody at h
  split at h
  · cases h
  · next data' rest hslice =>
    split at h
    · cases h
    · cases h
      exact sliceInputs_data hnames (fun _ _ => rfl) hslice

theorem isOk_statusOf_map {α β : Type} (result : Except Status α) (f : α → β) :
    statusOf (result.map f) = statusOf result := by
  cases result <;> rfl

/-- A body is accepted exactly when its length is the sum of the byte sizes of the inputs. The
bytes of each input are its consecutive slice of the body, as they are in the input map of a
GRPC request with these slices, and the outcome depends on the joined chunks only. -/
theorem inputMap_exact (modelName : String) (header : InferRequestHeader)
    (chunks : List (List UInt8)) (hnames : (header.input.map (·.name)).Nodup)
    (hchunks : [] ∉ chunks) :
    ((statusOf (evBufferToInputMap modelName header chunks)).isOk ↔
      (chunks.map List.length).sum = header.sizes.sum) ∧
    (∀ inputMap, evBufferToInputMap modelName header chunks = .ok inputMap →
      (∀ p ∈ header.input.zip (slices header.sizes chunks.flatten),
        contents inputMap p.1.name = some p.2) ∧
      (∀ name, name ∉ header.input.map (·.name) → contents inputMap name = none) ∧
      ∃ inputMap', grpcInferRequestToInputMap header
          { modelName := modelName, rawInput := slices header.sizes chunks.flatten } =
            .ok inputMap' ∧ contents inputMap' = contents inputMap) ∧
    ∀ chunks', [] ∉ chunks' → chunks'.flatten = chunks.flatten →
      (evBufferToInputMap modelName header chunks').map contents =
        (evBufferToInputMap modelName header chunks).map contents := by
  have hbody := evBufferToInputMap_eq modelName header hchunks
  refine ⟨?_, fun inputMap hok => ?_, fun chunks' hchunks' hsame => ?_⟩
  · rw [← isOk_statusOf_map _ contents, hbody, sliceBody_isOk_iff, List.length_flatten]
  · rw [hok] at hbody
    have hslice : sliceBody modelName header chunks.flatten = .ok (contents inputMap) := hbody.symm
    obtain ⟨hdata, hothers⟩ := sliceBody_data hnames hslice
    refine ⟨hdata, hothers, ?_⟩
    have hgrpc : (grpcInferRequestToInputMap header
        { modelName := modelName, rawInput := slices header.sizes chunks.flatten }).map contents =
          .ok (contents inputMap) := grpcInferRequestToInputMap_eq hslice rfl
    generalize grpcInferRequestToInputMap header _ = result at hgrpc ⊢
    cases result with
    | error status => cases hgrpc
    | ok inputMap' => exact ⟨inputMap', rfl, Except.ok.inj hgrpc⟩
  · rw [hbody, evBufferToInputMap_eq modelName header hchunks', hsame]

/-- Three inputs of 3, 0 and 2 bytes. -/
def threeSizes : InferRequestHeader where
  batchSize := 1
  input :=
    [{ name := "a", dims := [3], batchByteSize := 3 },
     { name := "z", dims := [0], batchByteSize := 0 },
     { name := "b", dims := [2], batchByteSize := 2 }]

/-- The first input ends inside of the second chunk, from which the last one takes the rest. -/
theorem inputMap_three :
    ∃ inputMap, evBufferToInputMap "m" threeSizes [[1, 2], [3, 4], [5]] = .ok inputMap ∧
      contents inputMap "a" = some [1, 2, 3] ∧ contents inputMap "z" = some [] ∧
      contents inputMap "b" = some [4, 5] := by
  have hspec := inputMap_exact "m" threeSizes [[1, 2], [3, 4], [5]] (by decide) (by decide)
  have hresult : evBufferToInputMap "m" threeSizes [[1, 2], [3, 4], [5]] =
      .ok (emplace (emplace (emplace ∅ "a" { blocks := [[1, 2], [3]] }) "z" { blocks := [] }) "b"
        { blocks := [[4], [5]] }) := rfl
  obtain ⟨hslices, -, -⟩ := hspec.2.1 _ hresult
  refine ⟨_, hresult, ?_, ?_, ?_⟩
  · exact hslices ({ name := "a", dims := [3], batchByteSize := 3 }, [1, 2, 3]) (by decide)
  · exact hslices ({ name := "z", dims := [0], batchByteSize := 0 }, []) (by decide)
  · exact hslices ({ name := "b", dims := [2], batchByteSize := 2 }, [4, 5]) (by decide)

end

end FinBert.Serving
