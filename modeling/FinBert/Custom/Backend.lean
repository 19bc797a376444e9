import FinBert.Serving.FixedSized
import FinBert.Serving.InputReading

/-!
# Custom backends

`CustomBackend::Context::Run` (`custom_backend.cc`) hands the payloads of a batch to the shared
library of a model, which takes the inputs of a payload and gives its outputs through two callback
functions and keeps a state of its own. The errors that the library reports for single payloads
become their statuses.

Results:
1. `getInputTensor_of_cursorAt`, `getInputTensor_of_override`, `getInputTensor_of_buf`: what the
   loop reads with which the libraries take an input.
2. `run_of_ready`, `run_singleton`: when `Run` calls the library.
-/

namespace FinBert.Custom

open FinBert.Serving

/-! ## The callback functions -/

/-- `CustomGetNextInput`: `none` where it returns false. -/
def getNextInput (payload : Payload) (name : String) (contentByteSize : Nat) :
    Option (Option Bytes) × Payload :=
  match payload.requestProvider.getNextInputContent name contentByteSize false with
  | (.error _, provider) => (none, { payload with requestProvider := provider })
  | (.ok content, provider) => (some content, { payload with requestProvider := provider })

/-- `CustomGetOutput`: `none` where it returns false, and else the place of the buffer among those
of the payload, or a null pointer. The bytes of a new buffer are zeros here; they are
overwritten. -/
def getOutput (payload : Payload) (name : String) (shape : List Int) (contentByteSize : Nat) :
    Option (Option Nat) × Payload :=
  match payload.responseProvider with
  | none => (some none, payload)
  | some response =>
    if (response.allocateOutputBuffer name contentByteSize shape).isOk then
      (some (some response.outputBuffers.length),
        { payload with
          responseProvider := some { response with
            outputBuffers :=
              response.outputBuffers ++ [(name, List.replicate contentByteSize 0)] } })
    else (none, payload)

/-- `memcpy` to a buffer, from `offset` on. -/
def copyToOutput (payload : Payload) (buffer offset : Nat) (bytes : Bytes) : Payload :=
  { payload with
    responseProvider := payload.responseProvider.map fun response => { response with
      outputBuffers := response.outputBuffers.modify buffer fun output =>
        (output.1, overwrite output.2 offset bytes) } }

/-- What the backend and the libraries do with a payload of the type `κ`. A pointer to the buffer
of an output is of the type `ρ`, and `memcpy` is given the offset behind it. -/
class BackendPayload (κ : Type) (ρ : outParam Type) where
  status : κ → Status
  setStatus : κ → Status → κ
  requestHeader : κ → InferRequestHeader
  inputFn : κ → String → Nat → Option (Option Bytes) × κ
  outputFn : κ → String → List Int → Nat → Option (Option ρ) × κ
  memcpy : κ → ρ → Nat → Bytes → κ
  /-- The number of the contents of an input that have not been returned. -/
  blocksLeft : κ → String → Nat

instance : BackendPayload Payload Nat where
  status := Payload.status
  setStatus payload status := { payload with status := status }
  requestHeader payload := payload.requestProvider.requestHeader
  inputFn := getNextInput
  outputFn := getOutput
  memcpy := copyToOutput
  blocksLeft payload := payload.requestProvider.blocksLeft

theorem modify_length_concat {α : Type} (f : α → α) (xs : List α) (x : α) :
    (xs ++ [x]).modify xs.length f = xs ++ [f x] := by
  rw [List.modify_eq_take_cons_drop (by simp)]
  simp

/-! ## The shared library -/

/-- `CustomPayload`: each input with its shape. Both contexts of a payload lead to `context`. -/
structure CustomPayload (κ : Type) where
  batchSize : Nat
  inputs : List (String × List Int)
  requiredOutputNames : List String
  context : κ
  errorCode : Int := 0

/-- The functions of a shared library with the state `σ`. -/
structure Library (σ κ : Type) where
  execute : σ → List (CustomPayload κ) → Int × List (CustomPayload κ) × σ
  errorString : Int → Option String

/-- `CustomBackend::Context`. The batch size is 0 for a model that does not support batching. -/
structure Context (σ κ : Type) where
  name : String
  maxBatchSize : Nat
  library : Library σ κ

section
variable {σ κ ρ : Type} [BackendPayload κ ρ]

open BackendPayload

/-- `LibraryErrorString`. -/
def Context.libraryErrorString (context : Context σ κ) (err : Int) : String :=
  (context.library.errorString err).getD "<no error string>"

/-- `(err) text`. -/
def Context.describe (context : Context σ κ) (err : Int) : String :=
  "(" ++ toString err ++ ") " ++ context.libraryErrorString err

/-! ## `Run` -/

/-- `emplace` has no effect on a name that is there. -/
def emplaceShape (shapes : UnorderedMap String (List Int)) (io : InferInput) :
    UnorderedMap String (List Int) :=
  if io.name ∈ shapes then shapes else shapes.insert io.name io.dims

/-- `input_shapes`, from the header of the first payload. -/
def inputShapes (input : List InferInput) : UnorderedMap String (List Int) :=
  input.foldl emplaceShape ∅

/-- The inputs of a payload with the shapes of the first one. -/
def shapedInputs (name : String) (shapes : UnorderedMap String (List Int)) :
    List InferInput → Except Status (List (String × List Int))
  | [] => .ok []
  | io :: ios =>
    match shapes.lookup io.name with
    | none =>
      .error { code := .internal,
               message := "unable to find shape for input '" ++ io.name ++ "' for '" ++ name ++
                 "'" }
    | some shape =>
      match shapedInputs name shapes ios with
      | .error status => .error status
      | .ok inputs => .ok ((io.name, shape) :: inputs)

/-- The `CustomPayload` for each of the payloads. -/
def customPayloads (name : String) (shapes : UnorderedMap String (List Int)) :
    List κ → Except Status (List (CustomPayload κ))
  | [] => .ok []
  | payload :: payloads =>
    let header := requestHeader payload
    match shapedInputs name shapes header.input with
    | .error status => .error status
    | .ok inputs =>
      match customPayloads name shapes payloads with
      | .error status => .error status
      | .ok rest =>
        .ok ({ batchSize := header.batchSize, inputs := inputs,
               requiredOutputNames := header.output.map (·.name), context := payload } :: rest)

/-- The payload behind the call of the library, with the error that the library has set. -/
def Context.transferError (context : Context σ κ) (payload : CustomPayload κ) : κ :=
  if payload.errorCode = 0 then payload.context
  else setStatus payload.context
    { code := .internal,
      message := "payload error for '" ++ context.name ++ "': " ++
        context.describe payload.errorCode }

/-- The sum of the batch sizes. -/
def totalBatchSize (payloads : List κ) : Nat :=
  (payloads.map fun payload => (requestHeader payload).batchSize).sum

/-- `CustomBackend::Context::Run`. -/
def Context.run (context : Context σ κ) (state : σ) (payloads : List κ) : Status × List κ × σ :=
  let shapes :=
    match payloads with
    | [] => ∅
    | payload :: _ => inputShapes (requestHeader payload).input
  if payloads.any fun payload => !(status payload).isOk then
    ({ code := .internal,
       message := "unexpected payload with non-OK status given to custom runner for '" ++
         context.name ++ "'" }, payloads, state)
  else
    let total := totalBatchSize payloads % 4294967296
    if total = 0 then (.ok, payloads, state)
    else if total ≠ 1 ∧ total > context.maxBatchSize then
      ({ code := .internal,
         message := "dynamic batch size " ++ toString total ++ " for '" ++ context.name ++
           "', max allowed is " ++ toString context.maxBatchSize }, payloads, state)
    else
      match customPayloads context.name shapes payloads with
      | .error status => (status, payloads, state)
      | .ok customs =>
        let (err, customs, state) := context.library.execute state customs
        if err ≠ 0 then
          ({ code := .internal,
             message := "execute error for '" ++ context.name ++ "': " ++ context.describe err },
            customs.map (·.context), state)
        else (.ok, customs.map context.transferError, state)

end

/-! ## `GetInputTensor` -/

/-- The errors of `GetInputTensor`, for which every library has codes of its own. -/
inductive InputError
  | contents
  | size
deriving DecidableEq

/-- The loop of `GetInputTensor`, with at most `calls` calls: `asked` is the size that is asked for
when so many bytes have been received. -/
def readInputTensor (name : String) (expected : Nat) (asked : Nat → Nat) :
    Nat → Payload → Bytes → Except InputError Bytes × Payload
  | 0, payload, _ => (.error .contents, payload)
  | calls + 1, payload, input =>
    match getNextInput payload name (asked input.length) with
    | (none, payload) => (.error .contents, payload)
    | (some none, payload) =>
      (if input.length ≠ expected then .error .size else .ok input, payload)
    | (some (some content), payload) =>
      if input.length + content.length > expected then (.error .size, payload)
      else readInputTensor name expected asked calls payload (input ++ content)

/-- The `GetInputTensor` of the libraries, which differ in `asked`. -/
def getInputTensor (payload : Payload) (name : String) (expected : Nat) (asked : Nat → Nat) :
    Except InputError Bytes × Payload :=
  readInputTensor name expected asked (payload.requestProvider.blocksLeft name + 2) payload []

section
variable {payload : Payload} {name : String} {expected : Nat} {asked : Nat → Nat}

/-- Only what the request provider has returned changes. -/
theorem readInputTensor_frame (calls : Nat) (payload : Payload) (input : Bytes) :
    ∃ provider, (readInputTensor name expected asked calls payload input).2 =
      { payload with requestProvider := provider } := by
  induction calls generalizing payload input with
  | zero => exact ⟨payload.requestProvider, rfl⟩
  | succ calls ih =>
    unfold readInputTensor getNextInput
    split
    · next heq =>
      split at heq <;> cases heq
      exact ⟨_, rfl⟩
    · next heq =>
      split at heq <;> cases heq
      exact ⟨_, rfl⟩
    · next content payload' heq =>
      split at heq <;> cases heq
      split
      · exact ⟨_, rfl⟩
      · obtain ⟨provider, hprovider⟩ := ih _ (input ++ content)
        exact ⟨provider, hprovider⟩

theorem getNextInput_ok {content : Option Bytes} {provider : InferRequestProvider} {size : Nat}
    (h : payload.requestProvider.getNextInputContent name size false = (.ok content, provider)) :
    getNextInput payload name size =
      (some content, { payload with requestProvider := provider }) := by
  unfold getNextInput
  rw [h]

/-- The last turn of the loop. -/
theorem readInputTensor_of_null {calls : Nat} {input : Bytes} (hcalls : 0 < calls)
    (hsize : input.length = expected) {provider : InferRequestProvider}
    (hnext : payload.requestProvider.getNextInputContent name (asked expected) false =
      (.ok none, provider)) :
    readInputTensor name expected asked calls payload input =
      (.ok input, { payload with requestProvider := provider }) := by
  obtain ⟨calls, rfl⟩ := Nat.exists_eq_succ_of_ne_zero (Nat.ne_of_gt hcalls)
  rw [readInputTensor, hsize, getNextInput_ok hnext]
  exact congrArg (·, _) (if_neg (not_not.mpr rfl))

/-- A turn of the loop with a content that fits in. -/
theorem readInputTensor_of_content {calls : Nat} {input content : Bytes}
    (hfits : input.length + content.length ≤ expected) {provider : InferRequestProvider}
    (hnext : payload.requestProvider.getNextInputContent name (asked input.length) false =
      (.ok (some content), provider)) :
    readInputTensor name expected asked (calls + 1) payload input =
      readInputTensor name expected asked calls { payload with requestProvider := provider }
        (input ++ content) := by
  rw [readInputTensor, getNextInput_ok hnext]
  exact if_neg (Nat.not_lt.mpr hfits)

theorem counts_of_cursorAt {provider : InferRequestProvider} {memory : SystemMemory} {idx : Nat}
    (h : provider.CursorAt name memory idx) : provider.Counts name :=
  .inr (h.cursor.imp fun _ => And.left)

/-- The loop at an input whose blocks come one after another. -/
theorem readInputTensor_of_cursorAt {memory : SystemMemory} {idx calls : Nat} {input : Bytes}
    (h : payload.requestProvider.CursorAt name memory idx)
    (hblocks : ∀ block ∈ memory.blocks, block ≠ [])
    (hsize : input.length + (memory.blocks.drop idx).flatten.length = expected)
    (hasked : ∀ n, n < expected → asked n ≠ 0)
    (hcalls : payload.requestProvider.blocksLeft name < calls) :
    (readInputTensor name expected asked calls payload input).1 =
      .ok (input ++ (memory.blocks.drop idx).flatten) := by
  induction calls generalizing payload idx input with
  | zero => exact absurd hcalls (Nat.not_lt_zero _)
  | succ calls ih =>
    rcases Nat.lt_or_ge input.length expected with hlt | hge
    · obtain ⟨content, idx', hreply, hcursor, hcontent⟩ :=
        getNextInputContent_of_cursorAt h hblocks (hasked _ hlt) false
      have hnext : payload.requestProvider.getNextInputContent name (asked input.length) false =
        (.ok content, _) := Prod.ext hreply rfl
      obtain ⟨-, hnil, -⟩ | ⟨bytes, rfl, -, -, hbytes⟩ := hcontent
      · rw [hnil] at hsize
        exact absurd hsize (Nat.ne_of_lt hlt)
      · rw [hbytes, List.length_append, ← Nat.add_assoc] at hsize
        obtain ⟨hleft, -⟩ := blocksLeft_getNextInputContent (counts_of_cursorAt h) hnext
        rw [readInputTensor_of_content (Nat.le.intro hsize) hnext, ih hcursor, hbytes,
          List.append_assoc]
        · rw [List.length_append]
          exact hsize
        · exact Nat.lt_of_succ_lt_succ (hleft.trans_lt hcalls)
    · have hexpected : input.length = expected := Nat.le_antisymm (Nat.le.intro hsize) hge
      have hnil : (memory.blocks.drop idx).flatten = [] :=
        List.eq_nil_of_length_eq_zero (Nat.add_left_cancel (hsize.trans hexpected.symm))
      rw [hnil, List.append_nil]
      by_cases hzero : asked expected = 0
      · rw [readInputTensor_of_null (Nat.succ_pos _) hexpected (if_pos hzero)]
      · obtain ⟨content, idx', hreply, -, hcontent⟩ :=
          getNextInputContent_of_cursorAt h hblocks hzero false
        obtain ⟨rfl, -⟩ | ⟨bytes, -, hne, -, hbytes⟩ := hcontent
        · rw [readInputTensor_of_null (Nat.succ_pos _) hexpected (Prod.ext hreply rfl)]
        · rw [hnil] at hbytes
          exact absurd (List.append_eq_nil_iff.mp hbytes.symm).1 hne

/-- An input of blocks that have the expected size together. -/
theorem getInputTensor_of_cursorAt {memory : SystemMemory}
    (h : payload.requestProvider.CursorAt name memory 0)
    (hblocks : ∀ block ∈ memory.blocks, block ≠ []) (hsize : memory.bytes.length = expected)
    (hasked : ∀ n, n < expected → asked n ≠ 0) :
    (getInputTensor payload name expected asked).1 = .ok memory.bytes := by
  rw [SystemMemory.bytes_eq] at hsize ⊢
  exact readInputTensor_of_cursorAt h hblocks ((Nat.zero_add _).trans hsize) hasked
    (Nat.lt_add_of_pos_right Nat.two_pos)

/-- An input that is overridden, and has not been read. -/
theorem getInputTensor_of_override {content : Bytes}
    (h : payload.requestProvider.overrides.lookup name = some content)
    (hfresh : name ∉ payload.requestProvider.overridesConsumed) (hsize : content.length = expected)
    (hasked : asked 0 ≠ 0) :
    getInputTensor payload name expected asked =
      (.ok content,
        { payload with
          requestProvider := { payload.requestProvider with
            overridesConsumed := name :: payload.requestProvider.overridesConsumed } }) := by
  have hfirst : payload.requestProvider.getNextInputContent name (asked 0) false =
      (.ok (some content), { payload.requestProvider with
        overridesConsumed := name :: payload.requestProvider.overridesConsumed }) := by
    unfold InferRequestProvider.getNextInputContent
    rw [if_neg hasked, h]
    exact if_neg hfresh
  have hlast : InferRequestProvider.getNextInputContent { payload.requestProvider with
        overridesConsumed := name :: payload.requestProvider.overridesConsumed } name
      (asked expected) false = (.ok none, { payload.requestProvider with
        overridesConsumed := name :: payload.requestProvider.overridesConsumed }) := by
    unfold InferRequestProvider.getNextInputContent
    split
    · rfl
    · rw [h]
      exact if_pos (List.mem_cons_self ..)
  unfold getInputTensor
  rw [readInputTensor_of_content ((Nat.zero_add _).trans hsize).le hfirst]
  exact readInputTensor_of_null (Nat.succ_pos _) hsize hlast

/-- An input of a provider that has no data: as many bytes as are asked for. -/
theorem getInputTensor_of_buf {buf : Nat → Bytes}
    (h : payload.requestProvider.overrides.lookup name = none)
    (hdata : payload.requestProvider.data = .null buf) (hbuf : ∀ size, (buf size).length = size)
    (hexpected : expected ≠ 0) :
    getInputTensor payload name expected (expected - ·) = (.ok (buf expected), payload) := by
  have hfirst := getNextInputContent_null h hdata expected
  rw [if_neg hexpected] at hfirst
  have hlast : payload.requestProvider.getNextInputContent name (expected - expected) false =
      (.ok none, payload.requestProvider) := by
    rw [Nat.sub_self, getNextInputContent_null h hdata, if_pos rfl]
  unfold getInputTensor
  rw [readInputTensor_of_content ((Nat.zero_add _).trans (hbuf _)).le hfirst]
  exact readInputTensor_of_null (Nat.succ_pos _) (hbuf _) hlast

end

/-! ## When `Run` calls the library -/

section
variable {κ ρ : Type} [BackendPayload κ ρ] {shapes : UnorderedMap String (List Int)}

open BackendPayload

theorem shapedInputs_ok (name : String) {input : List InferInput}
    (h : ∀ io ∈ input, io.name ∈ shapes) :
    ∃ inputs, shapedInputs name shapes input = .ok inputs := by
  induction input with
  | nil => exact ⟨[], rfl⟩
  | cons io ios ih =>
    rw [List.forall_mem_cons] at h
    obtain ⟨shape, hshape⟩ := Option.isSome_iff_exists.mp (AList.lookup_isSome.mpr h.1)
    obtain ⟨inputs, hinputs⟩ := ih h.2
    exact ⟨(io.name, shape) :: inputs, by rw [shapedInputs, hshape, hinputs]⟩

/-- What a `CustomPayload` has from the payload. -/
structure Represents (custom : CustomPayload κ) (payload : κ) : Prop where
  batchSize : custom.batchSize = (requestHeader payload).batchSize
  requiredOutputNames : custom.requiredOutputNames =
    (requestHeader payload).output.map (·.name)
  context : custom.context = payload
  errorCode : custom.errorCode = 0

theorem customPayloads_ok (name : String) {payloads : List κ}
    (h : ∀ payload ∈ payloads, ∀ io ∈ (requestHeader payload).input, io.name ∈ shapes) :
    ∃ customs, customPayloads name shapes payloads = .ok customs ∧
      List.Forall₂ Represents customs payloads := by
  induction payloads with
  | nil => exact ⟨[], rfl, .nil⟩
  | cons payload payloads ih =>
    rw [List.forall_mem_cons] at h
    obtain ⟨inputs, hinputs⟩ := shapedInputs_ok name h.1
    obtain ⟨customs, hcustoms, hall⟩ := ih h.2
    refine ⟨_, by rw [customPayloads, hinputs, hcustoms], .cons ⟨rfl, rfl, rfl, rfl⟩ hall⟩

/-- What is at an index of one list has what belongs to it there in the other list. -/
theorem exists_of_forall₂ {α β : Type} {R : α → β → Prop} {xs : List α} {ys : List β}
    (h : List.Forall₂ R xs ys) {idx : Nat} {y : β} (hy : ys[idx]? = some y) :
    ∃ x, xs[idx]? = some x ∧ R x y := by
  induction h generalizing idx with
  | nil => cases hy
  | @cons x y' xs ys hxy _ ih =>
    cases idx with
    | zero =>
      obtain rfl := Option.some.inj hy
      exact ⟨x, rfl, hxy⟩
    | succ idx => exact ih hy

theorem mem_emplaceShape (io : InferInput) {name : String} :
    name ∈ emplaceShape shapes io ↔ name = io.name ∨ name ∈ shapes := by
  unfold emplaceShape
  split
  · next hmem => exact ⟨.inr, fun h => h.elim (· ▸ hmem) id⟩
  · exact AList.mem_insert _

theorem mem_foldl_emplaceShape {input : List InferInput} {io : InferInput}
    (h : io ∈ input ∨ io.name ∈ shapes) : io.name ∈ input.foldl emplaceShape shapes := by
  induction input generalizing shapes with
  | nil => exact h.resolve_left List.not_mem_nil
  | cons io' ios ih =>
    rw [List.mem_cons] at h
    refine ih ?_
    obtain (rfl | h) | h := h
    · exact .inr ((mem_emplaceShape _).mpr (.inl rfl))
    · exact .inl h
    · exact .inr ((mem_emplaceShape _).mpr (.inr h))

/-- The first shape for a name stays. -/
theorem lookup_foldl_emplaceShape {input : List InferInput} {name : String}
    (hname : name ∈ shapes) :
    (input.foldl emplaceShape shapes).lookup name = shapes.lookup name := by
  induction input generalizing shapes with
  | nil => rfl
  | cons io ios ih =>
    rw [List.foldl_cons, ih ((mem_emplaceShape io).mpr (.inr hname)), emplaceShape]
    split
    · rfl
    · next hfresh => exact AList.lookup_insert_ne fun heq => hfresh (heq ▸ hname)

/-- Inputs with different names have their own shapes. -/
theorem shape_foldl_emplaceShape {input : List InferInput} (hnames : (input.map (·.name)).Nodup)
    (hfresh : ∀ io ∈ input, io.name ∉ shapes) {io : InferInput} (hio : io ∈ input) :
    (input.foldl emplaceShape shapes).lookup io.name = some io.dims := by
  induction input generalizing shapes with
  | nil => exact absurd hio List.not_mem_nil
  | cons io' ios ih =>
    rw [List.map_cons, List.nodup_cons] at hnames
    rw [List.forall_mem_cons] at hfresh
    rw [List.foldl_cons]
    rcases List.mem_cons.mp hio with rfl | hio
    · rw [lookup_foldl_emplaceShape ((mem_emplaceShape io).mpr (.inl rfl)), emplaceShape,
        if_neg hfresh.1, AList.lookup_insert]
    · refine ih hnames.2 (fun io'' hio'' hmem => ?_) hio
      obtain heq | hmem := (mem_emplaceShape io').mp hmem
      · exact hnames.1 (heq ▸ List.mem_map_of_mem hio'')
      · exact hfresh.2 io'' hio'' hmem

theorem shapedInputs_eq (name : String) {input : List InferInput}
    (h : ∀ io ∈ input, shapes.lookup io.name = some io.dims) :
    shapedInputs name shapes input = .ok (input.map fun io => (io.name, io.dims)) := by
  induction input with
  | nil => rfl
  | cons io ios ih =>
    rw [List.forall_mem_cons] at h
    rw [shapedInputs, h.1, ih h.2]
    rfl

end

section
variable {σ κ ρ : Type} [BackendPayload κ ρ] {context : Context σ κ} {payloads : List κ}

open BackendPayload

/-- Payloads that a batch can be made of: none has failed, they have the inputs of the first one,
and they are not more than the model allows. -/
structure Ready (context : Context σ κ) (payloads : List κ) : Prop where
  isOk : ∀ payload ∈ payloads, (status payload).isOk = true
  inputs : ∀ first rest, payloads = first :: rest → ∀ payload ∈ payloads,
    ∀ io ∈ (requestHeader payload).input,
      ∃ io' ∈ (requestHeader first).input, io'.name = io.name
  pos : 0 < totalBatchSize payloads
  lt : totalBatchSize payloads < 4294967296
  le : totalBatchSize payloads = 1 ∨ totalBatchSize payloads ≤ context.maxBatchSize

/-- `Run` calls the library with the payloads. -/
theorem run_of_ready (h : Ready context payloads) (state : σ) :
    ∃ customs, List.Forall₂ Represents customs payloads ∧
      context.run state payloads =
        let (err, customs, state) := context.library.execute state customs
        if err ≠ 0 then
          ({ code := .internal,
             message := "execute error for '" ++ context.name ++ "': " ++ context.describe err },
            customs.map (·.context), state)
        else (.ok, customs.map context.transferError, state) := by
  have hok : (payloads.any fun payload => !(status payload).isOk) = false := by
    rw [List.any_eq_false]
    intro payload hp
    rw [h.isOk payload hp]
    exact Bool.false_ne_true
  have hmod : totalBatchSize payloads % 4294967296 = totalBatchSize payloads :=
    Nat.mod_eq_of_lt h.lt
  have hle : ¬ (totalBatchSize payloads ≠ 1 ∧ totalBatchSize payloads > context.maxBatchSize) :=
    fun ⟨hne, hgt⟩ => Nat.not_lt.mpr (h.le.resolve_left hne) hgt
  cases payloads with
  | nil => exact absurd h.pos (Nat.lt_irrefl 0)
  | cons first rest =>
    have hshapes : ∀ payload ∈ first :: rest, ∀ io ∈ (requestHeader payload).input,
        io.name ∈ inputShapes (requestHeader first).input := by
      intro payload hp io hio
      obtain ⟨io', hio', heq⟩ := h.inputs first rest rfl payload hp io hio
      exact heq ▸ mem_foldl_emplaceShape (.inl hio')
    obtain ⟨customs, hcustoms, hall⟩ := customPayloads_ok context.name hshapes
    refine ⟨customs, hall, ?_⟩
    unfold Context.run
    dsimp only
    rw [hok, hmod, if_neg Bool.false_ne_true, if_neg (Nat.ne_of_gt h.pos), if_neg hle, hcustoms]

/-- `Run` calls the library with a payload that is alone, and whose inputs have different names,
with the shapes of these inputs. -/
theorem run_singleton {payload : κ} (hok : (status payload).isOk = true)
    (hnames : ((requestHeader payload).input.map (·.name)).Nodup)
    (hpos : 0 < (requestHeader payload).batchSize)
    (hlt : (requestHeader payload).batchSize < 4294967296)
    (hle : (requestHeader payload).batchSize = 1 ∨
      (requestHeader payload).batchSize ≤ context.maxBatchSize) (state : σ) :
    context.run state [payload] =
      let (err, customs, state) := context.library.execute state
        [{ batchSize := (requestHeader payload).batchSize
           inputs := (requestHeader payload).input.map fun io => (io.name, io.dims)
           requiredOutputNames := (requestHeader payload).output.map (·.name)
           context := payload }]
      if err ≠ 0 then
        ({ code := .internal,
           message := "execute error for '" ++ context.name ++ "': " ++ context.describe err },
          customs.map (·.context), state)
      else (.ok, customs.map context.transferError, state) := by
  have htotal : totalBatchSize [payload] = (requestHeader payload).batchSize :=
    List.sum_singleton
  have hmod : totalBatchSize [payload] % 4294967296 = (requestHeader payload).batchSize := by
    rw [htotal, Nat.mod_eq_of_lt hlt]
  have hany : ([payload].any fun payload => !(status payload).isOk) = false := by
    rw [List.any_cons, hok]
    rfl
  have hle : ¬ ((requestHeader payload).batchSize ≠ 1 ∧
      (requestHeader payload).batchSize > context.maxBatchSize) :=
    fun ⟨hne, hgt⟩ => Nat.not_lt.mpr (hle.resolve_left hne) hgt
  have hshapes := shapedInputs_eq context.name fun io (hio : io ∈ (requestHeader payload).input) =>
    shape_foldl_emplaceShape hnames (fun io _ => AList.notMem_empty io.name) hio
  unfold Context.run inputShapes
  dsimp only
  rw [hany, hmod, if_neg Bool.false_ne_true, if_neg (Nat.ne_of_gt hpos), if_neg hle]
  simp only [customPayloads, hshapes]

end

end FinBert.Custom
