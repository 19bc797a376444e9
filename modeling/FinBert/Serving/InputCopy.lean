import FinBert.Lib.Overwrite
import FinBert.Serving.StringTensor

/-!
# Copying the content of an input

The loop in which a backend copies the blocks of an input of a payload, one after another, to
the place of the payload in a buffer: the TensorFlow backend in `SetFixedSizedInputTensor`
(`base_backend.cc`), the ONNX backend in `SetInputBuffer` (`onnx_backend.cc`). The two loops
differ in the check that they make before they copy a block.

Results:
1. `copyContent_calls`: the loop ends by itself, after at most one more call than there are
   blocks left.
2. `copyInput_spec`: what is copied, by the blocks that the request still has for the input.
-/

namespace FinBert.Serving

/-- Two lists have the same indexes, with elements that are related. -/
theorem getElem?_of_forall₂ {α β : Type} {R : α → β → Prop} {xs : List α} {ys : List β}
    (h : List.Forall₂ R xs ys) (i : Nat) :
    (xs[i]? = none ∧ ys[i]? = none) ∨ ∃ x y, xs[i]? = some x ∧ ys[i]? = some y ∧ R x y := by
  induction h generalizing i with
  | nil => exact .inl ⟨rfl, rfl⟩
  | cons hxy _ ih =>
    cases i with
    | zero => exact .inr ⟨_, _, rfl, rfl, hxy⟩
    | succ i => exact ih i

/-- The number of the blocks of an input that `GetNextInputContent` can still return. -/
def InferRequestProvider.blocksLeft (provider : InferRequestProvider) (name : String) : Nat :=
  match provider.overrides.lookup name with
  | some _ => if name ∈ provider.overridesConsumed then 0 else 1
  | none =>
    match provider.data with
    | .null _ => 1
    | .inputBuffer buffers =>
      match buffers.lookup name with
      | none => 0
      | some (memory, idx) => memory.blocks.length - idx

/-- The loop over the blocks of an input, with at most `calls` calls of `GetNextInputContent`.
The blocks that are `copied` stand one behind the other, from the place of the payload on;
`check` is the error for a number of bytes. -/
def copyContent (inputName : String) (expected : Nat) (check : Nat → Option Status) :
    Nat → Payload → Bytes → Payload × Bytes
  | 0, payload, copied => (payload, copied)
  | calls + 1, payload, copied =>
    if payload.status.isOk then
      match payload.requestProvider.getNextInputContent inputName
          (uint64 ((expected : Int) - copied.length)) false with
      | (.error status, provider) =>
        ({ payload with status := status, requestProvider := provider }, copied)
      | (.ok none, provider) =>
        ({ payload with status := .ok, requestProvider := provider }, copied)
      | (.ok (some content), provider) =>
        match check (copied.length + content.length) with
        | some status =>
          ({ payload with status := status, requestProvider := provider }, copied)
        | none =>
          copyContent inputName expected check calls
            { payload with status := .ok, requestProvider := provider } (copied ++ content)
    else (payload, copied)

/-- What a payload copies for an input, with the check behind the loop. -/
def copyInput (inputName : String) (expected : Nat) (check : Nat → Option Status)
    (payload : Payload) : Payload × Bytes :=
  let (payload, copied) := copyContent inputName expected check
    (payload.requestProvider.blocksLeft inputName + 2) payload []
  if payload.status.isOk ∧ copied.length ≠ expected then
    ({ payload with
      status :=
        { code := .internal,
          message := "expected " ++ toString expected ++ " bytes of data for inference input '" ++
            inputName ++ "', got " ++ toString copied.length } }, copied)
  else (payload, copied)

section
variable {inputName : String} {expected : Nat} {check : Nat → Option Status} {payload : Payload}

/-! ## The end of the loop -/

/-- A provider that shows as many bytes as it is asked for, when it has no data. -/
def InferRequestProvider.Lawful (provider : InferRequestProvider) : Prop :=
  ∀ buf, provider.data = .null buf → ∀ size, (buf size).length = size

/-- The provider counts the blocks of the input that it has returned. -/
def InferRequestProvider.Counts (provider : InferRequestProvider) (name : String) : Prop :=
  (∃ content, provider.overrides.lookup name = some content) ∨
    ∃ buffers, provider.data = .inputBuffer buffers

/-- A block that is returned is not left any more. -/
theorem blocksLeft_getNextInputContent {provider provider' : InferRequestProvider}
    {size : Nat} {content : Bytes} (hcounts : provider.Counts inputName)
    (h : provider.getNextInputContent inputName size false = (.ok (some content), provider')) :
    provider'.blocksLeft inputName + 1 = provider.blocksLeft inputName ∧
      provider'.Counts inputName := by
  unfold InferRequestProvider.getNextInputContent at h
  unfold InferRequestProvider.blocksLeft
  split at h
  · cases h
  · split at h
    · next override hoverride =>
      split at h
      · cases h
      · next hconsumed =>
        cases h
        simp only [hoverride, if_neg hconsumed, List.mem_cons, true_or, if_true]
        exact ⟨trivial, .inl ⟨_, hoverride⟩⟩
    · next hoverride =>
      obtain ⟨content, hcontent⟩ | ⟨buffers, hdata⟩ := hcounts
      · cases hoverride.symm.trans hcontent
      rw [hdata] at h
      simp only at h
      split at h
      · cases h
      · next memory idx hlookup =>
        rw [if_pos (.inl rfl)] at h
        have hblock := congrArg Prod.fst h
        obtain rfl := congrArg Prod.snd h
        simp only [Except.ok.injEq] at hblock
        have hidx : idx < memory.blocks.length := (List.getElem?_eq_some_iff.mp hblock).1
        simp only [hoverride, hdata, hlookup, AList.lookup_insert]
        refine ⟨?_, .inr ⟨_, rfl⟩⟩
        omega

theorem copyContent_of_counts {calls calls' : Nat} {copied : Bytes}
    (hcounts : payload.requestProvider.Counts inputName)
    (h : payload.requestProvider.blocksLeft inputName < calls)
    (h' : payload.requestProvider.blocksLeft inputName < calls') :
    copyContent inputName expected check calls payload copied =
      copyContent inputName expected check calls' payload copied := by
  induction calls generalizing calls' payload copied with
  | zero => cases h
  | succ calls ih =>
    obtain ⟨calls', rfl⟩ : ∃ n, calls' = n + 1 := Nat.exists_eq_succ_of_ne_zero (by omega)
    rw [copyContent, copyContent]
    split
    · split
      · rfl
      · rfl
      · next content provider hnext =>
        obtain ⟨hleft, hcounts'⟩ := blocksLeft_getNextInputContent hcounts hnext
        split
        · rfl
        · exact ih hcounts' (by show provider.blocksLeft _ < _; omega)
            (by show provider.blocksLeft _ < _; omega)
    · rfl

/-- Without data, the bytes that are asked for come in one block. -/
theorem getNextInputContent_null {provider : InferRequestProvider} {buf : Nat → Bytes}
    (hoverride : provider.overrides.lookup inputName = none) (hdata : provider.data = .null buf)
    (size : Nat) : provider.getNextInputContent inputName size false =
      (.ok (if size = 0 then none else some (buf size)), provider) := by
  unfold InferRequestProvider.getNextInputContent
  rw [hoverride, hdata]
  split
  · rfl
  · rfl

/-- The loop ends by itself: more calls change nothing. -/
theorem copyContent_calls {calls : Nat} (hlawful : payload.requestProvider.Lawful)
    (h : payload.requestProvider.blocksLeft inputName + 2 ≤ calls) :
    copyContent inputName expected check calls payload [] =
      copyContent inputName expected check
        (payload.requestProvider.blocksLeft inputName + 2) payload [] := by
  by_cases hcounts : payload.requestProvider.Counts inputName
  · exact copyContent_of_counts hcounts (by omega) (by omega)
  · unfold InferRequestProvider.Counts at hcounts
    rw [not_or, not_exists, not_exists] at hcounts
    have hoverride := Option.eq_none_iff_forall_ne_some.mpr hcounts.1
    obtain ⟨buf, hdata⟩ : ∃ buf, payload.requestProvider.data = .null buf := by
      cases hdata : payload.requestProvider.data with
      | null buf => exact ⟨buf, rfl⟩
      | inputBuffer buffers => exact absurd hdata (hcounts.2 buffers)
    obtain ⟨calls, rfl⟩ : ∃ n, calls = n + 2 := ⟨calls - 2, by omega⟩
    have hlength := hlawful buf hdata
    -- all bytes come with the first call, and the second one asks for none
    have hnone : uint64 ((expected : Int) -
        (([] ++ buf (uint64 ((expected : Int) - ([] : Bytes).length))).length : Nat)) = 0 := by
      rw [List.nil_append, hlength]
      unfold uint64
      simp only [List.length_nil]
      omega
    rw [copyContent, copyContent]
    simp only [getNextInputContent_null hoverride hdata]
    split
    · split
      · rfl
      · rfl
      · next content provider heq =>
        split at heq
        · cases heq
        · cases heq
          split
          · rfl
          · rw [copyContent, copyContent]
            simp only [getNextInputContent_null hoverride hdata, hnone]
            rfl
    · rfl

/-! ## What is copied -/

/-- A payload that has failed copies nothing and stays as it is. -/
theorem copyInput_of_failed (hfailed : ¬ payload.status.isOk) :
    copyInput inputName expected check payload = (payload, []) := by
  unfold copyInput
  rw [copyContent, if_neg hfailed]
  exact if_neg fun h => hfailed h.1

/-! ## The blocks of an input -/

/-- The blocks that `GetNextInputContent` can still return, when `size` bytes are asked for. -/
def InferRequestProvider.blocks (provider : InferRequestProvider) (name : String) (size : Nat) :
    List Bytes :=
  match provider.overrides.lookup name with
  | some content => if name ∈ provider.overridesConsumed then [] else [content]
  | none =>
    match provider.data with
    | .null buf => [buf size]
    | .inputBuffer buffers =>
      match buffers.lookup name with
      | none => []
      | some (memory, idx) => memory.blocks.drop idx

/-- All bytes that the provider still has for an input, when `size` bytes are asked for. -/
def Payload.delivered (payload : Payload) (inputName : String) (size : Nat) : Bytes :=
  (payload.requestProvider.blocks inputName size).flatten

/-- The content that is delivered with a request. -/
theorem delivered_of_delivers {content : Bytes} (hdelivers : payload.Delivers inputName content)
    (size : Nat) : payload.delivered inputName size = content := by
  obtain ⟨hoverride, buffers, memory, hdata, hlookup, rfl⟩ := hdelivers
  unfold Payload.delivered InferRequestProvider.blocks
  rw [hoverride, hdata]
  simp only [hlookup]
  rw [List.drop_zero, SystemMemory.bytes_eq]

/-- The bytes of the first blocks, up to the first one that does not fit in. -/
def fitting : Nat → List Bytes → Bytes
  | _, [] => []
  | limit, block :: blocks =>
    if block.length ≤ limit then block ++ fitting (limit - block.length) blocks else []

/-- The bytes that a payload copies for an input. -/
def Payload.content (payload : Payload) (inputName : String) (expected : Nat) : Bytes :=
  if payload.status.isOk then
    fitting expected (payload.requestProvider.blocks inputName expected)
  else []

theorem length_fitting_le (limit : Nat) (blocks : List Bytes) :
    (fitting limit blocks).length ≤ limit := by
  fun_induction fitting limit blocks with
  | case1 => exact Nat.zero_le _
  | case2 limit block blocks hle ih =>
    rw [List.length_append]
    omega
  | case3 => exact Nat.zero_le _

/-- The bytes that fit in are the first ones. -/
theorem fitting_isPrefix (limit : Nat) (blocks : List Bytes) :
    fitting limit blocks <+: blocks.flatten := by
  fun_induction fitting limit blocks with
  | case1 => exact List.prefix_rfl
  | case2 limit block blocks hle ih =>
    rw [List.flatten_cons]
    exact (List.prefix_append_right_inj block).mpr ih
  | case3 => exact List.nil_prefix

theorem fitting_zero (blocks : List Bytes) : fitting 0 blocks = [] :=
  List.eq_nil_of_length_eq_zero (Nat.le_zero.mp (length_fitting_le 0 blocks))

/-- Without a block that is left, nothing more is returned. -/
theorem getNextInputContent_blocks {provider provider' : InferRequestProvider} {size : Nat}
    (size' : Nat) {result : Except Status (Option Bytes)} (hcounts : provider.Counts inputName)
    (hsize : size ≠ 0)
    (h : provider.getNextInputContent inputName size false = (result, provider')) :
    match (provider.blocks inputName size') with
    | [] => ∀ content, result ≠ .ok (some content)
    | block :: blocks => result = .ok (some block) ∧ provider'.blocks inputName size' = blocks := by
  unfold InferRequestProvider.getNextInputContent at h
  unfold InferRequestProvider.blocks
  rw [if_neg hsize] at h
  cases hoverride : provider.overrides.lookup inputName with
  | some override =>
    simp only [hoverride] at h ⊢
    split at h
    · next hconsumed =>
      cases h
      rw [if_pos hconsumed]
      rintro _ ⟨⟩
    · next hconsumed =>
      cases h
      rw [if_neg hconsumed]
      simp only [hoverride, List.mem_cons, true_or, if_true, and_self]
  | none =>
    obtain ⟨content, hcontent⟩ | ⟨buffers, hdata⟩ := hcounts
    · cases hoverride.symm.trans hcontent
    simp only [hoverride, hdata] at h ⊢
    cases hlookup : buffers.lookup inputName with
    | none =>
      simp only [hlookup] at h ⊢
      cases h
      rintro _ ⟨⟩
    | some entry =>
      obtain ⟨memory, idx⟩ := entry
      simp only [hlookup] at h ⊢
      rw [if_pos (.inl rfl)] at h
      cases h
      simp only [hoverride, AList.lookup_insert, SystemMemory.bufferAt]
      rcases Nat.lt_or_ge idx memory.blocks.length with hidx | hidx
      · rw [List.drop_eq_getElem_cons hidx, List.getElem?_eq_getElem hidx]
        exact ⟨rfl, rfl⟩
      · rw [List.drop_eq_nil_of_le hidx, List.getElem?_eq_none hidx]
        rintro _ ⟨⟩

/-- With `force_contiguous`, all blocks that are left come in one piece. -/
theorem getNextInputContent_forced {provider provider' : InferRequestProvider} {size : Nat}
    {result : Except Status (Option Bytes)} (hsize : size ≠ 0)
    (h : provider.getNextInputContent inputName size true = (result, provider')) :
    (∀ status, result = .error status → provider.blocks inputName size = []) ∧
      ∀ content, result = .ok content →
        content.getD [] = (provider.blocks inputName size).flatten := by
  unfold InferRequestProvider.getNextInputContent at h
  unfold InferRequestProvider.blocks
  rw [if_neg hsize] at h
  cases hoverride : provider.overrides.lookup inputName with
  | some override =>
    simp only [hoverride] at h ⊢
    split at h
    · next hconsumed =>
      cases h
      rw [if_pos hconsumed]
      exact ⟨by rintro _ ⟨⟩, by rintro _ ⟨⟩; rfl⟩
    · next hconsumed =>
      cases h
      rw [if_neg hconsumed]
      exact ⟨by rintro _ ⟨⟩, by rintro _ ⟨⟩; exact List.flatten_singleton.symm⟩
  | none =>
    cases hdata : provider.data with
    | null buf =>
      simp only [hoverride, hdata] at h ⊢
      cases h
      exact ⟨by rintro _ ⟨⟩, by rintro _ ⟨⟩; exact List.flatten_singleton.symm⟩
    | inputBuffer buffers =>
      simp only [hoverride, hdata] at h ⊢
      cases hlookup : buffers.lookup inputName with
      | none =>
        simp only [hlookup] at h ⊢
        cases h
        exact ⟨fun _ _ => trivial, by rintro _ ⟨⟩⟩
      | some entry =>
        obtain ⟨memory, idx⟩ := entry
        simp only [hlookup] at h ⊢
        split at h
        · next hlast =>
          cases h
          refine ⟨by rintro _ ⟨⟩, ?_⟩
          rintro _ ⟨⟩
          simp only [SystemMemory.bufferAt] at hlast ⊢
          -- the block at `idx` is the last one, or there is none
          have hle : memory.blocks.length ≤ idx + 1 :=
            List.getElem?_eq_none_iff.mp (hlast.resolve_left (by decide))
          rcases Nat.lt_or_ge idx memory.blocks.length with hidx | hidx
          · rw [List.drop_eq_getElem_cons hidx, List.drop_eq_nil_of_le hle,
              List.flatten_singleton, List.getElem?_eq_getElem hidx]
            rfl
          · rw [List.drop_eq_nil_of_le hidx, List.getElem?_eq_none hidx]
            rfl
        · cases h
          exact ⟨by rintro _ ⟨⟩, by rintro _ ⟨⟩; rfl⟩

/-- The loop copies the blocks that fit in, and it has failed if they are too few. -/
theorem copyContent_spec {calls size : Nat} {copied : Bytes}
    (hcheck : ∀ size, check size = none ↔ size ≤ expected)
    (hexpected : expected < 18446744073709551616)
    (hcounts : payload.requestProvider.Counts inputName)
    (hcalls : payload.requestProvider.blocksLeft inputName < calls)
    (hok : payload.status.isOk) (hcopied : copied.length ≤ expected) :
    let result := copyContent inputName expected check calls payload copied
    result.2 = copied ++ fitting (expected - copied.length)
        (payload.requestProvider.blocks inputName size) ∧
      (result.2.length = expected → result.1.status.isOk) := by
  induction calls generalizing payload copied with
  | zero => cases hcalls
  | succ calls ih =>
    have hasked : uint64 ((expected : Int) - copied.length) = expected - copied.length := by
      unfold uint64
      omega
    rw [copyContent, if_pos hok, hasked]
    rcases Nat.eq_zero_or_pos (expected - copied.length) with hall | hmore
    · rw [hall, InferRequestProvider.getNextInputContent, if_pos rfl, fitting_zero,
        List.append_nil]
      exact ⟨rfl, fun _ => rfl⟩
    generalize hnext : payload.requestProvider.getNextInputContent inputName
      (expected - copied.length) false = next
    obtain ⟨result, provider⟩ := next
    have hblocks := getNextInputContent_blocks size hcounts (by omega) hnext
    match result with
    | .error status =>
      split at hblocks
      · next hnone =>
        rw [hnone, fitting, List.append_nil]
        exact ⟨rfl, fun hlength => absurd hlength (by show copied.length ≠ _; omega)⟩
      · cases hblocks.1
    | .ok none =>
      split at hblocks
      · next hnone =>
        rw [hnone, fitting, List.append_nil]
        exact ⟨rfl, fun _ => rfl⟩
      · cases hblocks.1
    | .ok (some content) =>
      obtain ⟨hleft, hcounts'⟩ := blocksLeft_getNextInputContent hcounts hnext
      split at hblocks
      · exact absurd rfl (hblocks content)
      · next block blocks hsome =>
        cases hblocks.1
        rw [hsome, fitting]
        simp only
        split
        · next status hstatus =>
          have hbig : ¬ copied.length + content.length ≤ expected := fun hle =>
            Option.some_ne_none _ (hstatus.symm.trans ((hcheck _).mpr hle))
          rw [if_neg (by omega), List.append_nil]
          exact ⟨rfl, fun hlength => absurd hlength (by show copied.length ≠ _; omega)⟩
        · next hnone =>
          have hle := (hcheck _).mp hnone
          have hrest := @ih { payload with status := .ok, requestProvider := provider } _ hcounts'
            (by show provider.blocksLeft _ < _; omega) rfl (by rw [List.length_append]; exact hle)
          rw [if_pos (by omega)]
          simp only [hblocks.2, List.length_append, List.append_assoc, Nat.sub_add_eq] at hrest
          exact hrest

/-- Without data, all the bytes that are asked for come in the first block. -/
theorem copyContent_null {buf : Nat → Bytes} {calls : Nat} (hcheck : check expected = none)
    (hexpected : expected < 18446744073709551616)
    (hoverride : payload.requestProvider.overrides.lookup inputName = none)
    (hdata : payload.requestProvider.data = .null buf)
    (hlength : ∀ size, (buf size).length = size) (hok : payload.status.isOk) :
    let result := copyContent inputName expected check (calls + 2) payload []
    result.2 = buf expected ∧ result.1.status.isOk ∧
      result.1.requestProvider = payload.requestProvider := by
  have hfirst : uint64 ((expected : Int) - ([] : Bytes).length) = expected := by
    unfold uint64
    simp only [List.length_nil]
    omega
  have hsecond : uint64 ((expected : Int) - ([] ++ buf expected : Bytes).length) = 0 := by
    unfold uint64
    rw [List.nil_append, hlength]
    omega
  rw [copyContent, if_pos hok]
  simp only [getNextInputContent_null hoverride hdata, hfirst]
  rcases eq_or_ne expected 0 with rfl | hsize
  · exact ⟨(List.eq_nil_of_length_eq_zero (hlength 0)).symm, rfl, rfl⟩
  · have hnone : check (([] : Bytes).length + (buf expected).length) = none := by
      rw [hlength, List.length_nil, Nat.zero_add, hcheck]
    rw [if_neg hsize]
    simp only [hnone]
    rw [copyContent, if_pos (show ({ payload with status := .ok } : Payload).status.isOk from rfl)]
    simp only [getNextInputContent_null hoverride hdata, hsecond]
    exact ⟨rfl, rfl, rfl⟩

/-- What the loop copies for a payload that has not failed. -/
theorem copyContent_content (inputName : String)
    (hcheck : ∀ size, check size = none ↔ size ≤ expected)
    (hexpected : expected < 18446744073709551616) (hlawful : payload.requestProvider.Lawful)
    (hok : payload.status.isOk) :
    let result := copyContent inputName expected check
      (payload.requestProvider.blocksLeft inputName + 2) payload []
    result.2 = payload.content inputName expected ∧
      (result.2.length = expected → result.1.status.isOk) := by
  unfold Payload.content
  rw [if_pos hok]
  by_cases hcounts : payload.requestProvider.Counts inputName
  · exact copyContent_spec hcheck hexpected hcounts (by omega) hok (Nat.zero_le _)
  · unfold InferRequestProvider.Counts at hcounts
    rw [not_or, not_exists, not_exists] at hcounts
    have hoverride := Option.eq_none_iff_forall_ne_some.mpr hcounts.1
    cases hdata : payload.requestProvider.data with
    | inputBuffer buffers => exact absurd hdata (hcounts.2 buffers)
    | null buf =>
      have hlength := hlawful buf hdata
      obtain ⟨hbytes, hstatus, -⟩ := copyContent_null ((hcheck expected).mpr le_rfl) hexpected
        hoverride hdata hlength hok
      refine ⟨hbytes.trans ?_, fun _ => hstatus⟩
      unfold InferRequestProvider.blocks
      rw [hoverride, hdata]
      simp only [fitting, if_pos (hlength expected).le, List.append_nil]

/-- What a payload copies, and when its status is OK. -/
theorem copyInput_spec (hcheck : ∀ size, check size = none ↔ size ≤ expected)
    (hexpected : expected < 18446744073709551616) (hlawful : payload.requestProvider.Lawful) :
    let result := copyInput inputName expected check payload
    result.2 = payload.content inputName expected ∧
      (result.1.status.isOk ↔
        payload.status.isOk ∧ (payload.content inputName expected).length = expected) := by
  by_cases hok : payload.status.isOk
  · have hcopy := copyContent_content inputName hcheck hexpected hlawful hok
    unfold copyInput
    generalize copyContent inputName expected check
      (payload.requestProvider.blocksLeft inputName + 2) payload [] = result at hcopy
    obtain ⟨payload', copied⟩ := result
    obtain ⟨rfl, hstatus⟩ := hcopy
    simp only
    split
    · next hshort => exact ⟨rfl, iff_of_false Bool.false_ne_true fun h => hshort.2 h.2⟩
    · next hshort =>
      exact ⟨rfl, fun h => ⟨hok, by_contra fun hne => hshort ⟨h, hne⟩⟩, fun h => hstatus h.2⟩
  · rw [copyInput_of_failed hok]
    unfold Payload.content
    rw [if_neg hok]
    exact ⟨rfl, iff_of_false hok fun h => hok h.1⟩

end

end FinBert.Serving
