import FinBert.Serving.StringTensor

/-!
# The shared zero buffer

All instances of `NULLInferRequestProvider` show the same static buffer of zeros (`provider.cc`).
`GetNextInputContent` lets it grow to the size that a caller asks for, up to a limit, and leaves
that size to the caller as the size of the content.

Results:
1. `showsZeros_iff`: every content lies inside the buffer exactly when no call asks for more
   than the limit.
2. `getNextInputContent_eq_null`: up to the limit, a null provider shows as many zeros as it is
   asked for.
-/

namespace FinBert.Serving

/-! ## `NULLInferRequestProvider` -/

/-- `max_size`. -/
def maxSize : Nat := 16 * 1024 * 1024

/-- `std::vector::resize` with zeros for the new elements. -/
def resize (buf : Bytes) (n : Nat) : Bytes := buf.take n ++ List.replicate (n - buf.length) 0

/-- The buffer grows to the size, up to the limit. -/
def growTo (buf : Bytes) (contentByteSize : Nat) : Bytes :=
  if buf.length < contentByteSize then resize buf (min maxSize contentByteSize) else buf

/-- The content that a call returns: a null pointer, the content of an override, or a pointer to
the first byte of the shared buffer, with the size of the content. -/
inductive NullContent
  | null
  | override (content : Bytes)
  | buffer (contentByteSize : Nat)
deriving DecidableEq

/-- `GetInputOverrideContent`: nothing where the input has no override. -/
def getInputOverrideContent (provider : InferRequestProvider) (name : String) :
    Option (NullContent × InferRequestProvider) :=
  match provider.overrides.lookup name with
  | none => none
  | some content =>
    if name ∈ provider.overridesConsumed then some (.null, provider)
    else
      some (.override content,
        { provider with overridesConsumed := name :: provider.overridesConsumed })

/-- `NULLInferRequestProvider::GetNextInputContent`, with the shared buffer behind the call. -/
def nullNextInputContent (buf : Bytes) (provider : InferRequestProvider) (name : String)
    (contentByteSize : Nat) : NullContent × InferRequestProvider × Bytes :=
  if contentByteSize = 0 then (.null, provider, buf)
  else
    match getInputOverrideContent provider name with
    | some (content, provider) => (content, provider, buf)
    | none => (.buffer contentByteSize, provider, growTo buf contentByteSize)

/-- A call on one of the null providers. -/
structure NullCall where
  provider : Nat
  name : String
  contentByteSize : Nat

/-- Calls one after another, each with its content and the shared buffer behind it. -/
def nullReplies :
    List NullCall → Bytes → (Nat → InferRequestProvider) → List (NullContent × Bytes)
  | [], _, _ => []
  | call :: calls, buf, providers =>
    let (content, provider, buf) :=
      nullNextInputContent buf (providers call.provider) call.name call.contentByteSize
    (content, buf) :: nullReplies calls buf (Function.update providers call.provider provider)

/-! ## What the buffer holds -/

/-- The bytes of a content that points to the buffer are there, and zero. -/
def ShowsZeros (reply : NullContent × Bytes) : Prop :=
  ∀ contentByteSize, reply.1 = .buffer contentByteSize →
    contentByteSize ≤ reply.2.length ∧
      reply.2.take contentByteSize = List.replicate contentByteSize 0

/-- The shared buffer: zeros, and not more than the limit. -/
structure ZeroBuffer (buf : Bytes) : Prop where
  zeros : buf = List.replicate buf.length 0
  length_le : buf.length ≤ maxSize

section
variable {buf : Bytes} {provider : InferRequestProvider} {name : String} {contentByteSize : Nat}

theorem resize_zeros (h : buf = List.replicate buf.length 0) {n : Nat} (hn : buf.length ≤ n) :
    resize buf n = List.replicate n 0 := by
  rw [resize, List.take_of_length_le hn, h, List.length_replicate, List.replicate_append_replicate,
    Nat.add_sub_cancel' hn]

theorem getInputOverrideContent_of_mem (h : name ∈ provider.overrides) :
    ∃ content provider', getInputOverrideContent provider name = some (content, provider') ∧
      (∀ size, content ≠ .buffer size) ∧ provider'.overrides = provider.overrides := by
  obtain ⟨content, hcontent⟩ := Option.isSome_iff_exists.mp (AList.lookup_isSome.mpr h)
  unfold getInputOverrideContent
  rw [hcontent]
  dsimp only
  split
  · exact ⟨.null, provider, rfl, fun _ => NullContent.noConfusion, rfl⟩
  · exact ⟨.override content, _, rfl, fun _ => NullContent.noConfusion, rfl⟩

theorem ZeroBuffer.growTo (h : ZeroBuffer buf) (contentByteSize : Nat) :
    ZeroBuffer (growTo buf contentByteSize) ∧
      (contentByteSize ≤ (Serving.growTo buf contentByteSize).length ↔
        contentByteSize ≤ maxSize) := by
  unfold Serving.growTo
  split
  · next hlt =>
    rw [resize_zeros h.zeros (Nat.le_min.mpr ⟨h.length_le, Nat.le_of_lt hlt⟩)]
    refine ⟨⟨by rw [List.length_replicate], ?_⟩, ?_⟩
    · exact List.length_replicate.trans_le (Nat.min_le_left _ _)
    · rw [List.length_replicate, Nat.le_min, and_iff_left (Nat.le_refl _)]
  · next hge =>
    have hle := Nat.le_of_not_lt hge
    exact ⟨h, iff_of_true hle (hle.trans h.length_le)⟩

theorem nullNextInputContent_of_override (buf : Bytes)
    (h : contentByteSize = 0 ∨ name ∈ provider.overrides) :
    ∃ content provider', nullNextInputContent buf provider name contentByteSize =
        (content, provider', buf) ∧
      (∀ size, content ≠ .buffer size) ∧ provider'.overrides = provider.overrides := by
  unfold nullNextInputContent
  split
  · exact ⟨.null, provider, rfl, fun _ => NullContent.noConfusion, rfl⟩
  · next hsize =>
    obtain ⟨content, provider', hcontent, hrest⟩ :=
      getInputOverrideContent_of_mem (h.resolve_left hsize)
    rw [hcontent]
    exact ⟨content, provider', rfl, hrest⟩

theorem nullNextInputContent_of_not_override (buf : Bytes) (hsize : contentByteSize ≠ 0)
    (hname : name ∉ provider.overrides) :
    nullNextInputContent buf provider name contentByteSize =
      (.buffer contentByteSize, provider, growTo buf contentByteSize) := by
  unfold nullNextInputContent getInputOverrideContent
  rw [if_neg hsize, AList.lookup_eq_none.mpr hname]

theorem showsZeros_iff_of_zeroBuffer (h : ZeroBuffer buf) :
    ShowsZeros (.buffer contentByteSize, buf) ↔ contentByteSize ≤ buf.length := by
  constructor
  · exact fun hshows => (hshows _ rfl).1
  · rintro hle size ⟨⟩
    refine ⟨hle, ?_⟩
    rw [h.zeros, List.take_replicate, Nat.min_eq_left hle]

/-- One call: the buffer holds zeros, and the content lies inside it unless too much of it is
asked for. The overrides of the provider stay the same. -/
theorem nullNextInputContent_spec (h : ZeroBuffer buf) (provider : InferRequestProvider)
    (name : String) (contentByteSize : Nat) :
    ∃ content provider' buf', nullNextInputContent buf provider name contentByteSize =
        (content, provider', buf') ∧
      ZeroBuffer buf' ∧ provider'.overrides = provider.overrides ∧
      (ShowsZeros (content, buf') ↔ name ∈ provider.overrides ∨ contentByteSize ≤ maxSize) := by
  by_cases hnone : contentByteSize = 0 ∨ name ∈ provider.overrides
  · obtain ⟨content, provider', heq, hcontent, hsame⟩ := nullNextInputContent_of_override buf hnone
    refine ⟨content, provider', buf, heq, h, hsame, iff_of_true ?_ (hnone.symm.imp_right ?_)⟩
    · exact fun size hsize => absurd hsize (hcontent size)
    · exact fun hzero => hzero.trans_le (Nat.zero_le maxSize)
  · rw [not_or] at hnone
    obtain ⟨hgrown, hle⟩ := h.growTo contentByteSize
    refine ⟨_, _, _, nullNextInputContent_of_not_override buf hnone.1 hnone.2, hgrown, rfl, ?_⟩
    rw [showsZeros_iff_of_zeroBuffer hgrown, hle, or_iff_right hnone.2]

/-- The bytes that a content shows. -/
def NullContent.shown (buf : Bytes) : NullContent → Option Bytes
  | .null => none
  | .override content => some content
  | .buffer contentByteSize => some (buf.take contentByteSize)

/-- Up to the limit, a null provider shows as many zeros as it is asked for. -/
theorem getNextInputContent_eq_null (h : ZeroBuffer buf)
    (hdata : provider.data = .null fun size => List.replicate size 0)
    (hsize : contentByteSize ≤ maxSize) (forceContiguous : Bool) :
    provider.getNextInputContent name contentByteSize forceContiguous =
      (.ok ((nullNextInputContent buf provider name contentByteSize).1.shown
          (nullNextInputContent buf provider name contentByteSize).2.2),
        (nullNextInputContent buf provider name contentByteSize).2.1) := by
  unfold InferRequestProvider.getNextInputContent nullNextInputContent getInputOverrideContent
  split
  · rfl
  · cases provider.overrides.lookup name with
    | some content =>
      dsimp only
      split <;> rfl
    | none =>
      rw [hdata]
      obtain ⟨hgrown, hle⟩ := h.growTo contentByteSize
      have hshows := (showsZeros_iff_of_zeroBuffer hgrown).mpr (hle.mpr hsize) _ rfl
      exact congrArg (fun bytes => (Except.ok (some bytes), provider)) hshows.2.symm

/-! ## All calls -/

/-- Each content lies inside the buffer exactly when no call for an input without an override
asks for more than the limit. -/
theorem showsZeros_iff_of_calls (calls : List NullCall) (providers : Nat → InferRequestProvider)
    (h : ZeroBuffer buf) :
    (∀ reply ∈ nullReplies calls buf providers, ShowsZeros reply) ↔
      ∀ call ∈ calls,
        call.name ∈ (providers call.provider).overrides ∨ call.contentByteSize ≤ maxSize := by
  induction calls generalizing buf providers with
  | nil => exact iff_of_true (List.forall_mem_nil _) (List.forall_mem_nil _)
  | cons call calls ih =>
    obtain ⟨content, provider', buf', heq, hbuf, hsame, hshows⟩ :=
      nullNextInputContent_spec h (providers call.provider) call.name call.contentByteSize
    have hoverrides : ∀ i, (Function.update providers call.provider provider' i).overrides =
        (providers i).overrides := by
      intro i
      rw [Function.update_apply]
      split
      · next hi => rw [hsame, hi]
      · rfl
    rw [nullReplies, heq, List.forall_mem_cons, List.forall_mem_cons, ih _ hbuf, hshows]
    simp only [hoverrides]

theorem zeroBuffer_nil : ZeroBuffer [] := ⟨rfl, Nat.zero_le maxSize⟩

end

/-- For every list of calls on any null providers: each content that points to the shared buffer,
which is empty at first, lies inside it and shows zeros exactly when every call for an input
without an override asks for no more than the limit. -/
theorem showsZeros_iff (calls : List NullCall) (providers : Nat → InferRequestProvider) :
    (∀ reply ∈ nullReplies calls [] providers, ShowsZeros reply) ↔
      ∀ call ∈ calls,
        call.name ∈ (providers call.provider).overrides ∨ call.contentByteSize ≤ maxSize :=
  showsZeros_iff_of_calls calls providers zeroBuffer_nil

/-- One `TYPE_FP32` tensor of 4194305 elements. -/
theorem not_showsZeros_large :
    ¬ ∀ (calls : List NullCall) (providers : Nat → InferRequestProvider),
      ∀ reply ∈ nullReplies calls [] providers, ShowsZeros reply := by
  intro h
  have hlarge := (showsZeros_iff_of_calls [⟨0, "INPUT", 4 * 4194305⟩]
    (fun _ => { requestHeader := {}, data := .null fun _ => [] }) zeroBuffer_nil).mp (h _ _)
  rcases hlarge _ (List.mem_singleton_self _) with hoverride | hle
  · exact AList.notMem_empty _ hoverride
  · exact absurd hle (by decide)

end FinBert.Serving
