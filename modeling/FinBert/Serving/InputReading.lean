import FinBert.Serving.StringTensor

/-!
# Reading the data of an input

A backend calls `GetNextInputContent` until it has what it wants: the calls that ask for the next
block and those that force the rest into one piece can come in any order, and calls for the other
inputs may stand between them.

Results:
1. `readsFrom_replies`: each call for an input returns what comes next in its bytes.
2. `replies_readInput`: the same in terms of all that was returned before.
-/

namespace FinBert.Serving

/-- The arguments of a call of `GetNextInputContent`. -/
structure ContentCall where
  name : String
  contentByteSize : Nat
  forceContiguous : Bool

/-- What a call returns: its status, and the content, which may be a null pointer. -/
abbrev ContentReply := Except Status (Option Bytes)

/-- The calls one after another, each with its reply. -/
def replies : List ContentCall → InferRequestProvider → List (ContentCall × ContentReply)
  | [], _ => []
  | call :: calls, provider =>
    let (reply, provider) :=
      provider.getNextInputContent call.name call.contentByteSize call.forceContiguous
    (call, reply) :: replies calls provider

/-- The calls for one input. -/
def repliesFor (name : String) (calls : List ContentCall) (provider : InferRequestProvider) :
    List (ContentCall × ContentReply) :=
  (replies calls provider).filter fun e => e.1.name = name

/-- The bytes that a call returns. -/
def ContentReply.bytes : ContentReply → Bytes
  | .ok (some content) => content
  | _ => []

/-- The bytes that some calls return, one behind the other. -/
def returned (replies : List (ContentCall × ContentReply)) : Bytes :=
  (replies.map fun e => ContentReply.bytes e.2).flatten

/-- The calls return the bytes one after another: everything that is left when this is forced,
and a null pointer when nothing is left. -/
inductive ReadsFrom : Bytes → List (ContentCall × ContentReply) → Prop
  | nil (rest : Bytes) : ReadsFrom rest []
  | content {call : ContentCall} {content rest : Bytes}
      {replies : List (ContentCall × ContentReply)} (ne : content ≠ [])
      (all : call.forceContiguous = true → rest = []) (next : ReadsFrom rest replies) :
      ReadsFrom (content ++ rest) ((call, .ok (some content)) :: replies)
  | null {call : ContentCall} {replies : List (ContentCall × ContentReply)}
      (next : ReadsFrom [] replies) : ReadsFrom [] ((call, .ok none) :: replies)

/-- What all calls for an input with these bytes return. -/
structure ReadsInput (bytes : Bytes) (replies : List (ContentCall × ContentReply)) : Prop where
  ok : ∀ e ∈ replies, ∃ content, e.2 = .ok content
  isPrefix : returned replies <+: bytes
  contiguous : ∀ before e after, replies = before ++ e :: after → e.1.forceContiguous = true →
    returned (before ++ [e]) = bytes
  null_iff : ∀ before e after, replies = before ++ e :: after →
    (e.2 = .ok none ↔ returned before = bytes)

theorem returned_cons (e : ContentCall × ContentReply)
    (replies : List (ContentCall × ContentReply)) :
    returned (e :: replies) = ContentReply.bytes e.2 ++ returned replies := rfl

/-- Each call against everything that was returned before it. -/
theorem ReadsFrom.readsInput {bytes : Bytes} {replies : List (ContentCall × ContentReply)}
    (h : ReadsFrom bytes replies) : ReadsInput bytes replies := by
  induction h with
  | nil rest =>
    refine ⟨fun e he => absurd he List.not_mem_nil, List.nil_prefix, ?_, ?_⟩
    · intro before e after heq
      cases before <;> cases heq
    · intro before e after heq
      cases before <;> cases heq
  | @content call content rest replies hne hall hnext ih =>
    refine ⟨List.forall_mem_cons.mpr ⟨⟨_, rfl⟩, ih.ok⟩, ?_, ?_, ?_⟩
    · exact (List.prefix_append_right_inj content).mpr ih.isPrefix
    · rintro (_ | ⟨e', before⟩) e after heq hforce
      · cases heq
        rw [hall hforce]
        rfl
      · obtain ⟨rfl, rfl⟩ := List.cons.inj heq
        rw [List.cons_append, returned_cons, ih.contiguous before e after rfl hforce]
        rfl
    · rintro (_ | ⟨e', before⟩) e after heq
      · cases heq
        refine iff_of_false (fun h => ?_) fun h => ?_
        · cases h
        · exact hne (List.append_eq_nil_iff.mp h.symm).1
      · obtain ⟨rfl, rfl⟩ := List.cons.inj heq
        rw [ih.null_iff before e after rfl, returned_cons]
        exact (List.append_right_inj content).symm
  | @null call replies hnext ih =>
    refine ⟨List.forall_mem_cons.mpr ⟨⟨_, rfl⟩, ih.ok⟩, ih.isPrefix, ?_, ?_⟩
    · rintro (_ | ⟨e', before⟩) e after heq hforce
      · cases heq
        rfl
      · obtain ⟨rfl, rfl⟩ := List.cons.inj heq
        exact ih.contiguous before e after rfl hforce
    · rintro (_ | ⟨e', before⟩) e after heq
      · cases heq
        exact iff_of_true rfl rfl
      · obtain ⟨rfl, rfl⟩ := List.cons.inj heq
        exact ih.null_iff before e after rfl

/-! ## The cursor of an input -/

/-- The provider has the input in a memory, and the block at `idx` comes next. -/
structure InferRequestProvider.CursorAt (provider : InferRequestProvider) (name : String)
    (memory : SystemMemory) (idx : Nat) : Prop where
  noOverride : provider.overrides.lookup name = none
  cursor : ∃ buffers, provider.data = .inputBuffer buffers ∧
    buffers.lookup name = some (memory, idx)

section
variable {provider : InferRequestProvider} {name : String} {memory : SystemMemory} {idx : Nat}

/-- A call for another input leaves the cursor where it is. -/
theorem cursorAt_of_other (h : provider.CursorAt name memory idx) {name' : String}
    (hne : name' ≠ name) (size : Nat) (forceContiguous : Bool) :
    (provider.getNextInputContent name' size forceContiguous).2.CursorAt name memory idx := by
  obtain ⟨hoverride, buffers, hdata, hlookup⟩ := h
  unfold InferRequestProvider.getNextInputContent
  split
  · exact ⟨hoverride, buffers, hdata, hlookup⟩
  · split
    · split
      · exact ⟨hoverride, buffers, hdata, hlookup⟩
      · exact ⟨hoverride, buffers, hdata, hlookup⟩
    · rw [hdata]
      dsimp only
      split
      · exact ⟨hoverride, buffers, hdata, hlookup⟩
      · split <;>
        exact ⟨hoverride, _, rfl, (AList.lookup_insert_ne (Ne.symm hne)).trans hlookup⟩

/-- A call for the input takes the next block or, when this is forced, all blocks. -/
theorem getNextInputContent_of_cursorAt (h : provider.CursorAt name memory idx)
    (hblocks : ∀ block ∈ memory.blocks, block ≠ []) {size : Nat} (hsize : size ≠ 0)
    (forceContiguous : Bool) :
    ∃ content idx', (provider.getNextInputContent name size forceContiguous).1 = .ok content ∧
      (provider.getNextInputContent name size forceContiguous).2.CursorAt name memory idx' ∧
      ((content = none ∧ memory.blocks.drop idx = [] ∧ memory.blocks.drop idx' = []) ∨
        ∃ bytes, content = some bytes ∧ bytes ≠ [] ∧
          (forceContiguous = true → memory.blocks.drop idx' = []) ∧
          (memory.blocks.drop idx).flatten = bytes ++ (memory.blocks.drop idx').flatten) := by
  obtain ⟨hoverride, buffers, hdata, hlookup⟩ := h
  unfold InferRequestProvider.getNextInputContent
  rw [if_neg hsize, hoverride, hdata]
  dsimp only
  rw [hlookup]
  dsimp only
  have hcursor : ∀ idx', InferRequestProvider.CursorAt { provider with
      data := .inputBuffer (buffers.insert name (memory, idx')) } name memory idx' := fun idx' =>
    ⟨hoverride, _, rfl, AList.lookup_insert _⟩
  split
  · next hlast =>
    refine ⟨_, _, rfl, hcursor _, ?_⟩
    rcases Nat.lt_or_ge idx memory.blocks.length with hidx | hidx
    · rw [List.drop_eq_getElem_cons hidx, List.flatten_cons]
      refine .inr ⟨_, List.getElem?_eq_getElem hidx, hblocks _ (List.getElem_mem hidx), ?_, rfl⟩
      intro hforce
      refine List.drop_eq_nil_of_le (List.getElem?_eq_none_iff.mp (hlast.resolve_left ?_))
      rw [hforce]
      exact Bool.false_ne_true
    · exact .inl ⟨List.getElem?_eq_none hidx, List.drop_eq_nil_of_le hidx,
        List.drop_eq_nil_of_le (Nat.le_succ_of_le hidx)⟩
  · next hmore =>
    have hidx : idx + 1 < memory.blocks.length := by
      rw [not_or] at hmore
      exact Nat.lt_of_not_le fun hle => hmore.2 (List.getElem?_eq_none hle)
    have hnil : memory.blocks.drop (memory.blocks.length + 1) = [] :=
      List.drop_eq_nil_of_le (Nat.le_succ _)
    refine ⟨_, _, rfl, hcursor _, .inr ⟨_, rfl, ?_, fun _ => hnil, ?_⟩⟩
    · rw [List.drop_eq_getElem_cons (Nat.lt_of_succ_lt hidx), List.flatten_cons]
      exact List.append_ne_nil_of_left_ne_nil (hblocks _ (List.getElem_mem _)) _
    · rw [hnil, List.flatten_nil, List.append_nil]

/-! ## All calls -/

theorem repliesFor_cons_of_ne {call : ContentCall} (hne : call.name ≠ name)
    (calls : List ContentCall) (provider : InferRequestProvider) :
    repliesFor name (call :: calls) provider = repliesFor name calls
      (provider.getNextInputContent call.name call.contentByteSize call.forceContiguous).2 :=
  List.filter_cons_of_neg (by simpa using hne)

theorem repliesFor_cons_of_eq {call : ContentCall} (heq : call.name = name)
    (calls : List ContentCall) (provider : InferRequestProvider) :
    repliesFor name (call :: calls) provider =
      (call,
        (provider.getNextInputContent call.name call.contentByteSize call.forceContiguous).1) ::
      repliesFor name calls
        (provider.getNextInputContent call.name call.contentByteSize call.forceContiguous).2 :=
  List.filter_cons_of_pos (by simpa using heq)

/-- Each call returns what comes next. -/
theorem readsFrom_replies (h : provider.CursorAt name memory idx)
    (hblocks : ∀ block ∈ memory.blocks, block ≠ []) {calls : List ContentCall}
    (hsizes : ∀ call ∈ calls, call.name = name → call.contentByteSize ≠ 0) :
    ReadsFrom (memory.blocks.drop idx).flatten (repliesFor name calls provider) := by
  induction calls generalizing provider idx with
  | nil => exact .nil _
  | cons call calls ih =>
    rw [List.forall_mem_cons] at hsizes
    by_cases hname : call.name = name
    · obtain ⟨content, idx', hreply, hcursor, hcontent⟩ :=
        getNextInputContent_of_cursorAt h hblocks (hsizes.1 hname) call.forceContiguous
      rw [repliesFor_cons_of_eq hname, hname, hreply]
      obtain ⟨rfl, hnil, hnil'⟩ | ⟨bytes, rfl, hne, hall, hbytes⟩ := hcontent
      · have hnext := ih hcursor hsizes.2
        rw [hnil'] at hnext
        rw [hnil]
        exact .null hnext
      · rw [hbytes]
        refine .content hne (fun hforce => ?_) (ih hcursor hsizes.2)
        rw [hall hforce]
        rfl
    · rw [repliesFor_cons_of_ne hname]
      exact ih (cursorAt_of_other h hname _ _) hsizes.2

end

/-- For every provider, input and list of calls: the calls for an input whose blocks are not
empty return its bytes in order, at once when this is forced, and then null pointers. -/
theorem replies_readInput (provider : InferRequestProvider)
    (buffers : UnorderedMap String (SystemMemory × Nat)) (name : String) (memory : SystemMemory)
    (calls : List ContentCall) (hoverride : name ∉ provider.overrides)
    (hdata : provider.data = .inputBuffer buffers)
    (hlookup : buffers.lookup name = some (memory, 0))
    (hblocks : ∀ block ∈ memory.blocks, block ≠ [])
    (hsizes : ∀ call ∈ calls, call.name = name → call.contentByteSize ≠ 0) :
    ReadsInput memory.bytes (repliesFor name calls provider) := by
  rw [SystemMemory.bytes_eq]
  have hcursor : provider.CursorAt name memory 0 :=
    ⟨AList.lookup_eq_none.mpr hoverride, buffers, hdata, hlookup⟩
  exact (readsFrom_replies hcursor hblocks hsizes).readsInput

def twoBlocks : SystemMemory := ⟨[[1], [2, 3]]⟩

/-- The first of two blocks is asked for, and then the rest by force. -/
theorem replies_readInput_twoBlocks :
    ReadsInput [1, 2, 3] (repliesFor "input"
      [⟨"input", 3, false⟩, ⟨"input", 1, true⟩, ⟨"input", 1, true⟩]
      { requestHeader := {}, data := .inputBuffer (AList.insert "input" (twoBlocks, 0) ∅) }) :=
  replies_readInput _ _ _ twoBlocks _ (AList.notMem_empty _) rfl (AList.lookup_insert _) (by decide)
    (by decide)

end FinBert.Serving
