import Mathlib.Tactic.Common

/-!
# Statuses and request headers

The parts of `status.h`, `request_status.proto`, `api.proto` and `model_config.cc`
that the schedulers read.
-/

namespace FinBert.Serving

/-- A `std::string`, or the content of a buffer. -/
abbrev Bytes := List UInt8

/-- `RequestStatusCode` (`request_status.proto`). -/
inductive RequestStatusCode
  | invalid
  | success
  | unknown
  | internal
  | notFound
  | invalidArg
  | unavailable
  | unsupported
  | alreadyExists
deriving DecidableEq, Repr

/-- `Status` (`status.h`): a code and a message. -/
structure Status where
  code : RequestStatusCode
  message : String := ""
deriving DecidableEq, Repr

/-- `Status::Success`. -/
def Status.ok : Status := { code := .success }

/-- `Status::IsOk`. -/
def Status.isOk (status : Status) : Bool := status.code == .success

/-- `RETURN_IF_ERROR(status)` in front of the rest of a function. -/
def Status.andThen (status next : Status) : Status := if status.isOk then next else status

@[simp] theorem Status.isOk_andThen (status next : Status) :
    (status.andThen next).isOk ↔ status.isOk ∧ next.isOk := by
  unfold andThen
  split
  · next h => simp [h]
  · next h => simp [h]

/-- A loop that returns the first error. -/
def Status.forEach {α : Type} (f : α → Status) : List α → Status
  | [] => .ok
  | x :: xs => (f x).andThen (forEach f xs)

@[simp] theorem Status.isOk_forEach {α : Type} (f : α → Status) (xs : List α) :
    (forEach f xs).isOk ↔ ∀ x ∈ xs, (f x).isOk := by
  induction xs with
  | nil => simp [forEach, isOk, ok]
  | cons x xs ih => rw [forEach, isOk_andThen, ih, List.forall_mem_cons]

/-- The status of a function that returns a value when it succeeds. -/
def statusOf {α : Type} : Except Status α → Status
  | .ok _ => .ok
  | .error status => status

/-- What a function returns when it succeeds has the property `P`. -/
instance decidableForallOk {α : Type} (P : α → Prop) [DecidablePred P] :
    ∀ result : Except Status α, Decidable (∀ a, result = .ok a → P a)
  | .ok a => decidable_of_iff (P a) ⟨fun h _ ha => Except.ok.inj ha ▸ h, fun h => h a rfl⟩
  | .error _ => isTrue nofun

/-- `InferRequestHeader::Input`: the meta-data of one input tensor. -/
structure InferInput where
  name : String
  dims : List Int := []
  batchByteSize : Nat := 0
deriving DecidableEq, Repr

/-- `InferRequestHeader::Output`: the name of a requested output tensor. -/
structure InferOutput where
  name : String
deriving DecidableEq, Repr

/-- `InferRequestHeader`. The default is the message with every field unset. -/
structure InferRequestHeader where
  batchSize : Nat := 0
  correlationId : Nat := 0
  flags : Nat := 0
  input : List InferInput := []
  output : List InferOutput := []
deriving DecidableEq, Repr

namespace InferRequestHeader

/-- `InferRequestHeader::FLAG_SEQUENCE_START`. -/
def FLAG_SEQUENCE_START : Nat := 1

/-- `InferRequestHeader::FLAG_SEQUENCE_END`. -/
def FLAG_SEQUENCE_END : Nat := 2

def seqStart (header : InferRequestHeader) : Bool := header.flags &&& FLAG_SEQUENCE_START != 0

def seqEnd (header : InferRequestHeader) : Bool := header.flags &&& FLAG_SEQUENCE_END != 0

end InferRequestHeader

/-- `SystemMemory`: the blocks that `BufferAt` returns one after another. -/
structure SystemMemory where
  blocks : List (List UInt8)

def SystemMemory.totalByteSize (memory : SystemMemory) : Nat := memory.blocks.flatten.length

/-- `BufferAt`: no block, and the size 0, behind the last one. -/
def SystemMemory.bufferAt (memory : SystemMemory) (idx : Nat) : Option (List UInt8) :=
  memory.blocks[idx]?

/-- The bytes that `BufferAt` returns for one index after another. -/
def SystemMemory.bytes (memory : SystemMemory) : List UInt8 :=
  ((List.range memory.blocks.length).map fun idx => (memory.bufferAt idx).getD []).flatten

theorem SystemMemory.bytes_eq (memory : SystemMemory) : memory.bytes = memory.blocks.flatten := by
  unfold bytes bufferAt
  congr 1
  refine List.ext_getElem (by simp) fun idx h h' => ?_
  simp [h']

/-! ## Machine integers -/

/-- The `int` with the bits of `n`. -/
def int32 (n : Int) : Int := n.bmod 4294967296

/-- The `int64_t` with the bits of `n`. Products wrap around. -/
def int64 (n : Int) : Int := n.bmod 18446744073709551616

/-- The `uint64_t` with the bits of `n`. -/
def uint64 (n : Int) : Nat := (n % 18446744073709551616).toNat

/-- `WILDCARD_DIM`. -/
def WILDCARD_DIM : Int := -1

/-- `GetElementCount`: -1 for dimensions with a wildcard. -/
def getElementCount (dims : List Int) : Int :=
  if WILDCARD_DIM ∈ dims then -1
  else
    match dims with
    | [] => 0
    | dim :: rest => rest.foldl (fun cnt dim => int64 (cnt * dim)) dim

/-- `CompareDims`. -/
def compareDims (dims0 dims1 : List Int) : Bool := dims0 == dims1

end FinBert.Serving
