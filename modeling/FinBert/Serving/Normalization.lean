import FinBert.Serving.Validation
import Mathlib.Algebra.BigOperators.Group.List.Basic
import Mathlib.Algebra.Order.Ring.Int
import Mathlib.Data.List.Perm.Subperm

/-!
# Normalization of a request header

`NormalizeRequestHeader` (`provider_utils.cc`) with `InferenceBackend::GetInput`
(`backend.cc`): the request of a client is checked against the configuration of the model,
and each input gets its shape and its byte size.

Results:
1. `normalizeInput_spec`: what is known of one input that is accepted.
2. `exact_iff`: when the shapes are concrete and the byte sizes exact.
3. `batchSize_bounded_iff`: when the batch size is within the bounds of the model.
4. `input_perm_iff`: when every input of the model is supplied exactly once.
-/

namespace FinBert.Serving

/-! ## `NormalizeRequestHeader` -/

/-- `InferenceBackend::GetInput`. Of the inputs with one name, `input_map_` has the first. -/
def getInput (config : ModelConfig) (name : String) : Except Status ModelInput :=
  match config.input.find? (·.name == name) with
  | some input => .ok input
  | none =>
    .error { code := .invalidArg,
             message := "unexpected inference input '" ++ name ++ "' for model '" ++
               config.name ++ "'" }

/-- The shape that the configuration gives an input. -/
def ModelInput.shape (inputConfig : ModelInput) : List Int :=
  inputConfig.reshape.getD inputConfig.dims

/-- The shape of an input. The shape of the request is only kept when there is no reshape, and
it is not checked for wildcards. -/
def normalizeDims (config : ModelConfig) (inputConfig : ModelInput) (io : InferInput) :
    Except Status (List Int) :=
  if io.dims.length > 0 ∧ !compareDimsWithWildcard io.dims inputConfig.dims then
    .error { code := .invalidArg,
             message := "unexpected shape for input '" ++ io.name ++ "' for model '" ++
               config.name ++ "'. Expected " ++ dimsListToString inputConfig.dims ++ ", got " ++
               dimsListToString io.dims }
  else
    let dims := if inputConfig.reshape.isSome then [] else io.dims
    if dims.length = 0 then
      if inputConfig.shape.any (· < 0) then
        .error { code := .invalidArg,
                 message := "model supports variable-size for input '" ++ io.name ++
                   "', request must specify input shape for model '" ++ config.name ++ "'" }
      else .ok inputConfig.shape
    else .ok dims

/-- The byte size of an input of a fixed-size data type. -/
def fixedByteSize (config : ModelConfig) (batchSize : Nat) (dtype : DataType) (dims : List Int) :
    Nat :=
  let bs := uint64 (getByteSize dtype dims)
  if 0 < config.maxBatchSize then
    if dims.length = 0 then uint64 (getDataTypeByteSize dtype * batchSize)
    else uint64 (bs * batchSize)
  else bs

/-- The body of the loop over the inputs. -/
def normalizeInput (config : ModelConfig) (batchSize : Nat) (io : InferInput) :
    Except Status InferInput :=
  match getInput config io.name with
  | .error status => .error status
  | .ok inputConfig =>
    match normalizeDims config inputConfig io with
    | .error status => .error status
    | .ok dims =>
      if isFixedSizeDataType inputConfig.dataType then
        let bs := fixedByteSize config batchSize inputConfig.dataType dims
        if io.batchByteSize ≠ 0 ∧ io.batchByteSize ≠ bs then
          .error { code := .invalidArg,
                   message := "specific batch-byte-size for input '" ++ io.name ++
                     "' does not match expected byte-size calculated from shape and " ++
                     "datatype for model '" ++ config.name ++ "'" }
        else .ok { io with dims := dims, batchByteSize := bs }
      else .ok { io with dims := dims }

/-- The loop over the inputs. -/
def normalizeInputs (config : ModelConfig) (batchSize : Nat) :
    List InferInput → Except Status (List InferInput)
  | [] => .ok []
  | io :: ios =>
    match normalizeInput config batchSize io with
    | .error status => .error status
    | .ok io =>
      match normalizeInputs config batchSize ios with
      | .error status => .error status
      | .ok ios => .ok (io :: ios)

/-- `NormalizeRequestHeader`. The header of a request that fails is not used any more. -/
def normalizeRequestHeader (config : ModelConfig) (header : InferRequestHeader) :
    Except Status InferRequestHeader :=
  if header.batchSize < 1 then
    .error { code := .invalidArg,
             message := "inference request batch-size must be >= 1 for '" ++ config.name ++ "'" }
  -- the cast to `int` turns a batch size from 2^31 on into a negative number
  else if header.batchSize ≠ 1 ∧ int32 header.batchSize > config.maxBatchSize.toInt then
    .error { code := .invalidArg,
             message := "inference request batch-size must be <= " ++
               toString config.maxBatchSize.toInt ++ " for '" ++ config.name ++ "'" }
  else if header.input.length ≠ config.input.length then
    .error { code := .invalidArg,
             message := "expected " ++ toString config.input.length ++ " inputs but got " ++
               toString header.input.length ++ " inputs for model '" ++ config.name ++ "'" }
  else
    match normalizeInputs config header.batchSize header.input with
    | .error status => .error status
    | .ok input => .ok { header with input := input }

/-! ## What an accepted header looks like -/

section
variable {config : ModelConfig} {header header' : InferRequestHeader} {batchSize : Nat}
  {io io' : InferInput} {inputConfig : ModelInput} {dims : List Int}

theorem getInput_spec {name : String} (h : getInput config name = .ok inputConfig) :
    inputConfig ∈ config.input ∧ inputConfig.name = name := by
  unfold getInput at h
  split at h
  · next input hfind =>
    obtain rfl := Except.ok.inj h
    have hname := List.find?_some hfind
    exact ⟨List.mem_of_find?_eq_some hfind, by simpa using hname⟩
  · cases h

/-- The shape that is used for an input: the reshape, or else the shape of the request, or
else the shape of the configuration. -/
def usedShape (inputConfig : ModelInput) (io : InferInput) : List Int :=
  match inputConfig.reshape with
  | some shape => shape
  | none => if io.dims = [] then inputConfig.dims else io.dims

/-- What is known of the shape of an input: it is the one that is used; it has no negative
dimension when it is the one of the configuration, and agrees with the one of the configuration
up to wildcards on either side otherwise. -/
theorem normalizeDims_spec (h : normalizeDims config inputConfig io = .ok dims) :
    dims = usedShape inputConfig io ∧
    ((dims = inputConfig.shape ∧ ∀ dim ∈ dims, 0 ≤ dim) ∨
      (inputConfig.reshape = none ∧ dims = io.dims ∧ dims ≠ [] ∧
        compareDimsWithWildcard dims inputConfig.dims)) := by
  unfold normalizeDims at h
  split at h
  · cases h
  · next hcompare =>
    simp only at h
    generalize hkept : (if inputConfig.reshape.isSome then [] else io.dims) = kept at h
    split at h
    · next hempty =>
      have hnil := List.eq_nil_of_length_eq_zero hempty
      split at h
      · cases h
      · next hpos =>
        obtain rfl := Except.ok.inj h
        refine ⟨?_, .inl ⟨rfl, fun dim hdim => ?_⟩⟩
        · unfold usedShape ModelInput.shape
          cases hreshape : inputConfig.reshape with
          | none =>
            rw [hreshape, hnil] at hkept
            exact (if_pos hkept).symm
          | some shape => rfl
        · simp only [List.any_eq_true, decide_eq_true_eq, not_exists, not_and] at hpos
          exact Int.not_lt.mp (hpos dim hdim)
    · next hnonempty =>
      obtain rfl := Except.ok.inj h
      cases hreshape : inputConfig.reshape with
      | some shape =>
        rw [hreshape] at hkept
        obtain rfl := hkept
        exact absurd rfl hnonempty
      | none =>
        rw [hreshape] at hkept
        obtain rfl : io.dims = kept := hkept
        have hdims : io.dims ≠ [] := fun hnil => hnonempty (by rw [hnil]; rfl)
        refine ⟨?_, .inr ⟨rfl, rfl, hdims, ?_⟩⟩
        · unfold usedShape
          rw [hreshape]
          exact (if_neg hdims).symm
        · have hlength := List.length_pos_iff.mpr hdims
          simpa [hlength] using hcompare

/-- What is known of an input that is accepted. -/
theorem normalizeInput_spec (h : normalizeInput config batchSize io = .ok io') :
    ∃ inputConfig, getInput config io.name = .ok inputConfig ∧
      normalizeDims config inputConfig io = .ok io'.dims ∧ io'.name = io.name ∧
      (isFixedSizeDataType inputConfig.dataType →
        io'.batchByteSize = fixedByteSize config batchSize inputConfig.dataType io'.dims) ∧
      (¬ isFixedSizeDataType inputConfig.dataType → io'.batchByteSize = io.batchByteSize) := by
  unfold normalizeInput at h
  split at h
  · cases h
  · next inputConfig hinput =>
    split at h
    · cases h
    · next dims hdims =>
      split at h
      · next hfixed =>
        simp only at h
        split at h
        · cases h
        · obtain rfl := Except.ok.inj h
          exact ⟨inputConfig, hinput, hdims, rfl, fun _ => rfl, fun hnot => absurd hfixed hnot⟩
      · next hnot =>
        obtain rfl := Except.ok.inj h
        exact ⟨inputConfig, hinput, hdims, rfl, fun hfixed => absurd hfixed hnot, fun _ => rfl⟩

theorem normalizeInputs_spec {ios ios' : List InferInput}
    (h : normalizeInputs config batchSize ios = .ok ios') :
    List.Forall₂ (fun io io' => normalizeInput config batchSize io = .ok io') ios ios' := by
  induction ios generalizing ios' with
  | nil =>
    obtain rfl := Except.ok.inj h
    exact .nil
  | cons io ios ih =>
    unfold normalizeInputs at h
    split at h
    · cases h
    · next io' hio =>
      split at h
      · cases h
      · next ios' hios =>
        obtain rfl := Except.ok.inj h
        exact .cons hio (ih hios)

/-- What is known of a header that is accepted. -/
theorem normalizeRequestHeader_spec (h : normalizeRequestHeader config header = .ok header') :
    1 ≤ header.batchSize ∧
    (header.batchSize ≠ 1 → int32 header.batchSize ≤ config.maxBatchSize.toInt) ∧
    header.input.length = config.input.length ∧
    List.Forall₂ (fun io io' => normalizeInput config header.batchSize io = .ok io')
      header.input header'.input ∧
    header' = { header with input := header'.input } := by
  unfold normalizeRequestHeader at h
  split at h
  · cases h
  · next hpos =>
    split at h
    · cases h
    · next hbound =>
      split at h
      · cases h
      · next hlength =>
        split at h
        · cases h
        · next input hinput =>
          obtain rfl := Except.ok.inj h
          refine ⟨Nat.not_lt.mp hpos, fun hne => Int.not_lt.mp fun hlt => hbound ⟨hne, hlt⟩,
            Decidable.not_not.mp hlength, normalizeInputs_spec hinput, rfl⟩

/-! ## Exact byte sizes -/

/-- The byte size of an input as an unbounded integer. -/
def exactByteSize (config : ModelConfig) (batchSize : Nat) (dtype : DataType) (dims : List Int) :
    Int :=
  getDataTypeByteSize dtype * dims.prod * (if 0 < config.maxBatchSize then batchSize else 1 : Nat)

/-- The shape `dims` has the dimensions of `shape`, except for the wildcards of `shape`. -/
def AgreesWith (shape dims : List Int) : Prop :=
  List.Forall₂ (fun configured dim => configured = WILDCARD_DIM ∨ dim = configured) shape dims

instance (shape dims : List Int) : Decidable (AgreesWith shape dims) :=
  inferInstanceAs (Decidable (List.Forall₂ _ shape dims))

/-- The shape of the input is concrete and the one that is configured, and the byte size of a
fixed-size data type is exact. -/
structure ExactInput (config : ModelConfig) (batchSize : Nat) (inputConfig : ModelInput)
    (io : InferInput) : Prop where
  concrete : ∀ dim ∈ io.dims, 0 ≤ dim
  agrees : AgreesWith inputConfig.shape io.dims
  size : isFixedSizeDataType inputConfig.dataType →
    io.batchByteSize = exactByteSize config batchSize inputConfig.dataType io.dims

instance (config : ModelConfig) (batchSize : Nat) (inputConfig : ModelInput) (io : InferInput) :
    Decidable (ExactInput config batchSize inputConfig io) :=
  decidable_of_iff
    ((∀ dim ∈ io.dims, 0 ≤ dim) ∧ AgreesWith inputConfig.shape io.dims ∧
      (isFixedSizeDataType inputConfig.dataType →
        io.batchByteSize = exactByteSize config batchSize inputConfig.dataType io.dims))
    ⟨fun h => ⟨h.1, h.2.1, h.2.2⟩, fun h => ⟨h.1, h.2, h.3⟩⟩

/-- Every input of the header is exact. -/
def Exact (config : ModelConfig) (header : InferRequestHeader) : Prop :=
  ∀ io ∈ header.input, ∀ inputConfig, getInput config io.name = .ok inputConfig →
    ExactInput config header.batchSize inputConfig io

instance (config : ModelConfig) (header : InferRequestHeader) : Decidable (Exact config header) :=
  inferInstanceAs (Decidable (∀ io ∈ header.input, ∀ inputConfig,
    getInput config io.name = .ok inputConfig → ExactInput config header.batchSize inputConfig io))

/-- The shape has no wildcard and no other negative dimension, and its byte size is one that a
`uint64_t` can hold; an empty shape takes its byte size from the batch. -/
structure Representable (config : ModelConfig) (batchSize : Nat) (inputConfig : ModelInput)
    (shape : List Int) : Prop where
  concrete : ∀ dim ∈ shape, 0 ≤ dim
  rank : isFixedSizeDataType inputConfig.dataType → shape = [] → 0 < config.maxBatchSize
  size : isFixedSizeDataType inputConfig.dataType →
    exactByteSize config batchSize inputConfig.dataType shape < 18446744073709551616

instance (config : ModelConfig) (batchSize : Nat) (inputConfig : ModelInput) (shape : List Int) :
    Decidable (Representable config batchSize inputConfig shape) :=
  decidable_of_iff
    ((∀ dim ∈ shape, 0 ≤ dim) ∧
      (isFixedSizeDataType inputConfig.dataType → shape = [] → 0 < config.maxBatchSize) ∧
      (isFixedSizeDataType inputConfig.dataType →
        exactByteSize config batchSize inputConfig.dataType shape < 18446744073709551616))
    ⟨fun h => ⟨h.1, h.2.1, h.2.2⟩, fun h => ⟨h.1, h.2, h.3⟩⟩

/-- The shape that is used for every input is representable. -/
def RepresentableShapes (config : ModelConfig) (header : InferRequestHeader) : Prop :=
  ∀ io ∈ header.input, ∀ inputConfig, getInput config io.name = .ok inputConfig →
    Representable config header.batchSize inputConfig (usedShape inputConfig io)

instance (config : ModelConfig) (header : InferRequestHeader) :
    Decidable (RepresentableShapes config header) :=
  inferInstanceAs (Decidable (∀ io ∈ header.input, ∀ inputConfig,
    getInput config io.name = .ok inputConfig →
      Representable config header.batchSize inputConfig (usedShape inputConfig io)))

theorem uint64_cast (n : Int) : (uint64 n : Int) = n % 18446744073709551616 := by
  unfold uint64
  exact Int.toNat_of_nonneg (Int.emod_nonneg n (by decide))

theorem uint64_lt (n : Int) : (uint64 n : Int) < 18446744073709551616 := by
  rw [uint64_cast]
  exact Int.emod_lt_of_pos n (by decide)

theorem uint64_of_lt {n : Int} (hpos : 0 ≤ n) (hlt : n < 18446744073709551616) :
    (uint64 n : Int) = n := by
  rw [uint64_cast, Int.emod_eq_of_lt hpos hlt]

theorem int64_emod (n : Int) : int64 n % 18446744073709551616 = n % 18446744073709551616 :=
  Int.bmod_emod

/-- The products of `GetElementCount` wrap around, and keep the remainder. -/
theorem foldl_int64_emod (dims : List Int) (cnt : Int) :
    dims.foldl (fun cnt dim => int64 (cnt * dim)) cnt % 18446744073709551616 =
      cnt * dims.prod % 18446744073709551616 := by
  induction dims generalizing cnt with
  | nil => rw [List.foldl_nil, List.prod_nil, Int.mul_one]
  | cons dim dims ih =>
    rw [List.foldl_cons, ih, Int.mul_emod, int64_emod, ← Int.mul_emod, List.prod_cons,
      Int.mul_assoc]

theorem getElementCount_emod {dims : List Int} (hne : dims ≠ []) (hdims : ∀ dim ∈ dims, 0 ≤ dim) :
    getElementCount dims % 18446744073709551616 = dims.prod % 18446744073709551616 := by
  have hwildcard : WILDCARD_DIM ∉ dims := fun hmem => absurd (hdims _ hmem) (by decide)
  unfold getElementCount
  rw [if_neg hwildcard]
  cases dims with
  | nil => exact absurd rfl hne
  | cons dim dims =>
    show dims.foldl (fun cnt dim => int64 (cnt * dim)) dim % _ = _
    rw [foldl_int64_emod, List.prod_cons]

theorem prod_nonneg {dims : List Int} (hdims : ∀ dim ∈ dims, 0 ≤ dim) : 0 ≤ dims.prod := by
  induction dims with
  | nil => decide
  | cons dim dims ih =>
    rw [List.forall_mem_cons] at hdims
    rw [List.prod_cons]
    exact Int.mul_nonneg hdims.1 (ih hdims.2)

/-- `GetByteSize` is exact when the result fits. The count -1, which stands for an error, is also
the count of a shape whose product wraps around to it. -/
theorem getByteSize_exact {dtype : DataType} {dims : List Int}
    (hdtype : getDataTypeByteSize dtype ≠ 0) (hne : dims ≠ []) (hdims : ∀ dim ∈ dims, 0 ≤ dim)
    (hlt : getDataTypeByteSize dtype * dims.prod < 18446744073709551616) :
    (uint64 (getByteSize dtype dims) : Int) = getDataTypeByteSize dtype * dims.prod := by
  have hcount := getElementCount_emod hne hdims
  have hprod := prod_nonneg hdims
  have hsize : (1 : Int) ≤ getDataTypeByteSize dtype := by omega
  have hle : dims.prod ≤ getDataTypeByteSize dtype * dims.prod :=
    le_mul_of_one_le_left hprod hsize
  simp only [getByteSize, if_neg hdtype]
  split
  · next herror =>
    rw [herror, Int.emod_eq_of_lt hprod (by omega)] at hcount
    have hmax : dims.prod = 18446744073709551615 := hcount.symm
    have hone : (getDataTypeByteSize dtype : Int) = 1 := by
      rw [hmax] at hlt
      omega
    rw [hone, hmax]
    rfl
  · rw [uint64_cast, int64_emod, Int.mul_emod, hcount, ← Int.mul_emod, Int.mul_comm,
      Int.emod_eq_of_lt (Int.mul_nonneg (by omega) hprod) hlt]

theorem fixedByteSize_lt (config : ModelConfig) (batchSize : Nat) (dtype : DataType)
    (dims : List Int) :
    (fixedByteSize config batchSize dtype dims : Int) < 18446744073709551616 := by
  simp only [fixedByteSize]
  split
  · split
    · exact uint64_lt _
    · exact uint64_lt _
  · exact uint64_lt _

/-- The byte size of a concrete shape is exact when it fits. -/
theorem fixedByteSize_exact {dtype : DataType} (hdtype : getDataTypeByteSize dtype ≠ 0)
    (hdims : ∀ dim ∈ dims, 0 ≤ dim) (hbatch : 1 ≤ batchSize)
    (hrank : dims = [] → 0 < config.maxBatchSize)
    (hlt : exactByteSize config batchSize dtype dims < 18446744073709551616) :
    (fixedByteSize config batchSize dtype dims : Int) =
      exactByteSize config batchSize dtype dims := by
  have hprod := prod_nonneg hdims
  have hone : 0 ≤ getDataTypeByteSize dtype * dims.prod := Int.mul_nonneg (by omega) hprod
  unfold exactByteSize at hlt ⊢
  simp only [fixedByteSize]
  split
  · next hmax =>
    rw [if_pos hmax] at hlt
    have hle : getDataTypeByteSize dtype * dims.prod ≤
        getDataTypeByteSize dtype * dims.prod * batchSize :=
      le_mul_of_one_le_right hone (by omega)
    split
    · next hempty =>
      obtain rfl := List.eq_nil_of_length_eq_zero hempty
      rw [List.prod_nil, Int.mul_one] at hlt ⊢
      exact uint64_of_lt (Int.mul_nonneg (by omega) (by omega)) hlt
    · next hnonempty =>
      have hne : dims ≠ [] := fun hnil => hnonempty (by rw [hnil]; rfl)
      rw [getByteSize_exact hdtype hne hdims (Int.lt_of_le_of_lt hle hlt)]
      exact uint64_of_lt (Int.mul_nonneg hone (by omega)) hlt
  · next hmax =>
    rw [if_neg hmax, Nat.cast_one, Int.mul_one] at hlt
    rw [Nat.cast_one, Int.mul_one]
    exact getByteSize_exact hdtype (fun hnil => hmax (hrank hnil)) hdims hlt

/-- The byte size of a concrete shape is exact if and only if it fits. -/
theorem fixedByteSize_exact_iff {dtype : DataType} (hdtype : getDataTypeByteSize dtype ≠ 0)
    (hdims : ∀ dim ∈ dims, 0 ≤ dim) (hbatch : 1 ≤ batchSize) :
    (fixedByteSize config batchSize dtype dims : Int) = exactByteSize config batchSize dtype dims ↔
      (dims = [] → 0 < config.maxBatchSize) ∧
        exactByteSize config batchSize dtype dims < 18446744073709551616 := by
  constructor
  · intro heq
    refine ⟨fun hnil => Decidable.byContradiction fun hmax => ?_, ?_⟩
    · -- the count of an empty shape is 0, and no batch size replaces it here
      subst hnil
      unfold exactByteSize fixedByteSize at heq
      simp only [if_neg hmax] at heq
      have hzero : uint64 (getByteSize dtype []) = 0 := by
        unfold getByteSize
        rw [if_neg hdtype]
        simp [getElementCount, int64, uint64, WILDCARD_DIM]
      rw [hzero, List.prod_nil, Int.mul_one, Nat.cast_one, Int.mul_one] at heq
      omega
    · rw [← heq]
      exact fixedByteSize_lt config batchSize dtype dims
  · rintro ⟨hrank, hlt⟩
    exact fixedByteSize_exact hdtype hdims hbatch hrank hlt

theorem agreesWith_self (shape : List Int) : AgreesWith shape shape :=
  List.forall₂_same.mpr fun _ _ => .inr rfl

/-- A concrete shape that passes the comparison agrees with the configuration. -/
theorem agreesWith_of_compare {shape : List Int} (hdims : ∀ dim ∈ dims, 0 ≤ dim)
    (h : compareDimsWithWildcard dims shape) : AgreesWith shape dims := by
  induction dims generalizing shape with
  | nil =>
    cases shape with
    | nil => exact .nil
    | cons _ _ => cases h
  | cons dim dims ih =>
    cases shape with
    | nil => cases h
    | cons configured shape =>
      rw [List.forall_mem_cons] at hdims
      have hne : dim ≠ WILDCARD_DIM := fun heq => absurd hdims.1 (by rw [heq]; decide)
      simp only [compareDimsWithWildcard, List.length_cons, List.zip_cons_cons, List.all_cons,
        Bool.and_eq_true, beq_iff_eq, Nat.add_right_cancel_iff, compareDimWithWildcard,
        Bool.or_eq_true] at h
      refine .cons ?_ (ih hdims.2 ?_)
      · rcases h.2.1 with (heq | heq) | heq
        · exact absurd heq hne
        · exact .inl heq
        · exact .inr heq
      · simp only [compareDimsWithWildcard, Bool.and_eq_true, beq_iff_eq]
        exact ⟨h.1, h.2.2⟩

theorem getDataTypeByteSize_ne_zero {dtype : DataType} (hvalid : dtype ≠ .invalid)
    (hfixed : isFixedSizeDataType dtype) : getDataTypeByteSize dtype ≠ 0 := by
  cases dtype with
  | invalid => exact absurd rfl hvalid
  | string => cases hfixed
  | _ => decide

/-- One input. -/
theorem exactInput_iff (hvalid : inputConfig.dataType ≠ .invalid) (hbatch : 1 ≤ batchSize)
    (hinput : getInput config io.name = .ok inputConfig)
    (h : normalizeInput config batchSize io = .ok io') :
    ExactInput config batchSize inputConfig io' ↔
      Representable config batchSize inputConfig (usedShape inputConfig io) := by
  obtain ⟨inputConfig', hinput', hdims, -, hfixed, -⟩ := normalizeInput_spec h
  obtain rfl : inputConfig = inputConfig' := Except.ok.inj (hinput.symm.trans hinput')
  obtain ⟨hused, hshape⟩ := normalizeDims_spec hdims
  rw [← hused]
  constructor
  · intro hexact
    have hiff := fun hfix => (fixedByteSize_exact_iff
      (getDataTypeByteSize_ne_zero hvalid hfix) hexact.concrete hbatch).mp
        (hfixed hfix ▸ hexact.size hfix)
    exact ⟨hexact.concrete, fun hfix => (hiff hfix).1, fun hfix => (hiff hfix).2⟩
  · intro hrep
    refine ⟨hrep.concrete, ?_, fun hfix => ?_⟩
    · rcases hshape with ⟨heq, -⟩ | ⟨hnone, -, -, hcompare⟩
      · rw [heq]
        exact agreesWith_self _
      · unfold ModelInput.shape
        rw [hnone]
        exact agreesWith_of_compare hrep.concrete hcompare
    · rw [hfixed hfix]
      exact fixedByteSize_exact (getDataTypeByteSize_ne_zero hvalid hfix) hrep.concrete hbatch
        (hrep.rank hfix) (hrep.size hfix)

/-- The shapes and byte sizes of an accepted header are exact if and only if the shapes that
are used are representable. -/
theorem exact_iff {cuda : CudaDeviceCount} {expectedPlatform : String}
    (hvalid : (validateModelConfig cuda config expectedPlatform).isOk)
    (h : normalizeRequestHeader config header = .ok header') :
    Exact config header' ↔ RepresentableShapes config header := by
  obtain ⟨hbatch, -, -, hinputs, hheader⟩ := normalizeRequestHeader_spec h
  have hsame : header'.batchSize = header.batchSize := by rw [hheader]
  unfold Exact RepresentableShapes
  rw [hsame]
  generalize header.input = ios at hinputs
  generalize header'.input = ios' at hinputs
  induction hinputs with
  | nil => simp
  | cons hio _ ih =>
    rw [List.forall_mem_cons, List.forall_mem_cons]
    refine and_congr (forall_congr' fun inputConfig => ?_) ih
    have hname := (normalizeInput_spec hio).choose_spec.2.2.1
    rw [hname]
    refine forall_congr' fun hinput => ?_
    exact exactInput_iff (validTensor_of_validateModelConfig hvalid (getInput_spec hinput).1).typed
      hbatch hinput hio

/-- An input `x` of four floats for a model that runs on the CPU. -/
def fourFloats : ModelConfig where
  name := "four"
  platform := kTensorFlowGraphDefPlatform
  versionPolicy := some (.latest 1)
  maxBatchSize := 8
  input := [{ name := "x", dataType := .fp32, dims := [4] }]
  instanceGroup := [{ name := "four", kind := .cpu, count := 1 }]

/-- A request of batch size 2 with this shape for `x`. -/
def shapeRequest (dims : List Int) : InferRequestHeader where
  batchSize := 2
  input := [{ name := "x", dims := dims }]

/-- The shape [4] gives 32 bytes. -/
theorem exact_four :
    Exact fourFloats
      { batchSize := 2, input := [{ name := "x", dims := [4], batchByteSize := 32 }] } := by
  have hvalid : (validateModelConfig .noDevice fourFloats "").isOk := by decide
  have haccepted : normalizeRequestHeader fourFloats (shapeRequest [4]) = .ok
      { batchSize := 2, input := [{ name := "x", dims := [4], batchByteSize := 32 }] } := by decide
  exact (exact_iff hvalid haccepted).mpr (by decide)

/-- The wildcard of a request is accepted where the configuration has the dimension 4: the
shape stays [-1], and the byte size is twice the error value of `GetByteSize`. -/
theorem not_exact_wildcard :
    (validateModelConfig .noDevice fourFloats "").isOk ∧
    ∃ header', normalizeRequestHeader fourFloats (shapeRequest [-1]) = .ok header' ∧
      ¬ Exact fourFloats header' :=
  ⟨by decide,
    { batchSize := 2
      input := [{ name := "x", dims := [-1], batchByteSize := 18446744073709551614 }] },
    by decide, by decide⟩

/-! ## The batch size -/

theorem int32_of_lt {n : Nat} (h : n < 2147483648) : int32 n = n := by
  unfold int32
  rw [Int.bmod_eq_of_le] <;> omega

/-- The batch size of an accepted header, which is the one that the schedulers and the backends
read, is within the bounds of the model if and only if it is a positive `int`. -/
theorem batchSize_bounded_iff (hbatch : header.batchSize < 4294967296)
    (h : normalizeRequestHeader config header = .ok header') :
    (1 ≤ header'.batchSize ∧ (header'.batchSize : Int) ≤ max 1 config.maxBatchSize.toInt) ↔
      header.batchSize < 2147483648 := by
  obtain ⟨hpos, hmax, -, -, hheader⟩ := normalizeRequestHeader_spec h
  have hsame : header'.batchSize = header.batchSize := by rw [hheader]
  have hconfig : config.maxBatchSize.toInt < 2147483648 := config.maxBatchSize.toInt_lt
  rw [hsame]
  constructor
  · rintro ⟨-, hle⟩
    omega
  · intro hlt
    refine ⟨hpos, ?_⟩
    rw [int32_of_lt hlt] at hmax
    rcases eq_or_ne header.batchSize 1 with hone | hne
    · rw [hone]
      exact le_max_left _ _
    · exact le_trans (hmax hne) (le_max_right _ _)

/-- The largest batch of `fourFloats`. -/
theorem batchSize_bounded_eight :
    (8 : Int) ≤ max 1 fourFloats.maxBatchSize.toInt :=
  ((batchSize_bounded_iff
    (show ({ batchSize := 8, input := [{ name := "x" }] } : InferRequestHeader).batchSize <
      4294967296 by decide)
    (show normalizeRequestHeader fourFloats _ = .ok
      { batchSize := 8, input := [{ name := "x", dims := [4], batchByteSize := 128 }] } by
        decide)).mpr (by decide)).2

/-- A batch size of 2^31 is accepted for a model with batches of at most 8. -/
theorem not_batchSize_bounded :
    (validateModelConfig .noDevice fourFloats "").isOk ∧
    ∃ header : InferRequestHeader, header.batchSize = 2147483648 ∧
      (statusOf (normalizeRequestHeader fourFloats header)).isOk ∧
      ¬ (header.batchSize : Int) ≤ max 1 fourFloats.maxBatchSize.toInt :=
  ⟨by decide, { batchSize := 2147483648, input := [{ name := "x" }] }, rfl, by decide, by decide⟩

/-! ## The names of the inputs -/

theorem normalizeInput_name (h : normalizeInput config batchSize io = .ok io') :
    io'.name = io.name ∧ io.name ∈ config.inputNames := by
  obtain ⟨inputConfig, hinput, -, hname, -, -⟩ := normalizeInput_spec h
  obtain ⟨hmem, hconfig⟩ := getInput_spec hinput
  exact ⟨hname, hconfig ▸ List.mem_map_of_mem hmem⟩

/-- The names in an accepted header are names of inputs, and normalization keeps them. -/
theorem normalizeInputs_names {ios ios' : List InferInput}
    (h : List.Forall₂ (fun io io' => normalizeInput config batchSize io = .ok io') ios ios') :
    ios'.map (·.name) = ios.map (·.name) ∧ ∀ name ∈ ios.map (·.name), name ∈ config.inputNames := by
  induction h with
  | nil => exact ⟨rfl, fun _ hmem => absurd hmem List.not_mem_nil⟩
  | cons hio _ ih =>
    obtain ⟨hname, hmem⟩ := normalizeInput_name hio
    rw [List.map_cons, List.map_cons, List.forall_mem_cons, hname, ih.1]
    exact ⟨rfl, hmem, ih.2⟩

/-- The names in an accepted header are as many as the inputs of the model and are names of
inputs. They are all names, each once, if and only if no name is there twice. -/
theorem input_perm_iff (hconfig : config.inputNames.Nodup)
    (h : normalizeRequestHeader config header = .ok header') :
    (header'.input.map (·.name)).Perm config.inputNames ↔ (header.input.map (·.name)).Nodup := by
  obtain ⟨-, -, hlength, hinputs, -⟩ := normalizeRequestHeader_spec h
  obtain ⟨hsame, hmem⟩ := normalizeInputs_names hinputs
  rw [hsame]
  constructor
  · exact fun hperm => hperm.nodup_iff.mpr hconfig
  · intro hnodup
    have hsub : (header.input.map (·.name)).Subperm config.inputNames := hnodup.subperm hmem
    refine hsub.perm_of_length_le ?_
    unfold ModelConfig.inputNames
    rw [List.length_map, List.length_map, hlength]

/-- Two inputs, `a` and `b`. -/
def twoInputs : ModelConfig where
  name := "two"
  platform := kTensorFlowGraphDefPlatform
  versionPolicy := some (.latest 1)
  input :=
    [{ name := "a", dataType := .fp32, dims := [1] },
     { name := "b", dataType := .fp32, dims := [1] }]
  instanceGroup := [{ name := "two", kind := .cpu, count := 1 }]

/-- A request that names its inputs in the other order. -/
theorem input_perm_swapped : ["b", "a"].Perm twoInputs.inputNames :=
  (input_perm_iff (show twoInputs.inputNames.Nodup by decide)
    (show normalizeRequestHeader twoInputs
        { batchSize := 1, input := [{ name := "b" }, { name := "a" }] } = .ok
        { batchSize := 1
          input := [{ name := "b", dims := [1], batchByteSize := 4 },
            { name := "a", dims := [1], batchByteSize := 4 }] } by decide)).mpr (by decide)

/-- A request that gives the input `a` twice and the input `b` not at all is accepted. -/
theorem not_input_perm :
    (validateModelConfig .noDevice twoInputs "").isOk ∧ twoInputs.inputNames.Nodup ∧
    ∃ header' : InferRequestHeader,
      normalizeRequestHeader twoInputs
        { batchSize := 1, input := [{ name := "a" }, { name := "a" }] } = .ok header' ∧
      ¬ (header'.input.map (·.name)).Perm twoInputs.inputNames :=
  ⟨by decide, by decide,
    { batchSize := 1
      input := [{ name := "a", dims := [1], batchByteSize := 4 },
        { name := "a", dims := [1], batchByteSize := 4 }] },
    by decide, by decide⟩

end

end FinBert.Serving
