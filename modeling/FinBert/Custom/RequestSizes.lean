import FinBert.Client.Result
import FinBert.Client.Sent
import FinBert.Custom.Identity
import FinBert.Serving.InputMap

/-!
# The sizes of a request

The client takes the byte size of an input from the shape that was set for it, or else from the
configuration of the model. The server takes it from the shape that is left when the header has
been normalized, which is that of the reshape if there is one, and the identity library from the
same shape behind the batch size. All of them agree on an input that is not too large.

Results:
1. `getElementCount_exact`: the count of a shape that is not too large.
2. `elementCount_usedDims`: the client and the server count the same elements.
3. `served_of_normalizeInput`: what the server knows of an input that was sent.
-/

namespace FinBert.Serving

/-! ## Counts -/

theorem int64_of_emod {n m : Int} (h : n % 18446744073709551616 = m % 18446744073709551616)
    (hpos : 0 ≤ m) (hlt : m < 9223372036854775808) : int64 n = m := by
  unfold int64
  have hbmod (x : Int) : (x % 18446744073709551616).bmod 18446744073709551616 =
      x.bmod 18446744073709551616 := Int.emod_bmod x _
  rw [← hbmod, h, hbmod]
  exact Int.bmod_eq_of_le (by omega) (by omega)

/-- `GetElementCount` is the product of the dimensions when an `int64_t` can hold it. -/
theorem getElementCount_exact {dims : List Int} (hne : dims ≠ []) (hdims : ∀ dim ∈ dims, 0 ≤ dim)
    (hlt : dims.prod < 9223372036854775808) : getElementCount dims = dims.prod := by
  have hwildcard : WILDCARD_DIM ∉ dims := fun hmem => absurd (hdims _ hmem) (by decide)
  have hcount := getElementCount_emod hne hdims
  have hprod := prod_nonneg hdims
  unfold getElementCount at hcount ⊢
  rw [if_neg hwildcard] at hcount ⊢
  obtain ⟨dim, rest, rfl⟩ := List.exists_cons_of_ne_nil hne
  change rest.foldl _ dim % _ = _ at hcount
  show rest.foldl _ dim = _
  -- the last product is cut to 64 bits
  rcases rest.eq_nil_or_concat with rfl | ⟨init, last, rfl⟩
  · rw [List.foldl_nil, List.prod_singleton]
  · rw [List.concat_eq_append, List.foldl_append, List.foldl_cons, List.foldl_nil] at hcount ⊢
    rw [int64_emod] at hcount
    rw [List.concat_eq_append] at hprod hlt
    exact int64_of_emod hcount hprod hlt

/-- `GetByteSize` of a shape whose elements are counted exactly. -/
theorem getByteSize_of_count {dtype : DataType} {dims : List Int} {count : Int}
    (hdtype : getDataTypeByteSize dtype ≠ 0) (hcount : getElementCount dims = count)
    (hpos : 0 ≤ count) (hlt : getDataTypeByteSize dtype * count < 9223372036854775808) :
    getByteSize dtype dims = getDataTypeByteSize dtype * count := by
  unfold getByteSize
  simp only [if_neg hdtype, hcount]
  rw [if_neg (by omega), Int.mul_comm]
  exact int64_of_emod rfl (Int.mul_nonneg (Int.natCast_nonneg _) hpos) hlt

/-- A reshape keeps the number of the elements. -/
theorem count_of_validateModelTensor {what name : String} {dataType : DataType}
    {dims shape : List Int} {maxBatchSize : Int32}
    (h : (validateModelTensor what name dataType dims (some shape) maxBatchSize).isOk) :
    getElementCount dims = max 1 (getElementCount shape) := by
  unfold validateModelTensor at h
  split at h
  · cases h
  · split at h
    · cases h
    · split at h
      · cases h
      · split at h
        · cases h
        · rw [Status.isOk_andThen] at h
          have hreshape := h.2
          simp only [validateReshape] at hreshape
          split at hreshape
          · cases hreshape
          · split at hreshape
            · cases hreshape
            · next hcount => exact not_not.mp hcount

/-- The number of the elements of an accepted reshape is the product of its dimensions. -/
theorem max_getElementCount {shape : List Int} (hpos : ∀ dim ∈ shape, 1 ≤ dim)
    (hlt : shape.prod < 9223372036854775808) : max 1 (getElementCount shape) = shape.prod := by
  rcases eq_or_ne shape [] with rfl | hne
  · decide
  · rw [getElementCount_exact hne (fun dim hdim => Int.le_of_lt (hpos dim hdim)) hlt]
    refine max_eq_right ?_
    clear hne hlt
    induction shape with
    | nil => exact Int.le_refl 1
    | cons dim dims ih =>
      rw [List.forall_mem_cons] at hpos
      rw [List.prod_cons]
      exact one_le_mul_of_one_le_of_one_le hpos.1 (ih hpos.2)

end FinBert.Serving

namespace FinBert.Custom

open FinBert.Serving FinBert.Client

/-! ## One input -/

/-- The byte size of an input of a fixed-size data type is one that an `int64_t` can hold, and an
empty shape is behind a batch size. -/
def SmallInput (config : ModelConfig) (batchSize : Nat) (inputConfig : ModelInput)
    (dims : List Int) : Prop :=
  (dims = [] → 0 < config.maxBatchSize) ∧
    exactByteSize config batchSize inputConfig.dataType dims < 9223372036854775808

instance (config : ModelConfig) (batchSize : Nat) (inputConfig : ModelInput) (dims : List Int) :
    Decidable (SmallInput config batchSize inputConfig dims) :=
  inferInstanceAs (Decidable (_ ∧ _))

/-- What the server knows of an input that was sent: the size of its bytes, and the size that the
identity library finds. -/
structure Served (config : ModelConfig) (batchSize : Nat) (io : Client.InputImpl)
    (served : InferInput) : Prop where
  name : served.name = io.mio.name
  shape : compareDimsWithWildcard io.mio.shape served.dims
  batchByteSize : served.batchByteSize = io.bufs.flatten.length
  entry : isFixedSizeDataType io.mio.dataType →
    ∃ size, io.bufs.flatten.length = size * batchSize ∧ ∀ buf ∈ io.bufs, buf.length = size
  copied : isFixedSizeDataType io.mio.dataType →
    getByteSize io.mio.dataType
      ((if config.maxBatchSize ≠ 0 then [(batchSize : Int)] else []) ++ served.dims) =
        io.bufs.flatten.length

section
variable {cuda : CudaDeviceCount} {config : ModelConfig} {expectedPlatform : String}
  {io : Client.InputImpl} {served : InferInput} {batchSize : Nat}

theorem compareDimsWithWildcard_iff (dims dims' : List Int) :
    compareDimsWithWildcard dims dims' ↔
      List.Forall₂ (fun dim dim' => compareDimWithWildcard dim dim' = true) dims dims' := by
  rw [List.forall₂_iff_zip, compareDimsWithWildcard, Bool.and_eq_true, beq_iff_eq, List.all_eq_true]
  exact and_congr_right fun _ => ⟨fun h _ _ hmem => h _ hmem, fun h _ hmem => h hmem⟩

theorem compareDimsWithWildcard_comm {dims dims' : List Int}
    (h : compareDimsWithWildcard dims dims') : compareDimsWithWildcard dims' dims := by
  rw [compareDimsWithWildcard_iff] at h ⊢
  refine h.flip.imp fun dim' dim hdim => ?_
  unfold compareDimWithWildcard at hdim ⊢
  rw [Bool.or_comm (dim' == WILDCARD_DIM), Bool.beq_comm (a := dim') (b := dim)]
  exact hdim

theorem compareDimsWithWildcard_self (dims : List Int) : compareDimsWithWildcard dims dims := by
  rw [compareDimsWithWildcard_iff, List.forall₂_same]
  intro dim _
  simp [compareDimWithWildcard]

theorem eq_of_agreesWith {shape dims : List Int} (hfixed : ∀ dim ∈ shape, 1 ≤ dim)
    (h : AgreesWith shape dims) : dims = shape := by
  induction h with
  | nil => rfl
  | @cons configured dim shape dims hdim _ ih =>
    rw [List.forall_mem_cons] at hfixed
    have hne : configured ≠ WILDCARD_DIM := fun heq => absurd hfixed.1 (by rw [heq]; decide)
    rw [hdim.resolve_left hne, ih hfixed.2]

/-- The shape that the server uses for an input has as many elements as the one that the client
uses. -/
structure SameElements (io : Client.InputImpl) (dims : List Int) : Prop where
  shape : compareDimsWithWildcard io.mio.shape dims
  count : dims.prod < 9223372036854775808 → getElementCount io.usedDims = dims.prod
  nonneg : ∀ dim ∈ dims, 0 ≤ dim

/-- The client and the server count the same elements. -/
theorem elementCount_usedDims (hvalid : (validateModelConfig cuda config expectedPlatform).isOk)
    (hmio : io.mio ∈ config.input) (hconcrete : ∀ dim ∈ io.shape, 0 ≤ dim) {dims : List Int}
    (h : normalizeDims config io.mio io.metaData = .ok dims) :
    SameElements io dims := by
  have htensor := validTensor_of_validateModelConfig hvalid hmio
  obtain ⟨hused, hshape⟩ := normalizeDims_spec h
  cases hreshape : io.mio.reshape with
  | none =>
    have hdims : dims = io.usedDims := by
      rw [hused, usedShape, hreshape]
      rfl
    have hne : dims ≠ [] := by
      rw [hdims, Client.InputImpl.usedDims]
      split
      · exact htensor.ranked
      · next hne => exact hne
    have hconfigured : io.mio.shape = io.mio.dims := by
      rw [ModelInput.shape, hreshape]
      rfl
    obtain ⟨hsame, hnonneg⟩ | ⟨-, hsent, -, hcompare⟩ := hshape
    · exact ⟨hsame ▸ compareDimsWithWildcard_self _,
        fun hlt => hdims ▸ getElementCount_exact hne hnonneg hlt, hnonneg⟩
    · have hnonneg : ∀ dim ∈ dims, 0 ≤ dim := hsent ▸ hconcrete
      exact ⟨hconfigured ▸ compareDimsWithWildcard_comm hcompare,
        fun hlt => hdims ▸ getElementCount_exact hne hnonneg hlt, hnonneg⟩
  | some shape =>
    obtain ⟨hsame, hnonneg⟩ | ⟨hnone, -⟩ := hshape
    · have hdims : dims = shape := by
        rw [hsame, ModelInput.shape, hreshape]
        rfl
      refine ⟨hsame ▸ compareDimsWithWildcard_self _, fun hlt => ?_, hnonneg⟩
      -- without wildcards, the shape that was set is the configured one
      have hfixed : ∀ dim ∈ io.mio.dims, 1 ≤ dim :=
        htensor.fixed (by rw [hreshape]; exact Option.some_ne_none shape)
      have husedDims : io.usedDims = io.mio.dims := by
        unfold Client.InputImpl.usedDims
        split
        · rfl
        · next hne =>
          unfold normalizeDims at h
          split at h
          · cases h
          · next hcompare =>
            have hcompare : compareDimsWithWildcard io.shape io.mio.dims := by
              rw [not_and_or, Bool.not_eq_true', Bool.not_eq_false] at hcompare
              exact hcompare.resolve_left fun hpos => hpos (List.length_pos_iff.mpr hne)
            exact eq_of_agreesWith hfixed (agreesWith_of_compare hconcrete hcompare)
      have hcount := (isOk_validateModelConfig hvalid).2.1 io.mio hmio
      rw [validateModelInput, Status.isOk_andThen, hreshape] at hcount
      rw [husedDims, count_of_validateModelTensor hcount.1, hdims]
      exact max_getElementCount (htensor.reshape_pos shape hreshape) (hdims ▸ hlt)
    · cases hreshape.symm.trans hnone

/-- Without batching, the batch size is 1. -/
theorem exactByteSize_of_le (hmost : batchSize ≤ max 1 config.maxBatchSize.toInt.toNat)
    (hpos : 1 ≤ batchSize) (dtype : DataType) (dims : List Int) :
    exactByteSize config batchSize dtype dims = getDataTypeByteSize dtype * dims.prod * batchSize ∧
      (config.maxBatchSize = 0 → batchSize = 1) := by
  have hone (hle : ¬ 0 < config.maxBatchSize) : batchSize = 1 := by
    have hmax : config.maxBatchSize.toInt ≤ 0 := by
      have := Int32.not_lt.mp hle
      exact Int32.le_iff_toInt_le.mp this
    rw [Int.toNat_of_nonpos hmax] at hmost
    exact Nat.le_antisymm hmost hpos
  refine ⟨?_, fun hzero => hone ?_⟩
  · unfold exactByteSize
    split
    · rfl
    · next hle => rw [hone hle]
  · rw [hzero]
    decide

/-- The shape behind the batch size, which is left out when there is no batching. -/
theorem getByteSize_batched {dtype : DataType} {dims : List Int}
    (hdtype : getDataTypeByteSize dtype ≠ 0) (hdims : ∀ dim ∈ dims, 0 ≤ dim)
    (hone : config.maxBatchSize = 0 → batchSize = 1)
    (hrank : dims = [] → 0 < config.maxBatchSize)
    (hlt : getDataTypeByteSize dtype * dims.prod * batchSize < 9223372036854775808) :
    getByteSize dtype
        ((if config.maxBatchSize ≠ 0 then [(batchSize : Int)] else []) ++ dims) =
      getDataTypeByteSize dtype * dims.prod * batchSize := by
  have hprod : ((if config.maxBatchSize ≠ 0 then [(batchSize : Int)] else []) ++ dims).prod =
      dims.prod * batchSize := by
    split
    · rw [List.singleton_append, List.prod_cons, Int.mul_comm]
    · next hzero => rw [hone (not_not.mp hzero), List.nil_append, Nat.cast_one, Int.mul_one]
  have hne : (if config.maxBatchSize ≠ 0 then [(batchSize : Int)] else []) ++ dims ≠ [] := by
    split
    · exact List.cons_ne_nil _ _
    · next hzero =>
      intro hnil
      have hpos := hrank hnil
      rw [not_not.mp hzero] at hpos
      exact absurd hpos (by decide)
  have hnonneg : ∀ dim ∈ (if config.maxBatchSize ≠ 0 then [(batchSize : Int)] else []) ++ dims,
      0 ≤ dim := by
    rw [List.forall_mem_append]
    refine ⟨?_, hdims⟩
    split
    · exact List.forall_mem_singleton.mpr (Int.natCast_nonneg _)
    · exact List.forall_mem_nil _
  have hcount : 0 ≤ dims.prod * batchSize :=
    Int.mul_nonneg (prod_nonneg hdims) (Int.natCast_nonneg _)
  have hle : dims.prod * batchSize ≤ getDataTypeByteSize dtype * (dims.prod * batchSize) :=
    le_mul_of_one_le_left hcount (by omega)
  rw [Int.mul_assoc] at hlt ⊢
  refine getByteSize_of_count hdtype ?_ hcount hlt
  rw [getElementCount_exact hne hnonneg (hprod ▸ Int.lt_of_le_of_lt hle hlt), hprod]

/-- What the server knows of an input that was sent. -/
theorem served_of_normalizeInput
    (hvalid : (validateModelConfig cuda config expectedPlatform).isOk)
    (hmio : getInput config io.mio.name = .ok io.mio) (hsettled : io.Settled)
    (hmost : batchSize ≤ max 1 config.maxBatchSize.toInt.toNat) (hpos : 1 ≤ batchSize)
    (hbufs : io.bufs.length = batchSize)
    (hsmall : isFixedSizeDataType io.mio.dataType →
      SmallInput config batchSize io.mio served.dims)
    (h : normalizeInput config batchSize io.metaData = .ok served) :
    Served config batchSize io served := by
  obtain ⟨inputConfig, hinput, hdims, hname, hsize, hstring⟩ := normalizeInput_spec h
  obtain rfl : io.mio = inputConfig := Except.ok.inj (hmio.symm.trans hinput)
  have hmem := (getInput_spec hinput).1
  have hsame := elementCount_usedDims hvalid hmem hsettled.concrete hdims
  have htotal : io.totalByteSize = io.bufs.flatten.length := by
    rw [hsettled.total, hsettled.sizes, List.length_flatten]
  by_cases hfixed : isFixedSizeDataType io.mio.dataType
  · obtain ⟨hrank, hlt⟩ := hsmall hfixed
    obtain ⟨hexact, hone⟩ := exactByteSize_of_le hmost hpos io.mio.dataType served.dims
    have hdtype := getDataTypeByteSize_ne_zero
      (validTensor_of_validateModelConfig hvalid hmem).typed hfixed
    have hprod := prod_nonneg hsame.nonneg
    have hbyte : (1 : Int) ≤ getDataTypeByteSize io.mio.dataType := by omega
    have hbatch : (1 : Int) ≤ batchSize := by exact_mod_cast hpos
    -- each of the factors fits when their product does
    have hle : served.dims.prod ≤ getDataTypeByteSize io.mio.dataType * served.dims.prod :=
      le_mul_of_one_le_left hprod hbyte
    have hle' : getDataTypeByteSize io.mio.dataType * served.dims.prod ≤
        getDataTypeByteSize io.mio.dataType * served.dims.prod * batchSize :=
      le_mul_of_one_le_right (Int.le_trans hprod hle) hbatch
    rw [hexact] at hlt
    have hlt' := Int.lt_of_le_of_lt hle' hlt
    have hshape : io.needsShape = false := by
      refine hsettled.filled fun hnil => ?_
      rw [hnil] at hbufs
      exact absurd hbufs (Nat.ne_of_lt hpos)
    have hbyteSize : io.byteSize = getDataTypeByteSize io.mio.dataType * served.dims.prod := by
      rw [hsettled.byteSize hshape]
      exact getByteSize_of_count hdtype (hsame.count (Int.lt_of_le_of_lt hle hlt')) hprod hlt'
    have hentry : (uint64 io.byteSize : Int) =
        getDataTypeByteSize io.mio.dataType * served.dims.prod := by
      rw [hbyteSize]
      exact uint64_of_lt (Int.le_trans hprod hle) (by omega)
    have hflatten : io.bufs.flatten.length = uint64 io.byteSize * batchSize := by
      rw [Client.ResultImpl.length_flatten_eq (hsettled.fits hfixed), hbufs, Nat.mul_comm]
    have hcast : (io.bufs.flatten.length : Int) =
        getDataTypeByteSize io.mio.dataType * served.dims.prod * batchSize := by
      rw [hflatten, Nat.cast_mul, hentry]
    refine ⟨hname, hsame.shape, ?_, fun _ => ⟨_, hflatten, hsettled.fits hfixed⟩, fun _ => ?_⟩
    · have hbytes := fixedByteSize_exact hdtype hsame.nonneg hpos hrank
        (by rw [hexact]; omega)
      rw [← hsize hfixed, hexact, ← hcast] at hbytes
      exact_mod_cast hbytes
    · rw [hcast]
      exact getByteSize_batched hdtype hsame.nonneg hone hrank hlt
  · refine ⟨hname, hsame.shape, ?_, fun hfix => absurd hfix hfixed, fun hfix => absurd hfix hfixed⟩
    rw [hstring hfixed, ← htotal]
    exact if_neg hfixed

end

end FinBert.Custom
