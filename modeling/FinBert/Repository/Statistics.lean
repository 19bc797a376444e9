import FinBert.Repository.Manager
import Mathlib.Algebra.BigOperators.Group.List.Basic
import Mathlib.Data.List.Induction
import Mathlib.Data.Nat.ModEq

/-!
# The statistics of the server

`ServerStatusManager` (`server_status.cc`) counts the requests for each version of a model and each
batch size, and adds up the time that they took. The entry of a version or of a batch size is made
by the first call that needs it, of either of two functions.

Results:
1. `updateFailedInferStats_eq`, `updateSuccessInferStats_eq`: all branches update an entry in the
   same way, where one that is missing counts as zero.
2. `SameConfigs`: without the statistics, the status is that of the repository manager.
3. `run_consistent`: the statistics are those of the calls.
-/

namespace FinBert.Repository.ServerStatusManager

open FinBert.Serving

/-! ## The messages -/

/-- `StatDuration`. -/
structure StatDuration where
  count : UInt64 := 0
  totalTimeNs : UInt64 := 0
deriving DecidableEq

/-- `InferRequestStats`. -/
structure InferRequestStats where
  success : StatDuration := {}
  failed : StatDuration := {}
  compute : StatDuration := {}
  queue : StatDuration := {}
deriving DecidableEq

/-- `ModelVersionStatus`, without the ready state, that only `Get` fills in. -/
structure ModelVersionStatus where
  inferStats : UnorderedMap UInt32 InferRequestStats := ∅
  modelExecutionCount : UInt64 := 0
  modelInferenceCount : UInt64 := 0
deriving DecidableEq

/-- `ModelStatus`. -/
structure ModelStatus where
  config : ModelConfig
  versionStatus : UnorderedMap Int ModelVersionStatus := ∅
deriving DecidableEq

/-- `server_status_.model_status()`. -/
abbrev ServerStatus := UnorderedMap String ModelStatus

/-! ## The functions -/

/-- `InitForModel`. -/
def initForModel (status : ServerStatus) (modelName : String) (modelConfig : ModelConfig) :
    ServerStatus :=
  status.insert modelName { config := modelConfig }

/-- `UpdateConfigForModel`. -/
def updateConfigForModel (status : ServerStatus) (modelName : String) (modelConfig : ModelConfig) :
    Except Status ServerStatus :=
  match status.find modelName with
  | none =>
    .error { code := .invalidArg
             message := "try to update config for non-existing model '" ++ modelName ++ "'" }
  | some ms => .ok (status.insert modelName { ms with config := modelConfig })

/-- `UpdateFailedInferStats`. The key of an entry is the batch size in 32 bits. -/
def updateFailedInferStats (status : ServerStatus) (modelName : String) (modelVersion : Int)
    (batchSize requestDurationNs : UInt64) : ServerStatus :=
  match status.find modelName with
  | none => status
  | some ms =>
    let mvs := ms.versionStatus
    match mvs.find modelVersion with
    | none =>
      let stats := { failed := { count := 1, totalTimeNs := requestDurationNs } }
      let versionStatus :=
        { inferStats := AList.insert batchSize.toUInt32 stats ∅ : ModelVersionStatus }
      status.insert modelName { ms with versionStatus := mvs.insert modelVersion versionStatus }
    | some versionStatus =>
      let is := versionStatus.inferStats
      let stats := match is.find batchSize.toUInt32 with
        | none => { failed := { count := 1, totalTimeNs := requestDurationNs } }
        | some stats =>
          { stats with
            failed :=
              { count := stats.failed.count + 1
                totalTimeNs := stats.failed.totalTimeNs + requestDurationNs } }
      let versionStatus := { versionStatus with inferStats := is.insert batchSize.toUInt32 stats }
      status.insert modelName { ms with versionStatus := mvs.insert modelVersion versionStatus }

/-- What `UpdateSuccessInferStats` sets where it has made the entry: `new_stats`. -/
def newStats (requestDurationNs queueDurationNs computeDurationNs : UInt64) : InferRequestStats :=
  { success := { count := 1, totalTimeNs := requestDurationNs }
    compute := { count := 1, totalTimeNs := computeDurationNs }
    queue := { count := 1, totalTimeNs := queueDurationNs } }

/-- What it sets where it has found the entry: `existing_stats`. -/
def existingStats (stats : InferRequestStats)
    (requestDurationNs queueDurationNs computeDurationNs : UInt64) : InferRequestStats :=
  { stats with
    success :=
      { count := stats.success.count + 1
        totalTimeNs := stats.success.totalTimeNs + requestDurationNs }
    compute :=
      { count := stats.compute.count + 1
        totalTimeNs := stats.compute.totalTimeNs + computeDurationNs }
    queue :=
      { count := stats.queue.count + 1
        totalTimeNs := stats.queue.totalTimeNs + queueDurationNs } }

/-- `UpdateSuccessInferStats`. -/
def updateSuccessInferStats (status : ServerStatus) (modelName : String) (modelVersion : Int)
    (batchSize : UInt64) (executionCnt : UInt32)
    (requestDurationNs queueDurationNs computeDurationNs : UInt64) : ServerStatus :=
  match status.find modelName with
  | none => status
  | some ms =>
    if batchSize = 0 then status
    else
      let mvs := ms.versionStatus
      let versionStatus : ModelVersionStatus := match mvs.find modelVersion with
        | none =>
          { modelInferenceCount := batchSize
            modelExecutionCount := executionCnt.toUInt64
            inferStats := AList.insert batchSize.toUInt32
              (newStats requestDurationNs queueDurationNs computeDurationNs) ∅ }
        | some versionStatus =>
          let is := versionStatus.inferStats
          { modelInferenceCount := versionStatus.modelInferenceCount + batchSize
            modelExecutionCount := versionStatus.modelExecutionCount + executionCnt.toUInt64
            inferStats := is.insert batchSize.toUInt32
              (match is.find batchSize.toUInt32 with
              | none => newStats requestDurationNs queueDurationNs computeDurationNs
              | some stats =>
                existingStats stats requestDurationNs queueDurationNs computeDurationNs) }
      status.insert modelName { ms with versionStatus := mvs.insert modelVersion versionStatus }

/-! ## Calls -/

/-- A call of one of the functions; each of them holds the mutex. -/
inductive Call
  | initForModel (modelName : String) (modelConfig : ModelConfig)
  | updateConfigForModel (modelName : String) (modelConfig : ModelConfig)
  | updateFailedInferStats (modelName : String) (modelVersion : Int)
      (batchSize requestDurationNs : UInt64)
  | updateSuccessInferStats (modelName : String) (modelVersion : Int) (batchSize : UInt64)
      (executionCnt : UInt32) (requestDurationNs queueDurationNs computeDurationNs : UInt64)

/-- The status after a call; one that fails leaves it as it is. -/
def call (status : ServerStatus) : Call → ServerStatus
  | .initForModel modelName modelConfig => initForModel status modelName modelConfig
  | .updateConfigForModel modelName modelConfig =>
    (updateConfigForModel status modelName modelConfig).toOption.getD status
  | .updateFailedInferStats modelName modelVersion batchSize requestDurationNs =>
    updateFailedInferStats status modelName modelVersion batchSize requestDurationNs
  | .updateSuccessInferStats modelName modelVersion batchSize executionCnt requestDurationNs
      queueDurationNs computeDurationNs =>
    updateSuccessInferStats status modelName modelVersion batchSize executionCnt requestDurationNs
      queueDurationNs computeDurationNs

/-- The status after the calls, one after the other. -/
def run (calls : List Call) (status : ServerStatus) : ServerStatus := calls.foldl call status

/-- A batch size fits its key, and that of a success is not zero. -/
def Call.Valid : Call → Prop
  | .updateFailedInferStats _ _ batchSize _ => batchSize.toNat < 2 ^ 32
  | .updateSuccessInferStats _ _ batchSize _ _ _ _ =>
    batchSize.toNat < 2 ^ 32 ∧ 1 ≤ batchSize.toNat
  | _ => True

/-! ## What the statistics should say -/

/-- The durations of a request that succeeded. -/
structure Durations where
  request : UInt64
  queue : UInt64
  compute : UInt64
deriving DecidableEq

/-- The duration of a failed request for a version with this batch size. -/
def Call.failure (modelName : String) (version : Int) (batchSize : UInt32) : Call → Option UInt64
  | .updateFailedInferStats name v b request =>
    if name = modelName ∧ v = version ∧ b = batchSize.toUInt64 then some request else none
  | _ => none

/-- The durations of a request that succeeded for a version with this batch size. -/
def Call.success (modelName : String) (version : Int) (batchSize : UInt32) :
    Call → Option Durations
  | .updateSuccessInferStats name v b _ request queue compute =>
    if name = modelName ∧ v = version ∧ b = batchSize.toUInt64 then
      some { request, queue, compute }
    else none
  | _ => none

/-- The durations of all failed requests for a version with this batch size. -/
def failures (modelName : String) (version : Int) (batchSize : UInt32) (calls : List Call) :
    List UInt64 :=
  calls.filterMap (·.failure modelName version batchSize)

/-- The durations of all requests that succeeded for a version with this batch size. -/
def successes (modelName : String) (version : Int) (batchSize : UInt32) (calls : List Call) :
    List Durations :=
  calls.filterMap (·.success modelName version batchSize)

/-- The count is the number of the durations, and the total time their sum, both in 64 bits. -/
structure StatDuration.Totals (stat : StatDuration) (durations : List UInt64) : Prop where
  count : stat.count.toNat = durations.length % 2 ^ 64
  totalTimeNs : stat.totalTimeNs.toNat = (durations.map UInt64.toNat).sum % 2 ^ 64

/-- The statistics of a batch size are those of these requests. -/
structure InferRequestStats.Totals (stats : InferRequestStats) (failed : List UInt64)
    (succeeded : List Durations) : Prop where
  success : stats.success.Totals (succeeded.map Durations.request)
  queue : stats.queue.Totals (succeeded.map Durations.queue)
  compute : stats.compute.Totals (succeeded.map Durations.compute)
  failed : stats.failed.Totals failed
  sameCounts : stats.compute.count = stats.success.count ∧ stats.queue.count = stats.success.count

/-- The status of a version; all zero where there is none. -/
def ModelStatus.version (ms : ModelStatus) (modelVersion : Int) : ModelVersionStatus :=
  (ms.versionStatus.find modelVersion).getD {}

/-- The statistics of a batch size; all zero where there are none. -/
def ModelVersionStatus.stats (versionStatus : ModelVersionStatus) (batchSize : UInt32) :
    InferRequestStats :=
  (versionStatus.inferStats.find batchSize).getD {}

/-- The sum over the recorded batch sizes of the batch size times its successes. -/
def ModelVersionStatus.inferences (versionStatus : ModelVersionStatus) : Nat :=
  (versionStatus.inferStats.entries.map fun e => e.1.toNat * e.2.success.count.toNat).sum

/-- The status of the model is that of the calls: exactly the batch sizes of calls are recorded,
each with the counts and total times of its calls, and the inferences are counted by batch size. -/
structure Consistent (modelName : String) (calls : List Call) (ms : ModelStatus) : Prop where
  recorded : ∀ (v : Int) (b : UInt32), ((ms.version v).inferStats.find b).isSome ↔
    failures modelName v b calls ≠ [] ∨ successes modelName v b calls ≠ []
  totals : ∀ (v : Int) (b : UInt32),
    ((ms.version v).stats b).Totals (failures modelName v b calls) (successes modelName v b calls)
  inferenceCount : ∀ v : Int,
    (ms.version v).modelInferenceCount.toNat = (ms.version v).inferences % 2 ^ 64

/-! ## The branches -/

/-- One more request of this duration. -/
def StatDuration.add (stat : StatDuration) (duration : UInt64) : StatDuration :=
  { count := stat.count + 1, totalTimeNs := stat.totalTimeNs + duration }

/-- The statistics of a batch size become those that `update` makes of them. -/
def ModelVersionStatus.updateStats (versionStatus : ModelVersionStatus) (batchSize : UInt32)
    (update : InferRequestStats → InferRequestStats) : ModelVersionStatus :=
  { versionStatus with
    inferStats :=
      versionStatus.inferStats.insert batchSize (update (versionStatus.stats batchSize)) }

/-- The status of a version is replaced. -/
def ModelStatus.setVersion (ms : ModelStatus) (modelVersion : Int)
    (versionStatus : ModelVersionStatus) : ModelStatus :=
  { ms with versionStatus := ms.versionStatus.insert modelVersion versionStatus }

/-- The statistics after a failed request. -/
def InferRequestStats.fail (stats : InferRequestStats) (duration : UInt64) : InferRequestStats :=
  { stats with failed := stats.failed.add duration }

/-- The statistics after a request that succeeded. -/
def InferRequestStats.succeed (stats : InferRequestStats) (durations : Durations) :
    InferRequestStats :=
  { stats with
    success := stats.success.add durations.request
    compute := stats.compute.add durations.compute
    queue := stats.queue.add durations.queue }

/-- The status of a version after a request that succeeded. -/
def ModelVersionStatus.succeed (versionStatus : ModelVersionStatus) (batchSize : UInt64)
    (executionCnt : UInt32) (durations : Durations) : ModelVersionStatus :=
  { versionStatus.updateStats batchSize.toUInt32 (·.succeed durations) with
    modelExecutionCount := versionStatus.modelExecutionCount + executionCnt.toUInt64
    modelInferenceCount := versionStatus.modelInferenceCount + batchSize }

theorem StatDuration.add_zero (duration : UInt64) :
    StatDuration.add {} duration = { count := 1, totalTimeNs := duration } :=
  congrArg (StatDuration.mk 1) (UInt64.zero_add duration)

theorem updateFailedInferStats_eq {status : ServerStatus} {modelName : String} {ms : ModelStatus}
    (hfind : status.find modelName = some ms) (v : Int) (b duration : UInt64) :
    updateFailedInferStats status modelName v b duration =
      status.insert modelName
        (ms.setVersion v ((ms.version v).updateStats b.toUInt32 (·.fail duration))) := by
  unfold updateFailedInferStats
  rw [hfind]
  dsimp only
  cases hversion : ms.versionStatus.find v with
  | none =>
    rw [← StatDuration.add_zero, ModelStatus.version, hversion]
    rfl
  | some versionStatus =>
    rw [ModelStatus.version, hversion, ModelVersionStatus.updateStats, ModelVersionStatus.stats]
    dsimp only [Option.getD_some]
    cases versionStatus.inferStats.find b.toUInt32 with
    | none =>
      dsimp only
      rw [← StatDuration.add_zero]
      rfl
    | some stats => rfl

theorem newStats_eq (durations : Durations) :
    newStats durations.request durations.queue durations.compute =
      InferRequestStats.succeed {} durations := by
  unfold newStats
  simp only [← StatDuration.add_zero]
  rfl

theorem updateSuccessInferStats_eq {status : ServerStatus} {modelName : String} {ms : ModelStatus}
    (hfind : status.find modelName = some ms) (v : Int) {b : UInt64} (hb : b ≠ 0)
    (executionCnt : UInt32) (durations : Durations) :
    updateSuccessInferStats status modelName v b executionCnt durations.request durations.queue
        durations.compute =
      status.insert modelName
        (ms.setVersion v ((ms.version v).succeed b executionCnt durations)) := by
  unfold updateSuccessInferStats
  rw [hfind, newStats_eq]
  dsimp only
  rw [if_neg hb]
  congr 1
  show ms.setVersion v _ = _
  congr 1
  cases hversion : ms.versionStatus.find v with
  | none =>
    rw [ModelStatus.version, hversion]
    show ModelVersionStatus.mk _ _ _ = ModelVersionStatus.mk _ (0 + _) (0 + _)
    rw [UInt64.zero_add, UInt64.zero_add]
    rfl
  | some versionStatus =>
    rw [ModelStatus.version, hversion]
    dsimp only [Option.getD_some, ModelVersionStatus.succeed, ModelVersionStatus.updateStats,
      ModelVersionStatus.stats]
    cases versionStatus.inferStats.find b.toUInt32 <;> rfl

/-! ## What one call changes -/

theorem version_setVersion (ms : ModelStatus) (v : Int) (versionStatus : ModelVersionStatus)
    (v' : Int) :
    (ms.setVersion v versionStatus).version v' =
      if v' = v then versionStatus else ms.version v' := by
  unfold ModelStatus.version ModelStatus.setVersion
  rw [UnorderedMap.find_insert_apply]
  split <;> rfl

theorem find_updateStats (versionStatus : ModelVersionStatus) (b : UInt32)
    (update : InferRequestStats → InferRequestStats) (b' : UInt32) :
    (versionStatus.updateStats b update).inferStats.find b' =
      if b' = b then some (update (versionStatus.stats b)) else versionStatus.inferStats.find b' :=
  UnorderedMap.find_insert_apply _ _ _ _

theorem toNat_add_eq {x d : UInt64} {n : Nat} (hx : x.toNat = n % 2 ^ 64) :
    (x + d).toNat = (n + d.toNat) % 2 ^ 64 := by
  rw [UInt64.toNat_add, hx, Nat.mod_add_mod]

theorem StatDuration.Totals.add {stat : StatDuration} {durations : List UInt64}
    (h : stat.Totals durations) (duration : UInt64) :
    (stat.add duration).Totals (durations ++ [duration]) where
  count := by
    rw [List.length_append]
    exact toNat_add_eq h.count
  totalTimeNs := by
    rw [List.map_append, List.sum_append, List.map_singleton, List.sum_singleton]
    exact toNat_add_eq h.totalTimeNs

theorem InferRequestStats.Totals.fail {stats : InferRequestStats} {failed : List UInt64}
    {succeeded : List Durations} (h : stats.Totals failed succeeded) (duration : UInt64) :
    (stats.fail duration).Totals (failed ++ [duration]) succeeded :=
  { h with failed := h.failed.add duration }

theorem InferRequestStats.Totals.succeed {stats : InferRequestStats} {failed : List UInt64}
    {succeeded : List Durations} (h : stats.Totals failed succeeded) (durations : Durations) :
    (stats.succeed durations).Totals failed (succeeded ++ [durations]) where
  success := by rw [List.map_append]; exact h.success.add _
  queue := by rw [List.map_append]; exact h.queue.add _
  compute := by rw [List.map_append]; exact h.compute.add _
  failed := h.failed
  sameCounts := ⟨congrArg (· + 1) h.sameCounts.1, congrArg (· + 1) h.sameCounts.2⟩

/-- A batch size that fits its key is the only one with this key. -/
theorem sameEntry_iff {b : UInt64} (hb : b.toNat < 2 ^ 32) (modelName : String) (v v' : Int)
    (b' : UInt32) :
    (modelName = modelName ∧ v = v' ∧ b = b'.toUInt64) ↔ v' = v ∧ b' = b.toUInt32 := by
  rw [and_iff_right rfl, ← UInt64.toNat_inj, ← UInt32.toNat_inj, UInt32.toNat_toUInt64,
    UInt64.toNat_toUInt32, Nat.mod_eq_of_lt hb]
  exact and_congr eq_comm eq_comm

theorem inferences_updateStats (versionStatus : ModelVersionStatus) (b : UInt32)
    (update : InferRequestStats → InferRequestStats) :
    (versionStatus.updateStats b update).inferences +
        b.toNat * (versionStatus.stats b).success.count.toNat =
      versionStatus.inferences +
        b.toNat * (update (versionStatus.stats b)).success.count.toNat := by
  have hsum := UnorderedMap.sum_insert versionStatus.inferStats b
    (update (versionStatus.stats b)) fun b stats => b.toNat * stats.success.count.toNat
  have hold : ((versionStatus.inferStats.find b).map fun stats =>
      b.toNat * stats.success.count.toNat).getD 0 =
      b.toNat * (versionStatus.stats b).success.count.toNat := by
    rw [ModelVersionStatus.stats]
    cases versionStatus.inferStats.find b with
    | none => exact (Nat.mul_zero _).symm
    | some stats => rfl
  rw [hold] at hsum
  exact hsum

theorem inferences_fail (versionStatus : ModelVersionStatus) (b : UInt32) (duration : UInt64) :
    (versionStatus.updateStats b (·.fail duration)).inferences = versionStatus.inferences :=
  Nat.add_right_cancel (inferences_updateStats versionStatus b (·.fail duration))

theorem inferences_succeed (versionStatus : ModelVersionStatus) (b : UInt32)
    (durations : Durations) :
    (versionStatus.updateStats b (·.succeed durations)).inferences ≡
      versionStatus.inferences + b.toNat [MOD 2 ^ 64] := by
  have hupdate := inferences_updateStats versionStatus b (·.succeed durations)
  have hcount : ((versionStatus.stats b).succeed durations).success.count.toNat ≡
      (versionStatus.stats b).success.count.toNat + 1 [MOD 2 ^ 64] := by
    show ((versionStatus.stats b).success.count + 1).toNat ≡ _ [MOD 2 ^ 64]
    rw [UInt64.toNat_add]
    exact Nat.mod_modEq _ _
  apply Nat.ModEq.add_right_cancel' (b.toNat * (versionStatus.stats b).success.count.toNat)
  rw [hupdate, Nat.add_assoc, Nat.add_comm b.toNat, ← Nat.mul_succ]
  exact (hcount.mul_left _).add_left _

/-- One entry is updated, for the requests of which there is one more. -/
theorem Consistent.update {modelName : String} {calls calls' : List Call} {ms : ModelStatus}
    (h : Consistent modelName calls ms) {v : Int} {b : UInt32}
    {update : InferRequestStats → InferRequestStats} {versionStatus : ModelVersionStatus}
    (hinferStats : versionStatus.inferStats = ((ms.version v).updateStats b update).inferStats)
    (hfailures : ∀ v' b', ¬ (v' = v ∧ b' = b) →
      failures modelName v' b' calls' = failures modelName v' b' calls)
    (hsuccesses : ∀ v' b', ¬ (v' = v ∧ b' = b) →
      successes modelName v' b' calls' = successes modelName v' b' calls)
    (hrecorded : failures modelName v b calls' ≠ [] ∨ successes modelName v b calls' ≠ [])
    (htotals : (update ((ms.version v).stats b)).Totals (failures modelName v b calls')
      (successes modelName v b calls'))
    (hcount : versionStatus.modelInferenceCount.toNat = versionStatus.inferences % 2 ^ 64) :
    Consistent modelName calls' (ms.setVersion v versionStatus) := by
  have hfind : ∀ v' b', ((ms.setVersion v versionStatus).version v').inferStats.find b' =
      if v' = v ∧ b' = b then some (update ((ms.version v).stats b))
      else (ms.version v').inferStats.find b' := by
    intro v' b'
    rw [version_setVersion]
    by_cases hv : v' = v
    · rw [if_pos hv, hinferStats, find_updateStats, hv]
      exact if_congr (and_iff_right rfl).symm rfl rfl
    · rw [if_neg hv, if_neg fun hboth => hv hboth.1]
  refine ⟨fun v' b' => ?_, fun v' b' => ?_, fun v' => ?_⟩
  · rw [hfind]
    by_cases hentry : v' = v ∧ b' = b
    · rw [if_pos hentry, hentry.1, hentry.2]
      exact iff_of_true rfl hrecorded
    · rw [if_neg hentry, hfailures v' b' hentry, hsuccesses v' b' hentry]
      exact h.recorded v' b'
  · rw [ModelVersionStatus.stats, hfind]
    by_cases hentry : v' = v ∧ b' = b
    · rw [if_pos hentry, hentry.1, hentry.2]
      exact htotals
    · rw [if_neg hentry, hfailures v' b' hentry, hsuccesses v' b' hentry]
      exact h.totals v' b'
  · rw [version_setVersion]
    split
    · exact hcount
    · exact h.inferenceCount v'

theorem failures_concat (modelName : String) (v : Int) (b : UInt32) (calls : List Call) (c : Call) :
    failures modelName v b (calls ++ [c]) =
      failures modelName v b calls ++ (c.failure modelName v b).toList := by
  rw [failures, List.filterMap_append, List.filterMap_cons]
  cases c.failure modelName v b <;> rfl

theorem successes_concat (modelName : String) (v : Int) (b : UInt32) (calls : List Call)
    (c : Call) :
    successes modelName v b (calls ++ [c]) =
      successes modelName v b calls ++ (c.success modelName v b).toList := by
  rw [successes, List.filterMap_append, List.filterMap_cons]
  cases c.success modelName v b <;> rfl

theorem failure_failed (modelName : String) (v' : Int) (b' : UInt32) (v : Int) {b : UInt64}
    (hb : b.toNat < 2 ^ 32) (duration : UInt64) :
    (Call.updateFailedInferStats modelName v b duration).failure modelName v' b' =
      if v' = v ∧ b' = b.toUInt32 then some duration else none :=
  if_congr (sameEntry_iff hb modelName v v' b') rfl rfl

theorem success_succeeded (modelName : String) (v' : Int) (b' : UInt32) (v : Int) {b : UInt64}
    (hb : b.toNat < 2 ^ 32) (executionCnt : UInt32) (request queue compute : UInt64) :
    (Call.updateSuccessInferStats modelName v b executionCnt request queue compute).success
        modelName v' b' =
      if v' = v ∧ b' = b.toUInt32 then some { request, queue, compute : Durations } else none :=
  if_congr (sameEntry_iff hb modelName v v' b') rfl rfl

/-- A call that neither fails nor succeeds for the model changes no statistics. -/
theorem Consistent.concat {modelName : String} {calls : List Call} {ms ms' : ModelStatus}
    (h : Consistent modelName calls ms) (hsame : ms'.versionStatus = ms.versionStatus) {c : Call}
    (hfailure : ∀ v b, c.failure modelName v b = none)
    (hsuccess : ∀ v b, c.success modelName v b = none) :
    Consistent modelName (calls ++ [c]) ms' := by
  have hfailures : ∀ v b, failures modelName v b (calls ++ [c]) = failures modelName v b calls :=
    fun v b => by rw [failures_concat, hfailure]; exact List.append_nil _
  have hsuccesses : ∀ v b, successes modelName v b (calls ++ [c]) = successes modelName v b calls :=
    fun v b => by rw [successes_concat, hsuccess]; exact List.append_nil _
  have hversion : ∀ v, ms'.version v = ms.version v := fun v => by
    rw [ModelStatus.version, hsame]
    rfl
  refine ⟨fun v b => ?_, fun v b => ?_, fun v => ?_⟩
  · rw [hversion, hfailures, hsuccesses]
    exact h.recorded v b
  · rw [hversion, hfailures, hsuccesses]
    exact h.totals v b
  · rw [hversion]
    exact h.inferenceCount v

theorem Consistent.failed {modelName : String} {calls : List Call} {ms : ModelStatus}
    (h : Consistent modelName calls ms) (v : Int) {b : UInt64} (hb : b.toNat < 2 ^ 32)
    (duration : UInt64) :
    Consistent modelName (calls ++ [.updateFailedInferStats modelName v b duration])
      (ms.setVersion v ((ms.version v).updateStats b.toUInt32 (·.fail duration))) := by
  have hsuccesses : ∀ v' b', successes modelName v' b'
      (calls ++ [.updateFailedInferStats modelName v b duration]) =
      successes modelName v' b' calls :=
    fun v' b' => (successes_concat modelName v' b' calls _).trans (List.append_nil _)
  have hfailures : failures modelName v b.toUInt32
      (calls ++ [.updateFailedInferStats modelName v b duration]) =
      failures modelName v b.toUInt32 calls ++ [duration] := by
    rw [failures_concat, failure_failed modelName v _ v hb, if_pos ⟨rfl, rfl⟩]
    rfl
  apply h.update rfl
  · intro v' b' hother
    rw [failures_concat, failure_failed modelName v' b' v hb, if_neg hother]
    exact List.append_nil _
  · exact fun v' b' _ => hsuccesses v' b'
  · exact .inl (by rw [hfailures]; exact List.concat_ne_nil _ _)
  · rw [hfailures, hsuccesses]
    exact (h.totals v _).fail duration
  · rw [inferences_fail]
    exact h.inferenceCount v

theorem Consistent.succeeded {modelName : String} {calls : List Call} {ms : ModelStatus}
    (h : Consistent modelName calls ms) (v : Int) {b : UInt64} (hb : b.toNat < 2 ^ 32)
    (executionCnt : UInt32) (request queue compute : UInt64) :
    Consistent modelName
      (calls ++ [.updateSuccessInferStats modelName v b executionCnt request queue compute])
      (ms.setVersion v ((ms.version v).succeed b executionCnt { request, queue, compute })) := by
  have hfailures : ∀ v' b', failures modelName v' b'
      (calls ++ [.updateSuccessInferStats modelName v b executionCnt request queue compute]) =
      failures modelName v' b' calls :=
    fun v' b' => (failures_concat modelName v' b' calls _).trans (List.append_nil _)
  have hsuccesses : successes modelName v b.toUInt32
      (calls ++ [.updateSuccessInferStats modelName v b executionCnt request queue compute]) =
      successes modelName v b.toUInt32 calls ++ [{ request, queue, compute : Durations }] := by
    rw [successes_concat, success_succeeded modelName v _ v hb, if_pos ⟨rfl, rfl⟩]
    rfl
  apply h.update (show ((ms.version v).succeed b executionCnt
    { request, queue, compute }).inferStats = ((ms.version v).updateStats b.toUInt32
      (·.succeed { request, queue, compute })).inferStats from rfl)
  · exact fun v' b' _ => hfailures v' b'
  · intro v' b' hother
    rw [successes_concat, success_succeeded modelName v' b' v hb, if_neg hother]
    exact List.append_nil _
  · exact .inr (by rw [hsuccesses]; exact List.concat_ne_nil _ _)
  · rw [hfailures, hsuccesses]
    exact (h.totals v _).succeed _
  · have hcount := inferences_succeed (ms.version v) b.toUInt32 { request, queue, compute }
    rw [UInt64.toNat_toUInt32, Nat.mod_eq_of_lt hb] at hcount
    exact (toNat_add_eq (h.inferenceCount v)).trans hcount.symm

/-! ## Calls for other models -/

/-- A call for another model leaves the status of this one. -/
theorem find_updateFailedInferStats_ne (status : ServerStatus) {modelName name : String}
    (hne : modelName ≠ name) (v : Int) (b duration : UInt64) :
    (updateFailedInferStats status name v b duration).find modelName = status.find modelName := by
  cases hfind : status.find name with
  | none => rw [updateFailedInferStats, hfind]
  | some ms =>
    rw [updateFailedInferStats_eq hfind, UnorderedMap.find_insert_apply, if_neg hne]

theorem find_updateSuccessInferStats_ne (status : ServerStatus) {modelName name : String}
    (hne : modelName ≠ name) (v : Int) (b : UInt64) (executionCnt : UInt32)
    (request queue compute : UInt64) :
    (updateSuccessInferStats status name v b executionCnt request queue compute).find modelName =
      status.find modelName := by
  cases hfind : status.find name with
  | none => rw [updateSuccessInferStats, hfind]
  | some ms =>
    by_cases hb : b = 0
    · rw [updateSuccessInferStats, hfind]
      dsimp only
      rw [if_pos hb]
    · rw [updateSuccessInferStats_eq hfind v hb executionCnt { request, queue, compute },
        UnorderedMap.find_insert_apply, if_neg hne]

theorem find_updateConfigForModel (status : ServerStatus) (modelName name : String)
    (config : ModelConfig) {ms : ModelStatus} (hfind : status.find modelName = some ms) :
    ∃ ms', ((updateConfigForModel status name config).toOption.getD status).find modelName =
      some ms' ∧ ms'.versionStatus = ms.versionStatus := by
  unfold updateConfigForModel
  cases hname : status.find name with
  | none => exact ⟨ms, hfind, rfl⟩
  | some old =>
    dsimp only [Except.toOption, Option.getD_some]
    rw [UnorderedMap.find_insert_apply]
    split
    · next heq =>
      subst heq
      rw [hfind] at hname
      cases hname
      exact ⟨_, rfl, rfl⟩
    · exact ⟨ms, hfind, rfl⟩

/-! ## The status without the statistics -/

/-- A status without statistics has the same models, with the same configurations. -/
def SameConfigs (status : ServerStatus) (models : Repository.ServerStatus) : Prop :=
  ∀ name : String,
    (status.find name).map ModelStatus.config = (models.find name).map Repository.ModelStatus.config

theorem SameConfigs.insert {status : ServerStatus} {models : Repository.ServerStatus}
    (h : SameConfigs status models) (name : String) {ms : ModelStatus}
    {model : Repository.ModelStatus} (hconfig : ms.config = model.config) :
    SameConfigs (status.insert name ms) (models.insert name model) := by
  intro name'
  rw [UnorderedMap.find_insert_apply, UnorderedMap.find_insert_apply]
  split
  · exact congrArg some hconfig
  · exact h name'

theorem SameConfigs.initForModel {status : ServerStatus} {models : Repository.ServerStatus}
    (h : SameConfigs status models) (name : String) (config : ModelConfig) :
    SameConfigs (initForModel status name config) (Repository.initForModel models name config) :=
  h.insert name rfl

/-- `UpdateConfigForModel` fails in the same cases. -/
theorem SameConfigs.updateConfigForModel {status : ServerStatus} {models : Repository.ServerStatus}
    (h : SameConfigs status models) (name : String) (config : ModelConfig) :
    match updateConfigForModel status name config,
        Repository.updateConfigForModel models name config with
    | .ok status, .ok models => SameConfigs status models
    | .error e, .error e' => e = e'
    | _, _ => False := by
  have hname := h name
  unfold ServerStatusManager.updateConfigForModel Repository.updateConfigForModel
  cases hfind : status.find name with
  | none =>
    rw [hfind] at hname
    rw [Option.map_eq_none_iff.mp hname.symm]
  | some ms =>
    rw [hfind] at hname
    obtain ⟨model, hmodel, -⟩ := Option.map_eq_some_iff.mp hname.symm
    rw [hmodel]
    exact h.insert name rfl

/-! ## The statistics of a run -/

/-- One call keeps the status of the model consistent. -/
theorem consistent_call {modelName : String} {calls : List Call} {status : ServerStatus}
    {ms : ModelStatus} (hfind : status.find modelName = some ms)
    (h : Consistent modelName calls ms) {c : Call} (hvalid : c.Valid)
    (hinit : ∀ config, c ≠ .initForModel modelName config) :
    ∃ ms', (call status c).find modelName = some ms' ∧
      Consistent modelName (calls ++ [c]) ms' := by
  cases c with
  | initForModel name config =>
    have hne : modelName ≠ name := fun heq => hinit config (by rw [heq])
    refine ⟨ms, ?_, h.concat rfl (fun _ _ => rfl) fun _ _ => rfl⟩
    exact (UnorderedMap.find_insert_apply _ _ _ _).trans ((if_neg hne).trans hfind)
  | updateConfigForModel name config =>
    obtain ⟨ms', hfind', hsame⟩ := find_updateConfigForModel status modelName name config hfind
    exact ⟨ms', hfind', h.concat hsame (fun _ _ => rfl) fun _ _ => rfl⟩
  | updateFailedInferStats name v b duration =>
    by_cases hname : modelName = name
    · subst hname
      refine ⟨_, ?_, h.failed v hvalid duration⟩
      rw [call, updateFailedInferStats_eq hfind, UnorderedMap.find_insert_apply, if_pos rfl]
    · refine ⟨ms, (find_updateFailedInferStats_ne status hname v b duration).trans hfind,
        h.concat rfl (fun _ _ => ?_) fun _ _ => rfl⟩
      exact if_neg fun hthis => hname hthis.1.symm
  | updateSuccessInferStats name v b executionCnt request queue compute =>
    obtain ⟨hb, hpos⟩ : b.toNat < 2 ^ 32 ∧ 1 ≤ b.toNat := hvalid
    have hne : b ≠ 0 := fun heq => by
      rw [heq] at hpos
      exact absurd hpos (by decide)
    by_cases hname : modelName = name
    · subst hname
      refine ⟨_, ?_, h.succeeded v hb executionCnt request queue compute⟩
      rw [call, updateSuccessInferStats_eq hfind v hne executionCnt { request, queue, compute },
        UnorderedMap.find_insert_apply, if_pos rfl]
    · refine ⟨ms, (find_updateSuccessInferStats_ne status hname v b executionCnt request queue
        compute).trans hfind, h.concat rfl (fun _ _ => rfl) fun _ _ => ?_⟩
      exact if_neg fun hthis => hname hthis.1.symm

/-- A model for which there were no calls. -/
theorem consistent_nil (modelName : String) (config : ModelConfig) :
    Consistent modelName [] { config := config } where
  recorded := fun _ _ =>
    iff_of_false Bool.false_ne_true (not_or.mpr ⟨not_not.mpr rfl, not_not.mpr rfl⟩)
  totals := fun _ _ =>
    { success := ⟨rfl, rfl⟩
      queue := ⟨rfl, rfl⟩
      compute := ⟨rfl, rfl⟩
      failed := ⟨rfl, rfl⟩
      sameCounts := ⟨rfl, rfl⟩ }
  inferenceCount := fun _ => rfl

/-- After any calls that follow `InitForModel` of a model, its statistics are those of the
calls. -/
theorem run_consistent (status : ServerStatus) (modelName : String) (config : ModelConfig)
    (calls : List Call) (hvalid : ∀ c ∈ calls, c.Valid)
    (hinit : ∀ c ∈ calls, ∀ config', c ≠ .initForModel modelName config') :
    ∃ ms, (run calls (initForModel status modelName config)).find modelName = some ms ∧
      Consistent modelName calls ms := by
  induction calls using List.reverseRecOn with
  | nil =>
    refine ⟨_, ?_, consistent_nil modelName config⟩
    exact (UnorderedMap.find_insert_apply _ _ _ _).trans (if_pos rfl)
  | append_singleton calls c ih =>
    obtain ⟨ms, hfind, hconsistent⟩ := ih
      (fun c hmem => hvalid c (List.mem_append_left _ hmem))
      (fun c hmem => hinit c (List.mem_append_left _ hmem))
    rw [run, List.foldl_concat]
    exact consistent_call hfind hconsistent (hvalid c List.mem_concat_self)
      (hinit c List.mem_concat_self)

/-- A failed request makes the entry, and one that succeeds finds it; another one is for another
version. -/
theorem run_consistent_failedFirst :
    ∃ ms, (run [.updateFailedInferStats "m" 1 8 5, .updateSuccessInferStats "m" 1 8 1 7 2 3,
        .updateSuccessInferStats "m" 2 1 1 4 1 1] (initForModel ∅ "m" {})).find "m" = some ms ∧
      Consistent "m" [.updateFailedInferStats "m" 1 8 5, .updateSuccessInferStats "m" 1 8 1 7 2 3,
        .updateSuccessInferStats "m" 2 1 1 4 1 1] ms := by
  apply run_consistent
  · intro c hmem
    rcases hmem with _ | ⟨_, _ | ⟨_, _ | ⟨_, ⟨⟩⟩⟩⟩
    · exact (by decide : (8 : UInt64).toNat < 2 ^ 32)
    · exact (by decide : (8 : UInt64).toNat < 2 ^ 32 ∧ 1 ≤ (8 : UInt64).toNat)
    · exact (by decide : (1 : UInt64).toNat < 2 ^ 32 ∧ 1 ≤ (1 : UInt64).toNat)
  · rintro c hmem config' rfl
    rcases hmem with _ | ⟨_, _ | ⟨_, _ | ⟨_, ⟨⟩⟩⟩⟩

end FinBert.Repository.ServerStatusManager
