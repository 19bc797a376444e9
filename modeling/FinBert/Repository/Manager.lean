import FinBert.Repository.Model

/-!
# The model repository manager

`ModelRepositoryManager` (`model_repository_manager.cc`) above the life cycle of the versions:
`Poll` compares the repository with the models that it knows, and `PollAndUpdate` goes through
what has changed, in the order of three sets, and calls `AsyncLoad` for one model after the
other. `ServerStatusManager` (`server_status.cc`) has an entry for every model that was ever
added.

* `Snapshot`, `stoll`: what the file system and the standard library answer.
* `poll`, `versionsToLoad`, `update`, `pollAndUpdate`: the functions of the manager.
-/

namespace FinBert.Repository

open FinBert.Serving

/-! ## The status of the models -/

/-- `ModelStatus` without the statistics of its versions, whose keys are those of
`versionStatus`. -/
structure ModelStatus where
  config : ModelConfig
  versionStatus : UnorderedMap Int ModelReadyState := ∅
deriving DecidableEq

/-- `server_status_.model_status()`. -/
abbrev ServerStatus := UnorderedMap String ModelStatus

/-- `InitForModel`, which always succeeds. -/
def initForModel (status : ServerStatus) (name : String) (config : ModelConfig) : ServerStatus :=
  status.insert name { config := config }

/-- `UpdateConfigForModel`. -/
def updateConfigForModel (status : ServerStatus) (name : String) (config : ModelConfig) :
    Except Status ServerStatus :=
  match status.find name with
  | none =>
    .error { code := .invalidArg
             message := "try to update config for non-existing model '" ++ name ++ "'" }
  | some ms => .ok (status.insert name { ms with config := config })

/-! ## Poll -/

/-- `ModelInfo`. -/
structure ModelInfo where
  mtimeNsec : Int
  modelConfig : ModelConfig
deriving DecidableEq

/-- `ModelInfoMap`. -/
abbrev ModelInfoMap := UnorderedMap String ModelInfo

/-- What one `Poll` finds in the repository: `GetDirectorySubdirs` of its path, in the order of
the set, `GetModifiedTime` of the directories, and the configuration that is read or autofilled
in them. -/
structure Snapshot where
  subdirs : Except Status (List String)
  modifiedTime : String → Int
  modelConfig : String → Except Status ModelConfig
  cuda : CudaDeviceCount

/-- The sets that `Poll` fills, in their order. -/
structure Changes where
  added : List String := []
  deleted : List String := []
  modified : List String := []
  unmodified : List String := []
deriving DecidableEq

/-- The new information on a model that is added or modified. -/
def loadInfo (snapshot : Snapshot) (child : String) (mtime : Int) : Except Status ModelInfo :=
  match snapshot.modelConfig child with
  | .error status => .error status
  | .ok read =>
    match getNormalizedModelConfig snapshot.cuda read with
    | .error status => .error status
    | .ok config =>
      let status := validateModelConfig snapshot.cuda config ""
      if !status.isOk then .error status
      else if config.name ≠ child then
        .error { code := .invalidArg
                 message := "unexpected directory name '" ++ child ++ "' for model '" ++
                   config.name ++ "', directory name must equal model name" }
      else .ok { mtimeNsec := mtime, modelConfig := config }

/-- `new_infos.emplace` of a model. -/
def emplaceInfo (newInfos : ModelInfoMap) (child : String) (info : Except Status ModelInfo) :
    Except Status ModelInfoMap :=
  if (newInfos.find child).isSome then
    .error { code := .alreadyExists
             message := "unexpected model info for model '" ++ child ++ "'" }
  else info.map (newInfos.insert child ·)

/-- One turn of the loop of `Poll`. -/
def pollChild (infos : ModelInfoMap) (snapshot : Snapshot) (child : String) (changes : Changes)
    (newInfos : ModelInfoMap) : Except Status (Changes × ModelInfoMap) :=
  let mtime := snapshot.modifiedTime child
  match infos.find child with
  | none =>
    (emplaceInfo newInfos child (loadInfo snapshot child mtime)).map
      ({ changes with added := changes.added ++ [child] }, ·)
  | some info =>
    if info.mtimeNsec < mtime then
      (emplaceInfo newInfos child (loadInfo snapshot child mtime)).map
        ({ changes with modified := changes.modified ++ [child] }, ·)
    else
      (emplaceInfo newInfos child (.ok info)).map
        ({ changes with unmodified := changes.unmodified ++ [child] }, ·)

/-- The loop of `Poll`. -/
def pollChildren (infos : ModelInfoMap) (snapshot : Snapshot) :
    List String → Changes → ModelInfoMap → Except Status (Changes × ModelInfoMap)
  | [], changes, newInfos => .ok (changes, newInfos)
  | child :: children, changes, newInfos =>
    match pollChild infos snapshot child changes newInfos with
    | .error status => .error status
    | .ok (changes, newInfos) => pollChildren infos snapshot children changes newInfos

/-- The names in `infos_` that `Poll` has not met. -/
def Changes.deletedOf (changes : Changes) (infos : ModelInfoMap) : List String :=
  (infos.keys.filter fun name =>
    name ∉ changes.added ∧ name ∉ changes.modified ∧ name ∉ changes.unmodified).insertionSort
      (· ≤ ·)

/-- `Poll`: the four sets and the new `infos_`, which stay as they were after an error. -/
def poll (infos : ModelInfoMap) (snapshot : Snapshot) : Except Status (Changes × ModelInfoMap) :=
  match snapshot.subdirs with
  | .error status => .error status
  | .ok subdirs =>
    (pollChildren infos snapshot subdirs {} ∅).map fun (changes, newInfos) =>
      ({ changes with deleted := changes.deletedOf infos }, newInfos)

/-! ## VersionsToLoad -/

/-- What `std::stoll` throws. -/
inductive StollError
  | invalidArgument
  | outOfRange
deriving DecidableEq

/-- `isspace` in the default locale. -/
def isSpace (c : Char) : Bool := c = ' ' || (9 ≤ c.toNat && c.toNat ≤ 13)

/-- The digits in front of the rest of a text. -/
def digitsValue (text : List Char) : Option Nat :=
  let digits := text.takeWhile Char.isDigit
  if digits.isEmpty then none
  else some (digits.foldl (fun n c => 10 * n + (c.toNat - '0'.toNat)) 0)

/-- `std::stoll`. -/
def stoll (text : String) : Except StollError Int :=
  let chars := text.toList.dropWhile isSpace
  let value : Option Int :=
    match chars with
    | '-' :: rest => (digitsValue rest).map fun n => -(n : Int)
    | '+' :: rest => (digitsValue rest).map Int.ofNat
    | rest => (digitsValue rest).map Int.ofNat
  match value with
  | none => .error .invalidArgument
  | some n =>
    if -9223372036854775808 ≤ n ∧ n ≤ 9223372036854775807 then .ok n else .error .outOfRange

/-- How a function ends that does not succeed: with a status, or with the exception of `stoll`
that nothing catches. -/
inductive Failure
  | status (status : Status)
  | outOfRange
deriving DecidableEq

/-- Insertion into a `std::set` that is ordered by `std::greater`. -/
def insertVersion (version : Int) (versions : List Int) : List Int :=
  if version ∈ versions then versions else versions.orderedInsert (· ≥ ·) version

/-- The loop over the subdirectories: `existing_versions`. -/
def existingVersions : List String → List Int → Except Failure (List Int)
  | [], existing => .ok existing
  | subdir :: subdirs, existing =>
    match stoll subdir with
    | .ok version => existingVersions subdirs (insertVersion version existing)
    | .error .invalidArgument => existingVersions subdirs existing
    | .error .outOfRange => .error .outOfRange

/-- The loop over the specific versions. One that is not present is inserted, so that it is
present when it is listed again. -/
def specificVersions : List Int → List Int → List Int
  | [], _ => []
  | version :: versions, existing =>
    if version ∈ existing then version :: specificVersions versions existing
    else specificVersions versions (insertVersion version existing)

/-- `VersionsToLoad`, with what `GetDirectorySubdirs` answers for the directory of the model. -/
def versionsToLoad (subdirs : Except Status (List String)) (config : ModelConfig) :
    Except Failure (List Int) :=
  match subdirs with
  | .error status => .error (.status status)
  | .ok subdirs =>
    (existingVersions subdirs []).map fun existing =>
      match config.versionPolicy with
      | some (.specific versions) => specificVersions versions existing
      | some (.latest numVersions) => existing.take numVersions
      | _ => existing

/-! ## PollAndUpdate -/

/-- `ModelRepositoryManager`, apart from the life cycle. -/
structure ModelRepositoryManager where
  pollingEnabled : Bool := true
  infos : ModelInfoMap := ∅
  status : ServerStatus := ∅
deriving DecidableEq

/-- The set that a model is in. -/
inductive Change
  | added
  | modified
  | deleted
deriving DecidableEq

/-- What `PollAndUpdate` goes through. -/
def Changes.work (changes : Changes) : List (Change × String) :=
  changes.added.map (.added, ·) ++ changes.modified.map (.modified, ·) ++
    changes.deleted.map (.deleted, ·)

namespace ModelRepositoryManager

/-- `GetModelConfig`. -/
def getModelConfig (m : ModelRepositoryManager) (name : String) : Except Status ModelConfig :=
  match m.infos.find name with
  | none =>
    .error { code := .notFound, message := "no configuration for model '" ++ name ++ "'" }
  | some info => .ok info.modelConfig

/-- The status of a model that is loaded for the first time, or again. -/
def trackStatus (m : ModelRepositoryManager) (change : Change) (name : String)
    (config : ModelConfig) : Except Status ServerStatus :=
  match change with
  | .added => .ok (initForModel m.status name config)
  | _ => updateConfigForModel m.status name config

/-- The bodies of the three loops of `PollAndUpdate`, up to the call of `AsyncLoad`, with what
`GetDirectorySubdirs` answers for the directory of the model. -/
def update (m : ModelRepositoryManager) (subdirs : Except Status (List String))
    (change : Change) (name : String) : ModelRepositoryManager × Except Failure LoadCall :=
  if change = .deleted then (m, .ok { name := name, versions := [], config := {} })
  else
    match m.getModelConfig name with
    | .error status => (m, .error (.status status))
    | .ok config =>
      match m.trackStatus change name config with
      | .error status => (m, .error (.status status))
      | .ok status =>
        ({ m with status := status },
          (versionsToLoad subdirs config).map fun versions =>
            { name := name, versions := versions, config := config })

/-- The three loops of `PollAndUpdate`: the calls of `AsyncLoad`, and how the loops end. -/
def updates (dirs : String → Except Status (List String)) :
    List (Change × String) → ModelRepositoryManager →
      ModelRepositoryManager × List LoadCall × Except Failure Unit
  | [], m => (m, [], .ok ())
  | (change, name) :: work, m =>
    match m.update (dirs name) change name with
    | (m, .error failure) => (m, [], .error failure)
    | (m, .ok call) =>
      let (m, calls, result) := updates dirs work m
      (m, call :: calls, result)

/-- `PollAndUpdate`. -/
def pollAndUpdate (m : ModelRepositoryManager) (snapshot : Snapshot)
    (dirs : String → Except Status (List String)) :
    ModelRepositoryManager × List LoadCall × Except Failure Unit :=
  if !m.pollingEnabled then
    (m, [], .error (.status { code := .invalid, message := "polling is disabled" }))
  else
    match poll m.infos snapshot with
    | .error status => (m, [], .error (.status status))
    | .ok (changes, infos) =>
      let m := { m with infos := infos }
      if changes.added.isEmpty && changes.deleted.isEmpty && changes.modified.isEmpty then
        (m, [], .ok ())
      else updates dirs changes.work m

end ModelRepositoryManager

example : (["12", " +7rc1", "-3", "99999999999999999999", "v1"].map stoll) =
    [.ok 12, .ok 7, .ok (-3), .error .outOfRange, .error .invalidArgument] := by decide

end FinBert.Repository
