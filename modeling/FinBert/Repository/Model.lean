import FinBert.Lib.Transition
import FinBert.Serving.Validation
import Mathlib.Data.List.Sort

/-!
# The life cycle of model versions

`BackendLifeCycle` of `model_repository_manager.cc`: one `BackendInfo` for each version of a
model, and the threads that act on it. A thread that creates a backend and a callback that
destroys one run one locked section of the entry's mutex at a time; an `AsyncLoad` call holds
the mutex of the map and runs one locked section for each version.

* `load`, `unload`, `triggerNextAction`: the functions that are called under the entry's mutex.
* `Entry.after`: what the threads and the holders of a handle do to an entry.
* `BackendLifeCycle.step`: the whole map, with the `AsyncLoad` call that is running.

What no function of the code reads is kept beside it: the last request and the last build of a
version, how often the two branches that report an inconsistency were taken, and the calls.
-/

namespace FinBert.Repository

open FinBert.Serving

/-- `ModelReadyState` (`server_status.proto`). -/
inductive ModelReadyState
  | unknown
  | ready
  | unavailable
  | loading
  | unloading
deriving DecidableEq, Repr

/-- The number of a state, as messages show it. -/
def ModelReadyState.number : ModelReadyState → Nat
  | .unknown => 0
  | .ready => 1
  | .unavailable => 2
  | .loading => 3
  | .unloading => 4

/-- `ActionType`. -/
inductive ActionType
  | noAction
  | load
  | unload
deriving DecidableEq, Repr

/-- `InferenceBackend`: the factory that made it, and the configuration it was made from. -/
structure InferenceBackend where
  factory : Platform
  config : ModelConfig
deriving DecidableEq

/-- `BackendHandleImpl`, with the number of references to it outside of `handle_`. -/
structure BackendHandle where
  is : Option InferenceBackend
  refs : Nat := 0
deriving DecidableEq

/-- `BackendInfo`. -/
structure BackendInfo where
  platform : Platform
  state : ModelReadyState
  nextAction : ActionType
  modelConfig : ModelConfig
  handle : Option BackendHandle := none
deriving DecidableEq

/-- What was asked of a version. -/
inductive Request
  | load (config : ModelConfig)
  | unload
deriving DecidableEq

/-- The configuration that `CreateBackendHandle` used, and the status that it got. -/
structure Build where
  config : ModelConfig
  status : Status
deriving DecidableEq

/-- An entry of the map.

* `creations`: the threads in `CreateBackendHandle`, with the configuration that each has
  copied.
* `released`: the handles that `handle_` has let go of and that are referenced elsewhere.
* `callbacks`: the threads that run the `OnDestroy` callback. -/
structure Entry extends BackendInfo where
  creations : List (Option ModelConfig) := []
  released : List BackendHandle := []
  callbacks : List (Option InferenceBackend) := []
  lastRequest : Option Request := none
  lastBuild : Option Build := none
  sanityErrors : Nat := 0
  alreadyExists : Nat := 0
deriving DecidableEq

/-- `BackendInfo(MODEL_UNKNOWN, NO_ACTION, model_config)`. -/
def Entry.new (config : ModelConfig) : Entry where
  platform := getPlatform config.platform
  state := .unknown
  nextAction := .noAction
  modelConfig := config

/-! ## Under the mutex of an entry -/

/-- `handle_.reset()`. The destructor of a handle that nobody else references starts the
callback. -/
def resetHandle (e : Entry) : Entry :=
  match e.handle with
  | none => e
  | some handle =>
    if handle.refs = 0 then { e with handle := none, callbacks := e.callbacks ++ [handle.is] }
    else { e with handle := none, released := e.released ++ [handle] }

/-- `Unload`. -/
def unload (name : String) (version : Int) (e : Entry) : Status × Entry :=
  let e := { e with nextAction := .noAction }
  match e.state with
  | .ready => (.ok, resetHandle { e with state := .unloading })
  | .loading => (.ok, { e with nextAction := .unload })
  | .unloading => (.ok, { e with nextAction := .unload })
  | state =>
    ({ code := .notFound
       message := "tried to unload model '" ++ name ++ "' version " ++ toString version ++
         " which is at model state: " ++ toString state.number }, e)

/-- `Load`. -/
def load (name : String) (version : Int) (e : Entry) : Status × Entry :=
  let e := { e with nextAction := .noAction }
  match e.state with
  | .ready =>
    ({ code := .alreadyExists
       message := "tried to load model '" ++ name ++ "' version " ++ toString version ++
         " which is being served" }, { e with alreadyExists := e.alreadyExists + 1 })
  | .loading => (.ok, { e with nextAction := .load })
  | .unloading => (.ok, { e with nextAction := .load })
  | _ => (.ok, { e with state := .loading, creations := e.creations ++ [none] })

/-- `TriggerNextAction`. -/
def triggerNextAction (name : String) (version : Int) (e : Entry) : Status × Entry :=
  let nextAction := e.nextAction
  let e := { e with nextAction := .noAction }
  match nextAction with
  | .load => load name version (unload name version e).2
  | .unload => unload name version e
  | .noAction => (.ok, e)

/-- What `AsyncLoad` does to a version under `force_unload`. -/
def requestUnload (name : String) (version : Int) (e : Entry) : Entry :=
  { (unload name version e).2 with lastRequest := some .unload }

/-- What `AsyncLoad` does to a version that it lists. -/
def requestLoad (name : String) (version : Int) (config : ModelConfig) (e : Entry) :
    Status × Entry :=
  let loaded := load name version (unload name version { e with modelConfig := config }).2
  (loaded.1, { loaded.2 with lastRequest := some (.load config) })

/-! ## The threads -/

/-- The platform that `Init` of a backend passes to `ValidateModelConfig`. -/
def expectedPlatform : Platform → Option String
  | .unknown => none
  | .tensorRTPlan => some kTensorRTPlanPlatform
  | .tensorFlowGraphDef => some kTensorFlowGraphDefPlatform
  | .tensorFlowSavedModel => some kTensorFlowSavedModelPlatform
  | .caffe2NetDef => some kCaffe2NetDefPlatform
  | .custom => some kCustomPlatform
  | .ensemble => some kEnsemblePlatform
  | .onnxRuntimeOnnx => some kOnnxRuntimeOnnxPlatform
  | .pyTorchLibTorch => some kPyTorchLibTorchPlatform

/-- What a factory meets besides the configuration: the status of reading the files of the
version, the devices, and the status of the rest of `Init` and of the execution contexts. -/
structure Surroundings where
  files : Status := .ok
  cuda : CudaDeviceCount
  contexts : Status := .ok

/-- `CreateBackend` of the factory for a platform. The `switch` over the platforms has a
`default` that calls no factory. -/
def createBackend (platform : Platform) (config : ModelConfig) (w : Surroundings) :
    Status × Option InferenceBackend :=
  match expectedPlatform platform with
  | none => (.ok, none)
  | some expected =>
    let status :=
      w.files.andThen ((validateModelConfig w.cuda config expected).andThen w.contexts)
    (status, if status.isOk then some { factory := platform, config := config } else none)

/-- The second locked section of `CreateBackendHandle`. -/
def finishCreation (name : String) (version : Int) (config : ModelConfig)
    (created : Status × Option InferenceBackend) (e : Entry) : Entry :=
  let e := { e with lastBuild := some { config := config, status := created.1 } }
  let e :=
    if e.handle.isSome then { e with sanityErrors := e.sanityErrors + 1 }
    else if created.1.isOk then { e with state := .ready, handle := some { is := created.2 } }
    else { e with state := .unavailable }
  (triggerNextAction name version e).2

/-- The locked section of the `OnDestroy` callback. -/
def onDestroy (name : String) (version : Int) (e : Entry) : Entry :=
  (triggerNextAction name version { e with state := .unavailable }).2

/-- What happens to an entry besides the calls of `AsyncLoad`. -/
inductive Event
  /-- The first locked section of `CreateBackendHandle`. -/
  | copyConfig (creation : Nat)
  /-- The creation of the backend and the second locked section of `CreateBackendHandle`. -/
  | create (creation : Nat) (w : Surroundings)
  | onDestroy (callback : Nat)
  /-- `GetBackendHandle` on this version. A search for the latest version takes such a
  reference for each version that it considers and drops the one that it had. -/
  | getBackendHandle
  /-- A reference to the handle that is served is dropped. -/
  | drop
  /-- A reference to a handle that is not served any more is dropped. -/
  | dropReleased (handle : Nat)

/-- `GetBackendHandle` locks `map_mtx_`. -/
def Event.locksMap : Event → Bool
  | .getBackendHandle => true
  | _ => false

/-- The entry after an event, `none` where the event cannot happen. -/
def Entry.after (name : String) (version : Int) (e : Entry) : Event → Option Entry
  | .copyConfig creation =>
    match e.creations[creation]? with
    | some none => some { e with creations := e.creations.set creation (some e.modelConfig) }
    | _ => none
  | .create creation w =>
    match e.creations[creation]? with
    | some (some config) =>
      some (finishCreation name version config (createBackend e.platform config w)
        { e with creations := e.creations.eraseIdx creation })
    | _ => none
  | .onDestroy callback =>
    if callback < e.callbacks.length then
      some (onDestroy name version { e with callbacks := e.callbacks.eraseIdx callback })
    else none
  | .getBackendHandle =>
    match e.state, e.handle with
    | .ready, some handle => some { e with handle := some { handle with refs := handle.refs + 1 } }
    | _, _ => none
  | .drop =>
    match e.handle with
    | some handle =>
      if 0 < handle.refs then
        some { e with handle := some { handle with refs := handle.refs - 1 } }
      else none
    | none => none
  | .dropReleased handle =>
    match e.released[handle]? with
    | some released =>
      -- the last reference runs the destructor
      if released.refs ≤ 1 then
        some { e with
          released := e.released.eraseIdx handle, callbacks := e.callbacks ++ [released.is] }
      else
        some { e with
          released := e.released.set handle { released with refs := released.refs - 1 } }
    | none => none

/-! ## The map -/

/-- The arguments of an `AsyncLoad` call. -/
structure LoadCall where
  name : String
  versions : List Int
  config : ModelConfig
  forceUnload : Bool := true
deriving DecidableEq

/-- An `AsyncLoad` call that holds `map_mtx_`: the versions that are still to be unloaded and
to be loaded. -/
structure Running extends LoadCall where
  unloads : List Int
  loads : List Int
deriving DecidableEq

/-- `BackendLifeCycle`. `calls` has the `AsyncLoad` calls, the newest one first. -/
structure BackendLifeCycle where
  map : UnorderedMap String (UnorderedMap Int Entry)
  running : Option Running
  calls : List LoadCall
deriving DecidableEq

/-- `Create`. -/
def BackendLifeCycle.create : BackendLifeCycle where
  map := ∅
  running := none
  calls := []

inductive Action
  /-- `AsyncLoad` locks `map_mtx_`. -/
  | asyncLoad (call : LoadCall)
  /-- The next locked section of the call, or its return. -/
  | advance
  | event (name : String) (version : Int) (event : Event)

namespace BackendLifeCycle

/-- The versions of a model. -/
def versionMap (s : BackendLifeCycle) (name : String) : UnorderedMap Int Entry :=
  (s.map.find name).getD ∅

/-- The entry of a version. -/
def entry (s : BackendLifeCycle) (name : String) (version : Int) : Option Entry :=
  (s.versionMap name).find version

/-- The map with another entry for a version. -/
def setEntry (s : BackendLifeCycle) (name : String) (version : Int) (e : Entry) :
    BackendLifeCycle :=
  { s with map := s.map.insert name ((s.versionMap name).insert version e) }

/-- The last call for a model. -/
def lastCall (s : BackendLifeCycle) (name : String) : Option LoadCall :=
  s.calls.find? fun call => call.name = name

/-- `AsyncLoad` up to its loops. -/
def asyncLoad (s : BackendLifeCycle) (call : LoadCall) : BackendLifeCycle where
  map := s.map.insert call.name (s.versionMap call.name)
  running := some
    { call with
      -- a `std::map` is traversed in the order of its keys
      unloads := if call.forceUnload then (s.versionMap call.name).keys.insertionSort (· ≤ ·)
        else []
      loads := call.versions }
  calls := call :: s.calls

/-- One turn of the loops of `AsyncLoad`. -/
def advance (s : BackendLifeCycle) (r : Running) : BackendLifeCycle :=
  match r.unloads, r.loads with
  | version :: unloads, _ =>
    let s := { s with running := some { r with unloads := unloads } }
    match s.entry r.name version with
    | some e => s.setEntry r.name version (requestUnload r.name version e)
    | none => s
  | [], version :: loads =>
    let e := (s.entry r.name version).getD (.new r.config)
    let loaded := requestLoad r.name version r.config e
    let running := if loaded.1.isOk then some { r with loads := loads } else none
    { s.setEntry r.name version loaded.2 with running := running }
  | [], [] => { s with running := none }

/-- One step of a thread. -/
def step (s : BackendLifeCycle) : Action → Option BackendLifeCycle
  | .asyncLoad call => if s.running.isNone then some (s.asyncLoad call) else none
  | .advance => s.running.map s.advance
  | .event name version event =>
    if event.locksMap && s.running.isSome then none
    else
      match s.entry name version with
      | some e => (e.after name version event).map (s.setEntry name version)
      | none => none

end BackendLifeCycle

/-- No call runs, nothing is being loaded, and nothing is being destroyed. -/
structure BackendLifeCycle.Quiescent (s : BackendLifeCycle) : Prop where
  running : s.running = none
  creations : ∀ name version e, s.entry name version = some e → e.creations = []
  released : ∀ name version e, s.entry name version = some e → e.released = []
  callbacks : ∀ name version e, s.entry name version = some e → e.callbacks = []

end FinBert.Repository
