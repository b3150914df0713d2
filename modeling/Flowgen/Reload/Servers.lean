/-
# `Flowgen.Reload.Servers` — hot reload with the shared servers (`app/src/reconciler.rs`)

The tasks of a flow register endpoints, tools and calls with servers that all
flows share.  A put first prepares the new flow, which only reads (`prepare`):
the value is parsed and validated, the flow is built and initialised.  Then the
old flow is stopped and deregistered, and the tasks of the new one are started
and register.

So a config that cannot be prepared leaves the registry and the servers as they
are, and events of the cache never touch a flow of the filesystem
(`unprepared_put_changes_nothing`).  What is checked later takes the old flow
down: the wiring of the tasks is built when they are started.

Without the servers this is `Flowgen.Reload.Reconciler` (`registry_reconcile`).
-/
import Flowgen.Lib.Names
import Flowgen.Flow.Wiring
import Flowgen.Reload.Reconciler

namespace Flowgen.Reload.Servers

open Flowgen.Lib Flowgen.Cache

/-! ## The shared servers -/

inductive Service
  | endpointServer
  | mcpServer
  | aiGatewayServer
deriving DecidableEq

/-- A key of one of the servers' tables. -/
inductive Place
  | endpoint (path : String)
  | llmProxy (name : String)
  | inproc (flow : String)
  | tool (name : String)
  | resource (uri : String)
  | resourceTemplate (pattern : String)
  | prompt (name : String)
deriving DecidableEq

/-- `register` replaces a prior entry, `try_register` and the like refuse a key that is
taken. -/
def Place.policy : Place → Policy
  | .endpoint _ | .llmProxy _ | .inproc _ => .replace
  | .tool _ | .resource _ | .resourceTemplate _ | .prompt _ => .refuse

/-- What a task registers; `V` is the registration itself. -/
inductive Setup (V : Type)
  | httpEndpoint (path : String) (registration : V)
  | llmProxy (name : String) (registration : V)
  | inprocEndpoint (registration : V)
  | mcpTool (name : String) (registration : V)
  | mcpResource (uri : String) (registration : V)
  | mcpResourceTemplate (pattern : String) (registration : V)
  | mcpPrompt (name : String) (registration : V)

variable {C V : Type}

def Setup.place (flow : String) : Setup V → Place
  | .httpEndpoint path _ => .endpoint path
  | .llmProxy name _ => .llmProxy name
  | .inprocEndpoint _ => .inproc flow
  | .mcpTool name _ => .tool name
  | .mcpResource uri _ => .resource uri
  | .mcpResourceTemplate pattern _ => .resourceTemplate pattern
  | .mcpPrompt name _ => .prompt name

def Setup.registration : Setup V → V
  | .httpEndpoint _ registration | .llmProxy _ registration | .inprocEndpoint registration
  | .mcpTool _ registration | .mcpResource _ registration | .mcpResourceTemplate _ registration
  | .mcpPrompt _ registration => registration

/-- The server that the task asks for; calls in the process need none. -/
def Setup.service : Setup V → Option Service
  | .httpEndpoint _ _ => some .endpointServer
  | .llmProxy _ _ => some .aiGatewayServer
  | .inprocEndpoint _ => none
  | .mcpTool _ _ | .mcpResource _ _ | .mcpResourceTemplate _ _ | .mcpPrompt _ _ => some .mcpServer

/-- What is registered, each with the name of its flow.  In-process calls are kept by
the flow itself. -/
@[ext] structure FlowServers (V : Type) where
  table : Names Place String V
  own : ∀ flow entry, table (.inproc flow) = some entry → entry.1 = flow

theorem Setup.place_inproc {flow flow' : String} {setup : Setup V}
    (h : setup.place flow = .inproc flow') : flow = flow' := by
  cases setup with
  | inprocEndpoint _ => exact Place.inproc.inj h
  | httpEndpoint | llmProxy | mcpTool | mcpResource | mcpResourceTemplate | mcpPrompt => cases h

namespace FlowServers

def empty : FlowServers V where
  table _ := none
  own flow entry h := by cases h

/-- Removes the flow from every server. -/
def deregisterFlow (servers : FlowServers V) (flow : String) : FlowServers V where
  table := servers.table.withdraw flow
  own flow' entry h := servers.own flow' entry (Option.eq_some_of_filter_eq_some h)

def register (servers : FlowServers V) (flow : String) (setup : Setup V) : FlowServers V where
  table := servers.table.enter Place.policy flow (setup.place flow, setup.registration)
  own flow' entry h := by
    rcases Names.enter_eq_some h with hold | ⟨hplace, rfl⟩
    · exact servers.own flow' entry hold
    · exact Setup.place_inproc hplace.symm

end FlowServers

/-! ## From a stored value to a flow that is ready to start -/

/-- A task of a flow: what its wiring reads, what it registers, and whether it gets that
far, its own initialisation included. -/
structure Task (V : Type) where
  wiring : Flow.TaskType
  setup : Option (Setup V) := none
  initialises : Bool := true

inductive ValidateError
  | emptyName
  | invalidNameChars (name : String)
deriving DecidableEq

/-- Why a put ends before the running flow is touched. -/
inductive Rejection
  | keyPrefix
  | flowConfigParse
  | validation (e : ValidateError)
  | fromFilesystem
  | unchanged
  | flowBuild (missing : String)
  | flowInit (service : Service)
deriving DecidableEq

/-- `services` are the shared servers that run.  The parser of the configs is given. -/
structure Config (C V : Type) where
  keyPrefix : String
  filesystemFlowPaths : List String
  services : List Service
  parse : String → C → Option (List (Task V))

def validateName (name : String) : Except ValidateError Unit :=
  if name.toList.isEmpty then .error .emptyName
  else if !name.toList.all fun c => c.isAlphanum || c == '_' || c == '-' then
    .error (.invalidNameChars name)
  else .ok ()

/-- `FlowConfig::from_path`. -/
def fromPath (tasks : List (Task V)) : Except ValidateError Unit :=
  tasks.forM fun task => validateName task.wiring.name

/-- `FlowBuilder::build`, by the attributes that are set: three of them it asks for. -/
def buildFlow (attributes : List String) : Except String Unit :=
  ["config", "cache", "system_cache"].forM fun name =>
    if name ∈ attributes then .ok () else .error name

/-- What `build_flow` sets. -/
def builderAttributes : List String :=
  ["config", "cache", "system_cache", "client_registry", "inproc", "holder_identity",
    "peer_registry"]

/-- `Flow::init`, as far as it can fail: the servers that the tasks ask for. -/
def init (services : List Service) (tasks : List (Task V)) : Except Service Unit :=
  tasks.forM fun task =>
    match task.setup.bind Setup.service with
    | some service => if service ∈ services then .ok () else .error service
    | none => .ok ()

/-- The setups of the blocking tasks, which are awaited; a task that fails is logged. -/
def setups (tasks : List (Task V)) : List (Setup V) :=
  tasks.filterMap fun task => if task.wiring.isBlocking && task.initialises then task.setup else none

/-- The tasks are wired and spawned. -/
def startTasks (tasks : List (Task V)) : Except Flow.Error (List (Setup V)) :=
  (Flow.build (tasks.map Task.wiring)).map fun _ => setups tasks

/-! ## The reconciler -/

@[ext] structure State (C V : Type) where
  registry : Registry C
  servers : FlowServers V

section Reconcile

variable [DecidableEq C] (config : Config C V)

/-- A put up to the point where the old flow is stopped. -/
def prepare (registry : Registry C) (key : String) (value : C) :
    Except Rejection (String × List (Task V)) :=
  match deriveFlowName config.keyPrefix key with
  | none => .error .keyPrefix
  | some flow =>
      match config.parse key value with
      | none => .error .flowConfigParse
      | some tasks =>
          match fromPath tasks with
          | .error e => .error (.validation e)
          | .ok () =>
              if flow ∈ config.filesystemFlowPaths then .error .fromFilesystem
              else if runsSource registry flow value then .error .unchanged
              else
                match buildFlow builderAttributes with
                | .error missing => .error (.flowBuild missing)
                | .ok () =>
                    match init config.services tasks with
                    | .error service => .error (.flowInit service)
                    | .ok () => .ok (flow, tasks)

end Reconcile

/-- The flow is cancelled, its endpoints are removed, and its end is awaited. -/
def State.stopAndDeregister (s : State C V) (flow : String) : State C V :=
  match s.registry flow with
  | none => s
  | some _ =>
      { registry := Function.update s.registry flow none
        servers := s.servers.deregisterFlow flow }

section Reconcile

variable [DecidableEq C] (config : Config C V)

def reconcilePut (s : State C V) (key : String) (value : C) : State C V :=
  match prepare config s.registry key value with
  | .error _ => s
  | .ok (flow, tasks) =>
      let s := s.stopAndDeregister flow
      match startTasks tasks with
      | .error _ => s
      | .ok setups =>
          { registry := Function.update s.registry flow (some ⟨value, false, false⟩)
            servers := setups.foldl (·.register flow ·) s.servers }

def reconcileDelete (s : State C V) (key : String) : State C V :=
  match deriveFlowName config.keyPrefix key with
  | none => s
  | some flow =>
      if flow ∈ config.filesystemFlowPaths then s else s.stopAndDeregister flow

def reconcile (s : State C V) : WatchEvent C → State C V
  | .put key value => reconcilePut config s key value
  | .delete key => reconcileDelete config s key

end Reconcile

/-! ## The reconciler without the servers -/

/-- The key of a flow. -/
def Config.keyOf (config : Config C V) (flow : String) : String :=
  String.ofList (config.keyPrefix.toList ++ '.' :: flow.toList)

/-- What of a flow's value is a success, stage by stage. -/
def Config.stages (config : Config C V) : Stages C where
  parse key value := (config.parse key value).isSome
  fromPath flow value :=
    (config.parse (config.keyOf flow) value).any fun tasks => (fromPath tasks).isOk
  build _ _ := (buildFlow builderAttributes).isOk
  init flow value :=
    (config.parse (config.keyOf flow) value).any fun tasks => (init config.services tasks).isOk
  startTasks flow value :=
    (config.parse (config.keyOf flow) value).any fun tasks => (startTasks tasks).isOk

def Config.toReload (config : Config C V) : Reload.Config C where
  keyPrefix := config.keyPrefix
  filesystemFlowPaths := config.filesystemFlowPaths
  stages := config.stages

variable {config : Config C V} {s : State C V} {registry : Registry C} {key flow : String}
  {value : C} {tasks : List (Task V)} {event : WatchEvent C}

theorem key_of_flow {key' : String} (h : deriveFlowName config.keyPrefix key = some flow)
    (h' : deriveFlowName config.keyPrefix key' = some flow) : key = key' :=
  key_unique (show deriveFlowName config.toReload.keyPrefix key = some flow from h) h'

theorem keyOf_eq (h : deriveFlowName config.keyPrefix key = some flow) : config.keyOf flow = key := by
  have hkey : key.toList = config.keyPrefix.toList ++ '.' :: flow.toList :=
    (deriveFlowName_eq_some : deriveFlowName config.toReload.keyPrefix key = some flow ↔ _).mp h
  rw [Config.keyOf]
  exact (congrArg String.ofList hkey.symm).trans String.ofList_toList

theorem eq_ok_of_isOk {ε : Type} {x : Except ε Unit} (h : x.isOk = true) : x = .ok () := by
  cases x with
  | error e => cases h
  | ok _ => rfl

theorem registry_stopAndDeregister :
    (s.stopAndDeregister flow).registry = Function.update s.registry flow none := by
  rw [State.stopAndDeregister]
  cases hr : s.registry flow with
  | none => exact (Function.update_eq_self_iff.mpr hr.symm).symm
  | some handle => rfl

section Reconcile

variable [DecidableEq C]

/-- A put is prepared if its value passes every stage before the start, and its flow is
neither one of the filesystem's nor running from the value. -/
theorem prepare_eq_ok :
    prepare config registry key value = .ok (flow, tasks) ↔
      deriveFlowName config.keyPrefix key = some flow ∧ config.parse key value = some tasks ∧
        fromPath tasks = .ok () ∧ flow ∉ config.filesystemFlowPaths ∧
          runsSource registry flow value = false ∧ buildFlow builderAttributes = .ok () ∧
            init config.services tasks = .ok () := by
  constructor
  · intro h
    rw [prepare] at h
    split at h
    · cases h
    rename_i f hflow
    split at h
    · cases h
    rename_i ts hparse
    split at h
    · cases h
    rename_i hpath
    split at h
    · cases h
    rename_i hfs
    split at h
    · cases h
    rename_i hruns
    split at h
    · cases h
    rename_i hbuild
    split at h
    · cases h
    rename_i hinit
    cases h
    exact ⟨hflow, hparse, hpath, hfs, Bool.eq_false_of_not_eq_true hruns, hbuild, hinit⟩
  · rintro ⟨hflow, hparse, hpath, hfs, hruns, hbuild, hinit⟩
    simp only [prepare, hflow, hparse, hpath, if_neg hfs, hruns, Bool.false_eq_true, if_false, hbuild,
      hinit]

/-- The value cannot be parsed, validated, built or initialised. -/
def Broken (config : Config C V) (key : String) (value : C) : Prop :=
  match config.parse key value with
  | none => True
  | some tasks =>
      fromPath tasks ≠ .ok () ∨ buildFlow builderAttributes ≠ .ok () ∨
        init config.services tasks ≠ .ok ()

theorem prepare_of_broken (h : Broken config key value) :
    ∃ e, prepare config registry key value = .error e := by
  cases hp : prepare config registry key value with
  | error e => exact ⟨e, rfl⟩
  | ok new =>
      obtain ⟨-, hparse, hpath, -, -, hbuild, hinit⟩ := prepare_eq_ok.mp hp
      rw [Broken, hparse] at h
      rcases h with h | h | h
      · exact absurd hpath h
      · exact absurd hbuild h
      · exact absurd hinit h

theorem reconcilePut_of_error {e : Rejection} (h : prepare config s.registry key value = .error e) :
    reconcilePut config s key value = s := by
  simp only [reconcilePut, h]

omit [DecidableEq C] in
theorem stages_of_parse (hflow : deriveFlowName config.keyPrefix key = some flow)
    (hparse : config.parse key value = some tasks) :
    config.stages.parse key value = true ∧
      config.stages.fromPath flow value = (fromPath tasks).isOk ∧
        config.stages.init flow value = (init config.services tasks).isOk ∧
          config.stages.startTasks flow value = (startTasks tasks).isOk := by
  simp only [Config.stages, keyOf_eq hflow, hparse, Option.isSome_some, Option.any_some, and_self]

theorem reload_of_prepared (h : prepare config registry key value = .ok (flow, tasks)) :
    Reload.reconcilePut config.toReload registry key value =
      Function.update registry flow
        (if (startTasks tasks).isOk then some ⟨value, false, false⟩ else none) := by
  obtain ⟨hflow, hparse, hpath, hfs, hruns, hbuild, hinit⟩ := prepare_eq_ok.mp h
  obtain ⟨hp, hv, hi, hs⟩ := stages_of_parse hflow hparse
  have hb : config.stages.build flow value = true := by
    simp only [Config.stages, hbuild]
    rfl
  rw [hpath] at hv
  rw [hinit] at hi
  simp only [Reload.reconcilePut, Config.toReload, hflow, hp, hv, hb, hi, hs, hruns]
  cases (startTasks tasks).isOk <;> simp [hfs, Except.isOk, Except.toBool]

theorem reload_of_rejected {e : Rejection} (h : prepare config registry key value = .error e) :
    Reload.reconcilePut config.toReload registry key value = registry := by
  rw [Reload.reconcilePut]
  split
  · rfl
  · rename_i flow hflow
    split
    · rfl
    rename_i hp
    split
    · rfl
    rename_i hv
    split
    · rfl
    rename_i hfs
    split
    · rfl
    rename_i hruns
    split
    · rfl
    rename_i hb
    split
    · rfl
    rename_i hi
    -- the stages all succeed, so the put was prepared
    exfalso
    simp only [Bool.not_eq_true', Bool.not_eq_false] at hp hv hb hi
    obtain ⟨tasks, hparse⟩ := Option.isSome_iff_exists.mp hp
    obtain ⟨-, hv', hi', -⟩ := stages_of_parse hflow hparse
    have hok : prepare config registry key value = .ok (flow, tasks) :=
      prepare_eq_ok.mpr ⟨hflow, hparse, eq_ok_of_isOk (hv'.symm.trans hv), hfs,
        Bool.eq_false_of_not_eq_true hruns, eq_ok_of_isOk hb, eq_ok_of_isOk (hi'.symm.trans hi)⟩
    rw [hok] at h
    cases h

/-- Without the servers, the reconciler is the one of the registry alone. -/
theorem registry_reconcile :
    (reconcile config s event).registry = Reload.reconcile config.toReload s.registry event := by
  cases event with
  | delete key =>
      simp only [reconcile, reconcileDelete, Reload.reconcile, Reload.reconcileDelete]
      have hkey : deriveFlowName config.toReload.keyPrefix key =
        deriveFlowName config.keyPrefix key := rfl
      rw [hkey]
      cases deriveFlowName config.keyPrefix key with
      | none => rfl
      | some flow =>
          by_cases hfs : flow ∈ config.filesystemFlowPaths
          · exact (congrArg State.registry (if_pos hfs)).trans (if_pos hfs).symm
          · exact (congrArg State.registry (if_neg hfs)).trans
              (registry_stopAndDeregister.trans (if_neg hfs).symm)
  | put key value =>
      rw [reconcile, reconcilePut, Reload.reconcile]
      cases hprepare : prepare config s.registry key value with
      | error e => exact (reload_of_rejected hprepare).symm
      | ok new =>
          rw [reload_of_prepared hprepare]
          cases hstart : startTasks new.2 with
          | error e =>
              simp only [hstart]
              exact registry_stopAndDeregister
          | ok setups =>
              simp only [hstart, registry_stopAndDeregister, Function.update_idem]
              rfl

omit [DecidableEq C] in
theorem filesystem_kept {registry' : Registry C} {config : Reload.Config C}
    (h : Applied config registry event registry') (hfs : flow ∈ config.filesystemFlowPaths) :
    registry' flow = registry flow := by
  cases h with
  | kept => rfl
  | @stopped flow' _ hfs' | @started flow' _ _ hfs' _ =>
      refine Function.update_of_ne ?_ ..
      rintro rfl
      exact hfs' hfs

/-- A put whose value is broken changes nothing, neither in the registry nor in the
shared servers, and no events of the cache insert, replace or remove a flow of the
filesystem. -/
theorem unprepared_put_changes_nothing (config : Config C V) :
    (∀ (s : State C V) key value, Broken config key value → reconcilePut config s key value = s) ∧
      ∀ (s : State C V) (events : List (WatchEvent C)), ∀ flow ∈ config.filesystemFlowPaths,
        (events.foldl (reconcile config) s).registry flow = s.registry flow := by
  constructor
  · intro s key value h
    obtain ⟨e, he⟩ : ∃ e, prepare config s.registry key value = .error e := prepare_of_broken h
    exact reconcilePut_of_error he
  · intro s events flow hfs
    induction events generalizing s with
    | nil => rfl
    | cons event events ih =>
        rw [List.foldl_cons, ih, registry_reconcile]
        exact filesystem_kept reconcile_applied hfs

end Reconcile

/-- A config is the name of a tool, and its flow offers the tool and logs the calls. -/
def tools (filesystemFlowPaths : List String) : Config String Unit where
  keyPrefix := "flows"
  filesystemFlowPaths := filesystemFlowPaths
  services := [.mcpServer]
  parse _ value :=
    if value = "" then none
    else some
      [⟨{ name := "tool", isBlocking := true }, some (.mcpTool value ()), true⟩,
        ⟨{ name := "log" }, none, true⟩]

/-- The flow `a` runs and offers a tool; it is left alone by an empty config, and so is
the flow `f` of the filesystem by a put and a delete. -/
theorem empty_put_changes_nothing :
    ∃ s : State String Unit, s.servers.table (.tool "greet") = some ("a", ()) ∧
      reconcilePut (tools ["f"]) s "flows.a" "" = s ∧
        ([.put "flows.f" "greet", .delete "flows.f"].foldl (reconcile (tools ["f"])) s).registry "f" =
          s.registry "f" := by
  refine ⟨reconcilePut (tools ["f"]) ⟨fun _ => none, .empty⟩ "flows.a" "greet", by decide, ?_, ?_⟩
  · exact (unprepared_put_changes_nothing (tools ["f"])).1 _ "flows.a" "" trivial
  · exact (unprepared_put_changes_nothing (tools ["f"])).2 _ _ "f" (List.mem_singleton_self "f")

end Flowgen.Reload.Servers
