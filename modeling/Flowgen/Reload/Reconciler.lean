/-
# `Flowgen.Reload.Reconciler` — hot reload (`app/src/watcher.rs`, `app/src/reconciler.rs`)

The flows of a cache are loaded when the app starts, and reloaded when the
cache's watch tells of a change: the watcher passes the events on, and the
reconciler collects them into batches, keeps the last event of each key and
applies it to the registry of the running flows.

A change reaches the registry if it was read when the app started or if the
watch delivers it.  What is on its way of a key ends with the last change of
the key, and when nothing of it is on its way the registry agrees with that
change (`Tracked`); so after all changes have settled the flow of every key
whose last change was not missed is that of the stored config
(`settled_of_drained`), unless the config is one that cannot be run, which the
reconciler leaves aside by design (`broken_config_keeps_serving`).
-/
import Flowgen.Lib.Machine
import Flowgen.Lib.Latest
import Flowgen.Text
import Flowgen.Cache.Basic

namespace Flowgen.Reload

open Flowgen.Lib Flowgen.Text Flowgen.Cache

variable {C : Type}

/-! ## The reconciler -/

/-- Whether the steps from a stored value to a running flow succeed; the first
two look at the key and at the flow's name. -/
structure Stages (C : Type) where
  parse : String → C → Bool
  fromPath : String → C → Bool
  build : String → C → Bool
  init : String → C → Bool
  startTasks : String → C → Bool

structure Config (C : Type) where
  keyPrefix : String
  filesystemFlowPaths : List String
  stages : Stages C

/-- A flow in the registry. -/
structure FlowHandle (C : Type) where
  flowYaml : C
  fromFilesystem : Bool
  /-- The flow has ended by itself. -/
  finished : Bool
deriving DecidableEq

abbrev Registry (C : Type) := String → Option (FlowHandle C)

/-- The name of the flow that a key stands for: what follows the prefix and a dot. -/
def deriveFlowName (keyPrefix key : String) : Option String :=
  (stripPrefix (keyPrefix.toList ++ ['.']) key.toList).map String.ofList

/-- A config that can be parsed, built, initialised and started. -/
def Config.valid (config : Config C) (key flow : String) (value : C) : Bool :=
  config.stages.parse key value && config.stages.fromPath flow value &&
    config.stages.build flow value && config.stages.init flow value &&
    config.stages.startTasks flow value

section Reconcile

variable [DecidableEq C]

/-- The flow still runs from exactly this value. -/
def runsSource (registry : Registry C) (flow : String) (value : C) : Bool :=
  (registry flow).any fun handle => handle.flowYaml = value && !handle.finished

/-- A put: the new flow is built and initialised before the old one is stopped,
so that a broken config leaves the old one serving. -/
def reconcilePut (config : Config C) (registry : Registry C) (key : String) (value : C) :
    Registry C :=
  match deriveFlowName config.keyPrefix key with
  | none => registry
  | some flow =>
      if !config.stages.parse key value then registry
      else if !config.stages.fromPath flow value then registry
      else if flow ∈ config.filesystemFlowPaths then registry
      else if runsSource registry flow value then registry
      else if !config.stages.build flow value then registry
      else if !config.stages.init flow value then registry
      else if !config.stages.startTasks flow value then Function.update registry flow none
      else Function.update registry flow (some ⟨value, false, false⟩)

def reconcileDelete (config : Config C) (registry : Registry C) (key : String) : Registry C :=
  match deriveFlowName config.keyPrefix key with
  | none => registry
  | some flow =>
      if flow ∈ config.filesystemFlowPaths then registry
      else Function.update registry flow none

def reconcile (config : Config C) (registry : Registry C) : WatchEvent C → Registry C
  | .put key value => reconcilePut config registry key value
  | .delete key => reconcileDelete config registry key

/-- A key is loaded when the app starts.  A flow whose tasks cannot be started
is in the registry all the same. -/
def loadFlow (config : Config C) (registry : Registry C) (key : String) (value : C) : Registry C :=
  match deriveFlowName config.keyPrefix key with
  | none => registry
  | some flow =>
      if !config.stages.parse key value then registry
      else if !config.stages.fromPath flow value then registry
      else if flow ∈ config.filesystemFlowPaths then registry
      else if !config.stages.build flow value then registry
      else if !config.stages.init flow value then registry
      else Function.update registry flow (some ⟨value, false, false⟩)

end Reconcile

/-- A flow ends by itself; its handle stays. -/
def finishFlow (registry : Registry C) (flow : String) : Registry C :=
  Function.update registry flow
    ((registry flow).map fun handle => { handle with finished := true })

/-! ## The machine -/

structure State (C : Type) where
  /-- The changes of the cache, oldest first. -/
  log : List (WatchEvent C)
  starting : Bool
  /-- The keys read while the app starts. -/
  loaded : List String
  connected : Bool
  /-- Events on their way: in the watch, from the watcher to the reconciler, in
  the batch that is collected, and of the batch that is applied. -/
  stream : List (WatchEvent C)
  channel : List (WatchEvent C)
  batch : List (WatchEvent C)
  todo : List (WatchEvent C)
  registry : Registry C
  /-- The keys whose last change was neither read nor can be delivered. -/
  missed : List String

/-- The value stored under a key. -/
def State.stored (s : State C) (key : String) : Option C :=
  match latest WatchEvent.key key s.log with
  | some (.put _ value) => some value
  | _ => none

/-- What a flow runs from, if it runs from the cache. -/
def State.running (s : State C) (flow : String) : Option C :=
  match s.registry flow with
  | some handle => if handle.fromFilesystem then none else some handle.flowYaml
  | none => none

/-- The app starts, with some flows of the filesystem, over what is stored. -/
structure State.Start (config : Config C) (s : State C) : Prop where
  starting : s.starting = true
  connected : s.connected = false
  loaded : s.loaded = []
  pending : s.stream = [] ∧ s.channel = [] ∧ s.batch = [] ∧ s.todo = []
  missed : ∀ key ∈ s.log.map WatchEvent.key, key ∈ s.missed
  filesystem : ∀ flow ∈ config.filesystemFlowPaths, ∀ handle, s.registry flow = some handle →
    handle.fromFilesystem = true
  cache : ∀ flow, flow ∉ config.filesystemFlowPaths → s.registry flow = none

inductive Act (C : Type)
  | change (event : WatchEvent C)
  | load (key : String)
  | started
  | connect
  | disconnect
  | forward
  | collect
  | flush
  | reconcile (key : String)
  | finish (flow : String)

/-- A watch of a prefix delivers the event. -/
def watches (keyPrefix key : String) : Bool := (stripPrefix keyPrefix.toList key.toList).isSome

section Step

variable [DecidableEq C] (config : Config C)

/-- Someone puts or deletes a key.  A watch that is not connected never tells. -/
def State.change (s : State C) (event : WatchEvent C) : State C :=
  if s.connected && watches config.keyPrefix event.key then
    { s with
      log := s.log ++ [event]
      stream := s.stream ++ [event]
      missed := s.missed.filter (· ≠ event.key) }
  else { s with log := s.log ++ [event], missed := event.key :: s.missed }

/-- `load_flows_from_cache` reads a key, and its flow is started. -/
def State.load (s : State C) (key : String) : State C :=
  let s := { s with loaded := key :: s.loaded, missed := s.missed.filter (· ≠ key) }
  match s.stored key with
  | some value => { s with registry := loadFlow config s.registry key value }
  | none => s

def step (s : State C) : Act C → Option (State C)
  | .change event => some (s.change config event)
  | .load key => if s.starting && key ∉ s.loaded then some (s.load config key) else none
  | .started => some { s with starting := false }
  | .connect => if s.starting || s.connected then none else some { s with connected := true }
  | .disconnect =>
      some { s with
        connected := false
        stream := []
        missed := s.stream.map WatchEvent.key ++ s.missed }
  | .forward =>
      match s.stream with
      | event :: stream => some { s with stream := stream, channel := s.channel ++ [event] }
      | [] => none
  | .collect =>
      match s.todo, s.channel with
      | [], event :: channel => some { s with channel := channel, batch := s.batch ++ [event] }
      | _, _ => none
  | .flush =>
      match s.todo with
      | [] => some { s with batch := [], todo := coalesce WatchEvent.key s.batch }
      | _ :: _ => none
  | .reconcile key =>
      (latest WatchEvent.key key s.todo).map fun event =>
        { s with
          registry := reconcile config s.registry event
          todo := s.todo.filter (WatchEvent.key · ≠ key) }
  | .finish flow => some { s with registry := finishFlow s.registry flow }

/-- Hot reload, from the start of the app on. -/
def hotReload : Machine (State C) (Act C) where
  init s := s.Start config
  step := step config

end Step

/-- The changes have stopped, and the watch is connected and drained. -/
structure State.Drained (s : State C) : Prop where
  started : s.starting = false
  connected : s.connected = true
  stream : s.stream = []
  channel : s.channel = []
  batch : s.batch = []
  todo : s.todo = []

/-! ## What the reconciler does to the registry -/

variable {config : Config C} {s t : State C} {key key' flow flow' : String} {value : C}
  {registry registry' : Registry C} {event : WatchEvent C} {handle : FlowHandle C}

theorem deriveFlowName_eq_some :
    deriveFlowName config.keyPrefix key = some flow ↔
      key.toList = config.keyPrefix.toList ++ '.' :: flow.toList := by
  rw [deriveFlowName, Option.map_eq_some_iff]
  constructor
  · rintro ⟨rest, hrest, rfl⟩
    rw [stripPrefix_eq_some.mp hrest, String.toList_ofList, List.append_assoc]
    rfl
  · intro h
    refine ⟨flow.toList, stripPrefix_eq_some.mpr ?_, String.ofList_toList⟩
    rw [h, List.append_assoc]
    rfl

/-- Different keys are keys of different flows. -/
theorem key_unique (h : deriveFlowName config.keyPrefix key = some flow)
    (h' : deriveFlowName config.keyPrefix key' = some flow) : key = key' := by
  rw [deriveFlowName_eq_some] at h h'
  exact String.toList_inj.mp (h.trans h'.symm)

/-- What is made of an event of a key: nothing, or its flow, which is not one of
the filesystem's, is stopped, or runs from what was put. -/
inductive Applied (config : Config C) (registry : Registry C) (event : WatchEvent C) :
    Registry C → Prop
  | kept : Applied config registry event registry
  | stopped {flow : String} (hflow : deriveFlowName config.keyPrefix event.key = some flow)
      (hfs : flow ∉ config.filesystemFlowPaths) :
      Applied config registry event (Function.update registry flow none)
  | started {flow : String} {value : C}
      (hflow : deriveFlowName config.keyPrefix event.key = some flow)
      (hfs : flow ∉ config.filesystemFlowPaths) (hput : event = .put event.key value) :
      Applied config registry event (Function.update registry flow (some ⟨value, false, false⟩))

/-- The registry agrees with the last change of a key: its flow does not run if
the key is not stored, and runs from its value if that can be run. -/
def Agrees (config : Config C) (key flow : String) (last : Option (WatchEvent C))
    (handle : Option (FlowHandle C)) : Prop :=
  match last with
  | some (.put _ value) =>
      config.valid key flow value = true → handle.map (·.flowYaml) = some value
  | _ => handle = none

theorem Agrees.congr {last : Option (WatchEvent C)} {handle handle' : Option (FlowHandle C)}
    (h : Agrees config key flow last handle)
    (hy : handle'.map (·.flowYaml) = handle.map (·.flowYaml)) :
    Agrees config key flow last handle' := by
  have hnone : handle = none → handle' = none := by
    rintro rfl
    exact Option.map_eq_none_iff.mp hy
  cases last with
  | none => exact hnone h
  | some event =>
      cases event with
      | put _ value =>
          intro hv
          exact hy.trans (h hv)
      | delete _ => exact hnone h

theorem Applied.other (h : Applied config registry event registry')
    (hflow : deriveFlowName config.keyPrefix key = some flow) (hne : event.key ≠ key) :
    registry' flow = registry flow := by
  cases h with
  | kept => rfl
  | stopped hflow' _ | started hflow' _ _ =>
      refine Function.update_of_ne ?_ ..
      rintro rfl
      exact hne (key_unique hflow' hflow)

/-- A flow that is in the registry was there, or runs from what was put. -/
theorem Applied.source (h : Applied config registry event registry')
    (hr : registry' flow = some handle) : registry flow = some handle ∨
      deriveFlowName config.keyPrefix event.key = some flow ∧ flow ∉ config.filesystemFlowPaths ∧
        event = .put event.key handle.flowYaml ∧ handle.fromFilesystem = false := by
  cases h with
  | kept => exact Or.inl hr
  | @stopped flow' _ _ =>
      by_cases hf : flow = flow'
      · subst hf
        rw [Function.update_self] at hr
        cases hr
      · rw [Function.update_of_ne hf] at hr
        exact Or.inl hr
  | @started flow' value hflow hfs hput =>
      by_cases hf : flow = flow'
      · subst hf
        rw [Function.update_self] at hr
        obtain rfl := Option.some.inj hr
        exact Or.inr ⟨hflow, hfs, hput, rfl⟩
      · rw [Function.update_of_ne hf] at hr
        exact Or.inl hr

theorem valid_eq_true (h : config.valid key flow value = true) :
    config.stages.parse key value = true ∧ config.stages.fromPath flow value = true ∧
      config.stages.build flow value = true ∧ config.stages.init flow value = true ∧
      config.stages.startTasks flow value = true := by
  simpa [Config.valid, and_assoc] using h

theorem loadFlow_applied : Applied config registry (.put key value)
    (loadFlow config registry key value) := by
  rw [loadFlow]
  split
  · exact .kept
  · rename_i flow hflow
    split
    · exact .kept
    split
    · exact .kept
    split
    · exact .kept
    rename_i hfs
    split
    · exact .kept
    split
    · exact .kept
    · exact .started hflow hfs rfl

theorem loadFlow_agrees (hflow : deriveFlowName config.keyPrefix key = some flow)
    (hfs : flow ∉ config.filesystemFlowPaths) :
    Agrees config key flow (some (.put key value)) (loadFlow config registry key value flow) := by
  intro (hv : config.valid key flow value = true)
  obtain ⟨hp, hpath, hb, hi, _⟩ := valid_eq_true hv
  simp only [loadFlow, hflow, hp, hpath, hb, hi, if_neg hfs, Bool.not_true, Bool.false_eq_true,
    if_false, Function.update_self]
  rfl

section Applied

variable [DecidableEq C]

theorem reconcile_applied : Applied config registry event (reconcile config registry event) := by
  cases event with
  | put key value =>
      simp only [reconcile, reconcilePut]
      split
      · exact .kept
      · rename_i flow hflow
        split
        · exact .kept
        split
        · exact .kept
        split
        · exact .kept
        rename_i hfs
        split
        · exact .kept
        split
        · exact .kept
        split
        · exact .kept
        split
        · exact .stopped hflow hfs
        · exact .started hflow hfs rfl
  | delete key =>
      simp only [reconcile, reconcileDelete]
      split
      · exact .kept
      · rename_i flow hflow
        split
        · exact .kept
        · exact .stopped hflow ‹_›

theorem runsSource_eq_true (h : runsSource registry flow value = true) :
    (registry flow).map (·.flowYaml) = some value := by
  obtain ⟨handle, hr, hv⟩ := (Option.any_eq_true ..).mp h
  rw [Bool.and_eq_true, decide_eq_true_eq] at hv
  rw [hr]
  exact congrArg some hv.1

/-- After the event of a key has been applied, its flow agrees with it. -/
theorem reconcile_agrees (hflow : deriveFlowName config.keyPrefix event.key = some flow)
    (hfs : flow ∉ config.filesystemFlowPaths) :
    Agrees config event.key flow (some event) (reconcile config registry event flow) := by
  cases event with
  | put key value =>
      intro (hv : config.valid key flow value = true)
      obtain ⟨hp, hpath, hb, hi, hst⟩ := valid_eq_true hv
      rw [WatchEvent.key] at hflow
      simp only [reconcile, reconcilePut, hflow, hp, hpath, hb, hi, hst, if_neg hfs,
        Bool.not_true, Bool.false_eq_true, if_false]
      split
      · exact runsSource_eq_true ‹_›
      · rw [Function.update_self]
        rfl
  | delete key =>
      rw [WatchEvent.key] at hflow
      simp only [Agrees, reconcile, reconcileDelete, hflow, if_neg hfs, Function.update_self]

end Applied

/-! ## What is on its way -/

/-- The events that the registry will still see, oldest first. -/
def State.pending (s : State C) : List (WatchEvent C) := s.todo ++ s.batch ++ s.channel ++ s.stream

/-- What is coming of a key ends with its last change; if there is nothing, the
registry agrees with that change. -/
def Follows (config : Config C) (key flow : String) (coming last : Option (WatchEvent C))
    (handle : Option (FlowHandle C)) : Prop :=
  match coming with
  | some event => last = some event
  | none => Agrees config key flow last handle

/-- A key and its flow, in a state. -/
abbrev State.Follows (config : Config C) (s : State C) (key flow : String) : Prop :=
  Reload.Follows config key flow (latest WatchEvent.key key s.pending)
    (latest WatchEvent.key key s.log) (s.registry flow)

theorem Follows.congr {coming last : Option (WatchEvent C)} {handle handle' : Option (FlowHandle C)}
    (h : Follows config key flow coming last handle)
    (hy : handle'.map (·.flowYaml) = handle.map (·.flowYaml)) :
    Follows config key flow coming last handle' := by
  cases coming with
  | some event => exact h
  | none => exact Agrees.congr h hy

structure Tracked (config : Config C) (s : State C) : Prop where
  idle : s.starting = true → s.connected = false ∧ s.pending = []
  fresh : s.starting = true → ∀ key flow, deriveFlowName config.keyPrefix key = some flow →
    flow ∉ config.filesystemFlowPaths → key ∉ s.loaded → s.registry flow = none
  follows : ∀ key flow, deriveFlowName config.keyPrefix key = some flow →
    flow ∉ config.filesystemFlowPaths → key ∉ s.missed → s.Follows config key flow
  recorded : ∀ event ∈ s.pending, event ∈ s.log
  /-- A flow that runs from the cache runs from something that was stored. -/
  sources : ∀ key flow handle, deriveFlowName config.keyPrefix key = some flow →
    s.registry flow = some handle → handle.fromFilesystem = false →
      .put key handle.flowYaml ∈ s.log
  origin : ∀ flow handle, s.registry flow = some handle →
    (handle.fromFilesystem = true ↔ flow ∈ config.filesystemFlowPaths)

/-- Events move on their way. -/
theorem Tracked.move (h : Tracked config s) (hlog : t.log = s.log) (hreg : t.registry = s.registry)
    (hload : t.loaded = s.loaded) (hmissed : ∀ key ∈ s.missed, key ∈ t.missed)
    (hstart : t.starting = true → s.starting = true ∧ t.connected = false)
    (hlatest : ∀ key, key ∉ t.missed →
      latest WatchEvent.key key t.pending = latest WatchEvent.key key s.pending)
    (hmem : ∀ event ∈ t.pending, event ∈ s.pending) : Tracked config t := by
  refine ⟨?_, ?_, ?_, ?_, ?_, ?_⟩
  · intro hs
    refine ⟨(hstart hs).2, List.eq_nil_iff_forall_not_mem.mpr ?_⟩
    intro event he
    have hin : event ∈ s.pending := hmem event he
    rw [(h.idle (hstart hs).1).2] at hin
    cases hin
  · intro hs key flow hflow hfs hl
    rw [hreg]
    exact h.fresh (hstart hs).1 key flow hflow hfs (hload ▸ hl)
  · intro key flow hflow hfs hm
    rw [State.Follows, hlatest key hm, hlog, hreg]
    exact h.follows key flow hflow hfs fun hk => hm (hmissed key hk)
  · intro event he
    exact hlog ▸ h.recorded event (hmem event he)
  · intro key flow handle hflow hr
    rw [hlog]
    exact h.sources key flow handle hflow (hreg ▸ hr)
  · intro flow handle hr
    exact h.origin flow handle (hreg ▸ hr)

/-- Events are handed on, and none is lost. -/
theorem Tracked.hand_on (h : Tracked config s) (hlog : t.log = s.log)
    (hreg : t.registry = s.registry) (hload : t.loaded = s.loaded) (hmissed : t.missed = s.missed)
    (hstart : t.starting = s.starting) (hconnected : t.connected = s.connected)
    (hpend : t.pending = s.pending) : Tracked config t := by
  refine h.move hlog hreg hload ?_ ?_ ?_ ?_
  · intro key hk
    exact hmissed ▸ hk
  · intro hs
    rw [hstart] at hs
    exact ⟨hs, hconnected.trans (h.idle hs).1⟩
  · intro key _
    rw [hpend]
  · intro event he
    exact hpend ▸ he

/-- An event is applied to the registry. -/
theorem Tracked.sources_applied (h : Tracked config s)
    (ha : Applied config s.registry event registry') (he : event ∈ s.log) :
    (∀ key flow handle, deriveFlowName config.keyPrefix key = some flow →
      registry' flow = some handle → handle.fromFilesystem = false →
        .put key handle.flowYaml ∈ s.log) ∧
    ∀ flow handle, registry' flow = some handle →
      (handle.fromFilesystem = true ↔ flow ∈ config.filesystemFlowPaths) := by
  constructor
  · intro key flow handle hflow hr hfrom
    rcases ha.source hr with hr | ⟨hflow', _, hput, _⟩
    · exact h.sources key flow handle hflow hr hfrom
    · obtain rfl := key_unique hflow hflow'
      exact hput ▸ he
  · intro flow handle hr
    rcases ha.source hr with hr | ⟨_, hfs, _, hfrom⟩
    · exact h.origin flow handle hr
    · rw [hfrom]
      exact ⟨Bool.noConfusion, fun hc => absurd hc hfs⟩

/-! ## The steps -/

theorem tracked_start (h : s.Start config) : Tracked config s := by
  obtain ⟨hst, hch, hb, htd⟩ := h.pending
  have hpend : s.pending = [] := by rw [State.pending, hst, hch, hb, htd]; rfl
  refine ⟨fun _ => ⟨h.connected, hpend⟩, fun _ key flow _ hfs _ => h.cache flow hfs,
    ?_, ?_, ?_,
    ?_⟩
  · intro key flow hflow hfs hm
    -- a key that was not missed has never been written
    have hnone : latest WatchEvent.key key s.log = none := by
      refine latest_eq_none.mpr fun event he hk => hm (h.missed key ?_)
      exact hk ▸ List.mem_map_of_mem he
    rw [State.Follows, hpend, latest_nil, hnone]
    exact h.cache flow hfs
  · intro event he
    rw [hpend] at he
    cases he
  · intro key flow handle hflow hr hfrom
    by_cases hfs : flow ∈ config.filesystemFlowPaths
    · cases (h.filesystem flow hfs handle hr).symm.trans hfrom
    · cases (h.cache flow hfs).symm.trans hr
  · intro flow handle hr
    by_cases hfs : flow ∈ config.filesystemFlowPaths
    · exact iff_of_true (h.filesystem flow hfs handle hr) hfs
    · cases (h.cache flow hfs).symm.trans hr

/-- A change of another key. -/
theorem State.Follows.change_ne (h : s.Follows config key flow) (hne : event.key ≠ key)
    (hlog : t.log = s.log ++ [event])
    (hpend : t.pending = s.pending ++ [event] ∨ t.pending = s.pending)
    (hreg : t.registry = s.registry) : t.Follows config key flow := by
  have hlatest : latest WatchEvent.key key t.pending = latest WatchEvent.key key s.pending := by
    rcases hpend with hp | hp
    · rw [hp, latest_concat_ne hne]
    · rw [hp]
  rw [State.Follows, hlatest, hlog, latest_concat_ne hne, hreg]
  exact h

theorem Tracked.change (h : Tracked config s) : Tracked config (s.change config event) := by
  rw [State.change]
  split
  · rename_i hc
    rw [Bool.and_eq_true] at hc
    have hns : ¬ s.starting = true := fun hs => by
      cases (h.idle hs).1.symm.trans hc.1
    have hpend : s.todo ++ s.batch ++ s.channel ++ (s.stream ++ [event]) = s.pending ++ [event] :=
      (List.append_assoc ..).symm
    refine ⟨fun hs => absurd hs hns, fun hs => absurd hs hns, ?_,
      ?_, ?_, h.origin⟩
    · intro key flow hflow hfs hm
      by_cases hk : event.key = key
      · subst hk
        rw [State.Follows, State.pending, hpend, latest_concat_self]
        exact latest_concat_self
      · refine (h.follows key flow hflow hfs fun hmem => hm ?_).change_ne hk rfl (Or.inl hpend) rfl
        exact List.mem_filter.mpr ⟨hmem, decide_eq_true (Ne.symm hk)⟩
    · intro e he
      rw [State.pending, hpend] at he
      rcases List.mem_append.mp he with he | he
      · exact List.mem_append_left _ (h.recorded e he)
      · exact List.mem_append_right _ he
    · intro key flow handle hflow hr hfrom
      exact List.mem_append_left _ (h.sources key flow handle hflow hr hfrom)
  · refine ⟨h.idle, h.fresh, ?_, ?_,
      ?_, h.origin⟩
    · intro key flow hflow hfs hm
      have hk : event.key ≠ key := fun hk => hm (hk ▸ List.mem_cons_self)
      refine (h.follows key flow hflow hfs fun hmem => hm ?_).change_ne hk rfl (Or.inr rfl) rfl
      exact List.mem_cons_of_mem _ hmem
    · intro e he
      exact List.mem_append_left _ (h.recorded e he)
    · intro key flow handle hflow hr hfrom
      exact List.mem_append_left _ (h.sources key flow handle hflow hr hfrom)

theorem stored_eq_some (h : s.stored key = some value) :
    latest WatchEvent.key key s.log = some (.put key value) := by
  rw [State.stored] at h
  split at h
  · rename_i k v hlast
    cases h
    obtain rfl : k = key := (latest_eq_some hlast).2
    exact hlast
  · cases h

/-- A key without a value agrees with a flow that does not run. -/
theorem agrees_of_stored (h : s.stored key = none) {handle : Option (FlowHandle C)}
    (hn : handle = none) : Agrees config key flow (latest WatchEvent.key key s.log) handle := by
  rw [State.stored] at h
  unfold Agrees
  split
  · rename_i hlast
    rw [hlast] at h
    cases h
  · exact hn

/-- A key is read when the app starts. -/
theorem Tracked.load (h : Tracked config s) (hs : s.starting = true) (hk : key ∉ s.loaded) :
    Tracked config (s.load config key) := by
  have hidle := h.idle hs
  have hmem : ∀ {k : String}, k ≠ key → k ∉ s.missed.filter (· ≠ key) → k ∉ s.missed := by
    intro k hne hm hmem
    exact hm (List.mem_filter.mpr ⟨hmem, decide_eq_true hne⟩)
  rw [State.load]
  dsimp only
  split
  · rename_i value hval
    have hlast : latest WatchEvent.key key s.log = some (.put key value) := stored_eq_some hval
    have ha : Applied config s.registry (.put key value) (loadFlow config s.registry key value) :=
      loadFlow_applied
    obtain ⟨hsrc, horig⟩ := h.sources_applied ha (latest_eq_some hlast).1
    refine ⟨fun _ => hidle, ?_, ?_,
      h.recorded, hsrc, horig⟩
    · intro _ k flow hflow hfs hl
      have hne : k ≠ key := fun he => hl (he ▸ List.mem_cons_self)
      refine (ha.other hflow (Ne.symm hne)).trans (h.fresh hs k flow hflow hfs fun hmem => hl ?_)
      exact List.mem_cons_of_mem _ hmem
    · intro k flow hflow hfs hm
      show Follows config k flow (latest WatchEvent.key k s.pending)
        (latest WatchEvent.key k s.log) (loadFlow config s.registry key value flow)
      rw [hidle.2, latest_nil]
      by_cases hne : k = key
      · subst hne
        rw [hlast]
        exact loadFlow_agrees hflow hfs
      · have hold := h.follows k flow hflow hfs (hmem hne hm)
        rw [State.Follows, hidle.2, latest_nil] at hold
        rw [ha.other hflow (Ne.symm hne)]
        exact hold
  · rename_i hval
    refine ⟨fun _ => hidle, ?_, ?_,
      h.recorded, h.sources, h.origin⟩
    · intro _ k flow hflow hfs hl
      exact h.fresh hs k flow hflow hfs fun hmem => hl (List.mem_cons_of_mem _ hmem)
    · intro k flow hflow hfs hm
      by_cases hne : k = key
      · subst hne
        show Follows config k flow (latest WatchEvent.key k s.pending)
          (latest WatchEvent.key k s.log) (s.registry flow)
        rw [hidle.2, latest_nil]
        exact agrees_of_stored hval (h.fresh hs k flow hflow hfs hk)
      · exact h.follows k flow hflow hfs (hmem hne hm)

/-- The event of a key is applied. -/
theorem Tracked.reconcile [DecidableEq C] (h : Tracked config s)
    (he : latest WatchEvent.key key s.todo = some event) :
    Tracked config { s with
      registry := Reload.reconcile config s.registry event
      todo := s.todo.filter (WatchEvent.key · ≠ key) } := by
  obtain ⟨hmem, rfl⟩ := latest_eq_some he
  have hns : ¬ s.starting = true := by
    intro hs
    have hnil : s.pending = [] := (h.idle hs).2
    have hin : event ∈ s.pending := by
      simp only [State.pending, List.append_assoc]
      exact List.mem_append_left _ hmem
    rw [hnil] at hin
    cases hin
  have hrest : ∀ k, latest WatchEvent.key k s.pending =
      (latest WatchEvent.key k (s.batch ++ s.channel ++ s.stream)).or
        (latest WatchEvent.key k s.todo) := by
    intro k
    rw [← latest_append, State.pending]
    simp only [List.append_assoc]
  have ha : Applied config s.registry event (Reload.reconcile config s.registry event) :=
    reconcile_applied
  obtain ⟨hsrc, horig⟩ := h.sources_applied ha
    (h.recorded event (by simp only [State.pending, List.append_assoc]; exact List.mem_append_left _ hmem))
  refine ⟨fun hs => absurd hs hns, fun hs => absurd hs hns, ?_,
    ?_, hsrc, horig⟩
  · intro k flow hflow hfs hm
    have hold := h.follows k flow hflow hfs hm
    rw [State.Follows, hrest] at hold
    have hnew : latest WatchEvent.key k (s.todo.filter (WatchEvent.key · ≠ event.key) ++ s.batch ++
        s.channel ++ s.stream) = (latest WatchEvent.key k (s.batch ++ s.channel ++ s.stream)).or
          (latest WatchEvent.key k (s.todo.filter (WatchEvent.key · ≠ event.key))) := by
      rw [← latest_append]
      simp only [List.append_assoc]
    rw [State.Follows, State.pending, hnew]
    by_cases hk : event.key = k
    · subst hk
      rw [latest_filter_self]
      rw [he] at hold
      cases hr : latest WatchEvent.key event.key (s.batch ++ s.channel ++ s.stream) with
      | some e' =>
          -- a later event of the key is on its way
          rw [hr] at hold
          exact hold
      | none =>
          rw [hr] at hold
          rw [show latest WatchEvent.key event.key s.log = some event from hold]
          exact reconcile_agrees hflow hfs
    · rw [latest_filter_ne (Ne.symm hk)]
      show Follows config k flow _ _ (Reload.reconcile config s.registry event flow)
      rw [ha.other hflow hk]
      exact hold
  · intro e hin
    refine h.recorded e ?_
    simp only [State.pending, List.append_assoc, List.mem_append] at hin ⊢
    exact hin.imp_left List.mem_of_mem_filter

theorem map_finishFlow {A : Type} (f : FlowHandle C → A)
    (hf : ∀ handle, f { handle with finished := true } = f handle) :
    (finishFlow registry flow flow').map f = (registry flow').map f := by
  by_cases h : flow' = flow
  · subst h
    rw [finishFlow, Function.update_self, Option.map_map]
    exact Option.map_congr fun handle _ => hf handle
  · rw [finishFlow, Function.update_of_ne h]

theorem finishFlow_eq_none : finishFlow registry flow flow' = none ↔ registry flow' = none := by
  rw [← Option.map_eq_none_iff (f := FlowHandle.flowYaml), map_finishFlow _ fun _ => rfl,
    Option.map_eq_none_iff]

theorem finishFlow_eq_some (h : finishFlow registry flow flow' = some handle) :
    ∃ old, registry flow' = some old ∧ old.flowYaml = handle.flowYaml ∧
      old.fromFilesystem = handle.fromFilesystem := by
  let origin : FlowHandle C → C × Bool := fun handle => (handle.flowYaml, handle.fromFilesystem)
  have hm : (finishFlow registry flow flow').map origin = (registry flow').map origin :=
    map_finishFlow origin fun _ => rfl
  rw [h] at hm
  obtain ⟨old, hold, he⟩ := Option.map_eq_some_iff.mp hm.symm
  exact ⟨old, hold, congrArg Prod.fst he, congrArg Prod.snd he⟩

theorem Tracked.finish (h : Tracked config s) :
    Tracked config { s with registry := finishFlow s.registry flow } := by
  refine ⟨h.idle, ?_, ?_, h.recorded,
    ?_, ?_⟩
  · intro hs k flow' hflow hfs hl
    exact finishFlow_eq_none.mpr (h.fresh hs k flow' hflow hfs hl)
  · intro k flow' hflow hfs hm
    have hold := h.follows k flow' hflow hfs hm
    exact hold.congr (map_finishFlow _ fun _ => rfl)
  · intro k flow' handle hflow hr hfrom
    obtain ⟨old, hold, hyaml, hfs⟩ := finishFlow_eq_some hr
    exact hyaml ▸ h.sources k flow' old hflow hold (hfs.trans hfrom)
  · intro flow' handle hr
    obtain ⟨old, hold, _, hfs⟩ := finishFlow_eq_some hr
    exact hfs ▸ h.origin flow' old hold

theorem Tracked.step [DecidableEq C] {act : Act C} (h : Tracked config s)
    (hs : Reload.step config s act = some t) : Tracked config t := by
  cases act with
  | change event =>
      obtain rfl := Option.some.inj hs
      exact h.change
  | load key =>
      simp only [Reload.step] at hs
      split at hs
      · rename_i hc
        rw [Bool.and_eq_true, decide_eq_true_eq] at hc
        obtain rfl := Option.some.inj hs
        exact h.load hc.1 hc.2
      · cases hs
  | started =>
      obtain rfl := Option.some.inj hs
      exact h.move rfl rfl rfl (fun _ hk => hk) (fun hst => by cases hst) (fun _ _ => rfl)
        fun _ he => he
  | connect =>
      simp only [Reload.step] at hs
      split at hs
      · cases hs
      · rename_i hc
        rw [Bool.or_eq_true, not_or] at hc
        obtain rfl := Option.some.inj hs
        exact h.move rfl rfl rfl (fun _ hk => hk) (fun hst => absurd hst hc.1) (fun _ _ => rfl)
          fun _ he => he
  | disconnect =>
      obtain rfl := Option.some.inj hs
      refine h.move rfl rfl rfl ?_ ?_ ?_ ?_
      · intro key hk
        exact List.mem_append_right _ hk
      · intro hstart
        exact ⟨hstart, rfl⟩
      · intro key hm
        have hnone : latest WatchEvent.key key s.stream = none := by
          refine latest_eq_none.mpr ?_
          intro e he hk
          refine hm (List.mem_append_left _ ?_)
          exact hk ▸ List.mem_map_of_mem he
        have hpending : latest WatchEvent.key key s.pending =
            latest WatchEvent.key key (s.todo ++ s.batch ++ s.channel) := by
          rw [State.pending, latest_append, hnone]
          rfl
        rw [hpending, State.pending, List.append_nil]
      · intro e he
        rw [State.pending, List.append_nil] at he
        exact List.mem_append_left _ he
  | forward =>
      simp only [Reload.step] at hs
      split at hs
      · rename_i event stream hst
        obtain rfl := Option.some.inj hs
        refine h.hand_on rfl rfl rfl rfl rfl rfl ?_
        show s.todo ++ s.batch ++ (s.channel ++ [event]) ++ stream = s.pending
        rw [State.pending, hst]
        simp only [List.append_assoc, List.singleton_append]
      · cases hs
  | collect =>
      simp only [Reload.step] at hs
      split at hs
      · rename_i event channel htodo hch
        obtain rfl := Option.some.inj hs
        refine h.hand_on rfl rfl rfl rfl rfl rfl ?_
        show s.todo ++ (s.batch ++ [event]) ++ channel ++ s.stream = s.pending
        rw [State.pending, hch]
        simp only [List.append_assoc, List.cons_append, List.nil_append]
      · cases hs
  | flush =>
      simp only [Reload.step] at hs
      split at hs
      · rename_i htodo
        obtain rfl := Option.some.inj hs
        refine h.move rfl rfl rfl (fun _ hk => hk) ?_ ?_ ?_
        · intro hstart
          exact ⟨hstart, (h.idle hstart).1⟩
        · -- the batch ends, for each key, with the same event
          intro key _
          rw [State.pending, State.pending, htodo, List.nil_append, List.append_nil,
            latest_append, latest_append, latest_append, latest_append, latest_coalesce]
        · intro e he
          rw [State.pending, htodo, List.nil_append]
          simp only [State.pending, List.append_nil, List.append_assoc, List.mem_append] at he ⊢
          exact he.imp_left mem_of_mem_coalesce
      · cases hs
  | reconcile key =>
      obtain ⟨event, he, rfl⟩ := Option.map_eq_some_iff.mp hs
      obtain rfl : event.key = key := (latest_eq_some he).2
      exact h.reconcile he
  | finish flow =>
      obtain rfl := Option.some.inj hs
      exact h.finish

/-! ## What runs in the end -/

/-- The flows that run from the cache are those of the valid configs stored
under the prefix, each with its latest content. -/
def Converged (config : Config C) (s : State C) : Prop :=
  ∀ key flow value, deriveFlowName config.keyPrefix key = some flow →
    (s.running flow = some value ↔
      s.stored key = some value ∧ config.valid key flow value = true)

/-- A flow runs from the cache as its key has it, unless the config that is
stored cannot be run. -/
structure Settled (config : Config C) (s : State C) (key flow : String) : Prop where
  absent : s.stored key = none → s.running flow = none
  valid : ∀ value, s.stored key = some value → config.valid key flow value = true →
    s.running flow = some value
  known : ∀ value, s.running flow = some value → .put key value ∈ s.log

theorem running_eq_some : s.running flow = some value ↔
    ∃ handle, s.registry flow = some handle ∧ handle.fromFilesystem = false ∧
      handle.flowYaml = value := by
  rw [State.running]
  cases s.registry flow with
  | none => simp
  | some handle => cases hf : handle.fromFilesystem <;> simp [hf]

theorem Tracked.running_eq (h : Tracked config s) (hfs : flow ∉ config.filesystemFlowPaths) :
    s.running flow = (s.registry flow).map (·.flowYaml) := by
  rw [State.running]
  cases hr : s.registry flow with
  | none => rfl
  | some handle =>
      have hf : ¬ handle.fromFilesystem = true := fun hf => hfs ((h.origin flow handle hr).mp hf)
      simp only [if_neg hf, Option.map_some]

/-- When the changes have stopped and the watch is connected and drained, no
flow of the filesystem has been replaced, and every other flow whose key's last
change was not missed is as its key has it: it does not run if the key is not
stored, it runs from what is stored if that can be run, and otherwise from
nothing but what was stored before. -/
theorem settled_of_drained [DecidableEq C] (h : (hotReload config).Reachable s) (hd : s.Drained) :
    (∀ flow ∈ config.filesystemFlowPaths, s.running flow = none) ∧
      ∀ key flow, deriveFlowName config.keyPrefix key = some flow →
        flow ∉ config.filesystemFlowPaths → key ∉ s.missed → Settled config s key flow := by
  have ht : Tracked config s :=
    h.invariant (fun _ h0 => tracked_start h0) fun _ _ _ hi _ hs => hi.step hs
  constructor
  · intro flow hfs
    cases hr : s.running flow with
    | none => rfl
    | some value =>
        obtain ⟨handle, hreg, hf, _⟩ := running_eq_some.mp hr
        cases hf.symm.trans ((ht.origin flow handle hreg).mpr hfs)
  · intro key flow hflow hfs hm
    have hpend : s.pending = [] := by
      rw [State.pending, hd.todo, hd.batch, hd.channel, hd.stream]
      rfl
    have hagrees : Agrees config key flow (latest WatchEvent.key key s.log) (s.registry flow) := by
      have hfollows := ht.follows key flow hflow hfs hm
      rwa [State.Follows, hpend, latest_nil] at hfollows
    refine ⟨?_, ?_, ?_⟩
    · intro hn
      rw [ht.running_eq hfs]
      have hnone : s.registry flow = none := by
        rw [State.stored] at hn
        unfold Agrees at hagrees
        split at hagrees
        · rename_i hlast
          rw [hlast] at hn
          cases hn
        · exact hagrees
      rw [hnone]
      rfl
    · intro value hv hvalid
      rw [ht.running_eq hfs]
      rw [stored_eq_some hv] at hagrees
      exact hagrees hvalid
    · intro value hv
      obtain ⟨handle, hr, hf, rfl⟩ := running_eq_some.mp hv
      exact ht.sources key flow handle hflow hr hf

/-! ## Two runs -/

/-- Configs are texts, and the empty one cannot be parsed. -/
def texts (filesystemFlowPaths : List String) : Config String where
  keyPrefix := "flows"
  filesystemFlowPaths := filesystemFlowPaths
  stages :=
    { parse := fun _ value => value != ""
      fromPath := fun flow _ => flow != ""
      build := fun _ _ => true
      init := fun _ _ => true
      startTasks := fun _ _ => true }

/-- The app starts over an empty cache. -/
def State.empty : State C where
  log := []
  starting := true
  loaded := []
  connected := false
  stream := []
  channel := []
  batch := []
  todo := []
  registry _ := none
  missed := []

theorem start_empty {config : Config C} : (State.empty : State C).Start config := by
  refine ⟨rfl, rfl, rfl, ⟨rfl, rfl, rfl, rfl⟩, ?_, ?_,
    fun _ _ => rfl⟩
  · intro key hk
    cases hk
  · intro _ _ handle hr
    cases hr

/-- A change that the watch delivers and the reconciler applies. -/
def applied (event : WatchEvent C) : List (Act C) :=
  [Act.change event, .forward, .collect, .flush, .reconcile event.key]

/-- A flow is changed while the watch is down, and once more after that. -/
theorem settled_of_drained_reconnected :
    ∃ s : State String, s.Drained ∧ s.running "a" = some "v3" ∧ s.stored "flows.a" = some "v3" ∧
      Settled (texts []) s "flows.a" "a" := by
  have hrun : (((hotReload (texts [])).exec (fun _ _ => True) .empty
      ([Act.started, .connect] ++ applied (.put "flows.a" "v1") ++
        [Act.disconnect, .change (.put "flows.a" "v2"), .connect] ++
        applied (.put "flows.a" "v3"))).any fun s =>
      !s.starting && s.connected && s.stream.isEmpty && s.channel.isEmpty && s.batch.isEmpty &&
        s.todo.isEmpty && s.missed.isEmpty && s.running "a" == some "v3" &&
          s.stored "flows.a" == some "v3") = true := by
    decide
  obtain ⟨s, hr, hs⟩ := Machine.exists_of_exec hrun
  simp only [Bool.and_eq_true, Bool.not_eq_true', List.isEmpty_iff, beq_iff_eq] at hs
  obtain ⟨⟨⟨⟨⟨⟨⟨⟨hstart, hconn⟩, hst⟩, hch⟩, hb⟩, htd⟩, hm⟩, hrunning⟩, hstored⟩ := hs
  have hd : s.Drained := ⟨hstart, hconn, hst, hch, hb, htd⟩
  have hsettled := (settled_of_drained ⟨_, _, start_empty, hr⟩ hd).2 "flows.a" "a" (by decide)
    List.not_mem_nil (hm ▸ List.not_mem_nil)
  exact ⟨s, hd, hrunning, hstored, hsettled⟩

/-- A config that cannot be parsed is put over one that runs: the old one goes
on serving. -/
theorem broken_config_keeps_serving :
    ∃ s : State String, (hotReload (texts [])).Reachable s ∧ s.Drained ∧ s.missed = [] ∧
      s.stored "flows.a" = some "" ∧ s.running "a" = some "v1" ∧ ¬ Converged (texts []) s := by
  have hrun : (((hotReload (texts [])).exec (fun _ _ => True) .empty
      ([Act.started, .connect] ++ applied (.put "flows.a" "v1") ++
        applied (.put "flows.a" ""))).any fun s =>
      !s.starting && s.connected && s.stream.isEmpty && s.channel.isEmpty && s.batch.isEmpty &&
        s.todo.isEmpty && s.missed.isEmpty && s.running "a" == some "v1" &&
          s.stored "flows.a" == some "") = true := by
    decide
  obtain ⟨s, hr, hs⟩ := Machine.exists_of_exec hrun
  simp only [Bool.and_eq_true, Bool.not_eq_true', List.isEmpty_iff, beq_iff_eq] at hs
  obtain ⟨⟨⟨⟨⟨⟨⟨⟨hstart, hconn⟩, hst⟩, hch⟩, hb⟩, htd⟩, hm⟩, hrunning⟩, hstored⟩ := hs
  refine ⟨s, ⟨_, _, start_empty, hr⟩, ⟨hstart, hconn, hst, hch, hb, htd⟩, hm, hstored, hrunning,
    ?_⟩
  intro hc
  have hv : s.stored "flows.a" = some "v1" := ((hc "flows.a" "a" "v1" (by decide)).mp hrunning).1
  exact absurd (Option.some.inj (hstored.symm.trans hv)) (by decide)

end Flowgen.Reload
