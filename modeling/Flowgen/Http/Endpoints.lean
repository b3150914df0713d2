/-
# `Flowgen.Http.Endpoints` — the routes of the HTTP endpoints
(`core/src/http_server.rs`, `http/src/endpoint.rs`, `http/src/server.rs`)

All `http_endpoint` tasks of all flows share one dispatch table.  A task registers
its endpoint when its flow starts, or when its flow becomes the leader; stopping a
flow removes the entries that carry its name.  A request is answered by the flow
whose entry stands under its path.

A task registers with `register`, which replaces whatever stands there.  So a second
flow that claims the path of a running one takes over its requests, and when it is
stopped the path is gone although the first flow still runs.  The routes are kept
exactly in the runs where no task registers the path of another running flow
(`routes_kept_iff`).  `try_register` refuses a taken path (`tryRegister_keeps`); no
endpoint calls it.
-/
import Flowgen.Lib.Machine

namespace Flowgen.Http

open Flowgen.Lib

/-! ## The server's table (`core/src/http_server.rs`) -/

inductive Method
  | get
  | post
  | put
  | delete
  | patch
  | head
deriving DecidableEq

/-- `Method::as_str` of the `http` crate. -/
def Method.asStr : Method → String
  | .get => "GET"
  | .post => "POST"
  | .put => "PUT"
  | .delete => "DELETE"
  | .patch => "PATCH"
  | .head => "HEAD"

/-- A start of a flow: its name, and which of all starts it is. -/
structure Start where
  flow : String
  number : Nat
deriving DecidableEq

/-- Of the channel into the flow it is kept which start of the flow reads it. -/
structure EndpointRegistration where
  flowName : String
  method : Method
  tx : Start
deriving DecidableEq

abbrev Table := String → Option EndpointRegistration

/-- Replaces any prior entry. -/
def register (table : Table) (key : String) (registration : EndpointRegistration) : Table :=
  Function.update table key (some registration)

/-- Hands the registration back when the key is taken. -/
def tryRegister (table : Table) (key : String) (registration : EndpointRegistration) :
    Except EndpointRegistration Table :=
  match table key with
  | some _ => .error registration
  | none => .ok (Function.update table key (some registration))

def deregisterFlow (table : Table) (flowName : String) : Table := fun key =>
  (table key).filter fun registration => registration.flowName != flowName

theorem register_self {table : Table} {key : String} {registration : EndpointRegistration} :
    register table key registration key = some registration := by
  simp [register]

theorem register_of_ne {table : Table} {key key' : String} {registration : EndpointRegistration}
    (h : key' ≠ key) : register table key registration key' = table key' := by
  simp [register, h]

/-- An entry survives the stop of any flow but its own. -/
theorem deregisterFlow_eq_some {table : Table} {flow key : String}
    {registration : EndpointRegistration} :
    deregisterFlow table flow key = some registration ↔
      table key = some registration ∧ registration.flowName ≠ flow := by
  simp [deregisterFlow]

/-- What `try_register` accepts displaces nothing. -/
theorem tryRegister_keeps {table table' : Table} {key key' : String}
    {registration other : EndpointRegistration}
    (h : tryRegister table key registration = .ok table') (hother : table key' = some other) :
    table' key' = some other := by
  rw [tryRegister] at h
  split at h
  · cases h
  · rename_i hfree
    cases h
    have hne : key' ≠ key := by
      rintro rfl
      rw [hfree] at hother
      cases hother
    rw [Function.update_of_ne hne, hother]

/-! ## Dispatching a request (`http/src/server.rs`) -/

def methodsMatch (reqMethod : String) (configured : Method) : Bool :=
  reqMethod == configured.asStr

inductive Response
  | notFound (text : String)
  | methodNotAllowed (text : String)
  /-- The request goes to the flow of this entry. -/
  | dispatched (registration : EndpointRegistration)
deriving DecidableEq

/-- The catch-all route gives the path without its leading slash. -/
def dispatchWebhook (table : Table) (endpoint reqMethod : String) : Response :=
  let lookupKey := "/" ++ endpoint
  match table lookupKey with
  | none => .notFound "Unknown webhook endpoint"
  | some registration =>
      if !methodsMatch reqMethod registration.method then
        .methodNotAllowed "Method not allowed for this webhook"
      else .dispatched registration

/-- The endpoint of this start of a flow is registered under the key, and the
requests to the key go to it. -/
def ServedBy (table : Table) (key : String) (start : Start) : Prop :=
  ∃ registration, table key = some registration ∧ registration.flowName = start.flow ∧
    registration.tx = start ∧ ∀ endpoint reqMethod, "/" ++ endpoint = key →
      methodsMatch reqMethod registration.method = true →
      dispatchWebhook table endpoint reqMethod = .dispatched registration

theorem servedBy_iff {table : Table} {key : String} {start : Start} :
    ServedBy table key start ↔ ∃ registration, table key = some registration ∧
      registration.flowName = start.flow ∧ registration.tx = start := by
  constructor
  · rintro ⟨registration, hentry, hflow, htx, _⟩
    exact ⟨registration, hentry, hflow, htx⟩
  · rintro ⟨registration, hentry, hflow, htx⟩
    refine ⟨registration, hentry, hflow, htx, ?_⟩
    intro endpoint reqMethod hkey hmethod
    simp [dispatchWebhook, hkey, hentry, hmethod]

/-! ## Flows that start and stop (`app/src/flow.rs`, `app/src/reconciler.rs`) -/

inductive Phase
  /-- Its tasks are started, and the endpoints are awaited. -/
  | starting
  /-- It is in the registry of the flows. -/
  | running
  /-- It has ended by itself; its handle stays in the registry. -/
  | finished
deriving DecidableEq

structure Flow where
  start : Start
  isLeaderElected : Bool
  /-- Of the `http_endpoint` tasks of its config. -/
  endpoints : List (String × Method)
  phase : Phase
deriving DecidableEq

/-- A spawned `http_endpoint` task that has not registered yet. -/
structure Task where
  start : Start
  endpoint : String
  method : Method
deriving DecidableEq

/-- `spawn_all_tasks`, as far as the endpoints go. -/
def Flow.spawnAllTasks (f : Flow) : List Task :=
  f.endpoints.map fun (endpoint, method) => ⟨f.start, endpoint, method⟩

def Task.registration (task : Task) : EndpointRegistration where
  flowName := task.start.flow
  method := task.method
  tx := task.start

structure State where
  table : Table
  flows : String → Option Flow
  tasks : List Task
  starts : Nat
  /-- Who holds a key: the running flow that registered it while no other running
  flow held it.  The program does not keep this. -/
  owner : String → Option Start

/-- No flow has been started. -/
def State.initial : State := ⟨fun _ => none, fun _ => none, [], 0, fun _ => none⟩

/-- This start of the flow is neither stopped nor has it ended. -/
def State.live (s : State) (start : Start) : Bool :=
  (s.flows start.flow).any fun f => f.start == start && f.phase != .finished

/-- The owners after the task has registered. -/
def State.claim (s : State) (task : Task) : String → Option Start :=
  if s.owner task.endpoint = none ∧ s.live task.start then
    Function.update s.owner task.endpoint (some task.start)
  else s.owner

/-- The owners after a flow of this name no longer runs. -/
def State.release (s : State) (flow : String) : String → Option Start := fun key =>
  (s.owner key).filter fun start => start.flow != flow

inductive Action
  /-- `start_tasks`, of a flow that is not in the registry: `reconcile_put` stops it
  first.  A leader-elected flow has no tasks yet. -/
  | startTasks (flow : String) (isLeaderElected : Bool) (endpoints : List (String × Method))
  /-- A leader-elected flow spawns its tasks, possibly in several parallel instances. -/
  | lead (flow : String) (instances : Nat)
  /-- A task has initialised and registers. -/
  | register (task : Nat)
  /-- A task ends without registering: it cannot initialise, or it is aborted. -/
  | fail (task : Nat)
  /-- The endpoints of a starting flow are awaited, and it is put into the registry. -/
  | insert (flow : String)
  | finish (flow : String)
  /-- `stop_and_deregister`, or the stop of the app.  Tasks that still initialise are
  not awaited for ever. -/
  | stop (flow : String)
deriving DecidableEq

def step (s : State) : Action → Option State
  | .startTasks flow isLeaderElected endpoints =>
      match s.flows flow with
      | some _ => none
      | none =>
          let new : Flow := ⟨⟨flow, s.starts⟩, isLeaderElected, endpoints, .starting⟩
          some { s with
            flows := Function.update s.flows flow (some new)
            tasks := s.tasks ++ if isLeaderElected then [] else new.spawnAllTasks
            starts := s.starts + 1 }
  | .lead flow instances =>
      match s.flows flow with
      | none => none
      | some f =>
          if f.isLeaderElected ∧ f.phase = .running then
            some { s with
              tasks := s.tasks ++ (List.replicate instances f.spawnAllTasks).flatten }
          else none
  | .register task =>
      match s.tasks[task]? with
      | none => none
      | some t =>
          some { s with
            table := register s.table t.endpoint t.registration
            tasks := s.tasks.eraseIdx task
            owner := s.claim t }
  | .fail task =>
      if task < s.tasks.length then some { s with tasks := s.tasks.eraseIdx task } else none
  | .insert flow =>
      match s.flows flow with
      | none => none
      | some f =>
          if f.phase = .starting ∧ ∀ t ∈ s.tasks, t.start ≠ f.start then
            some { s with flows := Function.update s.flows flow (some { f with phase := .running }) }
          else none
  | .finish flow =>
      match s.flows flow with
      | none => none
      | some f =>
          if f.phase = .running then
            some { s with
              flows := Function.update s.flows flow (some { f with phase := .finished })
              owner := s.release flow }
          else none
  | .stop flow =>
      match s.flows flow with
      | none => none
      | some f =>
          if f.phase ≠ .starting then
            some { s with
              table := deregisterFlow s.table flow
              flows := Function.update s.flows flow none
              owner := s.release flow }
          else none

attribute [grind =] step

def machine : Machine State Action where
  init s := s = State.initial
  step := step

/-! ## The routes -/

/-- The requests to a key that a running flow owns go to this flow. -/
def Routed (s : State) : Prop :=
  ∀ key start, s.owner key = some start → ServedBy s.table key start

/-- The step registers no key that another running flow owns. -/
def respects (s : State) : Action → Bool
  | .register task =>
      (s.tasks[task]?).all fun t => (s.owner t.endpoint).all fun start => start == t.start
  | _ => true

/-- Owners run, and their keys are routed to them. -/
structure Inv (s : State) : Prop where
  live : ∀ key start, s.owner key = some start → s.live start = true
  routed : Routed s

theorem State.live_iff {s : State} {start : Start} :
    s.live start = true ↔ ∃ f, s.flows start.flow = some f ∧ f.start = start ∧
      f.phase ≠ .finished := by
  simp [State.live, Option.any_eq_true]

/-- Where no flow of the name is in the registry, none is alive. -/
theorem State.ne_of_live {s : State} {flow : String} {start : Start}
    (hlive : s.live start = true) (hnone : s.flows flow = none) : start.flow ≠ flow := by
  rintro rfl
  obtain ⟨f, hf, _⟩ := State.live_iff.mp hlive
  rw [hnone] at hf
  cases hf

/-- A change to the flow of another name leaves a flow alive. -/
theorem State.live_of_ne {s t : State} {flow : String} {f : Option Flow} {start : Start}
    (hflows : t.flows = Function.update s.flows flow f) (hne : start.flow ≠ flow)
    (hlive : s.live start = true) : t.live start = true := by
  obtain ⟨g, hg, hstart, hphase⟩ := State.live_iff.mp hlive
  refine State.live_iff.mpr ⟨g, ?_, hstart, hphase⟩
  rw [hflows, Function.update_of_ne hne, hg]

theorem release_eq_some {s : State} {flow key : String} {start : Start} :
    s.release flow key = some start ↔ s.owner key = some start ∧ start.flow ≠ flow := by
  simp [State.release]

/-- The owner of a key after a registration: as before, or the task's own flow, which
takes a key that nobody owns. -/
theorem State.claim_eq_some {s : State} {task : Task} {key : String} {start : Start}
    (h : s.claim task key = some start) :
    s.owner key = some start ∨
      key = task.endpoint ∧ start = task.start ∧ s.live task.start = true := by
  rw [State.claim] at h
  split at h
  · rename_i hfree
    by_cases hkey : key = task.endpoint
    · subst hkey
      rw [Function.update_self] at h
      cases h
      exact .inr ⟨rfl, rfl, hfree.2⟩
    · rw [Function.update_of_ne hkey] at h
      exact .inl h
  · exact .inl h

/-- A key that is owned keeps its owner when a task registers it. -/
theorem State.claim_owned {s : State} {task : Task} {start : Start}
    (h : s.owner task.endpoint = some start) : s.claim task = s.owner := by
  simp [State.claim, h]

theorem Inv.initial : Inv State.initial where
  live := by
    intro key start h
    cases h
  routed := by
    intro key start h
    cases h

/-- A step that changes neither table nor owners, and keeps who is alive. -/
theorem Inv.frame {s t : State} (hs : Inv s) (htable : t.table = s.table)
    (howner : t.owner = s.owner) (hlive : ∀ start, s.live start = true → t.live start = true) :
    Inv t where
  live := by
    intro key start h
    rw [howner] at h
    exact hlive start (hs.live key start h)
  routed := by
    intro key start h
    rw [howner] at h
    rw [htable]
    exact hs.routed key start h

/-- A flow no longer runs: its keys are released, and the entries of the other flows
stay. -/
theorem Inv.release {s t : State} {flow : String} {f : Option Flow} (hs : Inv s)
    (hflows : t.flows = Function.update s.flows flow f) (howner : t.owner = s.release flow)
    (htable : ∀ key registration, s.table key = some registration →
      registration.flowName ≠ flow → t.table key = some registration) : Inv t where
  live := by
    intro key start h
    rw [howner, release_eq_some] at h
    exact State.live_of_ne hflows h.2 (hs.live key start h.1)
  routed := by
    intro key start h
    rw [howner, release_eq_some] at h
    obtain ⟨registration, hentry, hflow, htx⟩ := servedBy_iff.mp (hs.routed key start h.1)
    have hne : registration.flowName ≠ flow := hflow ▸ h.2
    exact servedBy_iff.mpr ⟨registration, htable key registration hentry hne, hflow, htx⟩

/-- A task registers a key that no other running flow owns. -/
theorem Inv.register {s t : State} {task : Task} (hs : Inv s)
    (hflows : t.flows = s.flows) (howner : t.owner = s.claim task)
    (htable : t.table = register s.table task.endpoint task.registration)
    (hrespects : ∀ start, s.owner task.endpoint = some start → start = task.start) : Inv t where
  live := by
    intro key start h
    rw [howner] at h
    have hlive : s.live start = true := by
      rcases State.claim_eq_some h with hold | ⟨_, rfl, hlive⟩
      · exact hs.live key start hold
      · exact hlive
    rw [State.live, hflows]
    exact hlive
  routed := by
    intro key start h
    rw [howner] at h
    rw [servedBy_iff, htable]
    by_cases hkey : key = task.endpoint
    · subst hkey
      have hstart : start = task.start := by
        rcases State.claim_eq_some h with hold | ⟨_, hstart, _⟩
        · exact hrespects start hold
        · exact hstart
      subst hstart
      exact ⟨task.registration, register_self, rfl, rfl⟩
    · have hold : s.owner key = some start := by
        rcases State.claim_eq_some h with hold | ⟨hkey', _⟩
        · exact hold
        · exact absurd hkey' hkey
      rw [register_of_ne hkey]
      exact servedBy_iff.mp (hs.routed key start hold)

/-- The step lemma: a step that registers no key of another running flow keeps the
routes. -/
theorem Inv.step {s t : State} {a : Action} (hs : Inv s) (ha : respects s a = true)
    (hstep : step s a = some t) : Inv t := by
  cases a with
  | startTasks flow isLeaderElected endpoints =>
      simp only [Http.step] at hstep
      split at hstep
      · cases hstep
      · rename_i hnone
        cases hstep
        refine hs.frame rfl rfl ?_
        intro start hlive
        exact State.live_of_ne rfl (State.ne_of_live hlive hnone) hlive
  | lead flow instances =>
      simp only [Http.step] at hstep
      split at hstep
      · cases hstep
      · obtain ⟨_, hstep⟩ := Option.ite_none_right_eq_some.mp hstep
        cases hstep
        exact hs.frame rfl rfl fun start hlive => hlive
  | register task =>
      simp only [Http.step] at hstep
      split at hstep
      · cases hstep
      · rename_i t htask
        cases hstep
        refine hs.register rfl rfl rfl ?_
        intro start hstart
        simpa [respects, htask, hstart] using ha
  | fail task =>
      obtain ⟨_, hstep⟩ := Option.ite_none_right_eq_some.mp hstep
      cases hstep
      exact hs.frame rfl rfl fun start hlive => hlive
  | insert flow =>
      simp only [Http.step] at hstep
      split at hstep
      · cases hstep
      · rename_i f hf
        obtain ⟨_, hstep⟩ := Option.ite_none_right_eq_some.mp hstep
        cases hstep
        refine hs.frame rfl rfl ?_
        intro start hlive
        by_cases hflow : start.flow = flow
        · obtain ⟨g, hg, hstart, _⟩ := State.live_iff.mp hlive
          rw [hflow, hf] at hg
          cases hg
          refine State.live_iff.mpr ⟨{ f with phase := .running }, ?_, hstart, ?_⟩
          · rw [hflow]
            exact Function.update_self ..
          · intro h
            cases h
        · exact State.live_of_ne rfl hflow hlive
  | finish flow =>
      simp only [Http.step] at hstep
      split at hstep
      · cases hstep
      · obtain ⟨_, hstep⟩ := Option.ite_none_right_eq_some.mp hstep
        cases hstep
        exact hs.release rfl rfl fun key registration hentry _ => hentry
  | stop flow =>
      simp only [Http.step] at hstep
      split at hstep
      · cases hstep
      · obtain ⟨_, hstep⟩ := Option.ite_none_right_eq_some.mp hstep
        cases hstep
        refine hs.release rfl rfl ?_
        intro key registration hentry hne
        exact deregisterFlow_eq_some.mpr ⟨hentry, hne⟩

/-- A step after which the routes are kept registers no key of another running flow:
it would have displaced the owner. -/
theorem respects_of_routed {s t : State} {a : Action} (hstep : step s a = some t)
    (ht : Routed t) : respects s a = true := by
  cases a with
  | register task =>
      simp only [Http.step] at hstep
      split at hstep
      · cases hstep
      · rename_i r htask
        cases hstep
        rw [respects, htask, Option.all_some, Option.all_eq_true]
        intro start hstart
        have hrouted := ht r.endpoint start (by rw [State.claim_owned hstart, hstart])
        obtain ⟨registration, hentry, _, htx⟩ := servedBy_iff.mp hrouted
        have hown : r.registration = registration := by
          exact Option.some.inj (register_self.symm.trans hentry)
        rw [← htx, ← hown]
        exact beq_self_eq_true _
  | startTasks | lead | fail | insert | finish | stop => rfl

/-- After every step of a run each key that a running flow owns is routed to this
flow, exactly if no step of the run registers a key that another running flow owns. -/
theorem routes_kept_iff {as : List Action} {t : State} :
    machine.RunThrough Routed State.initial as t ↔
      machine.RunOf (fun s a => respects s a = true) State.initial as t := by
  refine Machine.runThrough_iff (I := Inv) Inv.initial ?_ ?_
  · intro s a t hs ha hstep
    have ht : Inv t := hs.step ha hstep
    exact ⟨ht, ht.routed⟩
  · intro s a t _ hstep ht
    exact respects_of_routed hstep ht

/-- Two flows claim one path; the second is stopped, and the first runs without it. -/
theorem route_hijacked : ∃ as t, machine.Run State.initial as t ∧
    t.owner "/hook" = some ⟨"a", 0⟩ ∧ t.live ⟨"a", 0⟩ = true ∧
    dispatchWebhook t.table "hook" "POST" = .notFound "Unknown webhook endpoint" ∧
    ¬ Routed t := by
  have hrun : (machine.exec (fun _ _ => True) State.initial
      [.startTasks "a" false [("/hook", .post)], .register 0, .insert "a",
        .startTasks "b" false [("/hook", .post)], .register 0, .insert "b", .stop "b"]).any
      (fun t => t.owner "/hook" == some ⟨"a", 0⟩ && t.live ⟨"a", 0⟩ &&
        t.table "/hook" == none) = true := by
    rfl
  obtain ⟨t, hr, ht⟩ := Machine.exists_of_exec hrun
  obtain ⟨⟨howner, hlive⟩, htable⟩ : (t.owner "/hook" = some ⟨"a", 0⟩ ∧
      t.live ⟨"a", 0⟩ = true) ∧ t.table "/hook" = none := by
    simpa using ht
  refine ⟨_, t, hr, howner, hlive, ?_, ?_⟩
  · have hkey : "/" ++ "hook" = "/hook" := by decide
    simp [dispatchWebhook, hkey, htable]
  · intro hrouted
    obtain ⟨registration, hentry, _⟩ := hrouted "/hook" ⟨"a", 0⟩ howner
    rw [htable] at hentry
    cases hentry

end Flowgen.Http
