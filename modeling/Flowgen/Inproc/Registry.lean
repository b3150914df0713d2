/-
# `Flowgen.Inproc.Registry` — calls of flows in the process (`core/src/task/inproc`)

A flow with an `inproc_endpoint` registers how it is called.  `call` takes the
flows that wait for the call, outermost first, and turns it away if the callee
is one of them, is not registered, or does not admit the direct caller.
Otherwise the callee receives an event with a completion of its own, and with
the callers as its call stack.

The call stack comes from the event the caller handles: events built in its
context inherit it (`EventBuilder.new`), `inproc_request` appends its own flow.
-/
import Flowgen.Task.Batching
import Flowgen.Text

namespace Flowgen.Inproc

open Flowgen.Task.Batching

variable {V : Type}

/-! ## Building events (`core/src/event.rs`) -/

/-- The operations on the JSON objects that metas are. -/
structure Metas (V : Type) where
  new : V
  containsKey : V → String → Bool
  insert : V → String → String → V
  /-- The entries of the second object, written over those of the first. -/
  extend : V → V → V

/-- What `with_event_context` makes known to the builders in its scope. -/
structure EventContext (V : Type) where
  currentEventMeta : Option V
  currentSession : Option UserSession
  currentCallStack : List String

def withEventContext (event : Event V) : EventContext V :=
  ⟨event.metaMap, event.session, event.callStack⟩

structure EventBuilder (V : Type) where
  data : EventData V
  metaMap : Option V
  completionTx : Option Nat := none
  session : Option UserSession
  callStack : List String

/-- `EventBuilder::new`, outside of every context or in one, and `data`. -/
def EventBuilder.new (metas : Metas V) (uuid : String) (context : Option (EventContext V))
    (data : EventData V) : EventBuilder V where
  data := data
  metaMap :=
    let current := context.bind (·.currentEventMeta)
    match current with
    | some m =>
        if metas.containsKey m "correlation_id" then some m
        else some (metas.insert m "correlation_id" uuid)
    | none => some (metas.insert metas.new "correlation_id" uuid)
  session := context.bind (·.currentSession)
  callStack := (context.map (·.currentCallStack)).getD []

/-- `meta_merge`. -/
def EventBuilder.metaMerge (metas : Metas V) (b : EventBuilder V) (extra : V) : EventBuilder V :=
  { b with
    metaMap :=
      match b.metaMap with
      | some existing => some (metas.extend existing extra)
      | none => some extra }

/-- `build`: every builder here has its required attributes. -/
def EventBuilder.build (b : EventBuilder V) : Event V where
  data := b.data
  metaMap := b.metaMap
  completionTx := b.completionTx
  session := b.session
  callStack := b.callStack

/-! ## The registry (`inproc/registry.rs`) -/

/-- Failure of an in-process flow call. -/
inductive CallError
  | notFound (flow : String)
  | notAllowed (caller flow : String)
  | recursive (flow : String)
  | closed (flow : String)
  | failed (reason : String)
  | timeout (after : String)
  | dropped
deriving DecidableEq

def CallError.message : CallError → String
  | .notFound flow => "No flow with an inproc_endpoint runs as '" ++ flow ++ "' on this pod"
  | .notAllowed caller flow =>
      "The flow '" ++ caller ++ "' is not allowed to call '" ++ flow ++
        "'; see the callers of its inproc_endpoint"
  | .recursive flow => "The flow '" ++ flow ++ "' would end up calling itself"
  | .closed flow => "The flow '" ++ flow ++ "' stopped accepting calls"
  | .failed reason => "The flow failed: " ++ reason
  | .timeout after => "The flow did not finish within " ++ after
  | .dropped => "The flow stopped before finishing"

/-- An `inproc_endpoint` registered by a running flow.  The timeout is the
duration as it is displayed. -/
structure Registration where
  leafCount : Nat
  ackTimeout : Option String
  callers : List String

/-- `default_callers`. -/
def defaultCallers (flow : String) : List String :=
  match Text.splitOnce '/' flow.toList with
  | some (folder, _) => [String.ofList folder ++ "/"]
  | none => [""]

abbrev InprocRegistry := AList fun _ : String => Registration

/-- The checks of `call`, and the registration they end with. -/
def InprocRegistry.check (registry : InprocRegistry) (callers : List String) (flow : String) :
    Except CallError Registration :=
  if callers.any (· == flow) then .error (.recursive flow)
  else
    match registry.lookup flow with
    | none => .error (.notFound flow)
    | some registration =>
        match callers.getLast? with
        | some caller =>
            if registration.callers.any (Text.within caller) then .ok registration
            else .error (.notAllowed caller flow)
        | none => .ok registration

/-- The event `call` hands over to the flow. -/
def callEvent (metas : Metas V) (uuid : String) (callers : List String) (data : V) (extra : V)
    (session : Option UserSession) (completionTx : Nat) : Event V :=
  EventBuilder.build
    { (EventBuilder.new metas uuid none (.json data)).metaMerge metas extra with
      completionTx := some completionTx
      session := session
      callStack := callers }

/-- A call is admitted only if the callee is not among those who wait for it. -/
theorem InprocRegistry.not_mem_of_check {registry : InprocRegistry} {callers : List String}
    {flow : String} {registration : Registration}
    (h : registry.check callers flow = .ok registration) : flow ∉ callers := by
  intro hmem
  have hany : callers.any (· == flow) = true := List.any_eq_true.mpr ⟨flow, hmem, beq_self_eq_true _⟩
  rw [check, if_pos hany] at h
  cases h

/-- The cycle check comes before all others. -/
theorem InprocRegistry.check_of_mem (registry : InprocRegistry) {callers : List String}
    {flow : String} (h : flow ∈ callers) : registry.check callers flow = .error (.recursive flow) := by
  have hany : callers.any (· == flow) = true := List.any_eq_true.mpr ⟨flow, h, beq_self_eq_true _⟩
  rw [check, if_pos hany]

/-! ## The handlers -/

/-- An event that a task builds while it handles another one. -/
def derived (metas : Metas V) (uuid : String) (event : Event V) (data : EventData V)
    (completionTx : Option Nat) : Event V :=
  EventBuilder.build
    { EventBuilder.new metas uuid (some (withEventContext event)) data with
      completionTx := completionTx }

/-- The callers `inproc_request` names: those of its event, then its own flow. -/
def callersOf (flow : String) (event : Event V) : List String := event.callStack ++ [flow]

/-- The event `inproc_request` emits for the result of its call. -/
def resultEvent (metas : Metas V) (uuid : String) (null : V) (event : Event V)
    (result : Option V) (completionTx : Option Nat) : Event V :=
  let builder := EventBuilder.new metas uuid none (.json (result.getD null))
  let builder :=
    match event.metaMap with
    | some extra => builder.metaMerge metas extra
    | none => builder
  EventBuilder.build
    { builder with
      completionTx := completionTx
      session := event.session
      callStack := event.callStack }

/-- `forward_failure`, to a task that accepts events. -/
def forwardFailure (event : Event V) (error : String) : Event V :=
  { event with error := some error }

/-- The event of a batch. -/
def batchEvent (metas : Metas V) (uuid : String) (data : V) (origin : Origin V)
    (completionTx : Option Nat) : Event V :=
  let builder := EventBuilder.new metas uuid none (.json data)
  EventBuilder.build
    { builder with
      metaMap := match origin.metaMap with | some m => some m | none => builder.metaMap
      completionTx := completionTx
      session := match origin.session with | some session => some session | none => builder.session
      callStack := origin.callStack }

@[simp] theorem callStack_callEvent (metas : Metas V) (uuid : String) (callers : List String)
    (data extra : V) (session : Option UserSession) (tx : Nat) :
    (callEvent metas uuid callers data extra session tx).callStack = callers := rfl

@[simp] theorem callStack_derived (metas : Metas V) (uuid : String) (event : Event V)
    (data : EventData V) (tx : Option Nat) :
    (derived metas uuid event data tx).callStack = event.callStack := rfl

@[simp] theorem callStack_resultEvent (metas : Metas V) (uuid : String) (null : V)
    (event : Event V) (result : Option V) (tx : Option Nat) :
    (resultEvent metas uuid null event result tx).callStack = event.callStack := rfl

@[simp] theorem callStack_batchEvent (metas : Metas V) (uuid : String) (data : V)
    (origin : Origin V) (tx : Option Nat) :
    (batchEvent metas uuid data origin tx).callStack = origin.callStack := rfl

end Flowgen.Inproc
