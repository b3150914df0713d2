/-
# `Flowgen.Inproc.Calls` — flows that wait for one another

The state of a process in which flows call flows: the events in flight and the
flow each is in, the calls under way with the event their caller handles, the
tasks that pass a completion on, and the batches that buffers are filling.  An
action is one thing a task does with an event; which tasks a flow has is left
open, so every event may be handled by every kind of task.

A flow waits for the completion of its call, and for every completion that holds
it up (`State.waiting`): the caller's own event is not done before the call is,
and a completion absorbed by a batch is not done before the batch is.

`calls_cycle_free` is what the registry's check is there for: a flow that waits
for an event is on the event's call stack, so a call by which it would wait for
itself is turned away.  It needs that a batch takes in no event with a
completion whose call stack goes beyond that of the batch's first event
(`Nests`), because the batch keeps that one only.  `batch_hides_caller` is a run
in which two callers share a batch, and the second ends up waiting for itself.
-/
import Flowgen.Lib.Machine
import Flowgen.Lib.WaitGraph
import Flowgen.Event
import Flowgen.Inproc.Registry

namespace Flowgen.Inproc

open Flowgen.Lib Flowgen.Task.Batching Flowgen.Task.Buffer

variable {V : Type}

/-! ## States -/

/-- An event and the flow it is in. -/
structure Located (V : Type) where
  flow : String
  event : Event V

/-- A call under way: the event the caller handles, and the completion it
awaits. -/
structure Call (V : Type) where
  handled : Located V
  registration : Registration
  completion : Nat

/-- The task that `spawn_completion_proxy` or `spawn_fan_in_completion` spawns:
it waits for a completion and then signals others. -/
structure Forward where
  completion : Nat
  upstreams : List Nat

/-- A batch that a buffer of the flow is filling. -/
structure Filling (V : Type) where
  flow : String
  events : List (Event V)

structure State (V : Type) where
  registry : InprocRegistry := ∅
  completions : List (CompletionState V) := []
  events : List (Located V) := []
  calls : List (Call V) := []
  forwards : List Forward := []
  fillings : List (Filling V) := []

/-- What the tasks are given: operations on JSON. -/
structure Env (V : Type) where
  metas : Metas V
  null : V
  dataAsJson : EventData V → Option V
  toJson : FlushData V → V

/-- What a source puts into its event. -/
structure Sourced (V : Type) where
  data : EventData V
  metaMap : Option V
  session : Option UserSession
  /-- The leaf count, where the source waits for a completion. -/
  leafCount : Option Nat

inductive Act (V : Type)
  | register (flow : String) (registration : Registration)
  | deregister (flow : String)
  /-- A source emits an event. -/
  | source (flow : String) (sourced : Sourced V)
  /-- Flowgen itself calls a flow. -/
  | publish (flow : String) (uuid : String) (data extra : V) (session : Option UserSession)
  /-- A task emits another event for one it handles. -/
  | derive (i : Nat) (uuid : String) (data : EventData V) (carries : Bool)
  /-- `fan_out`, or an attempt that is retried. -/
  | clone (i : Nat)
  /-- `iterate` emits an element, with a completion of its own. -/
  | element (i : Nat) (uuid : String) (data : EventData V) (leafCount : Nat)
  /-- A task is through with an event. -/
  | finish (i : Nat)
  /-- A task has failed with an event for good. -/
  | fail (i : Nat) (error : String) (leaf : Bool)
  /-- `inproc_request` makes its call. -/
  | request (i : Nat) (flow : String) (uuid : String) (leaf : Bool)
  /-- A call ends. -/
  | settle (j : Nat) (outcome : Except CallError (Option V)) (uuid : String) (leaf : Bool)
  /-- A buffer takes in an event: into the batch at `k`, or into a new one. -/
  | collect (i k : Nat)
  /-- A trigger flushes a batch. -/
  | flush (k : Nat) (uuid : String) (reason : FlushReason) (partitionKey : Option String)
      (leafCount : Nat) (leaf : Bool)

/-! ## Steps -/

/-- The completion that the next `new_completion_channel` creates. -/
def State.fresh (s : State V) : Nat := s.completions.length

def State.newCompletionChannel (s : State V) (leafCount : Nat) : State V :=
  { s with completions := s.completions ++ [.new leafCount] }

/-- A completion with a task that forwards it. -/
def State.forward (s : State V) (leafCount : Nat) (upstreams : List Nat) : State V :=
  { s.newCompletionChannel leafCount with
    forwards := s.forwards ++ [⟨s.fresh, upstreams⟩] }

/-- The handler of `p` awaits the completion of its call. -/
def State.call (s : State V) (p : Located V) (registration : Registration) : State V :=
  { s.newCompletionChannel registration.leafCount with
    calls := s.calls ++ [⟨p, registration, s.fresh⟩] }

def State.send (s : State V) (events : List (Located V)) : State V :=
  { s with events := s.events ++ events }

def State.take (s : State V) (i : Nat) : State V := { s with events := s.events.eraseIdx i }

/-- `is_permanent` of an error of `inproc_request`, which comes from its call. -/
def CallError.isPermanent : CallError → Bool
  | .notFound _ | .closed _ => false
  | _ => true

/-- What is left of an event whose call has failed: it is handled again, or
forwarded as failed unless the task is a leaf. -/
def afterFailure (error : CallError) (leaf : Bool) (p : Located V) : List (Located V) :=
  if error.isPermanent then
    if leaf then [] else [{ p with event := forwardFailure p.event error.message }]
  else [p]

/-- How a call that was admitted may end. -/
def Registration.mayEnd (registration : Registration) : Except CallError (Option V) → Bool
  | .ok _ => true
  | .error (.closed _) | .error (.failed _) | .error .dropped => true
  | .error (.timeout after) => registration.ackTimeout == some after
  | .error _ => false

def Sourced.event (sourced : Sourced V) (completionTx : Nat) : Event V where
  data := sourced.data
  metaMap := sourced.metaMap
  session := sourced.session
  completionTx := sourced.leafCount.map fun _ => completionTx
  callStack := []

/-- The batch of the events `g`. -/
def batchOf (reason : FlushReason) (partitionKey : Option String) (g : List (Event V)) : Batch V where
  data :=
    { batch := g.filterMap fun e => (jsonData e.data).toOption
      batchSize := g.length
      flushReason := reason
      partitionKey := partitionKey }
  origin := originOf g
  upstreamCompletions := absorbAll (g.map (·.completionTx))

/-- `flush_buffer` for a task with an output channel. -/
def State.sendBatch (env : Env V) (s : State V) (flow uuid : String) (batch : Batch V)
    (leafCount : Nat) : State V :=
  let event := batchEvent env.metas uuid (env.toJson batch.data) batch.origin
  match (spawnCompletionProxy (V := V) batch.upstreamCompletions).1 with
  | none => s.send [⟨flow, event none⟩]
  | some (.upstream u) => s.send [⟨flow, event (some u)⟩]
  | some .proxy =>
      (s.forward (max leafCount 1) batch.upstreamCompletions).send
        [⟨flow, event (some s.fresh)⟩]

def step (env : Env V) (s : State V) : Act V → Option (State V)
  | .register flow registration =>
      some { s with registry := s.registry.insert flow registration }
  | .deregister flow => some { s with registry := s.registry.erase flow }
  | .source flow sourced =>
      let event := sourced.event s.fresh
      match sourced.leafCount with
      | some leafCount => some ((s.newCompletionChannel leafCount).send [⟨flow, event⟩])
      | none => some (s.send [⟨flow, event⟩])
  | .publish flow uuid data extra session =>
      match s.registry.check [] flow with
      | .error _ => none
      | .ok registration =>
          let event := callEvent env.metas uuid [] data extra session s.fresh
          some ((s.newCompletionChannel registration.leafCount).send [⟨flow, event⟩])
  | .derive i uuid data carries =>
      (s.events[i]?).map fun p =>
        let completionTx := if carries then p.event.completionTx else none
        s.send [⟨p.flow, derived env.metas uuid p.event data completionTx⟩]
  | .clone i => (s.events[i]?).map fun p => s.send [p]
  | .element i uuid data leafCount =>
      (s.events[i]?).map fun p =>
        let event := derived env.metas uuid p.event data (some s.fresh)
        (s.forward (max leafCount 1) p.event.completionTx.toList).send [⟨p.flow, event⟩]
  | .finish i => some (s.take i)
  | .fail i error leaf =>
      (s.events[i]?).map fun p =>
        (s.take i).send (if leaf then [] else [{ p with event := forwardFailure p.event error }])
  | .request i flow uuid leaf =>
      (s.events[i]?).bind fun p =>
        match p.event.error, env.dataAsJson p.event.data with
        | none, some data =>
            let callers := callersOf p.flow p.event
            match s.registry.check callers flow with
            | .error error => some ((s.take i).send (afterFailure error leaf p))
            | .ok registration =>
                let extra := p.event.metaMap.getD env.metas.new
                let event :=
                  callEvent env.metas uuid callers data extra p.event.session s.fresh
                some (((s.take i).call p registration).send [⟨flow, event⟩])
        | _, _ => none
  | .settle j outcome uuid leaf =>
      (s.calls[j]?).bind fun c =>
        if c.registration.mayEnd outcome then
          let p := c.handled
          let s := { s with calls := s.calls.eraseIdx j }
          match outcome with
          | .error error => some (s.send (afterFailure error leaf p))
          | .ok result =>
              let event :=
                resultEvent env.metas uuid env.null p.event result p.event.completionTx
              some (s.send (if leaf then [] else [⟨p.flow, event⟩]))
        else none
  | .collect i k =>
      (s.events[i]?).bind fun p =>
        match p.event.error, jsonData p.event.data with
        | none, .ok _ =>
            if k = s.fillings.length then
              some { s.take i with fillings := s.fillings ++ [⟨p.flow, [p.event]⟩] }
            else
              (s.fillings[k]?).bind fun f =>
                if f.flow = p.flow then
                  some
                    { s.take i with
                      fillings := s.fillings.set k { f with events := f.events ++ [p.event] } }
                else none
        | _, _ => none
  | .flush k uuid reason partitionKey leafCount leaf =>
      (s.fillings[k]?).map fun f =>
        let s := { s with fillings := s.fillings.eraseIdx k }
        if leaf then s
        else s.sendBatch env f.flow uuid (batchOf reason partitionKey f.events) leafCount

def machine (env : Env V) : Machine (State V) (Act V) where
  init s := s = {}
  step := step env

/-! ## Waiting -/

/-- A flow asks for the completion of its call.  What is handled by the caller
is held up by the call, and what is forwarded by that it is forwarded from. -/
def State.waiting (s : State V) : WaitGraph String Nat where
  asks flow tx := ∃ c ∈ s.calls, c.completion = tx ∧ c.handled.flow = flow
  holdsUp tx up :=
    (∃ c ∈ s.calls, c.completion = tx ∧ c.handled.event.completionTx = some up) ∨
      ∃ w ∈ s.forwards, w.completion = tx ∧ up ∈ w.upstreams

/-- The flow waits, directly or through further calls, for the completion of
the event. -/
def State.Waits (s : State V) (flow : String) (event : Event V) : Prop :=
  ∃ tx, event.completionTx = some tx ∧ s.waiting.Waits flow tx

/-- Where an event may be: in flight, with a caller, or in a batch. -/
def State.Present (s : State V) (p : Located V) : Prop :=
  p ∈ s.events ∨ (∃ c ∈ s.calls, c.handled = p) ∨
    ∃ f ∈ s.fillings, f.flow = p.flow ∧ p.event ∈ f.events

/-- No flow waits for itself, and no call can make it. -/
structure CycleFree (s : State V) : Prop where
  onStack : ∀ p, s.Present p → ∀ flow, s.Waits flow p.event → flow ∈ p.event.callStack
  away : ∀ p, s.Present p → ¬ s.Waits p.flow p.event
  rejects : ∀ p, s.Present p → ∀ flow, (flow = p.flow ∨ s.Waits flow p.event) →
    s.registry.check (callersOf p.flow p.event) flow = .error (.recursive flow)

/-- What a batch takes in after its first event does not go beyond that event's
call stack, where it carries a completion. -/
def Filling.Nests (f : Filling V) (e : Event V) : Prop :=
  e.completionTx.isSome = true → ∀ first ∈ f.events.head?, e.callStack ⊆ first.callStack

def Nests (s : State V) : Act V → Prop
  | .collect i k => ∀ p ∈ s.events[i]?, ∀ f ∈ s.fillings[k]?, f.Nests p.event
  | _ => True

/-! ## The invariant -/

/-- The event is not in a flow of its call stack, and who waits for it is on
its call stack. -/
def State.Safe (s : State V) (p : Located V) : Prop :=
  p.flow ∉ p.event.callStack ∧
    ∀ tx, p.event.completionTx = some tx →
      tx < s.fresh ∧ ∀ flow, s.waiting.Waits flow tx → flow ∈ p.event.callStack

structure Inv (s : State V) : Prop where
  safe : ∀ p, s.Present p → s.Safe p
  calls : ∀ c ∈ s.calls, c.completion < s.fresh
  forwards : ∀ w ∈ s.forwards, w.completion < s.fresh ∧ ∀ u ∈ w.upstreams, u < s.fresh
  nested : ∀ f ∈ s.fillings, ∀ e ∈ f.events, f.Nests e

/-- `t` came from `s`: what is new in it has new completions. -/
structure Extends (s t : State V) : Prop where
  fresh : s.fresh ≤ t.fresh
  calls : ∀ c ∈ t.calls, c.completion < s.fresh → c ∈ s.calls
  forwards : ∀ w ∈ t.forwards, w.completion < s.fresh → w ∈ s.forwards

variable {env : Env V} {s t : State V} {p q : Located V} {i j k tx leafCount : Nat}
  {flow : String} {es : List (Located V)} {ups : List Nat}

theorem Inv.init : Inv ({} : State V) := by
  refine ⟨?_, ?_, ?_, ?_⟩
  · rintro p (h | ⟨c, hc, _⟩ | ⟨f, hf, _⟩)
    · cases h
    · cases hc
    · cases hf
  · intro c hc
    cases hc
  · intro w hw
    cases hw
  · intro f hf
    cases hf

/-- What a known completion holds up is known. -/
theorem Inv.holdsUp_lt (h : Inv s) {up : Nat} (hup : s.waiting.holdsUp tx up) : up < s.fresh := by
  rcases hup with ⟨c, hc, _, hup⟩ | ⟨w, hw, _, hup⟩
  · exact ((h.safe _ (Or.inr (Or.inl ⟨c, hc, rfl⟩))).2 up hup).1
  · exact (h.forwards w hw).2 up hup

/-- Nobody waits for what has just been created. -/
theorem Inv.not_waits_fresh (h : Inv s) : ¬ s.waiting.Waits flow s.fresh := by
  intro hw
  rcases WaitGraph.waits_iff.mp hw with ⟨c, hc, heq, _⟩ | ⟨up, ⟨c, hc, heq, _⟩ | ⟨w, hw, heq, _⟩, _⟩
  · exact absurd heq (Nat.ne_of_lt (h.calls c hc))
  · exact absurd heq (Nat.ne_of_lt (h.calls c hc))
  · exact absurd heq (Nat.ne_of_lt (h.forwards w hw).1)

/-- Who waits for an old completion has waited for it before. -/
theorem Inv.waits_of_extends (h : Inv s) (hst : Extends s t) (htx : tx < s.fresh)
    (hw : t.waiting.Waits flow tx) : s.waiting.Waits flow tx := by
  refine hw.within (S := {tx | tx < s.fresh}) htx ?_ ?_
  · rintro b hb ⟨c, hc, rfl, hflow⟩
    exact ⟨c, hst.calls c hc hb, rfl, hflow⟩
  · rintro b hb up (⟨c, hc, rfl, hup⟩ | ⟨w, hw, rfl, hup⟩)
    · have hup' : s.waiting.holdsUp c.completion up := Or.inl ⟨c, hst.calls c hc hb, rfl, hup⟩
      exact ⟨h.holdsUp_lt hup', hup'⟩
    · have hup' : s.waiting.holdsUp w.completion up := Or.inr ⟨w, hst.forwards w hw hb, rfl, hup⟩
      exact ⟨h.holdsUp_lt hup', hup'⟩

theorem State.Safe.extends (hp : s.Safe p) (h : Inv s) (hst : Extends s t) : t.Safe p := by
  refine ⟨hp.1, ?_⟩
  intro tx htx
  obtain ⟨hlt, hwaits⟩ := hp.2 tx htx
  refine ⟨Nat.lt_of_lt_of_le hlt hst.fresh, ?_⟩
  intro flow hw
  exact hwaits flow (h.waits_of_extends hst hlt hw)

/-- Only the flow, the call stack and the completion matter; an event without
completion is waited for by nobody. -/
theorem State.Safe.congr (hp : s.Safe p) (hflow : q.flow = p.flow)
    (hstack : q.event.callStack = p.event.callStack)
    (htx : q.event.completionTx = none ∨ q.event.completionTx = p.event.completionTx) :
    s.Safe q := by
  refine ⟨?_, ?_⟩
  · rw [hflow, hstack]
    exact hp.1
  · intro tx hq
    rcases htx with htx | htx
    · rw [htx] at hq
      cases hq
    · rw [hstack]
      exact hp.2 tx (htx ▸ hq)

/-- An event with a new call stack and no completion. -/
theorem State.Safe.of_none (hflow : p.flow ∉ p.event.callStack)
    (htx : p.event.completionTx = none) : s.Safe p := by
  refine ⟨hflow, ?_⟩
  intro tx hq
  rw [htx] at hq
  cases hq

/-! ## What the parts of a step keep -/

theorem Inv.extend (h : Inv s) (hst : Extends s t)
    (hsafe : ∀ p, t.Present p → s.Safe p) (hcalls : ∀ c ∈ t.calls, c.completion < t.fresh)
    (hforwards : ∀ w ∈ t.forwards, w.completion < t.fresh ∧ ∀ u ∈ w.upstreams, u < t.fresh)
    (hnested : ∀ f ∈ t.fillings, ∀ e ∈ f.events, f.Nests e) : Inv t := by
  refine ⟨?_, hcalls, hforwards, hnested⟩
  intro p hp
  exact (hsafe p hp).extends h hst

theorem Inv.registry (h : Inv s) (registry : InprocRegistry) :
    Inv { s with registry := registry } :=
  ⟨h.safe, h.calls, h.forwards, h.nested⟩

theorem Inv.take (h : Inv s) (i : Nat) : Inv (s.take i) := by
  refine ⟨?_, h.calls, h.forwards, h.nested⟩
  rintro p (hp | hp)
  · exact h.safe p (Or.inl (List.mem_of_mem_eraseIdx hp))
  · exact h.safe p (Or.inr hp)

theorem Inv.send (h : Inv s) (hes : ∀ p ∈ es, s.Safe p) : Inv (s.send es) := by
  refine ⟨?_, h.calls, h.forwards, h.nested⟩
  rintro p (hp | hp)
  · rcases List.mem_append.mp hp with hp | hp
    · exact h.safe p (Or.inl hp)
    · exact hes p hp
  · exact h.safe p (Or.inr hp)

theorem Inv.send_one (h : Inv s) (hp : s.Safe p) : Inv (s.send [p]) := by
  refine h.send ?_
  intro q hq
  obtain rfl := List.mem_singleton.mp hq
  exact hp

theorem fresh_newCompletionChannel : (s.newCompletionChannel leafCount).fresh = s.fresh + 1 := by
  simp [State.fresh, State.newCompletionChannel]

theorem lt_fresh_newCompletionChannel : s.fresh < (s.newCompletionChannel leafCount).fresh := by
  rw [fresh_newCompletionChannel]
  exact Nat.lt_succ_self _

theorem extends_newCompletionChannel : Extends s (s.newCompletionChannel leafCount) :=
  ⟨Nat.le_of_lt lt_fresh_newCompletionChannel, fun _ hc _ => hc, fun _ hw _ => hw⟩

theorem Inv.newCompletionChannel (h : Inv s) : Inv (s.newCompletionChannel leafCount) := by
  have hlt : ∀ {n}, n < s.fresh → n < (s.newCompletionChannel leafCount).fresh := by
    intro n hn
    rw [fresh_newCompletionChannel]
    omega
  refine h.extend extends_newCompletionChannel h.safe ?_ ?_ h.nested
  · intro c hc
    exact hlt (h.calls c hc)
  · intro w hw
    exact ⟨hlt (h.forwards w hw).1, fun u hu => hlt ((h.forwards w hw).2 u hu)⟩

variable (leafCount) in
/-- Who waits for a forwarded completion waits for one it is forwarded to. -/
theorem Inv.forward (h : Inv s) (hups : ∀ u ∈ ups, u < s.fresh) :
    Inv (s.forward leafCount ups) ∧
      ∀ flow, (s.forward leafCount ups).waiting.Waits flow s.fresh →
        ∃ u ∈ ups, s.waiting.Waits flow u := by
  have hfresh : (s.forward leafCount ups).fresh = s.fresh + 1 := fresh_newCompletionChannel
  have hst : Extends s (s.forward leafCount ups) := by
    refine ⟨by omega, fun _ hc _ => hc, ?_⟩
    intro w hw hlt
    rcases List.mem_append.mp hw with hw | hw
    · exact hw
    · obtain rfl := List.mem_singleton.mp hw
      exact absurd hlt (Nat.lt_irrefl _)
  refine ⟨h.extend hst h.safe ?_ ?_ h.nested, ?_⟩
  · intro c hc
    have := h.calls c hc
    omega
  · intro w hw
    rcases List.mem_append.mp hw with hw | hw
    · obtain ⟨hlt, hu⟩ := h.forwards w hw
      exact ⟨by omega, fun u hmem => Nat.lt_of_lt_of_le (hu u hmem) hst.fresh⟩
    · obtain rfl := List.mem_singleton.mp hw
      exact ⟨hfresh ▸ Nat.lt_succ_self _, fun u hmem => Nat.lt_of_lt_of_le (hups u hmem) hst.fresh⟩
  · intro flow hw
    rcases WaitGraph.waits_iff.mp hw with ⟨c, hc, heq, _⟩ | ⟨up, ⟨c, hc, heq, _⟩ | ⟨w, hw, heq, hup⟩, hrest⟩
    · exact absurd heq (Nat.ne_of_lt (h.calls c hc))
    · exact absurd heq (Nat.ne_of_lt (h.calls c hc))
    · rcases List.mem_append.mp hw with hw | hw
      · exact absurd heq (Nat.ne_of_lt (h.forwards w hw).1)
      · obtain rfl := List.mem_singleton.mp hw
        exact ⟨up, hup, h.waits_of_extends hst (hups up hup) hrest⟩

/-- Who waits for a call made it, or waits for the event its caller handles. -/
theorem Inv.call (h : Inv s) (hp : s.Safe p) (registration : Registration) :
    Inv (s.call p registration) ∧
      ∀ flow, (s.call p registration).waiting.Waits flow s.fresh →
        flow = p.flow ∨ s.Waits flow p.event := by
  have hfresh : (s.call p registration).fresh = s.fresh + 1 := fresh_newCompletionChannel
  have hst : Extends s (s.call p registration) := by
    refine ⟨by omega, ?_, fun _ hw _ => hw⟩
    intro c hc hlt
    rcases List.mem_append.mp hc with hc | hc
    · exact hc
    · obtain rfl := List.mem_singleton.mp hc
      exact absurd hlt (Nat.lt_irrefl _)
  refine ⟨h.extend hst ?_ ?_ ?_ h.nested, ?_⟩
  · rintro q (hq | ⟨c, hc, rfl⟩ | hq)
    · exact h.safe q (Or.inl hq)
    · rcases List.mem_append.mp hc with hc | hc
      · exact h.safe _ (Or.inr (Or.inl ⟨c, hc, rfl⟩))
      · obtain rfl := List.mem_singleton.mp hc
        exact hp
    · exact h.safe q (Or.inr (Or.inr hq))
  · intro c hc
    rcases List.mem_append.mp hc with hc | hc
    · have := h.calls c hc
      omega
    · obtain rfl := List.mem_singleton.mp hc
      exact hfresh ▸ Nat.lt_succ_self _
  · intro w hw
    obtain ⟨hlt, hu⟩ := h.forwards w hw
    exact ⟨by omega, fun u hmem => Nat.lt_of_lt_of_le (hu u hmem) hst.fresh⟩
  · intro flow hw
    rcases WaitGraph.waits_iff.mp hw with ⟨c, hc, heq, hflow⟩ | ⟨up, ⟨c, hc, heq, hup⟩ | ⟨w, hw, heq, _⟩, hrest⟩
    · rcases List.mem_append.mp hc with hc | hc
      · exact absurd heq (Nat.ne_of_lt (h.calls c hc))
      · obtain rfl := List.mem_singleton.mp hc
        exact Or.inl hflow.symm
    · rcases List.mem_append.mp hc with hc | hc
      · exact absurd heq (Nat.ne_of_lt (h.calls c hc))
      · obtain rfl := List.mem_singleton.mp hc
        exact Or.inr ⟨up, hup, h.waits_of_extends hst (hp.2 up hup).1 hrest⟩
    · exact absurd heq (Nat.ne_of_lt (h.forwards w hw).1)

/-! ## What a batch carries on -/

/-- The origin keeps the call stack of the first event. -/
theorem callStack_originOf (first : Event V) (rest : List (Event V)) :
    (originOf (first :: rest)).callStack = first.callStack := by
  have hfold : ∀ (origin : Origin V),
      (rest.foldl (fun origin e => origin.add e.session) origin).callStack = origin.callStack := by
    induction rest with
    | nil =>
        intro origin
        rfl
    | cons e rest ih =>
        intro origin
        exact ih (origin.add e.session)
  exact hfold (.new first)

/-- What the loops of a buffer flush for a group of events is the batch made of
them. -/
theorem eq_batchOf {batch : Batch V} {key : Option String} {g : List (Event V)}
    (h : Carries batch key g) : batch = batchOf batch.data.flushReason key g := by
  have hbatch : batch.data.batch = g.filterMap fun e => (jsonData e.data).toOption := by
    have hmap := congrArg (List.filterMap fun d : EventData V => (jsonData d).toOption) h.batch
    rw [List.filterMap_map, List.filterMap_map] at hmap
    calc batch.data.batch = batch.data.batch.filterMap some := (List.filterMap_some).symm
      _ = g.filterMap fun e => (jsonData e.data).toOption := hmap
  obtain ⟨data, origin, completions⟩ := batch
  obtain ⟨values, size, reason, partitionKey⟩ := data
  obtain ⟨hkey, -, hsize, horigin, hcompletions⟩ := h
  simp only at hkey hsize horigin hcompletions hbatch
  subst hkey hsize horigin hcompletions hbatch
  rfl

/-- Who waits for an event of a batch is on the call stack of the batch. -/
theorem Inv.batch (h : Inv s) {f : Filling V} (hf : f ∈ s.fillings) :
    f.flow ∉ (originOf f.events).callStack ∧
      ∀ u ∈ absorbAll (f.events.map (·.completionTx)), u < s.fresh ∧
        ∀ flow, s.waiting.Waits flow u → flow ∈ (originOf f.events).callStack := by
  have hsafe : ∀ e ∈ f.events, s.Safe ⟨f.flow, e⟩ := by
    intro e he
    exact h.safe ⟨f.flow, e⟩ (Or.inr (Or.inr ⟨f, hf, rfl, he⟩))
  have hnested := h.nested f hf
  unfold Filling.Nests at hnested
  cases hg : f.events with
  | nil => exact ⟨List.not_mem_nil, fun u hu => absurd hu List.not_mem_nil⟩
  | cons first rest =>
      rw [hg] at hsafe hnested
      rw [callStack_originOf]
      refine ⟨(hsafe first List.mem_cons_self).1, ?_⟩
      intro u hu
      obtain ⟨e, he, htx⟩ := List.mem_map.mp (mem_absorbAll.mp hu)
      obtain ⟨hlt, hwaits⟩ := (hsafe e he).2 u htx
      refine ⟨hlt, ?_⟩
      intro flow hw
      have hsome : e.completionTx.isSome = true := by rw [htx]; rfl
      exact hnested e he hsome first rfl (hwaits flow hw)

theorem Inv.sendBatch (env : Env V) (h : Inv s) {batch : Batch V} {uuid : String}
    (hflow : flow ∉ batch.origin.callStack)
    (hups : ∀ u ∈ batch.upstreamCompletions, u < s.fresh ∧
      ∀ X, s.waiting.Waits X u → X ∈ batch.origin.callStack) :
    Inv (s.sendBatch env flow uuid batch leafCount) := by
  rw [State.sendBatch]
  match hu : batch.upstreamCompletions with
  | [] => exact h.send_one (.of_none hflow rfl)
  | [u] =>
      refine h.send_one ⟨hflow, ?_⟩
      intro tx htx
      obtain rfl := Option.some.inj htx
      exact hups u (hu ▸ List.mem_singleton_self u)
  | u :: v :: us =>
      rw [hu] at hups
      obtain ⟨hinv, hwaits⟩ := h.forward (max leafCount 1) fun u hmem => (hups u hmem).1
      refine hinv.send_one ⟨hflow, ?_⟩
      intro tx htx
      obtain rfl := Option.some.inj htx
      refine ⟨lt_fresh_newCompletionChannel, ?_⟩
      intro X hw
      obtain ⟨w, hmem, hw⟩ := hwaits X hw
      exact (hups w hmem).2 X hw

/-! ## Steps -/

/-- An event with a new completion that nothing forwards and no call awaits. -/
theorem Inv.send_fresh (h : Inv s) (hflow : p.flow ∉ p.event.callStack)
    (htx : p.event.completionTx = some s.fresh) :
    Inv ((s.newCompletionChannel leafCount).send [p]) := by
  refine h.newCompletionChannel.send_one ⟨hflow, ?_⟩
  intro tx hq
  obtain rfl := Option.some.inj (htx.symm.trans hq)
  refine ⟨lt_fresh_newCompletionChannel, ?_⟩
  intro flow hw
  exact absurd hw h.not_waits_fresh

theorem Inv.afterFailure (h : Inv s) (hp : s.Safe p) (error : CallError) (leaf : Bool) :
    Inv (s.send (afterFailure error leaf p)) := by
  rw [Inproc.afterFailure]
  split
  · split
    · exact h.send fun q hq => absurd hq List.not_mem_nil
    · exact h.send_one (hp.congr rfl rfl (Or.inr rfl))
  · exact h.send_one hp

theorem Inv.element (h : Inv s) (hp : s.Safe p) (metas : Metas V) (uuid : String)
    (data : EventData V) :
    Inv ((s.forward leafCount p.event.completionTx.toList).send
      [⟨p.flow, derived metas uuid p.event data (some s.fresh)⟩]) := by
  have hups : ∀ u ∈ p.event.completionTx.toList, u < s.fresh := by
    intro u hu
    exact (hp.2 u (Option.mem_toList.mp hu)).1
  obtain ⟨hinv, hwaits⟩ := h.forward leafCount hups
  refine hinv.send_one ⟨hp.1, ?_⟩
  intro tx htx
  obtain rfl := Option.some.inj htx
  refine ⟨lt_fresh_newCompletionChannel, ?_⟩
  intro flow hw
  obtain ⟨u, hu, hw⟩ := hwaits flow hw
  exact (hp.2 u (Option.mem_toList.mp hu)).2 flow hw

/-- A call that is admitted: the callee is not among the callers, and who waits
for the call is. -/
theorem Inv.request (h : Inv s) (hp : s.Safe p) {registration : Registration} {event : Event V}
    (hcheck : s.registry.check (callersOf p.flow p.event) flow = .ok registration)
    (hstack : event.callStack = callersOf p.flow p.event)
    (htx : event.completionTx = some s.fresh) :
    Inv ((s.call p registration).send [⟨flow, event⟩]) := by
  obtain ⟨hinv, hwaits⟩ := h.call hp registration
  refine hinv.send_one ⟨?_, ?_⟩
  · show flow ∉ event.callStack
    rw [hstack]
    exact InprocRegistry.not_mem_of_check hcheck
  · intro tx hq
    obtain rfl := Option.some.inj (htx.symm.trans hq)
    refine ⟨lt_fresh_newCompletionChannel, ?_⟩
    intro X hw
    show X ∈ event.callStack
    rw [hstack, callersOf, List.mem_append, List.mem_singleton]
    rcases hwaits X hw with hX | ⟨u, hu, hw⟩
    · exact Or.inr hX
    · exact Or.inl ((hp.2 u hu).2 X hw)

/-- A call is over: its caller no longer waits. -/
theorem Inv.settle (h : Inv s) (j : Nat) : Inv { s with calls := s.calls.eraseIdx j } := by
  refine h.extend ⟨Nat.le_refl _, fun c hc _ => List.mem_of_mem_eraseIdx hc, fun _ hw _ => hw⟩
    ?_ ?_ h.forwards h.nested
  · rintro q (hq | ⟨c, hc, hq⟩ | hq)
    · exact h.safe q (Or.inl hq)
    · exact h.safe q (Or.inr (Or.inl ⟨c, List.mem_of_mem_eraseIdx hc, hq⟩))
    · exact h.safe q (Or.inr (Or.inr hq))
  · intro c hc
    exact h.calls c (List.mem_of_mem_eraseIdx hc)

/-- Changing the batches leaves the waiting as it is. -/
theorem Inv.fillings (h : Inv s) {fillings : List (Filling V)}
    (hsafe : ∀ f ∈ fillings, ∀ e ∈ f.events, s.Safe ⟨f.flow, e⟩ ∧ f.Nests e) :
    Inv { s with fillings := fillings } := by
  refine ⟨?_, h.calls, h.forwards, fun f hf e he => (hsafe f hf e he).2⟩
  rintro q (hq | hq | ⟨f, hf, hflow, he⟩)
  · exact h.safe q (Or.inl hq)
  · exact h.safe q (Or.inr (Or.inl hq))
  · exact (hsafe f hf q.event he).1.congr hflow.symm rfl (Or.inr rfl)

theorem Inv.filled (h : Inv s) {f : Filling V} (hf : f ∈ s.fillings) :
    ∀ e ∈ f.events, s.Safe ⟨f.flow, e⟩ ∧ f.Nests e := by
  intro e he
  exact ⟨h.safe ⟨f.flow, e⟩ (Or.inr (Or.inr ⟨f, hf, rfl, he⟩)), h.nested f hf e he⟩

/-- Another event of the flow in a batch that nests it. -/
theorem Inv.collected (h : Inv s) (hp : s.Safe p) {f : Filling V} (hf : f ∈ s.fillings)
    (hflow : f.flow = p.flow) (hnests : f.Nests p.event) :
    Inv { s with fillings := s.fillings.set k { f with events := f.events ++ [p.event] } } := by
  refine h.fillings ?_
  intro f' hf' e he
  rcases List.mem_or_eq_of_mem_set hf' with hf' | rfl
  · exact h.filled hf' e he
  · have hold := h.filled hf
    refine ⟨?_, ?_⟩
    · rcases List.mem_append.mp he with he | he
      · exact (hold e he).1
      · obtain rfl := List.mem_singleton.mp he
        exact hp.congr hflow rfl (Or.inr rfl)
    · intro hsome first hfirst
      have hfirst' : (f.events ++ [p.event]).head? = some first := hfirst
      cases hg : f.events with
      | nil =>
          have he' : e ∈ f.events ++ [p.event] := he
          rw [hg, List.nil_append] at he' hfirst'
          obtain rfl := List.mem_singleton.mp he'
          obtain rfl := Option.some.inj hfirst'
          exact List.Subset.refl _
      | cons e₀ rest =>
          have hhead : first ∈ f.events.head? := by
            rw [hg] at hfirst' ⊢
            exact hfirst'
          rcases List.mem_append.mp he with he | he
          · exact (hold e he).2 hsome first hhead
          · obtain rfl := List.mem_singleton.mp he
            exact hnests hsome first hhead

theorem Inv.collected_first (h : Inv s) (hp : s.Safe p) :
    Inv { s with fillings := s.fillings ++ [⟨p.flow, [p.event]⟩] } := by
  refine h.fillings ?_
  intro f hf e he
  rcases List.mem_append.mp hf with hf | hf
  · exact h.filled hf e he
  · obtain rfl := List.mem_singleton.mp hf
    obtain rfl := List.mem_singleton.mp he
    refine ⟨hp, ?_⟩
    intro _ first hfirst
    obtain rfl := Option.some.inj hfirst
    exact List.Subset.refl _

theorem Inv.safe_get (h : Inv s) (hp : s.events[i]? = some p) : s.Safe p :=
  h.safe p (Or.inl (List.mem_of_getElem? hp))

theorem Inv.step {a : Act V} (h : Inv s) (hok : Nests s a) (hs : step env s a = some t) : Inv t := by
  cases a with
  | register flow registration =>
      cases hs
      exact h.registry _
  | deregister flow =>
      cases hs
      exact h.registry _
  | source flow sourced =>
      cases hl : sourced.leafCount with
      | none =>
          simp only [Inproc.step, hl, Option.some.injEq] at hs
          subst hs
          refine h.send_one (.of_none List.not_mem_nil ?_)
          show sourced.leafCount.map _ = none
          rw [hl]
          rfl
      | some leafCount =>
          simp only [Inproc.step, hl, Option.some.injEq] at hs
          subst hs
          refine h.send_fresh List.not_mem_nil ?_
          show sourced.leafCount.map _ = some s.fresh
          rw [hl]
          rfl
  | publish flow uuid data extra session =>
      simp only [Inproc.step] at hs
      split at hs
      · cases hs
      · cases hs
        exact h.send_fresh List.not_mem_nil rfl
  | derive i uuid data carries =>
      obtain ⟨p, hp, rfl⟩ := Option.map_eq_some_iff.mp hs
      refine h.send_one ((h.safe_get hp).congr rfl rfl ?_)
      cases carries with
      | true => exact Or.inr rfl
      | false => exact Or.inl rfl
  | clone i =>
      obtain ⟨p, hp, rfl⟩ := Option.map_eq_some_iff.mp hs
      exact h.send_one (h.safe_get hp)
  | element i uuid data leafCount =>
      obtain ⟨p, hp, rfl⟩ := Option.map_eq_some_iff.mp hs
      exact h.element (h.safe_get hp) env.metas uuid data
  | finish i =>
      cases hs
      exact h.take i
  | fail i error leaf =>
      obtain ⟨p, hp, rfl⟩ := Option.map_eq_some_iff.mp hs
      cases leaf with
      | true => exact (h.take i).send fun q hq => absurd hq List.not_mem_nil
      | false => exact (h.take i).send_one ((h.safe_get hp).congr rfl rfl (Or.inr rfl))
  | request i flow uuid leaf =>
      obtain ⟨p, hp, hs⟩ := Option.bind_eq_some_iff.mp hs
      have hsafe : (s.take i).Safe p := h.safe_get hp
      split at hs
      · dsimp only at hs
        split at hs
        · cases hs
          exact (h.take i).afterFailure hsafe _ leaf
        · rename_i hcheck
          cases hs
          exact (h.take i).request hsafe hcheck rfl rfl
      · cases hs
  | settle j outcome uuid leaf =>
      obtain ⟨c, hc, hs⟩ := Option.bind_eq_some_iff.mp hs
      have hsafe : s.Safe c.handled :=
        h.safe c.handled (Or.inr (Or.inl ⟨c, List.mem_of_getElem? hc, rfl⟩))
      have hsafe' := hsafe.extends (t := { s with calls := s.calls.eraseIdx j }) h
        ⟨Nat.le_refl _, fun c hc _ => List.mem_of_mem_eraseIdx hc, fun _ hw _ => hw⟩
      split at hs
      · cases outcome with
        | error error =>
            cases hs
            exact (h.settle j).afterFailure hsafe' error leaf
        | ok result =>
            cases hs
            cases leaf with
            | true => exact (h.settle j).send fun q hq => absurd hq List.not_mem_nil
            | false => exact (h.settle j).send_one (hsafe'.congr rfl rfl (Or.inr rfl))
      · cases hs
  | collect i k =>
      obtain ⟨p, hp, hs⟩ := Option.bind_eq_some_iff.mp hs
      have hsafe : (s.take i).Safe p := h.safe_get hp
      split at hs
      · split at hs
        · cases hs
          exact (h.take i).collected_first hsafe
        · obtain ⟨f, hf, hs⟩ := Option.bind_eq_some_iff.mp hs
          split at hs
          · rename_i hflow
            cases hs
            exact (h.take i).collected hsafe (List.mem_of_getElem? hf) hflow (hok p hp f hf)
          · cases hs
      · cases hs
  | flush k uuid reason partitionKey leafCount leaf =>
      obtain ⟨f, hf, rfl⟩ := Option.map_eq_some_iff.mp hs
      have hrest : Inv { s with fillings := s.fillings.eraseIdx k } :=
        h.fillings fun f hf => h.filled (List.mem_of_mem_eraseIdx hf)
      obtain ⟨hflow, hups⟩ := h.batch (List.mem_of_getElem? hf)
      cases leaf with
      | true => exact hrest
      | false => exact hrest.sendBatch env hflow hups

/-! ## No flow waits for itself -/

theorem Inv.cycleFree (h : Inv s) : CycleFree s := by
  have honStack : ∀ p, s.Present p → ∀ flow, s.Waits flow p.event → flow ∈ p.event.callStack := by
    rintro p hp flow ⟨tx, htx, hw⟩
    exact ((h.safe p hp).2 tx htx).2 flow hw
  refine ⟨honStack, ?_, ?_⟩
  · intro p hp hw
    exact (h.safe p hp).1 (honStack p hp p.flow hw)
  · intro p hp flow hflow
    refine InprocRegistry.check_of_mem s.registry ?_
    rw [callersOf, List.mem_append, List.mem_singleton]
    rcases hflow with hflow | hw
    · exact Or.inr hflow
    · exact Or.inl (honStack p hp flow hw)

/-- As long as batches nest the events they take in, a flow that waits for an
event, directly or through further calls and batches, is on the event's call
stack; no flow waits for an event of its own; and every call that would make
the callee wait for itself is rejected as recursive. -/
theorem calls_cycle_free (env : Env V) (h : (machine env).ReachableBy Nests t) : CycleFree t := by
  refine Inv.cycleFree (h.invariant ?_ ?_)
  · rintro s rfl
    exact Inv.init
  · intro s a t hs hok hstep
    exact hs.step hok hstep

instance (f : Filling V) (e : Event V) : Decidable (f.Nests e) :=
  inferInstanceAs (Decidable (_ → ∀ first ∈ f.events.head?, e.callStack ⊆ first.callStack))

instance : ∀ (s : State V) (a : Act V), Decidable (Nests s a)
  | s, .collect i k =>
      inferInstanceAs (Decidable (∀ p ∈ s.events[i]?, ∀ f ∈ s.fillings[k]?, f.Nests p.event))
  | _, .register .. | _, .deregister .. | _, .source .. | _, .publish .. | _, .derive ..
  | _, .clone .. | _, .element .. | _, .finish .. | _, .fail .. | _, .request ..
  | _, .settle .. | _, .flush .. => inferInstanceAs (Decidable True)

/-- JSON objects of strings. -/
def objects : Env (List (String × String)) where
  metas :=
    { new := []
      containsKey := fun m key => m.any (·.1 == key)
      insert := fun m key value => m.filter (·.1 != key) ++ [(key, value)]
      extend := fun m extra => m.filter (fun kv => !extra.any (·.1 == kv.1)) ++ extra }
  null := []
  dataAsJson := fun
    | .json v => some v
    | _ => none
  toJson := fun data => [("batch_size", toString data.batchSize)]

def endpoint (flow : String) : Registration := ⟨1, some "30s", defaultCallers flow⟩

def webhook : Sourced (List (String × String)) := ⟨.json [("x", "1")], none, none, some 1⟩

/-- One flow calls another twice and has both events in one batch: the batch
cannot call back. -/
theorem calls_cycle_free_twice :
    ∃ t p, (machine objects).ReachableBy Nests t ∧ p ∈ t.events ∧ p.flow = "a/b" ∧
      t.registry.check (callersOf p.flow p.event) "a/y" = .error (.recursive "a/y") := by
  have hrun : (((machine objects).exec Nests {}
      [.register "a/b" (endpoint "a/b"), .register "a/y" (endpoint "a/y"),
        .source "a/y" webhook, .source "a/y" webhook,
        .request 0 "a/b" "u1" false, .request 0 "a/b" "u2" false,
        .collect 0 0, .collect 0 0, .flush 0 "u3" .size none 1 false]).any fun t =>
      (t.calls.any fun c => c.completion == 2 && c.handled.flow == "a/y") &&
        (t.forwards.any fun w => w.completion == 4 && w.upstreams.contains 2) &&
        t.events.any fun p => p.flow == "a/b" && p.event.completionTx == some 4) = true := by
    decide
  obtain ⟨t, hr, ht⟩ := Machine.exists_of_exec hrun
  have hreach : (machine objects).ReachableBy Nests t := ⟨_, _, rfl, hr⟩
  simp only [Bool.and_eq_true, List.any_eq_true, beq_iff_eq, List.contains_iff_mem] at ht
  obtain ⟨⟨⟨c, hc, hcomp, hflow⟩, w, hw, hwc, hup⟩, p, hp, hpflow, htx⟩ := ht
  refine ⟨t, p, hreach, hp, hpflow, ?_⟩
  refine (calls_cycle_free objects hreach).rejects p (Or.inl hp) "a/y" (Or.inr ⟨4, htx, ?_⟩)
  exact .of_holdsUp (Or.inr ⟨w, hw, hwc, hup⟩) (.of_asks ⟨c, hc, hcomp, hflow⟩)

/-- Two flows call a third one, which collects both events in a batch.  The
batch keeps the call stack of the first caller, so its call of the second one
is admitted, and that flow waits for itself. -/
theorem batch_hides_caller :
    ∃ t p, (machine objects).Reachable t ∧ t.Present p ∧ t.Waits p.flow p.event ∧
      p.flow ∉ p.event.callStack := by
  have hrun : (((machine objects).exec (fun _ _ => True) {}
      [.register "a/b" (endpoint "a/b"), .register "a/x" (endpoint "a/x"),
        .source "a/y" webhook, .source "a/z" webhook,
        .request 0 "a/b" "u1" false, .request 0 "a/x" "u2" false, .request 1 "a/b" "u3" false,
        .collect 0 0, .collect 0 0, .flush 0 "u4" .size none 1 false,
        .request 0 "a/x" "u5" false]).any fun t =>
      (t.calls.any fun c => c.completion == 6 && c.handled.event.completionTx == some 5) &&
        (t.forwards.any fun w => w.completion == 5 && w.upstreams.contains 4) &&
        (t.calls.any fun c => c.completion == 4 && c.handled.flow == "a/x") &&
        t.events.any fun p => p.flow == "a/x" && p.event.completionTx == some 6 &&
          p.event.callStack == ["a/y", "a/b"]) = true := by
    decide
  obtain ⟨t, hr, ht⟩ := Machine.exists_of_exec hrun
  simp only [Bool.and_eq_true, List.any_eq_true, beq_iff_eq, List.contains_iff_mem] at ht
  obtain ⟨⟨⟨⟨c, hc, hcc, hctx⟩, w, hw, hwc, hup⟩, c', hc', hcc', hflow'⟩, p, hp, ⟨hflow, htx⟩, hstack⟩ :=
    ht
  refine ⟨t, p, ⟨_, _, rfl, hr⟩, Or.inl hp, ⟨6, htx, ?_⟩, ?_⟩
  · refine .of_holdsUp (Or.inl ⟨c, hc, hcc, hctx⟩) (.of_holdsUp (Or.inr ⟨w, hw, hwc, hup⟩) ?_)
    exact .of_asks ⟨c', hc', hcc', hflow'.trans hflow.symm⟩
  · rw [hflow, hstack]
    decide

end Flowgen.Inproc
