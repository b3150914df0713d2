/-
# `Flowgen.Flow.Pipeline` — the copies of one source event on their way through a flow

The state of a flow, as far as one source event is concerned: where its
copies are, the completion state they all carry, and which receivers are
gone.  A copy is in a task's inbound channel or being handled by the task
(`inbound`), in the channel of a dispatcher (`dispatcher`), taken by a
dispatcher that still has branches to feed (`fanning`), or represented by
the fan-in of an `iterate` task that waits for its elements (`fanIn`).

The actions are what the tasks can do with a copy:

* `forward` — the handler succeeds and the result goes to the output channel;
  a task without one is a leaf and signals the completion;
* `filter` — a script returns null or an empty array, or `iterate` is given an
  empty array: one signal for each leaf below the task, nothing is sent;
* `iterate`, `fanInDone` — `iterate` emits elements with completions of their
  own, and signals once for each leaf below it when all of them are through;
* `fail` — the handler has failed for good, or the copy carries an error the
  task does not handle: `Event::forward_failure`;
* `dispatch`, `branch` — one turn of `fan_out`, and one of its sends;
* `close` — the receiver of a channel is dropped.

Every interleaving of these is a run of `pipeline`.  Two logs are kept for
the theorems only: `handled`, the leaves in the order they dealt with a copy,
and `endings`, where a journey ended and how often it signalled there.
-/
import Flowgen.Lib.Machine
import Flowgen.Flow.Wiring
import Flowgen.Event

namespace Flowgen.Flow

open Flowgen.Lib

/-- Where a copy is. -/
inductive Loc
  | inbound (task : Nat)
  | dispatcher (parent : Nat)
  | fanning (parent : Nat) (rest : List Channel)
  | fanIn (task : Nat)
deriving DecidableEq

/-- A copy of the source event; `error` is set once an upstream task failed. -/
structure Copy where
  loc : Loc
  error : Bool
deriving DecidableEq

/-- A journey that ended at `point`, having signalled `charge` times there. -/
structure Ending where
  point : Nat
  charge : Nat
deriving DecidableEq

structure State (V : Type) where
  copies : List Copy
  completion : CompletionState V
  closed : List Channel
  handled : List Nat
  endings : List Ending

inductive Act (V : Type)
  | forward (task : Nat) (error : Bool) (payload : Option V)
  | filter (task : Nat) (error : Bool) (payload : Option V)
  | iterate (task : Nat) (error : Bool)
  | fanInDone (task : Nat)
  | fail (task : Nat) (error : Bool) (message : String)
  | dispatch (parent : Nat) (error : Bool)
  | branch (parent : Nat) (rest : List Channel) (error : Bool)
  | close (ch : Channel)

variable {V : Type}

/-- The task or dispatcher at the receiving end. -/
def Channel.node : Channel → Nat
  | .inbound child => child
  | .dispatcher parent => parent

@[simp] theorem Channel.node_inbound (c : Nat) : (Channel.inbound c).node = c := rfl

@[simp] theorem Channel.node_dispatcher (p : Nat) : (Channel.dispatcher p).node = p := rfl

/-- Where an event sent on a channel ends up. -/
def Channel.loc : Channel → Loc
  | .inbound child => .inbound child
  | .dispatcher parent => .dispatcher parent

namespace State

/-- Takes one copy out of the state. -/
def take (s : State V) (c : Copy) : Option (State V) :=
  if c ∈ s.copies then some { s with copies := s.copies.erase c } else none

def put (s : State V) (c : Copy) : State V := { s with copies := c :: s.copies }

/-- `tx.send(event)`: fails once the receiver is gone. -/
def send (s : State V) (ch : Channel) (error : Bool) : Option (State V) :=
  if ch ∈ s.closed then none else some (s.put ⟨ch.loc, error⟩)

/-- The signals given for a journey that ends at `point`. -/
def charge (s : State V) (point : Nat) (results : List (CompletionResult V)) : State V :=
  { s with
    completion := s.completion.signals results
    endings := ⟨point, results.length⟩ :: s.endings }

/-- A leaf deals with a copy and signals once. -/
def leafDone (s : State V) (task : Nat) (result : CompletionResult V) : State V :=
  { s.charge task [result] with handled := task :: s.handled }

end State

/-- The signals of an early exit, one for each leaf below the task; the first
carries the payload. -/
def exitSignals (leafCount : Nat) (payload : Option V) : List (CompletionResult V) :=
  .ok payload :: List.replicate (max leafCount 1 - 1) (.ok none)

/-- Whether `process_events` gives the copy to the handler. -/
def takesUp (reg : TaskRegistry) (task : Nat) (error : Bool) : Bool :=
  !error || reg.handlesFailed task

/-- `Event::forward_failure`, with the copy already taken: downstream with the
error set while the next task accepts events, otherwise one failed signal. -/
def forwardFailure (reg : TaskRegistry) (s : State V) (task : Nat) (message : String) : State V :=
  match reg.outputTx task with
  | some ch =>
      match s.send ch true with
      | some s => s
      | none => s.charge task [.error message]
  | none => s.leafDone task (.error message)

/-- One turn of `fan_out`, with the copy already taken: branches that no
longer take events are dropped, and without a branch left the dispatcher
stops.  Nothing is signalled for the branches it drops. -/
def fanOut (reg : TaskRegistry) (s : State V) (parent : Nat) (error : Bool) : State V :=
  let branches := reg.dispatchers parent
  match branches.filter (· ∉ s.closed) with
  | [] =>
      { s with
        closed := .dispatcher parent :: s.closed
        endings := ⟨parent, 0⟩ :: s.endings }
  | b :: bs =>
      { s.put ⟨.fanning parent (b :: bs), error⟩ with
        endings := (branches.filter (· ∈ s.closed)).map (fun ch => ⟨ch.node, 0⟩) ++ s.endings }

/-- One send of `fan_out` to the next branch; a failed send is ignored. -/
def fanOutSend (s : State V) (parent : Nat) (b : Channel) (rest : List Channel) (error : Bool) :
    State V :=
  let s := if rest.isEmpty then s else s.put ⟨.fanning parent rest, error⟩
  match s.send b error with
  | some s => s
  | none => { s with endings := ⟨b.node, 0⟩ :: s.endings }

def step (reg : TaskRegistry) (s : State V) : Act V → Option (State V)
  | .forward task error payload =>
      if takesUp reg task error then do
        let s ← s.take ⟨.inbound task, error⟩
        match reg.outputTx task with
        | some ch => s.send ch false
        | none => some (s.leafDone task (.ok payload))
      else none
  | .filter task error payload =>
      if takesUp reg task error then do
        let s ← s.take ⟨.inbound task, error⟩
        some (s.charge task (exitSignals (reg.leafCount task) payload))
      else none
  | .iterate task error =>
      if takesUp reg task error && (reg.outputTx task).isSome then do
        let s ← s.take ⟨.inbound task, error⟩
        some (s.put ⟨.fanIn task, false⟩)
      else none
  | .fanInDone task => do
      let s ← s.take ⟨.fanIn task, false⟩
      some (s.charge task (List.replicate (max (reg.leafCount task) 1) (.ok none)))
  | .fail task error message => do
      let s ← s.take ⟨.inbound task, error⟩
      some (forwardFailure reg s task message)
  | .dispatch parent error => do
      let s ← s.take ⟨.dispatcher parent, error⟩
      some (fanOut reg s parent error)
  | .branch parent rest error =>
      match rest with
      | [] => none
      | b :: rest => do
          let s ← s.take ⟨.fanning parent (b :: rest), error⟩
          some (fanOutSend s parent b rest error)
  | .close ch => some { s with closed := ch :: s.closed }

/-- The source has attached a completion sized with its `downstream_leaves`,
and its event is about to leave it. -/
def State.start (reg : TaskRegistry) (src : Nat) : State V where
  copies := [⟨.inbound src, false⟩]
  completion := .new (reg.leafCount src)
  closed := []
  handled := []
  endings := []

/-- All the ways a source event of task `src` can travel through the flow. -/
def pipeline (V : Type) (reg : TaskRegistry) (src : Nat) : Machine (State V) (Act V) where
  init s := s = .start reg src
  step := step reg

/-! ## The pieces of a step -/

variable {reg : TaskRegistry} {s t : State V} {c : Copy}

theorem take_eq_some (h : s.take c = some t) :
    c ∈ s.copies ∧ t = { s with copies := s.copies.erase c } := by
  rw [State.take] at h
  split at h
  · rename_i hc
    exact ⟨hc, (Option.some.inj h).symm⟩
  · cases h

theorem take_of_mem (h : c ∈ s.copies) :
    s.take c = some { s with copies := s.copies.erase c } := if_pos h

/-- An open channel takes the event; a closed one refuses it. -/
theorem send_eq_some {ch : Channel} {e : Bool} (h : s.send ch e = some t) :
    ch ∉ s.closed ∧ t = s.put ⟨ch.loc, e⟩ := by
  rw [State.send] at h
  split at h
  · cases h
  · rename_i hc
    exact ⟨hc, (Option.some.inj h).symm⟩

theorem send_of_open {ch : Channel} {e : Bool} (h : ch ∉ s.closed) :
    s.send ch e = some (s.put ⟨ch.loc, e⟩) := if_neg h

theorem outputOf_eq_some {cs : List Nat} {i : Nat} {ch : Channel}
    (h : outputOf cs i = some ch) :
    (∃ c, cs = [c] ∧ ch = .inbound c) ∨ 2 ≤ cs.length ∧ ch = .dispatcher i := by
  match cs with
  | [] => cases h
  | [c] =>
      cases h
      exact Or.inl ⟨c, rfl, rfl⟩
  | _ :: _ :: _ =>
      cases h
      exact Or.inr ⟨by simp, rfl⟩

theorem outputOf_eq_none {cs : List Nat} {i : Nat} : outputOf cs i = none ↔ cs = [] := by
  match cs with
  | [] => simp [outputOf]
  | [_] => simp [outputOf]
  | _ :: _ :: _ => simp [outputOf]

theorem branchesOf_eq {cs : List Nat} (h : 2 ≤ cs.length) : branchesOf cs = cs.map .inbound := by
  match cs with
  | _ :: _ :: _ => rfl

end Flowgen.Flow
