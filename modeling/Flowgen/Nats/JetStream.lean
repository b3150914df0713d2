/-
# `Flowgen.Nats.JetStream` — the JetStream subscriber (`nats/src/jetstream/subscriber.rs`)

`EventHandler::handle` pulls as many messages as it has free slots and hands
each to a task of its own, which sends it through the flow and acks it once
every leaf has completed, or asks NATS for another delivery.  The machine has
the handler, the tasks in its join set, and what happens to the messages
outside: completions, time-outs, errors of the pull, a lost connection and the
cancellation of the subscriber.

Of the exits of the handler two wait for the join set to be empty.  The one
after a pull request that fails does not: the join set is dropped, which
aborts the tasks at their next suspension, and messages whose flow still runs
are neither acked nor handed back (`unresolved_after_failed_request`).

A message counts as acked or handed back once that is asked of NATS, whether or
not NATS has confirmed it.  A batch yields no more messages than were asked for.
-/
import Flowgen.Event
import Flowgen.Lib.Machine
import Flowgen.Lib.Slots

namespace Flowgen.Nats.JetStream

open Flowgen.Lib

/-- The configuration that `handle` and `Delivery` read, with the context's values. -/
structure Subscriber where
  maxInFlight : Option ℕ+
  contextMaxInFlight : ℕ+
  maxMessagesPerBatch : Nat
  throttle : Option Nat
  ackWait : Nat
  ackTimeout : Option Nat
  backoff : List Nat
  leafCount : Nat

/-- The slots of a subscriber. -/
def Subscriber.slots (S : Subscriber) : Nat := (S.maxInFlight.getD S.contextMaxInFlight : ℕ+)

/-- The delay `nak` asks for; `delivered` is what `message.info()` says, if it can be read. -/
def Subscriber.nakDelay (S : Subscriber) (delivered : Option Nat) : Nat :=
  ((S.backoff[delivered.getD 1 - 1]?).or S.backoff.getLast?).getD S.ackWait

/-- How the task of a message has ended. -/
inductive Outcome
  | acked
  | naked (delay : Nat)
  /-- The subscriber was cancelled while the flow ran. -/
  | stopped
  /-- The join set was dropped. -/
  | aborted
deriving DecidableEq

/-- How far `Delivery::process` is with a message. -/
inductive Stage
  | sending
  /-- `completed`. -/
  | waiting
  | acking
  | naking (delay : Nat)
  | ended (outcome : Outcome)
deriving DecidableEq

structure Message (V : Type) where
  /-- How often NATS has delivered it. -/
  delivered : Option Nat
  stage : Stage
  completion : CompletionState V
  /-- Every handle to the completion is gone. -/
  lost : Bool
  /-- `ack_timeout` has passed. -/
  expired : Bool

/-- The errors `handle` returns. -/
inductive Error
  | batch
  | other
  | streamEnded
deriving DecidableEq

/-- Where `handle` is, and the permits it holds. -/
inductive Phase
  | acquiring
  | collecting (permits : Nat)
  | requesting (permits : Nat)
  /-- In the inner loop; the batch has `left` messages to give at most. -/
  | pulling (permits received left : Nat)
  /-- A message was taken and waits for the throttle. -/
  | throttled (permits received left : Nat) (delivered : Option Nat)
  | checking (permits received : Nat)
  /-- Waits for the join set before it returns. -/
  | draining (permits : Nat) (error : Error)
  /-- With `Ok` if it was cancelled; the semaphore is never closed. -/
  | returned (result : Except Error Unit)
deriving DecidableEq

structure State (V : Type) where
  phase : Phase
  /-- The permits of the semaphore. -/
  free : Nat
  /-- The messages handed to a task, in this order. -/
  messages : List (Message V)
  /-- How many messages were taken from batches. -/
  taken : Nat
  cancelled : Bool

/-- A step of `handle`. -/
inductive HandlerAct
  /-- It gets its first slot, or sees the cancellation. -/
  | acquire
  /-- It tries for another slot. -/
  | collect
  /-- The pull request is answered. -/
  | request (ok : Bool)
  /-- The batch gives a message, an error or its end. -/
  | next (item : Option (Except Unit (Option Nat)))
  | tick
  /-- It looks at the connection after a batch. -/
  | check (disconnected : Bool)
  /-- The join set is empty. -/
  | drained

/-- A step of the task of a message. -/
inductive TaskAct
  /-- The event is sent, or the message cannot be read or sent. -/
  | send (ok : Bool)
  /-- It looks at what it waits for. -/
  | poll
  /-- The ack or the nak has been answered, or given up. -/
  | finish
  | abort

/-- What happens to a message outside the subscriber. -/
inductive FlowAct (V : Type)
  | signal (result : CompletionResult V)
  | lose
  | expire

inductive Act (V : Type)
  | handler (act : HandlerAct)
  | task (i : Nat) (act : TaskAct)
  | flow (i : Nat) (act : FlowAct V)
  | cancel

variable {V : Type}

def Message.new (leafCount : Nat) (delivered : Option Nat) : Message V where
  delivered := delivered
  stage := .sending
  completion := .new leafCount
  lost := false
  expired := false

/-- The task still runs. -/
def Message.running (m : Message V) : Bool :=
  match m.stage with
  | .ended _ => false
  | _ => true

def State.start (S : Subscriber) : State V where
  phase := .acquiring
  free := S.slots
  messages := []
  taken := 0
  cancelled := false

/-- `in_flight.spawn`. -/
def State.spawn (s : State V) (S : Subscriber) (permits received left : Nat)
    (delivered : Option Nat) : State V :=
  { s with
    phase := .pulling permits (received + 1) left
    messages := s.messages ++ [Message.new S.leafCount delivered] }

/-- What the handler does with the next item of a batch. -/
def State.next (s : State V) (S : Subscriber) (permits received left : Nat) :
    Option (Except Unit (Option Nat)) → Option (State V)
  | none => some { s with phase := .checking permits received }
  | some (.error _) => some { s with phase := .draining permits .other }
  | some (.ok delivered) =>
      match left, permits with
      | 0, _ => none
      -- let Some(permit) = permits.pop() else { break; }
      | _ + 1, 0 => some { s with phase := .checking 0 received, taken := s.taken + 1 }
      | left + 1, permits + 1 =>
          if S.throttle.isSome then
            some { s with
              phase := .throttled permits received left delivered
              taken := s.taken + 1 }
          else some ({ s with taken := s.taken + 1 }.spawn S permits received left delivered)

def State.handle (s : State V) (S : Subscriber) : HandlerAct → Option (State V)
  | .acquire =>
      match s.phase with
      | .acquiring =>
          if s.cancelled then some { s with phase := .returned (.ok ()) }
          else if 0 < s.free then some { s with phase := .collecting 1, free := s.free - 1 }
          else none
      | _ => none
  | .collect =>
      match s.phase with
      | .collecting permits =>
          if permits < S.maxMessagesPerBatch ∧ 0 < s.free then
            some { s with phase := .collecting (permits + 1), free := s.free - 1 }
          else some { s with phase := .requesting permits }
      | _ => none
  | .request ok =>
      match s.phase with
      | .requesting permits =>
          if ok then some { s with phase := .pulling permits 0 permits }
          else some { s with phase := .returned (.error .batch), free := s.free + permits }
      | _ => none
  | .next item =>
      match s.phase with
      | .pulling permits received left =>
          if s.cancelled then
            some { s with phase := .returned (.ok ()), free := s.free + permits }
          else s.next S permits received left item
      | _ => none
  | .tick =>
      match s.phase with
      | .throttled permits received left delivered =>
          some (s.spawn S permits received left delivered)
      | _ => none
  | .check disconnected =>
      match s.phase with
      | .checking permits received =>
          if received = 0 ∧ disconnected then
            some { s with phase := .draining permits .streamEnded }
          else some { s with phase := .acquiring, free := s.free + permits }
      | _ => none
  | .drained =>
      match s.phase with
      | .draining permits error =>
          if s.messages.any Message.running then none
          else some { s with phase := .returned (.error error), free := s.free + permits }
      | _ => none

/-- Message `i` becomes `m`; a task that ends gives its slot back. -/
def State.put (s : State V) (i : Nat) (m : Message V) : State V :=
  { s with
    messages := s.messages.set i m
    free := if m.running then s.free else s.free + 1 }

/-- The select in `completed`, in its order. -/
def Message.select (m : Message V) (S : Subscriber) (cancelled : Bool) : Message V :=
  if cancelled then { m with stage := .ended .stopped }
  else
    match m.completion.delivered with
    | some (.ok _) => { m with stage := .acking }
    | some (.error _) => { m with stage := .naking (S.nakDelay m.delivered) }
    | none =>
        if m.lost || m.expired then { m with stage := .naking (S.nakDelay m.delivered) }
        -- Nothing is ready, or only the progress interval.
        else m

def Message.advance (m : Message V) (S : Subscriber) (cancelled returned : Bool) :
    TaskAct → Option (Message V)
  | .send ok =>
      match m.stage with
      | .sending =>
          if ok then some { m with stage := .waiting }
          else some { m with stage := .naking (S.nakDelay m.delivered) }
      | _ => none
  | .poll =>
      match m.stage with
      | .waiting => some (m.select S cancelled)
      | _ => none
  | .finish =>
      match m.stage with
      | .acking => some { m with stage := .ended .acked }
      | .naking delay => some { m with stage := .ended (.naked delay) }
      | _ => none
  | .abort => if returned && m.running then some { m with stage := .ended .aborted } else none

def Message.flow (m : Message V) (S : Subscriber) : FlowAct V → Option (Message V)
  | .signal result => some { m with completion := m.completion.signal result }
  | .lose => some { m with lost := true }
  | .expire => if S.ackTimeout.isSome then some { m with expired := true } else none

/-- `handle` has returned; its join set is dropped. -/
def Phase.isReturned : Phase → Bool
  | .returned _ => true
  | _ => false

def State.step (S : Subscriber) (s : State V) : Act V → Option (State V)
  | .handler act => s.handle S act
  | .task i act =>
      s.messages[i]?.bind fun m =>
        (m.advance S s.cancelled s.phase.isReturned act).map (s.put i)
  | .flow i act =>
      s.messages[i]?.bind fun m =>
        (m.flow S act).map fun m => { s with messages := s.messages.set i m }
  | .cancel => some { s with cancelled := true }

/-- One call of `handle`, its tasks and their surroundings. -/
def subscriber (V : Type) (S : Subscriber) : Machine (State V) (Act V) where
  init s := s = .start S
  step := State.step S

/-! ## Delivery discipline -/

/-- The ack was asked for. -/
def Message.Acked (m : Message V) : Prop := m.stage = .acking ∨ m.stage = .ended .acked

/-- The message was acked, or handed back. -/
def Message.Resolved (m : Message V) : Prop :=
  m.stage = .ended .acked ∨ ∃ delay, m.stage = .ended (.naked delay)

/-- The messages taken from a batch that have no task yet. -/
def Phase.untasked : Phase → Nat
  | .throttled _ _ _ _ => 1
  | _ => 0

structure Disciplined (S : Subscriber) (s : State V) : Prop where
  /-- Only completed messages are acked. -/
  acked : ∀ m ∈ s.messages, m.Acked → ∃ v, m.completion.delivered = some (.ok v)
  inFlight : s.messages.countP Message.running ≤ S.slots
  /-- Every message taken has a task, but for one that waits for the throttle. -/
  processed : s.taken = s.messages.length + s.phase.untasked
  /-- If the handler has returned an error, all messages are resolved. -/
  resolved : ∀ error, s.phase = .returned (.error error) → ∀ m ∈ s.messages, m.Resolved

/-- The task has ended, and not because the subscriber was cancelled. -/
def Message.Over (m : Message V) : Prop := m.running = false ∧ m.stage ≠ .ended .stopped

/-- A pull request fails only when all tasks are over; and none of those the handler waits
for before it returns was stopped by the cancellation. -/
def Allowed (s : State V) : Act V → Prop
  | .handler (.request false) => ∀ m ∈ s.messages, m.Over
  | .handler .drained => ∀ m ∈ s.messages, m.stage ≠ .ended .stopped
  | _ => True

/-! ## Slots -/

variable {S : Subscriber} {s t : State V} {m m' : Message V} {i : Nat}

/-- The permits that are not with a task. -/
def Phase.permits : Phase → Nat
  | .acquiring => 0
  | .collecting permits => permits
  | .requesting permits => permits
  | .pulling permits _ _ => permits
  | .throttled permits _ _ _ => permits + 1
  | .checking permits _ => permits
  | .draining permits _ => permits
  | .returned _ => 0

/-- While a batch is read there is a permit for each message it may still give. -/
def Phase.Paired : Phase → Prop
  | .pulling permits _ left => left = permits
  | .throttled permits _ left _ => left = permits
  | _ => True

structure Inv (S : Subscriber) (s : State V) : Prop where
  slots : s.free + s.phase.permits + s.messages.countP Message.running = S.slots
  paired : s.phase.Paired
  taken : s.taken = s.messages.length + s.phase.untasked
  acked : ∀ m ∈ s.messages, m.Acked → ∃ v, m.completion.delivered = some (.ok v)
  aborted : ∀ m ∈ s.messages, m.stage = .ended .aborted → s.phase.isReturned = true
  resolved : ∀ error, s.phase = .returned (.error error) → ∀ m ∈ s.messages, m.Resolved

theorem Inv.disciplined (h : Inv S s) : Disciplined S s where
  acked := h.acked
  inFlight := by
    have hslots := h.slots
    omega
  processed := h.taken
  resolved := h.resolved

theorem inv_start : Inv S (.start S : State V) where
  slots := rfl
  paired := trivial
  taken := rfl
  acked m hm := by cases hm
  aborted m hm := by cases hm
  resolved error herror := by cases herror

/-- The handler goes from one phase to another, and leaves the tasks alone. -/
theorem Inv.move (h : Inv S s) {old phase : Phase} {free taken : Nat} (hphase : s.phase = old)
    (hold : old.isReturned = false) (hnew : phase.isReturned = false)
    (hslots : free + phase.permits = s.free + old.permits) (hpaired : phase.Paired)
    (htaken : taken + old.untasked = s.taken + phase.untasked) :
    Inv S { s with phase := phase, free := free, taken := taken } where
  slots := by
    have hs := h.slots
    rw [hphase] at hs
    change free + phase.permits + s.messages.countP _ = S.slots
    omega
  paired := hpaired
  taken := by
    have ht := h.taken
    rw [hphase] at ht
    change taken = s.messages.length + phase.untasked
    omega
  acked := h.acked
  aborted := by
    intro m hm haborted
    have hreturned := h.aborted m hm haborted
    rw [hphase, hold] at hreturned
    cases hreturned
  resolved := by
    intro error herror
    rw [show phase = .returned (.error error) from herror] at hnew
    cases hnew

/-- The handler returns and drops its permits. -/
theorem Inv.leave (h : Inv S s) {old : Phase} {result : Except Error Unit} {free : Nat} (hphase : s.phase = old)
    (hslots : free = s.free + old.permits) (huntasked : old.untasked = 0)
    (hresolved : ∀ error, result = .error error → ∀ m ∈ s.messages, m.Resolved) :
    Inv S { s with phase := .returned result, free := free } where
  slots := by
    have hs := h.slots
    rw [hphase] at hs
    change free + 0 + s.messages.countP _ = S.slots
    omega
  paired := trivial
  taken := by
    have ht := h.taken
    rw [hphase] at ht
    change s.taken = s.messages.length + 0
    omega
  acked := h.acked
  aborted m _ _ := rfl
  resolved := by
    intro error herror
    cases herror
    exact hresolved error rfl

theorem Inv.spawn (h : Inv S s) (hrunning : s.phase.isReturned = false) {permits received : Nat}
    {taken : Nat} (hpermits : s.phase.permits = permits + 1)
    (htaken : taken + s.phase.untasked = s.taken + 1) (delivered : Option Nat) :
    Inv S ({ s with taken := taken }.spawn S permits received permits delivered) where
  slots := by
    have hs := h.slots
    change s.free + permits + (s.messages ++ [_]).countP _ = S.slots
    have hnew : (Message.new S.leafCount delivered : Message V).running = true := rfl
    rw [List.countP_append, List.countP_singleton, if_pos hnew]
    omega
  paired := rfl
  taken := by
    have ht := h.taken
    change taken = (s.messages ++ [_]).length + 0
    rw [List.length_append, List.length_singleton]
    omega
  acked := by
    intro m hm hacked
    rcases List.mem_append.mp hm with hm | hm
    · exact h.acked m hm hacked
    · obtain rfl := List.mem_singleton.mp hm
      rcases hacked with hstage | hstage
      · cases hstage
      · cases hstage
  aborted := by
    intro m hm haborted
    rcases List.mem_append.mp hm with hm | hm
    · rw [h.aborted m hm haborted] at hrunning
      cases hrunning
    · obtain rfl := List.mem_singleton.mp hm
      cases haborted
  resolved error herror := by cases herror

theorem Inv.next (h : Inv S s) {permits received left : Nat}
    (hphase : s.phase = .pulling permits received left)
    {item : Option (Except Unit (Option Nat))}
    (hstep : s.next S permits received left item = some t) : Inv S t := by
  have hrunning : s.phase.isReturned = false := by rw [hphase]; rfl
  have hpaired : left = permits := by
    have hp := h.paired
    rw [hphase] at hp
    exact hp
  subst hpaired
  unfold State.next at hstep
  split at hstep
  · cases hstep
    exact h.move hphase rfl rfl rfl trivial rfl
  · cases hstep
    exact h.move hphase rfl rfl rfl trivial rfl
  · rename_i delivered
    cases left with
    | zero => cases hstep
    | succ left =>
        dsimp only at hstep
        split at hstep
        · cases hstep
          exact h.move hphase rfl rfl rfl rfl rfl
        · cases hstep
          exact h.spawn hrunning (by rw [hphase]; rfl) (by rw [hphase]; rfl) delivered

/-- If the tasks are over, and the handler has not returned, the messages are resolved. -/
theorem Inv.resolved_of_over (h : Inv S s) (hrunning : s.phase.isReturned = false)
    (hm : m ∈ s.messages) (hover : m.Over) : m.Resolved := by
  obtain ⟨hended, hstopped⟩ := hover
  cases hstage : m.stage with
  | ended outcome =>
      cases outcome with
      | acked => exact .inl hstage
      | naked delay => exact .inr ⟨delay, hstage⟩
      | stopped => exact absurd hstage hstopped
      | aborted =>
          rw [h.aborted m hm hstage] at hrunning
          cases hrunning
  | sending =>
      rw [Message.running, hstage] at hended
      cases hended
  | waiting =>
      rw [Message.running, hstage] at hended
      cases hended
  | acking =>
      rw [Message.running, hstage] at hended
      cases hended
  | naking delay =>
      rw [Message.running, hstage] at hended
      cases hended

theorem Inv.handler (h : Inv S s) {act : HandlerAct} (hallowed : Allowed s (.handler act : Act V))
    (hstep : s.handle S act = some t) : Inv S t := by
  cases act with
  | acquire =>
      simp only [State.handle] at hstep
      split at hstep
      · rename_i hphase
        split at hstep
        · cases hstep
          exact h.leave hphase rfl rfl fun error herror => by cases herror
        · obtain ⟨hfree, hstep⟩ := Option.ite_none_right_eq_some.mp hstep
          cases hstep
          exact h.move hphase rfl rfl (Nat.sub_add_cancel hfree) trivial rfl
      · cases hstep
  | collect =>
      simp only [State.handle] at hstep
      split at hstep
      · rename_i permits hphase
        split at hstep
        · rename_i hmore
          cases hstep
          have hfree : s.free - 1 + (permits + 1) = s.free + permits := by omega
          exact h.move hphase rfl rfl hfree trivial rfl
        · cases hstep
          exact h.move hphase rfl rfl rfl trivial rfl
      · cases hstep
  | request ok =>
      simp only [State.handle] at hstep
      split at hstep
      · rename_i permits hphase
        have hrunning : s.phase.isReturned = false := by rw [hphase]; rfl
        cases ok with
        | true =>
            cases hstep
            exact h.move hphase rfl rfl rfl rfl rfl
        | false =>
            cases hstep
            exact h.leave hphase rfl rfl fun _ _ m hm =>
              h.resolved_of_over hrunning hm (hallowed m hm)
      · cases hstep
  | next item =>
      simp only [State.handle] at hstep
      split at hstep
      · rename_i permits received left hphase
        split at hstep
        · cases hstep
          exact h.leave hphase rfl rfl fun error herror => by cases herror
        · exact h.next hphase hstep
      · cases hstep
  | tick =>
      simp only [State.handle] at hstep
      split at hstep
      · rename_i permits received left delivered hphase
        have hrunning : s.phase.isReturned = false := by rw [hphase]; rfl
        have hpaired : left = permits := by
          have hp := h.paired
          rw [hphase] at hp
          exact hp
        subst hpaired
        cases hstep
        exact h.spawn hrunning (by rw [hphase]; rfl) (by rw [hphase]; rfl) delivered
      · cases hstep
  | check disconnected =>
      simp only [State.handle] at hstep
      split at hstep
      · rename_i permits received hphase
        split at hstep
        · cases hstep
          exact h.move hphase rfl rfl rfl trivial rfl
        · cases hstep
          exact h.move hphase rfl rfl rfl trivial rfl
      · cases hstep
  | drained =>
      simp only [State.handle] at hstep
      split at hstep
      · rename_i permits error hphase
        have hrunning : s.phase.isReturned = false := by rw [hphase]; rfl
        obtain ⟨hended, hstep⟩ := Option.ite_none_left_eq_some.mp hstep
        cases hstep
        refine h.leave hphase rfl rfl fun _ _ m hm => h.resolved_of_over hrunning hm ⟨?_, hallowed m hm⟩
        exact Bool.eq_false_iff.mpr fun hm' => hended (List.any_eq_true.mpr ⟨m, hm, hm'⟩)
      · cases hstep

/-- What a step of a task can do: it was running, its completion is as it was, and it asks for
an ack only of a message that was completed. -/
structure Advanced (m m' : Message V) (returned : Bool) : Prop where
  running : m.running = true
  completion : m'.completion = m.completion
  acked : m'.Acked → m.Acked ∨ ∃ v, m.completion.delivered = some (.ok v)
  aborted : m'.stage = .ended .aborted → returned = true

theorem advanced_of_ne {stage : Stage} {returned : Bool} (hrunning : m.running = true)
    (hacking : stage ≠ .acking) (hacked : stage ≠ .ended .acked)
    (haborted : stage ≠ .ended .aborted) : Advanced m { m with stage := stage } returned where
  running := hrunning
  completion := rfl
  acked h := (h.elim hacking hacked).elim
  aborted h := absurd h haborted

theorem advanced_select {cancelled returned : Bool} (hstage : m.stage = .waiting) :
    Advanced m (m.select S cancelled) returned := by
  have hrunning : m.running = true := by rw [Message.running, hstage]
  rw [Message.select]
  split
  · exact advanced_of_ne hrunning Stage.noConfusion (by decide) (by decide)
  · split
    · rename_i v hdelivered
      exact ⟨hrunning, rfl, fun _ => .inr ⟨v, hdelivered⟩, fun h => by cases h⟩
    · exact advanced_of_ne hrunning Stage.noConfusion Stage.noConfusion Stage.noConfusion
    · split
      · exact advanced_of_ne hrunning Stage.noConfusion Stage.noConfusion Stage.noConfusion
      · refine ⟨hrunning, rfl, .inl, fun h => ?_⟩
        rw [hstage] at h
        cases h

theorem advanced_of_advance {cancelled returned : Bool} {act : TaskAct}
    (h : m.advance S cancelled returned act = some m') : Advanced m m' returned := by
  cases act with
  | send ok =>
      simp only [Message.advance] at h
      split at h
      · rename_i hstage
        have hrunning : m.running = true := by rw [Message.running, hstage]
        cases ok with
        | true =>
            cases h
            exact advanced_of_ne hrunning Stage.noConfusion Stage.noConfusion Stage.noConfusion
        | false =>
            cases h
            exact advanced_of_ne hrunning Stage.noConfusion Stage.noConfusion Stage.noConfusion
      · cases h
  | poll =>
      simp only [Message.advance] at h
      split at h
      · rename_i hstage
        cases h
        exact advanced_select hstage
      · cases h
  | finish =>
      simp only [Message.advance] at h
      split at h
      · rename_i hstage
        have hrunning : m.running = true := by rw [Message.running, hstage]
        cases h
        exact ⟨hrunning, rfl, fun _ => .inl (.inl hstage), fun h => by cases h⟩
      · rename_i delay hstage
        have hrunning : m.running = true := by rw [Message.running, hstage]
        cases h
        refine advanced_of_ne hrunning Stage.noConfusion ?_ ?_
        · intro h
          cases h
        · intro h
          cases h
      · cases h
  | abort =>
      simp only [Message.advance] at h
      obtain ⟨hboth, h⟩ := Option.ite_none_right_eq_some.mp h
      obtain ⟨hreturned, hrunning⟩ := Bool.and_eq_true_iff.mp hboth
      cases h
      refine ⟨hrunning, rfl, ?_, fun _ => hreturned⟩
      rintro (h | h)
      · cases h
      · cases h

/-- A message that is resolved has a task that is over. -/
theorem Message.Resolved.over (h : m.Resolved) : m.Over := by
  rcases h with hstage | ⟨delay, hstage⟩
  · rw [Message.Over, Message.running, hstage]
    exact ⟨rfl, by decide⟩
  · rw [Message.Over, Message.running, hstage]
    refine ⟨rfl, fun h => ?_⟩
    cases h

theorem Inv.task (h : Inv S s) {act : TaskAct} (hm : s.messages[i]? = some m)
    (hstep : m.advance S s.cancelled s.phase.isReturned act = some m') :
    Inv S (s.put i m') := by
  obtain ⟨hrunning, hcompletion, hacked, haborted⟩ := advanced_of_advance hstep
  obtain ⟨hi, hget⟩ := List.getElem?_eq_some_iff.mp hm
  have hmem : m ∈ s.messages := List.mem_of_getElem? hm
  have hcount : 0 < s.messages.countP Message.running :=
    List.countP_pos_iff.mpr ⟨m, hmem, hrunning⟩
  refine ⟨?_, h.paired, ?_, ?_, ?_, ?_⟩
  · have hs := h.slots
    change (if m'.running then s.free else s.free + 1) + s.phase.permits +
      (s.messages.set i m').countP Message.running = S.slots
    rw [List.countP_set hi, hget, if_pos hrunning]
    split
    · omega
    · omega
  · change s.taken = (s.messages.set i m').length + s.phase.untasked
    rw [List.length_set]
    exact h.taken
  · intro n hn hnacked
    rcases List.mem_or_eq_of_mem_set hn with hn | rfl
    · exact h.acked n hn hnacked
    · rw [hcompletion]
      rcases hacked hnacked with hold | hdelivered
      · exact h.acked m hmem hold
      · exact hdelivered
  · intro n hn hnaborted
    rcases List.mem_or_eq_of_mem_set hn with hn | rfl
    · exact h.aborted n hn hnaborted
    · exact haborted hnaborted
  · intro error herror n hn
    have hnot := (h.resolved error herror m hmem).over.1
    rw [hrunning] at hnot
    cases hnot

/-- What happens outside leaves the task where it is, and takes no completion back. -/
theorem flow_spec {act : FlowAct V} (h : m.flow S act = some m') :
    m'.stage = m.stage ∧ ∀ r, m.completion.delivered = some r → m'.completion.delivered = some r := by
  cases act with
  | signal result =>
      cases h
      refine ⟨rfl, fun r hr => ?_⟩
      have hnone : m.completion.remaining = 0 :=
        m.completion.delivered_isSome_iff.mp (by rw [hr]; rfl)
      rw [CompletionState.delivered_signal, if_neg (by omega)]
      exact hr
  | lose =>
      cases h
      exact ⟨rfl, fun r hr => hr⟩
  | expire =>
      obtain ⟨-, h⟩ := Option.ite_none_right_eq_some.mp h
      cases h
      exact ⟨rfl, fun r hr => hr⟩

theorem Inv.flow (h : Inv S s) {act : FlowAct V} (hm : s.messages[i]? = some m)
    (hstep : m.flow S act = some m') : Inv S { s with messages := s.messages.set i m' } := by
  obtain ⟨hstage, hdelivered⟩ := flow_spec hstep
  obtain ⟨hi, hget⟩ := List.getElem?_eq_some_iff.mp hm
  have hmem : m ∈ s.messages := List.mem_of_getElem? hm
  have hrunning : m'.running = m.running := by rw [Message.running, Message.running, hstage]
  refine ⟨?_, h.paired, ?_, ?_, ?_, ?_⟩
  · have hs := h.slots
    change s.free + s.phase.permits + (s.messages.set i m').countP Message.running = S.slots
    rw [List.countP_set hi, hget, hrunning]
    split
    · rename_i hm'
      have hcount : 0 < s.messages.countP Message.running :=
        List.countP_pos_iff.mpr ⟨m, hmem, hm'⟩
      omega
    · omega
  · change s.taken = (s.messages.set i m').length + s.phase.untasked
    rw [List.length_set]
    exact h.taken
  · intro n hn hnacked
    rcases List.mem_or_eq_of_mem_set hn with hn | rfl
    · exact h.acked n hn hnacked
    · rw [Message.Acked, hstage] at hnacked
      obtain ⟨v, hv⟩ := h.acked m hmem hnacked
      exact ⟨v, hdelivered _ hv⟩
  · intro n hn hnaborted
    rcases List.mem_or_eq_of_mem_set hn with hn | rfl
    · exact h.aborted n hn hnaborted
    · exact h.aborted m hmem (hstage ▸ hnaborted)
  · intro error herror n hn
    rcases List.mem_or_eq_of_mem_set hn with hn | rfl
    · exact h.resolved error herror n hn
    · rw [Message.Resolved, hstage]
      exact h.resolved error herror m hmem

/-! ## The discipline -/

theorem Inv.step (h : Inv S s) {act : Act V} (hallowed : Allowed s act)
    (hstep : (subscriber V S).step s act = some t) : Inv S t := by
  cases act with
  | handler act => exact h.handler hallowed hstep
  | task i act =>
      obtain ⟨m, hm, hstep⟩ := Option.bind_eq_some_iff.mp hstep
      obtain ⟨m', hadvance, rfl⟩ := Option.map_eq_some_iff.mp hstep
      exact h.task hm hadvance
  | flow i act =>
      obtain ⟨m, hm, hstep⟩ := Option.bind_eq_some_iff.mp hstep
      obtain ⟨m', hflow, rfl⟩ := Option.map_eq_some_iff.mp hstep
      exact h.flow hm hflow
  | cancel =>
      cases hstep
      exact ⟨h.slots, h.paired, h.taken, h.acked, h.aborted, h.resolved⟩

/-- A step after which the subscriber is disciplined was an allowed one. -/
theorem allowed_of_disciplined {act : Act V} (hstep : (subscriber V S).step s act = some t)
    (h : Disciplined S t) : Allowed s act := by
  match act with
  | .handler (.request false) =>
      replace hstep : s.handle S (.request false) = some t := hstep
      simp only [State.handle] at hstep
      split at hstep
      · cases hstep
        intro m hm
        exact (h.resolved .batch rfl m hm).over
      · cases hstep
  | .handler .drained =>
      replace hstep : s.handle S .drained = some t := hstep
      simp only [State.handle] at hstep
      split at hstep
      · rename_i permits error hphase
        obtain ⟨-, hstep⟩ := Option.ite_none_left_eq_some.mp hstep
        cases hstep
        intro m hm
        exact (h.resolved error rfl m hm).over.2
      · cases hstep
  | .handler .acquire => trivial
  | .handler .collect => trivial
  | .handler (.request true) => trivial
  | .handler (.next _) => trivial
  | .handler .tick => trivial
  | .handler (.check _) => trivial
  | .task _ _ => trivial
  | .flow _ _ => trivial
  | .cancel => trivial

/-- A run keeps to the discipline, step after step, exactly if every step of it is allowed. -/
theorem disciplined_iff (S : Subscriber) (as : List (Act V)) (t : State V) :
    (subscriber V S).RunThrough (Disciplined S) (.start S) as t ↔
      (subscriber V S).RunOf Allowed (.start S) as t := by
  refine Machine.runThrough_iff (I := Inv S) inv_start ?_ ?_
  · intro s act t hinv hallowed hstep
    have ht := hinv.step hallowed hstep
    exact ⟨ht, ht.disciplined⟩
  · intro s act t _ hstep hdisciplined
    exact allowed_of_disciplined hstep hdisciplined

/-- The flow of a message still runs when the next pull request fails. -/
theorem unresolved_after_failed_request :
    ¬ ∀ (S : Subscriber) (t : State Unit), (subscriber Unit S).Reachable t → Disciplined S t := by
  intro h
  let S : Subscriber :=
    { maxInFlight := some 2
      contextMaxInFlight := 64
      maxMessagesPerBatch := 1
      throttle := none
      ackWait := 30
      ackTimeout := none
      backoff := []
      leafCount := 1 }
  obtain ⟨t, hrun, ht⟩ : ∃ t : State Unit, (subscriber Unit S).Run (.start S)
      [.handler .acquire, .handler .collect, .handler (.request true),
        .handler (.next (some (.ok none))), .handler (.next none), .handler (.check false),
        .task 0 (.send true), .handler .acquire, .handler .collect, .handler (.request false)] t ∧
      (decide (t.phase = .returned (.error .batch)) && t.messages.any Message.running) = true :=
    Machine.exists_of_exec (by decide)
  obtain ⟨hphase, hany⟩ := Bool.and_eq_true_iff.mp ht
  obtain ⟨m, hm, hrunning⟩ := List.any_eq_true.mp hany
  have hdisciplined := h S t ⟨_, _, rfl, hrun⟩
  have hover := (hdisciplined.resolved .batch (of_decide_eq_true hphase) m hm).over.1
  rw [hrunning] at hover
  cases hover

end Flowgen.Nats.JetStream
