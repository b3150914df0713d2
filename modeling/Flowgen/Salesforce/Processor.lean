/-
# `Flowgen.Salesforce.Processor` — one event of a Salesforce task
(`salesforce/src/processor.rs`, `handle_with_retry` in `core/src/task/runner.rs`)

An operation calls Salesforce and emits what it was answered.  Its outputs are sent one
behind, so that the last one can carry the completion of the incoming event.  An attempt
that fails is repeated by the runner as long as the error is one that may be retried, and
from its beginning; what it has sent stays sent.  Where the task has been cancelled when
the call returns, the attempt ends without a completion.

An operation is a machine of its own: a step takes an answer and goes on, emits an output,
returns or fails.  If it fails with nothing but permanent errors once it has emitted
something, all attempts together send its outputs at most once and in order, and the
completion is in one place at most (`sent_once`).
-/
import Flowgen.Task.Runner

namespace Flowgen.Salesforce

open Flowgen.Lib Flowgen.Task

/-- How a failed request is retried. -/
inductive Failure
  | auth
  | transient
  | permanent
deriving DecidableEq

/-- What is asked of an error of an SDK client. -/
structure ApiError where
  auth : Bool
  retryable : Bool
deriving DecidableEq

inductive Request
  | sobject
  | describe
  | composite
  | search
  | query
  | bulkQuery
  | merge
  | tooling
deriving DecidableEq

/-- The errors of a call, but for those of the Pub/Sub API. -/
inductive Error
  | auth
  | request (request : Request) (source : ApiError)
  | stream
  | configRender
  | bind
  | resourceLoad
  | missingField (field : String)
  | invalidMergeCount (count : Nat)
  | missingRecordId
  | payload
  | arrow
  | response
  | noResponse
  | event
  | sendMessage
  | retryExhausted (source : Error)
deriving DecidableEq

def apiFailure (auth retryable : Bool) : Failure :=
  match auth, retryable with
  | true, _ => .auth
  | false, true => .transient
  | false, false => .permanent

/-- How an error is retried. -/
def failure : Error → Failure
  | .auth => .auth
  | .request _ source => apiFailure source.auth source.retryable
  | .stream => .transient
  | _ => .permanent

/-- What a step of a call does. -/
inductive Turn (C D : Type)
  | next (call : C)
  | emit (output : D) (call : C)
  | done
  | fail (error : Error)

/-- `Operation::call`: a step takes the state of the call, whether the task has been
cancelled, and an answer. -/
structure Operation (C A D : Type) where
  retriesSafely : Bool
  start : C
  step : C → Bool → A → Option (Turn C D)

/-- The configuration of a task with an operation. -/
structure Processor (C A D : Type) where
  operation : Operation C A D
  retry : Runner.RetryConfig
  /-- There is a task downstream. -/
  tx : Bool
  handlesFailed : Bool
  failureMessage : Error → String

namespace Processor

/-- Where an attempt is. -/
inductive Stage (C : Type)
  | idle
  | entered
  | rendering
  | calling (call : C)
  | closing
  | failing (error : Error)
  | returned (result : Except Error Unit)

/-- An event that is handled, what was sent of it with or without the completion, the
failures that were forwarded with it, and the signals on the completion itself. -/
structure State (C D : Type) where
  cancelled : Bool
  /-- The task downstream has stopped. -/
  closed : Bool
  job : Runner.Job Unit Error
  stage : Stage C
  pending : Option D
  sent : List (D × Bool)
  failed : List String
  signals : List (Except String D)

inductive Act (A : Type)
  | cancel
  | close
  | runner (act : Runner.JobAct Error)
  | enter
  | render (ok : Bool)
  | call (answer : A)
  | finish
  | reconnect (ok : Bool)
  | leave

section Step

variable {C A D : Type} (p : Processor C A D)

/-- `EventHandler::is_retryable`. -/
def isRetryable (error : Error) : Bool :=
  match failure error with
  | .auth => true
  | .transient => p.operation.retriesSafely
  | .permanent => false

def runner : Runner.Config Unit Error where
  handler := ⟨p.isRetryable, fun _ error => p.failureMessage error⟩
  retry := p.retry
  maxInFlight := none
  contextMaxInFlight := 1
  handlesFailed := p.handlesFailed

/-- `send`: without a task downstream the event is only logged. -/
def send (s : State C D) (event : D) (completion : Bool) : Except Error (State C D) :=
  if p.tx && s.closed then .error .sendMessage
  else .ok { s with sent := s.sent ++ [(event, completion)] }

/-- `Emitter::emit`. -/
def emit (s : State C D) (output : D) : Except Error (State C D) :=
  match s.pending with
  | some previous => send p { s with pending := some output } previous false
  | none => .ok { s with pending := some output }

/-- `Emitter::finish`. -/
def finish (s : State C D) : Except Error (State C D) :=
  match s.pending with
  | none => .error .noResponse
  | some last =>
      if p.tx then send p { s with pending := none } last true
      else send p { s with pending := none, signals := s.signals ++ [.ok last] } last false

/-- `Event::forward_failure`. -/
def forwardFailure (s : State C D) (message : String) : State C D :=
  if p.tx && !s.closed then { s with failed := s.failed ++ [message] }
  else { s with signals := s.signals ++ [.error message] }

/-- `reconnect_on_auth_error`. -/
def reconnectOnAuthError (ok : Bool) (error : Error) : Error :=
  match failure error with
  | .auth => if ok then error else .auth
  | .transient | .permanent => error

/-- What an attempt goes on with. -/
def State.orFail (s : State C D) (stage : Stage C) : Except Error (State C D) → State C D
  | .ok t => { t with stage := stage }
  | .error error => { s with stage := .failing error }

def step (s : State C D) : Act A → Option (State C D)
  | .cancel => some { s with cancelled := true }
  | .close => some { s with closed := true }
  | .runner act =>
      match act with
      | .finish _ => none
      | .forwarded => do
          let job ← s.job.step p.runner s.cancelled .forwarded
          return forwardFailure p { s with job := job } (s.job.failures.getLastD "")
      | act => do
          let job ← s.job.step p.runner s.cancelled act
          return { s with job := job, stage := if job.phase.isHandling then .entered else s.stage }
  | .enter =>
      match s.stage with
      | .entered =>
          if s.cancelled then some { s with stage := .returned (.ok ()) }
          else some { s with stage := .rendering }
      | _ => none
  | .render ok =>
      match s.stage with
      | .rendering =>
          if ok then some { s with stage := .calling p.operation.start, pending := none }
          else some { s with stage := .failing .configRender }
      | _ => none
  | .call answer =>
      match s.stage with
      | .calling call =>
          (p.operation.step call s.cancelled answer).map fun turn =>
            match turn with
            | .next call => { s with stage := .calling call }
            | .emit output call => s.orFail (.calling call) (emit p s output)
            | .done => { s with stage := .closing }
            | .fail error => { s with stage := .failing error }
      | _ => none
  | .finish =>
      match s.stage with
      | .closing =>
          if s.cancelled then some { s with stage := .returned (.ok ()) }
          else some (s.orFail (.returned (.ok ())) (finish p s))
      | _ => none
  | .reconnect ok =>
      match s.stage with
      | .failing error =>
          some { s with stage := .returned (.error (reconnectOnAuthError ok error)) }
      | _ => none
  | .leave =>
      match s.stage with
      | .returned result => do
          let job ← s.job.step p.runner s.cancelled (.finish (.returned result))
          return { s with job := job, stage := .idle }
      | _ => none

-- Its equations are derived here, once, for the proofs below.
attribute [grind =] step

def State.initial (event : Runner.Event Unit) : State C D where
  cancelled := false
  closed := false
  job := { event := event, takenCancelled := false, delays := p.retry.strategy }
  stage := .idle
  pending := none
  sent := []
  failed := []
  signals := []

def handling : Machine (State C D) (Act A) where
  init s := ∃ event, s = .initial p event
  step := step p

/-! ## What is sent -/

/-- An operation with these outputs: at any point it has emitted the first of them, and all
of them where it returns without having been cancelled.  Once it has emitted something, it
fails with permanent errors only. -/
structure Careful (operation : Operation C A D) (outputs : List D) (Has : C → List D → Prop) :
    Prop where
  start : Has operation.start []
  order : ∀ call emitted, Has call emitted → emitted <+: outputs
  next : ∀ call cancelled answer call' emitted, Has call emitted →
    operation.step call cancelled answer = some (.next call') → Has call' emitted
  emit : ∀ call cancelled answer output call' emitted, Has call emitted →
    operation.step call cancelled answer = some (.emit output call') →
    Has call' (emitted ++ [output])
  done : ∀ call answer emitted, Has call emitted →
    operation.step call false answer = some .done → emitted = outputs
  fail : ∀ call cancelled answer error emitted, Has call emitted →
    operation.step call cancelled answer = some (.fail error) →
    emitted = [] ∨ failure error = .permanent

variable (outputs : List D)

/-- All outputs have been sent, and the completion with the last one, or, where there is no
task downstream, it has been signalled with it. -/
def Delivered (s : State C D) : Prop :=
  s.failed = [] ∧ ∃ init last, outputs = init ++ [last] ∧
    s.sent = init.map (fun event => (event, false)) ++ [(last, p.tx)] ∧
    s.signals = if p.tx then [] else [.ok last]

/-- Outputs have been sent in their order; the completion is nowhere. -/
structure Loose (s : State C D) : Prop where
  order : s.sent.map Prod.fst <+: outputs
  plain : ∀ event ∈ s.sent, event.2 = false
  failed : s.failed = []
  signals : s.signals = []

/-- Where the completion is, or has been signalled. -/
def State.carriers (s : State C D) : Nat :=
  (s.sent.filter Prod.snd).length + s.failed.length + s.signals.length

/-- Over all attempts, the outputs are sent at most once and in order, and the completion is
in one place at most.  If an attempt has returned without an error or a cancellation, all
outputs were sent, and the last one alone has the completion; if the event was forwarded as
failed, the completion is with that alone. -/
structure Once (s : State C D) : Prop where
  order : s.sent.map Prod.fst <+: outputs
  one : s.carriers ≤ 1
  success : 0 < s.job.successes → s.cancelled = false → Delivered p outputs s
  failure : s.job.failures ≠ [] → s.job.failures.length = 1 ∧ (∀ event ∈ s.sent, event.2 = false) ∧
    (∀ event, .ok event ∉ s.signals) ∧
    match s.job.phase with
    | .ended => s.carriers = 1
    | _ => s.carriers = 0

end Step

section Runs

variable {C A D : Type} {p : Processor C A D} {outputs : List D} {Has : C → List D → Prop}
  {s t : State C D} {a : Act A} {emitted : List D} {event : D} {error : Error}

theorem Delivered.order (h : Delivered p outputs s) : s.sent.map Prod.fst = outputs := by
  obtain ⟨-, init, last, rfl, hsent, -⟩ := h
  rw [hsent, List.map_append, List.map_map]
  congr 1
  exact List.map_id init

theorem Delivered.carriers (h : Delivered p outputs s) : s.carriers = 1 := by
  obtain ⟨hfailed, init, last, -, hsent, hsignals⟩ := h
  have hinit : (init.map fun event => (event, false)).filter Prod.snd = [] := by
    rw [List.filter_eq_nil_iff]
    rintro e he
    obtain ⟨event, -, rfl⟩ := List.mem_map.mp he
    exact Bool.false_ne_true
  rw [State.carriers, hfailed, hsent, hsignals, List.filter_append, hinit]
  cases p.tx <;> rfl

theorem Loose.carriers (h : Loose outputs s) : s.carriers = 0 := by
  have hsent : s.sent.filter Prod.snd = [] := by
    rw [List.filter_eq_nil_iff]
    intro e he
    rw [h.plain e he]
    exact Bool.false_ne_true
  rw [State.carriers, h.failed, h.signals, hsent]
  rfl

/-- Nothing has been sent. -/
structure Fresh (s : State C D) : Prop where
  sent : s.sent = []
  failed : s.failed = []
  signals : s.signals = []

theorem Fresh.loose (h : Fresh s) : Loose outputs s where
  order := by
    rw [h.sent]
    exact List.nil_prefix
  plain := by
    rw [h.sent]
    nofun
  failed := h.failed
  signals := h.signals

/-- What was emitted has been sent, but for the output that is held. -/
structure Holds (s : State C D) (emitted : List D) : Prop where
  emitted : s.sent.map Prod.fst ++ s.pending.toList = emitted
  plain : ∀ event ∈ s.sent, event.2 = false
  failed : s.failed = []
  signals : s.signals = []

theorem Holds.loose (h : Holds s emitted) (horder : emitted <+: outputs) : Loose outputs s where
  order := (List.prefix_append _ _).trans (h.emitted ▸ horder)
  plain := h.plain
  failed := h.failed
  signals := h.signals

theorem Holds.sent_nil (h : Holds s []) : s.sent = [] := by
  obtain ⟨hsent, -⟩ := List.append_eq_nil_iff.mp h.emitted
  exact List.map_eq_nil_iff.mp hsent

/-- One more output is held, and the one before is sent. -/
theorem Holds.emit (h : Holds s emitted) (hemit : emit p s event = .ok t) :
    Holds t (emitted ++ [event]) ∧ t.job = s.job ∧ t.cancelled = s.cancelled := by
  unfold Processor.emit at hemit
  split at hemit
  · rename_i previous hpending
    unfold send at hemit
    split at hemit
    · cases hemit
    · cases hemit
      refine ⟨⟨?_, ?_, h.failed, h.signals⟩, rfl, rfl⟩
      · have hemitted := h.emitted
        rw [hpending] at hemitted
        rw [← hemitted, List.map_append]
        rfl
      · intro e he
        rcases List.mem_append.mp he with he | he
        · exact h.plain e he
        · rw [List.mem_singleton.mp he]
  · rename_i hpending
    cases hemit
    refine ⟨⟨?_, h.plain, h.failed, h.signals⟩, rfl, rfl⟩
    have hemitted := h.emitted
    rw [hpending, Option.toList_none, List.append_nil] at hemitted
    rw [← hemitted]
    rfl

theorem emit_error (hemit : emit p s event = .error error) : failure error = .permanent := by
  unfold Processor.emit at hemit
  split at hemit
  · unfold send at hemit
    split at hemit
    · cases hemit
      rfl
    · cases hemit
  · cases hemit

/-- At the end all outputs have been sent, and the completion with them. -/
theorem Holds.finish (h : Holds s outputs) (hfinish : finish p s = .ok t) :
    Delivered p outputs t ∧ t.job = s.job ∧ t.cancelled = s.cancelled := by
  have hplain : s.sent = (s.sent.map Prod.fst).map fun event => (event, false) := by
    rw [List.map_map]
    refine (List.map_id s.sent).symm.trans (List.map_congr_left fun e he => ?_)
    exact Prod.ext rfl (h.plain e he)
  unfold Processor.finish at hfinish
  split at hfinish
  · cases hfinish
  · rename_i last hpending
    have hemitted := h.emitted
    rw [hpending, Option.toList_some] at hemitted
    unfold send at hfinish
    split at hfinish
    · rename_i htx
      split at hfinish
      · cases hfinish
      · cases hfinish
        refine ⟨⟨h.failed, s.sent.map Prod.fst, last, hemitted.symm, ?_, ?_⟩, rfl, rfl⟩
        · rw [← hplain, htx]
        · rw [if_pos htx]
          exact h.signals
    · rename_i htx
      split at hfinish
      · cases hfinish
      · cases hfinish
        refine ⟨⟨h.failed, s.sent.map Prod.fst, last, hemitted.symm, ?_, ?_⟩, rfl, rfl⟩
        · rw [← hplain, (Bool.not_eq_true _).mp htx]
        · rw [if_neg htx]
          dsimp only
          rw [h.signals]
          rfl

theorem finish_error (hfinish : finish p s = .error error) : failure error = .permanent := by
  unfold Processor.finish at hfinish
  split at hfinish
  · cases hfinish
    rfl
  · split at hfinish
    all_goals
      unfold send at hfinish
      split at hfinish
      · cases hfinish
        rfl
      · cases hfinish

theorem failure_reconnect (ok : Bool) :
    failure (reconnectOnAuthError ok error) = failure error := by
  unfold reconnectOnAuthError
  split
  · rename_i hauth
    cases ok with
    | true => rfl
    | false => exact hauth.symm
  · rfl
  · rfl

variable (p outputs) in
/-- An attempt has returned without an error. -/
def Succeeded (s : State C D) : Prop :=
  (Loose outputs s ∨ Delivered p outputs s) ∧ (s.cancelled = false → Delivered p outputs s)

/-- The failure has been forwarded, and the completion is with it. -/
structure Forwarded (outputs : List D) (s : State C D) : Prop where
  order : s.sent.map Prod.fst <+: outputs
  plain : ∀ event ∈ s.sent, event.2 = false
  signals : ∀ event, .ok event ∉ s.signals
  one : s.carriers = 1

variable (p outputs Has) in
/-- What the attempts have sent, at each stage of the last one. -/
def InAttempt (s : State C D) : Stage C → Prop
  | .idle => False
  | .entered | .rendering => Fresh s
  | .calling call => ∃ emitted, Has call emitted ∧ Holds s emitted
  | .closing => ∃ emitted, Holds s emitted ∧ emitted <+: outputs ∧
      (s.cancelled = false → emitted = outputs)
  | .failing error | .returned (.error error) =>
      Loose outputs s ∧ (s.sent = [] ∨ failure error = .permanent)
  | .returned (.ok _) => Succeeded p outputs s

variable (p outputs) in
/-- What has been sent between and after the attempts. -/
def Between (s : State C D) : Runner.Phase Error → Prop
  | .spawned | .waiting _ => Fresh s ∧ s.job.successes = 0 ∧ s.job.failures = []
  | .handling | .panicked => False
  | .forwarding => Loose outputs s ∧ s.job.successes = 0 ∧ s.job.failures.length = 1
  | .ended => Succeeded p outputs s ∧ s.job.failures = [] ∨
      Forwarded outputs s ∧ s.job.successes = 0 ∧ s.job.failures.length = 1

variable (p outputs Has) in
def Inv (s : State C D) : Prop :=
  s.stage = .idle ∧ Between p outputs s s.job.phase ∨
    s.job.phase = .handling ∧ s.job.successes = 0 ∧ s.job.failures = [] ∧
      InAttempt p outputs Has s s.stage

theorem Inv.once (hcareful : Careful p.operation outputs Has) (h : Inv p outputs Has s) :
    Once p outputs s := by
  have hloose : Loose outputs s → s.job.successes = 0 → s.job.failures = [] → Once p outputs s :=
    fun hloose hsuccesses hfailures => ⟨hloose.order, hloose.carriers.trans_le (Nat.zero_le 1),
      fun hpos => absurd hpos (by omega), fun hne => absurd hfailures hne⟩
  have hsucceeded : Succeeded p outputs s → s.job.failures = [] → Once p outputs s := by
    rintro ⟨hsent, hall⟩ hfailures
    rcases hsent with hsent | hsent
    · exact ⟨hsent.order, hsent.carriers.trans_le (Nat.zero_le 1), fun _ => hall,
        fun hne => absurd hfailures hne⟩
    · exact ⟨hsent.order ▸ List.prefix_rfl, hsent.carriers.le, fun _ => hall,
        fun hne => absurd hfailures hne⟩
  rcases h with ⟨-, h⟩ | ⟨-, hsuccesses, hfailures, h⟩
  · cases hphase : s.job.phase with
    | spawned | waiting error =>
        rw [hphase] at h
        exact hloose h.1.loose h.2.1 h.2.2
    | handling | panicked =>
        rw [hphase] at h
        exact h.elim
    | forwarding =>
        rw [hphase] at h
        obtain ⟨hsent, hsuccesses, hone⟩ := h
        refine ⟨hsent.order, hsent.carriers.trans_le (Nat.zero_le 1),
          fun hpos => absurd hpos (by omega), fun _ => ⟨hone, hsent.plain, ?_, ?_⟩⟩
        · rw [hsent.signals]
          nofun
        · rw [hphase]
          exact hsent.carriers
    | ended =>
        rw [hphase] at h
        rcases h with ⟨hsent, hfailures⟩ | ⟨hsent, hsuccesses, hone⟩
        · exact hsucceeded hsent hfailures
        · refine ⟨hsent.order, hsent.one.le, fun hpos => absurd hpos (by omega),
            fun _ => ⟨hone, hsent.plain, hsent.signals, ?_⟩⟩
          rw [hphase]
          exact hsent.one
  · unfold InAttempt at h
    split at h
    · exact h.elim
    · exact hloose h.loose hsuccesses hfailures
    · exact hloose h.loose hsuccesses hfailures
    · obtain ⟨emitted, hhas, hholds⟩ := h
      exact hloose (hholds.loose (hcareful.order _ _ hhas)) hsuccesses hfailures
    · obtain ⟨emitted, hholds, horder, -⟩ := h
      exact hloose (hholds.loose horder) hsuccesses hfailures
    · exact hloose h.1 hsuccesses hfailures
    · exact hloose h.1 hsuccesses hfailures
    · exact hsucceeded h hfailures

theorem Fresh.same (h : Fresh s) (hsent : t.sent = s.sent) (hfailed : t.failed = s.failed)
    (hsignals : t.signals = s.signals) : Fresh t :=
  ⟨hsent.trans h.sent, hfailed.trans h.failed, hsignals.trans h.signals⟩

theorem Loose.same (h : Loose outputs s) (hsent : t.sent = s.sent) (hfailed : t.failed = s.failed)
    (hsignals : t.signals = s.signals) : Loose outputs t :=
  ⟨hsent ▸ h.order, hsent ▸ h.plain, hfailed.trans h.failed, hsignals.trans h.signals⟩

theorem Delivered.same (h : Delivered p outputs s) (hsent : t.sent = s.sent)
    (hfailed : t.failed = s.failed) (hsignals : t.signals = s.signals) : Delivered p outputs t := by
  rw [Delivered, hsent, hfailed, hsignals]
  exact h

theorem Succeeded.same (h : Succeeded p outputs s) (hsent : t.sent = s.sent)
    (hfailed : t.failed = s.failed) (hsignals : t.signals = s.signals)
    (hcancelled : t.cancelled = false → s.cancelled = false) : Succeeded p outputs t :=
  ⟨h.1.imp (fun h => h.same hsent hfailed hsignals) fun h => h.same hsent hfailed hsignals,
    fun hc => (h.2 (hcancelled hc)).same hsent hfailed hsignals⟩

/-- What goes on around the event. -/
theorem Inv.around (h : Inv p outputs Has s) (cancelled closed : Bool)
    (hcancelled : cancelled = false → s.cancelled = false) :
    Inv p outputs Has { s with cancelled := cancelled, closed := closed } := by
  rcases h with ⟨hidle, h⟩ | ⟨hphase, hsuccesses, hfailures, h⟩
  · refine Or.inl ⟨hidle, ?_⟩
    change Between p outputs { s with cancelled := cancelled, closed := closed } s.job.phase
    cases hphase : s.job.phase with
    | spawned | waiting error | forwarding =>
        rw [hphase] at h
        exact ⟨h.1.same rfl rfl rfl, h.2⟩
    | handling | panicked =>
        rw [hphase] at h
        exact h
    | ended =>
        rw [hphase] at h
        rcases h with ⟨h, hfailures⟩ | ⟨h, hjob⟩
        · exact Or.inl ⟨h.same rfl rfl rfl hcancelled, hfailures⟩
        · exact Or.inr ⟨⟨h.order, h.plain, h.signals, h.one⟩, hjob⟩
  · refine Or.inr ⟨hphase, hsuccesses, hfailures, ?_⟩
    change InAttempt p outputs Has { s with cancelled := cancelled, closed := closed } s.stage
    cases hstage : s.stage with
    | idle =>
        rw [hstage] at h
        exact h
    | entered | rendering =>
        rw [hstage] at h
        exact Fresh.same h rfl rfl rfl
    | calling call =>
        rw [hstage] at h
        obtain ⟨emitted, hhas, hholds⟩ := h
        exact ⟨emitted, hhas, hholds.emitted, hholds.plain, hholds.failed, hholds.signals⟩
    | closing =>
        rw [hstage] at h
        obtain ⟨emitted, hholds, horder, hall⟩ := h
        exact ⟨emitted, ⟨hholds.emitted, hholds.plain, hholds.failed, hholds.signals⟩, horder,
          fun hc => hall (hcancelled hc)⟩
    | failing error =>
        rw [hstage] at h
        exact ⟨h.1.same rfl rfl rfl, h.2⟩
    | returned result =>
        rw [hstage] at h
        cases result with
        | ok _ => exact Succeeded.same h rfl rfl rfl hcancelled
        | error error => exact ⟨h.1.same rfl rfl rfl, h.2⟩

/-- An attempt begins. -/
theorem inv_handle (h : Fresh s ∧ s.job.successes = 0 ∧ s.job.failures = []) :
    Inv p outputs Has { s with job := s.job.handle s.cancelled, stage := .entered } :=
  Or.inr ⟨rfl, h.2.1, h.2.2, h.1.same rfl rfl rfl⟩

/-- The event is to be forwarded as failed. -/
theorem inv_forward {message : String} (hidle : s.stage = .idle) (hsent : Loose outputs s)
    (hsuccesses : s.job.successes = 0) (hfailures : s.job.failures = []) :
    Inv p outputs Has { s with job := s.job.forwardFailure message, stage := s.stage } := by
  refine Or.inl ⟨hidle, ?_⟩
  refine ⟨hsent.same rfl rfl rfl, hsuccesses, ?_⟩
  change (s.job.failures ++ [message]).length = 1
  rw [hfailures]
  rfl

theorem inv_start (h : Inv p outputs Has s) (hstep : step p s (.runner .start) = some t) :
    Inv p outputs Has t := by
  obtain ⟨job, hjob, hstep⟩ := Option.bind_eq_some_iff.mp hstep
  cases hstep
  rw [Runner.Job.step] at hjob
  split at hjob
  · rename_i hspawned
    rcases h with ⟨hidle, h⟩ | ⟨hphase, -⟩
    · rw [hspawned] at h
      split at hjob
      · cases hjob
        exact inv_forward hidle h.1.loose h.2.1 h.2.2
      · cases hjob
        exact inv_handle h
    · cases hspawned.symm.trans hphase
  · cases hjob

theorem inv_wake (h : Inv p outputs Has s) (hstep : step p s (.runner .wake) = some t) :
    Inv p outputs Has t := by
  obtain ⟨job, hjob, hstep⟩ := Option.bind_eq_some_iff.mp hstep
  cases hstep
  rw [Runner.Job.step] at hjob
  split at hjob
  · rename_i error hwaiting
    rcases h with ⟨-, h⟩ | ⟨hphase, -⟩
    · rw [hwaiting] at h
      split at hjob
      · cases hjob
      · cases hjob
        exact inv_handle h
    · cases hwaiting.symm.trans hphase
  · cases hjob

theorem inv_giveUp (h : Inv p outputs Has s) (hstep : step p s (.runner .giveUp) = some t) :
    Inv p outputs Has t := by
  obtain ⟨job, hjob, hstep⟩ := Option.bind_eq_some_iff.mp hstep
  cases hstep
  rw [Runner.Job.step] at hjob
  split at hjob
  · rename_i error hwaiting
    rcases h with ⟨hidle, h⟩ | ⟨hphase, -⟩
    · rw [hwaiting] at h
      split at hjob
      · cases hjob
        exact inv_forward hidle h.1.loose h.2.1 h.2.2
      · cases hjob
    · cases hwaiting.symm.trans hphase
  · cases hjob

/-- The failure takes the completion with it. -/
theorem inv_forwarded (h : Inv p outputs Has s)
    (hstep : step p s (.runner .forwarded) = some t) : Inv p outputs Has t := by
  obtain ⟨job, hjob, hstep⟩ := Option.bind_eq_some_iff.mp hstep
  cases hstep
  rw [Runner.Job.step] at hjob
  split at hjob
  · rename_i hforwarding
    cases hjob
    rcases h with ⟨hidle, h⟩ | ⟨hphase, -⟩
    · rw [hforwarding] at h
      obtain ⟨hsent, hjob⟩ := h
      have hcarriers := hsent.carriers
      rw [State.carriers] at hcarriers
      unfold forwardFailure
      split
      · refine Or.inl ⟨hidle, Or.inr ⟨⟨hsent.order, hsent.plain, ?_, ?_⟩, hjob⟩⟩
        · dsimp only
          rw [hsent.signals]
          intro event hmem
          cases hmem
        · rw [State.carriers]
          dsimp only
          rw [List.length_append, List.length_singleton]
          omega
      · refine Or.inl ⟨hidle, Or.inr ⟨⟨hsent.order, hsent.plain, ?_, ?_⟩, hjob⟩⟩
        · dsimp only
          rw [hsent.signals]
          simp
        · rw [State.carriers]
          dsimp only
          rw [List.length_append, List.length_singleton]
          omega
    · cases hforwarding.symm.trans hphase
  · cases hjob

/-- An attempt is over; it is repeated only if it has sent nothing. -/
theorem inv_leave (h : Inv p outputs Has s) (hstep : step p s .leave = some t) :
    Inv p outputs Has t := by
  rw [step] at hstep
  split at hstep
  · rename_i result hstage
    obtain ⟨job, hjob, hstep⟩ := Option.bind_eq_some_iff.mp hstep
    cases hstep
    rcases h with ⟨hidle, -⟩ | ⟨hphase, hsuccesses, hfailures, h⟩
    · cases hstage.symm.trans hidle
    · rw [hstage] at h
      rw [Runner.Job.step, hphase] at hjob
      cases hjob
      refine Or.inl ⟨rfl, ?_⟩
      cases result with
      | ok _ =>
          have hsucceeded : Succeeded p outputs s := h
          exact Or.inl ⟨hsucceeded.same rfl rfl rfl id, hfailures⟩
      | error error =>
          obtain ⟨hsent, hfresh⟩ := h
          rw [Runner.Job.returned]
          cases hdelay : s.job.retryDelay p.runner s.cancelled error with
          | none =>
              refine ⟨hsent.same rfl rfl rfl, hsuccesses, ?_⟩
              change (s.job.failures ++ [_]).length = 1
              rw [hfailures]
              rfl
          | some delays =>
              have hretryable : p.isRetryable error = true := by
                unfold Runner.Job.retryDelay at hdelay
                split at hdelay
                · assumption
                · cases hdelay
              refine ⟨⟨?_, hsent.failed, hsent.signals⟩, hsuccesses, hfailures⟩
              refine hfresh.resolve_right fun hpermanent => ?_
              rw [isRetryable, hpermanent] at hretryable
              cases hretryable
  · cases hstep

/-- The call goes on. -/
theorem inv_call (hcareful : Careful p.operation outputs Has) {answer : A}
    (h : Inv p outputs Has s) (hstep : step p s (.call answer) = some t) :
    Inv p outputs Has t := by
  rw [step] at hstep
  split at hstep
  · rename_i call hstage
    obtain ⟨turn, hturn, hstep⟩ := Option.map_eq_some_iff.mp hstep
    subst hstep
    rcases h with ⟨hidle, -⟩ | ⟨hphase, hsuccesses, hfailures, h⟩
    · cases hstage.symm.trans hidle
    · rw [hstage] at h
      obtain ⟨emitted, hhas, hholds⟩ := h
      have horder := hcareful.order _ _ hhas
      cases turn with
      | next call' =>
          refine Or.inr ⟨hphase, hsuccesses, hfailures, emitted, ?_, ?_⟩
          · exact hcareful.next _ _ _ _ _ hhas hturn
          · exact ⟨hholds.emitted, hholds.plain, hholds.failed, hholds.signals⟩
      | emit output call' =>
          dsimp only
          cases hemit : emit p s output with
          | ok u =>
              obtain ⟨hholds', hjob, -⟩ := hholds.emit hemit
              refine Or.inr ⟨?_, ?_, ?_, emitted ++ [output], ?_, ?_⟩
              · exact hjob ▸ hphase
              · exact hjob ▸ hsuccesses
              · exact hjob ▸ hfailures
              · exact hcareful.emit _ _ _ _ _ _ hhas hturn
              · exact ⟨hholds'.emitted, hholds'.plain, hholds'.failed, hholds'.signals⟩
          | error error =>
              refine Or.inr ⟨hphase, hsuccesses, hfailures, ?_, Or.inr (emit_error hemit)⟩
              exact (hholds.loose horder).same rfl rfl rfl
      | done =>
          refine Or.inr ⟨hphase, hsuccesses, hfailures, emitted, ?_, horder, ?_⟩
          · exact ⟨hholds.emitted, hholds.plain, hholds.failed, hholds.signals⟩
          · intro hcancelled
            change s.cancelled = false at hcancelled
            rw [hcancelled] at hturn
            exact hcareful.done _ _ _ hhas hturn
      | fail error =>
          refine Or.inr ⟨hphase, hsuccesses, hfailures, (hholds.loose horder).same rfl rfl rfl, ?_⟩
          rcases hcareful.fail _ _ _ _ _ hhas hturn with rfl | hpermanent
          · exact Or.inl hholds.sent_nil
          · exact Or.inr hpermanent
  · cases hstep

theorem inv_finish (h : Inv p outputs Has s) (hstep : step p s .finish = some t) :
    Inv p outputs Has t := by
  rw [step] at hstep
  split at hstep
  · rename_i hstage
    rcases h with ⟨hidle, -⟩ | ⟨hphase, hsuccesses, hfailures, h⟩
    · cases hstage.symm.trans hidle
    · rw [hstage] at h
      obtain ⟨emitted, hholds, horder, hall⟩ := h
      have hloose := hholds.loose horder
      split at hstep
      · rename_i hcancelled
        cases hstep
        refine Or.inr ⟨hphase, hsuccesses, hfailures, Or.inl (hloose.same rfl rfl rfl), ?_⟩
        intro hnot
        cases hcancelled.symm.trans hnot
      · rename_i hcancelled
        have hcancelled : s.cancelled = false := (Bool.not_eq_true _).mp hcancelled
        obtain rfl := hall hcancelled
        cases hfinish : finish p s with
        | ok u =>
            rw [hfinish] at hstep
            cases hstep
            obtain ⟨hdelivered, hjob, -⟩ := hholds.finish hfinish
            have hsame : Delivered p emitted { u with stage := .returned (.ok ()) } :=
              hdelivered.same rfl rfl rfl
            refine Or.inr ⟨?_, ?_, ?_, Or.inr hsame, fun _ => hsame⟩
            · exact hjob ▸ hphase
            · exact hjob ▸ hsuccesses
            · exact hjob ▸ hfailures
        | error error =>
            rw [hfinish] at hstep
            cases hstep
            exact Or.inr ⟨hphase, hsuccesses, hfailures, hloose.same rfl rfl rfl,
              Or.inr (finish_error hfinish)⟩
  · cases hstep

theorem inv_step (hcareful : Careful p.operation outputs Has) (h : Inv p outputs Has s)
    (hstep : step p s a = some t) : Inv p outputs Has t := by
  cases a with
  | cancel =>
      cases hstep
      exact h.around true s.closed nofun
  | close =>
      cases hstep
      exact h.around s.cancelled true id
  | runner act =>
      cases act with
      | start => exact inv_start h hstep
      | wake => exact inv_wake h hstep
      | giveUp => exact inv_giveUp h hstep
      | forwarded => exact inv_forwarded h hstep
      | finish outcome => cases hstep
  | enter =>
      rw [step] at hstep
      split at hstep
      · rename_i hstage
        rcases h with ⟨hidle, -⟩ | ⟨hphase, hsuccesses, hfailures, h⟩
        · cases hstage.symm.trans hidle
        · rw [hstage] at h
          split at hstep
          · rename_i hcancelled
            cases hstep
            refine Or.inr ⟨hphase, hsuccesses, hfailures, Or.inl (h.loose.same rfl rfl rfl), ?_⟩
            intro hnot
            cases hcancelled.symm.trans hnot
          · cases hstep
            exact Or.inr ⟨hphase, hsuccesses, hfailures, h.same rfl rfl rfl⟩
      · cases hstep
  | render ok =>
      rw [step] at hstep
      split at hstep
      · rename_i hstage
        rcases h with ⟨hidle, -⟩ | ⟨hphase, hsuccesses, hfailures, h⟩
        · cases hstage.symm.trans hidle
        · rw [hstage] at h
          have hfresh : Fresh s := h
          split at hstep
          · cases hstep
            refine Or.inr ⟨hphase, hsuccesses, hfailures, [], hcareful.start, ?_, ?_, ?_, ?_⟩
            · dsimp only
              rw [hfresh.sent]
              rfl
            · dsimp only
              rw [hfresh.sent]
              nofun
            · exact hfresh.failed
            · exact hfresh.signals
          · cases hstep
            exact Or.inr ⟨hphase, hsuccesses, hfailures, hfresh.loose.same rfl rfl rfl,
              Or.inl hfresh.sent⟩
      · cases hstep
  | call answer => exact inv_call hcareful h hstep
  | finish => exact inv_finish h hstep
  | reconnect ok =>
      rw [step] at hstep
      split at hstep
      · rename_i error hstage
        rcases h with ⟨hidle, -⟩ | ⟨hphase, hsuccesses, hfailures, h⟩
        · cases hstage.symm.trans hidle
        · rw [hstage] at h
          cases hstep
          refine Or.inr ⟨hphase, hsuccesses, hfailures, h.1.same rfl rfl rfl, ?_⟩
          rw [failure_reconnect]
          exact h.2
      · cases hstep
  | leave => exact inv_leave h hstep

/-- What a careful operation emits is sent once. -/
theorem sent_once (hcareful : Careful p.operation outputs Has) (h : p.handling.Reachable s) :
    Once p outputs s := by
  have hinv : Inv p outputs Has s := by
    refine h.invariant ?_ fun s a t hinv _ hstep => inv_step hcareful hinv hstep
    rintro s ⟨event, rfl⟩
    exact Or.inl ⟨rfl, ⟨rfl, rfl, rfl⟩, rfl, rfl⟩
  exact hinv.once hcareful

end Runs

end Processor

end Flowgen.Salesforce
