/-
# `Flowgen.Task.Runner` — the loop of a task (`core/src/task/runner.rs`)

`process_events` takes an event only when it has a slot for it, and hands both to a
job of its own.  The job passes an event on that failed upstream; any other one it
handles, and again after each delay of the retry strategy while the error may be
retried.  What has failed for good is forwarded.  Once the task is cancelled no
event is taken and nothing is retried; what was taken goes on.

So every event ends once, unless its handler panics, and no slot is used twice
(`runner_disciplined`).  What was taken before the cancellation may still be handled
for the first time after it, and of a panic nothing remains but a line in the log
(`taken_goes_on`).

How long the delays are is up to the strategy; only their number matters here.
-/
import Flowgen.Lib.Machine

namespace Flowgen.Task.Runner

open Flowgen.Lib

/-- An event, with the error of the task upstream that failed on it. -/
structure Event (D : Type) where
  data : D
  error : Option String

/-- `Handler`, but for what it does with an event: any outcome is possible. -/
structure Handler (D ε : Type) where
  isRetryable : ε → Bool
  failureMessage : Event D → ε → String

inductive Outcome (ε : Type)
  | returned (result : Except ε Unit)
  | panicked

structure RetryConfig where
  maxAttempts : Option Nat

/-- The number of delays in the strategy; `none` if they never run out. -/
def RetryConfig.strategy (retry : RetryConfig) : Option Nat :=
  retry.maxAttempts.map fun max => max - 1

/-- What is left of the delays after the next one. -/
def nextDelay : Option Nat → Option (Option Nat)
  | none => some none
  | some 0 => none
  | some (n + 1) => some (some n)

structure Config (D ε : Type) where
  handler : Handler D ε
  retry : RetryConfig
  maxInFlight : Option ℕ+
  /-- The default of the task. -/
  contextMaxInFlight : ℕ+
  handlesFailed : Bool

def Config.slots {D ε : Type} (cfg : Config D ε) : Nat :=
  cfg.maxInFlight.getD cfg.contextMaxInFlight

/-! ## One event -/

inductive Phase (ε : Type)
  | spawned
  | handling
  /-- The last attempt failed, and there is a delay before the next. -/
  | waiting (error : ε)
  /-- `forward_failure` has been called. -/
  | forwarding
  | ended
  | panicked

def Phase.finished {ε : Type} : Phase ε → Bool
  | .ended | .panicked => true
  | _ => false

def Phase.isHandling {ε : Type} : Phase ε → Bool
  | .handling => true
  | _ => false

/-- The job of an event that was taken.  `attempts` tells of each attempt whether the
task had been cancelled when it began. -/
structure Job (D ε : Type) where
  event : Event D
  takenCancelled : Bool
  delays : Option Nat
  phase : Phase ε := .spawned
  attempts : List Bool := []
  successes : Nat := 0
  /-- The messages with which the event was forwarded as failed. -/
  failures : List String := []

inductive JobAct (ε : Type)
  | start
  | finish (outcome : Outcome ε)
  | wake
  | giveUp
  | forwarded

section Job

variable {D ε : Type} (cfg : Config D ε) (cancelled : Bool) (job : Job D ε)

def Job.handle : Job D ε :=
  { job with phase := .handling, attempts := job.attempts ++ [cancelled] }

def Job.forwardFailure (message : String) : Job D ε :=
  { job with phase := .forwarding, failures := job.failures ++ [message] }

/-- The delay before the next attempt, if there is to be one. -/
def Job.retryDelay (error : ε) : Option (Option Nat) :=
  match cfg.handler.isRetryable error, cancelled with
  | true, false => nextDelay job.delays
  | _, _ => none

/-- The handler has returned. -/
def Job.returned : Except ε Unit → Job D ε
  | .ok _ => { job with phase := .ended, successes := job.successes + 1 }
  | .error error =>
      match job.retryDelay cfg cancelled error with
      | some delays => { job with phase := .waiting error, delays := delays }
      | none => job.forwardFailure (cfg.handler.failureMessage job.event error)

/-- The task that is spawned for an event: `forward_failure`, or `handle_with_retry`. -/
def Job.step : JobAct ε → Option (Job D ε)
  | .start =>
      match job.phase with
      | .spawned =>
          match job.event.error, cfg.handlesFailed with
          | some error, false => some (job.forwardFailure error)
          | _, _ => some (job.handle cancelled)
      | _ => none
  | .finish outcome =>
      match job.phase with
      | .handling =>
          match outcome with
          | .returned result => some (job.returned cfg cancelled result)
          | .panicked => some { job with phase := .panicked }
      | _ => none
  | .wake =>
      match job.phase with
      | .waiting _ => if cancelled then none else some (job.handle cancelled)
      | _ => none
  | .giveUp =>
      match job.phase with
      | .waiting error =>
          if cancelled then
            some (job.forwardFailure (cfg.handler.failureMessage job.event error))
          else none
      | _ => none
  | .forwarded =>
      match job.phase with
      | .forwarding => some { job with phase := .ended }
      | _ => none

end Job

/-! ## The loop -/

/-- Where the loop is: it waits for a slot; it has one and waits for an event; it has
been left, and the jobs are waited for; `process_events` has returned. -/
inductive Loop
  | acquiring
  | receiving
  | stopped
  | returned
deriving DecidableEq

/-- The channel is open. -/
def Loop.takes : Loop → Bool
  | .acquiring | .receiving => true
  | .stopped | .returned => false

structure State (D ε : Type) where
  queue : List (Event D) := []
  /-- No sender of the channel is left. -/
  hungUp : Bool := false
  cancelled : Bool := false
  loop : Loop := .acquiring
  /-- Free slots of the semaphore. -/
  permits : Nat
  /-- The events that were taken, in their order. -/
  jobs : List (Job D ε) := []

inductive Act (D ε : Type)
  | send (event : Event D)
  | hangUp
  | cancel
  | acquire
  | receive
  | stop
  | job (i : Nat) (a : JobAct ε)
  | join

/-- The job that takes a step. -/
def Act.job? {D ε : Type} : Act D ε → Option Nat
  | .job i _ => some i
  | _ => none

section Step

variable {D ε : Type} (cfg : Config D ε)

/-- A job that has finished gives its slot back. -/
def State.put (s : State D ε) (i : Nat) (job : Job D ε) : State D ε :=
  { s with
    jobs := s.jobs.set i job
    permits := if job.phase.finished then s.permits + 1 else s.permits }

/-- The loop is left, with the slot it may have, and the channel is closed. -/
def State.stop (s : State D ε) : Option (State D ε) :=
  match s.loop with
  | .acquiring => if s.cancelled then some { s with loop := .stopped } else none
  | .receiving =>
      if s.cancelled || (s.queue.isEmpty && s.hungUp) then
        some { s with loop := .stopped, permits := s.permits + 1 }
      else none
  | _ => none

def step (s : State D ε) : Act D ε → Option (State D ε)
  | .send event =>
      if s.hungUp || !s.loop.takes then none else some { s with queue := s.queue ++ [event] }
  | .hangUp => some { s with hungUp := true }
  | .cancel => some { s with cancelled := true }
  | .acquire =>
      match s.loop, s.cancelled, s.permits with
      | .acquiring, false, permits + 1 =>
          some { s with loop := .receiving, permits := permits }
      | _, _, _ => none
  | .receive =>
      match s.loop, s.cancelled, s.queue with
      | .receiving, false, event :: queue =>
          some
            { s with
              loop := .acquiring
              queue := queue
              jobs := s.jobs ++
                [{ event := event, takenCancelled := s.cancelled, delays := cfg.retry.strategy }] }
      | _, _, _ => none
  | .stop => s.stop
  | .job i a =>
      (s.jobs[i]?).bind fun job => (job.step cfg s.cancelled a).map fun job => s.put i job
  | .join =>
      match s.loop with
      | .stopped =>
          if s.jobs.all fun job => job.phase.finished then some { s with loop := .returned }
          else none
      | _ => none

def State.initial : State D ε := { permits := cfg.slots }

def runner : Machine (State D ε) (Act D ε) where
  init s := s = .initial cfg
  step := step cfg

end Step

/-! ## What one job does -/

section Job

variable {D ε : Type} {cfg : Config D ε} {cancelled : Bool} {job job' : Job D ε} {a : JobAct ε}

/-- How often the event has ended. -/
def Job.endings (job : Job D ε) : Nat := job.successes + job.failures.length

def Phase.endings : Phase ε → Nat
  | .forwarding | .ended => 1
  | _ => 0

/-- The attempt that is to come. -/
def Phase.owed : Phase ε → Nat
  | .spawned | .waiting _ => 1
  | _ => 0

/-- Everything a step of a job can be. -/
inductive Job.Moves (cancelled : Bool) (job : Job D ε) : JobAct ε → Job D ε → Prop
  | begin (a : JobAct ε) : job.phase = .spawned → job.Moves cancelled a (job.handle cancelled)
  | retry (a : JobAct ε) (error : ε) : job.phase = .waiting error → cancelled = false →
      job.Moves cancelled a (job.handle cancelled)
  | forward (a : JobAct ε) (message : String) : job.phase.endings = 0 → job.phase.finished = false →
      job.Moves cancelled a (job.forwardFailure message)
  | wait (a : JobAct ε) (error : ε) (delays : Option Nat) : job.phase = .handling →
      nextDelay job.delays = some delays →
      job.Moves cancelled a { job with phase := .waiting error, delays := delays }
  | succeed (a : JobAct ε) : job.phase = .handling →
      job.Moves cancelled a { job with phase := .ended, successes := job.successes + 1 }
  | panic : job.phase = .handling →
      job.Moves cancelled (.finish .panicked) { job with phase := .panicked }
  | close (a : JobAct ε) : job.phase = .forwarding →
      job.Moves cancelled a { job with phase := .ended }

theorem Job.moves_returned {result : Except ε Unit} (h : job.phase = .handling) :
    job.Moves cancelled a (job.returned cfg cancelled result) := by
  cases result with
  | ok _ => exact .succeed a h
  | error error =>
      cases hdelay : job.retryDelay cfg cancelled error with
      | none =>
          simp only [Job.returned, hdelay]
          exact .forward a _ (by rw [h]; rfl) (by rw [h]; rfl)
      | some delays =>
          simp only [Job.returned, hdelay]
          simp only [Job.retryDelay] at hdelay
          split at hdelay
          · exact .wait a error delays h hdelay
          · cases hdelay

theorem Job.moves_of_step (h : job.step cfg cancelled a = some job') :
    job.Moves cancelled a job' := by
  cases a with
  | start =>
      simp only [Job.step] at h
      split at h
      · rename_i hphase
        split at h
        · cases h
          exact .forward _ _ (by rw [hphase]; rfl) (by rw [hphase]; rfl)
        · cases h
          exact .begin _ hphase
      · cases h
  | finish outcome =>
      simp only [Job.step] at h
      split at h
      · rename_i hphase
        cases outcome with
        | returned result =>
            cases h
            exact Job.moves_returned hphase
        | panicked =>
            cases h
            exact .panic hphase
      · cases h
  | wake =>
      simp only [Job.step] at h
      split at h
      · rename_i error hphase
        obtain ⟨hcancelled, heq⟩ := Option.ite_none_left_eq_some.mp h
        cases heq
        exact .retry _ error hphase (Bool.not_eq_true _ ▸ hcancelled)
      · cases h
  | giveUp =>
      simp only [Job.step] at h
      split at h
      · rename_i error hphase
        obtain ⟨-, heq⟩ := Option.ite_none_right_eq_some.mp h
        cases heq
        exact .forward _ _ (by rw [hphase]; rfl) (by rw [hphase]; rfl)
      · cases h
  | forwarded =>
      simp only [Job.step] at h
      split at h
      · rename_i hphase
        cases h
        exact .close _ hphase
      · cases h

/-- Attempts at an event, at most. -/
def RetryConfig.limit (retry : RetryConfig) : Option Nat := retry.maxAttempts.map (max 1)

structure Job.Ok (cfg : Config D ε) (job : Job D ε) : Prop where
  endings : job.endings = job.phase.endings
  attempts : ∀ limit, cfg.retry.limit = some limit → ∃ left, job.delays = some left ∧
    job.attempts.length + job.phase.owed + left ≤ limit
  begun : job.phase = .spawned → job.attempts = []
  retries : ∀ late ∈ job.attempts.tail, late = false

theorem nextDelay_some {n : Nat} {delays : Option Nat} (h : nextDelay (some n) = some delays) :
    ∃ left, delays = some left ∧ n = left + 1 := by
  cases n with
  | zero => cases h
  | succ left =>
      cases h
      exact ⟨left, rfl, rfl⟩

theorem Job.ok_new (event : Event D) :
    ({ event := event, takenCancelled := false, delays := cfg.retry.strategy } : Job D ε).Ok cfg where
  endings := rfl
  attempts limit hlimit := by
    obtain ⟨attempts, hattempts, rfl⟩ := Option.map_eq_some_iff.mp hlimit
    refine ⟨attempts - 1, by simp [RetryConfig.strategy, hattempts], ?_⟩
    show 0 + 1 + (attempts - 1) ≤ max 1 attempts
    omega
  begun _ := rfl
  retries _ h := by cases h

theorem Job.Ok.handle (h : job.Ok cfg) (hphase : job.phase.endings = 0) (howed : job.phase.owed = 1)
    (hlate : job.attempts = [] ∨ cancelled = false) : (job.handle cancelled).Ok cfg where
  endings := h.endings.trans hphase
  attempts limit hlimit := by
    obtain ⟨left, hleft, hle⟩ := h.attempts limit hlimit
    refine ⟨left, hleft, ?_⟩
    have hlength : (job.handle cancelled).attempts.length = job.attempts.length + 1 :=
      List.length_append
    have hnone : (job.handle cancelled).phase.owed = 0 := rfl
    omega
  begun hspawned := by cases hspawned
  retries late hmem := by
    have htail : late ∈ (job.attempts ++ [cancelled]).tail := hmem
    rcases hlate with hnil | rfl
    · rw [hnil] at htail
      cases htail
    · cases hattempts : job.attempts with
      | nil =>
          rw [hattempts] at htail
          cases htail
      | cons first rest =>
          rw [hattempts] at htail
          rcases List.mem_append.mp htail with hrest | hlast
          · exact h.retries late (by rwa [hattempts])
          · exact List.mem_singleton.mp hlast

/-- A step that is no attempt keeps what is left of them, and leaves the job at the ending
that its phase tells of. -/
theorem Job.Ok.move (h : job.Ok cfg) (hattempts : job'.attempts = job.attempts)
    (hendings : job'.endings = job'.phase.endings) (hphase : job'.phase ≠ .spawned)
    (howed : ∀ left, job.delays = some left → ∃ left', job'.delays = some left' ∧
      job'.phase.owed + left' ≤ job.phase.owed + left) : job'.Ok cfg where
  endings := hendings
  attempts limit hlimit := by
    obtain ⟨left, hleft, hle⟩ := h.attempts limit hlimit
    obtain ⟨left', hleft', hle'⟩ := howed left hleft
    refine ⟨left', hleft', ?_⟩
    rw [hattempts]
    omega
  begun hspawned := (hphase hspawned).elim
  retries := by
    rw [hattempts]
    exact h.retries

theorem Job.Ok.step (h : job.Ok cfg) (hstep : job.step cfg cancelled a = some job') :
    job'.Ok cfg := by
  have hendings := h.endings
  cases Job.moves_of_step hstep with
  | begin _ hphase =>
      exact h.handle (by rw [hphase]; rfl) (by rw [hphase]; rfl) (.inl (h.begun hphase))
  | retry _ error hphase hcancelled =>
      exact h.handle (by rw [hphase]; rfl) (by rw [hphase]; rfl) (.inr hcancelled)
  | forward _ message hnone hfinished =>
      rw [hnone, Job.endings] at hendings
      refine h.move rfl ?_ (fun hspawned => by cases hspawned) fun left hleft =>
        ⟨left, hleft, Nat.add_le_add_right (Nat.zero_le _) left⟩
      show job.successes + (job.failures ++ [message]).length = 1
      rw [List.length_append, ← Nat.add_assoc, hendings]
      rfl
  | wait _ error delays hphase hnext =>
      rw [hphase] at hendings
      refine h.move rfl hendings (fun hspawned => by cases hspawned) fun left hleft => ?_
      rw [hleft] at hnext
      obtain ⟨left', rfl, rfl⟩ := nextDelay_some hnext
      refine ⟨left', rfl, ?_⟩
      show 1 + left' ≤ job.phase.owed + (left' + 1)
      omega
  | succeed _ hphase =>
      rw [hphase, Job.endings] at hendings
      refine h.move rfl ?_ (fun hspawned => by cases hspawned) fun left hleft =>
        ⟨left, hleft, Nat.add_le_add_right (Nat.zero_le _) left⟩
      show job.successes + 1 + job.failures.length = 1
      have hzero : job.successes + job.failures.length = 0 := hendings
      omega
  | panic hphase =>
      rw [hphase] at hendings
      exact h.move rfl hendings (fun hspawned => by cases hspawned) fun left hleft =>
        ⟨left, hleft, Nat.add_le_add_right (Nat.zero_le _) left⟩
  | close _ hphase =>
      rw [hphase] at hendings
      exact h.move rfl hendings (fun hspawned => by cases hspawned) fun left hleft =>
        ⟨left, hleft, Nat.add_le_add_right (Nat.zero_le _) left⟩

/-- The steps a job has left, if the number of its retries is bounded. -/
def Job.work (job : Job D ε) : Nat :=
  match job.phase with
  | .spawned | .waiting _ => 2 * job.delays.getD 0 + 3
  | .handling => 2 * job.delays.getD 0 + 2
  | .forwarding => 1
  | .ended | .panicked => 0

theorem Job.work_step {left : Nat} (hleft : job.delays = some left)
    (hstep : job.step cfg cancelled a = some job') : job'.work < job.work := by
  cases Job.moves_of_step hstep with
  | begin _ hphase =>
      simp only [Job.work, Job.handle, hphase]
      omega
  | retry _ error hphase _ =>
      simp only [Job.work, Job.handle, hphase]
      omega
  | forward _ message hnone hfinished =>
      simp only [Job.work, Job.forwardFailure]
      split
      · omega
      · omega
      · omega
      · rename_i hphase
        rw [hphase] at hnone
        cases hnone
      · rename_i hphase
        rw [hphase] at hfinished
        cases hfinished
      · rename_i hphase
        rw [hphase] at hfinished
        cases hfinished
  | wait _ error delays hphase hnext =>
      rw [hleft] at hnext
      obtain ⟨left', rfl, rfl⟩ := nextDelay_some hnext
      simp only [Job.work, hphase, hleft, Option.getD_some]
      omega
  | succeed _ hphase =>
      simp only [Job.work, hphase]
      omega
  | panic hphase =>
      simp only [Job.work, hphase]
      omega
  | close _ hphase =>
      simp only [Job.work, hphase]
      omega

/-- A job that has not finished can go on, once its handler returns, its delay is over
or its event has been sent. -/
theorem Job.exists_step (cfg : Config D ε) (cancelled : Bool) (h : job.phase.finished = false) :
    ∃ a, (job.step cfg cancelled a).isSome := by
  cases hphase : job.phase with
  | spawned =>
      refine ⟨.start, ?_⟩
      simp only [Job.step, hphase]
      split
      · rfl
      · rfl
  | handling => exact ⟨.finish (.returned (.ok ())), by simp only [Job.step, hphase]; rfl⟩
  | waiting error =>
      cases cancelled with
      | false => exact ⟨.wake, by simp only [Job.step, hphase]; rfl⟩
      | true => exact ⟨.giveUp, by simp only [Job.step, hphase]; rfl⟩
  | forwarding => exact ⟨.forwarded, by simp only [Job.step, hphase]; rfl⟩
  | ended =>
      rw [hphase] at h
      cases h
  | panicked =>
      rw [hphase] at h
      cases h

end Job

/-! ## What the loop does -/

section Loop

variable {D ε : Type} {cfg : Config D ε} {s s' : State D ε} {a : Act D ε} {as : List (Act D ε)}

/-- Slots that are taken: by the jobs that have not finished, and by the loop. -/
def State.taken (s : State D ε) : Nat :=
  (s.jobs.countP fun job => !job.phase.finished) + if s.loop = .receiving then 1 else 0

/-- Everything a step can be for the jobs and the slots. -/
inductive Moves (cfg : Config D ε) (s : State D ε) : Act D ε → State D ε → Prop
  /-- The loop goes on, or something comes from outside. -/
  | loop (a : Act D ε) (s' : State D ε) : a.job? = none → s'.jobs = s.jobs →
      s'.permits + s'.taken = s.permits + s.taken →
      (s'.loop = .returned → s.loop = .returned ∨ ∀ job ∈ s.jobs, job.phase.finished = true) →
      Moves cfg s a s'
  | take (event : Event D) (s' : State D ε) :
      s'.jobs = s.jobs ++
        [{ event := event, takenCancelled := false, delays := cfg.retry.strategy }] →
      s'.permits + s'.taken = s.permits + s.taken → s'.loop ≠ .returned →
      Moves cfg s .receive s'
  | job (i : Nat) (b : JobAct ε) (job job' : Job D ε) : s.jobs[i]? = some job →
      job.step cfg s.cancelled b = some job' → Moves cfg s (.job i b) (s.put i job')

theorem moves_of_stop (hstep : s.stop = some s') : Moves cfg s .stop s' := by
  simp only [State.stop] at hstep
  split at hstep
  · rename_i hloop
    obtain ⟨-, heq⟩ := Option.ite_none_right_eq_some.mp hstep
    cases heq
    refine .loop _ _ rfl rfl ?_ fun hreturned => by cases hreturned
    rw [State.taken, State.taken, hloop]
    rfl
  · rename_i hloop
    obtain ⟨-, heq⟩ := Option.ite_none_right_eq_some.mp hstep
    cases heq
    refine .loop _ _ rfl rfl ?_ fun hreturned => by cases hreturned
    rw [State.taken, State.taken, hloop, if_pos rfl]
    show s.permits + 1 + ((s.jobs.countP fun job => !job.phase.finished) + 0) = _
    omega
  · cases hstep

theorem moves_of_step (hstep : step cfg s a = some s') : Moves cfg s a s' := by
  cases a with
  | send event =>
      obtain ⟨-, heq⟩ := Option.ite_none_left_eq_some.mp hstep
      cases heq
      exact .loop _ _ rfl rfl rfl .inl
  | hangUp =>
      cases hstep
      exact .loop _ _ rfl rfl rfl .inl
  | cancel =>
      cases hstep
      exact .loop _ _ rfl rfl rfl .inl
  | acquire =>
      simp only [Runner.step] at hstep
      split at hstep
      · rename_i permits hloop _ hpermits
        cases hstep
        refine .loop _ _ rfl rfl ?_ fun hreturned => by cases hreturned
        rw [State.taken, State.taken, hloop, hpermits, if_pos rfl]
        simp only [reduceCtorEq, if_false]
        omega
      · cases hstep
  | receive =>
      simp only [Runner.step] at hstep
      split at hstep
      · rename_i event queue hloop hcancelled _
        cases hstep
        refine .take event _ (by rw [hcancelled]) ?_ fun hreturned => by cases hreturned
        rw [State.taken, State.taken, hloop, if_pos rfl, List.countP_append, List.countP_singleton]
        rfl
      · cases hstep
  | stop => exact moves_of_stop hstep
  | job i b =>
      obtain ⟨job, hjob, hmap⟩ := Option.bind_eq_some_iff.mp hstep
      obtain ⟨job', hjob', rfl⟩ := Option.map_eq_some_iff.mp hmap
      exact .job i b job job' hjob hjob'
  | join =>
      simp only [Runner.step] at hstep
      split at hstep
      · rename_i hloop
        obtain ⟨hall, heq⟩ := Option.ite_none_right_eq_some.mp hstep
        cases heq
        refine .loop _ _ rfl rfl ?_ fun _ => .inr fun job hjob => List.all_eq_true.mp hall job hjob
        rw [State.taken, State.taken, hloop]
        rfl
      · cases hstep

structure Orderly (cfg : Config D ε) (s : State D ε) : Prop where
  jobs : ∀ job ∈ s.jobs, job.Ok cfg
  inTime : ∀ job ∈ s.jobs, job.takenCancelled = false
  slots : s.permits + s.taken = cfg.slots
  joined : s.loop = .returned → ∀ job ∈ s.jobs, job.phase.finished = true

theorem Job.not_finished_of_step {job job' : Job D ε} {c : Bool} {a : JobAct ε}
    (h : job.step cfg c a = some job') : job.phase.finished = false := by
  cases Job.moves_of_step h with
  | begin _ hphase => rw [hphase]; rfl
  | retry _ error hphase _ => rw [hphase]; rfl
  | forward _ message _ hfinished => exact hfinished
  | wait _ error delays hphase _ => rw [hphase]; rfl
  | succeed _ hphase => rw [hphase]; rfl
  | panic hphase => rw [hphase]; rfl
  | close _ hphase => rw [hphase]; rfl

theorem Job.takenCancelled_of_step {job job' : Job D ε} {c : Bool} {a : JobAct ε}
    (h : job.step cfg c a = some job') : job'.takenCancelled = job.takenCancelled := by
  cases Job.moves_of_step h <;> rfl

/-- A job has its slot until it has finished. -/
theorem State.slots_put {job job' : Job D ε} {i : Nat} (hjob : s.jobs[i]? = some job)
    (hbefore : job.phase.finished = false) :
    (s.put i job').permits + (s.put i job').taken = s.permits + s.taken := by
  obtain ⟨hi, hget⟩ := List.getElem?_eq_some_iff.mp hjob
  have hcount := List.countP_set (p := fun job : Job D ε => !job.phase.finished) (a := job') hi
  have hpos : 0 < s.jobs.countP fun job => !job.phase.finished :=
    List.countP_pos_iff.mpr ⟨job, List.mem_of_getElem? hjob, by rw [hbefore]; rfl⟩
  simp only [hget, hbefore, Bool.not_false, if_true] at hcount
  show (if job'.phase.finished then s.permits + 1 else s.permits) +
      (((s.jobs.set i job').countP fun job => !job.phase.finished) +
        if s.loop = .receiving then 1 else 0) =
    s.permits + ((s.jobs.countP fun job => !job.phase.finished) +
      if s.loop = .receiving then 1 else 0)
  rw [hcount]
  cases hfinished : job'.phase.finished with
  | true =>
      simp only [Bool.not_true, Bool.false_eq_true, if_true, if_false]
      omega
  | false =>
      simp only [Bool.not_false, Bool.false_eq_true, if_true, if_false]
      omega

theorem Orderly.put (h : Orderly cfg s) {job job' : Job D ε} {i : Nat} {a : JobAct ε}
    (hjob : s.jobs[i]? = some job) (hstep : job.step cfg s.cancelled a = some job') :
    Orderly cfg (s.put i job') := by
  have hmem := List.mem_of_getElem? hjob
  have hbefore := Job.not_finished_of_step hstep
  refine ⟨?_, ?_, ?_, ?_⟩
  · intro job'' hjob''
    rcases List.mem_or_eq_of_mem_set hjob'' with hold | rfl
    · exact h.jobs job'' hold
    · exact (h.jobs job hmem).step hstep
  · intro job'' hjob''
    rcases List.mem_or_eq_of_mem_set hjob'' with hold | rfl
    · exact h.inTime job'' hold
    · exact (Job.takenCancelled_of_step hstep).trans (h.inTime job hmem)
  · exact (State.slots_put hjob hbefore).trans h.slots
  · intro hloop
    have hfinished := h.joined hloop job hmem
    rw [hbefore] at hfinished
    cases hfinished

theorem Orderly.step (h : Orderly cfg s) (hstep : step cfg s a = some s') : Orderly cfg s' := by
  cases moves_of_step hstep with
  | loop _ _ _ hjobs hslots hjoined =>
      refine ⟨?_, ?_, hslots.trans h.slots, ?_⟩
      · rw [hjobs]
        exact h.jobs
      · rw [hjobs]
        exact h.inTime
      · intro hreturned job hjob
        rw [hjobs] at hjob
        rcases hjoined hreturned with hbefore | hall
        · exact h.joined hbefore job hjob
        · exact hall job hjob
  | take event _ hjobs hslots hloop =>
      refine ⟨?_, ?_, hslots.trans h.slots, fun hreturned => (hloop hreturned).elim⟩
      · intro job hjob
        rw [hjobs] at hjob
        rcases List.mem_append.mp hjob with hold | hnew
        · exact h.jobs job hold
        · rw [List.mem_singleton.mp hnew]
          exact Job.ok_new event
      · intro job hjob
        rw [hjobs] at hjob
        rcases List.mem_append.mp hjob with hold | hnew
        · exact h.inTime job hold
        · rw [List.mem_singleton.mp hnew]
  | job i b job job' hjob hjob' => exact h.put hjob hjob'

/-- What a step means for the `i`-th event: nothing, it is taken, or its job takes a step. -/
theorem job_of_step (hstep : step cfg s a = some s') (i : Nat) :
    (a.job? ≠ some i ∧ s'.jobs[i]? = s.jobs[i]?) ∨
    (a.job? ≠ some i ∧ s.jobs[i]? = none ∧ ∃ event, s'.jobs[i]? = some
      { event := event, takenCancelled := false, delays := cfg.retry.strategy }) ∨
    ∃ b job job', a = .job i b ∧ s.jobs[i]? = some job ∧
      job.step cfg s.cancelled b = some job' ∧ s'.jobs[i]? = some job' := by
  cases moves_of_step hstep with
  | loop _ _ hjob hjobs _ _ =>
      rw [hjob, hjobs]
      exact .inl ⟨(Option.some_ne_none i).symm, rfl⟩
  | take event _ hjobs _ _ =>
      rw [hjobs]
      rcases Nat.lt_trichotomy i s.jobs.length with hlt | rfl | hgt
      · exact .inl ⟨(Option.some_ne_none i).symm, List.getElem?_append_left hlt⟩
      · refine .inr (.inl ⟨(Option.some_ne_none _).symm, List.getElem?_eq_none le_rfl, event, ?_⟩)
        rw [List.getElem?_concat_length]
      · refine .inl ⟨(Option.some_ne_none i).symm, ?_⟩
        rw [List.getElem?_eq_none hgt.le]
        refine List.getElem?_eq_none ?_
        rw [List.length_append, List.length_singleton]
        omega
  | job j b job job' hjob hjob' =>
      by_cases hj : j = i
      · subst hj
        have hlt := (List.getElem?_eq_some_iff.mp hjob).1
        exact .inr (.inr ⟨b, job, job', rfl, hjob, hjob', List.getElem?_set_self hlt⟩)
      · exact .inl ⟨fun h => hj (Option.some.inj h), List.getElem?_set_ne hj⟩

theorem orderly_of_run (h : (runner cfg).Run (.initial cfg) as s) : Orderly cfg s := by
  refine h.invariant ?_ fun s a s' hs _ hstep => hs.step hstep
  exact ⟨fun _ h => (by cases h), fun _ h => (by cases h), rfl, fun h => (by cases h)⟩

/-- The steps of a job are counted. -/
theorem steps_add_work (h : (runner cfg).Run (.initial cfg) as s) {limit : Nat}
    (hlimit : cfg.retry.limit = some limit) (i : Nat) :
    (as.countP fun a => a.job? = some i) + (s.jobs[i]?).elim (2 * limit + 1) Job.work ≤
      2 * limit + 1 := by
  induction h with
  | nil => simp [State.initial]
  | @snoc as s s' a hrun _ hstep ih =>
      rw [List.countP_append, List.countP_singleton]
      obtain ⟨hother, hsame⟩ | ⟨hother, hnone, event, hnew⟩ |
        ⟨b, job, job', rfl, hjob, hjob', hnew⟩ := job_of_step hstep i
      · rw [hsame, if_neg (by simpa using hother)]
        exact ih
      · obtain ⟨attempts, hattempts, rfl⟩ := Option.map_eq_some_iff.mp hlimit
        rw [hnone] at ih
        rw [hnew, if_neg (by simpa using hother)]
        simp only [Option.elim, Job.work, RetryConfig.strategy, hattempts, Option.map_some,
          Option.getD_some] at ih ⊢
        omega
      · obtain ⟨left, hleft, -⟩ :=
          ((orderly_of_run hrun).jobs job (List.mem_of_getElem? hjob)).attempts limit hlimit
        have hwork := Job.work_step hleft hjob'
        rw [hjob] at ih
        rw [hnew, if_pos (by simp [Act.job?])]
        simp only [Option.elim] at ih ⊢
        omega

/-- A job panics when its handler does. -/
theorem panicked_of_run (h : (runner cfg).Run (.initial cfg) as s) {i : Nat} {job : Job D ε}
    (hjob : s.jobs[i]? = some job) (hphase : job.phase = .panicked) :
    .job i (.finish .panicked) ∈ as := by
  induction h generalizing job with
  | nil => simp [State.initial] at hjob
  | @snoc as s s' a hrun _ hstep ih =>
      rw [List.mem_append]
      obtain ⟨-, hsame⟩ | ⟨-, -, event, hnew⟩ | ⟨b, job₀, job', rfl, hjob₀, hjob', hnew⟩ :=
        job_of_step hstep i
      · exact .inl (ih (hsame ▸ hjob) hphase)
      · cases hnew.symm.trans hjob
        cases hphase
      · cases hnew.symm.trans hjob
        refine .inr (List.mem_singleton.mpr ?_)
        cases Job.moves_of_step hjob' with
        | panic _ => rfl
        | begin _ _ => cases hphase
        | retry _ _ _ _ => cases hphase
        | forward _ _ _ _ => cases hphase
        | wait _ _ _ _ _ => cases hphase
        | succeed _ _ => cases hphase
        | close _ _ => cases hphase

/-- What holds after a run `as` of the runner that leads to `s`. -/
structure Disciplined (cfg : Config D ε) (as : List (Act D ε)) (s : State D ε) : Prop where
  /-- No event ends twice, and none whose job has ended did not. -/
  once : ∀ job ∈ s.jobs, job.endings ≤ 1 ∧ (job.phase = .ended → job.endings = 1)
  /-- When `process_events` returns, all of them have ended; -/
  returned : s.loop = .returned → ∀ job ∈ s.jobs, job.phase = .ended ∨ job.phase = .panicked
  /-- those of handlers that panicked have not. -/
  panicked : ∀ i job, s.jobs[i]? = some job → job.phase = .panicked →
    .job i (.finish .panicked) ∈ as
  /-- Until then a job can go on, -/
  goesOn : ∀ i job, s.jobs[i]? = some job → job.phase.finished = false →
    ∃ b, (step cfg s (.job i b)).isSome
  /-- but not for ever. -/
  bounded : ∀ limit, cfg.retry.limit = some limit → ∀ i,
    (as.countP fun a => a.job? = some i) ≤ 2 * limit + 1
  attempts : ∀ limit, cfg.retry.limit = some limit → ∀ job ∈ s.jobs, job.attempts.length ≤ limit
  inFlight : (s.jobs.countP fun job => job.phase.isHandling) ≤ cfg.slots
  /-- After the cancellation nothing is taken, and nothing is tried again. -/
  cancelled : ∀ job ∈ s.jobs, job.takenCancelled = false ∧ ∀ late ∈ job.attempts.tail, late = false

theorem Phase.endings_le (phase : Phase ε) : phase.endings ≤ 1 := by
  cases phase with
  | forwarding => exact le_rfl
  | ended => exact le_rfl
  | spawned => exact Nat.zero_le 1
  | handling => exact Nat.zero_le 1
  | waiting error => exact Nat.zero_le 1
  | panicked => exact Nat.zero_le 1

/-- Whatever the handler does, whenever the task is cancelled. -/
theorem runner_disciplined {D ε : Type} (cfg : Config D ε) (as : List (Act D ε)) (s : State D ε)
    (h : (runner cfg).Run (.initial cfg) as s) : Disciplined cfg as s := by
  have horderly := orderly_of_run h
  refine ⟨fun job hjob => ?_, fun hloop job hjob => ?_, fun i job => panicked_of_run h,
    ?_, ?_, ?_, ?_, ?_⟩
  · have hendings := (horderly.jobs job hjob).endings
    refine ⟨hendings ▸ Phase.endings_le _, fun hphase => ?_⟩
    rw [hendings, hphase]
    rfl
  · have hfinished := horderly.joined hloop job hjob
    cases hphase : job.phase with
    | ended => exact .inl rfl
    | panicked => exact .inr rfl
    | spawned => rw [hphase] at hfinished; cases hfinished
    | handling => rw [hphase] at hfinished; cases hfinished
    | waiting error => rw [hphase] at hfinished; cases hfinished
    | forwarding => rw [hphase] at hfinished; cases hfinished
  · intro i job hjob hfinished
    obtain ⟨b, hb⟩ := Job.exists_step cfg s.cancelled hfinished
    refine ⟨b, ?_⟩
    rw [step, hjob, Option.bind_some, Option.isSome_map]
    exact hb
  · intro limit hlimit i
    exact (Nat.le_add_right _ _).trans (steps_add_work h hlimit i)
  · intro limit hlimit job hjob
    obtain ⟨left, -, hle⟩ := (horderly.jobs job hjob).attempts limit hlimit
    omega
  · have hlive : (s.jobs.countP fun job => job.phase.isHandling) ≤
        s.jobs.countP fun job => !job.phase.finished := by
      refine List.countP_mono_left fun job _ hhandling => ?_
      cases hphase : job.phase with
      | handling => rfl
      | _ => rw [hphase] at hhandling; cases hhandling
    have hslots := horderly.slots
    rw [State.taken] at hslots
    omega
  · intro job hjob
    exact ⟨horderly.inTime job hjob, (horderly.jobs job hjob).retries⟩

end Loop

/-! ## What cancellation and a panic leave -/

/-- Three attempts, two events at once, and errors that are texts. -/
def sampleConfig : Config Unit String where
  handler := { isRetryable := fun _ => true, failureMessage := fun _ error => error }
  retry := { maxAttempts := some 3 }
  maxInFlight := some ⟨2, by decide⟩
  contextMaxInFlight := ⟨64, by decide⟩
  handlesFailed := false

/-- An event is taken, then the task is cancelled, and only then the event is handled. -/
def lateStart : List (Act Unit String) :=
  [.send ⟨(), none⟩, .acquire, .receive, .cancel, .job 0 .start,
    .job 0 (.finish (.returned (.ok ()))), .stop, .join]

/-- The handler panics. -/
def panics : List (Act Unit String) :=
  [.send ⟨(), none⟩, .acquire, .receive, .job 0 .start, .job 0 (.finish .panicked), .cancel, .stop,
    .join]

theorem runner_disciplined_late : ∃ s,
    (runner sampleConfig).Run (.initial sampleConfig) lateStart s ∧ Disciplined sampleConfig lateStart s := by
  have hrun : ((runner sampleConfig).exec (fun _ _ => True) (.initial sampleConfig) lateStart).any
      (fun s => s.loop = .returned) = true := by decide
  obtain ⟨s, hs, -⟩ := Machine.exists_of_exec hrun
  exact ⟨s, hs, runner_disciplined sampleConfig lateStart s hs⟩

/-- An attempt starts after the cancellation; and an event ends in neither way. -/
theorem taken_goes_on :
    (∃ s, (runner sampleConfig).Run (.initial sampleConfig) lateStart s ∧
      ∃ job ∈ s.jobs, true ∈ job.attempts) ∧
    ∃ s, (runner sampleConfig).Run (.initial sampleConfig) panics s ∧ s.loop = .returned ∧
      ∃ job ∈ s.jobs, job.endings = 0 := by
  have hlate : ((runner sampleConfig).exec (fun _ _ => True) (.initial sampleConfig) lateStart).any
      (fun s => s.jobs.any fun job => job.attempts.contains true) = true := by decide
  have hpanic : ((runner sampleConfig).exec (fun _ _ => True) (.initial sampleConfig) panics).any
      (fun s => decide (s.loop = .returned) && s.jobs.any fun job => job.endings == 0) = true := by
    decide
  obtain ⟨s, hs, hany⟩ := Machine.exists_of_exec hlate
  obtain ⟨job, hjob, htrue⟩ := List.any_eq_true.mp hany
  obtain ⟨s', hs', hany'⟩ := Machine.exists_of_exec hpanic
  obtain ⟨hloop, hnone⟩ := Bool.and_eq_true_iff.mp hany'
  obtain ⟨job', hjob', hzero⟩ := List.any_eq_true.mp hnone
  exact ⟨⟨s, hs, job, hjob, List.contains_iff_mem.mp htrue⟩,
    s', hs', of_decide_eq_true hloop, job', hjob', beq_iff_eq.mp hzero⟩

end Flowgen.Task.Runner
