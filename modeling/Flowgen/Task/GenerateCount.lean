/-
# `Flowgen.Task.GenerateCount` — the runs of a generate task with a count (`core/src/task/generate.rs`)

`run_loop` reads the counter from the cache, sends a run when it is due, waits
for its completion and, if the run succeeded and the task has not been
cancelled, writes the time of the run and then the counter.  It returns when the
counter has reached the count.  What fails makes it start over, from the counter
that the cache has.

`generator` takes the loop step by step, with cache operations that succeed.
The process may stop at any point and be started again, and once the task is
cancelled `run` drops the loop wherever it is.  `Counts` is what the count is
for: outside the two writes the counter in the cache is the number of runs that
have completed, and no run is sent once it has reached the count.  It holds
through a run exactly if nothing comes between a completed run and the write of
its counter (`counts_iff_undisturbed`).
-/
import Flowgen.Lib.Machine
import Flowgen.Task.Generate

namespace Flowgen.Task.Generate

open Flowgen.Lib

/-- Where the process is in `run` and `run_loop`.  The counter is the loop's own,
`at` the second of the run. -/
inductive Phase
  | down
  | init
  | idle
  | waiting (counter : Nat)
  | sending (counter : Nat) (secs : UInt64)
  | awaiting (counter : Nat) (secs : UInt64)
  | completed (counter : Nat) (secs : UInt64)
  | counted (counter : Nat)
  | backoff
  | returned
  | stopped
  | failed
deriving DecidableEq

structure State where
  cache : Cache := {}
  phase : Phase := .down
  cancelled : Bool := false
  /-- Runs that have completed since the counter was last reset. -/
  completed : Nat := 0

/-- The counter that the next entry of the loop reads. -/
def State.counter (s : State) : Nat := s.cache.counter.getD 0

inductive Act
  | start
  | init
  | enter (now : Duration)
  | fault
  | fire (now : Duration)
  | send (ok : Bool)
  | resolve (success : Bool)
  | check
  | store
  | retry
  | giveUp
  | cancel
  | drop
  | crash

/-- The counter and the writes of a run that has completed. -/
def Phase.uncounted : Phase → Nat
  | .completed _ _ | .counted _ => 1
  | _ => 0

section Step

variable (config : Config)

/-- There is no schedule to wait for. -/
def Config.runsOnce : Bool :=
  match config.schedule with
  | .ok .once => true
  | _ => false

/-- The cache after `first_due`, which records the first start of an interval. -/
def Config.firstCache (cache : Cache) (now : Duration) : Except Error Cache :=
  match config.schedule with
  | .ok schedule => (firstDue schedule cache now).map Prod.snd
  | .error source => .error (.configValidation source)

/-- Attempts are recorded for an interval. -/
def Config.recordAttempt (cache : Cache) (now : Duration) : Cache :=
  match config.schedule with
  | .ok (.interval _) => cache.recordAttempt now.asSecs
  | _ => cache

/-- The end of a round of the loop: the count is reached, or the next run is due. -/
def Config.endOfRun (counter : Nat) : Phase :=
  if config.count = some counter then .returned else .waiting counter

/-- A run that has failed; run-once hands it to the retry backoff. -/
def Config.unsuccessful (counter : Nat) : Phase :=
  if config.runsOnce then .backoff else config.endOfRun counter

def step (s : State) : Act → Option State
  | .start =>
      match s.phase with
      | .down => some { s with phase := .init, cancelled := false }
      | _ => none
  -- `init` parses the schedule and resets the counter when `allow_rerun` is set
  | .init =>
      match s.phase, config.schedule with
      | .init, .ok _ =>
          if config.allowRerun then
            some
              { s with
                cache := { s.cache with counter := some 0 }
                phase := .idle
                completed := 0 }
          else some { s with phase := .idle }
      | .init, .error _ => some { s with phase := .failed }
      | _, _ => none
  | .enter now =>
      match s.phase with
      | .idle =>
          if config.count.any (· ≤ s.counter) then some { s with phase := .returned }
          else
            match config.firstCache s.cache now with
            | .ok cache => some { s with cache := cache, phase := .waiting s.counter }
            | .error _ => some { s with phase := .backoff }
      | _ => none
  -- the clock or the cron expression fails before the next run
  | .fault =>
      match s.phase with
      | .waiting _ => some { s with phase := .backoff }
      | _ => none
  | .fire now =>
      match s.phase with
      | .waiting counter =>
          some
            { s with
              cache := config.recordAttempt s.cache now
              phase := .sending counter now.asSecs }
      | _ => none
  | .send ok =>
      match s.phase with
      | .sending counter secs =>
          some { s with phase := if ok then .awaiting counter secs else .backoff }
      | _ => none
  -- the completion succeeds, or it fails or times out
  | .resolve success =>
      match s.phase with
      | .awaiting counter secs =>
          if success then
            some { s with phase := .completed counter secs, completed := s.completed + 1 }
          else some { s with phase := config.unsuccessful counter }
      | _ => none
  | .check =>
      match s.phase with
      | .completed counter secs =>
          if s.cancelled then some { s with phase := config.unsuccessful counter }
          else
            some
              { s with
                cache := { s.cache with lastRun := some secs }
                phase := .counted (counter + 1) }
      | _ => none
  | .store =>
      match s.phase with
      | .counted counter =>
          some
            { s with
              cache := { s.cache with counter := some counter }
              phase := config.endOfRun counter }
      | _ => none
  | .retry =>
      match s.phase with
      | .backoff => some { s with phase := .idle }
      | _ => none
  | .giveUp =>
      match s.phase with
      | .backoff => if config.runsOnce then some { s with phase := .failed } else none
      | _ => none
  | .cancel => if s.phase = .down then none else some { s with cancelled := true }
  -- the loop wakes up cancelled, or `run` stops waiting for it
  | .drop => if s.cancelled then some { s with phase := .stopped } else none
  | .crash => some { s with phase := .down }

def generator : Machine State Act where
  init s := s = {}
  step := step config

end Step

/-- The counter of the loop, while it goes on. -/
def Phase.loopCounter : Phase → Option Nat
  | .waiting counter | .sending counter _ | .awaiting counter _ | .completed counter _ =>
      some counter
  | .counted counter => some (counter - 1)
  | _ => none

/-- What the count `c` is for. -/
structure Counts (c : Nat) (s : State) : Prop where
  /-- Every run that has completed is counted, or is about to be. -/
  counted : s.completed = s.counter + s.phase.uncounted
  bounded : s.counter ≤ c
  /-- The loop goes on below the count, and has returned only at it. -/
  below : s.phase.loopCounter.isSome = true → s.counter < c
  returned : s.phase = .returned → s.counter = c

/-- Nothing comes between a completed run and the write of its counter. -/
def Undisturbed (s : State) : Act → Prop
  | .crash | .drop => s.phase.uncounted = 0
  | .check => s.cancelled = false
  | _ => True

instance (s : State) : ∀ a, Decidable (Undisturbed s a)
  | .crash | .drop => inferInstanceAs (Decidable (s.phase.uncounted = 0))
  | .check => inferInstanceAs (Decidable (s.cancelled = false))
  | .start | .init | .enter _ | .fault | .fire _ | .send _ | .resolve _ | .store | .retry | .giveUp |
    .cancel => .isTrue trivial

variable {config : Config} {c : Nat} {s t : State} {a : Act} {cache : Cache} {phase : Phase}

/-- The loop goes by the counter that is in the cache. -/
structure Inv (c : Nat) (s : State) : Prop extends Counts c s where
  loop : ∀ k, s.phase.loopCounter = some k → k = s.counter
  next : ∀ k, s.phase = .counted k → k = s.counter + 1

/-! ## A step -/

theorem Counts.completed_eq (h : Counts c s) (hs : s.phase.uncounted = 0) :
    s.completed = s.counter := by
  have hcounted := h.counted
  rwa [hs] at hcounted

/-- The loop is not running, and every run is counted. -/
theorem Inv.of_outside (hcounted : s.completed = s.counter) (hbounded : s.counter ≤ c)
    (hzero : s.phase.uncounted = 0) (hloop : s.phase.loopCounter = none)
    (hret : s.phase = .returned → s.counter = c) : Inv c s where
  counted := by
    rw [hzero]
    exact hcounted
  bounded := hbounded
  below hsome := by
    rw [hloop] at hsome
    cases hsome
  returned := hret
  loop k hk := by
    rw [hloop] at hk
    cases hk
  next k hk := by
    rw [hk] at hloop
    cases hloop

/-- The loop is running, and every run is counted. -/
theorem Inv.of_inside (hcounted : s.completed = s.counter) (hlt : s.counter < c)
    (hzero : s.phase.uncounted = 0) (hloop : s.phase.loopCounter = some s.counter) : Inv c s where
  counted := by
    rw [hzero]
    exact hcounted
  bounded := hlt.le
  below _ := hlt
  returned hp := by
    rw [hp] at hloop
    cases hloop
  loop k hk := Option.some.inj (hk.symm.trans hloop)
  next k hk := by
    rw [hk] at hzero
    cases hzero

theorem inv_start : Inv c {} :=
  .of_outside rfl (Nat.zero_le _) rfl rfl fun h => by cases h

/-- The loop is left, with the counter that was there. -/
theorem Inv.outside (h : Inv c s) (hs : s.phase.uncounted = 0)
    (hcounter : cache.counter = s.cache.counter) (hphase : phase.uncounted = 0)
    (hloop : phase.loopCounter = none) (hret : phase ≠ .returned) {cancelled : Bool} :
    Inv c { s with cache := cache, phase := phase, cancelled := cancelled } := by
  have hsame : cache.counter.getD 0 = s.counter := congrArg (·.getD 0) hcounter
  exact
    .of_outside ((h.completed_eq hs).trans hsame.symm) (hsame.trans_le h.bounded) hphase hloop
      fun hp => absurd hp hret

/-- The loop goes on, or starts over, with the counter that was there. -/
theorem Inv.inside (h : Inv c s) (hs : s.phase.uncounted = 0) (hlt : s.counter < c)
    (hcounter : cache.counter = s.cache.counter) (hphase : phase.uncounted = 0)
    (hloop : phase.loopCounter = some s.counter) :
    Inv c { s with cache := cache, phase := phase } := by
  have hsame : cache.counter.getD 0 = s.counter := congrArg (·.getD 0) hcounter
  exact
    .of_inside ((h.completed_eq hs).trans hsame.symm) (hsame.trans_lt hlt) hphase
      (hloop.trans (congrArg some hsame.symm))

/-- A loop that goes on is below the count. -/
theorem Inv.running (h : Inv c s) {k : Nat} (hs : s.phase.loopCounter = some k) :
    k = s.counter ∧ s.counter < c :=
  ⟨h.loop k hs, h.below (by rw [hs]; rfl)⟩

/-- A run that has failed leaves the counter as it is. -/
theorem Inv.unsuccessful (h : Inv c s) (hc : config.count = some c) {k : Nat}
    (hs : s.phase.loopCounter = some k) (hzero : s.phase.uncounted = 0) :
    Inv c { s with phase := config.unsuccessful k } := by
  rw [Config.unsuccessful]
  split
  · exact h.outside hzero rfl rfl rfl (by simp)
  · obtain ⟨rfl, hlt⟩ := h.running hs
    have hne : some c ≠ some s.counter := fun he => hlt.ne (Option.some.inj he).symm
    rw [Config.endOfRun, hc, if_neg hne]
    exact h.inside hzero hlt rfl rfl rfl

theorem Config.counter_recordAttempt {now : Duration} :
    (config.recordAttempt cache now).counter = cache.counter := by
  rw [Config.recordAttempt]
  split <;> rfl

theorem Config.counter_firstCache {now : Duration} {cache' : Cache}
    (h : config.firstCache cache now = .ok cache') : cache'.counter = cache.counter := by
  rw [Config.firstCache] at h
  split at h
  · rename_i schedule _
    cases schedule with
    | interval d =>
        cases h
        split <;> rfl
    | cron next =>
        rw [firstDue] at h
        cases hnext : next now with
        | error e =>
            rw [hnext] at h
            cases h
        | ok secs =>
            rw [hnext] at h
            cases h
            rfl
    | once =>
        cases h
        rfl
  · cases h

/-- The counter of a run that has completed is written. -/
theorem Inv.store (h : Inv c s) (hc : config.count = some c) {k : Nat}
    (hs : s.phase = .counted k) :
    Inv c { s with
      cache := { s.cache with counter := some k }
      phase := config.endOfRun k } := by
  obtain rfl := h.next k hs
  have hcounted : s.completed = s.counter + 1 := by
    rw [h.counted, hs]
    rfl
  obtain ⟨-, hlt⟩ := h.running (by rw [hs]; rfl)
  rw [Config.endOfRun, hc]
  split
  · rename_i he
    have hend : s.counter + 1 = c := (Option.some.inj he).symm
    exact .of_outside hcounted hend.le rfl rfl fun _ => hend
  · rename_i he
    have hne : s.counter + 1 ≠ c := fun heq => he (congrArg some heq.symm)
    exact .of_inside hcounted (lt_of_le_of_ne hlt hne) rfl rfl

/-- A step that disturbs no completed run keeps the counter right. -/
theorem Inv.step (h : Inv c s) (hc : config.count = some c) (hok : Undisturbed s a)
    (hs : Generate.step config s a = some t) : Inv c t := by
  cases a with
  | start =>
      simp only [Generate.step] at hs
      split at hs <;> cases hs
      rename_i hp
      exact h.outside (by rw [hp]; rfl) rfl rfl rfl (by simp)
  | init =>
      simp only [Generate.step] at hs
      split at hs
      · rename_i hp hschedule
        split at hs <;> cases hs
        · exact .of_outside rfl (Nat.zero_le _) rfl rfl fun h => by cases h
        · exact h.outside (by rw [hp]; rfl) rfl rfl rfl (by simp)
      · rename_i hp hschedule
        cases hs
        exact h.outside (by rw [hp]; rfl) rfl rfl rfl (by simp)
      · cases hs
  | enter now =>
      simp only [Generate.step] at hs
      split at hs
      · rename_i hp
        have hzero : s.phase.uncounted = 0 := by rw [hp]; rfl
        rw [hc, Option.any_some] at hs
        split at hs
        · rename_i hle
          cases hs
          have hend : s.counter = c := le_antisymm h.bounded (of_decide_eq_true hle)
          exact .of_outside (h.completed_eq hzero) h.bounded rfl rfl fun _ => hend
        · rename_i hlt
          have hlt : s.counter < c := not_le.mp fun hle => hlt (decide_eq_true hle)
          split at hs <;> cases hs
          · rename_i cache hcache
            exact h.inside hzero hlt (Config.counter_firstCache hcache) rfl rfl
          · exact h.outside hzero rfl rfl rfl (by simp)
      · cases hs
  | fault =>
      simp only [Generate.step] at hs
      split at hs <;> cases hs
      rename_i k hp
      exact h.outside (by rw [hp]; rfl) rfl rfl rfl (by simp)
  | fire now =>
      simp only [Generate.step] at hs
      split at hs <;> cases hs
      rename_i k hp
      obtain ⟨rfl, hlt⟩ := h.running (by rw [hp]; rfl)
      exact h.inside (by rw [hp]; rfl) hlt Config.counter_recordAttempt rfl rfl
  | send ok =>
      simp only [Generate.step] at hs
      split at hs <;> cases hs
      rename_i k secs hp
      cases ok with
      | true =>
          obtain ⟨rfl, hlt⟩ := h.running (by rw [hp]; rfl)
          exact h.inside (by rw [hp]; rfl) hlt rfl rfl rfl
      | false => exact h.outside (by rw [hp]; rfl) rfl rfl rfl (by simp)
  | resolve success =>
      simp only [Generate.step] at hs
      split at hs
      · rename_i k secs hp
        split at hs <;> cases hs
        · have hcounted := h.completed_eq (by rw [hp]; rfl)
          exact
            { counted := congrArg (· + 1) hcounted
              bounded := h.bounded
              below := fun _ => h.below (by rw [hp]; rfl)
              returned := fun h => by cases h
              loop := fun k' hk' => by
                cases hk'
                exact h.loop k (by rw [hp]; rfl)
              next := fun _ h => by cases h }
        · exact h.unsuccessful hc (by rw [hp]; rfl) (by rw [hp]; rfl)
      · cases hs
  | check =>
      simp only [Generate.step] at hs
      split at hs
      · rename_i k secs hp
        rw [if_neg (by rw [hok]; exact Bool.false_ne_true)] at hs
        cases hs
        have hcounted : s.completed = s.counter + 1 := by
          rw [h.counted, hp]
          rfl
        have hk := h.loop k (by rw [hp]; rfl)
        exact
          { counted := hcounted
            bounded := h.bounded
            below := fun _ => h.below (by rw [hp]; rfl)
            returned := fun h => by cases h
            loop := fun k' hk' => by
              cases hk'
              exact hk
            next := fun k' hk' => by
              cases hk'
              exact congrArg (· + 1) hk }
      · cases hs
  | store =>
      simp only [Generate.step] at hs
      split at hs <;> cases hs
      rename_i k hp
      exact h.store hc hp
  | retry =>
      simp only [Generate.step] at hs
      split at hs <;> cases hs
      rename_i hp
      exact h.outside (by rw [hp]; rfl) rfl rfl rfl (by simp)
  | giveUp =>
      simp only [Generate.step] at hs
      split at hs
      · rename_i hp
        split at hs <;> cases hs
        exact h.outside (by rw [hp]; rfl) rfl rfl rfl (by simp)
      · cases hs
  | cancel =>
      simp only [Generate.step] at hs
      split at hs <;> cases hs
      exact ⟨⟨h.counted, h.bounded, h.below, h.returned⟩, h.loop, h.next⟩
  | drop =>
      obtain ⟨-, ht⟩ := Option.ite_none_right_eq_some.mp hs
      cases ht
      exact h.outside hok rfl rfl rfl (by simp)
  | crash =>
      cases hs
      exact h.outside hok rfl rfl rfl (by simp)

/-- A step that disturbs a completed run loses its count. -/
theorem Inv.undisturbed (h : Inv c s) (hs : Generate.step config s a = some t) (ht : Counts c t) :
    Undisturbed s a := by
  have hcounted := h.counted
  cases a with
  | crash =>
      cases hs
      have htc : s.completed = s.counter := ht.counted
      rw [Undisturbed]
      omega
  | drop =>
      obtain ⟨-, he⟩ := Option.ite_none_right_eq_some.mp hs
      cases he
      have htc : s.completed = s.counter := ht.counted
      rw [Undisturbed]
      omega
  | check =>
      simp only [Generate.step] at hs
      split at hs
      · rename_i k secs hp
        have hcounted : s.completed = s.counter + 1 := by
          rw [hcounted, hp]
          rfl
        split at hs <;> cases hs
        · -- a cancelled task gives the run up
          have hzero : (config.unsuccessful k).uncounted = 0 := by
            simp only [Config.unsuccessful, Config.endOfRun]
            split
            · rfl
            · split <;> rfl
          have htc := ht.counted
          rw [hzero] at htc
          have htc : s.completed = s.counter := htc
          omega
        · rename_i hcancelled
          exact Bool.eq_false_of_not_eq_true hcancelled
      · cases hs
  | _ => trivial

/-! ## Restarts -/

/-- Through every run with a count `c`, retries and restarts included, the counter in
the cache is the number of completed runs and the loop ends exactly at the count,
if and only if nothing ever comes between a completed run and the write of its
counter. -/
theorem counts_iff_undisturbed (config : Config) (c : Nat) (hc : config.count = some c)
    (as : List Act) (s : State) :
    (generator config).RunThrough (Counts c) {} as s ↔
      (generator config).RunOf Undisturbed {} as s :=
  Machine.runThrough_iff (I := Inv c) inv_start
    (fun _ _ _ hi hok hs => ⟨hi.step hc hok hs, (hi.step hc hok hs).toCounts⟩)
    fun _ _ _ hi hs ht => hi.undisturbed hs ht

/-- Every second, twice. -/
def everySecondTwice : Config := { interval := some ⟨1000000000, by decide⟩, count := some 2 }

/-- A send that fails and is retried, a run that fails, and a restart after the first
completed run do not change that two runs complete. -/
theorem two_of_two_counted :
    ∃ as s, (generator everySecondTwice).RunThrough (Counts 2) {} as s ∧
      s.phase = .returned ∧ s.completed = 2 := by
  have hrun :
      ((generator everySecondTwice).exec Undisturbed {}
          [.start, .init, .enter maxInterval, .fire maxInterval, .send false, .retry,
            .enter maxInterval, .fire maxInterval, .send true, .resolve false, .fire maxInterval,
            .send true, .resolve true, .check, .store, .crash, .start, .init, .enter maxInterval,
            .fire maxInterval, .send true, .resolve true, .check, .store]).any
        (fun s => decide (s.phase = .returned ∧ s.completed = 2)) = true := by
    rfl
  obtain ⟨s, hr, hs⟩ := Machine.exists_of_exec hrun
  obtain ⟨hret, htwo⟩ := of_decide_eq_true hs
  exact ⟨_, s, (counts_iff_undisturbed _ 2 rfl _ s).mpr hr, hret, htwo⟩

/-- The process stops when the first run has completed but has not been counted, and
completes a run three times. -/
theorem run_repeated_after_restart :
    ∃ as s, (generator everySecondTwice).Run {} as s ∧ s.phase = .returned ∧
      s.counter = 2 ∧ s.completed = 3 := by
  have hrun :
      ((generator everySecondTwice).exec (fun _ _ => True) {}
          [.start, .init, .enter maxInterval, .fire maxInterval, .send true, .resolve true, .crash,
            .start, .init, .enter maxInterval, .fire maxInterval, .send true, .resolve true, .check,
            .store, .fire maxInterval, .send true, .resolve true, .check, .store]).any
        (fun s => decide (s.phase = .returned ∧ s.counter = 2 ∧ s.completed = 3)) = true := by
    rfl
  obtain ⟨s, hr, hs⟩ := Machine.exists_of_exec hrun
  exact ⟨_, s, hr.run, of_decide_eq_true hs⟩

end Flowgen.Task.Generate
