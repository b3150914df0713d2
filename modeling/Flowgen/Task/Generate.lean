/-
# `Flowgen.Task.Generate` — when a generate task fires (`core/src/task/generate.rs`)

A generate task fires on an interval, by a cron expression, or back to back
until its count is reached.  What must outlive the process is in the cache: the
last completed run, the last attempt and the counter.

After a restart the first run of an interval is due one interval after the last
attempt, and at most one interval from now.  The attempt is written down in
whole seconds, so what the interval is counted from lies up to a second before
the attempt was made, and the run comes as much too early
(`firstRun_spaced_iff`).
-/
import Mathlib

namespace Flowgen.Task.Generate

/-- One more than the nanoseconds of the longest `Duration`. -/
def durationEnd : Nat := 2 ^ 64 * 1000000000

/-- A `Duration`, in nanoseconds: less than `2 ^ 64` seconds. -/
structure Duration where
  nanos : Nat
  lt : nanos < durationEnd
deriving DecidableEq

namespace Duration

def asSecs (d : Duration) : UInt64 := .ofNat (d.nanos / 1000000000)

def fromSecs (secs : UInt64) : Duration :=
  ⟨secs.toNat * 1000000000, by
    have hlt := secs.toNat_lt
    rw [durationEnd]
    omega⟩

def saturatingAdd (a b : Duration) : Duration :=
  ⟨min (a.nanos + b.nanos) (durationEnd - 1), by
    rw [durationEnd]
    omega⟩

def saturatingSub (a b : Duration) : Duration := ⟨a.nanos - b.nanos, by
  have hlt := a.lt
  omega⟩

/-- `min`. -/
def atMost (a b : Duration) : Duration := if a.nanos ≤ b.nanos then a else b

end Duration

/-- `MAX_INTERVAL`, 100 years. -/
def maxInterval : Duration := ⟨3155760000 * 1000000000, by decide⟩

inductive ConfigError
  | missingSchedule
  | bothSchedulesSpecified
  | invalidCron (expression : String)
  | invalidTimezone (name : String)
  | intervalTooLong
deriving DecidableEq

inductive Error
  | sendMessage
  | eventBuilder
  | invalidTimestamp (seconds : Int)
  | cronNextOccurrence
  | runOnceNotCompleted
  | configValidation (source : ConfigError)

/-- A cron expression and the timezone it is evaluated in, as the first second it
matches after a point in time. -/
abbrev Cron := Duration → Except Error UInt64

/-- What a task does and when.  The cron expression has been parsed, or not. -/
structure Config where
  interval : Option Duration := none
  cron : Option (Except ConfigError Cron) := none
  count : Option Nat := none
  allowRerun : Bool := false

/-- Parsed scheduling mode of a generate task. -/
inductive Schedule
  | interval (d : Duration)
  | cron (next : Cron)
  | once

def Config.schedule (config : Config) : Except ConfigError Schedule :=
  match config.interval, config.cron, config.count with
  | some _, some _, _ => .error .bothSchedulesSpecified
  | some interval, none, _ =>
      if maxInterval.nanos < interval.nanos then .error .intervalTooLong
      else .ok (.interval interval)
  | none, some cron, _ => cron.map .cron
  | none, none, some _ => .ok .once
  | none, none, none => .error .missingSchedule

/-- What is kept in the cache for a task.  The counter stays at or below the count,
which is a `u64`. -/
structure Cache where
  lastRun : Option UInt64 := none
  lastAttempt : Option UInt64 := none
  counter : Option Nat := none

/-- When the next run is due: so long from now, or at a second of the wall clock. -/
inductive Due
  | after (wait : Duration)
  | wallClock (secs : UInt64)

/-- Records `at` as the last attempt. -/
def Cache.recordAttempt (cache : Cache) (secs : UInt64) : Cache :=
  { cache with lastAttempt := some secs }

/-- What an interval counts from; `none` on the first start, which is recorded. -/
def Cache.intervalAnchor (cache : Cache) (now : Duration) : Option UInt64 × Cache :=
  match cache.lastAttempt.or cache.lastRun with
  | some anchor => (some anchor, cache)
  | none => (none, cache.recordAttempt now.asSecs)

/-- How long the first run of an interval waits. -/
def firstWait (interval now : Duration) : Option UInt64 → Duration
  | some anchor =>
      (((Duration.fromSecs anchor).saturatingAdd interval).saturatingSub now).atMost interval
  | none => interval

/-- When the first run after startup is due. -/
def firstDue (schedule : Schedule) (cache : Cache) (now : Duration) : Except Error (Due × Cache) :=
  match schedule with
  | .interval interval =>
      let (anchor, cache) := cache.intervalAnchor now
      .ok (.after (firstWait interval now anchor), cache)
  | .cron next => (next now).map fun secs => (.wallClock secs, cache)
  | .once => .ok (.after ⟨0, by decide⟩, cache)

/-- When a run fires that is due so long from `now`. -/
def Due.firesAt (now : Duration) : Due → Nat
  | .after wait => now.nanos + wait.nanos
  | .wallClock secs => max now.nanos (Duration.fromSecs secs).nanos

/-- The first run after a restart keeps its distance: one interval from the last
attempt, and not more than one interval from the restart. -/
def Spaced (interval attempt restart : Duration) (cache : Cache) : Prop :=
  ∃ due cache', firstDue (.interval interval) (cache.recordAttempt attempt.asSecs) restart =
      .ok (due, cache') ∧
    attempt.nanos + interval.nanos ≤ due.firesAt restart ∧
    due.firesAt restart ≤ restart.nanos + interval.nanos

variable {a b interval attempt restart : Duration} {cache : Cache}

theorem Duration.nanos_saturatingAdd :
    (a.saturatingAdd b).nanos = min (a.nanos + b.nanos) (durationEnd - 1) := rfl

theorem Duration.nanos_saturatingSub : (a.saturatingSub b).nanos = a.nanos - b.nanos := rfl

theorem Duration.nanos_atMost : (a.atMost b).nanos = min a.nanos b.nanos := by
  rw [Duration.atMost]
  split
  · rename_i h
    exact (Nat.min_eq_left h).symm
  · rename_i h
    exact (Nat.min_eq_right (Nat.le_of_not_le h)).symm

/-- Whole seconds are what is left of an attempt that has been recorded. -/
theorem Duration.nanos_fromSecs_asSecs :
    (Duration.fromSecs a.asSecs).nanos = a.nanos / 1000000000 * 1000000000 := by
  have hlt := a.lt
  rw [durationEnd] at hlt
  have hsecs : a.nanos / 1000000000 < 2 ^ 64 := by omega
  simp only [Duration.fromSecs, Duration.asSecs, UInt64.toNat_ofNat', Nat.mod_eq_of_lt hsecs]

theorem firstDue_recorded :
    firstDue (.interval interval) (cache.recordAttempt attempt.asSecs) restart =
      .ok (.after (firstWait interval restart (some attempt.asSecs)),
        cache.recordAttempt attempt.asSecs) := rfl

theorem nanos_firstWait :
    (firstWait interval restart (some attempt.asSecs)).nanos =
      min
        (min (attempt.nanos / 1000000000 * 1000000000 + interval.nanos) (durationEnd - 1) -
          restart.nanos)
        interval.nanos := by
  rw [firstWait, Duration.nanos_atMost, Duration.nanos_saturatingSub, Duration.nanos_saturatingAdd,
    Duration.nanos_fromSecs_asSecs]

/-- A restart keeps the distance if and only if it comes an interval after the
attempt itself, or after an attempt that was made on a whole second (and whose
interval does not end beyond the longest `Duration`). -/
theorem firstRun_spaced_iff (interval attempt restart : Duration) (cache : Cache) :
    Spaced interval attempt restart cache ↔
      attempt.nanos + interval.nanos ≤ restart.nanos ∨
        1000000000 ∣ attempt.nanos ∧ attempt.nanos ≤ restart.nanos ∧
          attempt.nanos + interval.nanos < durationEnd := by
  have hwait : (firstWait interval restart (some attempt.asSecs)).nanos =
      min
        (min (attempt.nanos / 1000000000 * 1000000000 + interval.nanos) (durationEnd - 1) -
          restart.nanos)
        interval.nanos :=
    nanos_firstWait
  have hend : restart.nanos < durationEnd := restart.lt
  rw [Spaced]
  constructor
  · rintro ⟨due, cache', hdue, hearly, -⟩
    rw [firstDue_recorded] at hdue
    obtain ⟨rfl, -⟩ := Prod.mk.inj (Except.ok.inj hdue)
    rw [Due.firesAt, hwait] at hearly
    omega
  · intro h
    refine ⟨_, _, firstDue_recorded, ?_⟩
    rw [Due.firesAt, hwait]
    omega

/-- A tenth of a second as the interval, an attempt at 1.9 s, and a restart 50 ms
later: the run fires at once. -/
theorem restart_fires_early :
    ∃ interval attempt restart : Duration, attempt.nanos ≤ restart.nanos ∧
      ¬ Spaced interval attempt restart {} := by
  refine ⟨⟨100000000, by decide⟩, ⟨1900000000, by decide⟩, ⟨1950000000, by decide⟩, by decide, ?_⟩
  rintro ⟨due, cache, hdue, hearly, -⟩
  rw [firstDue_recorded] at hdue
  obtain ⟨rfl, -⟩ := Prod.mk.inj (Except.ok.inj hdue)
  exact absurd hearly (by decide)

end Flowgen.Task.Generate
