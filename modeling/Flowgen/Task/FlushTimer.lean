/-
# `Flowgen.Task.FlushTimer` — how long the keyed loop sleeps (`core/src/task/buffer.rs`)

At its head `process_events_keyed` computes how long it may sleep before a batch
is due.  `Soonest` is what the sleep is for: the time left to the earliest
deadline of the active batches, nothing once one of them has passed.

`process_events_single` subtracts and clamps at zero (`timeUntilFlush_eq`).  The
keyed loop takes the minimum of the subtractions that do not fail, and clamps
only that: a batch past its deadline has no part in the minimum, and as long as
another one is short of its own the sleep is the other one's
(`minTimeUntilFlush_iff`).  Batches pass their deadlines while the loop waits
for the next task to take a flushed one.
-/
import Flowgen.Task.Batching

namespace Flowgen.Task.FlushTimer

open Flowgen.Lib Flowgen.Task.Batching

variable {V : Type}

/-- `Duration::checked_sub`. -/
def checkedSub (a b : Nat) : Option Nat := if b ≤ a then some (a - b) else none

/-- `time_until_flush` of `process_events_single`. -/
def timeUntilFlush (config : Config V) (s : Single V) (now : Nat) : Nat :=
  (checkedSub config.timeoutDuration (now - s.batchStarted)).getD 0

/-- How long the batches have been open, `elapsed` of each start. -/
def elapsed (s : Keyed V) (now : Nat) : List Nat :=
  s.startedTimes.entries.map fun batch => now - batch.2

/-- `min_time_until_flush` of `process_events_keyed`. -/
def minTimeUntilFlush (config : Config V) (s : Keyed V) (now : Nat) : Nat :=
  if s.buffers.keys.isEmpty then config.timeoutDuration
  else ((elapsed s now).filterMap (checkedSub config.timeoutDuration)).min?.getD 0

/-- The start of a batch is kept only while its key has a buffer. -/
def Active (s : Keyed V) : Prop :=
  ∀ key, (s.startedTimes.lookup key).isSome = (s.buffers.lookup key).isSome

/-- The time to the earliest deadline of the active batches, and nothing once a
batch has been open for the timeout. -/
structure Soonest (config : Config V) (s : Keyed V) (now sleep : Nat) : Prop where
  least : IsLeast
    {t | ∃ key started, s.startedTimes.lookup key = some started ∧
      t = config.timeoutDuration - (now - started)} sleep
  due : ∀ key started, s.startedTimes.lookup key = some started →
    config.timeoutDuration ≤ now - started → sleep = 0

/-- No batch is past its deadline, or none is short of it, or one is just at it. -/
def Level (config : Config V) (s : Keyed V) (now : Nat) : Prop :=
  (∀ t ∈ elapsed s now, t ≤ config.timeoutDuration) ∨
    (∀ t ∈ elapsed s now, config.timeoutDuration ≤ t) ∨
    config.timeoutDuration ∈ elapsed s now

variable {config : Config V} {s : Keyed V} {now a b timeout : Nat} {ts : List Nat}

theorem getD_checkedSub : (checkedSub a b).getD 0 = a - b := by
  rw [checkedSub]
  split
  · rfl
  · rw [Option.getD_none]
    omega

/-- The single loop sleeps to the deadline of its batch. -/
theorem timeUntilFlush_eq (s : Single V) :
    timeUntilFlush config s now = config.timeoutDuration - (now - s.batchStarted) :=
  getD_checkedSub

/-! ## The least of the subtractions that do not fail -/

theorem mem_filterMap_checkedSub :
    a ∈ ts.filterMap (checkedSub timeout) ↔ ∃ t ∈ ts, t ≤ timeout ∧ timeout - t = a := by
  simp only [List.mem_filterMap, checkedSub, Option.ite_none_right_eq_some, Option.some.injEq]

/-- Without a batch past its deadline nothing is left out. -/
theorem isLeast_of_le (hne : ts ≠ []) (h : ∀ t ∈ ts, t ≤ timeout) :
    IsLeast {a | ∃ t ∈ ts, a = timeout - t} ((ts.filterMap (checkedSub timeout)).min?.getD 0) := by
  obtain ⟨t, ht⟩ := List.exists_mem_of_ne_nil ts hne
  have hmem : timeout - t ∈ ts.filterMap (checkedSub timeout) :=
    mem_filterMap_checkedSub.mpr ⟨t, ht, h t ht, rfl⟩
  obtain ⟨m, hm⟩ := Option.isSome_iff_exists.mp (List.isSome_min?_of_mem hmem)
  obtain ⟨hmin, hle⟩ := List.min?_eq_some_iff.mp hm
  rw [hm, Option.getD_some]
  constructor
  · obtain ⟨t', ht', -, he⟩ := mem_filterMap_checkedSub.mp hmin
    exact ⟨t', ht', he.symm⟩
  · rintro a ⟨t', ht', rfl⟩
    exact hle _ (mem_filterMap_checkedSub.mpr ⟨t', ht', h t' ht', rfl⟩)

/-- With a batch past its deadline the least is zero, and it is found only where
no batch is short of its own, or one is just at it. -/
theorem getD_min?_eq_zero_iff :
    (ts.filterMap (checkedSub timeout)).min?.getD 0 = 0 ↔
      (∀ t ∈ ts, timeout ≤ t) ∨ timeout ∈ ts := by
  cases hm : (ts.filterMap (checkedSub timeout)).min? with
  | none =>
      have hnil := List.min?_eq_none_iff.mp hm
      have hlt : ∀ t ∈ ts, timeout ≤ t := by
        intro t ht
        by_contra hlt
        have hmem := mem_filterMap_checkedSub.mpr ⟨t, ht, Nat.le_of_not_le hlt, rfl⟩
        rw [hnil] at hmem
        cases hmem
      exact iff_of_true rfl (.inl hlt)
  | some m =>
      obtain ⟨hmin, hle⟩ := List.min?_eq_some_iff.mp hm
      obtain ⟨t, ht, hlet, hsub⟩ := mem_filterMap_checkedSub.mp hmin
      rw [Option.getD_some]
      constructor
      · intro h0
        have heq : t = timeout := by omega
        exact .inr (heq ▸ ht)
      · rintro (hall | hat)
        · have hge := hall t ht
          omega
        · have h0 := hle _ (mem_filterMap_checkedSub.mpr ⟨timeout, hat, le_rfl, rfl⟩)
          omega

theorem isLeast_checkedSub_iff (hne : ts ≠ []) :
    IsLeast {a | ∃ t ∈ ts, a = timeout - t} ((ts.filterMap (checkedSub timeout)).min?.getD 0) ↔
      (∀ t ∈ ts, t ≤ timeout) ∨ (∀ t ∈ ts, timeout ≤ t) ∨ timeout ∈ ts := by
  constructor
  · intro hleast
    by_cases hover : ∀ t ∈ ts, t ≤ timeout
    · exact .inl hover
    · push Not at hover
      obtain ⟨t, ht, hlt⟩ := hover
      have h0 := hleast.2 ⟨t, ht, rfl⟩
      exact .inr (getD_min?_eq_zero_iff.mp (by omega))
  · rintro (hle | hzero)
    · exact isLeast_of_le hne hle
    · rw [getD_min?_eq_zero_iff.mpr hzero]
      obtain ⟨t, ht, hge⟩ : ∃ t ∈ ts, timeout ≤ t := by
        rcases hzero with hall | hat
        · obtain ⟨t, ht⟩ := List.exists_mem_of_ne_nil ts hne
          exact ⟨t, ht, hall t ht⟩
        · exact ⟨timeout, hat, le_rfl⟩
      exact ⟨⟨t, ht, by omega⟩, fun _ _ => Nat.zero_le _⟩

/-! ## The sleep -/

theorem mem_elapsed :
    a ∈ elapsed s now ↔ ∃ key started, s.startedTimes.lookup key = some started ∧
      a = now - started := by
  simp only [elapsed, List.mem_map]
  constructor
  · rintro ⟨⟨key, started⟩, hmem, rfl⟩
    exact ⟨key, started, AList.mem_lookup_iff.mpr hmem, rfl⟩
  · rintro ⟨key, started, hl, rfl⟩
    exact ⟨⟨key, started⟩, AList.mem_lookup_iff.mp hl, rfl⟩

theorem Active.elapsed_ne_nil (h : Active s) (hne : s.buffers.keys ≠ []) :
    elapsed s now ≠ [] := by
  obtain ⟨key, hkey⟩ := List.exists_mem_of_ne_nil _ hne
  have hb := AList.lookup_isSome.mpr (AList.mem_keys.mpr hkey)
  rw [← h key] at hb
  obtain ⟨started, hs⟩ := Option.isSome_iff_exists.mp hb
  exact List.ne_nil_of_mem (mem_elapsed.mpr ⟨key, started, hs, rfl⟩)

/-- What is due is found by the least already. -/
theorem soonest_iff {sleep : Nat} :
    Soonest config s now sleep ↔
      IsLeast {a | ∃ t ∈ elapsed s now, a = config.timeoutDuration - t} sleep := by
  have hset : {t | ∃ key started, s.startedTimes.lookup key = some started ∧
      t = config.timeoutDuration - (now - started)} =
      {a | ∃ t ∈ elapsed s now, a = config.timeoutDuration - t} := by
    ext a
    constructor
    · rintro ⟨key, started, hl, rfl⟩
      exact ⟨_, mem_elapsed.mpr ⟨key, started, hl, rfl⟩, rfl⟩
    · rintro ⟨t, ht, rfl⟩
      obtain ⟨key, started, hl, rfl⟩ := mem_elapsed.mp ht
      exact ⟨key, started, hl, rfl⟩
  constructor
  · intro h
    exact hset ▸ h.least
  · intro h
    rw [← hset] at h
    refine ⟨h, fun key started hl hdue => ?_⟩
    have hle := h.2 ⟨key, started, hl, rfl⟩
    omega

/-- A run keeps the starts of the active batches and no others. -/
theorem active_of_run {render : Batching.Event V → Except String (Option String)}
    {inputs : List (Input V)}
    (hrun : inputs.foldlM (Keyed.step config render) {} = .ok s) : Active s := by
  obtain ⟨b, hholds, -⟩ := Keyed.held hrun
  intro k
  have hk := hholds k
  rw [hk.started]
  cases hb : s.buffers.lookup k with
  | none => simp [hk.lookup_eq_none.mp hb]
  | some buffer => simpa using (hk.of_lookup hb).1

/-- While there are batches, the keyed loop sleeps to the earliest of their
deadlines if and only if no batch past its deadline stands beside one that is
short of it, or one is just at it. -/
theorem minTimeUntilFlush_iff (config : Config V) (s : Keyed V) (now : Nat) (h : Active s)
    (hne : s.buffers.keys ≠ []) :
    Soonest config s now (minTimeUntilFlush config s now) ↔ Level config s now := by
  rw [soonest_iff, minTimeUntilFlush, if_neg (mt List.isEmpty_iff.mp hne)]
  exact isLeast_checkedSub_iff (h.elapsed_ne_nil hne)

/-- A batch that is just due beside one that has 20 s left. -/
theorem minTimeUntilFlush_just_due :
    let key : Batching.Event Nat → String := fun e => if e.metaMap = some 1 then "a" else "b"
    let render : Batching.Event Nat → Except String (Option String) := fun e => .ok (some (key e))
    let config : Config Nat := { size := 10, partitionKey := some render }
    let inputs : List (Input Nat) :=
      [.recv 0 { data := .json 10, metaMap := some 1 }, .recv 20000 { data := .json 20 }]
    ∃ s : Keyed Nat, inputs.foldlM (Keyed.step config render) {} = .ok s ∧
      Soonest config s 30000 (minTimeUntilFlush config s 30000) := by
  intro key render config inputs
  have hrun : ∃ s : Keyed Nat, inputs.foldlM (Keyed.step config render) {} = .ok s ∧
      s.buffers.keys ≠ [] ∧ config.timeoutDuration ∈ elapsed s 30000 :=
    ⟨_, rfl, by decide, by decide⟩
  obtain ⟨s, hs, hne, hdue⟩ := hrun
  exact ⟨s, hs, (minTimeUntilFlush_iff config s 30000 (active_of_run hs) hne).mpr (.inr (.inr hdue))⟩

/-- The batch of "a" is a second past its deadline when one for "b" begins: the
loop, which was busy, sleeps for the 30 s that "b" has. -/
theorem overdue_batch_waits :
    let key : Batching.Event Nat → String := fun e => if e.metaMap = some 1 then "a" else "b"
    let render : Batching.Event Nat → Except String (Option String) := fun e => .ok (some (key e))
    let config : Config Nat := { size := 10, partitionKey := some render }
    let inputs : List (Input Nat) :=
      [.recv 0 { data := .json 10, metaMap := some 1 }, .recv 31000 { data := .json 20 }]
    ∃ s : Keyed Nat, inputs.foldlM (Keyed.step config render) {} = .ok s ∧
      s.startedTimes.lookup "a" = some 0 ∧ minTimeUntilFlush config s 31000 = 30000 ∧
      ¬ Soonest config s 31000 (minTimeUntilFlush config s 31000) := by
  intro key render config inputs
  have hsleep : ∀ s : Keyed Nat, s.startedTimes.lookup "a" = some 0 →
      minTimeUntilFlush config s 31000 = 30000 →
      ¬ Soonest config s 31000 (minTimeUntilFlush config s 31000) := by
    intro s hl hs hsoon
    rw [hs] at hsoon
    exact absurd (hsoon.due "a" 0 hl (by decide)) (by decide)
  exact ⟨_, rfl, rfl, by decide, hsleep _ rfl (by decide)⟩

end Flowgen.Task.FlushTimer
