/-
# `Flowgen.Telemetry.Activity` — the counters of the flows (`core/src/flow/activity.rs`)

A pod counts the events of its flows in atomics.  `record` counts one event, then reads all
atomics of the flow into a snapshot and broadcasts it.  Nothing holds the calls apart, so the
steps of two calls may come in any order; a call is a `Writing` until it starts to read, and a
`Reading` until it has sent its snapshot.

The status of a snapshot is always the one derived from its timestamps, which is a field of
`FlowMetricsSnapshot`.  Therefore snapshots of one flow may be merged in any order
(`mergeAll_perm`).
-/
import Flowgen.Lib.Latest

namespace Flowgen.Telemetry

open Flowgen.Lib

inductive ActivityLevel
  | info
  | warning
  | error
deriving DecidableEq

inductive FlowStatus
  | idle
  | ok
  | warn
  | error
deriving DecidableEq

/-- One round of the loop in `derive_status`. -/
def laterStatus (winner : Option (UInt64 × FlowStatus)) (latest : Option UInt64 × FlowStatus) :
    Option (UInt64 × FlowStatus) :=
  match latest.1, winner with
  | some t, some (best, prev) =>
      if t > best then some (t, latest.2)
      else if t = best then
        some (t, if latest.2 = .error ∨ prev = .error then .error
          else if latest.2 = .warn ∨ prev = .warn then .warn
          else latest.2)
      else winner
  | some t, none => some (t, latest.2)
  | none, _ => winner

/-- The level with the highest timestamp wins, the worse one of two that tie. -/
def deriveStatus (info warn err : Option UInt64) : FlowStatus :=
  match [(info, FlowStatus.ok), (warn, .warn), (err, .error)].foldl laterStatus none with
  | some (_, s) => s
  | none => .idle

@[ext]
structure FlowMetricsSnapshot where
  flow : String
  eventsTotal : UInt64
  warningsTotal : UInt64
  errorsTotal : UInt64
  lastEventAtMs : Option UInt64
  lastWarningAtMs : Option UInt64
  lastErrorAtMs : Option UInt64
  status : FlowStatus
  derived : status = deriveStatus lastEventAtMs lastWarningAtMs lastErrorAtMs
deriving DecidableEq

/-- `Option::max`. -/
def later : Option UInt64 → Option UInt64 → Option UInt64
  | some s, some t => some (if s ≤ t then t else s)
  | some s, none => some s
  | none, t => t

namespace FlowMetricsSnapshot

def empty (flow : String) : FlowMetricsSnapshot where
  flow := flow
  eventsTotal := 0
  warningsTotal := 0
  errorsTotal := 0
  lastEventAtMs := none
  lastWarningAtMs := none
  lastErrorAtMs := none
  status := .idle
  derived := rfl

def merge (self other : FlowMetricsSnapshot) : FlowMetricsSnapshot where
  flow := self.flow
  eventsTotal := self.eventsTotal + other.eventsTotal
  warningsTotal := self.warningsTotal + other.warningsTotal
  errorsTotal := self.errorsTotal + other.errorsTotal
  lastEventAtMs := later self.lastEventAtMs other.lastEventAtMs
  lastWarningAtMs := later self.lastWarningAtMs other.lastWarningAtMs
  lastErrorAtMs := later self.lastErrorAtMs other.lastErrorAtMs
  status := deriveStatus (later self.lastEventAtMs other.lastEventAtMs)
    (later self.lastWarningAtMs other.lastWarningAtMs)
    (later self.lastErrorAtMs other.lastErrorAtMs)
  derived := rfl

end FlowMetricsSnapshot

/-- A map from flows to their snapshots, each under the flow it names. -/
abbrev Flows := List FlowMetricsSnapshot

/-- The snapshot of a flow in a map. -/
abbrev Flows.get (flows : Flows) (flow : String) : Option FlowMetricsSnapshot :=
  latest FlowMetricsSnapshot.flow flow flows

abbrev Flows.insert (flows : Flows) (snapshot : FlowMetricsSnapshot) : Flows :=
  put FlowMetricsSnapshot.flow flows snapshot

def mergeEntry (merged : Flows) (snapshot : FlowMetricsSnapshot) : Flows :=
  match merged.get snapshot.flow with
  | some existing => merged.insert (existing.merge snapshot)
  | none => merged.insert snapshot

def mergeByFlow (snapshots : List FlowMetricsSnapshot) : Flows := snapshots.foldl mergeEntry []

/-! ## The order of merging -/

/-- All snapshots merged into the first. -/
def mergeAll (snapshots : List FlowMetricsSnapshot) : Option FlowMetricsSnapshot :=
  snapshots.foldl (fun merged snapshot => some ((merged.map (·.merge snapshot)).getD snapshot)) none

section Merge

variable {s t : Option UInt64} {x y z : FlowMetricsSnapshot} {xs ys : List FlowMetricsSnapshot}
  {flow : String}

theorem toNat_ite_le (a b : UInt64) : (if a ≤ b then b else a).toNat = max a.toNat b.toNat := by
  split
  · rename_i h
    exact (max_eq_right (UInt64.le_iff_toNat_le.mp h)).symm
  · rename_i h
    exact (max_eq_left (UInt64.le_iff_toNat_le.mp (UInt64.le_of_lt (UInt64.not_le.mp h)))).symm

theorem later_comm (s t : Option UInt64) : later s t = later t s := by
  cases s with
  | none =>
      cases t with
      | none => rfl
      | some t => rfl
  | some s =>
      cases t with
      | none => rfl
      | some t =>
          refine congrArg some (UInt64.toNat_inj.mp ?_)
          rw [toNat_ite_le, toNat_ite_le]
          exact max_comm _ _

theorem later_right_comm (r s t : Option UInt64) :
    later (later r s) t = later (later r t) s := by
  cases s with
  | none =>
      cases r with
      | none => exact later_comm none t ▸ rfl
      | some r =>
          cases t with
          | none => rfl
          | some t => rfl
  | some s =>
      cases t with
      | none =>
          cases r with
          | none => rfl
          | some r => rfl
      | some t =>
          cases r with
          | none => exact later_comm (some s) (some t)
          | some r =>
              refine congrArg some (UInt64.toNat_inj.mp ?_)
              simp only [toNat_ite_le]
              exact max_right_comm _ _ _

theorem merge_comm (h : x.flow = y.flow) : x.merge y = y.merge x := by
  ext1
  · exact h
  · exact UInt64.add_comm _ _
  · exact UInt64.add_comm _ _
  · exact UInt64.add_comm _ _
  · exact later_comm _ _
  · exact later_comm _ _
  · exact later_comm _ _
  · simp only [FlowMetricsSnapshot.merge, later_comm y.lastEventAtMs,
      later_comm y.lastWarningAtMs, later_comm y.lastErrorAtMs]

theorem merge_right_comm : (x.merge y).merge z = (x.merge z).merge y := by
  ext1
  · rfl
  · exact add_right_comm _ _ _
  · exact add_right_comm _ _ _
  · exact add_right_comm _ _ _
  · exact later_right_comm _ _ _
  · exact later_right_comm _ _ _
  · exact later_right_comm _ _ _
  · simp only [FlowMetricsSnapshot.merge, later_right_comm _ y.lastEventAtMs,
      later_right_comm _ y.lastWarningAtMs, later_right_comm _ y.lastErrorAtMs]

/-- Snapshots of one flow are merged in any order. -/
theorem mergeAll_perm (hperm : xs.Perm ys) (h : ∀ x ∈ xs, x.flow = flow) :
    mergeAll xs = mergeAll ys := by
  refine hperm.foldl_eq' ?_ none
  intro x hx y hy merged
  cases merged with
  | none => exact congrArg some (merge_comm ((h x hx).trans (h y hy).symm))
  | some z => exact congrArg some merge_right_comm

theorem mergeAll_concat : mergeAll (xs ++ [x]) =
    some (((mergeAll xs).map (·.merge x)).getD x) := by
  rw [mergeAll, List.foldl_append]
  rfl

theorem mergeByFlow_concat : mergeByFlow (xs ++ [x]) = mergeEntry (mergeByFlow xs) x := by
  rw [mergeByFlow, List.foldl_append]
  rfl

theorem get_mergeEntry_self {merged : Flows} :
    (mergeEntry merged x).get x.flow = some (((merged.get x.flow).map (·.merge x)).getD x) := by
  rw [mergeEntry]
  split
  · rename_i existing hget
    obtain ⟨-, hflow⟩ := latest_eq_some hget
    rw [hget, ← hflow]
    exact latest_put_self (a := existing.merge x)
  · rename_i hget
    rw [hget]
    exact latest_put_self

theorem get_mergeEntry_ne {merged : Flows} (h : x.flow ≠ flow) :
    (mergeEntry merged x).get flow = merged.get flow := by
  rw [mergeEntry]
  split
  · rename_i existing hget
    obtain ⟨-, hflow⟩ := latest_eq_some hget
    exact latest_put_ne (a := existing.merge x) fun heq => h (hflow.symm.trans heq)
  · exact latest_put_ne h

/-- What `merge_by_flow` has for a flow: all its snapshots, merged. -/
theorem get_mergeByFlow (xs : List FlowMetricsSnapshot) (flow : String) :
    (mergeByFlow xs).get flow = mergeAll (xs.filter (·.flow = flow)) := by
  induction xs using List.reverseRecOn with
  | nil => rfl
  | append_singleton xs x ih =>
      rw [mergeByFlow_concat, List.filter_append]
      by_cases h : x.flow = flow
      · subst h
        rw [get_mergeEntry_self, ih, List.filter_singleton, decide_eq_true rfl, cond_true,
          mergeAll_concat]
      · rw [get_mergeEntry_ne h, ih, List.filter_singleton, decide_eq_false h, cond_false,
          List.append_nil]

/-- Of the snapshots of one flow, `merge_by_flow` makes one. -/
theorem mergeByFlow_eq (h : ∀ x ∈ xs, x.flow = flow) :
    mergeByFlow xs = (mergeAll xs).toList := by
  induction xs using List.reverseRecOn with
  | nil => rfl
  | append_singleton xs x ih =>
      have hx : x.flow = flow := h x List.mem_concat_self
      have hxs : ∀ y ∈ xs, y.flow = flow := fun y hy => h y (List.mem_append_left _ hy)
      rw [mergeByFlow_concat, ih hxs, mergeAll_concat, mergeEntry]
      cases hmerged : mergeAll xs with
      | none => rfl
      | some merged =>
          have hflow : merged.flow = x.flow := by
            have hget := get_mergeByFlow xs flow
            rw [List.filter_eq_self.mpr fun y hy => decide_eq_true (hxs y hy), hmerged] at hget
            exact (latest_eq_some hget).2.trans hx.symm
          have hget : Flows.get (some merged).toList x.flow = some merged := by
            rw [← hflow]
            exact latest_singleton_self
          rw [hget]
          change put _ [merged] (merged.merge x) = _
          have hsame : decide (merged.flow ≠ (merged.merge x).flow) = false :=
            decide_eq_false (not_not_intro rfl)
          rw [put, List.filter_singleton, hsame]
          rfl

end Merge

/-! ## Recording -/

/-- The atomics of `FlowMetrics`. -/
inductive Atomic
  | eventsTotal
  | warningsTotal
  | errorsTotal
  | lastEventAtMs
  | lastWarningAtMs
  | lastErrorAtMs
deriving DecidableEq

structure FlowMetrics where
  eventsTotal : UInt64 := 0
  warningsTotal : UInt64 := 0
  errorsTotal : UInt64 := 0
  lastEventAtMs : UInt64 := 0
  lastWarningAtMs : UInt64 := 0
  lastErrorAtMs : UInt64 := 0
deriving DecidableEq

def readTs (ts : UInt64) : Option UInt64 := if ts = 0 then none else some ts

namespace FlowMetrics

def get (metrics : FlowMetrics) : Atomic → UInt64
  | .eventsTotal => metrics.eventsTotal
  | .warningsTotal => metrics.warningsTotal
  | .errorsTotal => metrics.errorsTotal
  | .lastEventAtMs => metrics.lastEventAtMs
  | .lastWarningAtMs => metrics.lastWarningAtMs
  | .lastErrorAtMs => metrics.lastErrorAtMs

/-- The `fetch_add` of `record`. -/
def fetchAdd (metrics : FlowMetrics) : ActivityLevel → FlowMetrics
  | .info => { metrics with eventsTotal := metrics.eventsTotal + 1 }
  | .warning => { metrics with warningsTotal := metrics.warningsTotal + 1 }
  | .error => { metrics with errorsTotal := metrics.errorsTotal + 1 }

/-- The `store` of `record`. -/
def store (metrics : FlowMetrics) (tsMs : UInt64) : ActivityLevel → FlowMetrics
  | .info => { metrics with lastEventAtMs := tsMs }
  | .warning => { metrics with lastWarningAtMs := tsMs }
  | .error => { metrics with lastErrorAtMs := tsMs }

/-- The snapshot made of values that have been loaded. -/
def snapshot (metrics : FlowMetrics) (flow : String) : FlowMetricsSnapshot where
  flow := flow
  eventsTotal := metrics.eventsTotal
  warningsTotal := metrics.warningsTotal
  errorsTotal := metrics.errorsTotal
  lastEventAtMs := readTs metrics.lastEventAtMs
  lastWarningAtMs := readTs metrics.lastWarningAtMs
  lastErrorAtMs := readTs metrics.lastErrorAtMs
  status := deriveStatus (readTs metrics.lastEventAtMs) (readTs metrics.lastWarningAtMs)
    (readTs metrics.lastErrorAtMs)
  derived := rfl

end FlowMetrics

/-- What `FlowMetrics::snapshot` has loaded so far. -/
structure Reading where
  flow : String
  eventsTotal : Option UInt64 := none
  warningsTotal : Option UInt64 := none
  errorsTotal : Option UInt64 := none
  lastEventAtMs : Option UInt64 := none
  lastWarningAtMs : Option UInt64 := none
  lastErrorAtMs : Option UInt64 := none
deriving DecidableEq

namespace Reading

def get (r : Reading) : Atomic → Option UInt64
  | .eventsTotal => r.eventsTotal
  | .warningsTotal => r.warningsTotal
  | .errorsTotal => r.errorsTotal
  | .lastEventAtMs => r.lastEventAtMs
  | .lastWarningAtMs => r.lastWarningAtMs
  | .lastErrorAtMs => r.lastErrorAtMs

def load (r : Reading) (metrics : FlowMetrics) : Atomic → Reading
  | .eventsTotal => { r with eventsTotal := some metrics.eventsTotal }
  | .warningsTotal => { r with warningsTotal := some metrics.warningsTotal }
  | .errorsTotal => { r with errorsTotal := some metrics.errorsTotal }
  | .lastEventAtMs => { r with lastEventAtMs := some metrics.lastEventAtMs }
  | .lastWarningAtMs => { r with lastWarningAtMs := some metrics.lastWarningAtMs }
  | .lastErrorAtMs => { r with lastErrorAtMs := some metrics.lastErrorAtMs }

/-- The snapshot, once all atomics have been loaded. -/
def snapshot (r : Reading) : Option FlowMetricsSnapshot := do
  let eventsTotal ← r.eventsTotal
  let warningsTotal ← r.warningsTotal
  let errorsTotal ← r.errorsTotal
  let lastEventAtMs ← r.lastEventAtMs
  let lastWarningAtMs ← r.lastWarningAtMs
  let lastErrorAtMs ← r.lastErrorAtMs
  let metrics : FlowMetrics :=
    { eventsTotal, warningsTotal, errorsTotal, lastEventAtMs, lastWarningAtMs, lastErrorAtMs }
  some (metrics.snapshot r.flow)

/-- What has been loaded is what the atomics hold. -/
def Agrees (r : Reading) (metrics : FlowMetrics) : Prop :=
  ∀ a v, r.get a = some v → v = metrics.get a

end Reading

inductive Writing.Stage
  | slotted
  | counted
  | stored
deriving DecidableEq

/-- A call of `record` that has its slot and does not read yet. -/
structure Writing where
  flow : String
  level : ActivityLevel
  tsMs : UInt64
  stage : Writing.Stage := .slotted
deriving DecidableEq

/-- The metrics store of a pod with the calls of `record` that are under way, those that read
in the order in which they began to, and all that has been broadcast. -/
structure OtlpMetricsStore where
  inner : AList fun _ : String => FlowMetrics := ∅
  writing : List Writing := []
  reading : List Reading := []
  sent : List FlowMetricsSnapshot := []

inductive RecordAct
  | record (flow : String) (level : ActivityLevel) (tsMs : UInt64)
  | write (k : Nat)
  | load (k : Nat) (atomic : Atomic)
  | send (k : Nat)

namespace OtlpMetricsStore

/-- What `snapshot` answers for a flow at rest. -/
def snapshot (st : OtlpMetricsStore) (flow : String) : Option FlowMetricsSnapshot :=
  (st.inner.lookup flow).map (·.snapshot flow)

/-- What `snapshot_all` answers at rest. -/
def snapshotAll (st : OtlpMetricsStore) : List FlowMetricsSnapshot :=
  st.inner.entries.map fun e => e.2.snapshot e.1

/-- `slot`. -/
def slot (st : OtlpMetricsStore) (flow : String) : OtlpMetricsStore :=
  if flow ∈ st.inner then st else { st with inner := st.inner.insert flow {} }

/-- An atomic of the flow is written. -/
def update (st : OtlpMetricsStore) (flow : String) (f : FlowMetrics → FlowMetrics) :
    OtlpMetricsStore :=
  match st.inner.lookup flow with
  | some metrics => { st with inner := st.inner.insert flow (f metrics) }
  | none => st

def step (st : OtlpMetricsStore) : RecordAct → Option OtlpMetricsStore
  | .record flow level tsMs =>
      some { st.slot flow with writing := st.writing ++ [{ flow, level, tsMs }] }
  | .write k =>
      match st.writing[k]? with
      | none => none
      | some w =>
          match w.stage with
          | .slotted =>
              some
                { st.update w.flow (·.fetchAdd w.level) with
                  writing := st.writing.set k { w with stage := .counted } }
          | .counted =>
              some
                { st.update w.flow (·.store w.tsMs w.level) with
                  writing := st.writing.set k { w with stage := .stored } }
          | .stored =>
              some
                { st with
                  writing := st.writing.eraseIdx k
                  reading := st.reading ++ [{ flow := w.flow }] }
  | .load k atomic =>
      (st.reading[k]?).bind fun r =>
        (st.inner.lookup r.flow).map fun metrics =>
          { st with reading := st.reading.set k (r.load metrics atomic) }
  | .send k =>
      (st.reading[k]?).bind fun r =>
        r.snapshot.map fun snapshot =>
          { st with reading := st.reading.eraseIdx k, sent := st.sent ++ [snapshot] }

/-- No call for the flow is under way. -/
def Idle (st : OtlpMetricsStore) (flow : String) : Prop :=
  (∀ w ∈ st.writing, w.flow ≠ flow) ∧ ∀ r ∈ st.reading, r.flow ≠ flow

/-- No snapshot is sent past one of its flow that was begun before it and is another one. -/
def InOrder (st : OtlpMetricsStore) : RecordAct → Prop
  | .send k => ∀ r, st.reading[k]? = some r → ∀ r' ∈ st.reading.take k, r'.flow = r.flow → r' = r
  | _ => True

instance (st : OtlpMetricsStore) : (a : RecordAct) → Decidable (st.InOrder a)
  | .send k => inferInstanceAs (Decidable (∀ r ∈ st.reading[k]?, ∀ r' ∈ st.reading.take k,
      r'.flow = r.flow → r' = r))
  | .record _ _ _ | .write _ | .load _ _ => .isTrue trivial

/-! ## What is known of a store -/

variable {st st' : OtlpMetricsStore} {flow g : String} {f : FlowMetrics → FlowMetrics}
  {k : Nat} {r : Reading} {x : FlowMetricsSnapshot} {metrics : FlowMetrics}

/-- A flow at rest has broadcast what its atomics hold, and of the calls that read, the last
one sees what they hold, once nobody writes them. -/
structure Sound (st : OtlpMetricsStore) : Prop where
  sent : ∀ g, st.Idle g → latest FlowMetricsSnapshot.flow g st.sent = st.snapshot g
  reading : ∀ g r metrics, (∀ w ∈ st.writing, w.flow ≠ g) →
    latest Reading.flow g st.reading = some r → st.inner.lookup g = some metrics →
      r.Agrees metrics
  writingKnown : ∀ w ∈ st.writing, w.flow ∈ st.inner
  readingKnown : ∀ r ∈ st.reading, r.flow ∈ st.inner
  sentKnown : ∀ x ∈ st.sent, x.flow ∈ st.inner

/-- What a step does: it broadcasts `new`, which is current for the flows that it leaves at
rest, and changes nothing for the flows that were. -/
structure Changed (st : OtlpMetricsStore) (new : List FlowMetricsSnapshot)
    (st' : OtlpMetricsStore) : Prop where
  sent : st'.sent = st.sent ++ new
  known : ∀ g ∈ st.inner, g ∈ st'.inner
  idle : ∀ g, st'.Idle g → latest FlowMetricsSnapshot.flow g new = none ∧ st.Idle g ∧
      st'.snapshot g = st.snapshot g ∧ st'.inner.lookup g = st.inner.lookup g ∨
    ∃ x, latest FlowMetricsSnapshot.flow g new = some x ∧ st'.snapshot g = some x

theorem snapshot_isSome : (st.snapshot g).isSome ↔ g ∈ st.inner := by
  rw [snapshot, Option.isSome_map, AList.lookup_isSome]

theorem lookup_update_ne (h : g ≠ flow) : (st.update flow f).inner.lookup g = st.inner.lookup g := by
  rw [update]
  split
  · exact AList.lookup_insert_ne h
  · rfl

theorem mem_update : g ∈ (st.update flow f).inner ↔ g ∈ st.inner := by
  rw [update]
  split
  · rename_i metrics hmetrics
    have hmem : flow ∈ st.inner := AList.lookup_isSome.mp (hmetrics ▸ rfl)
    refine (AList.mem_insert _).trans ?_
    exact ⟨fun h => h.elim (fun he => he ▸ hmem) id, .inr⟩
  · rfl

theorem lookup_slot_ne (h : g ≠ flow) : (st.slot flow).inner.lookup g = st.inner.lookup g := by
  rw [slot]
  split
  · rfl
  · exact AList.lookup_insert_ne h

theorem mem_slot : g ∈ (st.slot flow).inner ↔ g = flow ∨ g ∈ st.inner := by
  rw [slot]
  split
  · rename_i hmem
    exact ⟨.inr, fun h => h.elim (fun he => he ▸ hmem) id⟩
  · exact AList.mem_insert _

theorem snapshot_congr (h : st'.inner.lookup g = st.inner.lookup g) :
    st'.snapshot g = st.snapshot g := by
  rw [snapshot, snapshot, h]

end OtlpMetricsStore

theorem Reading.get_load_self (r : Reading) (metrics : FlowMetrics) (a : Atomic) :
    (r.load metrics a).get a = some (metrics.get a) := by
  cases a <;> rfl

theorem Reading.get_load_ne {r : Reading} {metrics : FlowMetrics} {a b : Atomic} (h : b ≠ a) :
    (r.load metrics a).get b = r.get b := by
  cases a <;> cases b <;> first | rfl | exact absurd rfl h

@[simp] theorem Reading.flow_load (r : Reading) (metrics : FlowMetrics) (a : Atomic) :
    (r.load metrics a).flow = r.flow := by
  cases a <;> rfl

theorem Reading.Agrees.load {r : Reading} {metrics : FlowMetrics} (h : r.Agrees metrics)
    (a : Atomic) : (r.load metrics a).Agrees metrics := by
  intro b v hv
  by_cases hb : b = a
  · subst hb
    rw [Reading.get_load_self] at hv
    exact (Option.some.inj hv).symm
  · rw [Reading.get_load_ne hb] at hv
    exact h b v hv

theorem Reading.agrees_start (flow : String) (metrics : FlowMetrics) :
    ({ flow := flow } : Reading).Agrees metrics := by
  intro a v hv
  cases a <;> cases hv

/-- A complete reading that agrees with the atomics is their snapshot. -/
theorem Reading.Agrees.snapshot {r : Reading} {metrics : FlowMetrics}
    {x : FlowMetricsSnapshot} (h : r.Agrees metrics) (hx : r.snapshot = some x) :
    x = metrics.snapshot r.flow := by
  rw [Reading.snapshot] at hx
  obtain ⟨v₁, h₁, hx⟩ := Option.bind_eq_some_iff.mp hx
  obtain ⟨v₂, h₂, hx⟩ := Option.bind_eq_some_iff.mp hx
  obtain ⟨v₃, h₃, hx⟩ := Option.bind_eq_some_iff.mp hx
  obtain ⟨v₄, h₄, hx⟩ := Option.bind_eq_some_iff.mp hx
  obtain ⟨v₅, h₅, hx⟩ := Option.bind_eq_some_iff.mp hx
  obtain ⟨v₆, h₆, hx⟩ := Option.bind_eq_some_iff.mp hx
  cases hx
  rw [h .eventsTotal v₁ h₁, h .warningsTotal v₂ h₂, h .errorsTotal v₃ h₃,
    h .lastEventAtMs v₄ h₄, h .lastWarningAtMs v₅ h₅, h .lastErrorAtMs v₆ h₆]
  rfl

theorem Reading.flow_of_snapshot {r : Reading} {x : FlowMetricsSnapshot}
    (hx : r.snapshot = some x) : x.flow = r.flow := by
  rw [Reading.snapshot] at hx
  obtain ⟨v₁, -, hx⟩ := Option.bind_eq_some_iff.mp hx
  obtain ⟨v₂, -, hx⟩ := Option.bind_eq_some_iff.mp hx
  obtain ⟨v₃, -, hx⟩ := Option.bind_eq_some_iff.mp hx
  obtain ⟨v₄, -, hx⟩ := Option.bind_eq_some_iff.mp hx
  obtain ⟨v₅, -, hx⟩ := Option.bind_eq_some_iff.mp hx
  obtain ⟨v₆, -, hx⟩ := Option.bind_eq_some_iff.mp hx
  cases hx
  rfl

namespace OtlpMetricsStore

variable {st st' : OtlpMetricsStore} {flow g : String} {k : Nat} {r : Reading} {a : RecordAct}
  {w : Writing}

/-- A step that writes the atomics of a flow, for a call that is still under way. -/
theorem Sound.touch (h : Sound st) (flow : String)
    (hlookup : ∀ g ≠ flow, st'.inner.lookup g = st.inner.lookup g)
    (hmem : ∀ g ∈ st.inner, g ∈ st'.inner) (hbusy : flow ∈ st'.writing.map (·.flow))
    (hwriting : st.writing.map (·.flow) ⊆ st'.writing.map (·.flow))
    (hknown : ∀ w ∈ st'.writing, w.flow ∈ st'.inner) (hreading : st'.reading = st.reading)
    (hsent : st'.sent = st.sent) : Sound st' ∧ Changed st [] st' := by
  have hne : ∀ {g}, (∀ w ∈ st'.writing, w.flow ≠ g) → g ≠ flow := by
    rintro g hfree rfl
    obtain ⟨w, hw, hflow⟩ := List.mem_map.mp hbusy
    exact hfree w hw hflow
  have hfree : ∀ {g}, (∀ w ∈ st'.writing, w.flow ≠ g) → ∀ w ∈ st.writing, w.flow ≠ g := by
    intro g hfree w hw hflow
    obtain ⟨w', hw', hflow'⟩ := List.mem_map.mp (hwriting (List.mem_map_of_mem hw))
    exact hfree w' hw' (hflow'.trans hflow)
  have hidle : ∀ {g}, st'.Idle g → st.Idle g := fun hg => ⟨hfree hg.1, hreading ▸ hg.2⟩
  refine ⟨⟨?_, ?_, hknown, ?_, ?_⟩, ⟨by rw [hsent, List.append_nil], hmem, ?_⟩⟩
  · intro g hg
    rw [hsent, snapshot_congr (hlookup g (hne hg.1))]
    exact h.sent g (hidle hg)
  · intro g r metrics hg hr hmetrics
    rw [hreading] at hr
    rw [hlookup g (hne hg)] at hmetrics
    exact h.reading g r metrics (hfree hg) hr hmetrics
  · rw [hreading]
    exact fun r hr => hmem _ (h.readingKnown r hr)
  · rw [hsent]
    exact fun x hx => hmem _ (h.sentKnown x hx)
  · intro g hg
    exact .inl ⟨rfl, hidle hg, snapshot_congr (hlookup g (hne hg.1)), hlookup g (hne hg.1)⟩

/-- A call has written an atomic and goes on. -/
theorem Sound.write (h : Sound st) {f : FlowMetrics → FlowMetrics} {stage : Writing.Stage}
    (hw : st.writing[k]? = some w) :
    Sound { st.update w.flow f with writing := st.writing.set k { w with stage := stage } } ∧
      Changed st []
        { st.update w.flow f with writing := st.writing.set k { w with stage := stage } } := by
  have hmap : (st.writing.set k { w with stage := stage }).map (·.flow) =
      st.writing.map (·.flow) := map_set_of_eq hw rfl
  refine h.touch w.flow (fun g hg => lookup_update_ne hg) (fun g => mem_update.mpr) ?_ ?_
    ?_ ?_ ?_
  · exact hmap ▸ List.mem_map_of_mem (List.mem_of_getElem? hw)
  · exact hmap ▸ List.Subset.refl _
  · intro w' hw'
    refine mem_update.mpr ?_
    rcases List.mem_or_eq_of_mem_set hw' with hw' | rfl
    · exact h.writingKnown w' hw'
    · exact h.writingKnown w (List.mem_of_getElem? hw)
  · change (st.update w.flow f).reading = st.reading
    rw [update]
    split
    · rfl
    · rfl
  · change (st.update w.flow f).sent = st.sent
    rw [update]
    split
    · rfl
    · rfl

/-- A call has written its atomics and begins to read. -/
theorem Sound.begin (h : Sound st) (hw : st.writing[k]? = some w) :
    Sound { st with writing := st.writing.eraseIdx k, reading := st.reading ++ [{ flow := w.flow }] } ∧
      Changed st [] { st with
        writing := st.writing.eraseIdx k
        reading := st.reading ++ [{ flow := w.flow }] } := by
  have hfree : ∀ {g}, g ≠ w.flow → (∀ w' ∈ st.writing.eraseIdx k, w'.flow ≠ g) →
      ∀ w' ∈ st.writing, w'.flow ≠ g := by
    intro g hne hg w' hw' hflow
    refine hg w' (mem_eraseIdx_of_ne hw hw' ?_) hflow
    rintro rfl
    exact hne hflow.symm
  have hidle : ∀ {g}, Idle { st with
      writing := st.writing.eraseIdx k
      reading := st.reading ++ [{ flow := w.flow }] } g → st.Idle g := by
    intro g hg
    have hne : g ≠ w.flow := fun heq => hg.2 _ List.mem_concat_self heq.symm
    exact ⟨hfree hne hg.1, fun r hr => hg.2 r (List.mem_append_left _ hr)⟩
  refine ⟨⟨fun g hg => h.sent g (hidle hg), ?_, ?_, ?_, h.sentKnown⟩,
    ⟨(List.append_nil _).symm, fun g hg => hg, fun g hg => .inl ⟨rfl, hidle hg, rfl, rfl⟩⟩⟩
  · intro g r metrics hg hr hmetrics
    change latest Reading.flow g (st.reading ++ [{ flow := w.flow }]) = some r at hr
    by_cases hne : w.flow = g
    · subst hne
      obtain rfl := Option.some.inj
        (hr.symm.trans (latest_concat_self (a := ({ flow := w.flow } : Reading))))
      exact Reading.agrees_start _ _
    · rw [latest_concat_ne (a := ({ flow := w.flow } : Reading)) hne] at hr
      exact h.reading g r metrics (hfree (Ne.symm hne) hg) hr hmetrics
  · exact fun w' hw' => h.writingKnown w' (List.mem_of_mem_eraseIdx hw')
  · intro r hr
    rcases List.mem_append.mp hr with hr | hr
    · exact h.readingKnown r hr
    · rw [List.mem_singleton.mp hr]
      exact h.writingKnown w (List.mem_of_getElem? hw)

/-- A call loads an atomic. -/
theorem Sound.load (h : Sound st) {metrics : FlowMetrics} {atomic : Atomic}
    (hr : st.reading[k]? = some r) (hmetrics : st.inner.lookup r.flow = some metrics) :
    Sound { st with reading := st.reading.set k (r.load metrics atomic) } ∧
      Changed st [] { st with reading := st.reading.set k (r.load metrics atomic) } := by
  have hmap : (st.reading.set k (r.load metrics atomic)).map (·.flow) = st.reading.map (·.flow) :=
    map_set_of_eq hr (r.flow_load metrics atomic)
  have hidle : ∀ {g}, Idle { st with reading := st.reading.set k (r.load metrics atomic) } g →
      st.Idle g := by
    refine fun hg => ⟨hg.1, fun r' hr' hflow => ?_⟩
    have hmem : r'.flow ∈ (st.reading.set k (r.load metrics atomic)).map (·.flow) :=
      hmap ▸ List.mem_map_of_mem hr'
    obtain ⟨r'', hr'', hflow'⟩ := List.mem_map.mp hmem
    exact hg.2 r'' hr'' (hflow'.trans hflow)
  refine ⟨⟨fun g hg => h.sent g (hidle hg), ?_, h.writingKnown, ?_, h.sentKnown⟩,
    ⟨(List.append_nil _).symm, fun g hg => hg, fun g hg => .inl ⟨rfl, hidle hg, rfl, rfl⟩⟩⟩
  · intro g r' metrics' hg hr' hmetrics'
    rcases latest_set (k := g) hr (r.flow_load metrics atomic) with hsame | ⟨hlast, hnow⟩
    · exact h.reading g r' metrics' hg (hsame ▸ hr') hmetrics'
    · obtain rfl := Option.some.inj (hr'.symm.trans hnow)
      obtain ⟨-, rfl⟩ := latest_eq_some hlast
      obtain rfl := Option.some.inj (hmetrics.symm.trans hmetrics')
      exact (h.reading _ r metrics hg hlast hmetrics).load atomic
  · intro r' hr'
    rcases List.mem_or_eq_of_mem_set hr' with hr' | rfl
    · exact h.readingKnown r' hr'
    · rw [r.flow_load]
      exact h.readingKnown r (List.mem_of_getElem? hr)

/-- A call broadcasts its snapshot. -/
theorem Sound.send (h : Sound st) {x : FlowMetricsSnapshot} (hr : st.reading[k]? = some r)
    (hok : ∀ r' ∈ st.reading.take k, r'.flow = r.flow → r' = r) (hx : r.snapshot = some x) :
    Sound { st with reading := st.reading.eraseIdx k, sent := st.sent ++ [x] } ∧
      Changed st [x] { st with reading := st.reading.eraseIdx k, sent := st.sent ++ [x] } := by
  have hflow := Reading.flow_of_snapshot hx
  have hknown := h.readingKnown r (List.mem_of_getElem? hr)
  have hidle : ∀ {g}, g ≠ r.flow →
      Idle { st with reading := st.reading.eraseIdx k, sent := st.sent ++ [x] } g → st.Idle g := by
    intro g hne hg
    refine ⟨hg.1, fun r' hr' hr'g => ?_⟩
    rcases latest_eraseIdx Reading.flow g hr with hsame | ⟨hrg, -⟩
    · exact latest_eq_none.mp (hsame.symm.trans (latest_eq_none.mpr hg.2)) r' hr' hr'g
    · exact hne hrg.symm
  -- the last call of a flow to send has read what the atomics hold
  have hcurrent : Idle { st with reading := st.reading.eraseIdx k, sent := st.sent ++ [x] } r.flow →
      st.snapshot r.flow = some x := by
    intro hg
    have hlast : latest Reading.flow r.flow st.reading = some r := by
      rcases latest_eraseIdx Reading.flow r.flow hr with hsame | ⟨-, hlast, -⟩
      · have hnone := hsame.symm.trans (latest_eq_none.mpr hg.2)
        exact absurd rfl (latest_eq_none.mp hnone r (List.mem_of_getElem? hr))
      · exact hlast
    obtain ⟨metrics, hmetrics⟩ := Option.isSome_iff_exists.mp (AList.lookup_isSome.mpr hknown)
    rw [(h.reading _ r metrics hg.1 hlast hmetrics).snapshot hx, snapshot, hmetrics]
    rfl
  refine ⟨⟨?_, ?_, h.writingKnown, ?_, ?_⟩, ⟨rfl, fun g hg => hg, ?_⟩⟩
  · intro g hg
    by_cases hne : g = r.flow
    · subst hne
      have hlast : latest FlowMetricsSnapshot.flow r.flow (st.sent ++ [x]) = some x := by
        rw [← hflow]
        exact latest_concat_self
      exact hlast.trans (hcurrent hg).symm
    · exact (latest_concat_ne fun heq => hne (heq.symm.trans hflow)).trans (h.sent g (hidle hne hg))
  · intro g r' metrics hg hr' hmetrics
    rcases latest_eraseIdx Reading.flow g hr with hsame | ⟨hrg, hlast, hbefore⟩
    · exact h.reading g r' metrics hg (hsame ▸ hr') hmetrics
    · obtain ⟨hmem, hr'g⟩ := latest_eq_some (hbefore ▸ hr')
      rw [hok r' hmem (hr'g.trans hrg.symm)]
      exact h.reading g r metrics hg hlast hmetrics
  · exact fun r' hr' => h.readingKnown r' (List.mem_of_mem_eraseIdx hr')
  · intro y hy
    rcases List.mem_append.mp hy with hy | hy
    · exact h.sentKnown y hy
    · rw [List.mem_singleton.mp hy, hflow]
      exact hknown
  · intro g hg
    by_cases hne : g = r.flow
    · subst hne
      exact .inr ⟨x, hflow ▸ latest_singleton_self, hcurrent hg⟩
    · exact .inl ⟨latest_singleton_ne fun heq => hne (heq.symm.trans hflow), hidle hne hg, rfl, rfl⟩

/-- A step of the calls of `record`, in the order they read. -/
theorem Sound.step (h : Sound st) (hok : InOrder st a) (hstep : st.step a = some st') :
    Sound st' ∧ ∃ new, Changed st new st' := by
  cases a with
  | record flow level tsMs =>
      cases hstep
      have hslot : (st.slot flow).reading = st.reading ∧ (st.slot flow).sent = st.sent := by
        rw [slot]
        split
        · exact ⟨rfl, rfl⟩
        · exact ⟨rfl, rfl⟩
      have hknown : ∀ w ∈ st.writing ++ [⟨flow, level, tsMs, .slotted⟩], w.flow ∈ (st.slot flow).inner := by
        intro w hw
        refine mem_slot.mpr ?_
        rcases List.mem_append.mp hw with hw | hw
        · exact .inr (h.writingKnown w hw)
        · exact .inl (List.mem_singleton.mp hw ▸ rfl)
      obtain ⟨hsound, hc⟩ : Sound { st.slot flow with
            writing := st.writing ++ [{ flow, level, tsMs }] } ∧
          Changed st [] { st.slot flow with writing := st.writing ++ [{ flow, level, tsMs }] } :=
        h.touch flow (fun g hg => lookup_slot_ne hg) (fun g hg => mem_slot.mpr (.inr hg))
          (by simp) (by simp) hknown hslot.1 hslot.2
      exact ⟨hsound, [], hc⟩
  | write k =>
      simp only [OtlpMetricsStore.step] at hstep
      split at hstep
      · cases hstep
      · rename_i w hw
        split at hstep
        · cases hstep
          exact ⟨(h.write hw).1, [], (h.write hw).2⟩
        · cases hstep
          exact ⟨(h.write hw).1, [], (h.write hw).2⟩
        · cases hstep
          exact ⟨(h.begin hw).1, [], (h.begin hw).2⟩
  | load k atomic =>
      obtain ⟨r, hr, hstep⟩ := Option.bind_eq_some_iff.mp hstep
      obtain ⟨metrics, hmetrics, rfl⟩ := Option.map_eq_some_iff.mp hstep
      exact ⟨(h.load hr hmetrics).1, [], (h.load hr hmetrics).2⟩
  | send k =>
      obtain ⟨r, hr, hstep⟩ := Option.bind_eq_some_iff.mp hstep
      obtain ⟨x, hx, rfl⟩ := Option.map_eq_some_iff.mp hstep
      exact ⟨(h.send hr (hok r hr) hx).1, [x], (h.send hr (hok r hr) hx).2⟩

end OtlpMetricsStore

end Flowgen.Telemetry
