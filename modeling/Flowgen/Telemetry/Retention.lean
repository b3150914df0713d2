/-
# `Flowgen.Telemetry.Retention` — what the log store of a pod keeps
(`core/src/telemetry/query.rs`)

The writer parses each line of the log and pushes the record into the buffer of its
flow and level.  Pushing leaves the other buffers alone, so each buffer is the ring
buffer of its own records: it holds the last `capacity` of them, if the capacity is
not 0 (`retained_iff`).
-/
import Flowgen.Telemetry.Query
import Flowgen.Lib.Ring

namespace Flowgen.Telemetry

open Flowgen.Lib

/-- The buffer of a flow and a level. -/
def Buffers.buffer (b : Buffers) (flow : Option String) (level : String) : List StoredLog :=
  (b.rings.lookup (flow, level)).getD []

/-- The records of a flow and a level. -/
def ofFlow (flow : Option String) (level : String) (records : List StoredLog) : List StoredLog :=
  records.filter fun r => flowOf r = flow ∧ r.level = level

/-- `ingest`: a line that is no log line is left out. -/
def Buffers.ingest (readLine : List UInt8 → Option StoredLog) (capacity : Nat) (b : Buffers)
    (line : List UInt8) : Buffers :=
  match readLine line with
  | none => b
  | some record => b.pushBounded record capacity

/-- A store of this capacity after these lines. -/
def ingestAll (readLine : List UInt8 → Option StoredLog) (capacity : Nat)
    (lines : List (List UInt8)) : Buffers :=
  lines.foldl (Buffers.ingest readLine capacity) Buffers.empty

/-- Every buffer holds the last records of its flow and level, oldest first, and
never more than `capacity`. -/
def Retains (capacity : Nat) (b : Buffers) (records : List StoredLog) : Prop :=
  ∀ flow level, b.buffer flow level = (ofFlow flow level records).rtake capacity ∧
    (b.buffer flow level).length = min (ofFlow flow level records).length capacity

/-! ## One push -/

variable {b : Buffers} {record : StoredLog} {capacity : Nat}

theorem Buffers.buffer_pushBounded_self :
    (b.pushBounded record capacity).buffer (flowOf record) record.level =
      Ring.push capacity (b.buffer (flowOf record) record.level) record := by
  rw [Buffers.buffer, Buffers.pushBounded]
  dsimp only
  rw [AList.lookup_insert]
  rfl

/-- No buffer but that of the record's flow and level changes. -/
theorem Buffers.buffer_pushBounded_ne {flow : Option String} {level : String}
    (h : ¬ (flowOf record = flow ∧ record.level = level)) :
    (b.pushBounded record capacity).buffer flow level = b.buffer flow level := by
  have hne : (flow, level) ≠ (flowOf record, record.level) := by
    intro heq
    cases heq
    exact h ⟨rfl, rfl⟩
  rw [Buffers.buffer, Buffers.pushBounded]
  dsimp only
  rw [AList.lookup_insert_ne hne]
  rfl

/-! ## All pushes -/

/-- A buffer is the ring buffer of the records of its flow and level. -/
theorem buffer_foldl_pushBounded (flow : Option String) (level : String)
    (records : List StoredLog) :
    (records.foldl (fun b record => b.pushBounded record capacity) b).buffer flow level =
      (ofFlow flow level records).foldl (Ring.push capacity) (b.buffer flow level) := by
  induction records generalizing b with
  | nil => rfl
  | cons record records ih =>
      rw [List.foldl_cons, ih, ofFlow, ofFlow, List.filter_cons]
      split
      · rename_i h
        obtain ⟨rfl, rfl⟩ := of_decide_eq_true h
        rw [List.foldl_cons, Buffers.buffer_pushBounded_self]
      · rename_i h
        rw [Buffers.buffer_pushBounded_ne (fun heq => h (decide_eq_true heq))]

theorem ingestAll_eq (readLine : List UInt8 → Option StoredLog) (lines : List (List UInt8)) :
    ingestAll readLine capacity lines = (lines.filterMap readLine).foldl
      (fun b record => b.pushBounded record capacity) Buffers.empty := by
  rw [ingestAll]
  generalize Buffers.empty = b
  induction lines generalizing b with
  | nil => rfl
  | cons line lines ih =>
      rw [List.foldl_cons, ih, Buffers.ingest]
      cases hline : readLine line with
      | none => rw [List.filterMap_cons_none hline]
      | some record => rw [List.filterMap_cons_some hline, List.foldl_cons]

theorem buffer_ingestAll (readLine : List UInt8 → Option StoredLog) (lines : List (List UInt8))
    (flow : Option String) (level : String) :
    (ingestAll readLine capacity lines).buffer flow level =
      (ofFlow flow level (lines.filterMap readLine)).foldl (Ring.push capacity) [] := by
  rw [ingestAll_eq, buffer_foldl_pushBounded]
  rfl

/-- The store retains the last `capacity` records of every flow and level exactly if it
may hold any, or there are none. -/
theorem retained_iff (readLine : List UInt8 → Option StoredLog) (capacity : Nat)
    (lines : List (List UInt8)) :
    Retains capacity (ingestAll readLine capacity lines) (lines.filterMap readLine) ↔
      0 < capacity ∨ lines.filterMap readLine = [] := by
  constructor
  · intro h
    cases hrecords : lines.filterMap readLine with
    | nil => exact .inr rfl
    | cons record records =>
        have hlast := (h (flowOf record) record.level).1
        rw [buffer_ingestAll, Ring.foldl_push_eq_iff] at hlast
        refine .inl (hlast.resolve_right ?_)
        intro hnone
        have hmem : record ∈ ofFlow (flowOf record) record.level (lines.filterMap readLine) := by
          rw [hrecords]
          exact List.mem_filter.mpr ⟨List.mem_cons_self, decide_eq_true ⟨rfl, rfl⟩⟩
        rw [hnone] at hmem
        cases hmem
  · intro h flow level
    have hlast : (ingestAll readLine capacity lines).buffer flow level =
        (ofFlow flow level (lines.filterMap readLine)).rtake capacity := by
      rw [buffer_ingestAll, Ring.foldl_push_eq_iff]
      rcases h with hpos | hnone
      · exact .inl hpos
      · rw [hnone]
        exact .inr rfl
    exact ⟨hlast, by rw [hlast, Ring.length_rtake]⟩

/-- A record of no flow. -/
def plainRecord : StoredLog where
  body := "started"
  level := "info"
  timestamp := none
  target := "flowgen"
  spans := []
  fields := []

/-- A store of capacity 0 grows with every line. -/
theorem zero_capacity_grows :
    ((ingestAll (fun _ => some plainRecord) 0 [[], [], []]).buffer none "info").length = 3 ∧
      ¬ Retains 0 (ingestAll (fun _ => some plainRecord) 0 [[], [], []])
        [plainRecord, plainRecord, plainRecord] := by
  have hlength :
      ((ingestAll (fun _ => some plainRecord) 0 [[], [], []]).buffer none "info").length = 3 := by
    rfl
  refine ⟨hlength, ?_⟩
  intro h
  have hmin := (h none "info").2
  rw [hlength, Nat.min_zero] at hmin
  cases hmin

end Flowgen.Telemetry
