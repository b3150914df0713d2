/-
# `Flowgen.Telemetry.Query` — the log query of a pod (`core/src/telemetry/query.rs`)

A pod keeps the latest records of every flow and level in ring buffers.  A query
takes the records that match its filter out of them, sorts them by their
timestamp and returns the newest `limit`.  A record is in the buffer of its flow
and level; this is a field of `Buffers`, so a query by flow may look into the
buffers of that flow only (`query_eq`).

What `chrono` makes of a timestamp, in milliseconds, is a parameter.
-/
import Flowgen.Lib.Newest
import Flowgen.Text

namespace Flowgen.Telemetry

open Flowgen.Lib

structure StoredSpan where
  name : String
  fields : List (String × String)
deriving DecidableEq

structure StoredLog where
  body : String
  level : String
  timestamp : Option String
  target : String
  spans : List StoredSpan
  fields : List (String × String)
deriving DecidableEq

/-- `span_field`: the innermost span with the field wins. -/
def spanField (record : StoredLog) (key : String) : Option String :=
  ((record.spans.reverse.flatMap (·.fields)).find? (·.1 == key)).map (·.2)

/-- `flow_of`. -/
def flowOf (record : StoredLog) : Option String := spanField record "flow"

/-- `str::to_ascii_lowercase`. -/
def toAsciiLowercase (s : String) : String := String.ofList (s.toList.map Char.toLower)

structure LogFilter where
  flow : Option String := none
  task : Option String := none
  levels : List String := []
  sinceMs : Option UInt64 := none
  untilMs : Option UInt64 := none

/-- `parse_levels`. -/
def LogFilter.parseLevels (levels : String) : List String :=
  (((levels.toList.splitOn ',').map fun level => Text.trim (String.ofList level)).filter
    (· ≠ "")).map toAsciiLowercase

/-- The first condition of `matches`; `eq_ignore_ascii_case`. -/
def LogFilter.levelOk (filter : LogFilter) (level : String) : Bool :=
  filter.levels.isEmpty ||
    filter.levels.any fun l => toAsciiLowercase l == toAsciiLowercase level

/-- `DateTime::parse_from_rfc3339`, and `timestamp_millis` of its result. -/
abbrev Parse := String → Option Int64

variable (parse : Parse)

/-- `timestamp_ms`: `as u64` of the milliseconds. -/
def timestampMs (record : StoredLog) : Option UInt64 :=
  (record.timestamp.bind parse).map Int64.toUInt64

/-- The three-way match of `matches` on the flow and on the task, and of
`collect_from` on the flow: an absent expectation matches everything. -/
def fieldOk : Option String → Option String → Bool
  | none, _ => true
  | some expected, some v => expected == v
  | some _, none => false

def LogFilter.matchesRecord (filter : LogFilter) (record : StoredLog) : Bool :=
  let tsMs := timestampMs parse record
  let sinceOk :=
    match filter.sinceMs with
    | none => true
    | some cutoff => tsMs.any fun t => decide (cutoff ≤ t)
  let untilOk :=
    match filter.untilMs with
    | none => true
    | some cutoff => tsMs.any fun t => decide (t ≤ cutoff)
  let flowOk := fieldOk filter.flow (spanField record "flow")
  let taskOk := fieldOk filter.task (spanField record "task")
  flowOk && taskOk && filter.levelOk record.level && sinceOk && untilOk

/-! ## The buffers -/

/-- The ring buffers, in the order in which they are walked. -/
structure Buffers where
  rings : AList fun _ : Option String × String => List StoredLog
  keyed : ∀ ring ∈ rings.entries, ∀ r ∈ ring.2, flowOf r = ring.1.1 ∧ r.level = ring.1.2

def Buffers.empty : Buffers where
  rings := ∅
  keyed := by
    intro ring h
    cases h

def Buffers.records (b : Buffers) : List StoredLog := b.rings.entries.flatMap (·.2)

def Buffers.ring (b : Buffers) (record : StoredLog) : List StoredLog :=
  (b.rings.lookup (flowOf record, record.level)).getD []

theorem Buffers.mem_ring {b : Buffers} {record r : StoredLog} (h : r ∈ b.ring record) :
    flowOf r = flowOf record ∧ r.level = record.level := by
  rw [Buffers.ring] at h
  cases hl : b.rings.lookup (flowOf record, record.level) with
  | none =>
      rw [hl] at h
      cases h
  | some buffer =>
      rw [hl] at h
      exact b.keyed ⟨_, buffer⟩ (AList.mem_lookup_iff.mp hl) r h

/-- `push_bounded`. -/
def Buffers.pushBounded (b : Buffers) (record : StoredLog) (capacity : Nat) : Buffers where
  rings :=
    let buffer := b.ring record
    let buffer := if buffer.length = capacity then buffer.tail else buffer
    b.rings.insert (flowOf record, record.level) (buffer ++ [record])
  keyed := by
    intro e he r hr
    rw [AList.entries_insert, List.mem_cons] at he
    rcases he with rfl | he
    · rcases List.mem_append.mp hr with hr | hr
      · refine b.mem_ring ?_
        split at hr
        · exact List.mem_of_mem_tail hr
        · exact hr
      · obtain rfl := List.mem_singleton.mp hr
        exact ⟨rfl, rfl⟩
    · exact b.keyed e ((List.kerase_sublist _ _).subset he) r hr

/-- `collect_from`, before it sorts. -/
def collectFrom (b : Buffers) (filter : LogFilter) : List StoredLog :=
  ((b.rings.entries.filter fun ring => fieldOk filter.flow ring.1.1).flatMap (·.2)).filter
    (filter.matchesRecord parse)

/-- The order of the sort: a record without timestamp comes first. -/
def sortKey (record : StoredLog) : WithBot Nat := (timestampMs parse record).map UInt64.toNat

/-- `query` of `MemoryLogsStore`. -/
def query (b : Buffers) (filter : LogFilter) (limit : Nat) : List StoredLog :=
  let snapshot := sortByKey (sortKey parse) (collectFrom parse b filter)
  snapshot.drop (snapshot.length - limit)

/-- `MAX_QUERY_LIMIT`. -/
def maxQueryLimit : Nat := 10000

/-! ## What a query returns -/

variable {parse} {b : Buffers} {filter : LogFilter} {limit : Nat} {record : StoredLog}

theorem LogFilter.fieldOk_of_matches (h : filter.matchesRecord parse record = true) :
    fieldOk filter.flow (flowOf record) = true := by
  simp only [LogFilter.matchesRecord, Bool.and_eq_true] at h
  exact h.1.1.1.1

/-- The buffers of other flows hold no record that matches. -/
theorem collectFrom_eq :
    collectFrom parse b filter = b.records.filter (filter.matchesRecord parse) := by
  rw [collectFrom, Buffers.records]
  have hkeyed := b.keyed
  generalize b.rings.entries = rings at hkeyed
  induction rings with
  | nil => rfl
  | cons ring rings ih =>
      have ih := ih fun other hother => hkeyed other (List.mem_cons_of_mem ring hother)
      rw [List.flatMap_cons, List.filter_append, List.filter_cons, ← ih]
      cases hother : fieldOk filter.flow ring.1.1 with
      | true => rw [if_pos rfl, List.flatMap_cons, List.filter_append]
      | false =>
          have hnone : ring.2.filter (filter.matchesRecord parse) = [] := by
            rw [List.filter_eq_nil_iff]
            intro r hr hmatch
            have hflow := LogFilter.fieldOk_of_matches hmatch
            rw [(hkeyed ring List.mem_cons_self r hr).1, hother] at hflow
            cases hflow
          rw [if_neg Bool.false_ne_true, hnone, List.nil_append]

theorem query_eq :
    query parse b filter limit =
      newest (sortKey parse) limit (b.records.filter (filter.matchesRecord parse)) := by
  have hlen := (perm_sortByKey (sortKey parse) (collectFrom parse b filter)).length_eq
  show (sortByKey (sortKey parse) (collectFrom parse b filter)).drop (_ - limit) = _
  rw [hlen, collectFrom_eq]
  rfl

/-- A ring buffer that is not full takes a record in. -/
theorem Buffers.records_pushBounded (b : Buffers) (record : StoredLog) {capacity : Nat}
    (h : (b.ring record).length ≠ capacity) :
    (b.pushBounded record capacity).records.Perm (record :: b.records) := by
  have hrings : (b.pushBounded record capacity).records =
      b.ring record ++ [record] ++
        (b.rings.entries.kerase (flowOf record, record.level)).flatMap (·.2) := by
    rw [Buffers.records, Buffers.pushBounded]
    dsimp only
    rw [AList.entries_insert, List.flatMap_cons, if_neg h]
  have hsplit : (b.ring record ++
      (b.rings.entries.kerase (flowOf record, record.level)).flatMap (·.2)).Perm b.records := by
    rw [Buffers.ring, Buffers.records]
    by_cases hmem : (flowOf record, record.level) ∈ b.rings
    · obtain ⟨buffer, l₁, l₂, _, hentries, hkerase⟩ :=
        List.exists_of_kerase (AList.mem_keys.mp hmem)
      have hlookup : b.rings.lookup (flowOf record, record.level) = some buffer := by
        refine AList.mem_lookup_iff.mpr ?_
        rw [hentries]
        exact List.mem_append_right _ List.mem_cons_self
      rw [hlookup, hkerase, hentries, List.flatMap_append, List.flatMap_append, List.flatMap_cons]
      exact List.perm_append_comm_assoc _ _ _
    · have hkeys : (flowOf record, record.level) ∉ b.rings.entries.keys := by
        intro hk
        exact hmem (AList.mem_keys.mpr hk)
      rw [AList.lookup_eq_none.mpr hmem, List.kerase_of_notMem_keys hkeys]
      rfl
  rw [hrings, List.append_assoc]
  exact (List.perm_middle).trans (hsplit.cons record)

/-- A pod may hold any records. -/
theorem exists_buffers (l : List StoredLog) : ∃ b : Buffers, b.records.Perm l := by
  induction l with
  | nil => exact ⟨Buffers.empty, .refl _⟩
  | cons r l ih =>
      obtain ⟨b, hb⟩ := ih
      exact ⟨b.pushBounded r ((b.ring r).length + 1),
        (b.records_pushBounded r (Nat.ne_of_lt (Nat.lt_succ_self _))).trans (hb.cons r)⟩

end Flowgen.Telemetry
