/-
# `Flowgen.Kafka.Subscribe` — the Kafka subscriber (`kafka/src/subscribe.rs`)

A subscriber reads every partition of a topic from an offset it keeps in the
cache.  It sends a record through the flow until the flow has completed it or
`max_deliver` deliveries have failed, and keeps the next offset.  A partition
without a stored offset starts at `start_offset`; `watch_partitions` looks for
partitions that were added, stores their earliest offsets and has the
subscriber initialised again.

Between the moment a partition is added and the moment its offset is stored the
subscriber may be initialised for another reason: `init` finds the partition in
the metadata and no offset in the cache, and takes it for a first start
(`skips_added`).  Where no partition with records before `start_offset` is met
like that, no record is skipped, and a run in which none is skipped is one where
none is met like that (`never_skips_iff`).

Time is left out: the delays, the interval of the refresh and the time-out of a
completion are choices of the run, and as a record may fail for ever, what is
promised is an order of deliveries and not that they come.  The records of the
topic stay, and the cache takes and gives back what is put there.
-/
import Flowgen.Lib.Machine
import Flowgen.Lib.Slots
import Flowgen.Lib.Log
import Flowgen.Text

namespace Flowgen.Kafka

open Flowgen.Lib

/-- Where a partition starts when no offset is stored for it. -/
inductive StartOffset
  | earliest
  | latest
  | timestamp (timestamp : Int)

structure Subscribe where
  brokers : String
  topic : String
  startOffset : StartOffset
  maxDeliver : Option Nat

inductive ConfigError
  | emptyTopic
  | emptyBrokers
  | zeroMaxDeliver

def Subscribe.validate (config : Subscribe) : Except ConfigError Unit :=
  if Text.isBlank config.topic then .error .emptyTopic
  else if Text.isBlank config.brokers then .error .emptyBrokers
  else if config.maxDeliver = some 0 then .error .zeroMaxDeliver
  else .ok ()

inductive OffsetAt
  | earliest
  | latest
  | timestamp (timestamp : Int)

/-- What the brokers answer for a partition, whose records are kept with their
timestamps: an offset, or -1 when no record is as late as the timestamp. -/
def partitionOffset (log : Log Int) : OffsetAt → Int
  | .earliest => log.start
  | .latest => log.next
  | .timestamp timestamp =>
      ((log.records.find? fun r => timestamp ≤ r.2).map Prod.fst).getD (-1)

def resolveStartOffset (log : Log Int) : StartOffset → Int
  | .earliest => partitionOffset log .earliest
  | .latest => partitionOffset log .latest
  | .timestamp timestamp =>
      let offset := partitionOffset log (.timestamp timestamp)
      if offset < 0 then partitionOffset log .latest else offset

def offsetKey (flowKey topic : String) (partition : Nat) : String :=
  "flow." ++ flowKey ++ ".kafka_offset." ++ topic ++ "." ++ partition.repr

/-- How far the consumer of a partition is. -/
inductive Work
  | polling
  /-- Has the record at `offset` in hand, after so many deliveries. -/
  | delivering (offset : Int) (deliveries : Nat)
  /-- Waits for the completion of the last delivery. -/
  | waiting (offset : Int) (deliveries : Nat)
  | storing (offset : Int)
deriving DecidableEq

structure Partition where
  id : Nat
  key : String
  nextOffset : Int
  work : Work
deriving DecidableEq

structure EventHandler where
  partitions : List Partition
  /-- The added partitions whose offsets `watch_partitions` has yet to store, with
  the earliest offset of the first one when it was looked up. -/
  added : Option (List Nat × Option Int)
deriving DecidableEq

inductive Phase
  /-- Nothing runs: before a start, or between a failure and the next `init`. -/
  | down
  /-- `init`: the partitions that are left, those that have their offset, and the
  start offset that was resolved for the next one and is not stored yet. -/
  | starting (rest : List Nat) (partitions : List Partition) (offset : Option Int)
  | running (handler : EventHandler)
deriving DecidableEq

structure State where
  /-- The topic. -/
  logs : List (Log Int)
  cache : String → Option Int
  phase : Phase
  /-- The deliveries in their order, by partition and offset. -/
  delivered : List (Nat × Int)
  /-- The records the flow has completed. -/
  completed : List (Nat × Int)
  /-- A handler has been initialised before. -/
  started : Bool
  /-- The start offsets of the partitions that the first start knew. -/
  starts : Nat → Option Int

/-- What happens: the topic grows, the subscriber takes a step, or it is stopped. -/
inductive Act
  /-- An offset of a partition is taken, for a record or for something else. -/
  | push (partition : Nat) (record : Option Int)
  | addPartition
  /-- `init` begins, with the partitions the brokers list. -/
  | boot (listed : List Nat)
  | init
  /-- The consumer of a partition goes on; `ok` is false where a fetch or a send
  fails and where the flow does not complete the record. -/
  | consume (i : Nat) (ok : Bool)
  | refresh (listed : List Nat)
  | watch
  /-- A failure ends `init` or the handler, or the process is restarted. -/
  | stop
deriving DecidableEq

structure Subscriber where
  config : Subscribe
  /-- There is a task to send to. -/
  tx : Bool
  flowKey : String

namespace Subscriber

variable (S : Subscriber)

def key (partition : Nat) : String := offsetKey S.flowKey S.config.topic partition

/-- Where to continue a partition whose next offset the topic does not hold. -/
def recoverOffset (log : Log Int) (nextOffset : Int) : Int :=
  let earliest := partitionOffset log .earliest
  if nextOffset < earliest then earliest else resolveStartOffset log S.config.startOffset

/-- A handler's consumer is at a new point. -/
def put (s : State) (handler : EventHandler) (i : Nat) (c : Partition) : State :=
  { s with phase := .running { handler with partitions := handler.partitions.set i c } }

/-- Fetches from `next_offset`; the brokers refuse what is outside the log. -/
def poll (s : State) (handler : EventHandler) (i : Nat) (c : Partition) (log : Log Int)
    (ok : Bool) : Option State :=
  if ok = false then some s
  else if c.nextOffset < log.start ∨ log.next < c.nextOffset then
    some (put s handler i { c with nextOffset := S.recoverOffset log c.nextOffset })
  else (log.from? c.nextOffset).map fun r => put s handler i { c with work := .delivering r.1 0 }

/-- Sends the record once more; without a task to send to it is through. -/
def deliver (s : State) (handler : EventHandler) (i : Nat) (c : Partition) (offset : Int)
    (deliveries : Nat) (ok : Bool) : State :=
  if ok = false then { s with phase := .down }
  else if S.tx then
    { put s handler i { c with work := .waiting offset (deliveries + 1) } with
      delivered := s.delivered ++ [(c.id, offset)] }
  else
    { put s handler i { c with work := .storing offset } with
      delivered := s.delivered ++ [(c.id, offset)]
      completed := s.completed ++ [(c.id, offset)] }

/-- The delivery is completed or not. -/
def settle (s : State) (handler : EventHandler) (i : Nat) (c : Partition) (offset : Int)
    (deliveries : Nat) (ok : Bool) : State :=
  if ok then
    { put s handler i { c with work := .storing offset } with
      completed := s.completed ++ [(c.id, offset)] }
  else if S.config.maxDeliver.any (· ≤ deliveries) then
    put s handler i { c with work := .storing offset }
  else put s handler i { c with work := .delivering offset deliveries }

/-- The next step of `consume_partition`. -/
def consume (s : State) (handler : EventHandler) (i : Nat) (ok : Bool) (c : Partition) :
    Option State :=
  match c.work with
  | .polling => s.logs[c.id]?.bind fun log => S.poll s handler i c log ok
  | .delivering offset deliveries => some (S.deliver s handler i c offset deliveries ok)
  | .waiting offset deliveries => some (S.settle s handler i c offset deliveries ok)
  | .storing offset =>
      some { put s handler i { c with nextOffset := offset + 1, work := .polling } with
        cache := Function.update s.cache c.key (some (offset + 1)) }

/-- The next step of `init`. -/
def initStep (s : State) (rest : List Nat) (partitions : List Partition)
    (offset : Option Int) : Option State :=
  match rest, offset with
  | [], _ => some { s with phase := .running ⟨partitions, none⟩, started := true }
  | p :: rest, none =>
      match s.cache (S.key p) with
      | some offset =>
          some { s with
            phase := .starting rest (partitions ++ [⟨p, S.key p, offset, .polling⟩]) none }
      | none =>
          s.logs[p]?.map fun log =>
            { s with
              phase := .starting (p :: rest) partitions
                (some (resolveStartOffset log S.config.startOffset)) }
  | p :: rest, some offset =>
      some { s with
        phase := .starting rest (partitions ++ [⟨p, S.key p, offset, .polling⟩]) none
        cache := Function.update s.cache (S.key p) (some offset)
        starts := if s.started then s.starts else Function.update s.starts p (some offset) }

/-- The next step of `watch_partitions` once partitions were added. -/
def watchPartitions (s : State) (handler : EventHandler) (rest : List Nat)
    (earliest : Option Int) : Option State :=
  match rest, earliest with
  | [], _ => some { s with phase := .down }
  | p :: rest, none =>
      s.logs[p]?.map fun log =>
        { s with
          phase := .running { handler with
            added := some (p :: rest, some (partitionOffset log .earliest)) } }
  | p :: rest, some earliest =>
      some { s with
        phase := .running { handler with added := some (rest, none) }
        cache := Function.update s.cache (S.key p) (some earliest) }

/-- The partitions of a listing the handler does not consume. -/
def unknown (handler : EventHandler) (listed : List Nat) : List Nat :=
  listed.filter fun p => !handler.partitions.any fun known => known.id == p

def step (s : State) : Act → Option State
  | .push p record =>
      s.logs[p]?.map fun log => { s with logs := s.logs.set p (log.push record) }
  | .addPartition => some { s with logs := s.logs ++ [Log.empty 0] }
  | .boot listed =>
      match s.phase, S.config.validate with
      | .down, .ok () =>
          if listed ≠ [] ∧ ∀ p ∈ listed, p < s.logs.length then
            some { s with phase := .starting listed [] none }
          else none
      | _, _ => none
  | .init =>
      match s.phase with
      | .starting rest partitions offset => S.initStep s rest partitions offset
      | _ => none
  | .consume i ok =>
      match s.phase with
      | .running handler => handler.partitions[i]?.bind (S.consume s handler i ok)
      | _ => none
  | .refresh listed =>
      match s.phase with
      | .running handler =>
          if handler.added = none ∧ ∀ p ∈ listed, p < s.logs.length then
            let added := unknown handler listed
            if added = [] then some s
            else some { s with phase := .running { handler with added := some (added, none) } }
          else none
      | _ => none
  | .watch =>
      match s.phase with
      | .running ⟨partitions, some (rest, earliest)⟩ =>
          S.watchPartitions s ⟨partitions, some (rest, earliest)⟩ rest earliest
      | _ => none
  | .stop => some { s with phase := .down }

/-- Before the first start of a subscriber, over a topic of any shape. -/
def Fresh (s : State) : Prop :=
  (∀ p, s.cache (S.key p) = none) ∧ s.phase = .down ∧ s.delivered = [] ∧ s.completed = [] ∧
    s.started = false ∧ ∀ p, s.starts p = none

def machine : Machine State Act where
  init := S.Fresh
  step := S.step

/-! ## What is promised -/

/-- The flow has completed the record, or `max_deliver` deliveries were made. -/
def Settled (s : State) (p : Nat) (offset : Int) : Prop :=
  (p, offset) ∈ s.completed ∨
    ∃ max, S.config.maxDeliver = some max ∧ max ≤ s.delivered.count (p, offset)

/-- From where on the records of a partition are to be delivered: its start offset
where the first start knew it, and its earliest offset where it was added. -/
def owedFrom (s : State) (p : Nat) (log : Log Int) : Int := (s.starts p).getD log.start

/-- No record is skipped: a record is delivered after those before it, the
offset a consumer goes on from is past delivered records only, and the stored
offset is past settled records only. -/
structure NeverSkips (s : State) : Prop where
  order : ∀ (i : Nat) p offset log, s.delivered[i]? = some (p, offset) →
    s.logs[p]? = some log →
      log.Passed (fun r => (p, r.1) ∈ s.delivered.take i) (owedFrom s p log) offset
  position : ∀ handler c log, s.phase = .running handler → c ∈ handler.partitions →
    s.logs[c.id]? = some log →
      log.Passed (fun r => (c.id, r.1) ∈ s.delivered) (owedFrom s c.id log) c.nextOffset
  stored : ∀ p offset log, s.cache (S.key p) = some offset → s.logs[p]? = some log →
    log.Passed (fun r => S.Settled s p r.1) (owedFrom s p log) offset

/-- After the first start, `init` gives a partition `start_offset` only if no
record lies before it. -/
def Careful (s : State) : Act → Prop
  | .init => ∀ p rest partitions offset log,
      s.phase = .starting (p :: rest) partitions (some offset) → s.started = true →
        s.logs[p]? = some log → ∀ r ∈ log.records, offset ≤ r.1
  | _ => True

/-! ## What is known of a state -/

section Invariant

variable {S : Subscriber} {s s' : State} {log log' : Log Int} {p : Nat} {offset : Int}
  {handler : EventHandler} {partitions : List Partition} {rest listed : List Nat}
  {c : Partition} {i deliveries : Nat} {ok : Bool} {pending : Option Int} {a : Act}
  {as : List Act}

theorem offsetKey_injective {flowKey topic : String} {p q : Nat}
    (h : offsetKey flowKey topic p = offsetKey flowKey topic q) : p = q :=
  Nat.repr_injective (String.append_right_inj _ |>.mp h)

theorem le_resolveStartOffset (log : Log Int) (start : StartOffset) :
    log.start ≤ resolveStartOffset log start ∧ resolveStartOffset log start ≤ log.next := by
  have hle := log.start_le
  cases start with
  | earliest => exact ⟨le_refl _, hle⟩
  | latest => exact ⟨hle, le_refl _⟩
  | timestamp timestamp =>
      unfold resolveStartOffset
      dsimp only
      split
      · exact ⟨hle, le_refl _⟩
      · rename_i hpos
        unfold partitionOffset at hpos ⊢
        dsimp only at hpos ⊢
        cases hfind : log.records.find? fun r => timestamp ≤ r.2 with
        | none =>
            rw [hfind] at hpos
            exact absurd (by decide) hpos
        | some r =>
            have hr := log.within r (List.mem_of_find?_eq_some hfind)
            exact ⟨hr.1, hr.2.le⟩

/-- Every owed record of the partition before the offset, which is one of its log,
is settled. -/
def Cleared (S : Subscriber) (s : State) (p : Nat) (offset : Int) : Prop :=
  ∃ log, s.logs[p]? = some log ∧ log.start ≤ offset ∧ offset ≤ log.next ∧
    log.Passed (fun r => S.Settled s p r.1) (owedFrom s p log) offset

/-- The offset is one the log of the partition has taken. -/
def Taken (s : State) (p : Nat) (offset : Int) : Prop :=
  ∃ log, s.logs[p]? = some log ∧ offset < log.next

/-- What a consumer has established that goes on from `next`. -/
def WorkOk (S : Subscriber) (s : State) (p : Nat) (next : Int) : Work → Prop
  | .polling => Cleared S s p next
  | .delivering offset deliveries =>
      next ≤ offset ∧ Cleared S s p offset ∧ Taken s p offset ∧
        deliveries ≤ s.delivered.count (p, offset)
  | .waiting offset deliveries =>
      next ≤ offset ∧ Cleared S s p offset ∧ Taken s p offset ∧
        deliveries ≤ s.delivered.count (p, offset) ∧ (p, offset) ∈ s.delivered
  | .storing offset => next ≤ offset ∧ Cleared S s p (offset + 1)

structure PartitionOk (S : Subscriber) (s : State) (c : Partition) : Prop where
  key : c.key = S.key c.id
  known : s.cache (S.key c.id) ≠ none
  work : WorkOk S s c.id c.nextOffset c.work

structure HandlerOk (S : Subscriber) (s : State) (handler : EventHandler) : Prop where
  limit : S.config.maxDeliver ≠ some 0
  partitions : ∀ c ∈ handler.partitions, PartitionOk S s c
  added : ∀ p rest earliest, handler.added = some (p :: rest, some earliest) →
    ∃ log, s.logs[p]? = some log ∧ earliest = log.start

/-- What the handler, or its initialisation, has established. -/
def PhaseOk (S : Subscriber) (s : State) : Phase → Prop
  | .down => True
  | .starting rest partitions pending =>
      S.config.maxDeliver ≠ some 0 ∧ (∀ c ∈ partitions, PartitionOk S s c) ∧
        ∀ p rest' offset, rest = p :: rest' → pending = some offset →
          s.cache (S.key p) = none ∧
            ∃ log, s.logs[p]? = some log ∧ log.start ≤ offset ∧ offset ≤ log.next
  | .running handler => HandlerOk S s handler

structure Inv (S : Subscriber) (s : State) : Prop where
  limit : s.delivered ≠ [] → S.config.maxDeliver ≠ some 0
  known : ∀ p offset, (p, offset) ∈ s.delivered → s.cache (S.key p) ≠ none
  taken : ∀ p offset, (p, offset) ∈ s.delivered → Taken s p offset
  completed : ∀ x ∈ s.completed, x ∈ s.delivered
  starts : ∀ p, s.starts p ≠ none → s.cache (S.key p) ≠ none
  stored : ∀ p offset, s.cache (S.key p) = some offset → Cleared S s p offset
  order : ∀ (i : Nat) p offset log, s.delivered[i]? = some (p, offset) →
    s.logs[p]? = some log →
      log.Passed (fun r => (p, r.1) ∈ s.delivered.take i) (owedFrom s p log) offset
  phase : PhaseOk S s s.phase

/-! ### What stays -/

/-- Nothing is taken back: the logs only grow, as do the deliveries and the
completions, and a partition that has an offset keeps one and its start. -/
structure Grows (S : Subscriber) (s s' : State) : Prop where
  logs : ∀ (p : Nat) log, s.logs[p]? = some log → ∃ log', s'.logs[p]? = some log' ∧ log.Extends log'
  delivered : ∃ more, s'.delivered = s.delivered ++ more
  completed : s.completed ⊆ s'.completed
  cache : ∀ p, s.cache (S.key p) ≠ none → s'.cache (S.key p) ≠ none
  starts : ∀ p, s.cache (S.key p) ≠ none → s'.starts p = s.starts p

theorem Grows.phase (S : Subscriber) (s : State) (phase : Phase) (started : Bool) :
    Grows S s { s with phase := phase, started := started } where
  logs _ log hlog := ⟨log, hlog, .refl log⟩
  delivered := ⟨[], (List.append_nil _).symm⟩
  completed _ hx := hx
  cache _ hp := hp
  starts _ _ := rfl

theorem Grows.store (S : Subscriber) (s : State) (key : String) (offset : Int) (phase : Phase) :
    Grows S s { s with phase := phase, cache := Function.update s.cache key (some offset) } where
  logs _ log hlog := ⟨log, hlog, .refl log⟩
  delivered := ⟨[], (List.append_nil _).symm⟩
  completed _ hx := hx
  cache p hp := by
    dsimp only
    rcases eq_or_ne (S.key p) key with rfl | hne
    · rw [Function.update_self]
      exact Option.some_ne_none _
    · rw [Function.update_of_ne hne]
      exact hp
  starts _ _ := rfl

theorem Grows.complete (S : Subscriber) (s : State) (x : Nat × Int) (phase : Phase) :
    Grows S s { s with phase := phase, completed := s.completed ++ [x] } where
  logs _ log hlog := ⟨log, hlog, .refl log⟩
  delivered := ⟨[], (List.append_nil _).symm⟩
  completed := List.subset_append_left _ _
  cache _ hp := hp
  starts _ _ := rfl

theorem Grows.deliver (S : Subscriber) (s : State) (x : Nat × Int) (phase : Phase)
    {through : List (Nat × Int)} (hsub : s.completed ⊆ through) :
    Grows S s { s with
      phase := phase, delivered := s.delivered ++ [x], completed := through } where
  logs _ log hlog := ⟨log, hlog, .refl log⟩
  delivered := ⟨[x], rfl⟩
  completed := hsub
  cache _ hp := hp
  starts _ _ := rfl

theorem Grows.push (S : Subscriber) {record : Option Int} (hlog : s.logs[p]? = some log) :
    Grows S s { s with logs := s.logs.set p (log.push record) } where
  logs q log' hq := by
    rcases eq_or_ne p q with rfl | hne
    · rw [hlog] at hq
      cases hq
      refine ⟨log.push record, ?_, Log.extends_push log record⟩
      exact List.getElem?_set_self (List.getElem?_eq_some_iff.mp hlog).1
    · exact ⟨log', (List.getElem?_set_ne hne).trans hq, .refl log'⟩
  delivered := ⟨[], (List.append_nil _).symm⟩
  completed _ hx := hx
  cache _ hp := hp
  starts _ _ := rfl

theorem Grows.addPartition (S : Subscriber) (s : State) (log : Log Int) :
    Grows S s { s with logs := s.logs ++ [log] } where
  logs q log' hq := by
    refine ⟨log', ?_, .refl log'⟩
    exact (List.getElem?_append_left (List.getElem?_eq_some_iff.mp hq).1).trans hq
  delivered := ⟨[], (List.append_nil _).symm⟩
  completed _ hx := hx
  cache _ hp := hp
  starts _ _ := rfl

theorem Grows.settled (hg : Grows S s s') (h : S.Settled s p offset) : S.Settled s' p offset := by
  rcases h with hmem | ⟨max, hmax, hle⟩
  · exact Or.inl (hg.completed hmem)
  · obtain ⟨more, hmore⟩ := hg.delivered
    refine Or.inr ⟨max, hmax, ?_⟩
    rw [hmore, List.count_append]
    omega

theorem owedFrom_grow (hg : Grows S s s') (hp : s.cache (S.key p) ≠ none)
    (hext : log.Extends log') : owedFrom s' p log' = owedFrom s p log := by
  unfold owedFrom
  rw [hg.starts p hp, hext.start]

theorem Cleared.grow (h : Cleared S s p offset) (hg : Grows S s s')
    (hp : s.cache (S.key p) ≠ none) : Cleared S s' p offset := by
  obtain ⟨log, hlog, hstart, hnext, hpassed⟩ := h
  obtain ⟨log', hlog', hext⟩ := hg.logs p log hlog
  refine ⟨log', hlog', hext.start ▸ hstart, hnext.trans hext.next, ?_⟩
  rw [owedFrom_grow hg hp hext]
  exact (hpassed.mono fun o ho => hg.settled ho).extend hext hnext

theorem Taken.grow (h : Taken s p offset) (hg : Grows S s s') : Taken s' p offset := by
  obtain ⟨log, hlog, hlt⟩ := h
  obtain ⟨log', hlog', hext⟩ := hg.logs p log hlog
  exact ⟨log', hlog', hlt.trans_le hext.next⟩

theorem PartitionOk.grow (h : PartitionOk S s c) (hg : Grows S s s') : PartitionOk S s' c := by
  refine ⟨h.key, hg.cache _ h.known, ?_⟩
  have hwork := h.work
  have hcount : ∀ offset, s.delivered.count (c.id, offset) ≤ s'.delivered.count (c.id, offset) := by
    intro offset
    obtain ⟨more, hmore⟩ := hg.delivered
    rw [hmore, List.count_append]
    omega
  cases hw : c.work with
  | polling =>
      rw [hw] at hwork
      exact hwork.grow hg h.known
  | delivering offset deliveries =>
      rw [hw] at hwork
      obtain ⟨hle, hcleared, htaken, hn⟩ := hwork
      exact ⟨hle, hcleared.grow hg h.known, htaken.grow hg, hn.trans (hcount offset)⟩
  | waiting offset deliveries =>
      rw [hw] at hwork
      obtain ⟨hle, hcleared, htaken, hn, hmem⟩ := hwork
      refine ⟨hle, hcleared.grow hg h.known, htaken.grow hg, hn.trans (hcount offset), ?_⟩
      obtain ⟨more, hmore⟩ := hg.delivered
      rw [hmore]
      exact List.mem_append_left _ hmem
  | storing offset =>
      rw [hw] at hwork
      exact ⟨hwork.1, hwork.2.grow hg h.known⟩

theorem HandlerOk.grow (h : HandlerOk S s handler) (hg : Grows S s s') :
    HandlerOk S s' handler where
  limit := h.limit
  partitions c hc := (h.partitions c hc).grow hg
  added := by
    intro p rest earliest hadded
    obtain ⟨log, hlog, hstart⟩ := h.added p rest earliest hadded
    obtain ⟨log', hlog', hext⟩ := hg.logs p log hlog
    exact ⟨log', hlog', hstart.trans hext.start.symm⟩

theorem PhaseOk.grow {phase : Phase} (h : PhaseOk S s phase) (hg : Grows S s s')
    (hnone : ∀ p, s.cache (S.key p) = none → s'.cache (S.key p) = none) : PhaseOk S s' phase := by
  cases phase with
  | down => trivial
  | starting rest partitions pending =>
      obtain ⟨hlimit, hparts, hpending⟩ := h
      refine ⟨hlimit, fun c hc => (hparts c hc).grow hg, ?_⟩
      intro p rest' offset hrest hoffset
      obtain ⟨hp, log, hlog, hstart, hnext⟩ := hpending p rest' offset hrest hoffset
      obtain ⟨log', hlog', hext⟩ := hg.logs p log hlog
      exact ⟨hnone p hp, log', hlog', hext.start ▸ hstart, hnext.trans hext.next⟩
  | running handler => exact HandlerOk.grow h hg

theorem Inv.order_grow (h : Inv S s) (hg : Grows S s s') (hi : s.delivered[i]? = some (p, offset))
    (hlog' : s'.logs[p]? = some log') :
    log'.Passed (fun r => (p, r.1) ∈ s.delivered.take i) (owedFrom s' p log') offset := by
  have hmem := List.mem_of_getElem? hi
  obtain ⟨log, hlog, hlt⟩ := h.taken p offset hmem
  obtain ⟨log'', hlog'', hext⟩ := hg.logs p log hlog
  rw [hlog'] at hlog''
  cases hlog''
  rw [owedFrom_grow hg (h.known p offset hmem) hext]
  exact (h.order i p offset log hi hlog).extend hext hlt.le

/-- A step that delivers nothing keeps the invariant if what it stores, completes
and establishes is in order. -/
theorem Inv.grow (h : Inv S s) (hg : Grows S s s') (hdelivered : s'.delivered = s.delivered)
    (hcompleted : ∀ x ∈ s'.completed, x ∈ s.delivered)
    (hstarts : ∀ p, s'.starts p ≠ none → s'.cache (S.key p) ≠ none)
    (hstored : ∀ p offset, s'.cache (S.key p) = some offset → Cleared S s' p offset)
    (hphase : PhaseOk S s' s'.phase) : Inv S s' where
  limit := by
    rw [hdelivered]
    exact h.limit
  known := by
    intro p offset hmem
    rw [hdelivered] at hmem
    exact hg.cache p (h.known p offset hmem)
  taken := by
    intro p offset hmem
    rw [hdelivered] at hmem
    exact (h.taken p offset hmem).grow hg
  completed := by
    rw [hdelivered]
    exact hcompleted
  starts := hstarts
  stored := hstored
  order := by
    intro i p offset log hi hlog
    rw [hdelivered] at hi ⊢
    exact h.order_grow hg hi hlog
  phase := hphase

/-- What is settled was delivered. -/
theorem Inv.mem_delivered (h : Inv S s) (hlimit : S.config.maxDeliver ≠ some 0)
    (hs : S.Settled s p offset) : (p, offset) ∈ s.delivered := by
  rcases hs with hmem | ⟨max, hmax, hle⟩
  · exact h.completed _ hmem
  · refine List.count_pos_iff.mp (Nat.lt_of_lt_of_le (Nat.pos_of_ne_zero ?_) hle)
    rintro rfl
    exact hlimit hmax

theorem Inv.neverSkips (h : Inv S s) : S.NeverSkips s where
  order := h.order
  position := by
    intro handler c log hphase hc hlog
    have hrunning := h.phase
    rw [hphase] at hrunning
    have hhandler : HandlerOk S s handler := hrunning
    have hwork := (hhandler.partitions c hc).work
    have hpassed : ∀ offset, Cleared S s c.id offset → c.nextOffset ≤ offset →
        log.Passed (fun r => S.Settled s c.id r.1) (owedFrom s c.id log) c.nextOffset := by
      intro offset hcleared hle
      obtain ⟨log', hlog', -, -, hpassed⟩ := hcleared
      rw [hlog] at hlog'
      cases hlog'
      exact hpassed.anti hle
    refine Log.Passed.mono ?_ fun o ho => h.mem_delivered hhandler.limit ho
    cases hw : c.work with
    | polling =>
        rw [hw] at hwork
        exact hpassed _ hwork (le_refl _)
    | delivering offset deliveries | waiting offset deliveries =>
        rw [hw] at hwork
        exact hpassed _ hwork.2.1 hwork.1
    | storing offset =>
        rw [hw] at hwork
        exact hpassed _ hwork.2 (by have := hwork.1; omega)
  stored := by
    intro p offset log hp hlog
    obtain ⟨log', hlog', -, -, hpassed⟩ := h.stored p offset hp
    rw [hlog] at hlog'
    cases hlog'
    exact hpassed

/-! ### One step -/

/-- A new phase, and nothing else. -/
theorem Inv.withPhase (h : Inv S s) {phase : Phase} {started : Bool} (hphase : PhaseOk S s phase) :
    Inv S { s with phase := phase, started := started } := by
  have hg := Grows.phase S s phase started
  refine h.grow hg rfl h.completed h.starts ?_ (hphase.grow hg fun _ hp => hp)
  intro p offset hp
  exact (h.stored p offset hp).grow hg (Option.ne_none_iff_exists'.mpr ⟨offset, hp⟩)

/-- An offset is stored that is in order in the new state. -/
theorem Inv.store (h : Inv S s) (hg : Grows S s s') (hdelivered : s'.delivered = s.delivered)
    (hcompleted : s'.completed = s.completed)
    (hcache : s'.cache = Function.update s.cache (S.key p) (some offset))
    (hstarts : ∀ q, s'.starts q ≠ none → q = p ∨ s.starts q ≠ none)
    (hcleared : Cleared S s' p offset) (hphase : PhaseOk S s' s'.phase) : Inv S s' := by
  refine h.grow hg hdelivered ?_ ?_ ?_ hphase
  · rw [hcompleted]
    exact h.completed
  · intro q hq
    rcases hstarts q hq with rfl | hq
    · rw [hcache, Function.update_self]
      exact Option.some_ne_none _
    · exact hg.cache q (h.starts q hq)
  · intro q offset' hq
    rw [hcache] at hq
    rcases eq_or_ne (S.key q) (S.key p) with heq | hne
    · cases offsetKey_injective heq
      rw [Function.update_self] at hq
      cases hq
      exact hcleared
    · rw [Function.update_of_ne hne] at hq
      exact (h.stored q offset' hq).grow hg (Option.ne_none_iff_exists'.mpr ⟨offset', hq⟩)

/-- A record that is next in its partition is delivered. -/
theorem Inv.deliver (h : Inv S s) {through : List (Nat × Int)} {phase : Phase}
    (hlimit : S.config.maxDeliver ≠ some 0) (hp : s.cache (S.key p) ≠ none)
    (hcleared : Cleared S s p offset) (htaken : Taken s p offset)
    (hsub : s.completed ⊆ through) (hthrough : ∀ x ∈ through, x ∈ s.completed ∨ x = (p, offset))
    (hphase : PhaseOk S { s with
      phase := phase, delivered := s.delivered ++ [(p, offset)], completed := through } phase) :
    Inv S { s with
      phase := phase, delivered := s.delivered ++ [(p, offset)], completed := through } := by
  have hg := Grows.deliver S s (p, offset) phase hsub
  refine
    { limit := fun _ => hlimit
      known := ?_
      taken := ?_
      completed := ?_
      starts := h.starts
      stored := ?_
      order := ?_
      phase := hphase }
  · intro q offset' hmem
    rcases List.mem_append.mp hmem with hmem | hmem
    · exact h.known q offset' hmem
    · cases List.mem_singleton.mp hmem
      exact hp
  · intro q offset' hmem
    rcases List.mem_append.mp hmem with hmem | hmem
    · exact (h.taken q offset' hmem).grow hg
    · cases List.mem_singleton.mp hmem
      exact htaken.grow hg
  · intro x hx
    rcases hthrough x hx with hx | rfl
    · exact List.mem_append_left _ (h.completed x hx)
    · exact List.mem_append_right _ (List.mem_singleton_self _)
  · intro q offset' hq
    exact (h.stored q offset' hq).grow hg (Option.ne_none_iff_exists'.mpr ⟨offset', hq⟩)
  · intro i q offset' log hi hlog
    dsimp only at hi ⊢
    rcases get_concat hi with hi | ⟨rfl, heq⟩
    · have hlt := (List.getElem?_eq_some_iff.mp hi).1
      rw [List.take_append_of_le_length hlt.le]
      exact h.order_grow hg hi hlog
    · cases heq
      rw [List.take_left]
      obtain ⟨log', hlog', -, -, hpassed⟩ := hcleared
      have heq : some log = some log' := hlog.symm.trans hlog'
      cases heq
      exact hpassed.mono fun o ho => h.mem_delivered hlimit ho

theorem HandlerOk.put (h : HandlerOk S s handler) (hc : PartitionOk S s c) :
    HandlerOk S s { handler with partitions := handler.partitions.set i c } where
  limit := h.limit
  partitions := by
    intro c' hc'
    rcases List.mem_or_eq_of_mem_set hc' with hc' | rfl
    · exact h.partitions c' hc'
    · exact hc
  added := h.added

theorem Cleared.succ (h : Cleared S s p offset) (htaken : Taken s p offset)
    (hs : S.Settled s p offset) : Cleared S s p (offset + 1) := by
  obtain ⟨log, hlog, hstart, hnext, hpassed⟩ := h
  obtain ⟨log', hlog', hlt⟩ := htaken
  rw [hlog] at hlog'
  cases hlog'
  exact ⟨log, hlog, by omega, by omega, hpassed.succ fun r _ hr => hr ▸ hs⟩

theorem Inv.poll (h : Inv S s) (hhandler : HandlerOk S s handler) (hc : PartitionOk S s c)
    (hw : c.work = .polling) (hlog : s.logs[c.id]? = some log)
    (hs : S.poll s handler i c log ok = some s') : Inv S s' := by
  have hwork := hc.work
  rw [hw] at hwork
  obtain ⟨log', hlog', hstart, hnext, hpassed⟩ := hwork
  rw [hlog] at hlog'
  cases hlog'
  unfold Subscriber.poll at hs
  split at hs
  · cases hs
    exact h
  · split at hs
    · -- the offset is within the log
      rename_i hout
      omega
    · obtain ⟨r, hr, rfl⟩ := Option.map_eq_some_iff.mp hs
      have hin := log.within r (Log.mem_of_from? hr)
      refine h.withPhase (hhandler.put ⟨hc.key, hc.known, ?_⟩)
      exact ⟨Log.le_of_from? hr, ⟨log, hlog, hin.1, hin.2.le, hpassed.read hr⟩,
        ⟨log, hlog, hin.2⟩, Nat.zero_le _⟩

theorem Inv.send (h : Inv S s) (hhandler : HandlerOk S s handler) (hc : PartitionOk S s c)
    (hw : c.work = .delivering offset deliveries) :
    Inv S (S.deliver s handler i c offset deliveries ok) := by
  have hwork := hc.work
  rw [hw] at hwork
  obtain ⟨hle, hcleared, htaken, hn⟩ := hwork
  unfold Subscriber.deliver
  split
  · exact h.withPhase trivial
  · split
    · refine h.deliver hhandler.limit hc.known hcleared htaken (fun x hx => hx)
        (fun x hx => Or.inl hx) ?_
      have hg := Grows.deliver S s (c.id, offset)
        (.running { handler with
          partitions := handler.partitions.set i
            { c with work := .waiting offset (deliveries + 1) } }) (fun x hx => hx)
      refine (hhandler.grow hg).put ⟨hc.key, hc.known, ?_⟩
      refine ⟨hle, hcleared.grow hg hc.known, htaken.grow hg, ?_, ?_⟩
      · change deliveries + 1 ≤ (s.delivered ++ [(c.id, offset)]).count (c.id, offset)
        rw [List.count_append, List.count_singleton_self]
        omega
      · exact List.mem_append_right _ (List.mem_singleton_self _)
    · have hsub : s.completed ⊆ s.completed ++ [(c.id, offset)] := List.subset_append_left _ _
      refine h.deliver hhandler.limit hc.known hcleared htaken hsub ?_ ?_
      · intro x hx
        exact (List.mem_append.mp hx).imp id List.mem_singleton.mp
      · have hg := Grows.deliver S s (c.id, offset)
          (.running { handler with
            partitions := handler.partitions.set i { c with work := .storing offset } }) hsub
        refine (hhandler.grow hg).put ⟨hc.key, hc.known, hle, ?_⟩
        refine (hcleared.grow hg hc.known).succ (htaken.grow hg) ?_
        exact Or.inl (List.mem_append_right _ (List.mem_singleton_self _))

theorem Inv.settle (h : Inv S s) (hhandler : HandlerOk S s handler) (hc : PartitionOk S s c)
    (hw : c.work = .waiting offset deliveries) :
    Inv S (S.settle s handler i c offset deliveries ok) := by
  have hwork := hc.work
  rw [hw] at hwork
  obtain ⟨hle, hcleared, htaken, hn, hmem⟩ := hwork
  unfold Subscriber.settle
  split
  · have hg := Grows.complete S s (c.id, offset)
      (.running { handler with
        partitions := handler.partitions.set i { c with work := .storing offset } })
    refine h.grow hg rfl ?_ h.starts ?_ ?_
    · intro x hx
      rcases List.mem_append.mp hx with hx | hx
      · exact h.completed x hx
      · rw [List.mem_singleton.mp hx]
        exact hmem
    · intro q offset' hq
      exact (h.stored q offset' hq).grow hg (Option.ne_none_iff_exists'.mpr ⟨offset', hq⟩)
    · refine (hhandler.grow hg).put ⟨hc.key, hc.known, hle, ?_⟩
      refine (hcleared.grow hg hc.known).succ (htaken.grow hg) ?_
      exact Or.inl (List.mem_append_right _ (List.mem_singleton_self _))
  · split
    · rename_i hmax
      obtain ⟨max, hmax, hreached⟩ := (Option.any_eq_true _ _).mp hmax
      refine h.withPhase (hhandler.put ⟨hc.key, hc.known, hle, ?_⟩)
      exact hcleared.succ htaken
        (Or.inr ⟨max, hmax, (of_decide_eq_true hreached).trans hn⟩)
    · refine h.withPhase (hhandler.put ⟨hc.key, hc.known, ?_⟩)
      exact ⟨hle, hcleared, htaken, hn⟩

theorem Inv.consume (h : Inv S s) (hhandler : HandlerOk S s handler)
    (hi : handler.partitions[i]? = some c) (hs : S.consume s handler i ok c = some s') :
    Inv S s' := by
  have hc := hhandler.partitions c (List.mem_of_getElem? hi)
  unfold Subscriber.consume at hs
  cases hw : c.work with
  | polling =>
      rw [hw] at hs
      obtain ⟨log, hlog, hs⟩ := Option.bind_eq_some_iff.mp hs
      exact h.poll hhandler hc hw hlog hs
  | delivering offset deliveries =>
      rw [hw] at hs
      cases hs
      exact h.send hhandler hc hw
  | waiting offset deliveries =>
      rw [hw] at hs
      cases hs
      exact h.settle hhandler hc hw
  | storing offset =>
      rw [hw] at hs
      cases hs
      have hwork := hc.work
      rw [hw] at hwork
      have hg := Grows.store S s c.key (offset + 1)
        (.running { handler with
          partitions := handler.partitions.set i
            { c with nextOffset := offset + 1, work := .polling } })
      have hcleared := hwork.2.grow hg hc.known
      refine h.store hg rfl rfl ?_ (fun q hq => Or.inr hq) hcleared ?_
      · rw [← hc.key]
      · exact (hhandler.grow hg).put ⟨hc.key, hg.cache _ hc.known, hcleared⟩

/-- Before the earliest offset there is nothing to settle. -/
theorem cleared_start (hlog : s.logs[p]? = some log) : Cleared S s p log.start :=
  ⟨log, hlog, le_refl _, log.start_le, Log.Passed.of_forall_le fun r hr => (log.within r hr).1⟩

/-- `init` has an offset for one partition more. -/
theorem PhaseOk.found (hlimit : S.config.maxDeliver ≠ some 0)
    (hparts : ∀ c ∈ partitions, PartitionOk S s c) (hp : s.cache (S.key p) ≠ none)
    (hcleared : Cleared S s p offset) :
    PhaseOk S s (.starting rest (partitions ++ [⟨p, S.key p, offset, .polling⟩]) none) := by
  refine ⟨hlimit, ?_, ?_⟩
  · intro c hc
    rcases List.mem_append.mp hc with hc | hc
    · exact hparts c hc
    · cases List.mem_singleton.mp hc
      exact ⟨rfl, hp, hcleared⟩
  · intro q rest' offset' _ hpending
    cases hpending

/-- `init` stores the offset it resolved for a partition. -/
theorem Inv.resolved (h : Inv S s)
    (hphase : PhaseOk S s (.starting (p :: rest) partitions (some offset)))
    (hcareful : s.started = true → ∀ log, s.logs[p]? = some log → ∀ r ∈ log.records, offset ≤ r.1)
    (hs : S.initStep s (p :: rest) partitions (some offset) = some s') : Inv S s' := by
  obtain ⟨hlimit, hparts, hpending⟩ := hphase
  obtain ⟨hnone, log, hlog, hstart, hnext⟩ := hpending p rest offset rfl rfl
  cases hs
  set s' : State := { s with
    phase := .starting rest (partitions ++ [⟨p, S.key p, offset, .polling⟩]) none
    cache := Function.update s.cache (S.key p) (some offset)
    starts := if s.started then s.starts else Function.update s.starts p (some offset) } with hs'
  have hg : Grows S s s' :=
    { Grows.store S s (S.key p) offset s'.phase with
      starts := by
        intro q hq
        have hne : q ≠ p := by
          rintro rfl
          exact hq hnone
        change (if s.started then s.starts else Function.update s.starts p (some offset)) q = _
        split
        · rfl
        · exact Function.update_of_ne hne _ _ }
  have hcleared : Cleared S s' p offset := by
    refine ⟨log, hlog, hstart, hnext, ?_⟩
    cases hst : s.started with
    | true => exact Log.Passed.of_forall_le (hcareful hst log hlog)
    | false =>
        -- the offset is where the partition starts
        have howed : owedFrom s' p log = offset := by
          change ((if s.started then s.starts else Function.update s.starts p (some offset)) p).getD
            log.start = offset
          rw [hst, if_neg Bool.false_ne_true, Function.update_self]
          rfl
        rw [howed]
        exact Log.Passed.refl _ _ _
  have hp : s'.cache (S.key p) ≠ none := by
    change Function.update s.cache (S.key p) (some offset) (S.key p) ≠ none
    rw [Function.update_self]
    exact Option.some_ne_none _
  refine h.store hg rfl rfl rfl ?_ hcleared ?_
  · intro q hq
    rcases eq_or_ne q p with rfl | hne
    · exact Or.inl rfl
    · right
      change (if s.started then s.starts else Function.update s.starts p (some offset)) q ≠ _ at hq
      split at hq
      · exact hq
      · rwa [Function.update_of_ne hne] at hq
  · exact PhaseOk.found hlimit (fun c hc => (hparts c hc).grow hg) hp hcleared

theorem Inv.initStep (h : Inv S s) (hphase : s.phase = .starting rest partitions pending)
    (hcareful : Careful s .init) (hs : S.initStep s rest partitions pending = some s') :
    Inv S s' := by
  have hstarting := h.phase
  rw [hphase] at hstarting
  obtain ⟨hlimit, hparts, -⟩ := id hstarting
  cases rest with
  | nil =>
      cases hs
      have hhandler : HandlerOk S s ⟨partitions, none⟩ :=
        { limit := hlimit
          partitions := hparts
          added := by
            intro p rest earliest hadded
            cases hadded }
      exact h.withPhase hhandler
  | cons p rest =>
      cases pending with
      | none =>
          unfold Subscriber.initStep at hs
          dsimp only at hs
          cases hp : s.cache (S.key p) with
          | some offset =>
              rw [hp] at hs
              cases hs
              refine h.withPhase (PhaseOk.found hlimit hparts ?_ (h.stored p offset hp))
              rw [hp]
              exact Option.some_ne_none _
          | none =>
              rw [hp] at hs
              obtain ⟨log, hlog, rfl⟩ := Option.map_eq_some_iff.mp hs
              refine h.withPhase ⟨hlimit, hparts, ?_⟩
              intro q rest' offset hrest hoffset
              cases hrest
              cases hoffset
              have hin := le_resolveStartOffset log S.config.startOffset
              exact ⟨hp, log, hlog, hin.1, hin.2⟩
      | some offset =>
          exact h.resolved hstarting
            (fun hst log hlog => hcareful p rest partitions offset log hphase hst hlog) hs

theorem Inv.watchPartitions {earliest : Option Int} (h : Inv S s)
    (hhandler : HandlerOk S s ⟨partitions, some (rest, earliest)⟩)
    (hs : S.watchPartitions s ⟨partitions, some (rest, earliest)⟩ rest earliest = some s') :
    Inv S s' := by
  unfold Subscriber.watchPartitions at hs
  cases rest with
  | nil =>
      cases hs
      exact h.withPhase trivial
  | cons p rest =>
      cases earliest with
      | none =>
          obtain ⟨log, hlog, rfl⟩ := Option.map_eq_some_iff.mp hs
          have hhandler' : HandlerOk S s ⟨partitions, some (p :: rest, some log.start)⟩ :=
            { hhandler with
              added := by
                intro q rest' earliest hadded
                cases hadded
                exact ⟨log, hlog, rfl⟩ }
          exact h.withPhase hhandler'
      | some earliest =>
          cases hs
          obtain ⟨log, hlog, rfl⟩ := hhandler.added p rest earliest rfl
          have hg := Grows.store S s (S.key p) log.start (.running ⟨partitions, some (rest, none)⟩)
          refine h.store hg rfl rfl rfl (fun q hq => Or.inr hq) (cleared_start hlog) ?_
          exact
            { hhandler.grow hg with
              added := by
                intro q rest' earliest hadded
                cases hadded }

theorem maxDeliver_of_validate (h : S.config.validate = .ok ()) :
    S.config.maxDeliver ≠ some 0 := by
  unfold Subscribe.validate at h
  split at h
  · cases h
  · split at h
    · cases h
    · split at h
      · cases h
      · assumption

/-- The topic grows. -/
theorem Inv.topic (h : Inv S s) {logs : List (Log Int)} (hg : Grows S s { s with logs := logs }) :
    Inv S { s with logs := logs } := by
  refine h.grow hg rfl h.completed h.starts ?_ (h.phase.grow hg fun _ hp => hp)
  intro p offset hp
  exact (h.stored p offset hp).grow hg (Option.ne_none_iff_exists'.mpr ⟨offset, hp⟩)

theorem Inv.boot (h : Inv S s) (hvalid : S.config.validate = .ok ()) :
    Inv S { s with phase := .starting listed [] none } := by
  refine h.withPhase ⟨maxDeliver_of_validate hvalid, ?_, ?_⟩
  · intro c hc
    cases hc
  · intro p rest offset _ hpending
    cases hpending

/-- The handler turns to the partitions it does not know. -/
theorem Inv.refresh (h : Inv S s) (hhandler : HandlerOk S s handler) :
    Inv S { s with phase := .running { handler with added := some (rest, none) } } := by
  have hhandler' : HandlerOk S s { handler with added := some (rest, none) } :=
    { limit := hhandler.limit
      partitions := hhandler.partitions
      added := by
        intro p rest earliest hadded
        cases (Prod.mk.inj (Option.some.inj hadded)).2 }
  exact h.withPhase hhandler'

theorem Inv.step (h : Inv S s) (hcareful : Careful s a) (hs : S.step s a = some s') :
    Inv S s' := by
  have hphase := h.phase
  unfold Subscriber.step at hs
  cases a with
  | push p record =>
      obtain ⟨log, hlog, rfl⟩ := Option.map_eq_some_iff.mp hs
      exact h.topic (Grows.push S hlog)
  | addPartition =>
      cases hs
      exact h.topic (Grows.addPartition S s _)
  | boot listed =>
      dsimp only at hs
      split at hs
      · rename_i hvalid
        split at hs
        · cases hs
          exact h.boot hvalid
        · cases hs
      · cases hs
  | init =>
      dsimp only at hs
      split at hs
      · rename_i rest partitions pending hstarting
        exact h.initStep hstarting hcareful hs
      · cases hs
  | consume i ok =>
      dsimp only at hs
      split at hs
      · rename_i handler hrunning
        obtain ⟨c, hi, hs⟩ := Option.bind_eq_some_iff.mp hs
        rw [hrunning] at hphase
        exact h.consume hphase hi hs
      · cases hs
  | refresh listed =>
      dsimp only at hs
      split at hs
      · rename_i handler hrunning
        rw [hrunning] at hphase
        split at hs
        · split at hs
          · cases hs
            exact h
          · cases hs
            exact h.refresh hphase
        · cases hs
      · cases hs
  | watch =>
      dsimp only at hs
      split at hs
      · rename_i partitions rest earliest hrunning
        rw [hrunning] at hphase
        exact h.watchPartitions hphase hs
      · cases hs
  | stop =>
      cases hs
      exact h.withPhase trivial

theorem inv_fresh (h : S.Fresh s) : Inv S s := by
  obtain ⟨hcache, hphase, hdelivered, hcompleted, -, hstarts⟩ := h
  refine
    { limit := fun hne => absurd hdelivered hne
      known := ?_
      taken := ?_
      completed := ?_
      starts := fun p hp => absurd (hstarts p) hp
      stored := ?_
      order := ?_
      phase := ?_ }
  · intro p offset hmem
    rw [hdelivered] at hmem
    cases hmem
  · intro p offset hmem
    rw [hdelivered] at hmem
    cases hmem
  · intro x hx
    rw [hcompleted] at hx
    cases hx
  · intro p offset hp
    rw [hcache p] at hp
    cases hp
  · intro i p offset log hi
    rw [hdelivered] at hi
    cases hi
  · rw [hphase]
    trivial

/-- Where a record lies before `start_offset`, storing that skips the record. -/
theorem careful_of_neverSkips (h : Inv S s) (hs : S.step s a = some s') (hnever : S.NeverSkips s') :
    Careful s a := by
  cases a with
  | init =>
      intro p rest partitions offset log hphase hstarted hlog r hr
      have hstarting := h.phase
      rw [hphase] at hstarting
      obtain ⟨hlimit, -, hpending⟩ := hstarting
      obtain ⟨hnone, -⟩ := hpending p rest offset rfl rfl
      unfold Subscriber.step at hs
      dsimp only at hs
      rw [hphase] at hs
      cases hs
      by_contra hlt
      have hstored := hnever.stored p offset log (Function.update_self _ _ _) hlog
      have hsettled := hstored r hr ?_ (Int.not_le.mp hlt)
      · exact h.known p r.1 (h.mem_delivered hlimit hsettled) hnone
      · -- the partition has no start of its own, so that all of it is owed
        have hstarts : s.starts p = none := by
          by_contra hne
          exact h.starts p hne hnone
        unfold owedFrom
        rw [if_pos hstarted, hstarts]
        exact (log.within r hr).1
  | _ => trivial

/-- **No record is skipped.**  A run from a first start skips no record in any of
its states exactly when, after the first start, `init` gives `start_offset` only
to partitions without a record before it. -/
theorem never_skips_iff (h0 : S.machine.init s) :
    S.machine.RunThrough S.NeverSkips s as s' ↔ S.machine.RunOf Careful s as s' := by
  refine Machine.runThrough_iff (inv_fresh h0) ?_ ?_
  · intro s a t h hcareful hs
    have ht := h.step hcareful hs
    exact ⟨ht, ht.neverSkips⟩
  · intro s a t h hs hnever
    exact careful_of_neverSkips h hs hnever

end Invariant

/-! ### Runs -/

instance (s : State) : ∀ a, Decidable (Careful s a)
  | .init =>
      match hphase : s.phase with
      | .starting (p :: _) _ (some offset) =>
          decidable_of_iff
              (s.started = true → ∀ log ∈ s.logs[p]?, ∀ r ∈ log.records, offset ≤ r.1) <| by
            constructor
            · intro h q rest partitions offset' log hp hstarted hlog
              rw [hphase] at hp
              cases hp
              exact h hstarted log hlog
            · intro h hstarted log hlog
              exact h p _ _ offset log hphase hstarted hlog
      | .starting [] _ _ | .starting (_ :: _) _ none | .down | .running _ =>
          isTrue <| by
            intro q rest partitions offset log hp
            rw [hphase] at hp
            cases hp
  | .push _ _ | .addPartition | .boot _ | .consume _ _ | .refresh _ | .watch | .stop =>
      isTrue trivial

/-- A stored offset is past a record that is not settled. -/
def skips (S : Subscriber) (s : State) (p : Nat) : Bool :=
  match s.cache (S.key p), s.logs[p]? with
  | some offset, some log =>
      log.records.any fun r => owedFrom s p log ≤ r.1 ∧ r.1 < offset ∧ (p, r.1) ∉ s.completed ∧
        ¬ S.config.maxDeliver.any (· ≤ s.delivered.count (p, r.1))
  | _, _ => false

theorem not_neverSkips_of_skips {S : Subscriber} {s : State} {p : Nat}
    (h : S.skips s p = true) : ¬ S.NeverSkips s := by
  intro hnever
  unfold skips at h
  split at h
  · rename_i offset log hp hlog
    obtain ⟨r, hr, hskipped⟩ := List.any_eq_true.mp h
    obtain ⟨howed, hlt, hcompleted, hmax⟩ := of_decide_eq_true hskipped
    rcases hnever.stored p offset log hp hlog r hr howed hlt with hmem | ⟨max, hmax', hle⟩
    · exact hcompleted hmem
    · refine hmax ?_
      rw [hmax']
      exact decide_eq_true hle
  · cases h

end Subscriber

def sampleSubscriber : Subscriber where
  config := ⟨"localhost:9092", "orders", .latest, some 2⟩
  tx := true
  flowKey := "b3Jk"

/-- A topic of one partition. -/
def sampleTopic : State where
  logs := [(Log.empty 0).push (some 3)]
  cache _ := none
  phase := .down
  delivered := []
  completed := []
  started := false
  starts _ := none

/-- The first start. -/
def firstStart : List Act := [.boot [0], .init, .init, .init]

/-- A stop, and a start with two partitions. -/
def restart : List Act := [.stop, .boot [0, 1], .init, .init, .init]

theorem sampleTopic_fresh : sampleSubscriber.machine.init sampleTopic :=
  ⟨fun _ => rfl, rfl, rfl, rfl, rfl, fun _ => rfl⟩

/-- Partition 1 is added and its offset stored. -/
def watched : List Act :=
  [.addPartition, .push 1 (some 7), .push 1 none, .refresh [0, 1], .watch, .watch]

/-- The consumer of partition 1 goes on. -/
def consumes (answers : List Bool) : List Act := answers.map (.consume 1 ·)

/-- The record of an added partition is delivered, fails, is delivered again after a
restart and completed. -/
def redelivery : List Act :=
  firstStart ++ watched ++ restart ++ consumes [true, true, false] ++ restart ++
    consumes [true, true, true, true]

theorem never_skips_restarted :
    ∃ s, sampleSubscriber.machine.RunThrough sampleSubscriber.NeverSkips sampleTopic redelivery s ∧
      s.delivered = [(1, 0), (1, 0)] ∧ s.completed = [(1, 0)] ∧
      s.cache (sampleSubscriber.key 1) = some 1 := by
  have hrun : (sampleSubscriber.machine.exec Subscriber.Careful sampleTopic redelivery).any
      (fun s => s.delivered = [(1, 0), (1, 0)] ∧ s.completed = [(1, 0)] ∧
        s.cache (sampleSubscriber.key 1) = some 1) = true := by
    decide
  obtain ⟨s, hr, hs⟩ := Machine.exists_of_exec hrun
  exact ⟨s, (Subscriber.never_skips_iff sampleTopic_fresh).mpr hr, of_decide_eq_true hs⟩

/-- The subscriber is initialised again before it has looked for added partitions. -/
def unwatched : List Act :=
  [.boot [0], .init, .init, .init, .addPartition, .push 1 (some 7), .stop, .boot [0, 1], .init,
    .init, .init]

/-- It is initialised again between the stores of two added partitions. -/
def halfWatched : List Act :=
  [.boot [0], .init, .init, .init, .addPartition, .addPartition, .push 2 (some 7),
    .refresh [0, 1, 2], .watch, .watch, .stop, .boot [0, 1, 2], .init, .init, .init, .init]

/-- A run to a stored offset that is past a record of partition `p`. -/
theorem exists_skips {as : List Act} (p : Nat)
    (h : (sampleSubscriber.machine.exec (fun _ _ => True) sampleTopic as).any
      (fun s => sampleSubscriber.skips s p) = true) :
    ∃ s, sampleSubscriber.machine.Run sampleTopic as s ∧ ¬ sampleSubscriber.NeverSkips s := by
  obtain ⟨s, hr, hs⟩ := Machine.exists_of_exec h
  exact ⟨s, hr, Subscriber.not_neverSkips_of_skips hs⟩

/-- Either way the record of an added partition is skipped. -/
theorem skips_added :
    (∃ s, sampleSubscriber.machine.Run sampleTopic unwatched s ∧
      ¬ sampleSubscriber.NeverSkips s) ∧
    ∃ s, sampleSubscriber.machine.Run sampleTopic halfWatched s ∧
      ¬ sampleSubscriber.NeverSkips s := by
  constructor
  · exact exists_skips 1 (by decide)
  · exact exists_skips 2 (by decide)

end Flowgen.Kafka
