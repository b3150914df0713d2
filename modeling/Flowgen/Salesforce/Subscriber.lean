/-
# `Flowgen.Salesforce.Subscriber` — the Pub/Sub subscriber
(`salesforce/src/pubsubapi/subscriber.rs`)

A subscriber opens a stream on a topic and processes one batch of events after
the other.  Each event of a batch is sent through the flow by a task of its own;
when all of them have ended, the replay id of the last event is kept in the
cache, and the next stream begins behind it.

The tasks return without an error whether the flow has completed their event or
not, a batch that did end in an error does not hold up the next one, and a stream
that finds no replay id, because none is kept yet or the cache did not answer,
begins at `replay_preset`.  So the position moves past events no flow has
completed (`overtakes_failed`).  It does not as long as an id is stored only when all
events of the stream so far were completed, and a stream begins at the preset
only where no other event lies before it (`low_water_mark_iff`).

A replay id stands for the position of its event in the topic; the code never
looks into it.  The events of the topic stay, and no other task of the flow
reads the same topic.
-/
import Flowgen.Lib.Machine
import Flowgen.Lib.Slots
import Flowgen.Lib.Log

namespace Flowgen.Salesforce

open Flowgen.Lib

inductive ReplayPreset
  | latest
  | earliest

def ReplayPreset.toI32 : ReplayPreset → Nat
  | .latest => 0
  | .earliest => 1

structure DurableConsumerOptions where
  enabled : Bool
  managedSubscription : Bool
  replayPreset : ReplayPreset

structure FetchRequest where
  replayId : Option Int
  replayPreset : Nat

/-- Where Salesforce begins a stream; the records tell whether there is an event. -/
def FetchRequest.position (request : FetchRequest) (log : Log Bool) : Int :=
  match request.replayPreset, request.replayId with
  | 2, some replayId => replayId + 1
  | 1, _ => log.start
  | _, _ => log.next

def sanitizeTopicName (topicName : String) : String :=
  let trimmed := (topicName.toList.dropWhile (· == '/')).rdropWhile (· == '/')
  String.ofList (trimmed.map fun c => if c = '/' then '-' else c)

/-- How far the task of an event is. -/
inductive Status
  | spawned
  /-- The event was sent; waits for its completion. -/
  | waiting
  | returned
  | erred
deriving DecidableEq

structure EventTask where
  position : Int
  status : Status
deriving DecidableEq

inductive Phase
  | down
  /-- With the replay id found in the cache. -/
  | subscribing (found : Option Int)
  | streaming (position : Int)
  | processing (lastReplayId : Int) (tasks : List EventTask)
deriving DecidableEq

structure State where
  log : Log Bool
  cache : String → Option Int
  cancelled : Bool
  phase : Phase
  /-- The events the flow has completed. -/
  completed : List Int
  /-- The events received on the current stream. -/
  received : List Int
  /-- Where the first stream began. -/
  origin : Option Int
  /-- Where the last stream began. -/
  resumed : Option Int

/-- What becomes of a subscription. -/
inductive Subscribed
  /-- `position` is where a managed subscription stands. -/
  | accepted (position : Int)
  /-- The replay id is refused; whether the cache lets it be deleted. -/
  | invalid (cacheOk : Bool)
  | failed
deriving DecidableEq

/-- What becomes of a task's step: the event is sent, or completed; it is not, or
not in time; or the task panics. -/
inductive Answer
  | ok
  | failed
  | panicked
deriving DecidableEq

inductive Act
  | publish (record : Option Bool)
  | connect (cacheOk : Bool)
  | subscribe (answer : Subscribed)
  /-- A batch of at most so many events comes. -/
  | receive (n : Nat)
  | task (i : Nat) (answer : Answer)
  /-- All tasks of the batch have ended. -/
  | finish (cacheOk : Bool)
  /-- The stream fails or ends, or the handler is dropped. -/
  | lost
  | cancel
  /-- The process is started again. -/
  | restart
deriving DecidableEq

structure Subscriber where
  topicName : String
  durableConsumerOptions : Option DurableConsumerOptions
  flowKey : String

namespace Subscriber

variable (S : Subscriber)

def cacheKey : String := "flow." ++ S.flowKey ++ ".replay_id." ++ sanitizeTopicName S.topicName

/-- The subscription is Salesforce's to keep. -/
def managed : Bool := S.durableConsumerOptions.any fun opts =>
  opts.enabled && opts.managedSubscription

/-- The position is kept in the cache. -/
def durable : Option DurableConsumerOptions := S.durableConsumerOptions.filter fun opts =>
  opts.enabled && !opts.managedSubscription

def fetchRequest (cachedReplayId : Option Int) : FetchRequest :=
  match S.durable, cachedReplayId with
  | none, _ => ⟨none, 0⟩
  | some _, some replayId => ⟨some replayId, 2⟩
  | some opts, none => ⟨none, opts.replayPreset.toI32⟩

/-- A failing read counts as nothing found. -/
def cachedReplayId (s : State) (cacheOk : Bool) : Option Int :=
  if S.durable.isSome && cacheOk then s.cache S.cacheKey else none

def subscribe (s : State) (found : Option Int) : Subscribed → State
  | .accepted position =>
      let begin := if S.managed then position else (S.fetchRequest found).position s.log
      if S.durable.isSome then
        { s with
          phase := .streaming begin
          received := []
          origin := some (s.origin.getD begin)
          resumed := some begin }
      else { s with phase := .streaming begin, received := [] }
  | .invalid cacheOk =>
      if found.isSome && cacheOk then
        { s with phase := .down, cache := Function.update s.cache S.cacheKey none }
      else { s with phase := .down }
  | .failed => { s with phase := .down }

/-- `process_events`: spawns a task for each event of the batch. -/
def receive (s : State) (position : Int) (n : Nat) : State :=
  let batch := s.log.batch n position
  match batch.getLast? with
  | none => s
  | some last =>
      let events := (batch.filter fun ce => ce.2).map Prod.fst
      { s with
        phase := .processing last.1 (events.map fun ce => ⟨ce, .spawned⟩)
        received := s.received ++ events }

/-- The next step of an event's task.  A failed completion is only logged. -/
def advance (s : State) (last : Int) (tasks : List EventTask) (i : Nat) (answer : Answer)
    (t : EventTask) : Option State :=
  let become := fun status => { s with phase := .processing last (tasks.set i { t with status }) }
  match t.status, answer with
  | .spawned, .ok => some (become (if s.cancelled then .returned else .waiting))
  | .spawned, .failed => some (become (if s.cancelled then .returned else .erred))
  | .waiting, .ok => some { become .returned with completed := s.completed ++ [t.position] }
  | .waiting, .failed => some (become .returned)
  | .spawned, .panicked | .waiting, .panicked => some (become .erred)
  | .returned, _ | .erred, _ => none

def Ended (t : EventTask) : Prop := t.status = .returned ∨ t.status = .erred

instance (t : EventTask) : Decidable (Ended t) := inferInstanceAs (Decidable (_ ∨ _))

/-- The replay id of the batch is put into the cache. -/
def stores (s : State) (tasks : List EventTask) (cacheOk : Bool) : Bool :=
  let allSucceeded := tasks.all fun t => t.status != .erred
  allSucceeded && !s.cancelled && S.durable.isSome && cacheOk

def finish (s : State) (last : Int) (tasks : List EventTask) (cacheOk : Bool) : State :=
  let phase := if s.cancelled then .down else .streaming (last + 1)
  if S.stores s tasks cacheOk then
    { s with phase := phase, cache := Function.update s.cache S.cacheKey (some last) }
  else { s with phase := phase }

def step (s : State) : Act → Option State
  | .publish record => some { s with log := s.log.push record }
  | .connect cacheOk =>
      if s.phase = .down ∧ s.cancelled = false then
        some { s with phase := .subscribing (S.cachedReplayId s cacheOk) }
      else none
  | .subscribe answer =>
      match s.phase with
      | .subscribing found => some (S.subscribe s found answer)
      | _ => none
  | .receive n =>
      match s.phase with
      | .streaming position =>
          some (if s.cancelled then { s with phase := .down } else receive s position n)
      | _ => none
  | .task i answer =>
      match s.phase with
      | .processing last tasks => tasks[i]?.bind (advance s last tasks i answer)
      | _ => none
  | .finish cacheOk =>
      match s.phase with
      | .processing last tasks =>
          if ∀ t ∈ tasks, Ended t then some (S.finish s last tasks cacheOk) else none
      | _ => none
  | .lost => some { s with phase := .down }
  | .cancel => some { s with cancelled := true }
  | .restart => some { s with phase := .down, cancelled := false }

/-- Before the first stream. -/
def Fresh (s : State) : Prop :=
  s.cache S.cacheKey = none ∧ s.phase = .down ∧ s.origin = none ∧ s.resumed = none

def machine : Machine State Act where
  init := S.Fresh
  step := S.step

/-! ## What is promised -/

/-- There is no event, or the flow has completed it. -/
def Completed (s : State) (ce : Int × Bool) : Prop := ce.2 = true → ce.1 ∈ s.completed

/-- The replay id in the cache, and the position a stream has begun at, are past
completed events only, from where the first stream began. -/
structure LowWaterMark (s : State) : Prop where
  stored : ∀ replayId origin, s.cache S.cacheKey = some replayId → s.origin = some origin →
    s.log.Passed (Completed s) origin (replayId + 1)
  resumed : ∀ begin origin, s.resumed = some begin → s.origin = some origin →
    s.log.Passed (Completed s) origin begin

/-- A replay id is stored only if every event of the stream so far was completed;
and a stream that is not the first begins at the preset only if every event
before it was. -/
def Careful (s : State) : Act → Prop
  | .finish cacheOk => ∀ last tasks, s.phase = .processing last tasks →
      S.stores s tasks cacheOk = true → ∀ x ∈ s.received, x ∈ s.completed
  | .subscribe (.accepted _) => S.durable.isSome = true → s.phase = .subscribing none →
      ∀ origin, s.origin = some origin →
        s.log.Passed (Completed s) origin ((S.fetchRequest none).position s.log)
  | _ => True

/-! ## What is known of a state -/

section Invariant

variable {S : Subscriber} {s s' : State} {found : Option Int} {position origin last : Int}
  {tasks : List EventTask} {t : EventTask} {i n : Nat} {answer : Answer} {cacheOk : Bool}
  {subscribed : Subscribed} {a : Act} {as : List Act}

/-- A position of the log, not before the origin, with completed events only
between the two. -/
structure Reached (s : State) (position : Int) : Prop where
  within : position ≤ s.log.next
  passed : ∃ origin, s.origin = some origin ∧ origin ≤ position ∧
    s.log.Passed (Completed s) origin position

/-- What a stream at a position has received: the events that are not completed
are among those. -/
structure Reads (s : State) (position : Int) : Prop where
  within : position ≤ s.log.next
  passed : ∃ origin, s.origin = some origin ∧ origin ≤ position ∧
    s.log.Passed (fun ce => Completed s ce ∨ ce.1 ∈ s.received) origin position ∧
    ∀ x ∈ s.received, origin ≤ x ∧ x < position ∧ (x, true) ∈ s.log.records

def PhaseOk (S : Subscriber) (s : State) : Phase → Prop
  | .down => True
  | .subscribing found => ∀ replayId, found = some replayId →
      S.durable.isSome = true ∧ s.cache S.cacheKey = some replayId
  | .streaming position => S.durable.isSome = true → Reads s position
  | .processing last _ => S.durable.isSome = true → Reads s (last + 1)

structure Inv (S : Subscriber) (s : State) : Prop where
  origin : ∀ origin, s.origin = some origin → origin ≤ (S.fetchRequest none).position s.log
  stored : ∀ replayId, s.cache S.cacheKey = some replayId → Reached s (replayId + 1)
  resumed : ∀ begin, s.resumed = some begin → Reached s begin
  phase : PhaseOk S s s.phase

theorem Inv.lowWaterMark (h : Inv S s) : S.LowWaterMark s where
  stored := by
    intro replayId origin hcache horigin
    obtain ⟨origin', horigin', -, hpassed⟩ := (h.stored replayId hcache).passed
    cases horigin.symm.trans horigin'
    exact hpassed
  resumed := by
    intro begin origin hbegin horigin
    obtain ⟨origin', horigin', -, hpassed⟩ := (h.resumed begin hbegin).passed
    cases horigin.symm.trans horigin'
    exact hpassed

/-! ### What stays -/

/-- Nothing is taken back. -/
structure Grows (s s' : State) : Prop where
  log : s.log.Extends s'.log
  completed : s.completed ⊆ s'.completed
  origin : s'.origin = s.origin

theorem Grows.refl (s : State) : Grows s s := ⟨.refl _, fun _ hx => hx, rfl⟩

theorem Reached.grow (h : Reached s position) (hg : Grows s s') : Reached s' position := by
  obtain ⟨origin, horigin, hle, hpassed⟩ := h.passed
  refine ⟨h.within.trans hg.log.next, origin, hg.origin.trans horigin, hle, ?_⟩
  refine Log.Passed.extend ?_ hg.log h.within
  exact hpassed.mono fun ce hce hevent => hg.completed (hce hevent)

theorem Reads.grow (h : Reads s position) (hg : Grows s s') (hreceived : s'.received = s.received)
    (hmem : ∀ ce ∈ s.log.records, ce ∈ s'.log.records) : Reads s' position := by
  obtain ⟨origin, horigin, hle, hpassed, hreads⟩ := h.passed
  refine ⟨h.within.trans hg.log.next, origin, hg.origin.trans horigin, hle, ?_, ?_⟩
  · rw [hreceived]
    refine Log.Passed.extend ?_ hg.log h.within
    exact hpassed.mono fun ce hce => hce.imp (fun hdone hevent => hg.completed (hdone hevent)) id
  · intro x hx
    rw [hreceived] at hx
    obtain ⟨horigin, hlt, hrecord⟩ := hreads x hx
    exact ⟨horigin, hlt, hmem _ hrecord⟩

/-- A stream begins at a position that was reached. -/
theorem Reached.reads (h : Reached s position) (hreceived : s.received = []) :
    Reads s position := by
  obtain ⟨origin, horigin, hle, hpassed⟩ := h.passed
  refine ⟨h.within, origin, horigin, hle, hpassed.mono fun ce hce => Or.inl hce, ?_⟩
  intro x hx
  rw [hreceived] at hx
  cases hx

/-- A position is reached if all events of the stream were completed. -/
theorem Reads.reached (h : Reads s position) (hdone : ∀ x ∈ s.received, x ∈ s.completed) :
    Reached s position := by
  obtain ⟨origin, horigin, hle, hpassed, -⟩ := h.passed
  refine ⟨h.within, origin, horigin, hle, hpassed.mono ?_⟩
  intro ce hce
  rcases hce with hce | hmem
  · exact hce
  · exact fun _ => hdone _ hmem

/-- And only then. -/
theorem Reads.completed (h : Reads s position) (hreached : Reached s position) :
    ∀ x ∈ s.received, x ∈ s.completed := by
  obtain ⟨origin, horigin, -, -, hreads⟩ := h.passed
  obtain ⟨origin', horigin', -, hpassed⟩ := hreached.passed
  cases horigin.symm.trans horigin'
  intro x hx
  obtain ⟨hle, hlt, hrecord⟩ := hreads x hx
  exact hpassed (x, true) hrecord hle hlt rfl

/-- A stream without a replay id begins at one of the ends of the topic. -/
theorem preset_position (S : Subscriber) :
    (∀ log, (S.fetchRequest none).position log = log.next) ∨
      ∀ log, (S.fetchRequest none).position log = log.start := by
  unfold fetchRequest
  cases S.durable with
  | none => exact Or.inl fun _ => rfl
  | some opts =>
      cases hpreset : opts.replayPreset with
      | latest =>
          left
          intro log
          dsimp only
          rw [hpreset]
          rfl
      | earliest =>
          right
          intro log
          dsimp only
          rw [hpreset]
          rfl

theorem preset_mono (S : Subscriber) {log log' : Log Bool} (h : log.Extends log') :
    (S.fetchRequest none).position log ≤ (S.fetchRequest none).position log' := by
  rcases preset_position S with hpos | hpos
  · rw [hpos, hpos]
    exact h.next
  · rw [hpos, hpos]
    exact h.start.ge

theorem preset_le (S : Subscriber) (log : Log Bool) :
    (S.fetchRequest none).position log ≤ log.next := by
  rcases preset_position S with hpos | hpos
  · rw [hpos]
  · rw [hpos]
    exact log.start_le

/-! ### One step -/

/-- A step that stores nothing and begins no stream. -/
theorem Inv.grow (h : Inv S s) (hg : Grows s s') (hcache : s'.cache = s.cache)
    (hresumed : s'.resumed = s.resumed) (hphase : PhaseOk S s' s'.phase) : Inv S s' where
  origin := by
    intro origin horigin
    rw [hg.origin] at horigin
    exact (h.origin origin horigin).trans (preset_mono S hg.log)
  stored := by
    intro replayId hreplayId
    rw [hcache] at hreplayId
    exact (h.stored replayId hreplayId).grow hg
  resumed := by
    intro begin hbegin
    rw [hresumed] at hbegin
    exact (h.resumed begin hbegin).grow hg
  phase := hphase

theorem PhaseOk.grow {phase : Phase} (h : PhaseOk S s phase) (hg : Grows s s')
    (hcache : s'.cache = s.cache) (hreceived : s'.received = s.received)
    (hmem : ∀ ce ∈ s.log.records, ce ∈ s'.log.records) : PhaseOk S s' phase := by
  cases phase with
  | down => trivial
  | subscribing found =>
      intro replayId hfound
      rw [hcache]
      exact h replayId hfound
  | streaming position => exact fun hdurable => (h hdurable).grow hg hreceived hmem
  | processing last tasks => exact fun hdurable => (h hdurable).grow hg hreceived hmem

theorem Inv.down (h : Inv S s) {cancelled : Bool} :
    Inv S { s with phase := .down, cancelled := cancelled } :=
  h.grow ⟨.refl _, fun _ hx => hx, rfl⟩ rfl rfl trivial

theorem Inv.publish (h : Inv S s) (record : Option Bool) :
    Inv S { s with log := s.log.push record } := by
  have hg : Grows s { s with log := s.log.push record } :=
    ⟨Log.extends_push s.log record, fun _ hx => hx, rfl⟩
  refine h.grow hg rfl rfl (h.phase.grow hg rfl rfl ?_)
  intro ce hce
  exact List.mem_append_left _ hce

/-- Where a stream begins was reached before, or it is the first one. -/
theorem Inv.begins (h : Inv S s) (hdurable : S.durable.isSome = true)
    (hphase : s.phase = .subscribing found)
    (hcareful : found = none → ∀ origin, s.origin = some origin →
      s.log.Passed (Completed s) origin ((S.fetchRequest none).position s.log)) :
    s.origin = none ∧ found = none ∨ Reached s ((S.fetchRequest found).position s.log) := by
  cases found with
  | some replayId =>
      right
      have hfound := h.phase
      rw [hphase] at hfound
      have hreached := h.stored replayId (hfound replayId rfl).2
      have hrequest : (S.fetchRequest (some replayId)).position s.log = replayId + 1 := by
        unfold fetchRequest
        obtain ⟨opts, hopts⟩ := Option.isSome_iff_exists.mp hdurable
        rw [hopts]
        rfl
      rw [hrequest]
      exact hreached
  | none =>
      cases horigin : s.origin with
      | none => exact Or.inl ⟨rfl, rfl⟩
      | some origin =>
          right
          exact ⟨preset_le S s.log, origin, horigin, h.origin origin horigin,
            hcareful rfl origin horigin⟩

theorem managed_of_durable (h : S.durable.isSome = true) : S.managed = false := by
  obtain ⟨opts, hopts⟩ := Option.isSome_iff_exists.mp h
  obtain ⟨hsome, hkeeps⟩ := Option.filter_eq_some_iff.mp hopts
  unfold managed
  rw [hsome]
  change (opts.enabled && opts.managedSubscription) = false
  cases hm : opts.managedSubscription with
  | false => exact Bool.and_false _
  | true =>
      rw [hm, Bool.not_true, Bool.and_false] at hkeeps
      cases hkeeps

/-- A stream begins at `begin`, which is the origin if it is the first one. -/
theorem Inv.begin (h : Inv S s) {begin : Int} (hle : begin ≤ s.log.next)
    (hbegin : (s.origin = none ∧ begin = (S.fetchRequest none).position s.log) ∨ Reached s begin) :
    Inv S { s with
      phase := .streaming begin, received := [], origin := some (s.origin.getD begin)
      resumed := some begin } := by
  set s' : State := { s with
    phase := .streaming begin, received := [], origin := some (s.origin.getD begin)
    resumed := some begin } with hs'
  rcases hbegin with ⟨hnone, hpreset⟩ | hreached
  · have horigin' : s'.origin = some begin := by
      change some (s.origin.getD begin) = some begin
      rw [hnone]
      rfl
    have hreached : Reached s' begin :=
      ⟨hle, begin, horigin', le_refl _, Log.Passed.refl _ _ _⟩
    refine ⟨?_, ?_, ?_, fun _ => hreached.reads rfl⟩
    · intro origin horigin
      cases horigin'.symm.trans horigin
      exact hpreset.le
    · intro replayId hreplayId
      obtain ⟨origin, horigin, -⟩ := (h.stored replayId hreplayId).passed
      cases hnone.symm.trans horigin
    · intro begin' hbegin'
      cases hbegin'
      exact hreached
  · have hg : Grows s s' := by
      refine ⟨.refl _, fun _ hx => hx, ?_⟩
      obtain ⟨origin, horigin, -⟩ := hreached.passed
      change some (s.origin.getD begin) = s.origin
      rw [horigin]
      rfl
    refine ⟨?_, ?_, ?_, fun _ => (hreached.grow hg).reads rfl⟩
    · intro origin horigin
      exact h.origin origin (hg.origin.symm.trans horigin)
    · intro replayId hreplayId
      exact (h.stored replayId hreplayId).grow hg
    · intro begin' hbegin'
      cases hbegin'
      exact hreached.grow hg

theorem Inv.accepted (h : Inv S s) (hphase : s.phase = .subscribing found)
    (hcareful : Careful S s (.subscribe (.accepted position))) :
    Inv S (S.subscribe s found (.accepted position)) := by
  unfold Subscriber.subscribe
  dsimp only
  split
  · rename_i hdurable
    rw [managed_of_durable hdurable, if_neg Bool.false_ne_true]
    have hpreset : found = none → ∀ origin, s.origin = some origin →
        s.log.Passed (Completed s) origin ((S.fetchRequest none).position s.log) := by
      rintro rfl
      exact hcareful hdurable hphase
    rcases h.begins hdurable hphase hpreset with ⟨hnone, rfl⟩ | hreached
    · exact h.begin (preset_le S s.log) (Or.inl ⟨hnone, rfl⟩)
    · exact h.begin hreached.within (Or.inr hreached)
  · rename_i hdurable
    refine h.grow ⟨.refl _, fun _ hx => hx, rfl⟩ rfl rfl ?_
    intro hdurable'
    exact absurd hdurable' hdurable

theorem Inv.subscribe (h : Inv S s) (hphase : s.phase = .subscribing found)
    (hcareful : Careful S s (.subscribe subscribed)) :
    Inv S (S.subscribe s found subscribed) := by
  cases subscribed with
  | accepted position => exact h.accepted hphase hcareful
  | invalid cacheOk =>
      unfold Subscriber.subscribe
      dsimp only
      split
      · have hg : Grows s { s with
            phase := .down, cache := Function.update s.cache S.cacheKey none } :=
          ⟨.refl _, fun _ hx => hx, rfl⟩
        refine ⟨h.origin, ?_, fun begin hbegin => (h.resumed begin hbegin).grow hg, trivial⟩
        intro replayId hreplayId
        change Function.update s.cache S.cacheKey none S.cacheKey = some replayId at hreplayId
        rw [Function.update_self] at hreplayId
        cases hreplayId
      · exact h.down
  | failed => exact h.down

theorem Inv.receive (h : Inv S s) (hphase : s.phase = .streaming position) :
    Inv S (receive s position n) := by
  unfold Subscriber.receive
  dsimp only
  split
  · exact h
  · rename_i last hlast
    refine h.grow ⟨.refl _, fun _ hx => hx, rfl⟩ rfl rfl ?_
    intro hdurable
    have hreads := h.phase
    rw [hphase] at hreads
    obtain ⟨hwithin, origin, horigin, hle, hpassed, hreceived⟩ := hreads hdurable
    have hlastmem := Log.mem_of_batch (List.mem_of_getLast? hlast)
    have hlastle := (s.log.within last hlastmem.1).2
    refine ⟨by dsimp only; omega, origin, horigin, by have := hlastmem.2; omega, ?_, ?_⟩
    · refine Log.Passed.batch (b := position) (n := n) ?_ hlast ?_
      · exact hpassed.mono fun ce hce => hce.imp id fun hmem => List.mem_append_left _ hmem
      · intro ce hce
        cases hevent : ce.2 with
        | false =>
            left
            intro hevent'
            rw [hevent] at hevent'
            cases hevent'
        | true =>
            right
            refine List.mem_append_right _ (List.mem_map_of_mem ?_)
            exact List.mem_filter.mpr ⟨hce, hevent⟩
    · intro x hx
      rcases List.mem_append.mp hx with hx | hx
      · obtain ⟨horigin, hlt, hrecord⟩ := hreceived x hx
        have := hlastmem.2
        exact ⟨horigin, by omega, hrecord⟩
      · obtain ⟨ce, hce, rfl⟩ := List.mem_map.mp hx
        obtain ⟨hce, hevent⟩ := List.mem_filter.mp hce
        have hmem := Log.mem_of_batch hce
        have hlelast := Log.le_getLast_of_batch hlast hce
        refine ⟨hle.trans hmem.2, by omega, ?_⟩
        rw [← hevent]
        exact hmem.1

theorem Inv.advance (h : Inv S s) (hphase : s.phase = .processing last tasks)
    (hs : advance s last tasks i answer t = some s') : Inv S s' := by
  have hreads := h.phase
  rw [hphase] at hreads
  have hmove : ∀ tasks', Inv S { s with phase := .processing last tasks' } := by
    intro tasks'
    exact h.grow ⟨.refl _, fun _ hx => hx, rfl⟩ rfl rfl
      (PhaseOk.grow hreads ⟨.refl _, fun _ hx => hx, rfl⟩ rfl rfl fun _ hce => hce)
  unfold Subscriber.advance at hs
  dsimp only at hs
  split at hs
  · cases hs
    exact hmove _
  · cases hs
    exact hmove _
  · cases hs
    refine h.grow ⟨.refl _, List.subset_append_left _ _, rfl⟩ rfl rfl ?_
    intro hdurable
    exact (hreads hdurable).grow ⟨.refl _, List.subset_append_left _ _, rfl⟩ rfl fun _ hce => hce
  · cases hs
    exact hmove _
  · cases hs
    exact hmove _
  · cases hs
    exact hmove _
  · cases hs
  · cases hs

theorem stores_durable (h : S.stores s tasks cacheOk = true) :
    S.durable.isSome = true := by
  unfold stores at h
  exact (Bool.and_eq_true_iff.mp (Bool.and_eq_true_iff.mp h).1).2

theorem Inv.finish (h : Inv S s) (hphase : s.phase = .processing last tasks)
    (hcareful : Careful S s (.finish cacheOk)) : Inv S (S.finish s last tasks cacheOk) := by
  have hreads := h.phase
  rw [hphase] at hreads
  unfold Subscriber.finish
  dsimp only
  split
  · rename_i hstores
    have hreads := hreads (stores_durable hstores)
    have hreached := hreads.reached (hcareful last tasks hphase hstores)
    set s' : State := { s with
      phase := if s.cancelled then .down else .streaming (last + 1)
      cache := Function.update s.cache S.cacheKey (some last) } with hs'
    have hg : Grows s s' := ⟨.refl _, fun _ hx => hx, rfl⟩
    refine ⟨h.origin, ?_, fun begin hbegin => (h.resumed begin hbegin).grow hg, ?_⟩
    · intro replayId hreplayId
      change Function.update s.cache S.cacheKey (some last) S.cacheKey = some replayId at hreplayId
      rw [Function.update_self] at hreplayId
      cases hreplayId
      exact hreached.grow hg
    · change PhaseOk S s' (if s.cancelled then .down else .streaming (last + 1))
      split
      · trivial
      · exact fun _ => hreads.grow hg rfl fun _ hce => hce
  · refine h.grow ⟨.refl _, fun _ hx => hx, rfl⟩ rfl rfl ?_
    dsimp only
    split
    · trivial
    · exact fun hdurable =>
        (hreads hdurable).grow ⟨.refl _, fun _ hx => hx, rfl⟩ rfl fun _ hce => hce

theorem Inv.step (h : Inv S s) (hcareful : Careful S s a) (hs : S.step s a = some s') :
    Inv S s' := by
  unfold Subscriber.step at hs
  cases a with
  | publish record =>
      cases hs
      exact h.publish record
  | connect cacheOk =>
      dsimp only at hs
      split at hs
      · cases hs
        refine h.grow ⟨.refl _, fun _ hx => hx, rfl⟩ rfl rfl ?_
        intro replayId hfound
        unfold cachedReplayId at hfound
        split at hfound
        · rename_i hread
          exact ⟨(Bool.and_eq_true_iff.mp hread).1, hfound⟩
        · cases hfound
      · cases hs
  | subscribe subscribed =>
      dsimp only at hs
      split at hs
      · rename_i found hphase
        cases hs
        exact h.subscribe hphase hcareful
      · cases hs
  | receive n =>
      dsimp only at hs
      split at hs
      · rename_i position hphase
        split at hs
        · cases hs
          exact h.down
        · cases hs
          exact h.receive hphase
      · cases hs
  | task i answer =>
      dsimp only at hs
      split at hs
      · rename_i last tasks hphase
        obtain ⟨t, -, hs⟩ := Option.bind_eq_some_iff.mp hs
        exact h.advance hphase hs
      · cases hs
  | finish cacheOk =>
      dsimp only at hs
      split at hs
      · rename_i last tasks hphase
        split at hs
        · cases hs
          exact h.finish hphase hcareful
        · cases hs
      · cases hs
  | lost =>
      cases hs
      exact h.down
  | cancel =>
      cases hs
      exact h.grow ⟨.refl _, fun _ hx => hx, rfl⟩ rfl rfl
        (h.phase.grow ⟨.refl _, fun _ hx => hx, rfl⟩ rfl rfl fun _ hce => hce)
  | restart =>
      cases hs
      exact h.down

theorem inv_fresh (h : S.Fresh s) : Inv S s := by
  obtain ⟨hcache, hphase, horigin, hresumed⟩ := h
  refine ⟨?_, ?_, ?_, ?_⟩
  · intro origin ho
    cases horigin.symm.trans ho
  · intro replayId hr
    cases hcache.symm.trans hr
  · intro begin hb
    cases hresumed.symm.trans hb
  · rw [hphase]
    trivial

/-- A step that leaves the mark behind completed events only was a careful one. -/
theorem careful_of_lowWaterMark (h : Inv S s) (hs : S.step s a = some s')
    (hmark : S.LowWaterMark s') : Careful S s a := by
  unfold Subscriber.step at hs
  cases a with
  | finish cacheOk =>
      intro last tasks hphase hstores
      dsimp only at hs
      rw [hphase] at hs
      dsimp only at hs
      split at hs
      · cases hs
        have hreads := h.phase
        rw [hphase] at hreads
        have hreads := hreads (stores_durable hstores)
        refine hreads.completed ⟨hreads.within, ?_⟩
        obtain ⟨origin, horigin, hle, -⟩ := hreads.passed
        have hpassed := hmark.stored last origin
        unfold Subscriber.finish at hpassed
        dsimp only at hpassed
        rw [if_pos hstores] at hpassed
        exact ⟨origin, horigin, hle, hpassed (Function.update_self _ _ _) horigin⟩
      · cases hs
  | subscribe subscribed =>
      cases subscribed with
      | accepted position =>
          intro hdurable hphase origin horigin
          dsimp only at hs
          rw [hphase] at hs
          cases hs
          have hpassed := hmark.resumed ((S.fetchRequest none).position s.log) origin
          unfold Subscriber.subscribe at hpassed
          dsimp only at hpassed
          rw [if_pos hdurable, managed_of_durable hdurable, if_neg Bool.false_ne_true,
            horigin] at hpassed
          exact hpassed rfl rfl
      | _ => trivial
  | _ => trivial

/-- **The low-water mark.**  In all states of a run the replay id in the cache and
the position a stream began at are past completed events only, exactly when each
step that stores an id has all events of its stream completed, and each stream
but the first that begins at the preset has all events before it completed. -/
theorem low_water_mark_iff (h0 : S.machine.init s) :
    S.machine.RunThrough S.LowWaterMark s as s' ↔ S.machine.RunOf (Careful S) s as s' := by
  refine Machine.runThrough_iff (inv_fresh h0) ?_ ?_
  · intro s a t h hcareful hs
    have ht := h.step hcareful hs
    exact ⟨ht, ht.lowWaterMark⟩
  · intro s a t h hs hmark
    exact careful_of_lowWaterMark h hs hmark

end Invariant

/-! ### Runs -/

instance (s : State) : DecidablePred (Completed s) := fun ce =>
  inferInstanceAs (Decidable (ce.2 = true → ce.1 ∈ s.completed))

instance (S : Subscriber) (s : State) : ∀ a, Decidable (Careful S s a)
  | .finish cacheOk =>
      match hphase : s.phase with
      | .processing last tasks =>
          decidable_of_iff
              (S.stores s tasks cacheOk = true → ∀ x ∈ s.received, x ∈ s.completed) <| by
            constructor
            · intro h last' tasks' hp
              rw [hphase] at hp
              cases hp
              exact h
            · intro h
              exact h last tasks hphase
      | .down | .subscribing _ | .streaming _ =>
          isTrue <| by
            intro last tasks hp
            rw [hphase] at hp
            cases hp
  | .subscribe (.accepted _) =>
      decidable_of_iff (S.durable.isSome = true → s.phase = .subscribing none →
        ∀ origin ∈ s.origin,
          s.log.Passed (Completed s) origin ((S.fetchRequest none).position s.log)) Iff.rfl
  | .subscribe (.invalid _) | .subscribe .failed | .publish _ | .connect _ | .receive _
  | .task _ _ | .lost | .cancel | .restart => isTrue trivial

/-- An event that is not completed lies before the id in the cache, or before the
position the stream began at. -/
def overtakes (S : Subscriber) (s : State) : Bool :=
  s.origin.any fun origin =>
    (s.cache S.cacheKey).any (fun replayId => ¬ s.log.Passed (Completed s) origin (replayId + 1)) ||
      s.resumed.any fun begin => ¬ s.log.Passed (Completed s) origin begin

theorem not_lowWaterMark_of_overtakes {S : Subscriber} {s : State} (h : S.overtakes s = true) :
    ¬ S.LowWaterMark s := by
  intro hmark
  obtain ⟨origin, horigin, h⟩ := (Option.any_eq_true _ _).mp h
  rcases Bool.or_eq_true_iff.mp h with h | h
  · obtain ⟨replayId, hreplayId, hnot⟩ := (Option.any_eq_true _ _).mp h
    exact of_decide_eq_true hnot (hmark.stored replayId origin hreplayId horigin)
  · obtain ⟨begin, hbegin, hnot⟩ := (Option.any_eq_true _ _).mp h
    exact of_decide_eq_true hnot (hmark.resumed begin origin hbegin horigin)

end Subscriber

def sampleSubscriber : Subscriber where
  topicName := "/event/Order__e"
  durableConsumerOptions := some ⟨true, false, .latest⟩
  flowKey := "b3Jk"

def sampleTopic : State where
  log := Log.empty 0
  cache _ := none
  cancelled := false
  phase := .down
  completed := []
  received := []
  origin := none
  resumed := none

theorem sampleTopic_fresh : sampleSubscriber.machine.init sampleTopic := ⟨rfl, rfl, rfl, rfl⟩

/-- A stream is opened; what the cache answers. -/
def opens (cacheOk : Bool) : List Act := [.connect cacheOk, .subscribe (.accepted 0)]

/-- The next event is received, and its task ends. -/
def event (answers : List Answer) : List Act :=
  .receive 1 :: (answers.map (.task 0 ·)).concat (.finish true)

def publish : List Act := [.publish (some true), .publish (some true)]

/-- The stream is lost and opened again. -/
def reopens (cacheOk : Bool) : List Act := .lost :: opens cacheOk

/-- The stream is lost and its replay id is refused. -/
def refused : List Act := [.lost, .connect true, .subscribe (.invalid true)]

/-- The second event cannot be sent; it is received again on the next stream. -/
theorem low_water_mark_again :
    ∃ as s, sampleSubscriber.machine.RunThrough sampleSubscriber.LowWaterMark sampleTopic as s ∧
      s.completed = [0, 1] ∧ s.cache sampleSubscriber.cacheKey = some 1 := by
  have hrun : (sampleSubscriber.machine.exec (Subscriber.Careful sampleSubscriber) sampleTopic
      (opens true ++ publish ++ event [.ok, .ok] ++ event [.failed] ++ reopens true ++
        event [.ok, .ok])).any
      (fun s => s.completed = [0, 1] ∧ s.cache sampleSubscriber.cacheKey = some 1) = true := by
    decide
  obtain ⟨s, hr, hs⟩ := Machine.exists_of_exec hrun
  exact ⟨_, s, (Subscriber.low_water_mark_iff sampleTopic_fresh).mpr hr, of_decide_eq_true hs⟩

/-- A run to a position that is past an event that was not completed. -/
theorem exists_overtakes {as : List Act}
    (h : (sampleSubscriber.machine.exec (fun _ _ => True) sampleTopic as).any
      sampleSubscriber.overtakes = true) :
    ∃ s, sampleSubscriber.machine.Run sampleTopic as s ∧ ¬ sampleSubscriber.LowWaterMark s := by
  obtain ⟨s, hr, hs⟩ := Machine.exists_of_exec h
  exact ⟨s, hr, Subscriber.not_lowWaterMark_of_overtakes hs⟩

/-- The flow fails for an event and its id is stored; an event cannot be sent and
the id of the next one is stored; the stream is opened again when no id was stored
yet, when the cache does not answer, and when the id was refused. -/
theorem overtakes_failed :
    (∃ s, sampleSubscriber.machine.Run sampleTopic
      (opens true ++ publish ++ event [.ok, .failed]) s ∧
        ¬ sampleSubscriber.LowWaterMark s) ∧
    (∃ s, sampleSubscriber.machine.Run sampleTopic
      (opens true ++ publish ++ event [.failed] ++ event [.ok, .ok]) s ∧
        ¬ sampleSubscriber.LowWaterMark s) ∧
    (∃ s, sampleSubscriber.machine.Run sampleTopic
      (opens true ++ publish ++ event [.failed] ++ reopens true) s ∧
        ¬ sampleSubscriber.LowWaterMark s) ∧
    (∃ s, sampleSubscriber.machine.Run sampleTopic
      (opens true ++ publish ++ event [.ok, .ok] ++ reopens false) s ∧
        ¬ sampleSubscriber.LowWaterMark s) ∧
    ∃ s, sampleSubscriber.machine.Run sampleTopic
      (opens true ++ publish ++ event [.ok, .ok] ++ refused ++ opens true) s ∧
        ¬ sampleSubscriber.LowWaterMark s := by
  refine ⟨?_, ?_, ?_, ?_, ?_⟩
  · exact exists_overtakes (by decide)
  · exact exists_overtakes (by decide)
  · exact exists_overtakes (by decide)
  · exact exists_overtakes (by decide)
  · exact exists_overtakes (by decide)

end Flowgen.Salesforce
