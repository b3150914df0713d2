/-
# `Flowgen.ObjectStore.Read` — reading an object and deleting it
(`object-store/src/read.rs`)

One attempt reads the object and emits its records, one event behind, so that the last
event can carry the completion of the incoming one; then, with `delete_after_read`, it
deletes the object.  A CSV is streamed: a decoder takes ranges of the object and gives
out a batch when it is full or the object has ended.  The other formats are parsed as
a whole.  Where an attempt fails, the handler restarts from scratch.  The emitted
events are handled at the leaves below the task in any order, while the attempt goes
on, and the process may stop at any point, which ends all of this.

The object is deleted once its records have been sent, whatever becomes of them.  That
all of them have been sent is `read_deletes_sent`: it rests on the decoder, which is
a parameter with what is documented of it (`Decoder.Documented`), as are the parsers,
and on batches of at least one record, since a decoder whose batches are empty gives
out nothing and has nothing left.
-/
import Flowgen.Task.Emit
import Flowgen.ObjectStore.Move

namespace Flowgen.ObjectStore

open Flowgen.Lib

abbrev Bytes := List UInt8

/-- `EventData`, as far as an object is read into it, with the records it has. -/
inductive Data (R : Type)
  | json (record : R)
  | avro (record : R)
  | batch (rows : List R)
deriving DecidableEq

def Data.records {R : Type} : Data R → List R
  | .json record => [record]
  | .avro record => [record]
  | .batch rows => rows

inductive ContentType
  | json
  | csv (batchSize : Nat) (hasHeader : Bool) (delimiter : Option UInt8)
  | avro
  | parquet (batchSize : Nat)
deriving DecidableEq

/-- `arrow::csv::reader::Decoder`; `none` is an error. -/
structure Decoder (σ R : Type) where
  decode : σ → Bytes → Option (σ × Nat)
  capacity : σ → Nat
  flush : σ → Option (σ × Option (List R))

/-- The configuration of a read, and the parts it uses. -/
structure Reader (σ R V : Type) where
  ctx : Task.Context (Data R) V
  completionTx : Option Task.Handle
  extension : Option String
  batchSize : Option Nat
  hasHeader : Option Bool
  delimiter : Option (List UInt8)
  deleteAfterRead : Option Bool
  content : Bytes
  decoder : Decoder σ R
  /-- Infers the schema of a CSV and builds its decoder. -/
  buildDecoder : ContentType → Bytes → Option σ
  /-- `EventData::from_reader`: the items, `none` where one cannot be read. -/
  fromReader : ContentType → Bytes → Option (List (Option (Data R)))

namespace Read

def defaultBatchSize : Nat := 10000

def defaultHasHeader : Bool := true

/-- Bytes per ranged GET while reading a CSV. -/
def csvRangeBytes : Nat := 8 * 1024 * 1024

/-- An emitted event: by which attempt, at how many leaves it has still to be handled,
whether one of them has failed, and whether the process that handles it is still there. -/
structure Journey (R : Type) where
  attempt : Nat
  event : Task.Event (Data R)
  left : Nat
  failed : Bool
  alive : Bool

abbrev Pending (R : Type) := Option (Task.Built (Data R))

inductive Phase (σ R : Type)
  | waiting
  | streaming (decoder : σ) (start : Nat) (chunk : Bytes) (finished : Bool) (pending : Pending R)
  | flushing (decoder : σ) (start : Nat) (chunk : Bytes) (finished : Bool) (pending : Pending R)
  | items (left : List (Option (Data R))) (pending : Pending R)
  | ending (pending : Pending R)
  | deleting (again : Bool)
  | over

structure State (σ R V : Type) where
  deleted : Bool
  attempt : Nat
  phase : Phase σ R
  journeys : List (Journey R)
  completion : CompletionState V
  /-- At how many leaves the failure that was handed on has still to be reported. -/
  failures : Nat

inductive Act (V : Type)
  | start
  | next
  | delete (answer : Move.Answer)
  | fail
  | giveUp (error : String)
  | leaf (idx : Nat) (result : CompletionResult V)
  | failureLeaf (error : String)
  | crash

section Step

variable {σ R V : Type} (r : Reader σ R V)

def csvType : ContentType :=
  .csv (r.batchSize.getD defaultBatchSize) (r.hasHeader.getD defaultHasHeader)
    (r.delimiter.bind List.head?)

/-- The content type of a file extension; no other one is supported. -/
def contentType (extension : String) : Option ContentType :=
  if extension = "json" then some .json
  else if extension = "csv" then some (csvType r)
  else if extension = "avro" then some .avro
  else if extension = "parquet" then some (.parquet (r.batchSize.getD defaultBatchSize))
  else none

/-- A signal on the completion of the incoming event. -/
def State.signal (s : State σ R V) (handle : Option Task.Handle) (result : CompletionResult V) :
    State σ R V :=
  match handle with
  | some .source => { s with completion := s.completion.signal result }
  | _ => s

/-- Without a next task an event is only logged. -/
def State.perform (s : State σ R V) : Task.Out (Data R) V → State σ R V
  | .send event =>
      let left := if r.ctx.tx then r.ctx.leafShare else 0
      { s with journeys := s.journeys ++ [⟨s.attempt, event, left, false, true⟩] }
  | .signal handle payload => s.signal (some handle) (.ok payload)
  | .fanIn _ _ _ => s

def State.performAll (s : State σ R V) (outs : List (Task.Out (Data R) V)) : State σ R V :=
  outs.foldl (State.perform r) s

def step (s : State σ R V) : Act V → Option (State σ R V)
  | .start =>
      match s.phase with
      | .waiting => do
          let extension ← r.extension
          let started := { s with attempt := s.attempt + 1 }
          match contentType r extension with
          | none => return { started with phase := .over }
          | some type =>
              if s.deleted then none
              else match type with
                | .csv _ _ _ =>
                    let decoder ← r.buildDecoder type r.content
                    return { started with phase := .streaming decoder 0 [] false none }
                | _ =>
                    let items ← r.fromReader type r.content
                    return { started with phase := .items items none }
      | _ => none
  | .next =>
      match s.phase with
      | .streaming decoder start chunk finished pending =>
          if chunk.isEmpty && !finished then
            if r.content.length ≤ start then
              some { s with phase := .streaming decoder start chunk true pending }
            else
              let stop := min (start + csvRangeBytes) r.content.length
              let range := (r.content.take stop).drop start
              some { s with phase := .streaming decoder stop range finished pending }
          else do
            let (decoder, decoded) ← r.decoder.decode decoder chunk
            let chunk := chunk.drop decoded
            if decoded = 0 || r.decoder.capacity decoder = 0 then
              return { s with phase := .flushing decoder start chunk finished pending }
            else return { s with phase := .streaming decoder start chunk finished pending }
      | .flushing decoder start chunk finished pending => do
          let (decoder, batch) ← r.decoder.flush decoder
          match batch with
          | some rows =>
              let (pending, outs) := Task.emit pending (.batch rows)
              return { s.performAll r outs with
                phase := .streaming decoder start chunk finished pending }
          | none => return { s with phase := .ending pending }
      | .items (some data :: left) pending =>
          let (pending, outs) := Task.emit pending data
          some { s.performAll r outs with phase := .items left pending }
      | .items [] pending => some { s with phase := .ending pending }
      | .ending pending =>
          let done := s.performAll r (Task.flushPending r.ctx pending r.completionTx)
          if r.deleteAfterRead.getD false then some { done with phase := .deleting false }
          else some { done with phase := .over }
      | _ => none
  | .delete answer =>
      match s.phase with
      | .deleting again =>
          match answer with
          | .ok => some { s with deleted := true, phase := .over }
          | .unauthenticated done =>
              let phase := if again then .waiting else .deleting true
              some { s with deleted := s.deleted || done, phase := phase }
          | .failed done => some { s with deleted := s.deleted || done, phase := .waiting }
          | .alreadyExists => none
      | _ => none
  | .fail =>
      match s.phase with
      | .over => none
      | _ => some { s with phase := .waiting }
  | .giveUp error =>
      match s.phase with
      | .waiting =>
          if r.ctx.tx then some { s with phase := .over, failures := r.ctx.leafShare }
          else some ({ s with phase := .over }.signal r.completionTx (.error error))
      | _ => none
  | .leaf idx result =>
      match s.journeys[idx]? with
      | some journey =>
          if journey.alive && 0 < journey.left then
            let failed := journey.failed || !result.isOk
            let ended := { journey with left := journey.left - 1, failed := failed }
            some ({ s with journeys := s.journeys.set idx ended }.signal
              journey.event.completionTx result)
          else none
      | none => none
  | .failureLeaf error =>
      match s.failures with
      | 0 => none
      | failures + 1 =>
          some ({ s with failures := failures }.signal r.completionTx (.error error))
  | .crash =>
      some
        { s with
          phase := .waiting
          journeys := s.journeys.map fun journey => { journey with alive := false }
          completion := .new r.ctx.leafCount
          failures := 0 }

attribute [grind =] step

def reading : Machine (State σ R V) (Act V) where
  init s := s = ⟨false, 0, .waiting, [], .new r.ctx.leafCount, 0⟩
  step := step r

end Step

/-! ## What is documented of the parts -/

/-- What a decoder has taken, the rows it has given out and those it holds. -/
structure View (R : Type) where
  fed : Bytes
  given : List R
  buffered : List R

/-- A decoder holds back rows up to the size of a batch.  It takes all it is offered,
unless its batch is full; being offered nothing is the end of the input, after which it
has every row of it.  A flush gives out the rows held back, and nothing if there are
none. -/
structure Decoder.Documented {σ R : Type} (d : Decoder σ R) (batchSize : Nat)
    (rows : Bytes → List R) (view : σ → View R) : Prop where
  capacity : ∀ c, d.capacity c = batchSize - (view c).buffered.length
  decode : ∀ c buf c' n, d.decode c buf = some (c', n) →
    n ≤ buf.length ∧ (view c').fed = (view c).fed ++ buf.take n ∧
      (view c').given = (view c).given ∧ (n = 0 → buf = [] ∨ d.capacity c' = 0)
  ends : ∀ c c' n, d.decode c [] = some (c', n) → d.capacity c' ≠ 0 →
    (view c').given ++ (view c').buffered = rows (view c').fed
  flush_some : ∀ c c' batch, d.flush c = some (c', some batch) →
    batch = (view c).buffered ∧ view c' = ⟨(view c).fed, (view c).given ++ batch, []⟩
  flush_none : ∀ c c', d.flush c = some (c', none) → (view c).buffered = []

/-- `rows` are the records that an object of a format holds: a decoder that is new gives
out those of a CSV, and the items of another format have them. -/
structure Documented {σ R V : Type} (r : Reader σ R V) (rows : ContentType → Bytes → List R) :
    Prop where
  decoder : ∃ view, Decoder.Documented r.decoder (r.batchSize.getD defaultBatchSize)
      (rows (csvType r)) view ∧
    ∀ c, r.buildDecoder (csvType r) r.content = some c → view c = ⟨[], [], []⟩
  items : ∀ type items, r.batchSize ≠ some 0 → r.fromReader type r.content = some items →
    none ∉ items → items.reduceOption.flatMap Data.records = rows type r.content

/-! ## What a read does -/

section Spec

variable {σ R V : Type} (r : Reader σ R V) (rows : ContentType → Bytes → List R) (s : State σ R V)

/-- The events that an attempt has emitted. -/
def State.events (attempt : Nat) : List (Task.Event (Data R)) :=
  (s.journeys.filter fun journey => journey.attempt = attempt).map Journey.event

def recordsOf (events : List (Task.Event (Data R))) : List R :=
  events.flatMap fun event => event.built.data.records

/-- An attempt has emitted all records of the object, as what it is by its extension. -/
def AllEmitted (attempt : Nat) : Prop :=
  ∃ type, r.extension.bind (contentType r) = some type ∧
    recordsOf (s.events attempt) = rows type r.content

/-- A deleted object has been emitted as a whole by one attempt; and of the events of an
attempt only the last one carries the completion. -/
structure Exact : Prop where
  emitted : s.deleted = true → ∃ attempt, AllEmitted r rows s attempt
  carried : ∀ attempt, ∀ event ∈ (s.events attempt).dropLast, event.completionTx = none

/-- All events of an attempt have been handled at every leaf, without a failure. -/
def Completed (attempt : Nat) : Prop :=
  ∀ journey ∈ s.journeys, journey.attempt = attempt → journey.left = 0 ∧ journey.failed = false

end Spec

/-! ## Emitting -/

section Emitting

variable {σ R V : Type} {r : Reader σ R V} {s : State σ R V} {k : Nat}

/-- The events that are sent. -/
def sends (outs : List (Task.Out (Data R) V)) : List (Task.Event (Data R)) :=
  outs.filterMap fun out =>
    match out with
    | .send event => some event
    | _ => none

variable (r) in
/-- A journey that begins. -/
def newJourney (attempt : Nat) (event : Task.Event (Data R)) : Journey R :=
  ⟨attempt, event, if r.ctx.tx then r.ctx.leafShare else 0, false, true⟩

theorem signal_frame (handle : Option Task.Handle) (result : CompletionResult V) :
    (s.signal handle result).deleted = s.deleted ∧ (s.signal handle result).attempt = s.attempt ∧
      (s.signal handle result).phase = s.phase ∧
      (s.signal handle result).journeys = s.journeys := by
  unfold State.signal
  split <;> exact ⟨rfl, rfl, rfl, rfl⟩

/-- What a handler does adds the events it sends to the journeys of its attempt. -/
theorem performAll_frame (outs : List (Task.Out (Data R) V)) :
    (s.performAll r outs).deleted = s.deleted ∧ (s.performAll r outs).attempt = s.attempt ∧
      (s.performAll r outs).journeys =
        s.journeys ++ (sends outs).map (newJourney r s.attempt) := by
  induction outs generalizing s with
  | nil => exact ⟨rfl, rfl, (List.append_nil _).symm⟩
  | cons out outs ih =>
      obtain ⟨hdeleted, hattempt, hjourneys⟩ := ih (s := s.perform r out)
      rw [State.performAll, List.foldl_cons, ← State.performAll, hdeleted, hattempt, hjourneys]
      cases out with
      | send event =>
          refine ⟨rfl, rfl, ?_⟩
          rw [State.perform]
          change (s.journeys ++ [newJourney r s.attempt event]) ++ _ = _
          rw [List.append_assoc]
          rfl
      | signal handle payload =>
          obtain ⟨hdeleted', hattempt', -, hjourneys'⟩ :=
            signal_frame (s := s) (some handle) (.ok payload)
          rw [State.perform, hdeleted', hattempt', hjourneys']
          exact ⟨rfl, rfl, rfl⟩
      | fanIn upstream receivers leafShare => exact ⟨rfl, rfl, rfl⟩

theorem events_append {t : State σ R V} {events : List (Task.Event (Data R))}
    (h : t.journeys = s.journeys ++ events.map (newJourney r s.attempt)) :
    t.events k = s.events k ++ if k = s.attempt then events else [] := by
  rw [State.events, h, List.filter_append, List.map_append, ← State.events]
  congr 1
  split
  · rename_i hk
    rw [List.filter_eq_self.mpr, List.map_map]
    · exact List.map_id events
    · intro journey hjourney
      obtain ⟨event, -, rfl⟩ := List.mem_map.mp hjourney
      exact decide_eq_true hk.symm
  · rename_i hk
    rw [List.filter_eq_nil_iff.mpr]
    · rfl
    · intro journey hjourney
      obtain ⟨event, -, rfl⟩ := List.mem_map.mp hjourney
      exact fun h => hk (of_decide_eq_true h).symm

variable (s) in
/-- Nothing was emitted, or the current attempt has emitted more. -/
theorem events_performAll (outs : List (Task.Out (Data R) V)) (k : Nat) :
    (s.performAll r outs).events k =
      s.events k ++ if k = s.attempt then sends outs else [] :=
  events_append (performAll_frame outs).2.2

/-- The event that is held. -/
def held (pending : Pending R) : List (Task.Event (Data R)) :=
  pending.toList.map fun built => ⟨built, none⟩

theorem sends_emit (pending : Pending R) (data : Data R) :
    sends (Task.emit (V := V) pending data).2 = held pending ∧
      (Task.emit (V := V) pending data).1 = some { data := data } := by
  cases pending <;> exact ⟨rfl, rfl⟩

/-- At the end the held event is sent, with or without the completion. -/
theorem sends_flushPending (pending : Pending R) (completionTx : Option Task.Handle) :
    ∃ handle, sends (Task.flushPending r.ctx pending completionTx) =
      pending.toList.map fun built => ⟨built, handle⟩ := by
  cases pending with
  | none =>
      refine ⟨none, ?_⟩
      rw [Task.flushPending, sends, List.filterMap_eq_nil_iff.mpr]
      · rfl
      · intro out hout
        obtain ⟨handle, -, hout⟩ := List.mem_flatMap.mp hout
        rw [List.eq_of_mem_replicate hout]
  | some built =>
      rw [Task.flushPending, Task.sendLast]
      split
      · exact ⟨completionTx, rfl⟩
      · refine ⟨none, ?_⟩
        cases completionTx <;> rfl

end Emitting

/-! ## The records that have been emitted -/

section Records

variable {σ R V : Type} {r : Reader σ R V} {rows : ContentType → Bytes → List R}
  {s t : State σ R V} {pending : Pending R} {given : List R}

/-- The records of the current attempt: those emitted, and those of the event held. -/
def Holds (s : State σ R V) (pending : Pending R) (given : List R) : Prop :=
  recordsOf (s.events s.attempt ++ held pending) = given ∧
    ∀ event ∈ s.events s.attempt, event.completionTx = none

theorem recordsOf_append (events events' : List (Task.Event (Data R))) :
    recordsOf (events ++ events') = recordsOf events ++ recordsOf events' :=
  List.flatMap_append

/-- One more event is held, and the one before is sent. -/
theorem Holds.emit (h : Holds s pending given) (data : Data R) :
    Holds (s.performAll r (Task.emit pending data).2) (Task.emit (V := V) pending data).1
      (given ++ data.records) := by
  obtain ⟨hrecords, hnone⟩ := h
  obtain ⟨hsends, hpending⟩ := sends_emit (V := V) pending data
  rw [Holds, (performAll_frame _).2.1, events_performAll, if_pos rfl, hsends, hpending,
    recordsOf_append, hrecords]
  refine ⟨?_, ?_⟩
  · simp [recordsOf, held]
  · intro event hevent
    rcases List.mem_append.mp hevent with hevent | hevent
    · exact hnone event hevent
    · obtain ⟨built, -, rfl⟩ := List.mem_map.mp hevent
      rfl

/-- An event was sent in the current attempt, and none of it carried the completion. -/
theorem carried_dropLast {events : List (Task.Event (Data R))}
    (h : ∀ event ∈ events, event.completionTx = none) :
    ∀ event ∈ events.dropLast, event.completionTx = none := fun event hevent =>
  h event (List.dropLast_subset events hevent)

/-- What is kept of a state in which no attempt is reading. -/
structure Same (s t : State σ R V) : Prop where
  deleted : t.deleted = s.deleted
  attempt : t.attempt = s.attempt
  events : ∀ k, t.events k = s.events k

theorem Exact.same (h : Exact r rows s) (hsame : Same s t) : Exact r rows t where
  emitted hdeleted := by
    obtain ⟨k, type, htype, hrecords⟩ := h.emitted (hsame.deleted ▸ hdeleted)
    exact ⟨k, type, htype, (hsame.events k).symm ▸ hrecords⟩
  carried k := by
    rw [hsame.events k]
    exact h.carried k

theorem Holds.same (h : Holds s pending given) (hsame : Same s t) : Holds t pending given := by
  rw [Holds, hsame.attempt, hsame.events]
  exact h

/-- Only the current attempt emits, while the object is there. -/
theorem Exact.performAll {outs : List (Task.Out (Data R) V)} (h : Exact r rows s)
    (hdeleted : s.deleted = false)
    (hcarried : ∀ event ∈ (s.events s.attempt ++ sends outs).dropLast, event.completionTx = none) :
    Exact r rows (s.performAll r outs) where
  emitted hdeleted' := by
    rw [(performAll_frame outs).1, hdeleted] at hdeleted'
    cases hdeleted'
  carried k := by
    rw [events_performAll]
    split
    · rename_i hk
      subst hk
      exact hcarried
    · rw [List.append_nil]
      exact h.carried k

end Records

/-! ## Runs -/

section Runs

variable {σ R V : Type} {r : Reader σ R V} {rows : ContentType → Bytes → List R}
  {view : σ → View R} {s t : State σ R V} {a : Act V}

variable (r view) in
/-- The decoder has taken what has been read of a CSV, and the rest is at hand. -/
structure Streams (decoder : σ) (start : Nat) (chunk : Bytes) (finished : Bool) : Prop where
  type : r.extension.bind (contentType r) = some (csvType r)
  fed : (view decoder).fed ++ chunk = r.content.take start
  finished : finished = true → chunk = [] ∧ r.content.length ≤ start

variable (r rows view) in
/-- What an attempt has emitted, in each of its phases. -/
def Progress (s : State σ R V) : Prop :=
  match s.phase with
  | .waiting | .over => True
  | .streaming decoder start chunk finished pending =>
      s.deleted = false ∧ Streams r view decoder start chunk finished ∧
        Holds s pending (view decoder).given
  | .flushing decoder start chunk finished pending =>
      s.deleted = false ∧ Streams r view decoder start chunk finished ∧
        Holds s pending (view decoder).given ∧
        (r.decoder.capacity decoder = 0 ∨ finished = true ∧
          (view decoder).given ++ (view decoder).buffered = rows (csvType r) (view decoder).fed)
  | .items left pending =>
      s.deleted = false ∧ ∃ given, Holds s pending given ∧ (none ∉ left →
        ∃ type, r.extension.bind (contentType r) = some type ∧
          given ++ left.reduceOption.flatMap Data.records = rows type r.content)
  | .ending pending =>
      s.deleted = false ∧ ∃ type, r.extension.bind (contentType r) = some type ∧
        Holds s pending (rows type r.content)
  | .deleting _ => AllEmitted r rows s s.attempt

variable (r rows view) in
structure Inv (s : State σ R V) : Prop where
  exact : Exact r rows s
  fresh : ∀ k, s.attempt < k → s.events k = []
  progress : Progress r rows view s

theorem Inv.same (h : Inv r rows view s) (hsame : Same s t) (hphase : t.phase = s.phase) :
    Inv r rows view t where
  exact := h.exact.same hsame
  fresh k hk := by
    rw [hsame.events]
    exact h.fresh k (hsame.attempt ▸ hk)
  progress := by
    have hprogress := h.progress
    unfold Progress at hprogress ⊢
    rw [hphase, hsame.deleted]
    split
    · trivial
    · trivial
    · rename_i hp
      rw [hp] at hprogress
      exact ⟨hprogress.1, hprogress.2.1, hprogress.2.2.same hsame⟩
    · rename_i hp
      rw [hp] at hprogress
      exact ⟨hprogress.1, hprogress.2.1, hprogress.2.2.1.same hsame, hprogress.2.2.2⟩
    · rename_i hp
      rw [hp] at hprogress
      obtain ⟨hdeleted, given, hholds, hall⟩ := hprogress
      exact ⟨hdeleted, given, hholds.same hsame, hall⟩
    · rename_i hp
      rw [hp] at hprogress
      obtain ⟨hdeleted, type, htype, hholds⟩ := hprogress
      exact ⟨hdeleted, type, htype, hholds.same hsame⟩
    · rename_i hp
      rw [hp] at hprogress
      obtain ⟨type, htype, hrecords⟩ := hprogress
      refine ⟨type, htype, ?_⟩
      rw [hsame.attempt, hsame.events]
      exact hrecords

/-- An attempt that has ended leaves what was emitted. -/
theorem Inv.idle (h : Inv r rows view s) (hsame : Same s t)
    (hphase : t.phase = .waiting ∨ t.phase = .over) : Inv r rows view t where
  exact := h.exact.same hsame
  fresh k hk := by
    rw [hsame.events]
    exact h.fresh k (hsame.attempt ▸ hk)
  progress := by
    unfold Progress
    rcases hphase with hphase | hphase <;> rw [hphase] <;> trivial

theorem same_signal (handle : Option Task.Handle) (result : CompletionResult V) :
    Same s (s.signal handle result) := by
  obtain ⟨hdeleted, hattempt, -, hjourneys⟩ := signal_frame (s := s) handle result
  refine ⟨hdeleted, hattempt, ?_⟩
  intro k
  rw [State.events, hjourneys, State.events]

theorem Same.trans {u : State σ R V} (h : Same s t) (h' : Same t u) : Same s u where
  deleted := h'.deleted.trans h.deleted
  attempt := h'.attempt.trans h.attempt
  events k := (h'.events k).trans (h.events k)

/-- What becomes of a journey does not change what was emitted. -/
theorem events_map {f : Journey R → Journey R} {js : List (Journey R)}
    (hf : ∀ j, (f j).attempt = j.attempt ∧ (f j).event = j.event) (k : Nat) :
    ((js.map f).filter fun j => j.attempt = k).map Journey.event =
      (js.filter fun j => j.attempt = k).map Journey.event := by
  rw [List.filter_map, List.map_map]
  have hevent : Journey.event ∘ f = Journey.event := funext fun j => (hf j).2
  have hattempt : (fun j : Journey R => decide (j.attempt = k)) ∘ f =
      fun j => decide (j.attempt = k) := funext fun j => by simp [(hf j).1]
  rw [hevent, hattempt]

theorem events_set {js : List (Journey R)} {idx : Nat} {j j' : Journey R} (hj : js[idx]? = some j)
    (hattempt : j'.attempt = j.attempt) (hevent : j'.event = j.event) (k : Nat) :
    ((js.set idx j').filter fun j => j.attempt = k).map Journey.event =
      (js.filter fun j => j.attempt = k).map Journey.event := by
  induction js generalizing idx with
  | nil => cases hj
  | cons head js ih =>
      cases idx with
      | zero =>
          cases hj
          rw [List.set_cons_zero, List.filter_cons, List.filter_cons, hattempt]
          split
          · rw [List.map_cons, List.map_cons, hevent]
          · rfl
      | succ idx =>
          rw [List.set_cons_succ, List.filter_cons, List.filter_cons]
          split
          · rw [List.map_cons, List.map_cons, ih hj]
          · exact ih hj

/-- A new attempt has emitted nothing yet. -/
theorem Inv.begin (h : Inv r rows view s) (hdeleted : t.deleted = s.deleted)
    (hattempt : t.attempt = s.attempt + 1) (hjourneys : t.journeys = s.journeys)
    (hprogress : t.events t.attempt = [] → Progress r rows view t) : Inv r rows view t := by
  have hevents : ∀ k, t.events k = s.events k := by
    intro k
    rw [State.events, hjourneys, State.events]
  refine ⟨⟨?_, ?_⟩, ?_, ?_⟩
  · intro hd
    obtain ⟨k, type, htype, hrecords⟩ := h.exact.emitted (hdeleted ▸ hd)
    exact ⟨k, type, htype, (hevents k).symm ▸ hrecords⟩
  · intro k
    rw [hevents k]
    exact h.exact.carried k
  · intro k hk
    rw [hevents k]
    exact h.fresh k (by omega)
  · refine hprogress ?_
    rw [hevents, hattempt]
    exact h.fresh _ (Nat.lt_succ_self _)

theorem csvType_of_contentType {extension : String} {batchSize : Nat} {hasHeader : Bool}
    {delimiter : Option UInt8}
    (h : contentType r extension = some (.csv batchSize hasHeader delimiter)) :
    .csv batchSize hasHeader delimiter = csvType r := by
  unfold contentType at h
  split at h
  · cases h
  · split at h
    · exact (Option.some.inj h).symm
    · split at h
      · cases h
      · split at h
        · cases h
        · cases h

theorem inv_start (hdoc : ∀ type items, r.fromReader type r.content = some items → none ∉ items →
      items.reduceOption.flatMap Data.records = rows type r.content)
    (hbuild : ∀ c, r.buildDecoder (csvType r) r.content = some c → view c = ⟨[], [], []⟩)
    (h : Inv r rows view s) (hstep : step r s .start = some t) : Inv r rows view t := by
  rw [step] at hstep
  split at hstep
  · obtain ⟨extension, hextension, hstep⟩ := Option.bind_eq_some_iff.mp hstep
    dsimp only at hstep
    split at hstep
    · cases hstep
      exact h.begin rfl rfl rfl fun _ => trivial
    · rename_i type htype
      have hbind : r.extension.bind (contentType r) = some type := by
        rw [hextension]
        exact htype
      obtain ⟨hdeleted, hstep⟩ := Option.ite_none_left_eq_some.mp hstep
      have hdeleted : s.deleted = false := by simpa using hdeleted
      have hitems : ∀ type, r.extension.bind (contentType r) = some type →
          (r.fromReader type r.content >>= fun items =>
            some { s with attempt := s.attempt + 1, phase := .items items none }) = some t →
          Inv r rows view t := by
        intro type hbind hstep
        obtain ⟨items, hread, hstep⟩ := Option.bind_eq_some_iff.mp hstep
        cases hstep
        refine h.begin rfl rfl rfl fun hempty => ⟨hdeleted, [], ⟨?_, ?_⟩, ?_⟩
        · rw [hempty]
          rfl
        · rw [hempty]
          exact nofun
        · intro hall
          exact ⟨type, hbind, hdoc type items hread hall⟩
      split at hstep
      · obtain ⟨decoder, hdecoder, hstep⟩ := Option.bind_eq_some_iff.mp hstep
        cases hstep
        rw [csvType_of_contentType htype] at hbind hdecoder
        have hview := hbuild decoder hdecoder
        refine h.begin rfl rfl rfl fun hempty => ⟨hdeleted, ⟨hbind, ?_, nofun⟩, ?_, ?_⟩
        · rw [hview]
          rfl
        · rw [hempty, hview]
          rfl
        · rw [hempty]
          exact nofun
      · exact hitems _ hbind hstep
  · cases hstep

/-- The event that was held is sent, and the data takes its place. -/
theorem Inv.emit {pending : Pending R} {given : List R} {phase : Phase σ R}
    (h : Inv r rows view s) (hdeleted : s.deleted = false) (hholds : Holds s pending given)
    (data : Data R)
    (hprogress : Progress r rows view
      { s.performAll r (Task.emit pending data).2 with phase := phase }) :
    Inv r rows view { s.performAll r (Task.emit pending data).2 with phase := phase } := by
  have hsends := (sends_emit (V := V) pending data).1
  refine ⟨?_, ?_, hprogress⟩
  · refine (h.exact.performAll hdeleted ?_).same ⟨rfl, rfl, fun _ => rfl⟩
    refine carried_dropLast ?_
    intro event hevent
    rcases List.mem_append.mp hevent with hevent | hevent
    · exact hholds.2 event hevent
    · rw [hsends] at hevent
      obtain ⟨built, -, rfl⟩ := List.mem_map.mp hevent
      rfl
  · intro k hk
    have hattempt := (performAll_frame (s := s) (r := r) (Task.emit pending data).2).2.1
    have hk : s.attempt < k := hattempt ▸ hk
    change (s.performAll r _).events k = []
    rw [events_performAll, h.fresh k hk, if_neg (by omega)]
    rfl

/-- The next range follows the one before. -/
theorem take_range {content : Bytes} {start stop : Nat} (h : start ≤ stop) :
    content.take start ++ (content.take stop).drop start = content.take stop := by
  have hstart : content.take start = (content.take stop).take start := by
    rw [List.take_take, Nat.min_eq_left h]
  rw [hstart, List.take_append_drop]

/-- The object goes through the decoder. -/
theorem inv_next_streaming {decoder : σ} {start : Nat} {chunk : Bytes} {finished : Bool}
    {pending : Pending R}
    (hdec : Decoder.Documented r.decoder (r.batchSize.getD defaultBatchSize)
      (rows (csvType r)) view)
    (h : Inv r rows view s) (hphase : s.phase = .streaming decoder start chunk finished pending)
    (hstep : step r s .next = some t) : Inv r rows view t := by
  have hprogress := h.progress
  unfold Progress at hprogress
  rw [hphase] at hprogress
  rw [step, hphase] at hstep
  dsimp only at hstep
  obtain ⟨hdeleted, hstreams, hholds⟩ := hprogress
  split at hstep
  · rename_i hnext
    obtain ⟨hchunk, hfinished⟩ := Bool.and_eq_true_iff.mp hnext
    cases List.isEmpty_iff.mp hchunk
    have hfed := hstreams.fed
    rw [List.append_nil] at hfed
    split at hstep
    · rename_i hend
      cases hstep
      exact ⟨h.exact.same ⟨rfl, rfl, fun _ => rfl⟩, h.fresh,
        hdeleted, ⟨hstreams.type, hstreams.fed, fun _ => ⟨rfl, hend⟩⟩, hholds⟩
    · rename_i hend
      cases hstep
      refine ⟨h.exact.same ⟨rfl, rfl, fun _ => rfl⟩, h.fresh, hdeleted,
        ⟨hstreams.type, ?_, ?_⟩, hholds⟩
      · rw [hfed]
        exact take_range (by omega)
      · intro hfin
        rw [hfin] at hfinished
        cases hfinished
  · rename_i hnext
    obtain ⟨⟨decoder', decoded⟩, hdecode, hstep⟩ := Option.bind_eq_some_iff.mp hstep
    obtain ⟨hle, hfed, hgiven, hzero⟩ := hdec.decode _ _ _ _ hdecode
    have hstreams' : Streams r view decoder' start (chunk.drop decoded) finished := by
      refine ⟨hstreams.type, ?_, ?_⟩
      · rw [hfed, List.append_assoc, List.take_append_drop]
        exact hstreams.fed
      · intro hfin
        obtain ⟨hchunk, hend⟩ := hstreams.finished hfin
        exact ⟨by rw [hchunk, List.drop_nil], hend⟩
    have hholds' : Holds s pending (view decoder').given := hgiven ▸ hholds
    dsimp only at hstep
    split at hstep
    · rename_i hstop
      cases hstep
      refine ⟨h.exact.same ⟨rfl, rfl, fun _ => rfl⟩, h.fresh, hdeleted, hstreams', hholds', ?_⟩
      by_cases hfull : r.decoder.capacity decoder' = 0
      · exact Or.inl hfull
      · -- the decoder was offered nothing: the object has ended
        have hdecoded : decoded = 0 := by simpa [hfull] using hstop
        have hchunk : chunk = [] := (hzero hdecoded).resolve_right hfull
        subst hchunk
        refine Or.inr ⟨?_, hdec.ends _ _ _ hdecode hfull⟩
        simpa using hnext
    · cases hstep
      exact ⟨h.exact.same ⟨rfl, rfl, fun _ => rfl⟩, h.fresh, hdeleted, hstreams', hholds'⟩

/-- A batch is taken off the decoder; where there is none the object has been read. -/
theorem inv_next_flushing {decoder : σ} {start : Nat} {chunk : Bytes} {finished : Bool}
    {pending : Pending R}
    (hdec : Decoder.Documented r.decoder (r.batchSize.getD defaultBatchSize)
      (rows (csvType r)) view) (hbatch : r.batchSize ≠ some 0)
    (h : Inv r rows view s) (hphase : s.phase = .flushing decoder start chunk finished pending)
    (hstep : step r s .next = some t) : Inv r rows view t := by
  have hprogress := h.progress
  unfold Progress at hprogress
  rw [hphase] at hprogress
  rw [step, hphase] at hstep
  dsimp only at hstep
  obtain ⟨hdeleted, hstreams, hholds, hstop⟩ := hprogress
  obtain ⟨⟨decoder', batch⟩, hflush, hstep⟩ := Option.bind_eq_some_iff.mp hstep
  dsimp only at hstep
  split at hstep
  · rename_i batch
    cases hstep
    obtain ⟨rfl, hview⟩ := hdec.flush_some _ _ _ hflush
    have hemit := hholds.emit (r := r) (.batch (view decoder).buffered)
    refine h.emit hdeleted hholds _ ⟨?_, ⟨hstreams.type, ?_, hstreams.finished⟩, ?_⟩
    · change (s.performAll r _).deleted = false
      rw [(performAll_frame _).1]
      exact hdeleted
    · rw [hview]
      exact hstreams.fed
    · rw [hview]
      exact hemit.same ⟨rfl, rfl, fun _ => rfl⟩
  · cases hstep
    have hbuffered := hdec.flush_none _ _ hflush
    have hsize : r.batchSize.getD defaultBatchSize ≠ 0 := by
      intro hzero
      cases hb : r.batchSize with
      | none =>
          rw [hb] at hzero
          cases hzero
      | some size =>
          rw [hb] at hzero hbatch
          exact hbatch (congrArg some hzero)
    have hcapacity : r.decoder.capacity decoder ≠ 0 := by
      rw [hdec.capacity, hbuffered]
      exact hsize
    obtain ⟨hfinished, hrows⟩ := hstop.resolve_left hcapacity
    obtain ⟨rfl, hend⟩ := hstreams.finished hfinished
    have hfed := hstreams.fed
    rw [List.append_nil, List.take_of_length_le hend] at hfed
    rw [hbuffered, List.append_nil, hfed] at hrows
    rw [hrows] at hholds
    exact ⟨h.exact.same ⟨rfl, rfl, fun _ => rfl⟩, h.fresh, hdeleted, _, hstreams.type,
      hholds.same ⟨rfl, rfl, fun _ => rfl⟩⟩

/-- An item is emitted. -/
theorem inv_next_item {data : Data R} {left : List (Option (Data R))} {pending : Pending R}
    (h : Inv r rows view s) (hphase : s.phase = .items (some data :: left) pending)
    (hstep : step r s .next = some t) : Inv r rows view t := by
  have hprogress := h.progress
  unfold Progress at hprogress
  rw [hphase] at hprogress
  rw [step, hphase] at hstep
  dsimp only at hstep
  obtain ⟨hdeleted, given, hholds, hall⟩ := hprogress
  cases hstep
  have hemit := hholds.emit (r := r) data
  refine h.emit hdeleted hholds data ⟨?_, given ++ data.records, ?_, ?_⟩
  · change (s.performAll r _).deleted = false
    rw [(performAll_frame _).1]
    exact hdeleted
  · exact hemit.same ⟨rfl, rfl, fun _ => rfl⟩
  · intro hleft
    obtain ⟨type, htype, hrecords⟩ := hall (by simpa using hleft)
    refine ⟨type, htype, ?_⟩
    rw [← hrecords, List.append_assoc]
    rfl

/-- The items are at their end. -/
theorem inv_next_items_end {pending : Pending R}
    (h : Inv r rows view s) (hphase : s.phase = .items [] pending)
    (hstep : step r s .next = some t) : Inv r rows view t := by
  have hprogress := h.progress
  unfold Progress at hprogress
  rw [hphase] at hprogress
  rw [step, hphase] at hstep
  dsimp only at hstep
  obtain ⟨hdeleted, given, hholds, hall⟩ := hprogress
  cases hstep
  obtain ⟨type, htype, hrecords⟩ := hall List.not_mem_nil
  rw [List.reduceOption_nil, List.flatMap_nil, List.append_nil] at hrecords
  exact ⟨h.exact.same ⟨rfl, rfl, fun _ => rfl⟩, h.fresh, hdeleted, type, htype,
    hrecords ▸ hholds⟩

/-- The last event of the attempt goes out. -/
theorem inv_next_ending {pending : Pending R}
    (h : Inv r rows view s) (hphase : s.phase = .ending pending)
    (hstep : step r s .next = some t) : Inv r rows view t := by
  have hprogress := h.progress
  unfold Progress at hprogress
  rw [hphase] at hprogress
  rw [step, hphase] at hstep
  dsimp only at hstep
  obtain ⟨hdeleted, type, htype, hrecords, hnone⟩ := hprogress
  obtain ⟨handle, hsends⟩ := sends_flushPending (r := r) pending r.completionTx
  have hexact : Exact r rows (s.performAll r (Task.flushPending r.ctx pending r.completionTx)) := by
    refine h.exact.performAll hdeleted ?_
    rw [hsends]
    cases pending with
    | none =>
        rw [Option.toList_none, List.map_nil, List.append_nil]
        exact carried_dropLast hnone
    | some built =>
        rw [Option.toList_some, List.map_singleton, List.dropLast_concat]
        exact hnone
  have hfresh : ∀ k, s.attempt < k →
      (s.performAll r (Task.flushPending r.ctx pending r.completionTx)).events k = [] := by
    intro k hk
    rw [events_performAll, h.fresh k hk, if_neg (by omega)]
    rfl
  have hattempt := (performAll_frame (s := s) (r := r)
    (Task.flushPending r.ctx pending r.completionTx)).2.1
  split at hstep
  · cases hstep
    refine ⟨hexact.same ⟨rfl, rfl, fun _ => rfl⟩, ?_, type, htype, ?_⟩
    · intro k hk
      exact hfresh k (hattempt ▸ hk)
    · change recordsOf ((s.performAll r _).events (s.performAll r _).attempt) = _
      rw [hattempt, events_performAll, if_pos rfl, hsends, ← hrecords]
      cases pending <;> simp [recordsOf, held]
  · cases hstep
    refine ⟨hexact.same ⟨rfl, rfl, fun _ => rfl⟩, ?_, trivial⟩
    intro k hk
    exact hfresh k (hattempt ▸ hk)

theorem inv_next (hdec : Decoder.Documented r.decoder (r.batchSize.getD defaultBatchSize)
      (rows (csvType r)) view) (hbatch : r.batchSize ≠ some 0)
    (h : Inv r rows view s) (hstep : step r s .next = some t) : Inv r rows view t := by
  cases hphase : s.phase with
  | streaming decoder start chunk finished pending =>
      exact inv_next_streaming hdec h hphase hstep
  | flushing decoder start chunk finished pending =>
      exact inv_next_flushing hdec hbatch h hphase hstep
  | items items pending =>
      rcases items with _ | ⟨_ | data, left⟩
      · exact inv_next_items_end h hphase hstep
      · rw [step, hphase] at hstep
        cases hstep
      · exact inv_next_item h hphase hstep
  | ending pending => exact inv_next_ending h hphase hstep
  | _ =>
      rw [step, hphase] at hstep
      cases hstep

theorem inv_delete {answer : Move.Answer} (h : Inv r rows view s)
    (hstep : step r s (.delete answer) = some t) : Inv r rows view t := by
  have hprogress := h.progress
  unfold Progress at hprogress
  have hdeleted : ∀ {again : Bool} {u : State σ R V}, s.phase = .deleting again →
      u.attempt = s.attempt → u.journeys = s.journeys → Exact r rows u := by
    intro again u hphase hattempt hjourneys
    rw [hphase] at hprogress
    have hevents : ∀ k, u.events k = s.events k := by
      intro k
      rw [State.events, hjourneys, State.events]
    refine ⟨fun _ => ⟨s.attempt, ?_⟩, ?_⟩
    · obtain ⟨type, htype, hrecords⟩ := hprogress
      exact ⟨type, htype, (hevents _).symm ▸ hrecords⟩
    · intro k
      rw [hevents]
      exact h.exact.carried k
  rw [step] at hstep
  split at hstep
  · rename_i again hphase
    split at hstep
    · cases hstep
      exact ⟨hdeleted hphase rfl rfl, h.fresh, trivial⟩
    · cases hstep
      refine ⟨hdeleted hphase rfl rfl, h.fresh, ?_⟩
      cases again with
      | true => trivial
      | false =>
          rw [hphase] at hprogress
          exact hprogress
    · cases hstep
      exact ⟨hdeleted hphase rfl rfl, h.fresh, trivial⟩
    · cases hstep
  · cases hstep

theorem inv_step (hdec : Decoder.Documented r.decoder (r.batchSize.getD defaultBatchSize)
      (rows (csvType r)) view)
    (hbuild : ∀ c, r.buildDecoder (csvType r) r.content = some c → view c = ⟨[], [], []⟩)
    (hitems : ∀ type items, r.fromReader type r.content = some items → none ∉ items →
      items.reduceOption.flatMap Data.records = rows type r.content)
    (hbatch : r.batchSize ≠ some 0) (h : Inv r rows view s) (hstep : step r s a = some t) :
    Inv r rows view t := by
  cases a with
  | start => exact inv_start hitems hbuild h hstep
  | next => exact inv_next hdec hbatch h hstep
  | delete answer => exact inv_delete h hstep
  | fail =>
      rw [step] at hstep
      split at hstep
      · cases hstep
      · cases hstep
        exact h.idle ⟨rfl, rfl, fun _ => rfl⟩ (Or.inl rfl)
  | giveUp error =>
      rw [step] at hstep
      split at hstep
      · split at hstep
        · cases hstep
          exact h.idle ⟨rfl, rfl, fun _ => rfl⟩ (Or.inr rfl)
        · cases hstep
          have hover : Inv r rows view { s with phase := .over } :=
            h.idle ⟨rfl, rfl, fun _ => rfl⟩ (Or.inr rfl)
          exact hover.same (same_signal _ _) (signal_frame _ _).2.2.1
      · cases hstep
  | leaf idx result =>
      rw [step] at hstep
      split at hstep
      · rename_i journey hjourney
        obtain ⟨-, hstep⟩ := Option.ite_none_right_eq_some.mp hstep
        cases hstep
        have hset : Inv r rows view { s with
            journeys := s.journeys.set idx
              { journey with left := journey.left - 1, failed := journey.failed || !result.isOk } } :=
          h.same ⟨rfl, rfl, events_set hjourney rfl rfl⟩ rfl
        exact hset.same (same_signal _ _) (signal_frame _ _).2.2.1
      · cases hstep
  | failureLeaf error =>
      rw [step] at hstep
      split at hstep
      · cases hstep
      · rename_i failures _
        cases hstep
        have hless : Inv r rows view { s with failures := failures } :=
          h.same ⟨rfl, rfl, fun _ => rfl⟩ rfl
        exact hless.same (same_signal _ _) (signal_frame _ _).2.2.1
  | crash =>
      cases hstep
      exact h.idle ⟨rfl, rfl, events_map fun _ => ⟨rfl, rfl⟩⟩ (Or.inl rfl)

/-- With batches of at least one record, an object is deleted only after its records
have been sent by one attempt, in their order. -/
theorem read_deletes_sent (hdoc : Documented r rows) (hbatch : r.batchSize ≠ some 0)
    (h : (reading r).Reachable s) : Exact r rows s := by
  obtain ⟨view, hdec, hbuild⟩ := hdoc.decoder
  have hinv : Inv r rows view s := by
    refine h.invariant ?_ ?_
    · intro s hinit
      cases hinit
      exact ⟨⟨nofun, fun k event hevent => nomatch hevent⟩, fun _ _ => rfl, trivial⟩
    · intro s a t hinv _ hstep
      exact inv_step hdec hbuild (fun type items => hdoc.items type items hbatch) hbatch hinv hstep
  exact hinv.exact

end Runs

/-! ## A CSV of one column -/

/-- The lines that have ended, after the beginning of one. -/
def rowsFrom (row : Bytes) : Bytes → List Bytes
  | [] => []
  | b :: bs => if b = 10 then row :: rowsFrom [] bs else rowsFrom (row ++ [b]) bs

theorem rowsFrom_prefix (row xs ys : Bytes) : rowsFrom row xs <+: rowsFrom row (xs ++ ys) := by
  induction xs generalizing row with
  | nil => exact List.nil_prefix
  | cons x xs ih =>
      rw [List.cons_append, rowsFrom, rowsFrom]
      split
      · exact List.cons_prefix_cons.mpr ⟨rfl, ih []⟩
      · exact ih (row ++ [x])

def lines (content : Bytes) : List Bytes := rowsFrom [] content

/-- What has been read, and how many of its lines have been given out. -/
structure Lines where
  fed : Bytes
  given : Nat
  given_le : given ≤ (lines fed).length

/-- Reads until it is full. -/
def fill (full : Bytes → Bool) (fed : Bytes) : Bytes → Bytes × Nat
  | [] => (fed, 0)
  | b :: bs =>
      if full fed then (fed, 0)
      else ((fill full (fed ++ [b]) bs).1, (fill full (fed ++ [b]) bs).2 + 1)

theorem fill_spec (full : Bytes → Bool) (fed buf : Bytes) :
    (fill full fed buf).2 ≤ buf.length ∧
      (fill full fed buf).1 = fed ++ buf.take (fill full fed buf).2 ∧
      ((fill full fed buf).2 = 0 → buf = [] ∨ full fed = true) := by
  induction buf generalizing fed with
  | nil => exact ⟨le_rfl, (List.append_nil fed).symm, fun _ => Or.inl rfl⟩
  | cons b bs ih =>
      obtain ⟨hle, hfed, -⟩ := ih (fed ++ [b])
      rw [fill]
      split
      · rename_i hfull
        exact ⟨Nat.zero_le _, (List.append_nil fed).symm, fun _ => Or.inr hfull⟩
      · refine ⟨Nat.succ_le_succ hle, ?_, nofun⟩
        rw [hfed, List.take_succ_cons, List.append_assoc]
        rfl

theorem lines_fill (full : Bytes → Bool) (fed buf : Bytes) :
    lines fed <+: lines (fill full fed buf).1 := by
  rw [(fill_spec full fed buf).2.1]
  exact rowsFrom_prefix [] fed _

/-- A decoder of lines, whose batches have a size. -/
def linesDecoder (size : Nat) : Decoder Lines Bytes where
  decode c buf :=
    let full := fun fed => decide (size ≤ (lines fed).length - c.given)
    some (⟨(fill full c.fed buf).1, c.given,
      c.given_le.trans (lines_fill full c.fed buf).length_le⟩, (fill full c.fed buf).2)
  capacity c := size - ((lines c.fed).length - c.given)
  flush c :=
    if (lines c.fed).length ≤ c.given then some (c, none)
    else some (⟨c.fed, (lines c.fed).length, le_rfl⟩, some ((lines c.fed).drop c.given))

def Lines.view (c : Lines) : View Bytes where
  fed := c.fed
  given := (lines c.fed).take c.given
  buffered := (lines c.fed).drop c.given

theorem linesDecoder_documented (size : Nat) :
    Decoder.Documented (linesDecoder size) size lines Lines.view where
  capacity c := by
    rw [Lines.view, List.length_drop]
    rfl
  decode c buf c' n h := by
    cases h
    obtain ⟨hle, hfed, hzero⟩ :=
      fill_spec (fun fed => decide (size ≤ (lines fed).length - c.given)) c.fed buf
    refine ⟨hle, hfed, ?_, ?_⟩
    · obtain ⟨rest, hrest⟩ :=
        lines_fill (fun fed => decide (size ≤ (lines fed).length - c.given)) c.fed buf
      rw [Lines.view, Lines.view, ← hrest]
      exact List.take_append_of_le_length c.given_le
    · intro hn
      rcases hzero hn with hbuf | hfull
      · exact Or.inl hbuf
      · refine Or.inr ?_
        rw [hn, List.take_zero, List.append_nil] at hfed
        rw [linesDecoder]
        dsimp only
        rw [hfed]
        exact Nat.sub_eq_zero_of_le (of_decide_eq_true hfull)
  ends c c' n _ _ := List.take_append_drop _ _
  flush_some c c' batch h := by
    rw [linesDecoder] at h
    dsimp only at h
    split at h
    · cases h
    · cases h
      refine ⟨rfl, ?_⟩
      rw [Lines.view, Lines.view, List.take_append_drop, List.take_length, List.drop_length]
  flush_none c c' h := by
    rw [linesDecoder] at h
    dsimp only at h
    split at h
    · rename_i hle
      exact List.drop_eq_nil_of_le hle
    · cases h

/-- Reads an object of lines, with some leaves below the task, and deletes it. -/
def sample (content : Bytes) (batchSize leafCount : Nat) : Reader Lines Bytes Unit where
  ctx := ⟨true, leafCount, fun _ => none⟩
  completionTx := some .source
  extension := some "csv"
  batchSize := some batchSize
  hasHeader := some false
  delimiter := none
  deleteAfterRead := some true
  content := content
  decoder := linesDecoder batchSize
  buildDecoder _ _ := some ⟨[], 0, Nat.zero_le _⟩
  fromReader _ _ := none

theorem sample_documented (content : Bytes) (batchSize leafCount : Nat) :
    Documented (sample content batchSize leafCount) fun _ => lines where
  decoder := by
    refine ⟨Lines.view, linesDecoder_documented batchSize, ?_⟩
    intro c hc
    cases hc
    rfl
  items := nofun

/-- An attempt at an object of one line, up to the deletion. -/
def oneBatch : List (Act Unit) := [.start, .next, .next, .next, .next, .next, .next, .next]

/-- An attempt at an object of two lines, in batches of one. -/
def twoBatches : List (Act Unit) :=
  [.start, .next, .next, .next, .next, .next, .next, .next, .next, .next, .delete .ok]

/-- Two lines are sent in two events, and the object is deleted. -/
theorem lines_deleted :
    let r := sample [97, 98, 10, 99, 10] 1 1
    ∃ s, (reading r).Reachable s ∧ s.deleted = true ∧ Exact r (fun _ => lines) s := by
  intro r
  have hrun : ((reading r).exec (fun _ _ => True) ⟨false, 0, .waiting, [], .new 1, 0⟩ twoBatches).any
      (fun s => s.deleted) = true := by
    decide +kernel
  obtain ⟨s, hr, hs⟩ := Machine.exists_of_exec hrun
  have hreach : (reading r).Reachable s := ⟨_, _, rfl, hr⟩
  exact ⟨s, hreach, hs, read_deletes_sent (sample_documented _ _ _) (by simp [r, sample]) hreach⟩

/-- An object is deleted while its event is still to be handled, or although it has
failed; the retry of a failed deletion has the completion delivered while its own event
is still to be handled; and with batches of no record the object is deleted unread. -/
theorem deleted_unhandled :
    let r := sample [99, 10] 1 2
    (∃ s, (reading r).Reachable s ∧ s.deleted = true ∧
      ∀ attempt, AllEmitted r (fun _ => lines) s attempt → ¬ Completed s attempt) ∧
    (∃ s, (reading r).Reachable s ∧ s.attempt = 2 ∧ s.completion.delivered.isSome ∧
      ∃ journey ∈ s.journeys, journey.attempt = 2 ∧ journey.left = 1) ∧
    ∃ s, (reading (sample [99, 10] 0 2)).Reachable s ∧ s.deleted = true ∧ s.journeys = [] := by
  intro r
  refine ⟨?_, ?_, ?_⟩
  · have hrun : ((reading r).exec (fun _ _ => True) ⟨false, 0, .waiting, [], .new 2, 0⟩
        (oneBatch ++ [.delete .ok, .leaf 0 (.error "failed")])).any
        (fun s => s.deleted && s.journeys.all fun journey => journey.left == 1) = true := by
      rfl
    obtain ⟨s, hr, hs⟩ := Machine.exists_of_exec hrun
    obtain ⟨hdeleted, hleft⟩ := Bool.and_eq_true_iff.mp hs
    refine ⟨s, ⟨_, _, rfl, hr⟩, hdeleted, ?_⟩
    rintro attempt ⟨type, -, hrecords⟩ hcompleted
    have hlines : lines r.content = [[99]] := by decide
    cases hjourneys : s.journeys.filter fun journey => journey.attempt = attempt with
    | nil =>
        rw [State.events, hjourneys] at hrecords
        cases hrecords.trans hlines
    | cons journey rest =>
        have hmem : journey ∈ s.journeys.filter fun journey => journey.attempt = attempt := by
          rw [hjourneys]
          exact List.mem_cons_self
        obtain ⟨hmem, hattempt⟩ := List.mem_filter.mp hmem
        have hone := beq_iff_eq.mp (List.all_eq_true.mp hleft journey hmem)
        cases hone.symm.trans (hcompleted journey hmem (of_decide_eq_true hattempt)).1
  · have hrun : ((reading r).exec (fun _ _ => True) ⟨false, 0, .waiting, [], .new 2, 0⟩
        (oneBatch ++ .delete (.failed false) :: oneBatch ++
          [.leaf 0 (.ok none), .leaf 1 (.ok none)])).any
        (fun s => s.attempt == 2 && s.completion.delivered.isSome &&
          s.journeys.any fun journey => journey.attempt == 2 && journey.left == 1) = true := by
      rfl
    obtain ⟨s, hr, hs⟩ := Machine.exists_of_exec hrun
    simp only [Bool.and_eq_true, beq_iff_eq, List.any_eq_true] at hs
    exact ⟨s, ⟨_, _, rfl, hr⟩, hs.1.1, hs.1.2, hs.2⟩
  · have hrun : ((reading (sample [99, 10] 0 2)).exec (fun _ _ => True)
        ⟨false, 0, .waiting, [], .new 2, 0⟩
        [.start, .next, .next, .next, .next, .delete .ok]).any
        (fun s => s.deleted && s.journeys.isEmpty) = true := by
      rfl
    obtain ⟨s, hr, hs⟩ := Machine.exists_of_exec hrun
    obtain ⟨hdeleted, hjourneys⟩ := Bool.and_eq_true_iff.mp hs
    exact ⟨s, ⟨_, _, rfl, hr⟩, hdeleted, List.isEmpty_iff.mp hjourneys⟩

end Read

end Flowgen.ObjectStore
