/-
# `Flowgen.Task.Batching` — the loops of a buffer (`core/src/task/buffer.rs`)

`process_events` collects events until a trigger flushes them: the buffer is
full, the timer fires, an event carries a completion (with
`flush_on_completion`), or the input closes.  Without a partition key there is
one buffer (`Single`); with one there are four maps from rendered keys, for the
data, the origin, the completions and the start of each batch (`Keyed`), and
every trigger moves an entry out of all of them.

Both loops are compared with a `Batcher`, which collects the events themselves.
`Single.Holds` and `Keyed.Holds` say what the loop has stored for the events
that wait, `Carries` what a batch carries of the events in it.  Each trigger is
a release of the batcher, so what is flushed is a group of events that stood
together (`batches_conserve`).
-/
import Flowgen.Lib.Batcher
import Flowgen.Task.Buffer

namespace Flowgen.Task.Batching

open Flowgen.Lib Flowgen.Task.Buffer

variable {V : Type}

inductive EventData (V : Type)
  | json (value : V)
  | arrowRecordBatch
  | avro
  | bytes

structure UserSession where
  userId : String
  token : Option String
deriving DecidableEq

/-- What a buffer reads of an event.  A completion is the identifier of its
`Arc`, the meta a JSON object. -/
structure Event (V : Type) where
  data : EventData V
  metaMap : Option V := none
  error : Option String := none
  completionTx : Option Nat := none
  session : Option UserSession := none
  callStack : List String := []

/-- What a flushed event passes on from the events in its batch. -/
structure Origin (V : Type) where
  metaMap : Option V := none
  session : Option UserSession := none
  callStack : List String := []

/-- `Origin::new`, with what its callers pass. -/
def Origin.new (event : Event V) : Origin V := ⟨event.metaMap, event.session, event.callStack⟩

/-- Takes in the session of a later event in the batch. -/
def Origin.add (origin : Origin V) (session : Option UserSession) : Origin V :=
  { origin with
    session :=
      match origin.session, session with
      | some current, some next => if current.userId = next.userId then some next else none
      | _, _ => none }

inductive Error
  | render (source : String)
  | missingPartitionKey
  | expectedJsonGotArrowRecordBatch
  | expectedJsonGotAvro
  | expectedJsonGotBytes
deriving DecidableEq

/-- The configuration of a buffer.  The partition key is the template together
with its rendering for an event. -/
structure Config (V : Type) where
  size : Nat
  timeout : Option Nat := some 30000
  flushOnCompletion : Bool := false
  partitionKey : Option (Event V → Except String (Option String)) := none

/-- A flushed batch: the arguments of `flush_buffer`. -/
structure Batch (V : Type) where
  data : FlushData V
  origin : Origin V
  upstreamCompletions : List Nat

/-- What the loop hands on, in order. -/
inductive Output (V : Type)
  | failed (event : Event V)
  | batch (b : Batch V)

/-- The order in which a `HashMap` is walked, which is not specified. -/
structure Walk where
  order : List String → List String
  perm : ∀ ks, (order ks).Perm ks

/-- What the loop waits for, other than the end of its input. -/
inductive Input (V : Type)
  | recv (now : Nat) (event : Event V)
  | timer (now : Nat) (walk : Walk)

/-- `flush_buffer`; what becomes of the batch is `Buffer.flushBuffer`. -/
def flush (buffer : List V) (reason : FlushReason) (partitionKey : Option String)
    (origin : Origin V) (upstreamCompletions : List Nat) : List (Output V) :=
  if buffer.isEmpty then []
  else
    [.batch
      { data :=
          { batch := buffer
            batchSize := buffer.length
            flushReason := reason
            partitionKey := partitionKey }
        origin := origin
        upstreamCompletions := upstreamCompletions }]

/-- The data of an event, where it is JSON. -/
def jsonData : EventData V → Except Error V
  | .json data => .ok data
  | .arrowRecordBatch => .error .expectedJsonGotArrowRecordBatch
  | .avro => .error .expectedJsonGotAvro
  | .bytes => .error .expectedJsonGotBytes

/-- An event with a completion ends its batch. -/
def Config.triggers (config : Config V) (event : Event V) : Bool :=
  config.flushOnCompletion && event.completionTx.isSome

def Config.timeoutDuration (config : Config V) : Nat := config.timeout.getD 30000

/-! ## `process_events_single` -/

structure Single (V : Type) where
  buffer : List V := []
  origin : Origin V := {}
  completions : List Nat := []
  batchStarted : Nat := 0
  outputs : List (Output V) := []

def Single.flush (s : Single V) (reason : FlushReason) : Single V :=
  { s with
    buffer := []
    origin := {}
    completions := []
    outputs := s.outputs ++ Batching.flush s.buffer reason none s.origin s.completions }

/-- The origin of the batch when another event comes, and the start of the
timeout with the first one. -/
def Single.open (s : Single V) (now : Nat) (event : Event V) : Single V :=
  if s.buffer.isEmpty then { s with origin := .new event, batchStarted := now }
  else { s with origin := s.origin.add event.session }

def Single.absorb (s : Single V) (completionTx : Option Nat) : Single V :=
  match completionTx with
  | some tx => { s with completions := absorbCompletion s.completions tx }
  | none => s

def Single.recv (config : Config V) (s : Single V) (now : Nat) (event : Event V) :
    Except Error (Single V) :=
  match event.error with
  | some _ => .ok { s with outputs := s.outputs ++ [.failed event] }
  | none =>
      match jsonData event.data with
      | .error e => .error e
      | .ok data =>
          let s := s.open now event
          let s := { s with buffer := s.buffer ++ [data] }
          let s := s.absorb event.completionTx
          if config.size ≤ s.buffer.length then .ok (s.flush .size)
          else if config.triggers event then .ok (s.flush .completion)
          else .ok s

/-- The timer is not armed while the buffer is empty. -/
def Single.timer (config : Config V) (s : Single V) (now : Nat) : Single V :=
  if s.buffer.isEmpty then s
  else if config.timeoutDuration ≤ now - s.batchStarted then s.flush .timeout
  else s

def Single.step (config : Config V) (s : Single V) : Input V → Except Error (Single V)
  | .recv now event => s.recv config now event
  | .timer now _ => .ok (s.timer config now)

/-- The channel is closed: what is left is flushed. -/
def Single.close (s : Single V) : Single V :=
  if s.buffer.isEmpty then s else s.flush .shutdown

/-! ## `process_events_keyed` -/

structure Keyed (V : Type) where
  buffers : AList fun _ : String => List V := ∅
  origins : AList fun _ : String => Origin V := ∅
  completions : AList fun _ : String => List Nat := ∅
  startedTimes : AList fun _ : String => Nat := ∅
  outputs : List (Output V) := []

/-- Flushes a buffer taken out of its map, with its origin and completions. -/
def Keyed.emit (s : Keyed V) (key : String) (buffer : List V) (reason : FlushReason) : Keyed V :=
  { s with
    origins := s.origins.erase key
    completions := s.completions.erase key
    outputs := s.outputs ++
      flush buffer reason (some key) ((s.origins.lookup key).getD {})
        ((s.completions.lookup key).getD []) }

/-- The buffer of a key is full, or completed. -/
def Keyed.flushKey (s : Keyed V) (key : String) (reason : FlushReason) : Keyed V :=
  match s.buffers.lookup key with
  | some buffer =>
      { ({ s with buffers := s.buffers.erase key }.emit key buffer reason) with
        startedTimes := s.startedTimes.erase key }
  | none => s

/-- The entry is vacant: a new batch. -/
def Keyed.vacant (s : Keyed V) (now : Nat) (key : String) (event : Event V) (data : V) : Keyed V :=
  { s with
    buffers := s.buffers.insert key [data]
    origins := s.origins.insert key (.new event)
    completions :=
      match event.completionTx with
      | some tx => s.completions.insert key [tx]
      | none => s.completions
    startedTimes := s.startedTimes.insert key now }

/-- The entry is occupied by `buffer`: one more event in its batch. -/
def Keyed.occupied (s : Keyed V) (key : String) (buffer : List V) (event : Event V) (data : V) :
    Keyed V :=
  { s with
    buffers := s.buffers.insert key (buffer ++ [data])
    origins :=
      match s.origins.lookup key with
      | some origin => s.origins.insert key (origin.add event.session)
      | none => s.origins
    completions :=
      match event.completionTx with
      | some tx =>
          s.completions.insert key (absorbCompletion ((s.completions.lookup key).getD []) tx)
      | none => s.completions }

/-- Only an occupied entry is checked for its size. -/
def Keyed.collect (config : Config V) (s : Keyed V) (now : Nat) (key : String) (event : Event V)
    (data : V) : Keyed V :=
  match s.buffers.lookup key with
  | none =>
      let s := s.vacant now key event data
      if config.triggers event then s.flushKey key .completion else s
  | some buffer =>
      let s := s.occupied key buffer event data
      if config.size ≤ (buffer ++ [data]).length then s.flushKey key .size
      else if config.triggers event then s.flushKey key .completion
      else s

def Keyed.recv (config : Config V) (render : Event V → Except String (Option String))
    (s : Keyed V) (now : Nat) (event : Event V) : Except Error (Keyed V) :=
  match event.error with
  | some _ => .ok { s with outputs := s.outputs ++ [.failed event] }
  | none =>
      match render event with
      | .error source => .error (.render source)
      | .ok none => .error .missingPartitionKey
      | .ok (some key) =>
          match jsonData event.data with
          | .error e => .error e
          | .ok data => .ok (s.collect config now key event data)

/-- The keys whose timeout has been exceeded, as the walk of the start times
finds them. -/
def Keyed.keysToFlush (config : Config V) (s : Keyed V) (now : Nat) (walk : Walk) : List String :=
  (walk.order s.startedTimes.keys).filter fun key =>
    (s.startedTimes.lookup key).any (fun started => config.timeoutDuration ≤ now - started) &&
      (s.buffers.lookup key).isSome

def Keyed.timeoutKey (s : Keyed V) (key : String) : Keyed V :=
  let flushed :=
    match s.buffers.lookup key with
    | some buffer =>
        let s := { s with buffers := s.buffers.erase key }
        if buffer.isEmpty then s else s.emit key buffer .timeout
    | none => s
  { flushed with startedTimes := flushed.startedTimes.erase key }

def Keyed.timer (config : Config V) (s : Keyed V) (now : Nat) (walk : Walk) : Keyed V :=
  if s.buffers.keys.isEmpty then s
  else (s.keysToFlush config now walk).foldl Keyed.timeoutKey s

def Keyed.step (config : Config V) (render : Event V → Except String (Option String))
    (s : Keyed V) : Input V → Except Error (Keyed V)
  | .recv now event => s.recv config render now event
  | .timer now walk => .ok (s.timer config now walk)

def Keyed.closeKey (s : Keyed V) (key : String) : Keyed V :=
  match s.buffers.lookup key with
  | some buffer => if buffer.isEmpty then s else s.emit key buffer .shutdown
  | none => s

/-- The channel is closed: all remaining buffers are flushed. -/
def Keyed.close (s : Keyed V) (walk : Walk) : Keyed V :=
  (walk.order s.buffers.keys).foldl Keyed.closeKey s

/-- `process_events` on an input that closes, without cancellation. -/
def processEvents (config : Config V) (inputs : List (Input V)) (walk : Walk) :
    Except Error (List (Output V)) :=
  match config.partitionKey with
  | none => do
      let s ← inputs.foldlM (Single.step config) {}
      return s.close.outputs
  | some render => do
      let s ← inputs.foldlM (Keyed.step config render) {}
      return (s.close walk).outputs

/-! ## What a batch carries -/

/-- The events received, in order. -/
def Input.event? : Input V → Option (Event V)
  | .recv _ event => some event
  | .timer _ _ => none

def received (inputs : List (Input V)) : List (Event V) := inputs.filterMap Input.event?

def Output.failed? : Output V → Option (Event V)
  | .failed event => some event
  | .batch _ => none

def Output.batch? : Output V → Option (Batch V)
  | .failed _ => none
  | .batch b => some b

/-- The origin of a batch of these events. -/
def originOf : List (Event V) → Origin V
  | [] => {}
  | e :: es => es.foldl (fun origin e => origin.add e.session) (.new e)

/-- The batch of the events `g`, collected under `key`. -/
structure Carries (b : Batch V) (key : Option String) (g : List (Event V)) : Prop where
  partitionKey : b.data.partitionKey = key
  batch : b.data.batch.map .json = g.map (·.data)
  batchSize : b.data.batchSize = g.length
  origin : b.origin = originOf g
  completions : b.upstreamCompletions = absorbAll (g.map (·.completionTx))

/-- The buffer an event goes to. -/
def Assigns (config : Config V) (key : Event V → Option String) (e : Event V) : Prop :=
  match config.partitionKey with
  | none => key e = none
  | some render => ∃ k, render e = .ok (some k) ∧ key e = some k

/-- What has been handed on after the events `es`, of which `b` is the
collection: the failed events, and a batch for each group. -/
structure Told (key : Event V → Option String) (es : List (Event V)) (outs : List (Output V))
    (b : Batcher (Option String) (Event V)) : Prop where
  items : ∀ k, b.items k = es.filter fun e => e.error.isNone && key e = k
  failed : outs.filterMap Output.failed? = es.filter (·.error.isSome)
  batches : List.Forall₂ (fun batch g => Carries batch g.1 g.2) (outs.filterMap Output.batch?)
    b.released

variable {key : Event V → Option String} {es pending : List (Event V)} {e : Event V}
  {outs : List (Output V)} {b : Batcher (Option String) (Event V)} {k : Option String}
  {buffer : List V} {reason : FlushReason} {origin : Origin V} {completions : List Nat} {data : V}

theorem originOf_append (h : pending ≠ []) :
    originOf (pending ++ [e]) = (originOf pending).add e.session := by
  cases pending with
  | nil => exact absurd rfl h
  | cons e' es => simp [originOf]

theorem absorbAll_append (completions : List (Option Nat)) (tx : Option Nat) :
    absorbAll (completions ++ [tx]) =
      match tx with
      | some u => absorbCompletion (absorbAll completions) u
      | none => absorbAll completions := by
  cases tx with
  | none => simp [absorbAll]
  | some u => simp [absorbAll]

variable (key) in
theorem told_empty : Told key [] ([] : List (Output V)) .empty :=
  ⟨fun _ => rfl, rfl, .nil⟩

/-- A failed event is passed on. -/
theorem Told.fail (h : Told key es outs b) (he : e.error.isSome = true) :
    Told key (es ++ [e]) (outs ++ [.failed e]) b := by
  have hn : e.error.isNone = false := by
    simpa [Option.isNone_iff_eq_none, Option.isSome_iff_ne_none] using he
  refine ⟨?_, ?_, ?_⟩
  · intro k
    rw [h.items, List.filter_append]
    simp [hn]
  · rw [List.filterMap_append, h.failed, List.filter_append]
    simp [Output.failed?, he]
  · simpa [List.filterMap_append, List.filterMap_cons, Output.batch?] using h.batches

/-- An event is collected. -/
theorem Told.add (h : Told key es outs b) (he : e.error = none) :
    Told key (es ++ [e]) outs (b.add (key e) e) := by
  refine ⟨?_, ?_, h.batches⟩
  · intro k
    rw [Batcher.items_add, h.items, List.filter_append]
    by_cases hk : key e = k <;> simp [he, hk]
  · rw [h.failed, List.filter_append]
    simp [he]

/-- Nothing waits under a key that no event has. -/
theorem Told.pending_eq_nil (h : Told key es outs b)
    (hk : ∀ e ∈ es, e.error = none → key e ≠ k) : b.pending k = [] := by
  have hitems := h.items k
  rw [List.filter_eq_nil_iff.mpr] at hitems
  · exact (List.append_eq_nil_iff.mp hitems).2
  · intro e he hcond
    obtain ⟨herr, hke⟩ := Bool.and_eq_true_iff.mp hcond
    exact hk e he (Option.isNone_iff_eq_none.mp herr) (of_decide_eq_true hke)

/-- What has been stored for the events that wait is flushed. -/
theorem Told.release (h : Told key es outs b)
    (hbatch : buffer.map .json = (b.pending k).map (·.data)) (horigin : origin = originOf (b.pending k))
    (hcompletions : completions = absorbAll ((b.pending k).map (·.completionTx))) :
    Told key es (outs ++ flush buffer reason k origin completions) (b.release k) := by
  have hlen : buffer.length = (b.pending k).length := by simpa using congrArg List.length hbatch
  by_cases hp : b.pending k = []
  · have hnil : buffer = [] := by simpa [hp] using hlen
    simpa [flush, hnil, Batcher.release_of_nil hp] using h
  · have hne : buffer.isEmpty = false := by
      rw [List.isEmpty_eq_false_iff]
      intro hnil
      exact hp (by simpa [hnil] using hlen.symm)
    refine ⟨?_, ?_, ?_⟩
    · intro k'
      rw [Batcher.items_release, h.items]
    · simpa [flush, hne, List.filterMap_append, List.filterMap_cons, Output.failed?] using h.failed
    · rw [Batcher.released_release hp, List.filterMap_append]
      refine List.rel_append h.batches ?_
      simpa [flush, hne, Output.batch?] using
        (⟨rfl, hbatch, hlen, horigin, hcompletions⟩ : Carries _ k (b.pending k))

/-- A batch is sent as it is: `flush_buffer` finds it not empty. -/
theorem Carries.sent {batch : Batch V} {g : List (Event V)} (h : Carries batch k g) (hg : g ≠ [])
    (tx : Bool) (toJson : FlushData V → V) :
    ∃ fl, flushBuffer tx toJson batch.data.batch batch.data.flushReason batch.data.partitionKey
      batch.upstreamCompletions = some fl ∧ fl.data = toJson batch.data := by
  have hlen : batch.data.batch.length = g.length := by simpa using congrArg List.length h.batch
  have hne : batch.data.batch.isEmpty = false := by
    rw [List.isEmpty_eq_false_iff]
    intro hnil
    exact hg (by simpa [hnil] using hlen.symm)
  have hsize : batch.data.batch.length = batch.data.batchSize := hlen.trans h.batchSize.symm
  simp only [flushBuffer, hne, Bool.false_eq_true, if_false, hsize]
  cases tx with
  | true => exact ⟨_, rfl, rfl⟩
  | false => exact ⟨_, rfl, rfl⟩

/-- What a run took, each step could take. -/
theorem accepted_of_run {S : Type} {step : S → Input V → Except Error S} {Taken : Event V → Prop}
    (hstep : ∀ s s' i, step s i = .ok s' → ∀ e, i.event? = some e → e.error = none → Taken e)
    {inputs : List (Input V)} {s s' : S} (h : inputs.foldlM step s = .ok s') :
    ∀ e ∈ received inputs, e.error = none → Taken e := by
  induction inputs generalizing s with
  | nil =>
      intro e he
      cases he
  | cons i inputs ih =>
      rw [List.foldlM_cons] at h
      cases hi : step s i with
      | error err =>
          rw [hi] at h
          cases h
      | ok s₁ =>
          rw [hi] at h
          intro e he
          rw [received, List.filterMap_cons] at he
          cases hev : i.event? with
          | none =>
              rw [hev] at he
              exact ih h e he
          | some e' =>
              rw [hev] at he
              rcases List.mem_cons.mp he with rfl | he
              · exact hstep s s₁ i hi e hev
              · exact ih h e he

/-! ## One buffer -/

/-- What is stored for the events that wait. -/
structure Single.Holds (s : Single V) (pending : List (Event V)) : Prop where
  buffer : s.buffer.map .json = pending.map (·.data)
  origin : s.origin = originOf pending
  completions : s.completions = absorbAll (pending.map (·.completionTx))

section Single

variable {config : Config V} {s : Single V} {now : Nat}

@[simp] theorem Single.buffer_open : (s.open now e).buffer = s.buffer := by
  rw [Single.open]
  split <;> rfl

@[simp] theorem Single.completions_open : (s.open now e).completions = s.completions := by
  rw [Single.open]
  split <;> rfl

@[simp] theorem Single.outputs_open : (s.open now e).outputs = s.outputs := by
  rw [Single.open]
  split <;> rfl

@[simp] theorem Single.buffer_absorb {tx : Option Nat} : (s.absorb tx).buffer = s.buffer := by
  cases tx <;> rfl

@[simp] theorem Single.origin_absorb {tx : Option Nat} : (s.absorb tx).origin = s.origin := by
  cases tx <;> rfl

@[simp] theorem Single.outputs_absorb {tx : Option Nat} : (s.absorb tx).outputs = s.outputs := by
  cases tx <;> rfl

theorem Single.Holds.isEmpty_iff (h : s.Holds pending) : s.buffer.isEmpty = true ↔ pending = [] := by
  have hlen : s.buffer.length = pending.length := by simpa using congrArg List.length h.buffer
  rw [List.isEmpty_iff_length_eq_zero, hlen, List.length_eq_zero_iff]

theorem Single.Holds.origin_open (h : s.Holds pending) :
    (s.open now e).origin = originOf (pending ++ [e]) := by
  rw [Single.open]
  split
  · rename_i he
    rw [h.isEmpty_iff.mp he]
    rfl
  · rename_i he
    rw [originOf_append (mt h.isEmpty_iff.mpr he), ← h.origin]

variable (now) in
/-- An event is collected. -/
theorem Single.Holds.collect (h : s.Holds pending) (hd : e.data = .json data) :
    (({ s.open now e with buffer := (s.open now e).buffer ++ [data] } : Single V).absorb
      e.completionTx).Holds (pending ++ [e]) := by
  refine ⟨?_, ?_, ?_⟩
  · simp [h.buffer, hd]
  · simp [h.origin_open]
  · rw [List.map_append, List.map_singleton, absorbAll_append, ← h.completions]
    cases e.completionTx <;> simp [Single.absorb]

/-- A flush releases the events that wait. -/
theorem Single.Holds.flush (h : s.Holds (b.pending none)) (ht : Told key es s.outputs b) :
    (s.flush reason).Holds ((b.release none).pending none) ∧
      Told key es (s.flush reason).outputs (b.release none) := by
  refine ⟨?_, ht.release h.buffer h.origin h.completions⟩
  rw [Batcher.pending_release_self]
  exact ⟨rfl, rfl, rfl⟩

variable (config now) in
theorem Single.recv_ok (h : s.Holds (b.pending none)) (ht : Told key es s.outputs b)
    (he : e.error = none → (∃ v, e.data = .json v) ∧ key e = none) :
    ∃ s' b', s.recv config now e = .ok s' ∧ s'.Holds (b'.pending none) ∧
      Told key (es ++ [e]) s'.outputs b' := by
  cases herr : e.error with
  | some error =>
      refine ⟨{ s with outputs := s.outputs ++ [.failed e] }, b, ?_, ⟨h.1, h.2, h.3⟩, ?_⟩
      · simp only [Single.recv, herr]
      · exact ht.fail (by simp [herr])
  | none =>
      obtain ⟨⟨data, hd⟩, hk⟩ := he herr
      have hc := h.collect now hd
      have hp : (b.add none e).pending none = b.pending none ++ [e] := Batcher.pending_add_self
      rw [← hp] at hc
      have ht' := ht.add herr
      rw [hk] at ht'
      simp only [Single.recv, herr, hd, jsonData]
      generalize hs : ({ s.open now e with buffer := (s.open now e).buffer ++ [data] } :
        Single V).absorb e.completionTx = s₁ at hc
      have hout : s₁.outputs = s.outputs := by rw [← hs]; simp
      rw [← hout] at ht'
      -- the buffer is full, the event completes the batch, or neither
      split
      · exact ⟨_, _, rfl, hc.flush ht'⟩
      · split
        · exact ⟨_, _, rfl, hc.flush ht'⟩
        · exact ⟨_, _, rfl, hc, ht'⟩

variable (config now) in
theorem Single.timer_ok (h : s.Holds (b.pending none)) (ht : Told key es s.outputs b) :
    ∃ b' : Batcher (Option String) (Event V), (s.timer config now).Holds (b'.pending none) ∧
      Told key es (s.timer config now).outputs b' := by
  rw [Single.timer]
  split
  · exact ⟨b, h, ht⟩
  · split
    · exact ⟨_, h.flush ht⟩
    · exact ⟨b, h, ht⟩

variable (config) in
theorem Single.run_ok {inputs : List (Input V)} (h : s.Holds (b.pending none))
    (ht : Told key es s.outputs b)
    (hin : ∀ e ∈ received inputs, e.error = none → (∃ v, e.data = .json v) ∧ key e = none) :
    ∃ s' b', inputs.foldlM (Single.step config) s = .ok s' ∧ s'.Holds (b'.pending none) ∧
      Told key (es ++ received inputs) s'.outputs b' := by
  induction inputs generalizing s b es with
  | nil => exact ⟨s, b, rfl, h, by simpa [received] using ht⟩
  | cons i inputs ih =>
      cases i with
      | recv now e =>
          have hcons : received (.recv now e :: inputs) = e :: received inputs := rfl
          rw [hcons] at hin ⊢
          obtain ⟨s₁, b₁, hs, h₁, ht₁⟩ :=
            Single.recv_ok config now h ht (hin e List.mem_cons_self)
          obtain ⟨s', b', hs', h', ht'⟩ :=
            ih h₁ ht₁ fun e he => hin e (List.mem_cons_of_mem _ he)
          refine ⟨s', b', ?_, h', by simpa using ht'⟩
          rw [List.foldlM_cons]
          simp only [Single.step, hs]
          exact hs'
      | timer now walk =>
          obtain ⟨b₁, h₁, ht₁⟩ := Single.timer_ok config now h ht
          exact ih h₁ ht₁ hin

/-- When the input closes, nothing waits any more. -/
theorem Single.close_ok (h : s.Holds (b.pending none)) (ht : Told key es s.outputs b) :
    Told key es s.close.outputs (b.release none) := by
  rw [Single.close]
  split
  · rename_i he
    rwa [Batcher.release_of_nil (h.isEmpty_iff.mp he)]
  · exact (h.flush ht).2

/-- What a step took, it could take. -/
theorem Single.accepted_of_step {s' : Single V} {i : Input V} (h : s.step config i = .ok s') :
    ∀ e, i.event? = some e → e.error = none → ∃ v, e.data = .json v := by
  intro e he herr
  cases i with
  | timer now walk => cases he
  | recv now e' =>
      obtain rfl : e' = e := Option.some.inj he
      rw [Single.step, Single.recv, herr] at h
      cases hd : e'.data with
      | json v => exact ⟨v, rfl⟩
      | arrowRecordBatch => simp [hd, jsonData] at h
      | avro => simp [hd, jsonData] at h
      | bytes => simp [hd, jsonData] at h

/-- However far a run has come, what waits and what has been handed on are the
events received. -/
theorem Single.held {inputs : List (Input V)}
    (hrun : inputs.foldlM (Single.step config) {} = .ok s) :
    ∃ b : Batcher (Option String) (Event V), s.Holds (b.pending none) ∧
      Told (fun _ => none) (received inputs) s.outputs b := by
  have hin := accepted_of_run (fun _ _ i h => Single.accepted_of_step (i := i) h) hrun
  obtain ⟨s', b, hs, hh, ht⟩ := Single.run_ok config (s := {}) (b := .empty) ⟨rfl, rfl, rfl⟩
    (told_empty fun _ => none) fun e he herr => ⟨hin e he herr, rfl⟩
  obtain rfl : s = s' := Except.ok.inj (hrun.symm.trans hs)
  exact ⟨b, hh, by simpa using ht⟩

end Single

/-! ## A buffer for each key -/

/-- What the four maps hold for the events that wait under a key. -/
structure Keyed.HoldsAt (s : Keyed V) (k : String) (pending : List (Event V)) : Prop where
  buffer : (s.buffers.lookup k).map (·.map .json) =
    if pending = [] then none else some (pending.map (·.data))
  origin : s.origins.lookup k = if pending = [] then none else some (originOf pending)
  completions : (s.completions.lookup k).getD [] = absorbAll (pending.map (·.completionTx))
  /-- An entry exists only while its key has a buffer. -/
  started : (s.startedTimes.lookup k).isSome = !pending.isEmpty

def Keyed.Holds (s : Keyed V) (b : Batcher (Option String) (Event V)) : Prop :=
  ∀ k, s.HoldsAt k (b.pending (some k))

section Keyed

variable {config : Config V} {render : Event V → Except String (Option String)} {s t : Keyed V}
  {now : Nat} {k k' : String} {walk : Walk}

theorem Keyed.HoldsAt.empty : ({} : Keyed V).HoldsAt k [] := ⟨rfl, rfl, rfl, rfl⟩

/-- Only the entries of the key matter. -/
theorem Keyed.HoldsAt.congr (h : s.HoldsAt k pending)
    (hb : t.buffers.lookup k = s.buffers.lookup k) (ho : t.origins.lookup k = s.origins.lookup k)
    (hc : t.completions.lookup k = s.completions.lookup k)
    (hs : t.startedTimes.lookup k = s.startedTimes.lookup k) : t.HoldsAt k pending :=
  ⟨hb ▸ h.buffer, ho ▸ h.origin, hc ▸ h.completions, hs ▸ h.started⟩

theorem Keyed.HoldsAt.lookup_eq_none (h : s.HoldsAt k pending) :
    s.buffers.lookup k = none ↔ pending = [] := by
  rw [← Option.map_eq_none_iff, h.buffer]
  split <;> simp_all

theorem Keyed.HoldsAt.of_lookup (h : s.HoldsAt k pending) (hb : s.buffers.lookup k = some buffer) :
    pending ≠ [] ∧ buffer.map .json = pending.map (·.data) ∧
      s.origins.lookup k = some (originOf pending) := by
  have hne : pending ≠ [] := fun hp => by simp [h.lookup_eq_none.mpr hp] at hb
  have hbuf := h.buffer
  have horg := h.origin
  rw [if_neg hne] at hbuf horg
  rw [hb] at hbuf
  exact ⟨hne, Option.some.inj hbuf, horg⟩

/-- A buffer in the map is not empty. -/
theorem Keyed.HoldsAt.buffer_ne_nil (h : s.HoldsAt k pending)
    (hb : s.buffers.lookup k = some buffer) : buffer.isEmpty = false := by
  obtain ⟨hne, hbuf, _⟩ := h.of_lookup hb
  rw [List.isEmpty_eq_false_iff]
  rintro rfl
  exact hne (by simpa using hbuf.symm)

/-- What a trigger flushes is what waits under the key. -/
theorem Keyed.HoldsAt.told (h : s.HoldsAt k (b.pending (some k)))
    (hb : s.buffers.lookup k = some buffer) (ht : Told key es s.outputs b) :
    Told key es (s.emit k buffer reason).outputs (b.release (some k)) := by
  obtain ⟨_, hbuf, horg⟩ := h.of_lookup hb
  refine ht.release hbuf ?_ h.completions
  rw [horg]
  rfl

/-- The entries of a key are gone from all four maps. -/
theorem Keyed.Holds.erase (h : s.Holds b) (hb : t.buffers = s.buffers.erase k)
    (ho : t.origins = s.origins.erase k) (hc : t.completions = s.completions.erase k)
    (hs : t.startedTimes = s.startedTimes.erase k) : t.Holds (b.release (some k)) := by
  intro k'
  by_cases hk : k' = k
  · subst hk
    rw [Batcher.pending_release_self]
    refine ⟨?_, ?_, ?_, ?_⟩
    · rw [hb, AList.lookup_erase]
      rfl
    · rw [ho, AList.lookup_erase]
      rfl
    · rw [hc, AList.lookup_erase]
      rfl
    · rw [hs, AList.lookup_erase]
      rfl
  · rw [Batcher.pending_release_ne fun he => hk (Option.some.inj he)]
    refine (h k').congr ?_ ?_ ?_ ?_
    · rw [hb, AList.lookup_erase_ne hk]
    · rw [ho, AList.lookup_erase_ne hk]
    · rw [hc, AList.lookup_erase_ne hk]
    · rw [hs, AList.lookup_erase_ne hk]

/-- The buffer is full, or an event completed it. -/
theorem Keyed.Holds.flushKey (h : s.Holds b) (ht : Told key es s.outputs b) :
    (s.flushKey k reason).Holds (b.release (some k)) ∧
      Told key es (s.flushKey k reason).outputs (b.release (some k)) := by
  rw [Keyed.flushKey]
  split
  · rename_i buffer hb
    exact ⟨h.erase rfl rfl rfl rfl, (h k).told hb ht⟩
  · rename_i hb
    rw [Batcher.release_of_nil ((h k).lookup_eq_none.mp hb)]
    exact ⟨h, ht⟩

/-- The timeout of the key has been exceeded.  The start of a batch goes even
where there is no buffer; that does not happen. -/
theorem Keyed.Holds.timeoutKey (h : s.Holds b) (ht : Told key es s.outputs b) :
    (s.timeoutKey k).Holds (b.release (some k)) ∧
      Told key es (s.timeoutKey k).outputs (b.release (some k)) := by
  rw [Keyed.timeoutKey]
  cases hb : s.buffers.lookup k with
  | some buffer =>
      simp only [(h k).buffer_ne_nil hb, Bool.false_eq_true, if_false]
      exact ⟨h.erase rfl rfl rfl rfl, (h k).told hb ht⟩
  | none =>
      have hp := (h k).lookup_eq_none.mp hb
      rw [Batcher.release_of_nil hp]
      refine ⟨?_, ht⟩
      intro k'
      by_cases hk : k' = k
      · subst hk
        have hk' := h k'
        refine ⟨hk'.buffer, hk'.origin, hk'.completions, ?_⟩
        simp [hp]
      · exact (h k').congr rfl rfl rfl (AList.lookup_erase_ne hk)

variable (config now walk) in
theorem Keyed.timer_ok (h : s.Holds b) (ht : Told key es s.outputs b) :
    ∃ b', (s.timer config now walk).Holds b' ∧ Told key es (s.timer config now walk).outputs b' := by
  have hfold : ∀ (ks : List String) (s : Keyed V) (b : Batcher (Option String) (Event V)),
      s.Holds b → Told key es s.outputs b →
      ∃ b', (ks.foldl Keyed.timeoutKey s).Holds b' ∧
        Told key es (ks.foldl Keyed.timeoutKey s).outputs b' := by
    intro ks
    induction ks with
    | nil =>
        intro s b h ht
        exact ⟨b, h, ht⟩
    | cons k ks ih =>
        intro s b h ht
        obtain ⟨h', ht'⟩ := h.timeoutKey (k := k) ht
        exact ih _ _ h' ht'
  rw [Keyed.timer]
  split
  · exact ⟨b, h, ht⟩
  · exact hfold _ s b h ht

/-! ### Collecting -/

/-- An entry is written for a key. -/
theorem Keyed.Holds.insert (h : s.Holds b) (hself : t.HoldsAt k (b.pending (some k) ++ [e]))
    (hb : ∀ k' ≠ k, t.buffers.lookup k' = s.buffers.lookup k')
    (ho : ∀ k' ≠ k, t.origins.lookup k' = s.origins.lookup k')
    (hc : ∀ k' ≠ k, t.completions.lookup k' = s.completions.lookup k')
    (hs : ∀ k' ≠ k, t.startedTimes.lookup k' = s.startedTimes.lookup k') :
    t.Holds (b.add (some k) e) := by
  intro k'
  by_cases hk : k' = k
  · subst hk
    rwa [Batcher.pending_add_self]
  · rw [Batcher.pending_add_ne fun he => hk (Option.some.inj he)]
    exact (h k').congr (hb k' hk) (ho k' hk) (hc k' hk) (hs k' hk)

variable (now) in
theorem Keyed.Holds.vacant (h : s.Holds b) (hb : s.buffers.lookup k = none)
    (hd : e.data = .json data) : (s.vacant now k e data).Holds (b.add (some k) e) := by
  have hp := (h k).lookup_eq_none.mp hb
  refine h.insert ?_ ?_ ?_ ?_ ?_
  · rw [hp]
    refine ⟨?_, ?_, ?_, ?_⟩
    · simp [Keyed.vacant, hd]
    · simp [Keyed.vacant, originOf]
    · have hc := (h k).completions
      rw [hp] at hc
      cases htx : e.completionTx with
      | none => simpa [Keyed.vacant, htx, absorbAll] using hc
      | some tx => simp [Keyed.vacant, htx, absorbAll, absorbCompletion]
    · simp [Keyed.vacant]
  · intro k' hk
    exact AList.lookup_insert_ne hk
  · intro k' hk
    exact AList.lookup_insert_ne hk
  · intro k' hk
    cases htx : e.completionTx <;> simp [Keyed.vacant, htx, AList.lookup_insert_ne hk]
  · intro k' hk
    exact AList.lookup_insert_ne hk

theorem Keyed.Holds.occupied (h : s.Holds b) (hb : s.buffers.lookup k = some buffer)
    (hd : e.data = .json data) : (s.occupied k buffer e data).Holds (b.add (some k) e) := by
  obtain ⟨hne, hbuf, horg⟩ := (h k).of_lookup hb
  refine h.insert ?_ ?_ ?_ ?_ ?_
  · refine ⟨?_, ?_, ?_, ?_⟩
    · simp [Keyed.occupied, hbuf, hd]
    · simp [Keyed.occupied, horg, originOf_append hne]
    · have hc := (h k).completions
      rw [List.map_append, List.map_singleton, absorbAll_append, ← hc]
      cases htx : e.completionTx <;> simp [Keyed.occupied, htx]
    · have hs := (h k).started
      have hne' : b.pending (some k) ++ [e] ≠ [] := by simp
      rw [List.isEmpty_eq_false_iff.mpr hne] at hs
      rw [List.isEmpty_eq_false_iff.mpr hne']
      exact hs
  · intro k' hk
    exact AList.lookup_insert_ne hk
  · intro k' hk
    simp [Keyed.occupied, horg, AList.lookup_insert_ne hk]
  · intro k' hk
    cases htx : e.completionTx <;> simp [Keyed.occupied, htx, AList.lookup_insert_ne hk]
  · intro k' hk
    rfl

variable (config now) in
theorem Keyed.collect_ok (h : s.Holds b) (ht : Told key es s.outputs b) (he : e.error = none)
    (hk : key e = some k) (hd : e.data = .json data) :
    ∃ b', (s.collect config now k e data).Holds b' ∧
      Told key (es ++ [e]) (s.collect config now k e data).outputs b' := by
  have ht' := ht.add he
  rw [hk] at ht'
  rw [Keyed.collect]
  split
  · rename_i hb
    have h' := h.vacant now hb hd
    dsimp only
    split
    · exact ⟨_, h'.flushKey ht'⟩
    · exact ⟨_, h', ht'⟩
  · rename_i buffer hb
    have h' := h.occupied hb hd
    dsimp only
    split
    · exact ⟨_, h'.flushKey ht'⟩
    · split
      · exact ⟨_, h'.flushKey ht'⟩
      · exact ⟨_, h', ht'⟩

variable (config now) in
theorem Keyed.recv_ok (h : s.Holds b) (ht : Told key es s.outputs b)
    (he : e.error = none →
      (∃ v, e.data = .json v) ∧ ∃ k, render e = .ok (some k) ∧ key e = some k) :
    ∃ s' b', s.recv config render now e = .ok s' ∧ s'.Holds b' ∧
      Told key (es ++ [e]) s'.outputs b' := by
  cases herr : e.error with
  | some error =>
      refine ⟨{ s with outputs := s.outputs ++ [.failed e] }, b, ?_, ?_, ?_⟩
      · simp only [Keyed.recv, herr]
      · intro k
        exact (h k).congr rfl rfl rfl rfl
      · exact ht.fail (by simp [herr])
  | none =>
      obtain ⟨⟨data, hd⟩, k, hr, hk⟩ := he herr
      obtain ⟨b', h', ht'⟩ := Keyed.collect_ok config now h ht herr hk hd
      refine ⟨_, b', ?_, h', ht'⟩
      simp only [Keyed.recv, herr, hr, hd, jsonData]

variable (config) in
theorem Keyed.run_ok {inputs : List (Input V)} (h : s.Holds b) (ht : Told key es s.outputs b)
    (hin : ∀ e ∈ received inputs, e.error = none →
      (∃ v, e.data = .json v) ∧ ∃ k, render e = .ok (some k) ∧ key e = some k) :
    ∃ s' b', inputs.foldlM (Keyed.step config render) s = .ok s' ∧ s'.Holds b' ∧
      Told key (es ++ received inputs) s'.outputs b' := by
  induction inputs generalizing s b es with
  | nil => exact ⟨s, b, rfl, h, by simpa [received] using ht⟩
  | cons i inputs ih =>
      cases i with
      | recv now e =>
          have hcons : received (.recv now e :: inputs) = e :: received inputs := rfl
          rw [hcons] at hin ⊢
          obtain ⟨s₁, b₁, hs, h₁, ht₁⟩ :=
            Keyed.recv_ok config now h ht (hin e List.mem_cons_self)
          obtain ⟨s', b', hs', h', ht'⟩ :=
            ih h₁ ht₁ fun e he => hin e (List.mem_cons_of_mem _ he)
          refine ⟨s', b', ?_, h', by simpa using ht'⟩
          rw [List.foldlM_cons]
          simp only [Keyed.step, hs]
          exact hs'
      | timer now walk =>
          obtain ⟨b₁, h₁, ht₁⟩ := Keyed.timer_ok config now walk h ht
          exact ih h₁ ht₁ hin

/-! ### Closing -/

/-- Flushing the remaining buffers in any order releases their keys. -/
theorem Keyed.foldl_closeKey (ks : List String) (hnd : ks.Nodup)
    (h : ∀ k ∈ ks, s.HoldsAt k (b.pending (some k))) (ht : Told key es s.outputs b) :
    Told key es (ks.foldl Keyed.closeKey s).outputs (b.releaseAll (ks.map some)) := by
  induction ks generalizing s b with
  | nil => exact ht
  | cons k ks ih =>
      obtain ⟨hk, hnd'⟩ := List.nodup_cons.mp hnd
      have hself := h k List.mem_cons_self
      rw [List.foldl_cons, List.map_cons, Batcher.releaseAll_cons]
      refine ih hnd' (fun k' hk' => ?_) ?_
      · -- the entries of the keys still to be flushed are as they were
        have hne : k' ≠ k := fun he => hk (he ▸ hk')
        rw [Batcher.pending_release_ne fun he => hne (Option.some.inj he)]
        have hrest := h k' (List.mem_cons_of_mem _ hk')
        rw [Keyed.closeKey]
        split
        · split
          · exact hrest
          · exact hrest.congr rfl (AList.lookup_erase_ne hne) (AList.lookup_erase_ne hne) rfl
        · exact hrest
      · rw [Keyed.closeKey]
        split
        · rename_i buffer hb
          rw [hself.buffer_ne_nil hb, if_neg Bool.false_ne_true]
          exact hself.told hb ht
        · rename_i hb
          rwa [Batcher.release_of_nil (hself.lookup_eq_none.mp hb)]

variable (walk) in
theorem Keyed.close_ok (h : s.Holds b) (ht : Told key es s.outputs b) :
    ∃ b', Told key es (s.close walk).outputs b' ∧ ∀ k, b'.pending (some k) = [] := by
  have hperm := walk.perm s.buffers.keys
  refine ⟨_, Keyed.foldl_closeKey _ (hperm.nodup_iff.mpr s.buffers.keys_nodup)
    (fun k _ => h k) ht, ?_⟩
  intro k
  rw [Batcher.pending_releaseAll]
  split
  · rfl
  · rename_i hk
    refine (h k).lookup_eq_none.mp (AList.lookup_eq_none.mpr fun hmem => hk ?_)
    exact List.mem_map_of_mem (hperm.mem_iff.mpr (AList.mem_keys.mp hmem))

/-- The key an event is collected under. -/
def renderedKey (render : Event V → Except String (Option String)) (e : Event V) : Option String :=
  (render e).toOption.join

/-- What a step took, it could take. -/
theorem Keyed.accepted_of_step {s' : Keyed V} {i : Input V} (h : s.step config render i = .ok s') :
    ∀ e, i.event? = some e → e.error = none →
      (∃ v, e.data = .json v) ∧ ∃ k, render e = .ok (some k) ∧ renderedKey render e = some k := by
  intro e he herr
  cases i with
  | timer now walk => cases he
  | recv now e' =>
      obtain rfl : e' = e := Option.some.inj he
      rw [Keyed.step, Keyed.recv, herr] at h
      cases hr : render e' with
      | error source => simp [hr] at h
      | ok key =>
          cases key with
          | none => simp [hr] at h
          | some k =>
              refine ⟨?_, k, rfl, by rw [renderedKey, hr]; rfl⟩
              cases hd : e'.data with
              | json v => exact ⟨v, rfl⟩
              | arrowRecordBatch => simp [hr, hd, jsonData] at h
              | avro => simp [hr, hd, jsonData] at h
              | bytes => simp [hr, hd, jsonData] at h

/-- However far a run has come, what waits and what has been handed on are the
events received. -/
theorem Keyed.held {inputs : List (Input V)}
    (hrun : inputs.foldlM (Keyed.step config render) {} = .ok s) :
    ∃ b, s.Holds b ∧ Told (renderedKey render) (received inputs) s.outputs b := by
  have hin := accepted_of_run (fun _ _ i h => Keyed.accepted_of_step (i := i) h) hrun
  obtain ⟨s', b, hs, hh, ht⟩ := Keyed.run_ok config (s := {}) (b := .empty)
    (fun k => Keyed.HoldsAt.empty) (told_empty (renderedKey render)) hin
  obtain rfl : s = s' := Except.ok.inj (hrun.symm.trans hs)
  exact ⟨b, hh, by simpa using ht⟩

end Keyed

/-! ## Conservation -/

/-- An event whose turn the loop can take: its data is JSON, and it has a key. -/
def Accepted (config : Config V) (key : Event V → Option String) (e : Event V) : Prop :=
  e.error = none → (∃ v, e.data = .json v) ∧ Assigns config key e

/-- Whatever the triggers do, the batches of a key are the events of that key
in the order of their arrival, split into groups that are not empty; each
batch has absorbed the completions of its own events; and the failed events
are passed on. -/
theorem batches_conserve (config : Config V) (key : Event V → Option String)
    (inputs : List (Input V)) (walk : Walk) (h : ∀ e ∈ received inputs, Accepted config key e) :
    ∃ outs, processEvents config inputs walk = .ok outs ∧
      outs.filterMap Output.failed? = (received inputs).filter (·.error.isSome) ∧
      ∃ groups : List (Option String × List (Event V)),
        List.Forall₂ (fun batch g => Carries batch g.1 g.2) (outs.filterMap Output.batch?) groups ∧
        (∀ g ∈ groups, g.2 ≠ []) ∧
        ∀ k, (groups.filter (·.1 = k)).flatMap (·.2) =
          (received inputs).filter fun e => e.error.isNone && key e = k := by
  have hfinal : ∃ outs b, processEvents config inputs walk = .ok outs ∧
      Told key (received inputs) outs b ∧ ∀ k, b.pending k = [] := by
    rw [processEvents]
    cases hp : config.partitionKey with
    | none =>
        have hin : ∀ e ∈ received inputs, e.error = none →
            (∃ v, e.data = .json v) ∧ key e = none := by
          intro e he herr
          simpa [Assigns, hp] using h e he herr
        obtain ⟨s, b, hs, hh, ht⟩ := Single.run_ok config (s := {}) (b := .empty)
          ⟨rfl, rfl, rfl⟩ (told_empty key) hin
        have hclosed := Single.close_ok hh ht
        refine ⟨_, _, ?_, hclosed, ?_⟩
        · simp only [hs]
          rfl
        · intro k
          cases k with
          | none => exact Batcher.pending_release_self
          | some k =>
              refine hclosed.pending_eq_nil fun e he herr => ?_
              simp [(hin e he herr).2]
    | some render =>
        have hin : ∀ e ∈ received inputs, e.error = none →
            (∃ v, e.data = .json v) ∧ ∃ k, render e = .ok (some k) ∧ key e = some k := by
          intro e he herr
          simpa [Assigns, hp] using h e he herr
        obtain ⟨s, b, hs, hh, ht⟩ := Keyed.run_ok config (s := {}) (b := .empty)
          (fun k => Keyed.HoldsAt.empty) (told_empty key) hin
        obtain ⟨b', ht', hpend⟩ := Keyed.close_ok walk hh ht
        refine ⟨_, b', ?_, ht', ?_⟩
        · simp only [hs]
          rfl
        · intro k
          cases k with
          | some k => exact hpend k
          | none =>
              refine ht'.pending_eq_nil fun e he herr => ?_
              obtain ⟨k, _, hk⟩ := (hin e he herr).2
              simp [hk]
  obtain ⟨outs, b, hout, ht, hpend⟩ := hfinal
  refine ⟨outs, hout, ht.failed, b.released, ht.batches, b.nonempty, ?_⟩
  intro k
  rw [Batcher.flatMap_released_of_drained (hpend k), ht.items]

/-- Two keys, a failed event that is not JSON, and a timer that fires between
the events. -/
theorem batches_conserve_two_keys :
    let key : Event Nat → String := fun e => if e.metaMap = some 1 then "a" else "b"
    let config : Config Nat := { size := 2, partitionKey := some fun e => .ok (some (key e)) }
    let walk : Walk := ⟨List.reverse, List.reverse_perm⟩
    let inputs : List (Input Nat) :=
      [.recv 0 { data := .json 10, metaMap := some 1, completionTx := some 4 },
        .recv 1 { data := .json 20 }, .recv 2 { data := .bytes, error := some "boom" },
        .timer 30000 walk, .recv 30001 { data := .json 30, metaMap := some 1 }]
    ∃ (outs : List (Output Nat)) (groups : List (Option String × List (Event Nat))),
      processEvents config inputs walk = .ok outs ∧
      (outs.filterMap Output.failed?).length = 1 ∧
      List.Forall₂ (fun batch g => Carries batch g.1 g.2) (outs.filterMap Output.batch?) groups ∧
      ((groups.filter (·.1 = some "a")).flatMap (·.2)).length = 2 := by
  intro key config walk inputs
  have hin : ∀ e ∈ received inputs, Accepted config (fun e => some (key e)) e := by
    intro e he herr
    simp only [inputs, received, Input.event?, List.filterMap_cons, List.filterMap_nil,
      List.mem_cons, List.not_mem_nil, or_false] at he
    rcases he with rfl | rfl | rfl | rfl
    · exact ⟨⟨10, rfl⟩, _, rfl, rfl⟩
    · exact ⟨⟨20, rfl⟩, _, rfl, rfl⟩
    · cases herr
    · exact ⟨⟨30, rfl⟩, _, rfl, rfl⟩
  obtain ⟨outs, hout, hfailed, groups, hbatches, _, hgroups⟩ :=
    batches_conserve config (fun e => some (key e)) inputs walk hin
  refine ⟨outs, groups, hout, ?_, hbatches, ?_⟩
  · rw [hfailed]
    rfl
  · rw [hgroups]
    rfl

end Flowgen.Task.Batching
