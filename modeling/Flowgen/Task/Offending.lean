/-
# `Flowgen.Task.Offending` — an event a buffer cannot batch

A buffer takes JSON events, and with a partition key those whose key renders.
Any other event makes `process_events` return with an error, out of the loop
that owns the buffers; `Processor::run` logs the error and ends.  What was
buffered is dropped with its completions, and what still comes is not read.

`processorRun` is what has been handed on by then.  `Kept` says that every
event that can be batched is in a batch of its key, with its completion, and

    Kept ↔ whenever an event is met that cannot be batched, nothing is buffered
             and no event that can be batched follows

holds for both loops (`buffered_kept_iff`).  The two have in common what `BatchLoop`
lists, and the argument is made once, about that.
-/
import Flowgen.Task.Batching

namespace Flowgen.Task.Batching

open Flowgen.Lib Flowgen.Task.Buffer

variable {V : Type}

/-- A loop over inputs, up to the first error: the state it had then, and what it had
not read. -/
def runLoop {σ : Type} (step : σ → Input V → Except Error σ) :
    σ → List (Input V) → σ × Option (Error × List (Input V))
  | s, [] => (s, none)
  | s, i :: inputs =>
      match step s i with
      | .ok s' => runLoop step s' inputs
      | .error e => (s, some (e, inputs))

/-- What has been handed on when a loop ends, and the error that ended it. -/
def ended {σ : Type} (outputs closed : σ → List (Output V))
    (r : σ × Option (Error × List (Input V))) : List (Output V) × Option Error :=
  match r with
  | (s, none) => (closed s, none)
  | (s, some (e, _)) => (outputs s, some e)

/-- `Processor::run`, on an input that closes: what it has handed on, and the error it logs. -/
def processorRun (config : Config V) (inputs : List (Input V)) (walk : Walk) :
    List (Output V) × Option Error :=
  match config.partitionKey with
  | none => ended (·.outputs) (·.close.outputs) (runLoop (Single.step config) {} inputs)
  | some render =>
      ended (·.outputs) (fun s => (s.close walk).outputs)
        (runLoop (Keyed.step config render) {} inputs)

/-- The buffer an event goes to, where there is one. -/
def Config.bufferOf (config : Config V) (e : Event V) : Option (Option String) :=
  match config.partitionKey with
  | none => some none
  | some render =>
      match render e with
      | .ok (some k) => some (some k)
      | _ => none

/-- The key an event is batched under. -/
def Config.keyOf (config : Config V) (e : Event V) : Option String := (config.bufferOf e).getD none

def EventData.isJson : EventData V → Bool
  | .json _ => true
  | _ => false

/-- The event has not failed upstream, its data is JSON, and it has a key. -/
def Config.batchable (config : Config V) (e : Event V) : Bool :=
  e.error.isNone && e.data.isJson && (config.bufferOf e).isSome

/-- The event makes the loop return. -/
def Offends (config : Config V) (e : Event V) : Prop :=
  e.error = none ∧ config.batchable e = false

/-- Every event that can be batched is in a batch of its key, and its completion is
absorbed there. -/
def Kept (config : Config V) (inputs : List (Input V)) (outs : List (Output V)) : Prop :=
  ∃ groups : List (Option String × List (Event V)),
    List.Forall₂ (fun batch g => Carries batch g.1 g.2) (outs.filterMap Output.batch?) groups ∧
    ∀ k, ((received inputs).filter fun e => config.batchable e && config.keyOf e = k).Subperm
      ((groups.filter (·.1 = k)).flatMap (·.2))

/-- Where an event is met that cannot be batched, nothing is buffered, and none that can
be batched follows. -/
def MetIdle (config : Config V) {σ : Type} (step : σ → Input V → Except Error σ)
    (idle : σ → Prop) (start : σ) (inputs : List (Input V)) : Prop :=
  ∀ pre now e post s, inputs = pre ++ .recv now e :: post → pre.foldlM step start = .ok s →
    Offends config e → idle s ∧ ∀ e' ∈ received post, config.batchable e' = false

def Single.Idle (s : Single V) : Prop := s.buffer = []

def Keyed.Idle (s : Keyed V) : Prop := ∀ k, s.buffers.lookup k = none

def OffendedIdle (config : Config V) (inputs : List (Input V)) : Prop :=
  match config.partitionKey with
  | none => MetIdle config (Single.step config) Single.Idle {} inputs
  | some render => MetIdle config (Keyed.step config render) Keyed.Idle {} inputs

/-! ## What the two loops have in common -/

variable {config : Config V} {e : Event V} {inputs pre post : List (Input V)} {now : Nat}

theorem accepted_iff : Accepted config config.keyOf e ↔ ¬ Offends config e := by
  simp only [Accepted, Offends, Assigns, Config.keyOf, Config.batchable, Config.bufferOf]
  cases herr : e.error with
  | some error => simp
  | none =>
      cases hdata : e.data with
      | json v =>
          cases hpart : config.partitionKey with
          | none => simp [EventData.isJson]
          | some render =>
              rcases hrender : render e with source | (_ | k)
              · simp [EventData.isJson, hrender]
              · simp [EventData.isJson, hrender]
              · simp [EventData.isJson, hrender]
      | arrowRecordBatch => simp [EventData.isJson]
      | avro => simp [EventData.isJson]
      | bytes => simp [EventData.isJson]

/-- A loop that collects accepted events in a batcher, and refuses the others. -/
structure BatchLoop (config : Config V) (walk : Walk) where
  State : Type
  step : State → Input V → Except Error State
  start : State
  outputs : State → List (Output V)
  closed : State → List (Output V)
  Idle : State → Prop
  run_ok : ∀ inputs, (∀ e ∈ received inputs, ¬ Offends config e) →
    ∃ s b, inputs.foldlM step start = .ok s ∧ Told config.keyOf (received inputs) (outputs s) b ∧
      (Idle s ↔ ∀ k, b.pending k = []) ∧
      ∃ b', Told config.keyOf (received inputs) (closed s) b' ∧ ∀ k, b'.pending k = []
  refuses : ∀ s now e, Offends config e → ∃ err, step s (.recv now e) = .error err

/-- What the loop has handed on when it ends. -/
def BatchLoop.run {walk : Walk} (L : BatchLoop config walk) (inputs : List (Input V)) :
    List (Output V) :=
  (ended L.outputs L.closed (runLoop L.step L.start inputs)).1

/-! ## Where a loop stops -/

section Stop

variable {σ : Type} {step : σ → Input V → Except Error σ} {s t : σ}

theorem runLoop_of_ok : ∀ {inputs : List (Input V)} {s : σ}, inputs.foldlM step s = .ok t →
    runLoop step s inputs = (t, none)
  | [], s, h => by
      cases h
      rfl
  | i :: inputs, s, h => by
      rw [List.foldlM_cons] at h
      rw [runLoop]
      cases hs : step s i with
      | ok u =>
          rw [hs] at h
          exact runLoop_of_ok h
      | error err =>
          rw [hs] at h
          cases h

theorem runLoop_of_error {i : Input V} {err : Error} (herr : step t i = .error err) :
    ∀ {pre : List (Input V)} {s : σ}, pre.foldlM step s = .ok t →
      runLoop step s (pre ++ i :: post) = (t, some (err, post))
  | [], s, h => by
      cases h
      rw [List.nil_append, runLoop, herr]
  | j :: pre, s, h => by
      rw [List.foldlM_cons] at h
      rw [List.cons_append, runLoop]
      cases hs : step s j with
      | ok u =>
          rw [hs] at h
          exact runLoop_of_error herr h
      | error err =>
          rw [hs] at h
          cases h

theorem foldlM_error {i : Input V} {err : Error} (herr : step t i = .error err)
    {pre : List (Input V)} (h : pre.foldlM step s = .ok t) :
    (pre ++ i :: post).foldlM step s = .error err := by
  rw [List.foldlM_append, h]
  change (i :: post).foldlM step t = .error err
  rw [List.foldlM_cons, herr]
  rfl

end Stop

theorem received_append (pre post : List (Input V)) :
    received (pre ++ post) = received pre ++ received post := List.filterMap_append

theorem received_recv (now : Nat) (e : Event V) (post : List (Input V)) :
    received (.recv now e :: post) = e :: received post := rfl

/-- The first event that offends, if there is one. -/
theorem first_offending (config : Config V) : ∀ inputs : List (Input V),
    (∀ e ∈ received inputs, ¬ Offends config e) ∨
      ∃ pre now e post, inputs = pre ++ .recv now e :: post ∧
        (∀ e' ∈ received pre, ¬ Offends config e') ∧ Offends config e
  | [] => .inl fun e he => by cases he
  | .timer now walk :: inputs => by
      rcases first_offending config inputs with hall | ⟨pre, now', e, post, rfl, hpre, he⟩
      · exact .inl hall
      · exact .inr ⟨.timer now walk :: pre, now', e, post, rfl, hpre, he⟩
  | .recv now e :: inputs => by
      by_cases he : Offends config e
      · refine .inr ⟨[], now, e, inputs, rfl, ?_, he⟩
        intro e' he'
        cases he'
      · rcases first_offending config inputs with hall | ⟨pre, now', e', post, rfl, hpre, he'⟩
        · refine .inl ?_
          rw [received_recv]
          intro e' he'
          rcases List.mem_cons.mp he' with rfl | he'
          · exact he
          · exact hall e' he'
        · refine .inr ⟨.recv now e :: pre, now', e', post, rfl, ?_, he'⟩
          rw [received_recv]
          intro e'' he''
          rcases List.mem_cons.mp he'' with rfl | he''
          · exact he
          · exact hpre e'' he''

/-- Two splits of the inputs at an event that offends, with none before it. -/
theorem split_unique {pre' post' : List (Input V)} {now' : Nat} {e' : Event V}
    (hpre : ∀ u ∈ received pre, ¬ Offends config u) (he : Offends config e)
    (hpre' : ∀ u ∈ received pre', ¬ Offends config u) (he' : Offends config e')
    (h : pre ++ .recv now e :: post = pre' ++ .recv now' e' :: post') : pre = pre' ∧ post = post' := by
  rcases List.append_eq_append_iff.mp h with ⟨mid, rfl, hmid⟩ | ⟨mid, rfl, hmid⟩
  · cases mid with
    | nil =>
        obtain ⟨_, rfl⟩ := List.cons.inj hmid
        exact ⟨(List.append_nil _).symm, rfl⟩
    | cons i mid =>
        obtain ⟨rfl, _⟩ := List.cons.inj hmid
        refine absurd he (hpre' e ?_)
        rw [received_append, received_recv]
        exact List.mem_append_right _ List.mem_cons_self
  · cases mid with
    | nil =>
        obtain ⟨_, rfl⟩ := List.cons.inj hmid
        exact ⟨List.append_nil _, rfl⟩
    | cons i mid =>
        obtain ⟨rfl, _⟩ := List.cons.inj hmid
        refine absurd he' (hpre e' ?_)
        rw [received_append, received_recv]
        exact List.mem_append_right _ List.mem_cons_self

/-! ## What is kept -/

/-- How many events the batches of a key have can be read off the batches. -/
theorem length_of_carries {batches : List (Batch V)} {groups : List (Option String × List (Event V))}
    (h : List.Forall₂ (fun batch g => Carries batch g.1 g.2) batches groups) (k : Option String) :
    ((groups.filter (·.1 = k)).flatMap (·.2)).length =
      ((batches.filter (·.data.partitionKey = k)).map (·.data.batchSize)).sum := by
  induction h with
  | nil => rfl
  | @cons batch g batches groups hc _ ih =>
      by_cases hk : g.1 = k
      · simp [hc.partitionKey, hk, hc.batchSize, ih]
      · simp [hc.partitionKey, hk, ih]

/-- Among events that do not offend, those that have not failed can be batched. -/
theorem filter_batchable (h : ∀ e ∈ received inputs, ¬ Offends config e) (k : Option String) :
    (received inputs).filter (fun e => config.batchable e && config.keyOf e = k) =
      (received inputs).filter fun e => e.error.isNone && config.keyOf e = k := by
  refine List.filter_congr fun e he => ?_
  have hno := h e he
  cases herr : e.error with
  | some error => simp [Config.batchable, herr]
  | none =>
      have hb : config.batchable e = true := by
        by_contra hb
        exact hno ⟨herr, by simpa using hb⟩
      simp [hb]

theorem kept_of_drained {es : List (Event V)} {outs : List (Output V)}
    {b : Batcher (Option String) (Event V)} (ht : Told config.keyOf es outs b)
    (hdrained : ∀ k, b.pending k = [])
    (hes : ∀ k, (received inputs).filter (fun e => config.batchable e && config.keyOf e = k) =
      es.filter fun e => e.error.isNone && config.keyOf e = k) : Kept config inputs outs := by
  refine ⟨b.released, ht.batches, ?_⟩
  intro k
  rw [Batcher.flatMap_released_of_drained (hdrained k), ht.items, hes]

theorem BatchLoop.keeps_iff {walk : Walk} (L : BatchLoop config walk) (inputs : List (Input V)) :
    Kept config inputs (L.run inputs) ↔ MetIdle config L.step L.Idle L.start inputs := by
  have hclean : ∀ {pre : List (Input V)} {s : L.State}, pre.foldlM L.step L.start = .ok s →
      ∀ e ∈ received pre, ¬ Offends config e := by
    intro pre s hs
    rcases first_offending config pre with hall | ⟨pre', now, e, post, rfl, hpre', he⟩
    · exact hall
    · obtain ⟨t, _, ht, _⟩ := L.run_ok pre' hpre'
      obtain ⟨err, herr⟩ := L.refuses t now e he
      rw [foldlM_error herr ht] at hs
      cases hs
  rcases first_offending config inputs with hall | ⟨pre, now, e, post, rfl, hpre, he⟩
  · obtain ⟨s, _, hs, _, _, b', hclosed, hdrained⟩ := L.run_ok inputs hall
    refine iff_of_true ?_ ?_
    · rw [BatchLoop.run, runLoop_of_ok hs]
      exact kept_of_drained hclosed hdrained (filter_batchable hall)
    · intro pre now e post s hsplit _ he
      refine absurd he (hall e ?_)
      rw [hsplit, received_append, received_recv]
      exact List.mem_append_right _ List.mem_cons_self
  · obtain ⟨s, b, hs, ht, hidle, _⟩ := L.run_ok pre hpre
    obtain ⟨err, herr⟩ := L.refuses s now e he
    have hrun : L.run (pre ++ .recv now e :: post) = L.outputs s := by
      rw [BatchLoop.run, runLoop_of_error herr hs]
      rfl
    have hreceived : ∀ k, (received (pre ++ .recv now e :: post)).filter
        (fun e => config.batchable e && config.keyOf e = k) =
        b.items k ++ (received post).filter fun e => config.batchable e && config.keyOf e = k := by
      intro k
      rw [received_append, received_recv, List.filter_append, filter_batchable hpre, ← ht.items]
      simp [he.2]
    constructor
    · rintro ⟨groups, hgroups, hsub⟩
      rw [hrun] at hgroups
      have hzero : ∀ k, b.pending k = [] ∧
          (received post).filter (fun e => config.batchable e && config.keyOf e = k) = [] := by
        intro k
        have hle := (hsub k).length_le
        rw [hreceived, length_of_carries hgroups, ← length_of_carries ht.batches k,
          Batcher.items, List.length_append, List.length_append] at hle
        exact ⟨List.length_eq_zero_iff.mp (by omega), List.length_eq_zero_iff.mp (by omega)⟩
      intro pre' now' e' post' s' hsplit hs' he'
      obtain ⟨rfl, rfl⟩ := split_unique hpre he (hclean hs') he' hsplit
      obtain rfl : s = s' := Except.ok.inj (hs.symm.trans hs')
      refine ⟨hidle.mpr fun k => (hzero k).1, ?_⟩
      intro u hu
      have := List.filter_eq_nil_iff.mp (hzero (config.keyOf u)).2 u hu
      simpa using this
    · intro hmet
      obtain ⟨hi, hpost⟩ := hmet pre now e post s rfl hs he
      rw [hrun]
      refine kept_of_drained ht (hidle.mp hi) ?_
      intro k
      have hnone : (received post).filter
          (fun e => config.batchable e && config.keyOf e = k) = [] := by
        refine List.filter_eq_nil_iff.mpr fun u hu => ?_
        simp [hpost u hu]
      rw [hreceived, ht.items, hnone, List.append_nil]

/-! ## The two loops -/

/-- `process_events_single` as a loop. -/
def singleLoop (config : Config V) (walk : Walk) (hp : config.partitionKey = none) :
    BatchLoop config walk where
  State := Single V
  step := Single.step config
  start := {}
  outputs s := s.outputs
  closed s := s.close.outputs
  Idle := Single.Idle
  run_ok inputs hall := by
    have hin : ∀ e ∈ received inputs, e.error = none →
        (∃ v, e.data = .json v) ∧ config.keyOf e = none := by
      intro e he herr
      simpa [Assigns, hp] using accepted_iff.mpr (hall e he) herr
    obtain ⟨s, b, hs, hh, ht⟩ := Single.run_ok config (s := {}) (b := .empty)
      ⟨rfl, rfl, rfl⟩ (told_empty config.keyOf) hin
    have hother : ∀ k, b.pending (some k) = [] := fun k =>
      ht.pending_eq_nil fun e he herr => by simp [(hin e he herr).2]
    have hclosed := Single.close_ok hh ht
    refine ⟨s, b, hs, ht, ?_, b.release none, hclosed, ?_⟩
    · have hidle : s.Idle ↔ b.pending none = [] :=
        List.isEmpty_iff.symm.trans hh.isEmpty_iff
      refine hidle.trans ⟨fun h k => ?_, fun h => h none⟩
      cases k with
      | none => exact h
      | some k => exact hother k
    · intro k
      cases k with
      | none => exact Batcher.pending_release_self
      | some k =>
          rw [Batcher.pending_release_ne (by simp)]
          exact hother k
  refuses s now e he := by
    obtain ⟨herr, hb⟩ := he
    simp only [Single.step, Single.recv, herr]
    cases hdata : e.data with
    | json v => simp [Config.batchable, Config.bufferOf, herr, hdata, hp, EventData.isJson] at hb
    | arrowRecordBatch => exact ⟨_, rfl⟩
    | avro => exact ⟨_, rfl⟩
    | bytes => exact ⟨_, rfl⟩

/-- `process_events_keyed` as a loop. -/
def keyedLoop (config : Config V) (walk : Walk) (render : Event V → Except String (Option String))
    (hp : config.partitionKey = some render) : BatchLoop config walk where
  State := Keyed V
  step := Keyed.step config render
  start := {}
  outputs s := s.outputs
  closed s := (s.close walk).outputs
  Idle := Keyed.Idle
  run_ok inputs hall := by
    have hin : ∀ e ∈ received inputs, e.error = none →
        (∃ v, e.data = .json v) ∧ ∃ k, render e = .ok (some k) ∧ config.keyOf e = some k := by
      intro e he herr
      simpa [Assigns, hp] using accepted_iff.mpr (hall e he) herr
    obtain ⟨s, b, hs, hh, ht⟩ := Keyed.run_ok config (s := {}) (b := .empty)
      (fun k => Keyed.HoldsAt.empty) (told_empty config.keyOf) hin
    have hnone : ∀ {es outs b}, Told config.keyOf es outs b → es = received inputs →
        b.pending none = [] := by
      rintro es outs b ht rfl
      refine ht.pending_eq_nil fun e he herr => ?_
      obtain ⟨k, _, hk⟩ := (hin e he herr).2
      simp [hk]
    obtain ⟨b', hclosed, hdrained⟩ := Keyed.close_ok walk hh ht
    refine ⟨s, b, hs, ht, ?_, b', hclosed, ?_⟩
    · constructor
      · intro h k
        cases k with
        | none => exact hnone ht (List.nil_append _)
        | some k => exact (hh k).lookup_eq_none.mp (h k)
      · intro h k
        exact (hh k).lookup_eq_none.mpr (h (some k))
    · intro k
      cases k with
      | none => exact hnone hclosed (List.nil_append _)
      | some k => exact hdrained k
  refuses s now e he := by
    obtain ⟨herr, hb⟩ := he
    simp only [Keyed.step, Keyed.recv, herr]
    rcases hrender : render e with source | (_ | k)
    · exact ⟨_, rfl⟩
    · exact ⟨_, rfl⟩
    · cases hdata : e.data with
      | json v =>
          simp [Config.batchable, Config.bufferOf, herr, hdata, hp, hrender, EventData.isJson] at hb
      | arrowRecordBatch => exact ⟨_, rfl⟩
      | avro => exact ⟨_, rfl⟩
      | bytes => exact ⟨_, rfl⟩

/-- Everything that can be batched is, exactly if every event that cannot be is met with
nothing buffered and with nothing to come. -/
theorem buffered_kept_iff (config : Config V) (inputs : List (Input V)) (walk : Walk) :
    Kept config inputs (processorRun config inputs walk).1 ↔ OffendedIdle config inputs := by
  rw [processorRun, OffendedIdle]
  cases hp : config.partitionKey with
  | none => exact (singleLoop config walk hp).keeps_iff inputs
  | some render => exact (keyedLoop config walk render hp).keeps_iff inputs

/-- One event waits in the buffer when an Avro event comes: nothing is ever flushed. -/
theorem buffered_lost :
    let config : Config Nat := { size := 10 }
    let inputs : List (Input Nat) :=
      [.recv 0 { data := .json 7, completionTx := some 3 }, .recv 1 { data := .avro }]
    let walk : Walk := ⟨id, fun ks => .refl ks⟩
    processorRun config inputs walk = ([], some .expectedJsonGotAvro) ∧
      ¬ Kept config inputs (processorRun config inputs walk).1 := by
  intro config inputs walk
  refine ⟨rfl, ?_⟩
  rintro ⟨groups, hgroups, hsub⟩
  obtain rfl : groups = [] := List.forall₂_nil_left_iff.mp hgroups
  have hlen := (hsub none).length_le
  have hone : ((received inputs).filter fun e => config.batchable e && config.keyOf e = none).length
      = 1 := rfl
  rw [hone] at hlen
  cases hlen

end Flowgen.Task.Batching
