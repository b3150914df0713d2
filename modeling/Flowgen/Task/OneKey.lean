/-
# `Flowgen.Task.OneKey` — the keyed loop on one key, against the single buffer

When the partition key always renders to the same key, the keyed loop has one
entry in its maps and should do what the loop with a single buffer does.  The
two are run side by side: `Mirrors` says that the entry of the key is the
single buffer, and every input keeps it, as long as a batch takes two events
or more.

With a size of one or zero the loops part.  The single loop flushes every
event at once; the keyed loop looks at the size only where an entry is
occupied, so the first event of a batch waits for a second one.

    both loops hand on the same batches, none larger than max(1, size)
      ↔ 2 ≤ size, or no event gets as far as a buffer
-/
import Flowgen.Task.Offending

namespace Flowgen.Task.Batching

open Flowgen.Lib Flowgen.Task.Buffer

variable {V : Type}

/-- The batch as the keyed loop hands it on. -/
def Output.keyed (k : String) : Output V → Output V
  | .failed event => .failed event
  | .batch b => .batch { b with data := { b.data with partitionKey := some k } }

/-- The batches handed on have at most `n` events. -/
def Bounded (n : Nat) (outs : List (Output V)) : Prop :=
  ∀ b, .batch b ∈ outs → b.data.batch.length ≤ n

/-- With and without the partition key, the same is handed on in the same order, the same
error ends the loop, and no batch is larger than the size. -/
def SameBatches (config : Config V) (k : String) (inputs : List (Input V)) (walk : Walk) : Prop :=
  let single := processorRun { config with partitionKey := none } inputs walk
  let keyed := processorRun config inputs walk
  keyed = (single.1.map (Output.keyed k), single.2) ∧
    Bounded (max 1 config.size) single.1 ∧ Bounded (max 1 config.size) keyed.1

/-- The first event that has not failed upstream cannot be batched, or there is none. -/
def NothingBatched (inputs : List (Input V)) : Prop :=
  ∀ e ∈ (received inputs).find? (·.error.isNone), e.data.isJson = false

/-! ## Side by side -/

variable {config : Config V} {render : Event V → Except String (Option String)} {k : String}
  {s : Single V} {t : Keyed V} {e : Event V} {now : Nat} {walk : Walk} {data : V}

/-- The one entry in the maps of the keyed loop is the single buffer. -/
structure Mirrors (k : String) (s : Single V) (t : Keyed V) : Prop where
  buffers : t.buffers = if s.buffer = [] then ∅ else .singleton k s.buffer
  origins : s.buffer ≠ [] → t.origins.lookup k = some s.origin
  completions : (t.completions.lookup k).getD [] = s.completions
  started : t.startedTimes = if s.buffer = [] then ∅ else .singleton k s.batchStarted
  outputs : t.outputs = s.outputs.map (Output.keyed k)
  idle : s.buffer = [] → s.completions = []

theorem mirrors_start (k : String) : Mirrors k ({} : Single V) {} :=
  ⟨rfl, fun h => absurd rfl h, rfl, rfl, rfl, fun _ => rfl⟩

theorem lookup_singleton {β : Type} (k : String) (x : β) :
    (AList.singleton k x : AList fun _ : String => β).lookup k = some x := by
  rw [← AList.insert_empty]
  exact AList.lookup_insert _

theorem erase_singleton {β : Type} (k : String) (x : β) :
    (AList.singleton k x : AList fun _ : String => β).erase k = ∅ := by
  refine AList.ext ?_
  simp [AList.erase, AList.singleton]

theorem flush_keyed (buffer : List V) (reason : FlushReason) (origin : Origin V)
    (completions : List Nat) :
    (flush buffer reason none origin completions).map (Output.keyed k) =
      flush buffer reason (some k) origin completions := by
  rw [flush, flush]
  split
  · rfl
  · rfl

/-- Both loops flush. -/
theorem Mirrors.flush (h : Mirrors k s t) (hne : s.buffer ≠ []) (reason : FlushReason) :
    Mirrors k (s.flush reason) (t.flushKey k reason) := by
  have hb := h.buffers
  have hs := h.started
  rw [if_neg hne] at hb hs
  have hlookup : t.buffers.lookup k = some s.buffer := by rw [hb, lookup_singleton]
  rw [Keyed.flushKey, hlookup]
  refine ⟨?_, fun h => absurd rfl h, ?_, ?_, ?_, fun _ => rfl⟩
  · change t.buffers.erase k = _
    rw [hb, erase_singleton]
    rfl
  · change ((t.completions.erase k).lookup k).getD [] = _
    rw [AList.lookup_erase]
    rfl
  · change t.startedTimes.erase k = _
    rw [hs, erase_singleton]
    rfl
  · change t.outputs ++ _ = (s.outputs ++ _).map _
    rw [h.outputs, h.origins hne, Option.getD_some, h.completions, List.map_append, flush_keyed]

/-- The single loop takes in an event. -/
def Single.collect (s : Single V) (now : Nat) (e : Event V) (data : V) : Single V :=
  ({ s.open now e with buffer := (s.open now e).buffer ++ [data] } : Single V).absorb e.completionTx

theorem Single.buffer_collect : (s.collect now e data).buffer = s.buffer ++ [data] := by
  rw [Single.collect, Single.buffer_absorb, Single.buffer_open]

theorem Single.recv_json (herr : e.error = none) (hdata : e.data = .json data) :
    s.recv config now e =
      .ok (if config.size ≤ s.buffer.length + 1 then (s.collect now e data).flush .size
        else if config.triggers e then (s.collect now e data).flush .completion
        else s.collect now e data) := by
  have hlen : (s.collect now e data).buffer.length = s.buffer.length + 1 := by
    rw [Single.buffer_collect]
    simp
  simp only [Single.recv, herr, hdata, jsonData]
  rw [← Single.collect, hlen]
  split
  · rfl
  · split
    · rfl
    · rfl

theorem isJson_iff {data : EventData V} : data.isJson = true ↔ ∃ v, data = .json v := by
  cases data with
  | json v => simp [EventData.isJson]
  | arrowRecordBatch => simp [EventData.isJson]
  | avro => simp [EventData.isJson]
  | bytes => simp [EventData.isJson]

/-- An event that is not JSON ends the single loop. -/
theorem Single.recv_not_json (herr : e.error = none) (hjson : e.data.isJson = false) :
    ∃ err, s.recv config now e = .error err := by
  cases hdata : e.data with
  | json v =>
      rw [hdata] at hjson
      cases hjson
  | arrowRecordBatch =>
      refine ⟨.expectedJsonGotArrowRecordBatch, ?_⟩
      simp only [Single.recv, herr, hdata, jsonData]
  | avro =>
      refine ⟨.expectedJsonGotAvro, ?_⟩
      simp only [Single.recv, herr, hdata, jsonData]
  | bytes =>
      refine ⟨.expectedJsonGotBytes, ?_⟩
      simp only [Single.recv, herr, hdata, jsonData]

theorem Single.batchStarted_absorb (tx : Option Nat) :
    (s.absorb tx).batchStarted = s.batchStarted := by
  cases tx with
  | none => rfl
  | some tx => rfl

theorem Mirrors.collect_first (h : Mirrors k s t) (hnil : s.buffer = []) :
    Mirrors k (s.collect now e data) (t.vacant now k e data) := by
  have hne : (s.collect now e data).buffer ≠ [] := by
    rw [Single.buffer_collect]
    simp
  have hb := h.buffers
  have hs := h.started
  rw [if_pos hnil] at hb hs
  refine ⟨?_, ?_, ?_, ?_, ?_, fun h => absurd h hne⟩
  · rw [if_neg hne, Single.buffer_collect, hnil]
    change t.buffers.insert k [data] = _
    rw [hb, AList.insert_empty]
    rfl
  · intro _
    change (t.origins.insert k (.new e)).lookup k = _
    rw [AList.lookup_insert, Single.collect, Single.origin_absorb]
    simp [Single.open, hnil]
  · have hcompletions := h.completions
    rw [h.idle hnil] at hcompletions
    cases htx : e.completionTx with
    | none => simp [Keyed.vacant, Single.collect, Single.absorb, htx, hcompletions, h.idle hnil]
    | some tx =>
        simp [Keyed.vacant, Single.collect, Single.absorb, htx, h.idle hnil, absorbCompletion]
  · rw [if_neg hne, Single.collect, Single.batchStarted_absorb]
    change t.startedTimes.insert k now = _
    rw [hs, AList.insert_empty]
    simp [Single.open, hnil]
  · rw [Single.collect, Single.outputs_absorb]
    simp only [Single.outputs_open]
    exact h.outputs

theorem Mirrors.collect_next (h : Mirrors k s t) (hne : s.buffer ≠ []) :
    Mirrors k (s.collect now e data) (t.occupied k s.buffer e data) := by
  have hne' : (s.collect now e data).buffer ≠ [] := by
    rw [Single.buffer_collect]
    simp
  have hb := h.buffers
  have hs := h.started
  rw [if_neg hne] at hb hs
  refine ⟨?_, ?_, ?_, ?_, ?_, fun h => absurd h hne'⟩
  · rw [if_neg hne', Single.buffer_collect]
    change t.buffers.insert k _ = _
    rw [hb, AList.insert_singleton_eq]
  · intro _
    simp [Keyed.occupied, h.origins hne, Single.collect, Single.open, hne]
  · cases htx : e.completionTx with
    | none => simp [Keyed.occupied, Single.collect, Single.absorb, htx, h.completions]
    | some tx => simp [Keyed.occupied, Single.collect, Single.absorb, htx, h.completions]
  · rw [if_neg hne', Single.collect, Single.batchStarted_absorb]
    simp only [Single.open, hne, List.isEmpty_iff, if_false]
    exact hs
  · rw [Single.collect, Single.outputs_absorb]
    simp only [Single.outputs_open]
    exact h.outputs

/-- What is known of the two loops after an input: both go on side by side, or both end
with the same error. -/
def InStep (k : String) (a : Except Error (Single V)) (b : Except Error (Keyed V)) : Prop :=
  (∃ s t, a = .ok s ∧ b = .ok t ∧ Mirrors k s t) ∨ ∃ e, a = .error e ∧ b = .error e

theorem Mirrors.recv (h : Mirrors k s t)
    (hsize : e.error = none → e.data.isJson = true → 2 ≤ config.size)
    (hrender : render e = .ok (some k)) :
    InStep k (s.recv config now e) (t.recv config render now e) := by
  cases herr : e.error with
  | some error =>
      refine .inl ⟨{ s with outputs := s.outputs ++ [.failed e] },
        { t with outputs := t.outputs ++ [.failed e] }, ?_, ?_, ?_⟩
      · simp only [Single.recv, herr]
      · simp only [Keyed.recv, herr]
      · refine { h with outputs := ?_ }
        rw [h.outputs, List.map_append]
        rfl
  | none =>
      cases hdata : e.data with
      | json data =>
          have hkeyed : t.recv config render now e = .ok (t.collect config now k e data) := by
            simp only [Keyed.recv, herr, hrender, hdata, jsonData]
          have htwo : 2 ≤ config.size := hsize herr (by rw [hdata]; rfl)
          rw [hkeyed, Single.recv_json herr hdata]
          refine .inl ⟨_, _, rfl, rfl, ?_⟩
          have hb := h.buffers
          rw [Keyed.collect]
          by_cases hnil : s.buffer = []
          · rw [if_pos hnil] at hb
            have hnone : t.buffers.lookup k = none := by rw [hb]; rfl
            have hc : Mirrors k (s.collect now e data) (t.vacant now k e data) :=
              h.collect_first hnil
            have hsmall : ¬ config.size ≤ s.buffer.length + 1 := by
              rw [hnil, List.length_nil]
              omega
            rw [hnone, if_neg hsmall]
            dsimp only
            split
            · exact hc.flush (by rw [Single.buffer_collect]; simp) _
            · exact hc
          · rw [if_neg hnil] at hb
            have hsome : t.buffers.lookup k = some s.buffer := by rw [hb, lookup_singleton]
            have hc : Mirrors k (s.collect now e data) (t.occupied k s.buffer e data) :=
              h.collect_next hnil
            rw [hsome]
            dsimp only
            rw [List.length_append, List.length_singleton]
            split
            · exact hc.flush (by rw [Single.buffer_collect]; simp) _
            · split
              · exact hc.flush (by rw [Single.buffer_collect]; simp) _
              · exact hc
      | arrowRecordBatch =>
          refine .inr ⟨.expectedJsonGotArrowRecordBatch, ?_, ?_⟩
          · simp only [Single.recv, herr, hdata, jsonData]
          · simp only [Keyed.recv, herr, hrender, hdata, jsonData]
      | avro =>
          refine .inr ⟨.expectedJsonGotAvro, ?_, ?_⟩
          · simp only [Single.recv, herr, hdata, jsonData]
          · simp only [Keyed.recv, herr, hrender, hdata, jsonData]
      | bytes =>
          refine .inr ⟨.expectedJsonGotBytes, ?_, ?_⟩
          · simp only [Single.recv, herr, hdata, jsonData]
          · simp only [Keyed.recv, herr, hrender, hdata, jsonData]

theorem Walk.order_singleton (walk : Walk) (k : String) : walk.order [k] = [k] :=
  List.perm_singleton.mp (walk.perm [k])

theorem Mirrors.timer (h : Mirrors k s t) :
    Mirrors k (s.timer config now) (t.timer config now walk) := by
  have hb := h.buffers
  have hs := h.started
  rw [Single.timer, Keyed.timer]
  by_cases hnil : s.buffer = []
  · rw [if_pos hnil] at hb
    have hkeys : t.buffers.keys.isEmpty = true := by rw [hb]; rfl
    rw [hnil, List.isEmpty_nil, if_pos rfl, hkeys, if_pos rfl]
    exact h
  · rw [if_neg hnil] at hb hs
    have hkeys : t.buffers.keys = [k] := by rw [hb, AList.keys_singleton]
    have hstarted : t.startedTimes.keys = [k] := by rw [hs, AList.keys_singleton]
    have hlookup : t.buffers.lookup k = some s.buffer := by rw [hb, lookup_singleton]
    have htime : t.startedTimes.lookup k = some s.batchStarted := by rw [hs, lookup_singleton]
    have hflush : t.keysToFlush config now walk =
        if config.timeoutDuration ≤ now - s.batchStarted then [k] else [] := by
      rw [Keyed.keysToFlush, hstarted, walk.order_singleton]
      by_cases hdue : config.timeoutDuration ≤ now - s.batchStarted
      · simp [hlookup, htime, hdue]
      · simp [hlookup, htime, hdue]
    have htimeout : t.timeoutKey k = t.flushKey k .timeout := by
      simp only [Keyed.timeoutKey, Keyed.flushKey, hlookup, List.isEmpty_iff, hnil, if_false]
      rfl
    rw [hkeys, hflush, List.isEmpty_eq_false_iff.mpr hnil]
    simp only [Bool.false_eq_true, if_false, List.isEmpty_cons]
    split
    · rw [List.foldl_cons, List.foldl_nil, htimeout]
      exact h.flush hnil _
    · exact h

theorem Mirrors.close (h : Mirrors k s t) (walk : Walk) :
    (t.close walk).outputs = s.close.outputs.map (Output.keyed k) := by
  have hb := h.buffers
  rw [Single.close, Keyed.close]
  by_cases hnil : s.buffer = []
  · rw [if_pos hnil] at hb
    have hkeys : t.buffers.keys = [] := by rw [hb]; rfl
    have horder : walk.order [] = [] := List.perm_nil.mp (walk.perm [])
    rw [hkeys, horder, hnil, List.isEmpty_nil, if_pos rfl]
    exact h.outputs
  · rw [if_neg hnil] at hb
    have hkeys : t.buffers.keys = [k] := by rw [hb, AList.keys_singleton]
    have hlookup : t.buffers.lookup k = some s.buffer := by rw [hb, lookup_singleton]
    rw [hkeys, walk.order_singleton, List.foldl_cons, List.foldl_nil, Keyed.closeKey, hlookup]
    simp only [List.isEmpty_eq_false_iff.mpr hnil, Bool.false_eq_true, if_false]
    change t.outputs ++ _ = (s.outputs ++ _).map _
    rw [h.outputs, h.origins hnil, Option.getD_some, h.completions, List.map_append, flush_keyed]

/-! ## A whole run -/

theorem nothingBatched_timer {inputs : List (Input V)} :
    NothingBatched (.timer now walk :: inputs) ↔ NothingBatched inputs := Iff.rfl

theorem nothingBatched_failed {inputs : List (Input V)} (herr : e.error ≠ none) :
    NothingBatched (.recv now e :: inputs) ↔ NothingBatched inputs := by
  have hno : e.error.isNone = false := by
    simpa [Option.isNone_iff_eq_none, Option.isSome_iff_ne_none] using herr
  rw [NothingBatched, NothingBatched, received_recv, List.find?_cons_of_neg (by simp [hno])]

theorem nothingBatched_recv {inputs : List (Input V)} (herr : e.error = none) :
    NothingBatched (.recv now e :: inputs) ↔ e.data.isJson = false := by
  rw [NothingBatched, received_recv, List.find?_cons_of_pos (by simp [herr])]
  simp

/-- How a loop ends: the error, if there is one. -/
def ending {σ : Type} (r : σ × Option (Error × List (Input V))) : Option Error := r.2.map Prod.fst

/-- Side by side to the end: an event that may part the loops is the last one read. -/
theorem Mirrors.run {inputs : List (Input V)} (h : Mirrors k s t)
    (hsize : 2 ≤ config.size ∨ NothingBatched inputs)
    (hrender : ∀ e ∈ received inputs, render e = .ok (some k)) :
    Mirrors k (runLoop (Single.step config) s inputs).1
        (runLoop (Keyed.step config render) t inputs).1 ∧
      ending (runLoop (Single.step config) s inputs) =
        ending (runLoop (Keyed.step config render) t inputs) := by
  induction inputs generalizing s t with
  | nil => exact ⟨h, rfl⟩
  | cons i inputs ih =>
      cases i with
      | timer now walk => exact ih h.timer (hsize.imp_right nothingBatched_timer.mp) hrender
      | recv now e =>
          rw [received_recv] at hrender
          have htwo : e.error = none → e.data.isJson = true → 2 ≤ config.size := by
            intro herr hjson
            refine hsize.resolve_right fun hno => ?_
            rw [nothingBatched_recv herr, hjson] at hno
            cases hno
          have hstep : InStep k (s.recv config now e) (t.recv config render now e) :=
            h.recv htwo (hrender e List.mem_cons_self)
          rcases hstep with ⟨s', t', hs, ht, h'⟩ | ⟨err, hs, ht⟩
          · simp only [runLoop, Single.step, Keyed.step, hs, ht]
            refine ih h' ?_ fun e he => hrender e (List.mem_cons_of_mem _ he)
            rcases hsize with hsize | hno
            · exact .inl hsize
            · refine .inr ((nothingBatched_failed ?_).mp hno)
              intro herr
              obtain ⟨err, herr'⟩ : ∃ err, s.recv config now e = .error err :=
                Single.recv_not_json herr ((nothingBatched_recv herr).mp hno)
              rw [herr'] at hs
              cases hs
          · simp only [runLoop, Single.step, Keyed.step, hs, ht]
            exact ⟨h, rfl⟩

/-! ## How large the batches are -/

theorem bounded_append {n : Nat} {outs outs' : List (Output V)} :
    Bounded n (outs ++ outs') ↔ Bounded n outs ∧ Bounded n outs' := by
  constructor
  · intro h
    exact ⟨fun b hb => h b (List.mem_append_left _ hb), fun b hb => h b (List.mem_append_right _ hb)⟩
  · rintro ⟨h, h'⟩ b hb
    rcases List.mem_append.mp hb with hb | hb
    · exact h b hb
    · exact h' b hb

theorem mem_flush {buffer : List V} {reason : FlushReason} {key : Option String}
    {origin : Origin V} {completions : List Nat} {b : Batch V}
    (h : .batch b ∈ flush buffer reason key origin completions) :
    b.data.batch = buffer ∧ b.data.flushReason = reason := by
  rw [flush] at h
  split at h
  · cases h
  · cases List.mem_singleton.mp h
    exact ⟨rfl, rfl⟩

/-- The single buffer is flushed when it reaches the size. -/
structure Single.Below (config : Config V) (s : Single V) : Prop where
  buffer : s.buffer.length < max 1 config.size
  outputs : Bounded (max 1 config.size) s.outputs

theorem Single.Below.flush {n : Nat} (hn : n = max 1 config.size) {reason : FlushReason}
    (hbuffer : s.buffer.length ≤ n) (houts : Bounded n s.outputs) :
    (s.flush reason).Below config := by
  subst hn
  refine ⟨?_, bounded_append.mpr ⟨houts, ?_⟩⟩
  · exact Nat.lt_of_lt_of_le Nat.one_pos (le_max_left _ _)
  · intro b hb
    rw [(mem_flush hb).1]
    exact hbuffer

theorem Single.Below.step (h : s.Below config) {i : Input V} {s' : Single V}
    (hs : Single.step config s i = .ok s') : s'.Below config := by
  cases i with
  | timer now walk =>
      cases hs
      rw [Single.timer]
      split
      · exact h
      · split
        · exact .flush rfl h.buffer.le h.outputs
        · exact h
  | recv now e =>
      cases herr : e.error with
      | some error =>
          simp only [Single.step, Single.recv, herr] at hs
          cases hs
          refine ⟨h.buffer, bounded_append.mpr ⟨h.outputs, ?_⟩⟩
          intro b hb
          cases List.mem_singleton.mp hb
      | none =>
          by_cases hjson : e.data.isJson = true
          · obtain ⟨data, hdata⟩ := isJson_iff.mp hjson
            simp only [Single.step, Single.recv_json herr hdata] at hs
            have hlen : (s.collect now e data).buffer.length = s.buffer.length + 1 := by
              rw [Single.buffer_collect]
              simp
            have houts : (s.collect now e data).outputs = s.outputs := by
              rw [Single.collect, Single.outputs_absorb]
              exact Single.outputs_open
            have hbuffer : (s.collect now e data).buffer.length ≤ max 1 config.size :=
              hlen ▸ h.buffer
            have hbounded : Bounded (max 1 config.size) (s.collect now e data).outputs :=
              houts ▸ h.outputs
            cases hs
            split
            · exact .flush rfl hbuffer hbounded
            · rename_i hsmall
              split
              · exact .flush rfl hbuffer hbounded
              · exact ⟨by omega, hbounded⟩
          · obtain ⟨err, herr'⟩ : ∃ err, s.recv config now e = .error err :=
              Single.recv_not_json herr (by simpa using hjson)
            rw [Single.step, herr'] at hs
            cases hs

/-- What every step keeps holds where the loop stops. -/
theorem runLoop_invariant {σ : Type} {step : σ → Input V → Except Error σ} {I : σ → Prop}
    (hstep : ∀ s i s', I s → step s i = .ok s' → I s') :
    ∀ {inputs : List (Input V)} {s : σ}, I s → I (runLoop step s inputs).1
  | [], _, h => h
  | i :: inputs, s, h => by
      rw [runLoop]
      cases hs : step s i with
      | ok s' => exact runLoop_invariant hstep (hstep s i s' h hs)
      | error e => exact h

theorem Single.Below.close (h : s.Below config) : Bounded (max 1 config.size) s.close.outputs := by
  rw [Single.close]
  split
  · exact h.outputs
  · have hflush : (s.flush .shutdown).Below config := .flush rfl h.buffer.le h.outputs
    exact hflush.outputs

/-! ## Batches of one -/

/-- A batch of one event, flushed for its size. -/
def HasUnit (outs : List (Output V)) : Prop :=
  ∃ b, .batch b ∈ outs ∧ b.data.flushReason = .size ∧ b.data.batch.length = 1

theorem HasUnit.append {outs outs' : List (Output V)} (h : HasUnit outs) : HasUnit (outs ++ outs') := by
  obtain ⟨b, hb, h⟩ := h
  exact ⟨b, List.mem_append_left _ hb, h⟩

theorem hasUnit_flush (outs : List (Output V)) (data : V) (key : Option String) (origin : Origin V)
    (completions : List Nat) : HasUnit (outs ++ flush [data] .size key origin completions) :=
  ⟨_, List.mem_append_right _ (List.mem_singleton_self _), rfl, rfl⟩

/-- With a size of one or zero the single loop flushes the first event by itself. -/
theorem Single.unit_of_small (hsmall : config.size ≤ 1) {inputs : List (Input V)}
    (hnil : s.buffer = []) (h : HasUnit s.outputs ∨ ¬ NothingBatched inputs) :
    HasUnit (runLoop (Single.step config) s inputs).1.outputs ∧
      (runLoop (Single.step config) s inputs).1.buffer = [] := by
  induction inputs generalizing s with
  | nil =>
      refine ⟨h.resolve_right fun hno => hno ?_, hnil⟩
      intro e he
      cases he
  | cons i inputs ih =>
      cases i with
      | timer now walk =>
          have hstep : Single.step config s (.timer now walk) = .ok s := by
            rw [Single.step, Single.timer, hnil, List.isEmpty_nil, if_pos rfl]
          rw [runLoop, hstep]
          exact ih hnil (h.imp_right (mt nothingBatched_timer.mpr))
      | recv now e =>
          cases herr : e.error with
          | some error =>
              have hstep : Single.step config s (.recv now e) =
                  .ok { s with outputs := s.outputs ++ [.failed e] } := by
                simp only [Single.step, Single.recv, herr]
              have hfailed : e.error ≠ none := by simp [herr]
              rw [runLoop, hstep]
              exact ih hnil (h.imp HasUnit.append (mt (nothingBatched_failed hfailed).mpr))
          | none =>
              by_cases hjson : e.data.isJson = true
              · obtain ⟨data, hdata⟩ := isJson_iff.mp hjson
                have hstep : Single.step config s (.recv now e) =
                    .ok ((s.collect now e data).flush .size) := by
                  rw [Single.step, Single.recv_json herr hdata, if_pos (by omega)]
                have hunit : HasUnit ((s.collect now e data).flush .size).outputs := by
                  have hbuffer : (s.collect now e data).buffer = [data] := by
                    rw [Single.buffer_collect, hnil, List.nil_append]
                  rw [Single.flush, hbuffer]
                  exact hasUnit_flush ..
                rw [runLoop, hstep]
                exact ih rfl (.inl hunit)
              · have hno : e.data.isJson = false := by simpa using hjson
                obtain ⟨err, hstep⟩ : ∃ err, Single.step config s (.recv now e) = .error err :=
                  Single.recv_not_json herr hno
                rw [runLoop, hstep]
                exact ⟨h.resolve_right fun hb => hb ((nothingBatched_recv herr).mpr hno), hnil⟩

/-- The keyed loop flushes for the size only where an event joins others. -/
structure Keyed.Joined (t : Keyed V) : Prop where
  buffers : ∀ key buffer, t.buffers.lookup key = some buffer → buffer ≠ []
  outputs : ¬ HasUnit t.outputs

theorem not_hasUnit_append {outs outs' : List (Output V)} (h : ¬ HasUnit outs)
    (h' : ¬ HasUnit outs') : ¬ HasUnit (outs ++ outs') := by
  rintro ⟨b, hb, hunit⟩
  rcases List.mem_append.mp hb with hb | hb
  · exact h ⟨b, hb, hunit⟩
  · exact h' ⟨b, hb, hunit⟩

theorem not_hasUnit_flush {buffer : List V} {reason : FlushReason} {key : Option String}
    {origin : Origin V} {completions : List Nat} (h : reason = .size → 2 ≤ buffer.length) :
    ¬ HasUnit (flush buffer reason key origin completions) := by
  rintro ⟨b, hb, hreason, hlen⟩
  obtain ⟨hbatch, hflush⟩ := mem_flush hb
  have := h (hflush.symm.trans hreason)
  rw [← hbatch] at this
  omega

/-- The entry of a key goes, and nothing else changes in the buffers. -/
theorem Keyed.Joined.erase {t' : Keyed V} (h : t.Joined) (hb : t'.buffers = t.buffers.erase k)
    (houts : ¬ HasUnit t'.outputs) : t'.Joined := by
  refine ⟨?_, houts⟩
  intro key buffer hlookup
  rw [hb] at hlookup
  by_cases hk : key = k
  · subst hk
    rw [AList.lookup_erase] at hlookup
    cases hlookup
  · rw [AList.lookup_erase_ne hk] at hlookup
    exact h.buffers key buffer hlookup

theorem Keyed.Joined.flushKey (h : t.Joined) {reason : FlushReason}
    (hsize : reason = .size → ∀ buffer, t.buffers.lookup k = some buffer → 2 ≤ buffer.length) :
    (t.flushKey k reason).Joined := by
  rw [Keyed.flushKey]
  split
  · rename_i buffer hlookup
    exact h.erase rfl (not_hasUnit_append h.outputs
      (not_hasUnit_flush fun hreason => hsize hreason buffer hlookup))
  · exact h

theorem Keyed.Joined.insert {t' : Keyed V} {buffer : List V} (h : t.Joined) (hne : buffer ≠ [])
    (hb : t'.buffers = t.buffers.insert k buffer) (houts : t'.outputs = t.outputs) : t'.Joined := by
  refine ⟨?_, houts ▸ h.outputs⟩
  intro key buffer' hlookup
  rw [hb] at hlookup
  by_cases hk : key = k
  · subst hk
    rw [AList.lookup_insert] at hlookup
    cases hlookup
    exact hne
  · rw [AList.lookup_insert_ne hk] at hlookup
    exact h.buffers key buffer' hlookup

theorem Keyed.Joined.collect (h : t.Joined) : (t.collect config now k e data).Joined := by
  rw [Keyed.collect]
  split
  · have hv : (t.vacant now k e data).Joined := h.insert (List.cons_ne_nil _ _) rfl rfl
    dsimp only
    split
    · exact hv.flushKey fun hreason => by cases hreason
    · exact hv
  · rename_i buffer hlookup
    have hne := h.buffers k buffer hlookup
    have ho : (t.occupied k buffer e data).Joined := h.insert (by simp) rfl rfl
    dsimp only
    split
    · refine ho.flushKey fun _ buffer' hlookup' => ?_
      change (t.buffers.insert k (buffer ++ [data])).lookup k = some buffer' at hlookup'
      rw [AList.lookup_insert] at hlookup'
      cases hlookup'
      have := List.length_pos_of_ne_nil hne
      simp only [List.length_append, List.length_singleton]
      omega
    · split
      · exact ho.flushKey fun hreason => by cases hreason
      · exact ho

theorem Keyed.Joined.timeoutKey (h : t.Joined) : (t.timeoutKey k).Joined := by
  rw [Keyed.timeoutKey]
  cases hlookup : t.buffers.lookup k with
  | none => exact ⟨h.buffers, h.outputs⟩
  | some buffer =>
      dsimp only
      split
      · exact h.erase rfl h.outputs
      · exact h.erase rfl (not_hasUnit_append h.outputs
          (not_hasUnit_flush fun hreason => by cases hreason))

theorem Keyed.Joined.step (h : t.Joined) {i : Input V} {t' : Keyed V}
    (hs : Keyed.step config render t i = .ok t') : t'.Joined := by
  cases i with
  | timer now walk =>
      cases hs
      rw [Keyed.timer]
      split
      · exact h
      · rename_i hkeys
        generalize t.keysToFlush config now walk = keys
        clear hkeys
        induction keys generalizing t with
        | nil => exact h
        | cons key keys ih => exact ih h.timeoutKey
  | recv now e =>
      rw [Keyed.step, Keyed.recv] at hs
      split at hs
      · cases hs
        refine ⟨h.buffers, not_hasUnit_append h.outputs ?_⟩
        rintro ⟨b, hb, _⟩
        cases List.mem_singleton.mp hb
      · split at hs
        · cases hs
        · cases hs
        · split at hs
          · cases hs
          · cases hs
            exact h.collect

theorem Keyed.Joined.close (h : t.Joined) (walk : Walk) : ¬ HasUnit (t.close walk).outputs := by
  rw [Keyed.close]
  generalize walk.order t.buffers.keys = keys
  have houts := h.outputs
  clear h
  induction keys generalizing t with
  | nil => exact houts
  | cons key keys ih =>
      refine ih ?_
      rw [Keyed.closeKey]
      split
      · split
        · exact houts
        · exact not_hasUnit_append houts (not_hasUnit_flush fun hreason => by cases hreason)
      · exact houts

/-! ## The two loops agree -/

theorem hasUnit_keyed {outs : List (Output V)} (h : HasUnit outs) (k : String) :
    HasUnit (outs.map (Output.keyed k)) := by
  obtain ⟨b, hb, hunit⟩ := h
  exact ⟨_, List.mem_map_of_mem hb, hunit⟩

theorem bounded_keyed {n : Nat} {outs : List (Output V)} (h : Bounded n outs) (k : String) :
    Bounded n (outs.map (Output.keyed k)) := by
  intro b hb
  obtain ⟨o, ho, hob⟩ := List.mem_map.mp hb
  cases o with
  | failed event => cases hob
  | batch b' =>
      cases hob
      exact h b' ho

/-- Without its partition key a buffer runs the single loop. -/
theorem processorRun_single (inputs : List (Input V)) (walk : Walk) :
    processorRun { config with partitionKey := none } inputs walk =
      ended (·.outputs) (·.close.outputs) (runLoop (Single.step config) {} inputs) := by
  have hstep : Single.step { config with partitionKey := none } = Single.step config := by
    funext s i
    cases i with
    | recv now e => rfl
    | timer now walk => rfl
  rw [processorRun, hstep]

theorem processorRun_keyed (hp : config.partitionKey = some render) (inputs : List (Input V))
    (walk : Walk) : processorRun config inputs walk =
      ended (·.outputs) (fun t => (t.close walk).outputs)
        (runLoop (Keyed.step config render) {} inputs) := by
  rw [processorRun, hp]

/-- The single loop hands on what it had, and perhaps what closing adds. -/
theorem ended_fst {σ : Type} {outputs closed : σ → List (Output V)} {P : List (Output V) → Prop}
    {r : σ × Option (Error × List (Input V))} (houts : P (outputs r.1)) (hclosed : P (closed r.1)) :
    P (ended outputs closed r).1 := by
  obtain ⟨s, stop⟩ := r
  cases stop with
  | none => exact hclosed
  | some stop => exact houts

/-- On events that all have one key, the keyed loop hands on the batches of the single
loop, and none larger than the size, exactly if a batch takes two events or none is batched. -/
theorem sameBatches_iff (config : Config V) (render : Event V → Except String (Option String))
    (k : String) (inputs : List (Input V)) (walk : Walk) (hp : config.partitionKey = some render)
    (hrender : ∀ e ∈ received inputs, render e = .ok (some k)) :
    SameBatches config k inputs walk ↔ 2 ≤ config.size ∨ NothingBatched inputs := by
  have hbelow : (runLoop (Single.step config) {} inputs).1.Below config :=
    runLoop_invariant (fun _ _ _ h hs => h.step hs)
      ⟨Nat.lt_of_lt_of_le Nat.one_pos (le_max_left _ _), fun b hb => by cases hb⟩
  have hbounded : Bounded (max 1 config.size)
      (processorRun { config with partitionKey := none } inputs walk).1 := by
    rw [processorRun_single]
    exact ended_fst hbelow.outputs hbelow.close
  rw [SameBatches]
  constructor
  · rintro ⟨hsame, -, -⟩
    by_contra hno
    obtain ⟨hsmall, hbatched⟩ := not_or.mp hno
    have hone : config.size ≤ 1 := by omega
    have hempty : ({} : Single V).buffer = [] := rfl
    obtain ⟨hunit, hnil⟩ := Single.unit_of_small hone hempty (.inr hbatched)
    have hclosed : HasUnit (runLoop (Single.step config) {} inputs).1.close.outputs := by
      rw [Single.close, hnil, List.isEmpty_nil, if_pos rfl]
      exact hunit
    have hsingle : HasUnit (processorRun { config with partitionKey := none } inputs walk).1 := by
      rw [processorRun_single]
      exact ended_fst hunit hclosed
    have hstart : ({} : Keyed V).Joined := by
      refine ⟨?_, ?_⟩
      · intro key buffer h
        cases h
      · rintro ⟨b, hb, _⟩
        cases hb
    have hjoined : (runLoop (Keyed.step config render) {} inputs).1.Joined :=
      runLoop_invariant (fun _ _ _ h hs => h.step hs) hstart
    have hkeyed : ¬ HasUnit (processorRun config inputs walk).1 := by
      rw [processorRun_keyed hp]
      exact @ended_fst _ _ _ _ (fun outs => ¬ HasUnit outs) _ hjoined.outputs (hjoined.close walk)
    rw [hsame] at hkeyed
    exact hkeyed (hasUnit_keyed hsingle k)
  · intro hsize
    obtain ⟨hmirrors, hending⟩ := (mirrors_start k).run hsize hrender
    have hsame : processorRun config inputs walk =
        ((processorRun { config with partitionKey := none } inputs walk).1.map (Output.keyed k),
          (processorRun { config with partitionKey := none } inputs walk).2) := by
      rw [processorRun_keyed hp, processorRun_single]
      revert hmirrors hending
      generalize runLoop (Single.step config) {} inputs = r
      generalize runLoop (Keyed.step config render) {} inputs = r'
      obtain ⟨s, stop⟩ := r
      obtain ⟨t, stop'⟩ := r'
      intro hmirrors hending
      cases stop with
      | none =>
          cases stop' with
          | none => exact congrArg (·, none) (hmirrors.close walk)
          | some stop' => cases hending
      | some stop =>
          cases stop' with
          | none => cases hending
          | some stop' =>
              have herr : stop.1 = stop'.1 := Option.some.inj hending
              simp only [ended]
              rw [herr, hmirrors.outputs]
    refine ⟨hsame, hbounded, ?_⟩
    rw [hsame]
    exact bounded_keyed hbounded k

/-- Batches of two, one of them cut short by the end of the input. -/
theorem sameBatches_two :
    SameBatches { size := 2, partitionKey := some fun _ => .ok (some "a") } "a"
      [.recv 0 { data := .json 7 }, .recv 1 { data := .json 8 }, .recv 2 { data := .json 9 }]
      ⟨id, fun ks => .refl ks⟩ :=
  (sameBatches_iff { size := 2, partitionKey := some fun _ => .ok (some "a") } _ "a" _ _ rfl
    fun _ _ => rfl).mpr (.inl le_rfl)

/-- With a size of one the keyed loop waits for a second event, and hands on both together. -/
theorem keyed_batch_too_large :
    let config : Config Nat := { size := 1, partitionKey := some fun _ => .ok (some "a") }
    let inputs : List (Input Nat) := [.recv 0 { data := .json 7 }, .recv 1 { data := .json 8 }]
    let walk : Walk := ⟨id, fun ks => .refl ks⟩
    (∀ e ∈ received inputs, config.bufferOf e = some (some "a")) ∧
      ¬ SameBatches config "a" inputs walk := by
  intro config inputs walk
  refine ⟨fun _ _ => rfl, ?_⟩
  rintro ⟨-, -, hbounded⟩
  have hle := hbounded
    { data := { batch := [7, 8], batchSize := 2, flushReason := .size, partitionKey := some "a" }
      origin := {}
      upstreamCompletions := [] } List.mem_cons_self
  exact absurd hle (by decide)

end Flowgen.Task.Batching
