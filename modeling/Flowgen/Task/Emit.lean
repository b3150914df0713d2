/-
# `Flowgen.Task.Emit` — tasks that turn one event into several

A script that returns an array, an object store read and a BigQuery query
all emit `n` events for one incoming event, whose completion the source
waits for.  `scriptResult`, `readItems` and `queryPages` are what their
handlers do, as lists of sends and signals, and so is `iterateArray`.

Two ways of passing the completion on are found there.

* The first three attach it to the last event only: what they do is
  `lastCarries` of what they emit (`handle_eq`).
* `iterate` gives every event a completion of its own, and a task waits for
  all of them before it signals upstream.

`emitting` runs such a list in parallel with what happens downstream: each
emitted event has to be handled at every leaf below the task, in any order,
and signals the completion it carries there.  The upstream completion was
sized for these leaves and for `others` elsewhere in the flow.

`emitted_sound_iff` says that the source is never acknowledged before all
events have finished exactly if there is one event, and `iterate_sound` that
with a fan-in it never is.
-/
import Flowgen.Lib.Machine
import Flowgen.Event

namespace Flowgen.Task

open Flowgen.Lib

/-- The completion a handle refers to: the one the source waits for, or the
one made for the element at an index. -/
inductive Handle
  | source
  | element (idx : Nat)
deriving DecidableEq

/-- What the handlers build. -/
structure Built (D : Type) where
  data : D
  id : Option String := none
deriving DecidableEq

/-- An event as it is sent. -/
structure Event (D : Type) where
  built : Built D
  completionTx : Option Handle := none
deriving DecidableEq

/-- What a handler reads of its task: whether it has an output channel, its
`leaf_count`, and the JSON form of event data. -/
structure Context (D V : Type) where
  tx : Bool
  leafCount : Nat
  dataAsJson : D → Option V

/-- What a handler does, in order. -/
inductive Out (D V : Type)
  | send (event : Event D)
  | signal (handle : Handle) (payload : Option V)
  | fanIn (upstream : Handle) (receivers leafShare : Nat)
deriving DecidableEq

variable {D V : Type}

/-- `leaf_count.max(1)`. -/
def Context.leafShare (ctx : Context D V) : Nat := max ctx.leafCount 1

/-- The event that ends a batch: it takes the completion along, or signals it
if there is nowhere to take it. -/
def sendLast (ctx : Context D V) (completionTx : Option Handle) (new : Built D) :
    List (Out D V) :=
  if ctx.tx then [.send ⟨new, completionTx⟩]
  else completionTx.toList.map (.signal · (ctx.dataAsJson new.data)) ++ [.send ⟨new, none⟩]

/-- One signal for every leaf below the task. -/
def signalLeaves (ctx : Context D V) (completionTx : Option Handle) : List (Out D V) :=
  completionTx.toList.flatMap fun h => List.replicate ctx.leafShare (.signal h none)

/-! ## `script` -/

inductive ScriptResult (Value : Type)
  | null
  | array (arr : List Value)
  | value (value : Value)

/-- The element of an array at `idx`: fanned-out events need distinct ids. -/
def numbered {Value : Type} (generate : Value → Built D) (hasExplicitId : Value → Bool)
    (original : Event D) (value : Value) (idx : Nat) : Built D :=
  match hasExplicitId value, original.built.id with
  | false, some id => { generate value with id := some s!"{id}-{idx}" }
  | _, _ => generate value

/-- The script result handling of `handle`.  `generate` is
`generate_script_event`, and `hasExplicitId` says whether a value names its id. -/
def scriptResult {Value : Type} (ctx : Context D V) (generate : Value → Built D)
    (hasExplicitId : Value → Bool) (original : Event D) : ScriptResult Value → List (Out D V)
  | .null => signalLeaves ctx original.completionTx
  | .array arr =>
      if arr.isEmpty then signalLeaves ctx original.completionTx
      else
        arr.zipIdx.flatMap fun (value, idx) =>
          let new := numbered generate hasExplicitId original value idx
          if idx = arr.length - 1 then sendLast ctx original.completionTx new
          else [.send ⟨new, none⟩]
  | .value value => sendLast ctx original.completionTx (generate value)

/-! ## `object_store` read -/

/-- `emit`: sends the event held so far, and holds this one. -/
def emit (pending : Option (Built D)) (data : D) : Option (Built D) × List (Out D V) :=
  (some { data := data }, pending.toList.map fun previous => .send ⟨previous, none⟩)

def flushPending (ctx : Context D V) (pending : Option (Built D)) (completionTx : Option Handle) :
    List (Out D V) :=
  match pending with
  | some last => sendLast ctx completionTx last
  | none => signalLeaves ctx completionTx

/-- The items of an object, emitted one behind. -/
def emitAll (ctx : Context D V) (completionTx : Option Handle) :
    Option (Built D) → List D → List (Out D V)
  | pending, [] => flushPending ctx pending completionTx
  | pending, data :: items =>
      (emit pending data).2 ++ emitAll ctx completionTx (emit (V := V) pending data).1 items

def readItems (ctx : Context D V) (original : Event D) (items : List D) : List (Out D V) :=
  emitAll ctx original.completionTx none items

/-! ## BigQuery `query` -/

/-- The loop over the result pages, with one page peeked ahead.  Only the
first event has the job's id. -/
def pageLoop (ctx : Context D V) (completionTx : Option Handle) :
    Option String → D → List D → List (Out D V)
  | jobId, batch, [] => sendLast ctx completionTx { data := batch, id := jobId }
  | jobId, batch, next :: pages =>
      .send ⟨{ data := batch, id := jobId }, none⟩ :: pageLoop ctx completionTx none next pages

/-- An empty result set still owes downstream one event. -/
def queryPages (ctx : Context D V) (original : Event D) (jobId : Option String) (emptyBatch : D)
    (pages : List D) : List (Out D V) :=
  match pages with
  | [] => pageLoop ctx original.completionTx jobId emptyBatch []
  | batch :: pages => pageLoop ctx original.completionTx jobId batch pages

/-! ## `iterate` -/

/-- The events of an array, from index `idx` on. -/
def elementEvents : List D → Nat → List (Event D)
  | [], _ => []
  | element :: array, idx =>
      ⟨{ data := element }, some (.element idx)⟩ :: elementEvents array (idx + 1)

def iterateArray (ctx : Context D V) (original : Event D) (array : List D) : List (Out D V) :=
  if array.isEmpty then
    original.completionTx.toList.flatMap fun upstream =>
      .signal upstream (ctx.dataAsJson original.built.data) ::
        List.replicate (ctx.leafShare - 1) (.signal upstream none)
  else if !ctx.tx then original.completionTx.toList.map (.signal · none)
  else
    (elementEvents array 0).map .send ++
      original.completionTx.toList.map (.fanIn · array.length ctx.leafShare)

/-! ## What happens downstream -/

/-- An emitted event, and at how many leaves it has still to be handled. -/
structure Journey (D : Type) where
  event : Event D
  left : Nat

structure State (D V : Type) where
  todo : List (Out D V)
  journeys : List (Journey D)
  source : CompletionState V
  elements : Nat → CompletionState V
  others : Nat
  waiting : Option (Handle × Nat × Nat)

inductive Act (V : Type)
  | handler
  | leaf (idx : Nat) (result : CompletionResult V)
  | elsewhere (result : CompletionResult V)
  | joined

/-- A signal on the completion that is carried, if any. -/
def State.signal (s : State D V) (result : CompletionResult V) : Option Handle → State D V
  | none => s
  | some .source => { s with source := s.source.signal result }
  | some (.element idx) =>
      { s with elements := Function.update s.elements idx ((s.elements idx).signal result) }

/-- The next thing the handler does; without an output channel a send does nothing. -/
def State.perform (ctx : Context D V) (s : State D V) : Out D V → State D V
  | .send event =>
      if ctx.tx then { s with journeys := s.journeys ++ [⟨event, ctx.leafShare⟩] } else s
  | .signal h payload => s.signal (.ok payload) (some h)
  | .fanIn upstream receivers leafShare =>
      { s with waiting := some (upstream, receivers, leafShare) }

/-- `joined` is the end of `spawn_fan_in_completion`'s wait: every receiver
has reported in, and the upstream is signalled for every leaf. -/
def step (ctx : Context D V) (s : State D V) : Act V → Option (State D V)
  | .handler =>
      match s.todo with
      | [] => none
      | out :: todo => some ({ s with todo := todo }.perform ctx out)
  | .leaf idx result =>
      match s.journeys[idx]? with
      | some ⟨event, left + 1⟩ =>
          some ({ s with journeys := s.journeys.set idx ⟨event, left⟩ }.signal result
            event.completionTx)
      | _ => none
  | .elsewhere result =>
      match s.others with
      | 0 => none
      | others + 1 => some { s with others := others, source := s.source.signal result }
  | .joined =>
      match s.waiting with
      | some (upstream, receivers, leafShare) =>
          if ∀ idx < receivers, (s.elements idx).delivered.isSome then
            some ((List.replicate leafShare (some upstream)).foldl (State.signal · (.ok none))
              { s with waiting := none })
          else none
      | none => none

/-- A handler with these things to do, for an event whose completion also
waits for `others` leaves that are not below the task. -/
def emitting (ctx : Context D V) (others : Nat) (outs : List (Out D V)) :
    Machine (State D V) (Act V) where
  init s := s =
    { todo := outs
      journeys := []
      source := .new (ctx.leafShare + others)
      elements := fun _ => .new ctx.leafShare
      others := others
      waiting := none }
  step := step ctx

/-- All `n` events have been emitted and have been handled at every leaf. -/
def Finished (n : Nat) (s : State D V) : Prop :=
  s.journeys.length = n ∧ ∀ j ∈ s.journeys, j.left = 0

/-! ## The last event carries the completion -/

/-- The events of a batch, of which the last carries the completion. -/
def lastCarries (completionTx : Option Handle) : List (Built D) → List (Event D)
  | [] => []
  | [new] => [⟨new, completionTx⟩]
  | new :: next :: news => ⟨new, none⟩ :: lastCarries completionTx (next :: news)

/-- What the three tasks get from outside: the result of a script, the items
of an object, the pages of a query result. -/
inductive Batch (D Value : Type)
  | script (arr : List Value)
  | objectStore (items : List D)
  | query (jobId : Option String) (emptyBatch : D) (pages : List D)

/-- How many events are emitted for it. -/
def Batch.size {Value : Type} : Batch D Value → Nat
  | .script arr => arr.length
  | .objectStore items => items.length
  | .query _ _ pages => max pages.length 1

def handle {Value : Type} (ctx : Context D V) (generate : Value → Built D)
    (hasExplicitId : Value → Bool) (original : Event D) : Batch D Value → List (Out D V)
  | .script arr => scriptResult ctx generate hasExplicitId original (.array arr)
  | .objectStore items => readItems ctx original items
  | .query jobId emptyBatch pages => queryPages ctx original jobId emptyBatch pages

variable {ctx : Context D V} {c : Option Handle}

@[simp] theorem length_lastCarries : ∀ news : List (Built D), (lastCarries c news).length = news.length
  | [] => rfl
  | [_] => rfl
  | _ :: next :: news => congrArg Nat.succ (length_lastCarries (next :: news))

theorem sendLast_eq (htx : ctx.tx = true) (new : Built D) :
    sendLast ctx c new = (lastCarries c [new]).map .send := by
  simp [sendLast, htx, lastCarries]

/-- Sending one by one, with a different treatment of the last. -/
theorem flatMap_zipIdx_eq {Value : Type} (htx : ctx.tx = true) (f : Value → Nat → Built D) (n : Nat) :
    ∀ (arr : List Value) (k : Nat), k + arr.length = n →
      ((arr.zipIdx k).flatMap fun (value, idx) =>
          if idx = n - 1 then sendLast ctx c (f value idx) else [Out.send ⟨f value idx, none⟩]) =
        (lastCarries c ((arr.zipIdx k).map fun (value, idx) => f value idx)).map .send
  | [], _, _ => rfl
  | [value], k, h => by
      have : k = n - 1 := by
        simp only [List.length_singleton] at h
        omega
      simp [← this, sendLast_eq htx]
  | value :: next :: arr, k, h => by
      have hk : k ≠ n - 1 := by
        simp only [List.length_cons] at h
        omega
      have ih := flatMap_zipIdx_eq htx f n (next :: arr) (k + 1) (by
        simp only [List.length_cons] at h ⊢
        omega)
      rw [List.zipIdx_cons, List.flatMap_cons, ih]
      simp only [if_neg hk]
      rfl

theorem emitAll_some (htx : ctx.tx = true) : ∀ (items : List D) (held : Built D),
    emitAll ctx c (some held) items =
      (lastCarries c (held :: items.map fun data => { data := data })).map .send
  | [], held => sendLast_eq htx held
  | data :: items, held => by
      rw [emitAll, emit, emitAll_some htx items]
      rfl

theorem pageLoop_eq (htx : ctx.tx = true) : ∀ (pages : List D) (jobId : Option String) (batch : D),
    pageLoop ctx c jobId batch pages =
      (lastCarries c ({ data := batch, id := jobId } ::
        pages.map fun data => { data := data })).map .send
  | [], jobId, batch => sendLast_eq htx _
  | next :: pages, jobId, batch => by
      rw [pageLoop, pageLoop_eq htx pages]
      rfl

/-- With an output channel, all three handlers send the events of the batch,
and the completion travels with the last one. -/
theorem handle_eq {Value : Type} (generate : Value → Built D) (hasExplicitId : Value → Bool)
    (original : Event D) (htx : ctx.tx = true) (batch : Batch D Value) (hne : 0 < batch.size) :
    ∃ news : List (Built D), news.length = batch.size ∧
      handle ctx generate hasExplicitId original batch =
        (lastCarries original.completionTx news).map .send := by
  cases batch with
  | script arr =>
      refine ⟨arr.zipIdx.map fun (value, idx) => numbered generate hasExplicitId original value idx,
        by simp [Batch.size], ?_⟩
      have hemp : arr.isEmpty = false := by
        rw [List.isEmpty_eq_false_iff]
        exact List.ne_nil_of_length_pos hne
      simp only [handle, scriptResult, hemp, Bool.false_eq_true, if_false]
      exact flatMap_zipIdx_eq htx _ arr.length arr 0 (Nat.zero_add _)
  | objectStore items =>
      cases items with
      | nil => cases hne
      | cons data items =>
          refine ⟨{ data := data } :: items.map fun data => { data := data },
            by simp [Batch.size], ?_⟩
          exact emitAll_some htx items { data := data }
  | query jobId emptyBatch pages =>
      cases pages with
      | nil => exact ⟨[{ data := emptyBatch, id := jobId }], rfl, pageLoop_eq htx [] _ _⟩
      | cons batch pages =>
          refine ⟨{ data := batch, id := jobId } :: pages.map fun data => { data := data },
            by simp [Batch.size], ?_⟩
          exact pageLoop_eq htx pages jobId batch

/-! ## What the source still waits for -/

theorem leafShare_pos (ctx : Context D V) : 0 < ctx.leafShare := by
  rw [Context.leafShare]
  omega

/-- The signals an event with so many leaves left will still give the source. -/
def owes (event : Event D) (left : Nat) : Nat :=
  if event.completionTx = some .source then left else 0

/-- A handler that only sends, part of the way through its events. -/
structure Sending (ctx : Context D V) (events : List (Event D)) (s : State D V) : Prop where
  waiting : s.waiting = none
  split : ∃ rest, s.todo = rest.map .send ∧ s.journeys.map (·.event) ++ rest = events ∧
    s.source.remaining = s.others + (s.journeys.map fun j => owes j.event j.left).sum
      + (rest.map fun e => owes e ctx.leafShare).sum

variable {events : List (Event D)} {s t : State D V} {others : Nat}

@[simp] theorem signal_todo (r : CompletionResult V) (h : Option Handle) :
    (s.signal r h).todo = s.todo := by
  rcases h with _ | _ | _ <;> rfl

@[simp] theorem signal_journeys (r : CompletionResult V) (h : Option Handle) :
    (s.signal r h).journeys = s.journeys := by
  rcases h with _ | _ | _ <;> rfl

@[simp] theorem signal_others (r : CompletionResult V) (h : Option Handle) :
    (s.signal r h).others = s.others := by
  rcases h with _ | _ | _ <;> rfl

@[simp] theorem signal_waiting (r : CompletionResult V) (h : Option Handle) :
    (s.signal r h).waiting = s.waiting := by
  rcases h with _ | _ | _ <;> rfl

theorem signal_remaining (r : CompletionResult V) (event : Event D) :
    (s.signal r event.completionTx).source.remaining = s.source.remaining - owes event 1 := by
  rw [owes]
  rcases event.completionTx with _ | _ | _ <;> simp [State.signal]

theorem owes_succ (event : Event D) (left : Nat) :
    owes event (left + 1) = owes event left + owes event 1 := by
  unfold owes
  split <;> rfl

/-- What handling an event at one more leaf leaves: its journey is one leaf
shorter, and the completion it carries is signalled. -/
theorem step_leaf {idx : Nat} {r : CompletionResult V} (hs : step ctx s (.leaf idx r) = some t) :
    ∃ event left, s.journeys[idx]? = some ⟨event, left + 1⟩ ∧
      t = { s with journeys := s.journeys.set idx ⟨event, left⟩ }.signal r event.completionTx := by
  simp only [step] at hs
  split at hs
  · rename_i event left hj
    exact ⟨event, left, hj, (Option.some.inj hs).symm⟩
  · cases hs

theorem sum_map_set {α : Type*} {f : α → Nat} {a b : α} : ∀ {l : List α} {i : Nat},
    l[i]? = some a → ((l.set i b).map f).sum + f a = (l.map f).sum + f b
  | x :: l, 0, h => by
      obtain rfl : x = a := by simpa using h
      simp only [List.set_cons_zero, List.map_cons, List.sum_cons]
      omega
  | x :: l, i + 1, h => by
      have := sum_map_set (f := f) (b := b) (l := l) (i := i) (by simpa using h)
      simp only [List.set_cons_succ, List.map_cons, List.sum_cons]
      omega

theorem map_event_set {e : Event D} {n m : Nat} : ∀ {l : List (Journey D)} {i : Nat},
    l[i]? = some ⟨e, n⟩ → (l.set i ⟨e, m⟩).map (·.event) = l.map (·.event)
  | x :: l, 0, h => by
      obtain rfl : x = ⟨e, n⟩ := by simpa using h
      rfl
  | x :: l, i + 1, h => by
      rw [List.set_cons_succ, List.map_cons, map_event_set (by simpa using h), List.map_cons]

theorem sending_step {a : Act V} (htx : ctx.tx = true) (h : Sending ctx events s)
    (hs : step ctx s a = some t) : Sending ctx events t := by
  obtain ⟨hw, rest, htodo, hsplit, hrem⟩ := h
  cases a with
  | handler =>
      cases rest with
      | nil => simp [step, htodo] at hs
      | cons event rest =>
          simp only [step, htodo, List.map_cons, State.perform, htx, if_true,
            Option.some.injEq] at hs
          subst hs
          refine ⟨hw, rest, rfl, by simpa using hsplit, ?_⟩
          simp only [List.map_cons, List.sum_cons, List.map_append, List.sum_append, List.map_nil,
            List.sum_nil] at hrem ⊢
          omega
  | leaf idx r =>
      obtain ⟨event, left, hj, rfl⟩ := step_leaf hs
      refine ⟨by simpa using hw, rest, by simpa using htodo, ?_, ?_⟩
      · rw [signal_journeys, map_event_set hj]
        exact hsplit
      · have hsum := sum_map_set (f := fun j => owes j.event j.left) (b := ⟨event, left⟩) hj
        dsimp only at hsum
        rw [owes_succ] at hsum
        rw [signal_remaining, signal_journeys, signal_others]
        dsimp only
        omega
  | elsewhere r =>
      simp only [step] at hs
      split at hs
      · cases hs
      · rename_i others ho
        cases hs
        refine ⟨hw, rest, htodo, hsplit, ?_⟩
        rw [CompletionState.remaining_signal]
        dsimp only
        omega
  | joined => simp [step, hw] at hs

theorem sending_start (hone : (events.map fun e => owes e ctx.leafShare).sum = ctx.leafShare)
    (h : (emitting ctx others (events.map .send)).init s) : Sending ctx events s := by
  obtain rfl := h
  refine ⟨rfl, events, rfl, rfl, ?_⟩
  rw [hone]
  simp only [CompletionState.remaining_new, List.map_nil, List.sum_nil]
  have := leafShare_pos ctx
  omega

/-! ## One event: the source waits for it -/

theorem one_event_sound {event : Event D} (hc : event.completionTx = some .source)
    (h : Sending ctx [event] s) (hd : s.source.delivered.isSome) : Finished 1 s := by
  obtain ⟨_, rest, _, hsplit, hrem⟩ := h
  rw [CompletionState.delivered_isSome_iff] at hd
  cases rest with
  | nil =>
      obtain ⟨j, hj⟩ := List.map_eq_singleton_iff.mp ((List.append_nil _).symm.trans hsplit)
      refine ⟨by rw [hj.1]; rfl, ?_⟩
      intro j' hj'
      rw [hj.1, List.mem_singleton] at hj'
      subst hj'
      rw [hj.1] at hrem
      simp only [List.map_cons, List.map_nil, List.sum_cons, List.sum_nil, owes, hj.2, hc,
        if_true] at hrem
      omega
  | cons e rest =>
      have hpos := leafShare_pos ctx
      have he : e = event := by
        have := congrArg List.getLast? hsplit
        have hlen := congrArg List.length hsplit
        simp only [List.length_append, List.length_map, List.length_cons, List.length_nil] at hlen
        obtain rfl : rest = [] := List.eq_nil_of_length_eq_zero (by omega)
        simpa using this
      rw [List.map_cons, List.sum_cons, he] at hrem
      simp only [owes, hc, if_true] at hrem
      omega

/-! ## Several events: the source need not wait for the first -/

/-- The first event is not handled any further. -/
def SparesFirst (_ : State D V) : Act V → Prop
  | .leaf idx _ => idx ≠ 0
  | _ => True

/-- As long as something is owed to the source, it can be given without the
first event, which owes nothing. -/
theorem exists_sparing_step {first : Event D} {later : List (Event D)}
    (hfirst : first.completionTx = none) (htx : ctx.tx = true)
    (h : Sending ctx (first :: later) s) (hd : ¬ s.source.delivered.isSome) :
    ∃ a t, SparesFirst s a ∧ step ctx s a = some t ∧
      t.todo.length * (ctx.leafShare + 1) + (t.journeys.map (·.left)).sum + t.others <
        s.todo.length * (ctx.leafShare + 1) + (s.journeys.map (·.left)).sum + s.others := by
  obtain ⟨_, rest, htodo, hsplit, hrem⟩ := h
  rw [CompletionState.delivered_isSome_iff] at hd
  cases rest with
  | cons event rest =>
      refine ⟨.handler, { s with todo := rest.map .send
                                 journeys := s.journeys ++ [⟨event, ctx.leafShare⟩] },
        trivial, by simp [step, htodo, State.perform, htx], ?_⟩
      simp only [htodo, List.map_cons, List.length_cons, List.length_map, List.map_append,
        List.map_nil, List.sum_append, List.sum_cons, List.sum_nil, Nat.add_mul, Nat.one_mul]
      omega
  | nil =>
      by_cases ho : s.others = 0
      · -- some journey still owes a signal, and it is not the first
        have hsum : (s.journeys.map fun j => owes j.event j.left).sum ≠ 0 := by
          simp only [List.map_nil, List.sum_nil] at hrem
          omega
        obtain ⟨idx, hidx⟩ : ∃ idx : Nat, ∃ j, s.journeys[idx]? = some j ∧ owes j.event j.left ≠ 0 := by
          by_contra hno
          refine hsum (List.sum_eq_zero fun x hx => ?_)
          obtain ⟨j, hj, rfl⟩ := List.mem_map.mp hx
          obtain ⟨idx, hidx⟩ := List.getElem?_of_mem hj
          by_contra hne
          exact hno ⟨idx, j, hidx, hne⟩
        obtain ⟨⟨event, left⟩, hj, howes⟩ := hidx
        cases left with
        | zero => simp [owes] at howes
        | succ left =>
            refine ⟨.leaf idx (.ok none),
              { s with journeys := s.journeys.set idx ⟨event, left⟩ }.signal (.ok none)
                event.completionTx, ?_, by simp only [step, hj], ?_⟩
            · rintro rfl
              have : event = first := by
                have := congrArg (·[0]?) hsplit
                simpa [hj] using this
              simp [owes, this, hfirst] at howes
            · have := sum_map_set (f := fun j : Journey D => j.left) (b := ⟨event, left⟩) hj
              simp only [signal_todo, signal_journeys, signal_others] at this ⊢
              omega
      · obtain ⟨others, ho⟩ := Nat.exists_eq_succ_of_ne_zero ho
        refine ⟨.elsewhere (.ok none),
          { s with others := others, source := s.source.signal (.ok none) }, trivial, by simp only [step, ho], ?_⟩
        dsimp only
        omega

/-- The first event keeps all its leaves. -/
def FirstUntouched (ctx : Context D V) (s : State D V) : Prop :=
  ∀ j, s.journeys[0]? = some j → j.left = ctx.leafShare

theorem firstUntouched_step {a : Act V} (htx : ctx.tx = true) (hw : s.waiting = none)
    (hsend : ∃ rest : List (Event D), s.todo = rest.map .send) (h : FirstUntouched ctx s)
    (ha : SparesFirst s a) (hs : step ctx s a = some t) : FirstUntouched ctx t := by
  cases a with
  | handler =>
      obtain ⟨rest, htodo⟩ := hsend
      cases rest with
      | nil => simp [step, htodo] at hs
      | cons event rest =>
          simp only [step, htodo, List.map_cons, State.perform, htx, if_true,
            Option.some.injEq] at hs
          subst hs
          intro j hj
          cases hjs : s.journeys with
          | nil =>
              rw [hjs] at hj
              obtain rfl : _ = j := by simpa using hj
              rfl
          | cons j' js =>
              rw [hjs] at hj
              exact h j (by simpa [hjs] using hj)
  | leaf idx r =>
      obtain ⟨event, left, _, rfl⟩ := step_leaf hs
      intro j hj
      rw [signal_journeys, List.getElem?_set_ne ha] at hj
      exact h j hj
  | elsewhere r =>
      simp only [step] at hs
      split at hs
      · cases hs
      · cases hs
        exact h
  | joined => simp [step, hw] at hs

/-- Where the first event does not carry the completion, the source can be
acknowledged without it. -/
theorem acked_without_first {first : Event D} {later : List (Event D)}
    (hfirst : first.completionTx = none) (htx : ctx.tx = true)
    (hone : ((first :: later).map fun e => owes e ctx.leafShare).sum = ctx.leafShare) :
    ∃ s, (emitting ctx others ((first :: later).map .send)).Reachable s ∧
      s.source.delivered.isSome ∧ ¬ Finished (first :: later).length s := by
  let M := emitting ctx others ((first :: later).map (Out.send (V := V)))
  obtain ⟨s₀, h0⟩ : ∃ s₀, M.init s₀ := ⟨_, rfl⟩
  have hstart : Sending ctx (first :: later) s₀ := sending_start hone h0
  have huntouched : FirstUntouched ctx s₀ := by
    obtain rfl := h0
    simp [FirstUntouched]
  have hrun : ∃ as s, M.RunOf SparesFirst s₀ as s ∧
      (Sending ctx (first :: later) s ∧ FirstUntouched ctx s) ∧ s.source.delivered.isSome := by
    refine Machine.exists_run_to_final
      (fun s => Sending ctx (first :: later) s ∧ FirstUntouched ctx s)
      (fun s => s.source.delivered.isSome)
      (fun s => s.todo.length * (ctx.leafShare + 1) + (s.journeys.map (·.left)).sum + s.others)
      (fun s ⟨hs, hu⟩ hd => ?_) s₀ ⟨hstart, huntouched⟩
    obtain ⟨a, t, ha, hst, hlt⟩ := exists_sparing_step hfirst htx hs hd
    have ⟨rest, htodo, _⟩ := hs.split
    exact ⟨a, t, ha, hst, ⟨sending_step htx hs hst,
      firstUntouched_step htx hs.waiting ⟨rest, htodo⟩ hu ha hst⟩, hlt⟩
  obtain ⟨as, s, hr, ⟨hs, hu⟩, hd⟩ := hrun
  refine ⟨s, ⟨s₀, as, h0, hr.run⟩, hd, fun ⟨hlen, hall⟩ => ?_⟩
  cases hjs : s.journeys with
  | nil => simp [hjs] at hlen
  | cons j js =>
      have h0 := hall j (hjs ▸ List.mem_cons_self)
      have hL := hu j (by simp [hjs])
      have := leafShare_pos ctx
      omega

/-! ## The answer -/

theorem owes_lastCarries : ∀ {news : List (Built D)}, news ≠ [] → ∀ left,
    ((lastCarries (some .source) news).map fun e => owes e left).sum = left
  | [], h, _ => absurd rfl h
  | [_], _, _ => by simp [lastCarries, owes]
  | _ :: next :: news, _, left => by
      have := owes_lastCarries (List.cons_ne_nil next news) left
      rw [lastCarries, List.map_cons, List.sum_cons, this]
      simp [owes]

/-- The source is acknowledged only after all emitted events have finished, in
every order in which they do, exactly if there is only one event. -/
theorem emitted_sound_iff {Value : Type} (ctx : Context D V) (generate : Value → Built D)
    (hasExplicitId : Value → Bool) (original : Event D) (batch : Batch D Value) (others : Nat)
    (htx : ctx.tx = true) (hc : original.completionTx = some .source) (hne : 1 ≤ batch.size) :
    (∀ s, (emitting ctx others (handle ctx generate hasExplicitId original batch)).Reachable s →
        s.source.delivered.isSome → Finished batch.size s) ↔ batch.size = 1 := by
  obtain ⟨news, hlen, heq⟩ := handle_eq generate hasExplicitId original htx batch hne
  rw [heq, hc, ← hlen]
  match news, hlen with
  | [], hlen =>
      simp only [List.length_nil] at hlen
      omega
  | [new], _ =>
      refine iff_of_true (fun s hs hd => ?_) rfl
      have hI : Sending ctx [⟨new, some .source⟩] s :=
        hs.invariant (fun s h0 => sending_start (by simp [owes]) h0)
          fun _ _ _ hi _ hst => sending_step htx hi hst
      exact one_event_sound rfl hI hd
  | new :: next :: news, _ =>
      refine iff_of_false (fun hsound => ?_) (by simp)
      have hcarry : lastCarries (some .source) (new :: next :: news) =
          ⟨new, none⟩ :: lastCarries (some .source) (next :: news) := rfl
      have hone := owes_lastCarries (List.cons_ne_nil new (next :: news)) ctx.leafShare
      rw [hcarry] at hone hsound
      obtain ⟨s, hs, hd, hnot⟩ := acked_without_first rfl htx hone
      have := hsound s hs hd
      rw [List.length_cons, length_lastCarries] at hnot
      exact hnot this

/-- A query with one result page. -/
theorem emitted_sound_single_page :
    let ctx : Context Nat Nat := { tx := true, leafCount := 3, dataAsJson := some }
    let batch : Batch Nat Nat := .query (some "job") 0 [7]
    ∀ s, (emitting ctx 2 (handle ctx ({ data := · }) (fun _ => false)
        ⟨{ data := 0 }, some .source⟩ batch)).Reachable s →
      s.source.delivered.isSome → Finished 1 s :=
  (emitted_sound_iff _ ({ data := · }) (fun _ => false) ⟨{ data := 0 }, some .source⟩
    (.query (some "job") 0 [7]) 2 rfl rfl (by decide)).mpr rfl

/-- Two events and one leaf below: when the second is handled there the source
is acknowledged, and the first is still on its way.  The three tasks do not
differ in this. -/
theorem emitted_acked_early :
    let ctx : Context Nat Nat := { tx := true, leafCount := 1, dataAsJson := some }
    ∀ batch ∈ [Batch.script [1, 2], .objectStore [1, 2], .query none 0 [1, 2]],
      ∃ s, (emitting ctx 0 (handle ctx ({ data := · }) (fun _ : Nat => false)
          ⟨{ data := 0 }, some .source⟩ batch)).Reachable s ∧
        s.source.delivered.isSome ∧ batch.size = 2 ∧ ¬ Finished 2 s := by
  intro ctx batch hb
  have hrun : ((emitting ctx 0 (handle ctx ({ data := · }) (fun _ : Nat => false)
      ⟨{ data := 0 }, some .source⟩ batch)).exec (fun _ _ => True)
      { todo := handle ctx ({ data := · }) (fun _ : Nat => false)
          ⟨{ data := 0 }, some .source⟩ batch
        journeys := [], source := .new 1, elements := fun _ => .new 1, others := 0, waiting := none }
      [.handler, .handler, .leaf 1 (.ok none)]).any
      (fun s => s.source.delivered.isSome && batch.size == 2 &&
        (s.journeys.map (·.left)) == [1, 0]) = true := by
    revert batch
    decide
  obtain ⟨s, hr, hs⟩ := Machine.exists_of_exec hrun
  simp only [Bool.and_eq_true, beq_iff_eq] at hs
  refine ⟨s, ⟨_, _, rfl, hr⟩, hs.1.1, hs.1.2, fun ⟨_, hall⟩ => ?_⟩
  obtain ⟨j, hj, hone⟩ := List.mem_map.mp (hs.2 ▸ List.mem_cons_self : 1 ∈ s.journeys.map (·.left))
  have := hall j hj
  omega

/-! ## With a fan-in the source waits for every event -/

/-- Where `iterate` is with its elements: until the fan-in has signalled, the
source is owed one signal for each leaf below; afterwards all have finished. -/
structure FanningIn (ctx : Context D V) (events : List (Event D)) (s : State D V) : Prop where
  carried : ∀ idx j, s.journeys[idx]? = some j → j.event.completionTx = some (.element idx) ∧
    (s.elements idx).remaining = j.left
  unsent : ∀ idx, s.journeys.length ≤ idx → (s.elements idx).remaining = ctx.leafShare
  phase :
    (∃ rest, s.todo = rest.map .send ++ [.fanIn .source events.length ctx.leafShare] ∧
      s.journeys.map (·.event) ++ rest = events ∧ s.waiting = none ∧
      s.source.remaining = s.others + ctx.leafShare) ∨
    (s.todo = [] ∧ s.journeys.length = events.length ∧
      s.waiting = some (.source, events.length, ctx.leafShare) ∧
      s.source.remaining = s.others + ctx.leafShare) ∨
    (s.todo = [] ∧ s.waiting = none ∧ Finished events.length s)

theorem foldl_signal_source (k : Nat) (s : State D V) :
    (List.replicate k (some Handle.source)).foldl (State.signal · (.ok none)) s =
      { s with source := s.source.signals (List.replicate k (.ok none)) } := by
  induction k generalizing s with
  | zero => rfl
  | succ k ih => exact ih _

theorem fanningIn_step {a : Act V} (htx : ctx.tx = true)
    (hev : ∀ (idx : Nat) (e : Event D), events[idx]? = some e → e.completionTx = some (.element idx))
    (h : FanningIn ctx events s) (hs : step ctx s a = some t) : FanningIn ctx events t := by
  obtain ⟨hcar, hun, hph⟩ := h
  cases a with
  | handler =>
      rcases hph with ⟨rest, htodo, hsplit, hw, hrem⟩ | ⟨htodo, _⟩ | ⟨htodo, _⟩
      · cases rest with
        | nil =>
            simp only [step, htodo, List.map_nil, List.nil_append, State.perform,
              Option.some.injEq] at hs
            subst hs
            refine ⟨hcar, hun, Or.inr (Or.inl ⟨rfl, ?_, rfl, hrem⟩)⟩
            rw [List.append_nil] at hsplit
            rw [← hsplit, List.length_map]
        | cons event rest =>
            simp only [step, htodo, List.map_cons, List.cons_append, State.perform, htx, if_true,
              Option.some.injEq] at hs
            subst hs
            refine ⟨?_, fun idx hidx => hun idx (by simp at hidx; omega),
              Or.inl ⟨rest, rfl, by simpa using hsplit, hw, hrem⟩⟩
            intro idx j hj
            rcases Nat.lt_or_ge idx s.journeys.length with hlt | hge
            · exact hcar idx j (by simpa [List.getElem?_append_left hlt] using hj)
            · rw [List.getElem?_append_right hge] at hj
              obtain ⟨hidx, rfl⟩ : idx - s.journeys.length = 0 ∧ ⟨event, ctx.leafShare⟩ = j := by
                cases hk : idx - s.journeys.length with
                | zero => simpa [hk] using hj
                | succ k => simp [hk] at hj
              refine ⟨hev idx event ?_, hun idx hge⟩
              rw [← hsplit, List.getElem?_append_right (by simpa using hge), List.length_map, hidx]
              rfl
      · simp [step, htodo] at hs
      · simp [step, htodo] at hs
  | leaf idx r =>
      obtain ⟨event, left, hj, rfl⟩ := step_leaf hs
      obtain ⟨hc, hrem⟩ := hcar idx _ hj
      dsimp only at hc hrem
      have hlt : idx < s.journeys.length := (List.getElem?_eq_some_iff.mp hj).1
      rw [hc]
      refine ⟨?_, ?_, ?_⟩
      · intro i j hi
        simp only [State.signal] at hi ⊢
        by_cases he : idx = i
        · subst he
          rw [List.getElem?_set_self hlt] at hi
          obtain rfl := Option.some.inj hi
          refine ⟨hc, ?_⟩
          rw [Function.update_self, CompletionState.remaining_signal, hrem]
          rfl
        · rw [List.getElem?_set_ne he] at hi
          rw [Function.update_of_ne (Ne.symm he)]
          exact hcar i j hi
      · intro i hi
        simp only [State.signal, List.length_set] at hi ⊢
        rw [Function.update_of_ne (by omega)]
        exact hun i hi
      · simp only [State.signal]
        rcases hph with ⟨rest, htodo, hsplit, hw, hrem'⟩ | ⟨htodo, hlen, hw, hrem'⟩ | ⟨htodo, hw, hf⟩
        · exact Or.inl ⟨rest, htodo, (map_event_set hj).symm ▸ hsplit, hw, hrem'⟩
        · exact Or.inr (Or.inl ⟨htodo, by rw [List.length_set]; exact hlen, hw, hrem'⟩)
        · have := hf.2 _ (List.mem_of_getElem? hj)
          simp at this
  | elsewhere r =>
      simp only [step] at hs
      split at hs
      · cases hs
      · rename_i others ho
        cases hs
        refine ⟨hcar, hun, ?_⟩
        simp only [CompletionState.remaining_signal]
        rcases hph with ⟨rest, htodo, hsplit, hw, hrem⟩ | ⟨htodo, hlen, hw, hrem⟩ | hf
        · exact Or.inl ⟨rest, htodo, hsplit, hw, by omega⟩
        · exact Or.inr (Or.inl ⟨htodo, hlen, hw, by omega⟩)
        · exact Or.inr (Or.inr hf)
  | joined =>
      rcases hph with ⟨_, _, _, hw, _⟩ | ⟨htodo, hlen, hw, _⟩ | ⟨_, hw, _⟩
      · simp [step, hw] at hs
      · simp only [step, hw, foldl_signal_source] at hs
        split at hs
        · rename_i hall
          obtain rfl := Option.some.inj hs
          refine ⟨hcar, hun, Or.inr (Or.inr ⟨htodo, rfl, hlen, fun j hj => ?_⟩)⟩
          obtain ⟨idx, hidx⟩ := List.getElem?_of_mem hj
          have hlt : idx < s.journeys.length := (List.getElem?_eq_some_iff.mp hidx).1
          have hd := hall idx (hlen ▸ hlt)
          rw [CompletionState.delivered_isSome_iff] at hd
          exact ((hcar idx j hidx).2.symm.trans hd)
        · cases hs
      · simp [step, hw] at hs

theorem elementEvents_get : ∀ (array : List D) (k idx : Nat) (e : Event D),
    (elementEvents array k)[idx]? = some e → e.completionTx = some (.element (k + idx))
  | [], _, _, _, h => by simp [elementEvents] at h
  | element :: array, k, 0, e, h => by
      obtain rfl : _ = e := by simpa [elementEvents] using h
      rfl
  | element :: array, k, idx + 1, e, h => by
      have := elementEvents_get array (k + 1) idx e (by simpa [elementEvents] using h)
      rw [this]
      congr 2
      omega

@[simp] theorem length_elementEvents (array : List D) (k : Nat) :
    (elementEvents array k).length = array.length := by
  induction array generalizing k with
  | nil => rfl
  | cons element array ih => exact congrArg Nat.succ (ih _)

/-- `iterate` acknowledges the source only after every element has finished,
for any number of elements and of leaves. -/
theorem iterate_sound (ctx : Context D V) (original : Event D) (array : List D) (others : Nat)
    (htx : ctx.tx = true) (hc : original.completionTx = some .source) (hne : array ≠ [])
    {s : State D V} (hs : (emitting ctx others (iterateArray ctx original array)).Reachable s)
    (hd : s.source.delivered.isSome) : Finished array.length s := by
  have houts : iterateArray ctx original array = (elementEvents array 0).map .send ++
      [.fanIn .source (elementEvents array 0).length ctx.leafShare] := by
    simp [iterateArray, hne, htx, hc]
  rw [houts] at hs
  have hI : FanningIn ctx (elementEvents array 0) s := by
    refine hs.invariant ?_ fun _ _ _ hi _ hst => fanningIn_step htx ?_ hi hst
    · rintro _ rfl
      refine ⟨by simp, ?_, Or.inl ⟨_, rfl, rfl, rfl, ?_⟩⟩
      · intro _ _
        have := leafShare_pos ctx
        simp only [CompletionState.remaining_new]
        omega
      · have := leafShare_pos ctx
        simp only [CompletionState.remaining_new]
        omega
    · intro idx e he
      have := elementEvents_get array 0 idx e he
      rwa [Nat.zero_add] at this
  rw [CompletionState.delivered_isSome_iff] at hd
  have := leafShare_pos ctx
  rcases hI.phase with ⟨_, _, _, _, hrem⟩ | ⟨_, _, _, hrem⟩ | ⟨_, _, hf⟩
  · omega
  · omega
  · rwa [length_elementEvents] at hf

end Flowgen.Task
