/-
# `Flowgen.Task.FanIn` — the fan-in of `iterate` (`core/src/task/iterate.rs`)

`iterate` sends one event for each element of an array, each with a
completion of its own, and signals upstream when all of them are through.
What is spawned for this takes part in the interleaving: one waiter for each
element, which awaits its receiver and takes one off a shared countdown, and
the task that waits for the last of them and then signals upstream once for
each leaf below.  The waiters are the parties of a `Lib.Latch`.

The completion of an element is resolved when its receiver gets a result or
sees the sender dropped; what happens below (`leaf`, `drop`) comes in any
order, also while later elements are still being sent.

    the upstream is signalled once for each leaf, and with elements sent on not
      before all of them are resolved

is `fansIn`, for every array and leaf count.  A handler that is cancelled, or
that cannot send, stops without a signal (`Where.stopped`).
-/
import Flowgen.Lib.Machine
import Flowgen.Lib.Latch
import Flowgen.Event
import Flowgen.Json
import Flowgen.Flow.Pipeline
import Flowgen.Flow.Edges

namespace Flowgen.Task.Iterate

open Flowgen.Lib

inductive Error
  | eventConversion (source : String)
  | keyNotFound (key : String)
  | expectedArray (key : String) (got : Json)
  | sendMessage

/-- What the handler reads of its task. -/
structure Context where
  iterateKey : Option String
  tx : Bool
  leafCount : Nat

/-- `leaf_count.max(1)`. -/
def Context.downstreamLeaves (ctx : Context) : Nat := max ctx.leafCount 1

/-- What the handler reads of the event: its data as JSON, or why it has none,
and whether it carries a completion. -/
structure Event where
  data : Except String Json
  upstream : Bool

/-- The array to walk. -/
def Context.array (ctx : Context) (event : Event) : Except Error (List Json) :=
  match event.data with
  | .error source => .error (.eventConversion source)
  | .ok json =>
      match ctx.iterateKey with
      | some key =>
          match json.get? key with
          | none => .error (.keyNotFound key)
          | some (.array arr) => .ok arr
          | some value => .error (.expectedArray key value)
      | none =>
          match json with
          | .array arr => .ok arr
          | json => .error (.expectedArray "root" json)

/-- The completion of one element, and whether its last handle is gone. -/
structure Element where
  completion : CompletionState Json
  dropped : Bool

/-- `rx.await` returns. -/
def Element.Resolved (e : Element) : Prop := e.completion.delivered.isSome ∨ e.dropped = true

instance (e : Element) : Decidable e.Resolved := inferInstanceAs (Decidable (_ ∨ _))

/-- Where the handler is, and after it the tasks it has spawned: `signalling` counts the
upstream signals still to be given. -/
inductive Phase
  | start
  | emitting (todo : List Json)
  | joining (latch : Latch) (signalling : Option Nat)
  | returned
  | cancelled
  | failed (e : Error)

structure State where
  phase : Phase
  token : Bool
  elements : List Element
  /-- What the upstream completion has been signalled, in order. -/
  signals : List (CompletionResult Json)

inductive Act
  | start
  | emit (accepted : Bool)
  | spawn
  | arrive (waiter : Nat)
  | release (waiter : Nat)
  | signal
  | leaf (idx : Nat) (result : CompletionResult Json)
  | drop (idx : Nat)
  | cancel

/-- The steps of the handler and of the tasks it has spawned, as long as sends succeed. -/
def Act.Own : Act → Prop
  | .start => True
  | .emit accepted => accepted = true
  | .spawn => True
  | .arrive _ => True
  | .release _ => True
  | .signal => True
  | _ => False

/-- The handler up to the loop over the elements. -/
def begin (ctx : Context) (event : Event) (s : State) : State :=
  if s.token then { s with phase := .cancelled }
  else
    match ctx.array event with
    | .error e => { s with phase := .failed e }
    | .ok arr =>
        if arr.isEmpty then
          { s with
            phase := .returned
            signals := s.signals ++
              if event.upstream then
                .ok event.data.toOption :: List.replicate (ctx.downstreamLeaves - 1) (.ok none)
              else [] }
        else if !ctx.tx then
          { s with
            phase := .returned
            signals := s.signals ++ if event.upstream then [.ok none] else [] }
        else { s with phase := .emitting arr, elements := [] }

/-- `spawn_fan_in_completion`, for an event with a completion. -/
def spawn (event : Event) (s : State) : State :=
  if event.upstream then
    if h : 0 < s.elements.length then
      { s with phase := .joining (.new s.elements.length h) none }
    else { s with phase := .returned }
  else { s with phase := .returned }

def step (ctx : Context) (event : Event) (s : State) : Act → Option State
  | .start =>
      match s.phase with
      | .start => some (begin ctx event s)
      | _ => none
  | .emit accepted =>
      match s.phase with
      | .emitting (_ :: todo) =>
          if s.token then some { s with phase := .cancelled }
          else if accepted then
            some { s with
              phase := .emitting todo
              elements := s.elements ++ [⟨.new ctx.downstreamLeaves, false⟩] }
          else some { s with phase := .failed .sendMessage }
      | _ => none
  | .spawn =>
      match s.phase with
      | .emitting [] => some (spawn event s)
      | _ => none
  | .arrive i =>
      match s.phase with
      | .joining latch signalling =>
          if (s.elements[i]?).any (Element.Resolved ·) then
            if h : latch.parties[i]? = some .out then
              some { s with phase := .joining (latch.arrive i h) signalling }
            else none
          else none
      | _ => none
  | .release i =>
      match s.phase with
      | .joining latch signalling =>
          if h : latch.parties[i]? = some .last then
            some { s with phase := .joining (latch.release i h) signalling }
          else none
      | _ => none
  | .signal =>
      match s.phase with
      | .joining latch none =>
          if latch.opened then
            some { s with phase := .joining latch (some ctx.downstreamLeaves) }
          else none
      | .joining latch (some (k + 1)) =>
          some { s with phase := .joining latch (some k), signals := s.signals ++ [.ok none] }
      | _ => none
  | .leaf i result =>
      match s.elements[i]? with
      | none => none
      | some e =>
          if e.dropped then none
          else some { s with elements := s.elements.set i ⟨e.completion.signal result, false⟩ }
  | .drop i =>
      match s.elements[i]? with
      | none => none
      | some e => some { s with elements := s.elements.set i ⟨e.completion, true⟩ }
  | .cancel => some { s with token := true }

/-- `iterate` given an event, and everything that can happen until it is through. -/
def iterating (ctx : Context) (event : Event) : Machine State Act where
  init s := s.phase = .start ∧ s.elements = [] ∧ s.signals = []
  step := step ctx event

/-- The handler has been cancelled or has failed. -/
def State.Stopped (s : State) : Prop := s.phase = .cancelled ∨ ∃ e, s.phase = .failed e

/-- Nothing is left to do but what happens below. -/
def State.AtRest (ctx : Context) (event : Event) (s : State) : Prop :=
  ∀ a : Act, a.Own → step ctx event s a = none

/-! ## Where a run can be -/

variable {ctx : Context} {event : Event} {array : List Json} {s t : State}

/-- The waiters that are through have seen their element resolved, and signals are given
only behind the open latch. -/
structure Joining (ctx : Context) (n : Nat) (elements : List Element)
    (signals : List (CompletionResult Json)) (latch : Latch) (signalling : Option Nat) : Prop where
  parties : latch.parties.length = n
  count : elements.length = n
  arrived : ∀ (i : Nat) (e : Element), elements[i]? = some e → latch.parties[i]? ≠ some .out →
    e.Resolved
  given : match signalling with
    | none => signals = []
    | some k => latch.opened = true ∧ signals.length + k = ctx.downstreamLeaves

/-- What is known of a run over an array, by the phase it is in. -/
def Where (ctx : Context) (array : List Json) (s : State) : Prop :=
  match s.phase with
  | .start => s.signals = []
  | .emitting todo => s.signals = [] ∧ array ≠ [] ∧ ctx.tx = true ∧
      s.elements.length + todo.length = array.length
  | .joining latch signalling =>
      Joining ctx array.length s.elements s.signals latch signalling
  | .returned => (array = [] ∧ s.signals.length = ctx.downstreamLeaves) ∨
      (ctx.tx = false ∧ s.signals.length = 1)
  | .cancelled => s.signals = []
  | .failed _ => s.signals = []

theorem downstreamLeaves_pos (ctx : Context) : 0 < ctx.downstreamLeaves :=
  Nat.lt_of_lt_of_le Nat.one_pos (le_max_right _ _)

theorem where_begin (harray : ctx.array event = .ok array) (hup : event.upstream = true)
    (h : s.signals = []) : Where ctx array (begin ctx event s) := by
  rw [begin, harray]
  dsimp only
  split
  · exact h
  · split
    · rename_i hempty
      have hpos := downstreamLeaves_pos ctx
      refine .inl ⟨List.isEmpty_iff.mp hempty, ?_⟩
      simp only [h, List.nil_append, List.length_cons, List.length_replicate]
      omega
    · rename_i hne
      split
      · rename_i htx
        refine .inr ⟨by simpa using htx, ?_⟩
        simp [h]
      · rename_i htx
        refine ⟨h, ?_, by simpa using htx, ?_⟩
        · rintro rfl
          exact hne rfl
        · exact Nat.zero_add _

theorem joining_new (hne : array ≠ []) (hlen : s.elements.length = array.length)
    (hsignals : s.signals = []) : ∃ h : 0 < s.elements.length,
      Joining ctx array.length s.elements s.signals (.new s.elements.length h) none := by
  refine ⟨hlen ▸ List.length_pos_of_ne_nil hne, ?_⟩
  refine { parties := ?_, count := hlen, arrived := ?_, given := hsignals }
  · rw [Latch.length_new, hlen]
  · intro i e he hout
    have hi : i < s.elements.length := (List.getElem?_eq_some_iff.mp he).1
    refine absurd ?_ hout
    simp [Latch.new, hi]

/-- What is said of all elements is not disturbed by what happens below to one of them. -/
theorem joining_elements {n i : Nat} {latch : Latch} {signalling : Option Nat} {e e' : Element}
    (h : Joining ctx n s.elements s.signals latch signalling) (hi : s.elements[i]? = some e)
    (he : e.Resolved → e'.Resolved) :
    Joining ctx n (s.elements.set i e') s.signals latch signalling where
  parties := h.parties
  count := by rw [List.length_set, h.count]
  arrived j u hu hout := by
    by_cases hij : i = j
    · subst hij
      rw [List.getElem?_set_self (List.getElem?_eq_some_iff.mp hi).1] at hu
      cases hu
      exact he (h.arrived i e hi hout)
    · rw [List.getElem?_set_ne hij] at hu
      exact h.arrived j u hu hout
  given := h.given

/-- A result stays delivered. -/
theorem resolved_signal {e : Element} {r : CompletionResult Json} (h : e.Resolved)
    (hd : e.dropped = false) : Element.Resolved ⟨e.completion.signal r, false⟩ := by
  rcases h with h | h
  · refine .inl ?_
    rw [CompletionState.delivered_isSome_iff] at h ⊢
    rw [CompletionState.remaining_signal, h]
  · rw [hd] at h
    cases h

theorem where_elements {i : Nat} {e e' : Element} (h : Where ctx array s)
    (hi : s.elements[i]? = some e) (he : e.Resolved → e'.Resolved) :
    Where ctx array { s with elements := s.elements.set i e' } := by
  unfold Where at h ⊢
  dsimp only
  split
  · rename_i hp
    rw [hp] at h
    exact h
  · rename_i hp
    rw [hp] at h
    simpa using h
  · rename_i hp
    rw [hp] at h
    exact joining_elements h hi he
  · rename_i hp
    rw [hp] at h
    exact h
  · rename_i hp
    rw [hp] at h
    exact h
  · rename_i hp
    rw [hp] at h
    exact h

theorem where_step {a : Act} (harray : ctx.array event = .ok array) (hup : event.upstream = true)
    (h : Where ctx array s) (hs : step ctx event s a = some t) : Where ctx array t := by
  cases a with
  | start =>
      simp only [step] at hs
      split at hs
      · rename_i hp
        cases hs
        rw [Where, hp] at h
        exact where_begin harray hup h
      · cases hs
  | emit accepted =>
      simp only [step] at hs
      split at hs
      · rename_i x todo hp
        rw [Where, hp] at h
        obtain ⟨hsig, hne, htx, hlen⟩ := h
        split at hs
        · cases hs
          exact hsig
        · split at hs
          · cases hs
            refine ⟨hsig, hne, htx, ?_⟩
            simp only [List.length_append, List.length_cons, List.length_nil] at hlen ⊢
            omega
          · cases hs
            exact hsig
      · cases hs
  | spawn =>
      simp only [step] at hs
      split at hs
      · rename_i hp
        cases hs
        rw [Where, hp] at h
        obtain ⟨hsig, hne, _, hlen⟩ := h
        obtain ⟨hpos, hjoining⟩ := @joining_new ctx array s hne (by simpa using hlen) hsig
        rw [spawn, if_pos hup, dif_pos hpos]
        exact { hjoining with }
      · cases hs
  | arrive i =>
      simp only [step] at hs
      split at hs
      · rename_i latch signalling hp
        rw [Where, hp] at h
        obtain ⟨hany, hs⟩ := Option.ite_none_right_eq_some.mp hs
        split at hs
        · rename_i hout
          cases hs
          obtain ⟨e, he, hresolved⟩ := (Option.any_eq_true _ _).mp hany
          refine { parties := ?_, count := h.count, arrived := ?_, given := ?_ }
          · rw [Latch.length_arrive]
            exact h.parties
          · intro j u hu hj
            by_cases hij : i = j
            · subst hij
              obtain rfl : e = u := Option.some.inj (he.symm.trans hu)
              simpa using hresolved
            · refine h.arrived j u hu ?_
              rwa [Latch.arrive, List.getElem?_set_ne hij] at hj
          · exact h.given
        · cases hs
      · cases hs
  | release i =>
      simp only [step] at hs
      split at hs
      · rename_i latch signalling hp
        rw [Where, hp] at h
        split at hs
        · rename_i hlast
          cases hs
          refine { parties := ?_, count := h.count, arrived := ?_, given := ?_ }
          · rw [Latch.length_release]
            exact h.parties
          · intro j u hu hj
            refine h.arrived j u hu ?_
            by_cases hij : i = j
            · subst hij
              rw [hlast]
              simp
            · rwa [Latch.release, List.getElem?_set_ne hij] at hj
          · have hsignals := h.given
            cases signalling with
            | none => exact hsignals
            | some k => exact ⟨rfl, hsignals.2⟩
        · cases hs
      · cases hs
  | signal =>
      simp only [step] at hs
      split at hs
      · rename_i latch hp
        rw [Where, hp] at h
        obtain ⟨hopen, hs⟩ := Option.ite_none_right_eq_some.mp hs
        cases hs
        have hsignals : s.signals = [] := h.given
        exact { h with given := ⟨hopen, by simp [hsignals]⟩ }
      · rename_i latch k hp
        cases hs
        rw [Where, hp] at h
        obtain ⟨hopen, hcount⟩ := h.given
        refine { h with given := ⟨hopen, ?_⟩ }
        simp only [List.length_append, List.length_cons, List.length_nil]
        omega
      · cases hs
  | leaf i r =>
      simp only [step] at hs
      split at hs
      · cases hs
      · rename_i e he
        obtain ⟨hd, hs⟩ := Option.ite_none_left_eq_some.mp hs
        cases hs
        exact where_elements h he fun hr => resolved_signal hr (by simpa using hd)
  | drop i =>
      simp only [step] at hs
      split at hs
      · cases hs
      · rename_i e he
        cases hs
        exact where_elements h he fun _ => .inr rfl
  | cancel =>
      cases hs
      exact h

theorem where_of_reachable (harray : ctx.array event = .ok array) (hup : event.upstream = true)
    (hr : (iterating ctx event).Reachable s) : Where ctx array s := by
  refine hr.invariant ?_ fun s a t h _ hs => where_step harray hup h hs
  rintro s ⟨hp, _, hsig⟩
  rw [Where, hp]
  exact hsig

/-! ## The spawned tasks come to an end -/

/-- What the task that waits for the latch has still to do. -/
def signalWork (ctx : Context) : Option Nat → Nat
  | none => ctx.downstreamLeaves + 1
  | some k => k

/-- The steps left for the handler and the tasks it has spawned. -/
def State.work (ctx : Context) (event : Event) (s : State) : Nat :=
  match s.phase with
  | .start => 3 * ((ctx.array event).toOption.map List.length).getD 0 + ctx.downstreamLeaves + 4
  | .emitting todo => 3 * todo.length + 2 * s.elements.length + ctx.downstreamLeaves + 3
  | .joining latch signalling => latch.work + signalWork ctx signalling
  | _ => 0

theorem work_begin (hp : s.phase = .start) :
    (begin ctx event s).work ctx event < s.work ctx event := by
  have hstart : s.work ctx event =
      3 * ((ctx.array event).toOption.map List.length).getD 0 + ctx.downstreamLeaves + 4 := by
    rw [State.work, hp]
  rw [hstart, begin]
  split
  · exact Nat.succ_pos _
  · cases harray : ctx.array event with
    | error e => exact Nat.succ_pos _
    | ok arr =>
        dsimp only
        split
        · exact Nat.succ_pos _
        · split
          · exact Nat.succ_pos _
          · simp only [State.work, Except.toOption, Option.map_some, Option.getD_some,
              List.length_nil]
            omega

theorem work_new (n : Nat) (hn : 0 < n) : (Latch.new n hn).work = 2 * n := by
  simp [Latch.work, Latch.new, List.count_replicate]

theorem work_spawn (hp : s.phase = .emitting []) :
    (spawn event s).work ctx event < s.work ctx event := by
  have hemitting : s.work ctx event = 2 * s.elements.length + ctx.downstreamLeaves + 3 := by
    rw [State.work, hp]
    exact congrArg (· + ctx.downstreamLeaves + 3) (Nat.zero_add _)
  rw [hemitting, spawn]
  split
  · split
    · simp only [State.work, work_new, signalWork]
      omega
    · exact Nat.succ_pos _
  · exact Nat.succ_pos _

/-- Every step of the handler and of the tasks it has spawned brings them nearer to
their end. -/
theorem work_step {a : Act} (ha : a.Own) (hs : step ctx event s a = some t) :
    t.work ctx event < s.work ctx event := by
  cases a with
  | start =>
      simp only [step] at hs
      split at hs
      · rename_i hp
        cases hs
        exact work_begin hp
      · cases hs
  | emit accepted =>
      obtain rfl : accepted = true := ha
      simp only [step, if_true] at hs
      split at hs
      · rename_i x todo hp
        have hwork : s.work ctx event =
            3 * (todo.length + 1) + 2 * s.elements.length + ctx.downstreamLeaves + 3 := by
          rw [State.work, hp]
          rfl
        rw [hwork]
        split at hs
        · cases hs
          exact Nat.succ_pos _
        · cases hs
          simp only [State.work, List.length_append, List.length_cons, List.length_nil]
          omega
      · cases hs
  | spawn =>
      simp only [step] at hs
      split at hs
      · rename_i hp
        cases hs
        exact work_spawn hp
      · cases hs
  | arrive i =>
      simp only [step] at hs
      split at hs
      · rename_i latch signalling hp
        obtain ⟨_, hs⟩ := Option.ite_none_right_eq_some.mp hs
        split at hs
        · rename_i hout
          cases hs
          simp only [State.work, hp]
          exact Nat.add_lt_add_right (Latch.work_arrive hout) _
        · cases hs
      · cases hs
  | release i =>
      simp only [step] at hs
      split at hs
      · rename_i latch signalling hp
        split at hs
        · rename_i hlast
          cases hs
          simp only [State.work, hp]
          exact Nat.add_lt_add_right (Latch.work_release hlast) _
        · cases hs
      · cases hs
  | signal =>
      simp only [step] at hs
      split at hs
      · rename_i latch hp
        obtain ⟨_, hs⟩ := Option.ite_none_right_eq_some.mp hs
        cases hs
        simp only [State.work, hp, signalWork]
        omega
      · rename_i latch k hp
        cases hs
        simp only [State.work, hp, signalWork]
        omega
      · cases hs
  | leaf i r => exact absurd ha id
  | drop i => exact absurd ha id
  | cancel => exact absurd ha id

/-- At rest, with every element resolved, the upstream has all its signals. -/
theorem signals_of_atRest (h : Where ctx array s) (hrest : s.AtRest ctx event)
    (hgo : ¬ s.Stopped) (hall : ∀ e ∈ s.elements, e.Resolved)
    (hleaf : ctx.tx = false → ctx.downstreamLeaves = 1) :
    s.signals.length = ctx.downstreamLeaves := by
  unfold Where at h
  split at h
  · rename_i hp
    have := hrest .start trivial
    simp [step, hp] at this
  · rename_i todo hp
    cases todo with
    | nil =>
        have := hrest .spawn trivial
        simp [step, hp] at this
    | cons x todo =>
        have := hrest (.emit true) rfl
        simp only [step, hp, if_true] at this
        split at this
        · cases this
        · cases this
  · rename_i latch signalling hp
    by_cases hopen : latch.opened = true
    · cases signalling with
      | none =>
          have := hrest .signal trivial
          simp [step, hp, hopen] at this
      | some k =>
          cases k with
          | zero => exact h.given.2
          | succ k =>
              have := hrest .signal trivial
              simp [step, hp] at this
    · obtain ⟨i, hi | hi⟩ := Latch.exists_party_of_not_opened (Bool.eq_false_of_not_eq_true hopen)
      · have hlt : i < s.elements.length := by
          rw [h.count, ← h.parties]
          exact (List.getElem?_eq_some_iff.mp hi).1
        have := hrest (.arrive i) trivial
        simp [step, hp, hi, hlt, hall _ (List.getElem_mem hlt)] at this
      · have := hrest (.release i) trivial
        simp [step, hp, hi] at this
  · rcases h with ⟨_, hlen⟩ | ⟨htx, hlen⟩
    · exact hlen
    · rw [hlen, hleaf htx]
  · rename_i hp
    exact absurd (.inl hp) hgo
  · rename_i e hp
    exact absurd (.inr ⟨e, hp⟩) hgo

/-! ## The fan-in -/

/-- The upstream never gets more than `L` signals, none before all elements are resolved
where elements are sent on, and `L` when a handler that was not stopped has come to rest
with its elements resolved, which it does. -/
structure FansIn (ctx : Context) (event : Event) (array : List Json) (L : Nat) : Prop where
  atMost : ∀ s, (iterating ctx event).Reachable s → s.signals.length ≤ L
  after : array ≠ [] → ctx.tx = true → ∀ s, (iterating ctx event).Reachable s → s.signals ≠ [] →
    s.elements.length = array.length ∧ ∀ e ∈ s.elements, e.Resolved
  inTotal : ∀ s, (iterating ctx event).Reachable s → ¬ s.Stopped →
    (∀ e ∈ s.elements, e.Resolved) → s.AtRest ctx event → s.signals.length = L
  ends : ∃ work : State → Nat, ∀ s a t, a.Own → (iterating ctx event).step s a = some t →
    work t < work s

/-- A task without an output channel is the one leaf below itself, in every flow. -/
theorem leafCount_of_no_output {tasks : List Flow.TaskType} {reg : Flow.TaskRegistry}
    (h : Flow.build tasks = .ok reg) {i : Nat} (hi : i < tasks.length)
    (htx : reg.outputTx i = none) : reg.leafCount i = 1 := by
  rw [Flow.build_eq] at h
  split at h
  · cases h
    simp [Flow.TaskRegistry.leafCount, Flow.buildLinear, hi]
  · obtain ⟨parents, hp⟩ := (Flow.buildDag_ok_iff tasks).mp ⟨reg, h⟩
    have hw := Flow.buildDag_wired hp h
    have hlt : i < (Flow.flowDag hp).size := by
      change i < parents.length
      rw [Flow.resolveParents_length hp]
      exact hi
    have hleaf : (Flow.flowDag hp).Leaf i :=
      Flow.outputOf_eq_none.mp ((hw.outputTx i).symm.trans htx)
    rw [hw.leafCount i hlt, Dag.leafSet_leaf hleaf, Finset.card_singleton]

/-- The upstream completion of an iterated array gets exactly one signal for each leaf,
and none before every element is resolved. -/
theorem fansIn (ctx : Context) (event : Event) (array : List Json)
    (harray : ctx.array event = .ok array) (hup : event.upstream = true)
    (hcount : 1 ≤ ctx.leafCount) (hleaf : ctx.tx = false → ctx.leafCount = 1) :
    FansIn ctx event array ctx.leafCount := by
  have hL : ctx.downstreamLeaves = ctx.leafCount := max_eq_left hcount
  have hwhere : ∀ s, (iterating ctx event).Reachable s → Where ctx array s := fun s hr =>
    where_of_reachable harray hup hr
  refine ⟨?_, ?_, ?_, ⟨State.work ctx event, fun s a t ha hs => work_step ha hs⟩⟩
  · intro s hr
    have h := hwhere s hr
    unfold Where at h
    split at h
    · simp [h]
    · simp [h.1]
    · rename_i latch signalling hp
      have hgiven := h.given
      cases signalling with
      | none => simp [show s.signals = [] from hgiven]
      | some k =>
          have := hgiven.2
          omega
    · rcases h with ⟨_, hlen⟩ | ⟨_, hlen⟩
      · omega
      · omega
    · simp [h]
    · simp [h]
  · intro hne htx s hr hsig
    have h := hwhere s hr
    unfold Where at h
    split at h
    · exact absurd h hsig
    · exact absurd h.1 hsig
    · rename_i latch signalling hp
      have hgiven := h.given
      cases signalling with
      | none => exact absurd hgiven hsig
      | some k =>
          refine ⟨h.count, ?_⟩
          intro e he
          obtain ⟨i, hi⟩ := List.mem_iff_getElem?.mp he
          exact h.arrived i e hi (Latch.not_out_of_opened hgiven.1 i)
    · rcases h with ⟨hnil, _⟩ | ⟨hno, _⟩
      · exact absurd hnil hne
      · rw [htx] at hno
        cases hno
    · exact absurd h hsig
    · exact absurd h hsig
  · intro s hr hgo hall hrest
    rw [← hL]
    refine signals_of_atRest (hwhere s hr) hrest hgo hall ?_
    intro htx
    rw [hL]
    exact hleaf htx

/-- Two elements on a task above two leaves. -/
theorem fansIn_two_leaves :
    FansIn { iterateKey := some "items", tx := true, leafCount := 2 }
      { data := .ok (.object [("items", .array [.null, .bool true])]), upstream := true }
      [.null, .bool true] 2 :=
  fansIn _ _ _ rfl rfl (by decide) (fun h => by cases h)

end Flowgen.Task.Iterate
