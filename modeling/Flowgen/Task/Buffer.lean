/-
# `Flowgen.Task.Buffer` — one acknowledgement for many sources (`core/src/task/buffer.rs`)

A buffer collects events and sends them on as one.  The completions of the
events it collected are kept without duplicates (`absorbCompletion`), and
`flushBuffer` decides what the batch carries: nothing, the only completion
there is, or a proxy.  The proxy has a completion of its own, sized for the
leaves below the buffer, and a task that waits for it and then signals every
absorbed completion once.

`flushed` is what happens after the flush: the leaves below the buffer signal
the completion of the batch, in any order, and the proxy's task runs.  On a
chain from a source to the buffer the completions absorbed were sized with the
same leaf count, so they expect as many signals as there are leaves below.
The proxy gives each of them one.  Hence `proxy_complete_iff`: the absorbed
completions are delivered when the proxy is through exactly if there is one
leaf.  A single completion is passed on and does get all signals
(`passthrough_complete`).
-/
import Flowgen.Lib.Machine
import Flowgen.Event

namespace Flowgen.Task.Buffer

open Flowgen.Lib

/-- Why a buffer was flushed. -/
inductive FlushReason
  | size
  | timeout
  | shutdown
  | completion
deriving DecidableEq

/-- The data of a flushed event. -/
structure FlushData (V : Type) where
  batch : List V
  batchSize : Nat
  flushReason : FlushReason
  partitionKey : Option String

/-- The completion a batch carries: an absorbed one, or the proxy's. -/
inductive Handle
  | upstream (id : Nat)
  | proxy
deriving DecidableEq

variable {V : Type}

/-- `absorb_completion`: completions are the same if they are the same `Arc`,
here an identifier. -/
def absorbCompletion (absorbed : List Nat) (tx : Nat) : List Nat :=
  if tx ∈ absorbed then absorbed else absorbed ++ [tx]

/-- The completions of the events of a batch. -/
def absorbAll (completions : List (Option Nat)) : List Nat :=
  (completions.filterMap id).foldl absorbCompletion []

/-- The task `spawn_completion_proxy` spawns. -/
inductive ProxyTask (V : Type)
  | waiting (upstreams : List Nat)
  | signalling (payload : Option V) (rest : List Nat)
  | done
deriving DecidableEq

/-- `spawn_completion_proxy`: the completion to attach, and the task spawned. -/
def spawnCompletionProxy (upstreams : List Nat) : Option Handle × ProxyTask V :=
  match upstreams with
  | [] => (none, .done)
  | [u] => (some (.upstream u), .done)
  | us => (some .proxy, .waiting us)

/-- What a flush sends, signals and spawns. -/
structure Flush (V : Type) where
  data : V
  completionTx : Option Handle
  signals : List (Nat × Option V)
  task : ProxyTask V

/-- `flush_buffer`; `toJson` is the serialisation of the flush data.  A buffer
without output channel is a leaf and signals the absorbed completions itself. -/
def flushBuffer (tx : Bool) (toJson : FlushData V → V) (buffer : List V)
    (flushReason : FlushReason) (partitionKey : Option String) (upstreams : List Nat) :
    Option (Flush V) :=
  if buffer.isEmpty then none
  else
    let data := toJson
      { batch := buffer
        batchSize := buffer.length
        flushReason := flushReason
        partitionKey := partitionKey }
    if tx then
      let (handle, task) := spawnCompletionProxy upstreams
      some { data := data, completionTx := handle, signals := [], task := task }
    else
      some
        { data := data
          completionTx := none
          signals := upstreams.map fun u => (u, some data)
          task := .done }

/-! ## After the flush -/

structure State (V : Type) where
  upstream : Nat → CompletionState V
  proxy : CompletionState V
  task : ProxyTask V
  /-- The leaves below the buffer that have not signalled yet. -/
  pending : List Nat

inductive Act (V : Type)
  | leaf (idx : Nat) (result : CompletionResult V)
  | wake
  | signal

def State.signalUpstream (s : State V) (u : Nat) (result : CompletionResult V) : State V :=
  { s with upstream := Function.update s.upstream u ((s.upstream u).signal result) }

/-- A leaf signals the completion the batch carries. -/
def State.signalBatch (s : State V) (result : CompletionResult V) : Option Handle → State V
  | none => s
  | some (.upstream u) => s.signalUpstream u result
  | some .proxy => { s with proxy := s.proxy.signal result }

/-- `wake` is the proxy's receiver resolving: an error ends the task, and
leaves the upstreams to their own timeouts. -/
def step (completionTx : Option Handle) (s : State V) : Act V → Option (State V)
  | .leaf idx result =>
      if idx ∈ s.pending then
        some ({ s with pending := s.pending.erase idx }.signalBatch result completionTx)
      else none
  | .wake =>
      match s.task, s.proxy.delivered with
      | .waiting upstreams, some (.ok payload) => some { s with task := .signalling payload upstreams }
      | .waiting _, some (.error _) => some { s with task := .done }
      | _, _ => none
  | .signal =>
      match s.task with
      | .signalling _ [] => some { s with task := .done }
      | .signalling payload (u :: rest) =>
          some { s.signalUpstream u (.ok payload) with task := .signalling payload rest }
      | _ => none

/-- What follows the flush of a batch with these completions, on chains whose
sources and buffer have `leafCount` leaves below them. -/
def flushed (leafCount : Nat) (fl : Flush V) : Machine (State V) (Act V) where
  init s := s =
    { upstream := fun _ => .new leafCount
      proxy := .new (max leafCount 1)
      task := fl.task
      pending := List.range leafCount }
  step := step fl.completionTx

/-- The leaves signal successfully. -/
def Succeeds (_ : State V) : Act V → Prop
  | .leaf _ (.error _) => False
  | _ => True

instance (s : State V) : ∀ a : Act V, Decidable (Succeeds s a)
  | .leaf _ (.error _) => isFalse id
  | .leaf _ (.ok _) => isTrue trivial
  | .wake => isTrue trivial
  | .signal => isTrue trivial

/-- The batch's completion has been delivered and its task has run: every
absorbed completion has delivered a success value. -/
def Complete (absorbed : List Nat) (s : State V) : Prop :=
  s.proxy.delivered.isSome → s.task = .done →
    ∀ u ∈ absorbed, ∃ payload, (s.upstream u).delivered = some (.ok payload)

/-! ## What is absorbed -/

theorem mem_absorbCompletion {absorbed : List Nat} {tx u : Nat} :
    u ∈ absorbCompletion absorbed tx ↔ u ∈ absorbed ∨ u = tx := by
  rw [absorbCompletion]
  split
  · rename_i h
    exact ⟨Or.inl, fun hu => hu.elim id fun he => he ▸ h⟩
  · simp

theorem nodup_absorbCompletion {absorbed : List Nat} (h : absorbed.Nodup) (tx : Nat) :
    (absorbCompletion absorbed tx).Nodup := by
  rw [absorbCompletion]
  split
  · exact h
  · rename_i hn
    exact List.nodup_append.mpr ⟨h, List.nodup_singleton tx, fun a ha b hb he =>
      hn (List.mem_singleton.mp hb ▸ he ▸ ha)⟩

theorem nodup_foldl_absorb : ∀ (txs absorbed : List Nat), absorbed.Nodup →
    (txs.foldl absorbCompletion absorbed).Nodup
  | [], _, h => h
  | tx :: txs, _, h => nodup_foldl_absorb txs _ (nodup_absorbCompletion h tx)

/-- No completion is absorbed twice. -/
theorem nodup_absorbAll (completions : List (Option Nat)) : (absorbAll completions).Nodup :=
  nodup_foldl_absorb _ [] List.nodup_nil

theorem mem_foldl_absorb {u : Nat} : ∀ (txs absorbed : List Nat),
    u ∈ txs.foldl absorbCompletion absorbed ↔ u ∈ absorbed ∨ u ∈ txs
  | [], _ => by simp
  | tx :: txs, absorbed => by
      rw [List.foldl_cons, mem_foldl_absorb txs, mem_absorbCompletion, List.mem_cons, or_assoc]

/-- Every completion of the batch is absorbed. -/
theorem mem_absorbAll {completions : List (Option Nat)} {u : Nat} :
    u ∈ absorbAll completions ↔ some u ∈ completions := by
  simp [absorbAll, mem_foldl_absorb]

theorem spawnCompletionProxy_of_two {us : List Nat} (h : 2 ≤ us.length) :
    spawnCompletionProxy (V := V) us = (some .proxy, .waiting us) := by
  match us with
  | _ :: _ :: _ => rfl

/-! ## The proxy -/

/-- How far the proxy's task is: the completions it has signalled got one
signal, the others none. -/
structure Proxied (leafCount : Nat) (absorbed : List Nat) (s : State V) : Prop where
  remaining : s.proxy.remaining = s.pending.length
  success : ∀ r, s.proxy.delivered = some r → ∃ payload, r = .ok payload
  task :
    (s.task = .waiting absorbed ∧ s.upstream = fun _ => .new leafCount) ∨
    (∃ payload done rest, s.task = .signalling payload rest ∧ absorbed = done ++ rest ∧
      s.upstream = fun u =>
        if u ∈ done then (CompletionState.new leafCount).signal (.ok payload) else .new leafCount) ∨
    (∃ payload, s.task = .done ∧ ∀ u ∈ absorbed,
      s.upstream u = (CompletionState.new leafCount).signal (.ok payload))

variable {leafCount : Nat} {absorbed : List Nat} {s t : State V} {fl : Flush V}

theorem proxied_start (hL : 1 ≤ leafCount) (hfl : fl.task = .waiting absorbed)
    (h : (flushed leafCount fl).init s) : Proxied leafCount absorbed s := by
  obtain rfl := h
  refine ⟨?_, by simp, Or.inl ⟨hfl, rfl⟩⟩
  simp only [CompletionState.remaining_new, List.length_range]
  omega

theorem proxied_step {a : Act V} (hnd : absorbed.Nodup) (h : Proxied leafCount absorbed s)
    (ha : Succeeds s a) (hs : step (some .proxy) s a = some t) : Proxied leafCount absorbed t := by
  obtain ⟨hrem, hok, htask⟩ := h
  cases a with
  | leaf idx result =>
      simp only [step] at hs
      split at hs
      · rename_i hidx
        obtain rfl := Option.some.inj hs
        refine ⟨?_, ?_, htask⟩
        · simp only [State.signalBatch, CompletionState.remaining_signal, hrem,
            List.length_erase_of_mem hidx]
        · intro r hr
          simp only [State.signalBatch, CompletionState.delivered_signal] at hr
          split at hr
          · obtain rfl := Option.some.inj hr
            cases result with
            | ok payload => exact ⟨payload, rfl⟩
            | error e => exact ha.elim
          · exact hok r hr
      · cases hs
  | wake =>
      rcases htask with ⟨hw, hup⟩ | ⟨_, _, _, hw, _⟩ | ⟨_, hw, _⟩
      · cases hd : s.proxy.delivered with
        | none => simp [step, hw, hd] at hs
        | some r =>
            obtain ⟨payload, rfl⟩ := hok r hd
            simp only [step, hw, hd, Option.some.injEq] at hs
            subst hs
            exact ⟨hrem, hok, Or.inr (Or.inl ⟨payload, [], absorbed, rfl, rfl, by simpa using hup⟩)⟩
      · simp [step, hw] at hs
      · simp [step, hw] at hs
  | signal =>
      rcases htask with ⟨hw, hup⟩ | ⟨payload, done, rest, hw, habs, hup⟩ | ⟨_, hw, _⟩
      · simp [step, hw] at hs
      · cases rest with
        | nil =>
            simp only [step, hw, Option.some.injEq] at hs
            subst hs
            refine ⟨hrem, hok, Or.inr (Or.inr ⟨payload, rfl, fun u hu => ?_⟩)⟩
            rw [habs, List.append_nil] at hu
            simp [hup, hu]
        | cons u rest =>
            simp only [step, hw, Option.some.injEq] at hs
            subst hs
            refine ⟨hrem, hok, Or.inr (Or.inl ⟨payload, done ++ [u], rest, rfl, by simp [habs], ?_⟩)⟩
            -- `u` is signalled for the first time
            have hu : u ∉ done := fun hd => by
              rw [habs] at hnd
              exact (List.nodup_append.mp hnd).2.2 u hd u List.mem_cons_self rfl
            funext v
            by_cases hv : v = u
            · subst hv
              simp [State.signalUpstream, hup, hu]
            · simp [State.signalUpstream, hup, hv]
      · simp [step, hw] at hs

/-- Once the proxy is through, its upstreams are complete exactly if one
signal was all they expected. -/
theorem upstream_delivered_iff (h : Proxied leafCount absorbed s) (hL : 1 ≤ leafCount)
    (hdone : s.task = .done) {u : Nat} (hu : u ∈ absorbed) :
    (∃ payload, (s.upstream u).delivered = some (.ok payload)) ↔ leafCount = 1 := by
  rcases h.task with ⟨hw, _⟩ | ⟨_, _, _, hw, _⟩ | ⟨payload, _, hup⟩
  · simp [hw] at hdone
  · simp [hw] at hdone
  · rw [hup u hu, CompletionState.delivered_signal]
    have hmax : max leafCount 1 = leafCount := by omega
    rw [CompletionState.remaining_new, hmax]
    split
    · rename_i h1
      exact iff_of_true ⟨payload, rfl⟩ h1
    · rename_i h1
      exact iff_of_false (by simp) h1

/-- The signals the proxy's task has still to give, and its own steps. -/
def ProxyTask.left : ProxyTask V → Nat
  | .waiting upstreams => upstreams.length + 2
  | .signalling _ rest => rest.length + 1
  | .done => 0

theorem exists_succeeding_step (h : Proxied leafCount absorbed s)
    (hf : ¬ (s.proxy.delivered.isSome ∧ s.task = .done)) :
    ∃ a t, Succeeds s a ∧ step (some .proxy) s a = some t ∧
      t.pending.length + t.task.left < s.pending.length + s.task.left := by
  cases hp : s.pending with
  | cons idx pending =>
      refine ⟨.leaf idx (.ok none),
        { s with pending := s.pending.erase idx }.signalBatch (.ok none) (some .proxy), trivial,
        by simp [step, hp], ?_⟩
      simp [State.signalBatch, hp]
  | nil =>
      -- every leaf has signalled, so the batch is acknowledged: it is the task's turn
      have hd : s.proxy.delivered.isSome := by
        rw [CompletionState.delivered_isSome_iff, h.remaining, hp]
        rfl
      obtain ⟨r, hr⟩ := Option.isSome_iff_exists.mp hd
      obtain ⟨payload, rfl⟩ := h.success r hr
      cases htask : s.task with
      | waiting upstreams =>
          refine ⟨.wake, { s with task := .signalling payload upstreams }, trivial,
            by simp [step, htask, hr], ?_⟩
          simp [hp, ProxyTask.left]
      | signalling payload rest =>
          cases rest with
          | nil =>
              refine ⟨.signal, { s with task := .done }, trivial, by simp [step, htask], ?_⟩
              simp [hp, ProxyTask.left]
          | cons u rest =>
              refine ⟨.signal,
                { s.signalUpstream u (.ok payload) with task := .signalling payload rest },
                trivial, by simp [step, htask], ?_⟩
              simp [State.signalUpstream, hp, ProxyTask.left]
      | done => exact absurd ⟨hd, htask⟩ hf

/-- The leaves can all signal, and the proxy's task come to its end. -/
theorem exists_done (hnd : absorbed.Nodup) (hfl : fl.completionTx = some .proxy)
    (h : Proxied leafCount absorbed s) :
    ∃ as t, (flushed leafCount fl).RunOf Succeeds s as t ∧ Proxied leafCount absorbed t ∧
      t.proxy.delivered.isSome ∧ t.task = .done := by
  refine Machine.exists_run_to_final (Proxied leafCount absorbed)
    (fun s => s.proxy.delivered.isSome ∧ s.task = .done)
    (fun s => s.pending.length + s.task.left) (fun s hI hf => ?_) s h
  obtain ⟨a, t, ha, hs, hlt⟩ := exists_succeeding_step hI hf
  have hs' : (flushed leafCount fl).step s a = some t := by
    show step fl.completionTx s a = some t
    rw [hfl]
    exact hs
  exact ⟨a, t, ha, hs', proxied_step hnd hI ha hs, hlt⟩

theorem flushBuffer_of_two {toJson : FlushData V → V} {buffer : List V} {reason : FlushReason}
    {key : Option String} (hk : 2 ≤ absorbed.length)
    (h : flushBuffer true toJson buffer reason key absorbed = some fl) :
    fl.completionTx = some .proxy ∧ fl.task = .waiting absorbed := by
  simp only [flushBuffer, spawnCompletionProxy_of_two hk, if_true] at h
  split at h
  · cases h
  · obtain rfl := Option.some.inj h
    exact ⟨rfl, rfl⟩

/-- With two or more absorbed completions, all of them are delivered a success
value once the batch has been acknowledged, in every order in which the leaves
signal, exactly if there is one leaf below the buffer. -/
theorem proxy_complete_iff (toJson : FlushData V → V) (buffer : List V) (reason : FlushReason)
    (key : Option String) (completions : List (Option Nat)) {fl : Flush V} {leafCount : Nat}
    (hL : 1 ≤ leafCount) (hk : 2 ≤ (absorbAll completions).length)
    (h : flushBuffer true toJson buffer reason key (absorbAll completions) = some fl) :
    (∀ s, (flushed leafCount fl).ReachableBy Succeeds s → Complete (absorbAll completions) s) ↔
      leafCount = 1 := by
  obtain ⟨htx, htask⟩ := flushBuffer_of_two hk h
  have hnd := nodup_absorbAll completions
  constructor
  · intro hall
    obtain ⟨s₀, h0⟩ : ∃ s₀, (flushed leafCount fl).init s₀ := ⟨_, rfl⟩
    obtain ⟨as, s, hr, hI, hd, hdone⟩ := exists_done hnd htx (proxied_start hL htask h0)
    obtain ⟨u, hu⟩ := List.exists_mem_of_length_pos (Nat.lt_of_lt_of_le Nat.two_pos hk)
    exact (upstream_delivered_iff hI hL hdone hu).mp (hall s ⟨s₀, as, h0, hr⟩ hd hdone u hu)
  · intro h1 s hs _ hdone u hu
    have hI : Proxied leafCount (absorbAll completions) s :=
      hs.invariant (fun s h0 => proxied_start hL htask h0) fun s a t hi ha hst =>
        proxied_step hnd hi ha (htx ▸ hst)
    exact (upstream_delivered_iff hI hL hdone hu).mpr h1

/-- Two sources on chains with one leaf. -/
theorem proxy_complete_one_leaf :
    let completions := [some 4, some 9, none, some 4]
    ∃ fl : Flush Nat, flushBuffer true (·.batchSize) [10, 20, 30, 40] .size none
        (absorbAll completions) = some fl ∧
      ∀ s, (flushed 1 fl).ReachableBy Succeeds s → Complete (absorbAll completions) s :=
  ⟨_, rfl, (proxy_complete_iff (·.batchSize) [10, 20, 30, 40] .size none
    [some 4, some 9, none, some 4] (Nat.le_refl 1) (by decide) rfl).mpr rfl⟩

/-- Two sources on chains with two leaves: both leaves signal the batch, the
proxy signals each source once, and both go on waiting for a second signal. -/
theorem proxy_incomplete_two_leaves :
    let completions := [some 4, some 9]
    ∃ (fl : Flush Nat) (s : State Nat), flushBuffer true (·.batchSize) [10, 20] .size none
        (absorbAll completions) = some fl ∧ (flushed 2 fl).ReachableBy Succeeds s ∧
      s.proxy.delivered.isSome ∧ s.task = .done ∧
      (∀ u ∈ [4, 9], (s.upstream u).remaining = 1 ∧ (s.upstream u).delivered = none) := by
  intro completions
  refine ⟨{ data := 2, completionTx := some .proxy, signals := [], task := .waiting [4, 9] }, ?_⟩
  have hrun : ((flushed 2 (V := Nat)
      { data := 2, completionTx := some .proxy, signals := [], task := .waiting [4, 9] }).exec Succeeds
      { upstream := fun _ => .new 2, proxy := .new 2, task := .waiting [4, 9], pending := [0, 1] }
      [.leaf 1 (.ok none), .leaf 0 (.ok (some 5)), .wake, .signal, .signal, .signal]).any
      (fun s => s.proxy.delivered.isSome && s.task == .done &&
        [4, 9].all fun u => (s.upstream u).remaining == 1 && (s.upstream u).delivered.isNone)
      = true := by
    decide
  obtain ⟨s, hr, hs⟩ := Machine.exists_of_exec hrun
  simp only [Bool.and_eq_true, beq_iff_eq, List.all_eq_true, Option.isNone_iff_eq_none] at hs
  exact ⟨s, rfl, ⟨_, _, rfl, hr⟩, hs.1.1, hs.1.2, hs.2⟩

/-! ## A single completion is passed on -/

/-- With one absorbed completion the leaves signal it directly, and it is
delivered when all of them have, however many there are. -/
theorem passthrough_complete {toJson : FlushData V → V} {buffer : List V} {reason : FlushReason}
    {key : Option String} {u : Nat} (hL : 1 ≤ leafCount)
    (h : flushBuffer true toJson buffer reason key [u] = some fl)
    (hs : (flushed leafCount fl).ReachableBy Succeeds s) (hall : s.pending = []) :
    ∃ payload, (s.upstream u).delivered = some (.ok payload) := by
  have hfl : fl.completionTx = some (.upstream u) ∧ fl.task = .done := by
    simp only [flushBuffer, spawnCompletionProxy, if_true] at h
    split at h
    · cases h
    · obtain rfl := Option.some.inj h
      exact ⟨rfl, rfl⟩
  have hI : s.task = .done ∧ (s.upstream u).remaining = s.pending.length ∧
      ∀ r, (s.upstream u).delivered = some r → ∃ payload, r = .ok payload := by
    refine hs.invariant (I := fun s => s.task = .done ∧
      (s.upstream u).remaining = s.pending.length ∧
      ∀ r, (s.upstream u).delivered = some r → ∃ payload, r = .ok payload) ?_ ?_
    · rintro _ rfl
      refine ⟨hfl.2, ?_, by simp⟩
      simp only [CompletionState.remaining_new, List.length_range]
      omega
    · intro s a t ⟨htask, hrem, hok⟩ ha hst
      simp only [flushed, hfl.1] at hst
      cases a with
      | leaf idx result =>
          simp only [step] at hst
          split at hst
          · rename_i hidx
            obtain rfl := Option.some.inj hst
            refine ⟨htask, ?_, ?_⟩
            · simp only [State.signalBatch, State.signalUpstream, Function.update_self,
                CompletionState.remaining_signal, hrem, List.length_erase_of_mem hidx]
            · intro r hr
              simp only [State.signalBatch, State.signalUpstream, Function.update_self,
                CompletionState.delivered_signal] at hr
              split at hr
              · obtain rfl := Option.some.inj hr
                cases result with
                | ok payload => exact ⟨payload, rfl⟩
                | error e => exact ha.elim
              · exact hok r hr
          · cases hst
      | wake => simp [step, htask] at hst
      | signal => simp [step, htask] at hst
  have hd : (s.upstream u).delivered.isSome := by
    rw [CompletionState.delivered_isSome_iff, hI.2.1, hall]
    rfl
  obtain ⟨r, hr⟩ := Option.isSome_iff_exists.mp hd
  obtain ⟨payload, rfl⟩ := hI.2.2 r hr
  exact ⟨payload, hr⟩

end Flowgen.Task.Buffer
