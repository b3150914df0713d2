/-
# `Flowgen.Flow.Signals` — leaves that signal at the same time (`core/src/event.rs`)

Elsewhere a signal of a leaf is one step (`CompletionState.signal`).  In the code it is
several: the counter is loaded, a loop tries to exchange it for one less, and the call that
exchanged the one for a zero then locks the mutex, takes the sender out of it and sends.
Here any number of calls run at the same time, and each of these is a step of its own.

The calls take effect in the order of their exchanges, and what they do together is what
they do one after the other in that order (`signals_linearize`).  The receiver is sent one
result, that of the call which exchanged the one for a zero, if there are as many calls as
leaves expected, and none if there are fewer (`delivered_exactly_once`).
-/
import Flowgen.Lib.Machine
import Flowgen.Event

namespace Flowgen.Flow.Signals

open Flowgen.Lib

variable {V : Type} {n : ℕ}

inductive Call (V : Type)
  | signalCompletion (payload : Option V)
  | signalCompletionWithError (error : String)

/-- What the call sends, if it is the last. -/
def Call.result : Call V → CompletionResult V
  | .signalCompletion payload => .ok payload
  | .signalCompletionWithError error => .error error

/-- Where a call is: in the loop it has the value it read last. -/
inductive Phase
  | called
  | loop (current : ℕ)
  /-- `last_leaf` has returned true. -/
  | last
  | locked
  | sending
  | unlocking
  | returned
deriving DecidableEq

/-- The counter, the mutex with the sender in it, what has been sent, and the calls. -/
structure State (n : ℕ) (V : Type) where
  remaining : ℕ
  sender : Bool
  holder : Option (Fin n)
  delivered : List (CompletionResult V)
  phases : Fin n → Phase

/-- A step of a call.  `exchange` is one round of the loop; in `spurious` the weak exchange
fails although the counter is what the call has read. -/
inductive Act (n : ℕ)
  | load (call : Fin n)
  | exchange (call : Fin n)
  | spurious (call : Fin n)
  | lock (call : Fin n)
  | take (call : Fin n)
  | send (call : Fin n)
  | unlock (call : Fin n)

def Act.call : Act n → Fin n
  | .load i | .exchange i | .spurious i | .lock i | .take i | .send i | .unlock i => i

def Act.isSpurious : Act n → Bool
  | .spurious _ => true
  | _ => false

/-- The call `i` is at another place. -/
def State.move (s : State n V) (i : Fin n) (phase : Phase) : State n V :=
  { s with phases := Function.update s.phases i phase }

/-- `CompletionState::new`, and no call has begun. -/
def State.new (n leafCount : ℕ) : State n V where
  remaining := max leafCount 1
  sender := true
  holder := none
  delivered := []
  phases := fun _ => .called

def step (calls : Fin n → Call V) (s : State n V) : Act n → Option (State n V)
  | .load i =>
      match s.phases i with
      | .called => some (s.move i (.loop s.remaining))
      | _ => none
  | .exchange i =>
      match s.phases i with
      | .loop 0 => some (s.move i .returned)
      | .loop (k + 1) =>
          if s.remaining = k + 1 then
            some ({ s with remaining := k }.move i (if k + 1 = 1 then .last else .returned))
          else some (s.move i (.loop s.remaining))
      | _ => none
  | .spurious i =>
      match s.phases i with
      | .loop (k + 1) => if s.remaining = k + 1 then some s else none
      | _ => none
  | .lock i =>
      match s.phases i, s.holder with
      | .last, none => some ({ s with holder := some i }.move i .locked)
      | _, _ => none
  | .take i =>
      match s.phases i with
      | .locked =>
          some ({ s with sender := false }.move i (if s.sender then .sending else .unlocking))
      | _ => none
  | .send i =>
      match s.phases i with
      | .sending =>
          some ({ s with delivered := s.delivered ++ [(calls i).result] }.move i .unlocking)
      | _ => none
  | .unlock i =>
      match s.phases i with
      | .unlocking => some ({ s with holder := none }.move i .returned)
      | _ => none

/-- `n` calls on a completion state for `leafCount` leaves. -/
def signalling (leafCount : ℕ) (calls : Fin n → Call V) : Machine (State n V) (Act n) where
  init s := s = .new n leafCount
  step := step calls

/-- The call whose step takes the counter to zero. -/
def zeroes (calls : Fin n → Call V) (s : State n V) (a : Act n) : Option (Fin n) :=
  if 0 < s.remaining ∧ (step calls s a).any (·.remaining = 0) then some a.call else none

/-- The calls come to an end: however they go on, there is a step for one of them as long as
not all have returned, and but for the spurious failures their steps are bounded. -/
def Returns (leafCount : ℕ) (calls : Fin n → Call V) (s : State n V) : Prop :=
  (∃ bound, ∀ acts t, (signalling leafCount calls).Run s acts t →
    acts.countP (!·.isSpurious) ≤ bound) ∧
  ∀ acts t, (signalling leafCount calls).Run s acts t → (∃ i, t.phases i ≠ .returned) →
    ∃ a u, a.isSpurious = false ∧ step calls t a = some u

/-! ## One call after the other -/

/-- What calls do that are run one after the other. -/
def sequential (leafCount : ℕ) (calls : Fin n → Call V) (order : List (Fin n)) :
    CompletionState V :=
  (CompletionState.new leafCount).signals (order.map fun i => (calls i).result)

variable {leafCount : ℕ} {calls : Fin n → Call V} {s t : State n V} {order zeroed : List (Fin n)}
  {i : Fin n} {p : Phase} {a : Act n}

theorem sequential_concat : sequential leafCount calls (order ++ [i]) =
    (sequential leafCount calls order).signal (calls i).result := by
  simp only [sequential, CompletionState.signals, List.map_append, List.map_cons, List.map_nil,
    List.foldl_concat]

theorem remaining_sequential :
    (sequential leafCount calls order).remaining = max leafCount 1 - order.length := by
  simp [sequential]

/-! ## The order in which the calls take effect -/

/-- The call has taken effect on the counter, or has found it at zero. -/
def Phase.settled : Phase → Bool
  | .called | .loop _ => false
  | .last | .locked | .sending | .unlocking | .returned => true

/-- What the mutex and the receiver have. -/
def State.channel (s : State n V) : Bool × Option (Fin n) × List (CompletionResult V) :=
  (s.sender, s.holder, s.delivered)

/-- What they have when the call that was the last is at a place. -/
def afterLast (i : Fin n) (result : CompletionResult V) :
    Phase → Option (Bool × Option (Fin n) × List (CompletionResult V))
  | .called | .loop _ => none
  | .last => some (true, none, [])
  | .locked => some (true, some i, [])
  | .sending => some (false, some i, [])
  | .unlocking => some (false, some i, [result])
  | .returned => some (false, none, [result])

/-- Before the counter is zero nobody has gone for the mutex; then one call has. -/
inductive Stage (leafCount : ℕ) (calls : Fin n → Call V) (order zeroed : List (Fin n))
    (s : State n V) : Prop
  | waiting (hpos : 0 < s.remaining) (hzeroed : zeroed = [])
      (hquiet : ∀ j, (s.phases j).settled = true → s.phases j = .returned)
      (hchannel : s.channel = (true, none, []))
  | delivering (i : Fin n) (hzero : s.remaining = 0) (hzeroed : zeroed = [i])
      (hquiet : ∀ j ≠ i, (s.phases j).settled = true → s.phases j = .returned)
      (hchannel : afterLast i (calls i).result (s.phases i) = some s.channel)
      (hdelivered : (sequential leafCount calls order).delivered = some (calls i).result)

/-- The calls in `order` have taken effect, one after the other. -/
structure Linear (leafCount : ℕ) (calls : Fin n → Call V) (order zeroed : List (Fin n))
    (s : State n V) : Prop where
  nodup : order.Nodup
  settled : ∀ j, j ∈ order ↔ (s.phases j).settled = true
  remaining : s.remaining = (sequential leafCount calls order).remaining
  read : ∀ j current, s.phases j = .loop current → s.remaining ≤ current
  stage : Stage leafCount calls order zeroed s

@[simp] theorem remaining_move : (s.move i p).remaining = s.remaining := rfl

@[simp] theorem channel_move : (s.move i p).channel = s.channel := rfl

@[simp] theorem phases_move_self : (s.move i p).phases i = p := Function.update_self ..

theorem phases_move_ne {j : Fin n} (h : j ≠ i) : (s.move i p).phases j = s.phases j :=
  Function.update_of_ne h ..

theorem linear_new : Linear leafCount calls [] [] (.new n leafCount) where
  nodup := List.nodup_nil
  settled j := by simp [State.new, Phase.settled]
  remaining := rfl
  read j current h := by cases h
  stage := .waiting (Nat.lt_of_lt_of_le Nat.one_pos (Nat.le_max_right ..)) rfl
    (fun j h => by cases h) rfl

/-- A call reads the counter, for the first time or again. -/
theorem Linear.reads (h : Linear leafCount calls order zeroed s)
    (hi : (s.phases i).settled = false) :
    Linear leafCount calls order zeroed (s.move i (.loop s.remaining)) := by
  have hphase : ∀ j, ((s.move i (.loop s.remaining)).phases j).settled = (s.phases j).settled := by
    intro j
    by_cases hj : j = i
    · subst hj
      rw [phases_move_self, hi]
      rfl
    · rw [phases_move_ne hj]
  have hkeep : ∀ j, (s.phases j).settled = true →
      (s.move i (.loop s.remaining)).phases j = s.phases j := by
    intro j hj
    refine phases_move_ne ?_
    rintro rfl
    rw [hi] at hj
    cases hj
  refine ⟨h.nodup, fun j => by rw [hphase, h.settled], h.remaining, ?_, ?_⟩
  · intro j current hj
    by_cases hji : j = i
    · subst hji
      rw [phases_move_self] at hj
      cases hj
      exact Nat.le_refl _
    · rw [phases_move_ne hji] at hj
      exact h.read j current hj
  · cases h.stage with
    | waiting hpos hzeroed hquiet hchannel =>
        refine .waiting hpos hzeroed (fun j hj => ?_) hchannel
        rw [hphase] at hj
        rw [hkeep j hj, hquiet j hj]
    | delivering k hzero hzeroed hquiet hchannel hdelivered =>
        have hk : (s.phases k).settled = true := by
          cases hp : s.phases k with
          | called => rw [hp] at hchannel; cases hchannel
          | loop current => rw [hp] at hchannel; cases hchannel
          | _ => rfl
        refine .delivering k hzero hzeroed (fun j hne hj => ?_) ?_ hdelivered
        · rw [hphase] at hj
          rw [hkeep j hj, hquiet j hne hj]
        · rwa [hkeep k hk]

/-- A call that takes effect comes behind those that already have. -/
theorem Linear.concat (h : Linear leafCount calls order zeroed s)
    (hi : (s.phases i).settled = false) (hp : p.settled = true) :
    (order ++ [i]).Nodup ∧ ∀ j, j ∈ order ++ [i] ↔ ((s.move i p).phases j).settled = true := by
  have hnot : i ∉ order := by
    rw [h.settled, hi]
    decide
  constructor
  · exact List.nodup_append.mpr ⟨h.nodup, List.nodup_singleton i, fun a ha b hb hab =>
      hnot (List.mem_singleton.mp hb ▸ hab ▸ ha)⟩
  · intro j
    rw [List.mem_append, List.mem_singleton]
    by_cases hj : j = i
    · subst hj
      rw [phases_move_self, hp]
      exact ⟨fun _ => rfl, fun _ => .inr rfl⟩
    · rw [phases_move_ne hj, ← h.settled]
      exact ⟨fun h => h.resolve_right hj, .inl⟩

/-- A call in the loop has not read less than there is. -/
theorem Linear.read_move (h : Linear leafCount calls order zeroed s) {r : ℕ}
    (hr : r ≤ s.remaining) (hp : p.settled = true) {j : Fin n} {current : ℕ}
    (hj : (s.move i p).phases j = .loop current) : r ≤ current := by
  by_cases hji : j = i
  · subst hji
    rw [phases_move_self] at hj
    rw [hj] at hp
    cases hp
  · rw [phases_move_ne hji] at hj
    exact hr.trans (h.read j current hj)

/-- The counter is at zero: the call returns and has done nothing. -/
theorem Linear.passes (h : Linear leafCount calls order zeroed s) (hi : s.phases i = .loop 0) :
    Linear leafCount calls (order ++ [i]) zeroed (s.move i .returned) := by
  have hzero : s.remaining = 0 := Nat.le_zero.mp (h.read i 0 hi)
  have hset : (s.phases i).settled = false := by rw [hi]; rfl
  obtain ⟨hnodup, hsettled⟩ := h.concat (p := .returned) hset rfl
  refine ⟨hnodup, hsettled, ?_, fun j current hj => h.read_move (Nat.le_refl _) rfl hj, ?_⟩
  · rw [sequential_concat, CompletionState.remaining_signal, ← h.remaining, remaining_move, hzero]
  · cases h.stage with
    | waiting hpos => exact absurd hzero hpos.ne'
    | delivering k _ hzeroed hquiet hchannel hdelivered =>
        have hne : k ≠ i := by
          rintro rfl
          rw [hi] at hchannel
          cases hchannel
        refine .delivering k hzero hzeroed (fun j hjk hj => ?_) ?_ ?_
        · by_cases hji : j = i
          · subst hji
            exact phases_move_self
          · rw [phases_move_ne hji] at hj ⊢
            exact hquiet j hjk hj
        · rwa [phases_move_ne hne]
        · rw [sequential_concat, CompletionState.delivered_signal, ← h.remaining, hzero,
            if_neg (by decide)]
          exact hdelivered

/-- The exchange succeeds, and another call is still to come. -/
theorem Linear.counts (h : Linear leafCount calls order zeroed s) {k : ℕ}
    (hi : s.phases i = .loop (k + 2)) (hk : s.remaining = k + 2) :
    Linear leafCount calls (order ++ [i]) zeroed
      ({ s with remaining := k + 1 }.move i .returned) := by
  have hset : (s.phases i).settled = false := by rw [hi]; rfl
  obtain ⟨hnodup, hsettled⟩ := h.concat (p := .returned) hset rfl
  refine ⟨hnodup, hsettled, ?_, fun j current hj =>
    h.read_move (r := k + 1) (by omega) rfl hj, ?_⟩
  · rw [sequential_concat, CompletionState.remaining_signal, ← h.remaining, hk]
    rfl
  · cases h.stage with
    | waiting _ hzeroed hquiet hchannel =>
        refine .waiting (Nat.succ_pos k) hzeroed (fun j hj => ?_) hchannel
        by_cases hji : j = i
        · subst hji
          exact phases_move_self
        · rw [phases_move_ne hji] at hj ⊢
          exact hquiet j hj
    | delivering _ hzero => omega

/-- The exchange takes the counter to zero. -/
theorem Linear.zeroes (h : Linear leafCount calls order zeroed s) (hi : s.phases i = .loop 1)
    (hone : s.remaining = 1) :
    Linear leafCount calls (order ++ [i]) (zeroed ++ [i])
      ({ s with remaining := 0 }.move i .last) := by
  have hset : (s.phases i).settled = false := by rw [hi]; rfl
  obtain ⟨hnodup, hsettled⟩ := h.concat (p := .last) hset rfl
  refine ⟨hnodup, hsettled, ?_, fun j current hj => h.read_move (Nat.zero_le _) rfl hj, ?_⟩
  · rw [sequential_concat, CompletionState.remaining_signal, ← h.remaining, hone]
    rfl
  · cases h.stage with
    | waiting _ hzeroed hquiet hchannel =>
        refine .delivering i rfl (by rw [hzeroed]; rfl) (fun j hji hj => ?_) ?_ ?_
        · rw [phases_move_ne hji] at hj ⊢
          exact hquiet j hj
        · rw [phases_move_self, channel_move]
          exact congrArg some hchannel.symm
        · rw [sequential_concat, CompletionState.delivered_signal, ← h.remaining, if_pos hone]
    | delivering _ hzero => omega

/-- A call that is at the mutex is the one that took the counter to zero. -/
theorem Linear.channel_of_settled (h : Linear leafCount calls order zeroed s)
    (hp : s.phases i = p) (hi : p.settled = true) (hne : p ≠ .returned) :
    afterLast i (calls i).result p = some s.channel := by
  subst hp
  cases h.stage with
  | waiting _ _ hquiet _ => exact absurd (hquiet i hi) hne
  | delivering k _ _ hquiet hchannel _ =>
      by_cases hik : i = k
      · rwa [hik]
      · exact absurd (hquiet i hik hi) hne

/-- It goes on. -/
theorem Linear.advances (h : Linear leafCount calls order zeroed s)
    {q : Phase} (hq : s.phases i = q) (hi : q.settled = true) (hne : q ≠ .returned)
    (hp : p.settled = true) {u : State n V} (hremaining : u.remaining = s.remaining)
    (hphases : u.phases = s.phases)
    (hchannel : afterLast i (calls i).result p = some u.channel) :
    Linear leafCount calls order zeroed (u.move i p) := by
  subst hq
  have hmove : ∀ j ≠ i, (u.move i p).phases j = s.phases j := fun j hj => by
    rw [phases_move_ne hj, hphases]
  refine ⟨h.nodup, fun j => ?_, hremaining.trans h.remaining, fun j current hj => ?_, ?_⟩
  · by_cases hj : j = i
    · subst hj
      rw [phases_move_self, h.settled, hi, hp]
    · rw [hmove j hj, h.settled]
  · by_cases hji : j = i
    · subst hji
      rw [phases_move_self] at hj
      rw [hj] at hp
      cases hp
    · rw [hmove j hji] at hj
      exact hremaining.le.trans (h.read j current hj)
  · cases h.stage with
    | waiting _ _ hquiet _ => exact absurd (hquiet i hi) hne
    | delivering k hzero hzeroed hquiet _ hdelivered =>
        obtain rfl : i = k := by
          by_contra hik
          exact hne (hquiet i hik hi)
        refine .delivering i (hremaining.trans hzero) hzeroed (fun j hji hj => ?_) ?_ hdelivered
        · rw [hmove j hji] at hj ⊢
          exact hquiet j hji hj
        · rwa [phases_move_self]

/-! ## What a step does -/

/-- The steps of a call, by the place it is at. -/
inductive Steps (calls : Fin n → Call V) (s : State n V) : Act n → State n V → Prop
  | load (i : Fin n) (h : s.phases i = .called) :
      Steps calls s (.load i) (s.move i (.loop s.remaining))
  | pass (i : Fin n) (h : s.phases i = .loop 0) : Steps calls s (.exchange i) (s.move i .returned)
  | count (i : Fin n) (k : ℕ) (h : s.phases i = .loop (k + 2)) (hk : s.remaining = k + 2) :
      Steps calls s (.exchange i) ({ s with remaining := k + 1 }.move i .returned)
  | zero (i : Fin n) (h : s.phases i = .loop 1) (hk : s.remaining = 1) :
      Steps calls s (.exchange i) ({ s with remaining := 0 }.move i .last)
  | fail (i : Fin n) (k : ℕ) (h : s.phases i = .loop (k + 1)) (hk : s.remaining ≠ k + 1) :
      Steps calls s (.exchange i) (s.move i (.loop s.remaining))
  | spurious (i : Fin n) : Steps calls s (.spurious i) s
  | lock (i : Fin n) (h : s.phases i = .last) (hfree : s.holder = none) :
      Steps calls s (.lock i) ({ s with holder := some i }.move i .locked)
  | take (i : Fin n) (h : s.phases i = .locked) :
      Steps calls s (.take i)
        ({ s with sender := false }.move i (if s.sender then .sending else .unlocking))
  | send (i : Fin n) (h : s.phases i = .sending) :
      Steps calls s (.send i)
        ({ s with delivered := s.delivered ++ [(calls i).result] }.move i .unlocking)
  | unlock (i : Fin n) (h : s.phases i = .unlocking) :
      Steps calls s (.unlock i) ({ s with holder := none }.move i .returned)

theorem steps_of_step : step calls s a = some t → Steps calls s a t := by
  intro h
  cases a with
  | load i =>
      simp only [step] at h
      split at h
      · rename_i hi
        cases h
        exact .load i hi
      · cases h
  | exchange i =>
      simp only [step] at h
      split at h
      · rename_i hi
        cases h
        exact .pass i hi
      · rename_i k hi
        split at h
        · rename_i hk
          cases k with
          | zero =>
              cases h
              exact .zero i hi hk
          | succ k =>
              cases h
              exact .count i k hi hk
        · rename_i hk
          cases h
          exact .fail i k hi hk
      · cases h
  | spurious i =>
      simp only [step] at h
      split at h
      · split at h
        · cases h
          exact .spurious i
        · cases h
      · cases h
  | lock i =>
      simp only [step] at h
      split at h
      · rename_i hi hfree
        cases h
        exact .lock i hi hfree
      · cases h
  | take i =>
      simp only [step] at h
      split at h
      · rename_i hi
        cases h
        exact .take i hi
      · cases h
  | send i =>
      simp only [step] at h
      split at h
      · rename_i hi
        cases h
        exact .send i hi
      · cases h
  | unlock i =>
      simp only [step] at h
      split at h
      · rename_i hi
        cases h
        exact .unlock i hi
      · cases h

theorem zeroes_of_step (h : step calls s a = some t) :
    (zeroes calls s a).toList = if 0 < s.remaining ∧ t.remaining = 0 then [a.call] else [] := by
  simp only [zeroes, h, Option.any_some, decide_eq_true_eq]
  split
  · rfl
  · rfl

/-- A step either leaves the order of the calls as it is or adds its call to it. -/
theorem Linear.step (h : Linear leafCount calls order zeroed s)
    (hs : step calls s a = some t) :
    ∃ order', Linear leafCount calls order' (zeroed ++ (Signals.zeroes calls s a).toList) t := by
  have hzeroes := zeroes_of_step hs
  have hkeep : t.remaining = s.remaining → (Signals.zeroes calls s a).toList = [] := by
    intro hr
    rw [hzeroes, if_neg]
    omega
  cases steps_of_step hs with
  | load i hi =>
      rw [hkeep rfl, List.append_nil]
      exact ⟨order, h.reads (by rw [hi]; rfl)⟩
  | pass i hi =>
      rw [hkeep rfl, List.append_nil]
      exact ⟨_, h.passes hi⟩
  | count i k hi hk =>
      rw [hzeroes, if_neg (fun hr => absurd hr.2 (Nat.succ_ne_zero k)), List.append_nil]
      exact ⟨_, h.counts hi hk⟩
  | zero i hi hk =>
      rw [hzeroes, if_pos ⟨by omega, rfl⟩]
      exact ⟨_, h.zeroes hi hk⟩
  | fail i k hi hk =>
      rw [hkeep rfl, List.append_nil]
      exact ⟨order, h.reads (by rw [hi]; rfl)⟩
  | spurious i =>
      rw [hkeep rfl, List.append_nil]
      exact ⟨order, h⟩
  | lock i hi hfree =>
      rw [hkeep rfl, List.append_nil]
      have hchannel := h.channel_of_settled hi rfl (by decide)
      simp only [afterLast, State.channel, Option.some.injEq, Prod.mk.injEq] at hchannel
      refine ⟨order, h.advances hi rfl (by decide) rfl rfl rfl ?_⟩
      simp only [afterLast, State.channel, ← hchannel.1, ← hchannel.2.2]
  | take i hi =>
      rw [hkeep rfl, List.append_nil]
      have hchannel := h.channel_of_settled hi rfl (by decide)
      simp only [afterLast, State.channel, Option.some.injEq, Prod.mk.injEq] at hchannel
      rw [← hchannel.1, if_pos rfl]
      refine ⟨order, h.advances hi rfl (by decide) rfl rfl rfl ?_⟩
      simp only [afterLast, State.channel, ← hchannel.2.1, ← hchannel.2.2]
  | send i hi =>
      rw [hkeep rfl, List.append_nil]
      have hchannel := h.channel_of_settled hi rfl (by decide)
      simp only [afterLast, State.channel, Option.some.injEq, Prod.mk.injEq] at hchannel
      refine ⟨order, h.advances hi rfl (by decide) rfl rfl rfl ?_⟩
      simp only [afterLast, State.channel, ← hchannel.1, ← hchannel.2.1, ← hchannel.2.2,
        List.nil_append]
  | unlock i hi =>
      rw [hkeep rfl, List.append_nil]
      have hchannel := h.channel_of_settled hi rfl (by decide)
      simp only [afterLast, State.channel, Option.some.injEq, Prod.mk.injEq] at hchannel
      refine ⟨order, h.advances hi rfl (by decide) rfl rfl rfl ?_⟩
      simp only [afterLast, State.channel, ← hchannel.1, ← hchannel.2.2]

theorem linear_of_reachable
    (h : ((signalling leafCount calls).logged (zeroes calls)).Reachable (s, zeroed)) :
    ∃ order, Linear leafCount calls order zeroed s := by
  refine h.invariant (I := fun p => ∃ order, Linear leafCount calls order p.2 p.1) ?_ ?_
  · rintro ⟨s, zeroed⟩ ⟨hs, hzeroed⟩
    obtain rfl : s = .new n leafCount := hs
    obtain rfl : zeroed = [] := hzeroed
    exact ⟨[], linear_new⟩
  · rintro ⟨s, zeroed⟩ a ⟨t, zeroed'⟩ ⟨order, hlinear⟩ _ hs
    obtain ⟨hstep, rfl⟩ := Machine.logged_step hs
    exact hlinear.step hstep

/-! ## The calls return -/

/-- The steps a call may still take; one more if it will have to read the counter again. -/
def Phase.cost (remaining : ℕ) : Phase → ℕ
  | .called => 7
  | .loop current => if current = remaining then 5 else 6
  | .last => 4
  | .locked => 3
  | .sending => 2
  | .unlocking => 1
  | .returned => 0

/-- Every exchange that succeeds makes the others read again. -/
def State.work (s : State n V) : ℕ :=
  s.remaining * n + ∑ i, (s.phases i).cost s.remaining

theorem cost_le (r r' : ℕ) (p : Phase) : p.cost r' ≤ p.cost r + 1 := by
  cases p with
  | loop current =>
      simp only [Phase.cost]
      split
      · split
        · omega
        · omega
      · split
        · omega
        · omega
  | _ => exact Nat.le_succ _

theorem sum_move (r : ℕ) : ∑ j, ((s.move i p).phases j).cost r =
    p.cost r + ∑ j ∈ Finset.univ.erase i, (s.phases j).cost r := by
  rw [← Finset.add_sum_erase Finset.univ _ (Finset.mem_univ i), phases_move_self]
  congr 1
  refine Finset.sum_congr rfl fun j hj => ?_
  rw [phases_move_ne (Finset.ne_of_mem_erase hj)]

/-- A call goes on and leaves the counter as it is. -/
theorem work_move {u : State n V} (hremaining : u.remaining = s.remaining)
    (hphases : u.phases = s.phases) (hcost : p.cost s.remaining < (s.phases i).cost s.remaining) :
    (u.move i p).work < s.work := by
  have hsum := Finset.add_sum_erase Finset.univ (fun j => (s.phases j).cost s.remaining)
    (Finset.mem_univ i)
  have hmove := sum_move (s := u) (i := i) (p := p) s.remaining
  rw [hphases] at hmove
  simp only [State.work, remaining_move, hremaining]
  omega

/-- A call takes one off the counter. -/
theorem work_count {k : ℕ} (hi : s.phases i = .loop (k + 1)) (hk : s.remaining = k + 1)
    (hp : p.cost k ≤ 4) : ({ s with remaining := k }.move i p).work < s.work := by
  have hsum := Finset.add_sum_erase Finset.univ (fun j => (s.phases j).cost (k + 1))
    (Finset.mem_univ i)
  have hmove : ∑ j, (({ s with remaining := k }.move i p).phases j).cost k =
      p.cost k + ∑ j ∈ Finset.univ.erase i, (s.phases j).cost k := sum_move k
  have hothers : ∑ j ∈ Finset.univ.erase i, (s.phases j).cost k ≤
      ∑ j ∈ Finset.univ.erase i, ((s.phases j).cost (k + 1) + 1) :=
    Finset.sum_le_sum fun j _ => cost_le _ _ _
  have hcard : (Finset.univ.erase i).card + 1 = n := by
    rw [Finset.card_erase_add_one (Finset.mem_univ i), Finset.card_univ, Fintype.card_fin]
  rw [Finset.sum_add_distrib, Finset.sum_const, smul_eq_mul, mul_one] at hothers
  have hcost : (s.phases i).cost (k + 1) = 5 := by
    rw [hi, Phase.cost, if_pos rfl]
  have hmul : (k + 1) * n = k * n + n := Nat.succ_mul k n
  simp only [State.work, remaining_move, hk]
  omega

theorem work_step (hs : step calls s a = some t) :
    t.work + (if a.isSpurious then 0 else 1) ≤ s.work := by
  cases steps_of_step hs with
  | load i hi =>
      refine work_move rfl rfl ?_
      rw [hi, Phase.cost, Phase.cost, if_pos rfl]
      decide
  | pass i hi =>
      refine work_move rfl rfl ?_
      rw [hi]
      simp only [Phase.cost]
      split
      · decide
      · decide
  | count i k hi hk => exact work_count hi hk (Nat.zero_le 4)
  | zero i hi hk => exact work_count hi hk (Nat.le_refl 4)
  | fail i k hi hk =>
      refine work_move rfl rfl ?_
      rw [hi]
      simp only [Phase.cost, if_true, if_neg (Ne.symm hk)]
      decide
  | spurious i => exact Nat.le_refl _
  | lock i hi hfree => exact work_move rfl rfl (by rw [hi]; exact Nat.lt_succ_self _)
  | take i hi =>
      refine work_move rfl rfl ?_
      rw [hi]
      cases s.sender with
      | true => exact Nat.lt_succ_self 2
      | false => exact Nat.lt_of_succ_lt (Nat.lt_succ_self 2)
  | send i hi => exact work_move rfl rfl (by rw [hi]; exact Nat.lt_succ_self _)
  | unlock i hi => exact work_move rfl rfl (by rw [hi]; exact Nat.lt_succ_self _)

theorem work_run {acts : List (Act n)} (h : (signalling leafCount calls).Run s acts t) :
    t.work + acts.countP (!·.isSpurious) ≤ s.work := by
  induction h with
  | nil => exact Nat.le_refl _
  | @snoc acts t u a hr _ hs ih =>
      have hstep := work_step (show step calls t a = some u from hs)
      rw [List.countP_append, List.countP_singleton]
      cases ha : a.isSpurious with
      | true =>
          rw [ha, if_pos rfl] at hstep
          simp only [Bool.not_true, Bool.false_eq_true, if_false]
          omega
      | false =>
          rw [ha, if_neg Bool.false_ne_true] at hstep
          simp only [Bool.not_false, if_true]
          omega

/-- A call that has not returned can go on, except when the mutex is held; and it is not. -/
theorem Linear.exists_step (h : Linear leafCount calls order zeroed s)
    (hi : s.phases i ≠ .returned) :
    ∃ a t, a.isSpurious = false ∧ Signals.step calls s a = some t := by
  cases hp : s.phases i with
  | called => exact ⟨.load i, _, rfl, by simp only [Signals.step, hp]; rfl⟩
  | loop current =>
      cases current with
      | zero => exact ⟨.exchange i, _, rfl, by simp only [Signals.step, hp]; rfl⟩
      | succ k =>
          by_cases hk : s.remaining = k + 1
          · exact ⟨.exchange i, _, rfl, by simp only [Signals.step, hp, if_pos hk]; rfl⟩
          · exact ⟨.exchange i, _, rfl, by simp only [Signals.step, hp, if_neg hk]; rfl⟩
  | last =>
      have hchannel := h.channel_of_settled hp rfl (by decide)
      simp only [afterLast, State.channel, Option.some.injEq, Prod.mk.injEq] at hchannel
      exact ⟨.lock i, _, rfl, by simp only [Signals.step, hp, ← hchannel.2.1]; rfl⟩
  | locked => exact ⟨.take i, _, rfl, by simp only [Signals.step, hp]; rfl⟩
  | sending => exact ⟨.send i, _, rfl, by simp only [Signals.step, hp]; rfl⟩
  | unlocking => exact ⟨.unlock i, _, rfl, by simp only [Signals.step, hp]; rfl⟩
  | returned => exact absurd hp hi

theorem Linear.run (h : Linear leafCount calls order zeroed s) {acts : List (Act n)}
    (hr : (signalling leafCount calls).Run s acts t) :
    ∃ order zeroed, Linear leafCount calls order zeroed t := by
  refine hr.invariant (I := fun s => ∃ order zeroed, Linear leafCount calls order zeroed s)
    ⟨order, zeroed, h⟩ ?_
  rintro s a t ⟨order, zeroed, h⟩ _ hs
  obtain ⟨order', h'⟩ := h.step (show Signals.step calls s a = some t from hs)
  exact ⟨order', _, h'⟩

theorem Linear.returns (h : Linear leafCount calls order zeroed s) :
    Returns leafCount calls s := by
  constructor
  · refine ⟨s.work, fun acts t hr => ?_⟩
    have := work_run hr
    omega
  · rintro acts t hr ⟨i, hi⟩
    obtain ⟨order', zeroed', h'⟩ := h.run hr
    exact h'.exists_step hi

/-! ## What is delivered -/

/-- When all calls have returned, the completion state is as they would have left it one
after the other, in some order. -/
theorem signals_linearize
    (h : ((signalling leafCount calls).logged (zeroes calls)).Reachable (s, zeroed))
    (hreturned : ∀ i, s.phases i = .returned) :
    ∃ order : List (Fin n), order.Perm (List.finRange n) ∧
      s.remaining = (sequential leafCount calls order).remaining ∧
      s.delivered = (sequential leafCount calls order).delivered.toList := by
  obtain ⟨order, h⟩ := linear_of_reachable h
  have hall : ∀ i, i ∈ order := by
    intro i
    rw [h.settled, hreturned i]
    rfl
  refine ⟨order, ?_, h.remaining, ?_⟩
  · rw [List.perm_ext_iff_of_nodup h.nodup (List.nodup_finRange n)]
    exact fun i => iff_of_true (hall i) (List.mem_finRange i)
  · cases h.stage with
    | waiting hpos _ _ hchannel =>
        rw [h.remaining, ← CompletionState.delivered_eq_none_iff] at hpos
        rw [hpos]
        exact congrArg (·.2.2) hchannel
    | delivering i _ _ _ hchannel hdelivered =>
        rw [hreturned i] at hchannel
        rw [hdelivered]
        exact (congrArg (·.2.2) (Option.some.inj hchannel)).symm

theorem Linear.length_le (h : Linear leafCount calls order zeroed s) : order.length ≤ n := by
  have hcard := List.Nodup.length_le_card h.nodup
  rwa [Fintype.card_fin] at hcard

theorem Linear.delivered (h : Linear leafCount calls order zeroed s) :
    s.delivered = [] ∨ ∃ i, zeroed = [i] ∧ s.delivered = [(calls i).result] := by
  cases h.stage with
  | waiting _ _ _ hchannel => exact .inl (congrArg (·.2.2) hchannel)
  | delivering i _ hzeroed _ hchannel _ =>
      cases hp : s.phases i with
      | called => rw [hp] at hchannel; cases hchannel
      | loop current => rw [hp] at hchannel; cases hchannel
      | last | locked | sending =>
          rw [hp] at hchannel
          exact .inl (congrArg (·.2.2) (Option.some.inj hchannel)).symm
      | unlocking | returned =>
          rw [hp] at hchannel
          exact .inr ⟨i, hzeroed, (congrArg (·.2.2) (Option.some.inj hchannel)).symm⟩

/-- However the steps of the calls interleave: fewer calls than leaves expected deliver
nothing; as many or more deliver one result by the time they have returned, which they do;
and what is delivered is the result of the one call whose step took the counter to zero. -/
theorem delivered_exactly_once (leafCount : ℕ) (calls : Fin n → Call V) {s : State n V}
    {zeroed : List (Fin n)}
    (h : ((signalling leafCount calls).logged (zeroes calls)).Reachable (s, zeroed)) :
    (n < max 1 leafCount → s.delivered = []) ∧
      (max 1 leafCount ≤ n → (∀ i, s.phases i = .returned) →
        ∃ i, zeroed = [i] ∧ s.delivered = [(calls i).result]) ∧
      (s.delivered = [] ∨ ∃ i, zeroed = [i] ∧ s.delivered = [(calls i).result]) ∧
      Returns leafCount calls s := by
  obtain ⟨order, h⟩ := linear_of_reachable h
  have hremaining := h.remaining
  rw [remaining_sequential] at hremaining
  refine ⟨?_, ?_, h.delivered, h.returns⟩
  · intro hfew
    have hlength := h.length_le
    cases h.stage with
    | waiting _ _ _ hchannel => exact congrArg (·.2.2) hchannel
    | delivering _ hzero => omega
  · intro hmany hreturned
    cases h.stage with
    | waiting hpos =>
        -- all calls have taken effect, so the counter has been taken to zero
        have hsub : List.finRange n ⊆ order := by
          intro i _
          rw [h.settled, hreturned i]
          rfl
        have hlength := (List.nodup_finRange n).length_le_of_subset hsub
        rw [List.length_finRange] at hlength
        omega
    | delivering i _ hzeroed _ hchannel _ =>
        rw [hreturned i] at hchannel
        exact ⟨i, hzeroed, (congrArg (·.2.2) (Option.some.inj hchannel)).symm⟩

/-- Three calls for two leaves.  The first two read the counter together, so that the second
one's exchange fails and is tried again; the third finds the counter at zero. -/
theorem delivered_exactly_once_contended :
    let calls : Fin 3 → Call ℕ :=
      ![.signalCompletion (some 7), .signalCompletionWithError "late", .signalCompletion none]
    ∃ s zeroed, ((signalling 2 calls).logged (zeroes calls)).Reachable (s, zeroed) ∧
      (∀ i, s.phases i = .returned) ∧ ∃ i, zeroed = [i] ∧ s.delivered = [(calls i).result] := by
  intro calls
  have hrun : (((signalling 2 calls).logged (zeroes calls)).exec (fun _ _ => True)
      (.new 3 2, [])
      [.load 0, .load 1, .exchange 0, .exchange 1, .spurious 1, .exchange 1, .lock 1, .load 2,
        .exchange 2, .take 1, .send 1, .unlock 1]).any
      (fun p => decide (∀ i, p.1.phases i = .returned)) = true := by
    decide
  obtain ⟨⟨s, zeroed⟩, hr, hp⟩ := Machine.exists_of_exec hrun
  have hreachable : ((signalling 2 calls).logged (zeroes calls)).Reachable (s, zeroed) :=
    ⟨(.new 3 2, []), _, ⟨rfl, rfl⟩, hr⟩
  have hreturned : ∀ i, s.phases i = .returned := of_decide_eq_true hp
  exact ⟨s, zeroed, hreachable, hreturned,
    (delivered_exactly_once 2 calls hreachable).2.1 (by decide) hreturned⟩

end Flowgen.Flow.Signals
