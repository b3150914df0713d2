/-
# `Flowgen.Event` — the completion state of an event (`core/src/event.rs`)

A source that waits for end-to-end completion attaches a `CompletionState` to
its event: a counter of the leaves still expected to signal, and the one-shot
sender to the source.  Every copy and every derived event carries the same
handle.  The signal that brings the counter to zero delivers its result, and
later signals do nothing.

The counter, the sender and what the receiver got are not independent: the
sender is held exactly while the counter is positive, and something was
delivered exactly when it is gone.  Both are fields of the structure, so a
completion that lost its sender without delivering cannot be built.
-/
import Mathlib

namespace Flowgen

/-- What the one-shot channel to the source carries: the last leaf's payload,
or its error. -/
abbrev CompletionResult (V : Type) := Except String (Option V)

/-- `CompletionState`, together with what its receiver has been delivered. -/
structure CompletionState (V : Type) where
  remaining : Nat
  sender : Bool
  delivered : Option (CompletionResult V)
  sender_iff : sender = true ↔ 0 < remaining
  delivered_iff : delivered = none ↔ sender = true

namespace CompletionState

variable {V : Type}

/-- `CompletionState::new`: a leaf count of zero is treated as one. -/
def new (leafCount : Nat) : CompletionState V where
  remaining := max leafCount 1
  sender := true
  delivered := none
  sender_iff := by simp only [true_iff]; omega
  delivered_iff := by simp

/-- `last_leaf`: counts one leaf as done and says whether it was the last. -/
def lastLeaf (remaining : Nat) : Bool × Nat :=
  match remaining with
  | 0 => (false, 0)
  | n + 1 => (n + 1 == 1, n)

theorem lastLeaf_fst (n : Nat) : (lastLeaf n).1 = true ↔ n = 1 := by
  cases n <;> simp [lastLeaf]

@[simp] theorem lastLeaf_snd (n : Nat) : (lastLeaf n).2 = n - 1 := by
  cases n <;> rfl

/-- The common body of the two signals: after the last leaf the sender is
taken and used. -/
def signal (s : CompletionState V) (result : CompletionResult V) : CompletionState V :=
  if h : (lastLeaf s.remaining).1 then
    { remaining := (lastLeaf s.remaining).2
      sender := false
      delivered := if s.sender then some result else s.delivered
      sender_iff := by simp [(lastLeaf_fst _).mp h]
      delivered_iff := by simp [s.sender_iff, (lastLeaf_fst _).mp h] }
  else
    { s with
      remaining := (lastLeaf s.remaining).2
      sender_iff := by
        rw [lastLeaf_fst] at h
        rw [s.sender_iff, lastLeaf_snd]
        omega }

/-- `signal_completion`. -/
def signalCompletion (s : CompletionState V) (payload : Option V) : CompletionState V :=
  s.signal (.ok payload)

/-- `signal_completion_with_error`. -/
def signalCompletionWithError (s : CompletionState V) (error : String) : CompletionState V :=
  s.signal (.error error)

/-- A leaf count of at least one is kept as it is. -/
@[simp] theorem remaining_new (n : Nat) : (new n : CompletionState V).remaining = max n 1 := rfl

@[simp] theorem delivered_new (n : Nat) : (new n : CompletionState V).delivered = none := rfl

theorem delivered_eq_none_iff (s : CompletionState V) :
    s.delivered = none ↔ 0 < s.remaining :=
  s.delivered_iff.trans s.sender_iff

/-- The source has its answer exactly when no leaf is expected any more. -/
theorem delivered_isSome_iff (s : CompletionState V) :
    s.delivered.isSome ↔ s.remaining = 0 := by
  rw [Option.isSome_iff_ne_none, ne_eq, delivered_eq_none_iff]
  omega

/-! ## What one signal does -/

@[simp] theorem remaining_signal (s : CompletionState V) (r : CompletionResult V) :
    (s.signal r).remaining = s.remaining - 1 := by
  rw [signal]
  split <;> exact lastLeaf_snd _

/-- The last expected signal delivers its result; every other one leaves the
receiver as it is. -/
theorem delivered_signal (s : CompletionState V) (r : CompletionResult V) :
    (s.signal r).delivered = if s.remaining = 1 then some r else s.delivered := by
  rw [signal]
  by_cases h : s.remaining = 1
  · have hs : s.sender = true := s.sender_iff.mpr (by omega)
    rw [dif_pos ((lastLeaf_fst _).mpr h), if_pos h]
    exact if_pos hs
  · rw [dif_neg (mt (lastLeaf_fst _).mp h), if_neg h]

/-! ## What a sequence of signals does -/

/-- Several signals, in order. -/
def signals (s : CompletionState V) (rs : List (CompletionResult V)) : CompletionState V :=
  rs.foldl signal s

@[simp] theorem signals_nil (s : CompletionState V) : s.signals [] = s := rfl

@[simp] theorem signals_cons (s : CompletionState V) (r : CompletionResult V)
    (rs : List (CompletionResult V)) : s.signals (r :: rs) = (s.signal r).signals rs := rfl

@[simp] theorem remaining_signals (s : CompletionState V) (rs : List (CompletionResult V)) :
    (s.signals rs).remaining = s.remaining - rs.length := by
  induction rs generalizing s with
  | nil => simp
  | cons r rs ih =>
      rw [signals_cons, ih, remaining_signal, List.length_cons]
      omega

/-- Only what was signalled is delivered. -/
theorem delivered_signals_mem (s : CompletionState V) (rs : List (CompletionResult V))
    (r : CompletionResult V) (h : (s.signals rs).delivered = some r) :
    s.delivered = some r ∨ r ∈ rs := by
  induction rs generalizing s with
  | nil => exact Or.inl h
  | cons r' rs ih =>
      rcases ih _ h with hr | hr
      · rw [delivered_signal] at hr
        split at hr
        · exact Or.inr (by simp_all)
        · exact Or.inl hr
      · exact Or.inr (List.mem_cons_of_mem _ hr)

end CompletionState

end Flowgen
