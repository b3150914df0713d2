/-
# `Flowgen.Lib.Window` — a limit on each window of time

A `Window` counts how often it has been used since it started, and refuses what
would go over a limit.  The limit may be another one every time it is asked.  A
window begins with the first use after the one before is over, so the windows
do not follow each other without a gap, but they never overlap.

`Use` is one use as it is written down, with the window it fell in, and `Kept`
is what a log of uses, newest first, has been kept to: no window took more than
was the limit at its last use (`limited`), and windows are at least their width
apart.  `Logged.use` is the one step.
-/
import Mathlib

namespace Flowgen.Lib

structure Window where
  started : Option Nat := none
  used : Nat := 0

namespace Window

/-- The window is over after `width`; before the first use there is none. -/
def isOver (w : Window) (width now : Nat) : Bool := w.started.all fun started => width ≤ now - started

/-- The window that a use falls in. -/
def roll (w : Window) (width now : Nat) : Window := if w.isOver width now then ⟨some now, 0⟩ else w

structure Use where
  window : Nat
  start : Nat
  time : Nat
  limit : Nat
deriving DecidableEq

structure Kept (width : Nat) (log : List Use) : Prop where
  within : ∀ u ∈ log, u.start ≤ u.time ∧ (u.time = u.start ∨ u.time < u.start + width)
  spaced : ∀ u ∈ log, ∀ v ∈ log, u.window < v.window → u.start + width ≤ v.start
  limited : ∀ newer u older, log = newer ++ u :: older →
    (older.filter (·.window = u.window)).length < u.limit

/-- The window `w`, the `n`-th, is the last one of the log. -/
structure Logged (width now : Nat) (w : Window) (n : Nat) (log : List Use) : Prop where
  kept : Kept width log
  started : ∀ started, w.started = some started → started ≤ now
  latest : ∀ u ∈ log, u.window ≤ n
  current : ∀ u ∈ log, u.window = n → w.started = some u.start
  earlier : ∀ u ∈ log, u.window < n → ∃ started, w.started = some started ∧ u.start + width ≤ started
  used : (log.filter (·.window = n)).length = w.used

variable {width now now' limit n : Nat} {w : Window} {log : List Use}

theorem logged_empty : Logged width now {} n [] where
  kept :=
    { within := fun _ hu => by cases hu
      spaced := fun _ hu => by cases hu
      limited := fun newer _ _ h => by cases newer <;> cases h }
  started _ h := by cases h
  latest _ hu := by cases hu
  current _ hu := by cases hu
  earlier _ hu := by cases hu
  used := rfl

theorem Logged.later (h : Logged width now w n log) (hle : now ≤ now') :
    Logged width now' w n log :=
  { h with started := fun s hs => (h.started s hs).trans hle }

/-- Where the window is over, every use in the log fell in one that is over. -/
theorem Logged.of_over (h : Logged width now w n log) (hover : w.isOver width now = true) :
    ∀ u ∈ log, u.start + width ≤ now := by
  intro u hu
  have hpast : ∀ started, w.started = some started → started + width ≤ now := by
    intro started hs
    have hle := h.started started hs
    rw [isOver, hs, Option.all_some, decide_eq_true_iff] at hover
    omega
  rcases Nat.lt_or_eq_of_le (h.latest u hu) with hlt | heq
  · obtain ⟨started, hs, hle⟩ := h.earlier u hu hlt
    have hend := hpast started hs
    omega
  · exact hpast _ (h.current u hu heq)

theorem Kept.cons {u : Use} (h : Kept width log) (hwithin : u.start ≤ u.time)
    (hend : u.time = u.start ∨ u.time < u.start + width)
    (hearlier : ∀ v ∈ log, v.window < u.window → v.start + width ≤ u.start)
    (hlatest : ∀ v ∈ log, v.window ≤ u.window)
    (hlimit : (log.filter (·.window = u.window)).length < u.limit) : Kept width (u :: log) where
  within v hv := by
    rcases List.mem_cons.mp hv with rfl | hv
    · exact ⟨hwithin, hend⟩
    · exact h.within v hv
  spaced v hv v' hv' hlt := by
    rcases List.mem_cons.mp hv' with rfl | hnew
    · rcases List.mem_cons.mp hv with rfl | hold
      · exact absurd hlt (lt_irrefl _)
      · exact hearlier v hold hlt
    · rcases List.mem_cons.mp hv with rfl | hold
      · exact absurd hlt (hlatest v' hnew).not_gt
      · exact h.spaced v hold v' hnew hlt
  limited newer v older hlog := by
    cases newer with
    | nil =>
        obtain ⟨rfl, rfl⟩ := List.cons.inj hlog
        exact hlimit
    | cons v₀ newer => exact h.limited newer v older (List.cons.inj hlog).2

theorem Logged.filter_succ (h : Logged width now w n log) :
    log.filter (·.window = n + 1) = [] := by
  refine List.filter_eq_nil_iff.mpr fun u hu he => ?_
  have hle := h.latest u hu
  have heq := of_decide_eq_true he
  omega

/-- The use of a window that begins with it. -/
theorem Logged.first (h : Logged width now w n log) (hover : w.isOver width now = true)
    (hlimit : 0 < limit) :
    Logged width now ⟨some now, 1⟩ (n + 1) (⟨n + 1, now, now, limit⟩ :: log) where
  kept := by
    refine h.kept.cons le_rfl (.inl rfl) (fun v hv _ => h.of_over hover v hv)
      (fun v hv => (h.latest v hv).trans (Nat.le_succ n)) ?_
    simpa [h.filter_succ] using hlimit
  started s hs := (Option.some.inj hs).ge
  latest u hu := by
    rcases List.mem_cons.mp hu with rfl | hu
    · exact le_rfl
    · exact (h.latest u hu).trans (Nat.le_succ n)
  current u hu heq := by
    rcases List.mem_cons.mp hu with rfl | hu
    · rfl
    · have hle := h.latest u hu
      omega
  earlier u hu hlt := by
    rcases List.mem_cons.mp hu with rfl | hu
    · exact absurd hlt (lt_irrefl _)
    · exact ⟨now, rfl, h.of_over hover u hu⟩
  used := by simp [h.filter_succ]

/-- Another use of the window that is open. -/
theorem Logged.next {started : Nat} (h : Logged width now w n log)
    (hs : w.started = some started) (hover : w.isOver width now = false) (hlimit : w.used < limit) :
    Logged width now ⟨w.started, w.used + 1⟩ n (⟨n, started, now, limit⟩ :: log) where
  kept := by
    have hend : now < started + width := by
      have hlt : ¬ width ≤ now - started := by simpa [isOver, hs] using hover
      omega
    refine h.kept.cons (h.started started hs) (.inr hend) (fun v hv hlt => ?_) h.latest ?_
    · obtain ⟨s, hs', hle⟩ := h.earlier v hv hlt
      obtain rfl := Option.some.inj (hs.symm.trans hs')
      exact hle
    · rw [h.used]
      exact hlimit
  started := h.started
  latest u hu := by
    rcases List.mem_cons.mp hu with rfl | hu
    · exact le_rfl
    · exact h.latest u hu
  current u hu heq := by
    rcases List.mem_cons.mp hu with rfl | hu
    · exact hs
    · exact h.current u hu heq
  earlier u hu hlt := by
    rcases List.mem_cons.mp hu with rfl | hu
    · exact absurd hlt (lt_irrefl _)
    · exact h.earlier u hu hlt
  used := by simp [h.used]

/-- What is used within the limit is written down with its window. -/
theorem Logged.use (h : Logged width now w n log) (hlimit : (w.roll width now).used < limit) :
    ∃ start, (w.roll width now).started = some start ∧
      Logged width now ⟨(w.roll width now).started, (w.roll width now).used + 1⟩
        (if w.isOver width now then n + 1 else n)
        (⟨if w.isOver width now then n + 1 else n, start, now, limit⟩ :: log) := by
  cases hover : w.isOver width now with
  | true =>
      rw [roll, if_pos hover] at hlimit ⊢
      exact ⟨now, rfl, h.first hover hlimit⟩
  | false =>
      rw [roll, hover, if_neg Bool.false_ne_true] at hlimit ⊢
      obtain ⟨started, hs⟩ : ∃ started, w.started = some started := by
        cases hs : w.started with
        | none => simp [isOver, hs] at hover
        | some started => exact ⟨started, rfl⟩
      exact ⟨started, hs, h.next hs hover hlimit⟩

end Window

end Flowgen.Lib
