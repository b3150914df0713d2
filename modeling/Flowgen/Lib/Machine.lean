/-
# `Flowgen.Lib.Machine` — machines with labelled steps, their runs and invariants

Every concurrent component of this development is a `Machine`: a set of
starting states and a step function that takes the action as an argument.
All nondeterminism (which party moves, what the environment answers, when
time passes) sits in the choice of the actions, so a run is determined by
its list of actions and can be computed with `exec`.

A theorem about a component is a theorem about every run.  Where it needs
the steps to meet a condition, the runs are those of `RunOf ok`: each step
is taken from a state and with an action for which `ok` holds.
-/
import Mathlib

namespace Flowgen.Lib

/-- A machine: where it may start, and what an action does in a state (`none`
where the action is not enabled). -/
structure Machine (σ : Type*) (α : Type*) where
  init : σ → Prop
  step : σ → α → Option σ

namespace Machine

variable {σ α : Type*} (M : Machine σ α)

/-- `RunOf M ok s as t`: the actions `as` lead from `s` to `t`, and each of
them is taken where `ok` allows it. -/
inductive RunOf (ok : σ → α → Prop) (s : σ) : List α → σ → Prop
  | nil : RunOf ok s [] s
  | snoc {as : List α} {t u : σ} {a : α} : RunOf ok s as t → ok t a →
      M.step t a = some u → RunOf ok s (as ++ [a]) u

/-- A run with no condition on its steps. -/
abbrev Run (s : σ) (as : List α) (t : σ) : Prop := M.RunOf (fun _ _ => True) s as t

/-- The states reached from a starting state by steps that meet `ok`. -/
def ReachableBy (ok : σ → α → Prop) (t : σ) : Prop :=
  ∃ s as, M.init s ∧ M.RunOf ok s as t

/-- The states some run reaches. -/
abbrev Reachable (t : σ) : Prop := M.ReachableBy (fun _ _ => True) t

/-- `t` is reached from `s` by some run. -/
def Leads (s t : σ) : Prop := ∃ as, M.Run s as t

variable {M} {ok ok' : σ → α → Prop} {s t u : σ} {as bs : List α} {a : α}

theorem RunOf.mono (h : M.RunOf ok s as t) (hok : ∀ s a, ok s a → ok' s a) :
    M.RunOf ok' s as t := by
  induction h with
  | nil => exact .nil
  | snoc _ ha hs ih => exact .snoc ih (hok _ _ ha) hs

theorem RunOf.run (h : M.RunOf ok s as t) : M.Run s as t :=
  h.mono fun _ _ _ => trivial

theorem RunOf.single (ha : ok s a) (h : M.step s a = some t) : M.RunOf ok s [a] t :=
  .snoc .nil ha h

theorem RunOf.trans (h₁ : M.RunOf ok s as t) (h₂ : M.RunOf ok t bs u) :
    M.RunOf ok s (as ++ bs) u := by
  induction h₂ with
  | nil => simpa using h₁
  | snoc _ ha hs ih =>
      rw [← List.append_assoc]
      exact .snoc ih ha hs

/-! ## The invariant rule -/

/-- What holds at the start of a run and is kept by each of its steps holds
at its end. -/
theorem RunOf.invariant {I : σ → Prop} (h : M.RunOf ok s as t) (h0 : I s)
    (hstep : ∀ s a t, I s → ok s a → M.step s a = some t → I t) : I t := by
  induction h with
  | nil => exact h0
  | snoc _ ha hs ih => exact hstep _ _ _ ih ha hs

/-- What holds in every starting state and is kept by each allowed step holds
in every reachable state. -/
theorem ReachableBy.invariant {I : σ → Prop} (h : M.ReachableBy ok t)
    (h0 : ∀ s, M.init s → I s)
    (hstep : ∀ s a t, I s → ok s a → M.step s a = some t → I t) : I t := by
  obtain ⟨s, as, hs, hr⟩ := h
  exact hr.invariant (h0 s hs) hstep

/-- A property that a step keeps exactly when the step meets `ok'` holds at the
end of a run exactly when all steps of the run meet `ok'`. -/
theorem RunOf.iff_steps {I P : σ → Prop} (h : M.RunOf ok s as t) (hI : I s) (hP : P s)
    (hkeep : ∀ s a t, I s → M.step s a = some t → I t)
    (hstep : ∀ s a t, I s → M.step s a = some t → (P t ↔ P s ∧ ok' s a)) :
    P t ↔ M.RunOf ok' s as t := by
  constructor
  · intro hPt
    induction h with
    | nil => exact .nil
    | @snoc as t u a hr _ hs ih =>
        have ht : I t := hr.invariant hI fun s a t hi _ => hkeep s a t hi
        obtain ⟨hPt', ha⟩ := (hstep t a u ht hs).mp hPt
        exact .snoc (ih hPt') ha hs
  · intro hr
    refine (hr.invariant (I := fun s => I s ∧ P s) ⟨hI, hP⟩ ?_).2
    intro s a t hi ha hs
    exact ⟨hkeep s a t hi.1 hs, (hstep s a t hi.1 hs).mpr ⟨hi.2, ha⟩⟩

variable (M) in
/-- A run after whose every step `P` holds. -/
abbrev RunThrough (P : σ → Prop) (s : σ) (as : List α) (t : σ) : Prop :=
  M.RunOf (fun s a => ∀ t, M.step s a = some t → P t) s as t

/-- If an allowed step always leads to `P`, and no other one does, the runs
through `P` are those whose steps are allowed.  The invariant may be one of
the allowed steps only. -/
theorem runThrough_iff {I P : σ → Prop} (hI : I s)
    (hkeep : ∀ s a t, I s → ok s a → M.step s a = some t → I t ∧ P t)
    (hbreak : ∀ s a t, I s → M.step s a = some t → P t → ok s a) :
    M.RunThrough P s as t ↔ M.RunOf ok s as t := by
  have hstay : ∀ {as t}, M.RunOf ok s as t → I t := fun hr =>
    hr.invariant hI fun s a t hi ha hs => (hkeep s a t hi ha hs).1
  constructor
  · intro hr
    induction hr with
    | nil => exact .nil
    | snoc _ hP hs ih => exact .snoc ih (hbreak _ _ _ (hstay ih) hs (hP _ hs)) hs
  · intro hr
    induction hr with
    | nil => exact .nil
    | snoc hr ha hs ih => exact .snoc ih (fun t ht => (hkeep _ _ t (hstay hr) ha ht).2) hs

/-! ## What the steps give out -/

/-- The machine with a record of what its steps give out. -/
def logged {ω : Type*} (M : Machine σ α) (out : σ → α → Option ω) : Machine (σ × List ω) α where
  init p := M.init p.1 ∧ p.2 = []
  step p a := (M.step p.1 a).map fun t => (t, p.2 ++ (out p.1 a).toList)

theorem logged_step {ω : Type*} {out : σ → α → Option ω} {p q : σ × List ω}
    (h : (M.logged out).step p a = some q) :
    M.step p.1 a = some q.1 ∧ q.2 = p.2 ++ (out p.1 a).toList := by
  obtain ⟨t, ht, rfl⟩ := Option.map_eq_some_iff.mp h
  exact ⟨ht, rfl⟩

/-! ## Executing a list of actions -/

/-- The state a list of actions leads to, if all of them are enabled and
allowed. -/
def exec (M : Machine σ α) (ok : σ → α → Prop) [∀ s a, Decidable (ok s a)] :
    σ → List α → Option σ
  | s, [] => some s
  | s, a :: as => if ok s a then (M.step s a).bind fun t => exec M ok t as else none

section Exec

variable [∀ s a, Decidable (ok s a)]

theorem run_of_exec : ∀ {as : List α} {s t : σ}, M.exec ok s as = some t → M.RunOf ok s as t
  | [], s, t, h => by
      have : s = t := by simpa [exec] using h
      exact this ▸ .nil
  | a :: as, s, t, h => by
      rw [exec] at h
      split at h
      · rename_i ha
        obtain ⟨u, hu, ht⟩ := Option.bind_eq_some_iff.mp h
        exact (RunOf.single ha hu).trans (run_of_exec ht)
      · cases h

/-- A run to a state with a property, found by executing its actions. -/
theorem exists_of_exec {p : σ → Bool} (h : (M.exec ok s as).any p = true) :
    ∃ t, M.RunOf ok s as t ∧ p t = true := by
  obtain ⟨t, ht, hp⟩ := (Option.any_eq_true p _).mp h
  exact ⟨t, run_of_exec ht, hp⟩

end Exec

/-! ## Runs that end -/

/-- If from every state that satisfies `I` and is not final some allowed step
keeps `I` and lowers `μ`, then a final state can be reached. -/
theorem exists_run_to_final (I final : σ → Prop) (μ : σ → Nat)
    (hstep : ∀ s, I s → ¬ final s →
      ∃ a t, ok s a ∧ M.step s a = some t ∧ I t ∧ μ t < μ s) :
    ∀ s, I s → ∃ as t, M.RunOf ok s as t ∧ I t ∧ final t := by
  intro s
  induction hn : μ s using Nat.strongRecOn generalizing s with
  | ind n ih =>
      intro hI
      by_cases hf : final s
      · exact ⟨[], s, .nil, hI, hf⟩
      · obtain ⟨a, t, ha, hs, hIt, hlt⟩ := hstep s hI hf
        obtain ⟨as, u, hr, hIu, hfu⟩ := ih (μ t) (hn ▸ hlt) t rfl hIt
        exact ⟨a :: as, u, (RunOf.single ha hs).trans hr, hIu, hfu⟩

/-- Who stands in a queue is served, if `a` always serves the head of the queue
and, as long as that is somebody else, keeps `I`. -/
theorem exists_run_served {β : Type*} {I P : σ → Prop} {Q : σ → List β} {p : β}
    (hserve : ∀ s q rest, I s → Q s = q :: rest →
      ∃ t, ok s a ∧ M.step s a = some t ∧ Q t = rest ∧ (q = p → P t) ∧ (q ≠ p → I t)) :
    ∀ s, I s → p ∈ Q s → ∃ as t, M.RunOf ok s as t ∧ (∀ b ∈ as, b = a) ∧ P t := by
  intro s hI hp
  induction hq : Q s generalizing s with
  | nil =>
      rw [hq] at hp
      cases hp
  | cons q rest ih =>
      obtain ⟨t, ha, hs, hrest, hP, hkeep⟩ := hserve s q rest hI hq
      have hrun : M.RunOf ok s [a] t := .single ha hs
      by_cases hqp : q = p
      · exact ⟨[a], t, hrun, fun b hb => List.mem_singleton.mp hb, hP hqp⟩
      · have hp' : p ∈ Q t := by
          rw [hq] at hp
          rw [hrest]
          exact (List.mem_cons.mp hp).resolve_left (Ne.symm hqp)
        obtain ⟨as, u, hru, has, hu⟩ := ih t (hkeep hqp) hp' hrest
        refine ⟨a :: as, u, hrun.trans hru, ?_, hu⟩
        intro b hb
        rcases List.mem_cons.mp hb with rfl | hb
        · rfl
        · exact has b hb

end Machine

end Flowgen.Lib
