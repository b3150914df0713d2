/-
# `Flowgen.Web.SingleFlight` — one refresh for each refresh token
(`app/src/login.rs`)

Calls with one key share the cell of a flight.  A call reads the clock, and then, with the
lock held, drops all flights that began a window or more before its reading, and takes the
flight of its key, or begins one.  In the cell one call runs at a time; what it returns is
there for all that wait in it, and if it fails, the next one runs.  A call may be dropped
at any point.

A flight is dropped by its age alone, while calls may still run or wait in its cell, or
after one that began late in it.  Then the next call of the key runs on its own.  Where the
flight of a key is settled whenever another one is begun, the runs of a key never overlap,
and a call that begins while one is in progress, or within the window after its beginning,
gets what it returns (`single_flight`).
-/
import Flowgen.Lib.Machine
import Flowgen.Lib.Slots

namespace Flowgen.Web

open Flowgen.Lib

namespace SingleFlight

variable {K κ V : Type}

/-- Where a call is: it has read the clock; it waits for a cell, runs in it or has run in
it, with what it returned (`none` for an error); it got what another one returned; or it
has been dropped. -/
inductive Phase (V : Type)
  | called
  | waiting (cell : Nat)
  | running (cell since : Nat)
  | ran (cell since : Nat) (result : Option V)
  | shared (cell : Nat) (value : V)
  | dropped
deriving DecidableEq

/-- A call, with its reading of the clock.  It is owed what these calls return: at its
beginning they were running, or had returned within the window. -/
structure Call (K V : Type) where
  key : K
  now : Nat
  owed : List Nat
  phase : Phase V

structure Flight where
  started : Nat
  result : Nat
deriving DecidableEq

/-- The flights are kept by the digest of the key.  Of a cell, what it was set to. -/
structure State (K κ V : Type) where
  now : Nat
  flights : κ → Option Flight
  cells : List (Option V)
  calls : List (Call K V)

inductive Act (K V : Type)
  | tick (time : Nat)
  | call (key : K)
  | flight (idx : Nat)
  | run (idx : Nat)
  | finish (idx : Nat) (result : Option V)
  | share (idx : Nat)
  | drop (idx : Nat)

/-- Runs in a cell. -/
def Phase.runs (cell : Nat) : Phase V → Bool
  | .running c _ => c = cell
  | _ => false

/-- What a call that begins now is owed by another one. -/
def Phase.owes (window now : Nat) : Phase V → Bool
  | .running _ _ => true
  | .ran _ since (some _) => now - since < window
  | _ => false

section Step

variable [DecidableEq K] [DecidableEq κ] (window : Nat) (digest : K → κ)

def owed (s : State K κ V) (key : K) : List Nat :=
  (List.range s.calls.length).filter fun idx =>
    s.calls[idx]?.any fun call => call.key = key && call.phase.owes window s.now

/-- `retain`. -/
def retained (now : Nat) (flights : κ → Option Flight) : κ → Option Flight := fun digest =>
  (flights digest).filter fun flight => now - flight.started < window

def State.setPhase (s : State K κ V) (idx : Nat) (call : Call K V) (phase : Phase V) :
    State K κ V :=
  { s with calls := s.calls.set idx { call with phase := phase } }

def step (s : State K κ V) : Act K V → Option (State K κ V)
  | .tick time => some { s with now := s.now + time }
  | .call key => some { s with calls := s.calls ++ [⟨key, s.now, owed window s key, .called⟩] }
  | .flight idx => do
      let call ← s.calls[idx]?
      match call.phase with
      | .called =>
          let flights := retained window call.now s.flights
          match flights (digest call.key) with
          | some flight =>
              return { s.setPhase idx call (.waiting flight.result) with flights := flights }
          | none =>
              let flight : Flight := ⟨call.now, s.cells.length⟩
              return { s.setPhase idx call (.waiting flight.result) with
                flights := Function.update flights (digest call.key) (some flight)
                cells := s.cells ++ [none] }
      | _ => none
  | .run idx => do
      let call ← s.calls[idx]?
      match call.phase with
      | .waiting cell =>
          if s.cells[cell]?.any Option.isNone && s.calls.all fun call => !call.phase.runs cell then
            some (s.setPhase idx call (.running cell s.now))
          else none
      | _ => none
  | .finish idx result => do
      let call ← s.calls[idx]?
      match call.phase with
      | .running cell since =>
          let cells := match result with
            | some value => s.cells.set cell (some value)
            | none => s.cells
          return { s.setPhase idx call (.ran cell since result) with cells := cells }
      | _ => none
  | .share idx => do
      let call ← s.calls[idx]?
      match call.phase with
      | .waiting cell =>
          let value ← s.cells[cell]?.join
          return s.setPhase idx call (.shared cell value)
      | _ => none
  | .drop idx => do
      let call ← s.calls[idx]?
      match call.phase with
      | .called | .waiting _ | .running _ _ => return s.setPhase idx call .dropped
      | _ => none

def flying : Machine (State K κ V) (Act K V) where
  init s := (∀ d, s.flights d = none) ∧ s.cells = [] ∧ s.calls = []
  step := step window digest

/-! ## One flight at a time -/

/-- The runs of a key do not overlap; and what a call is owed that has returned is what the
call gets: it has not run on its own, and finds the value in its cell. -/
structure Single (s : State K κ V) : Prop where
  alone : ∀ (i j : Nat) (x y : Call K V) c c' t t', s.calls[i]? = some x → s.calls[j]? = some y →
    x.key = y.key → x.phase = .running c t → y.phase = .running c' t' → i = j
  gets : ∀ (i j : Nat) (x y : Call K V) c t v, s.calls[i]? = some x → s.calls[j]? = some y →
    i ∈ y.owed → x.phase = .ran c t (some v) →
    match y.phase with
    | .called | .dropped => True
    | .waiting c' => s.cells[c']? = some (some v)
    | .running _ _ | .ran _ _ _ => False
    | .shared _ v' => v' = v

/-- A call that may still run in a cell, or does. -/
def State.Open (s : State K κ V) (x : Call K V) (c : Nat) : Prop :=
  (∃ t, x.phase = .running c t) ∨ x.phase = .waiting c ∧ s.cells[c]? = some none

/-- A call that runs in a cell, or has returned a value. -/
def Live (x : Call K V) (c : Nat) : Prop :=
  ∃ t, x.phase = .running c t ∨ ∃ v, x.phase = .ran c t (some v)

/-- A call that has begun to run. -/
def Phase.begun : Phase V → Bool
  | .running _ _ | .ran _ _ _ | .dropped => true
  | .called | .waiting _ | .shared _ _ => false

/-- A call that is owed the value of a cell has not run, and has come to no other cell. -/
def Phase.Awaits (c : Nat) : Phase V → Prop
  | .called | .dropped => True
  | .waiting c' => c' = c
  | .running _ _ | .ran _ _ _ => False
  | .shared c' _ => c' = c

/-- What a call knows of its cell. -/
def Phase.Knows (cells : List (Option V)) : Phase V → Prop
  | .called | .dropped | .ran _ _ none => True
  | .waiting c => c < cells.length
  | .running c _ => cells[c]? = some none
  | .ran c _ (some v) => cells[c]? = some (some v)
  | .shared c v => cells[c]? = some (some v)

/-- Where a flight is begun, no call with its digest runs or waits to run, no run that
began within the window has returned a value, and no call that is on its way is owed a
value. -/
def Settled (s : State K κ V) : Act K V → Prop
  | .flight idx => ∀ x, s.calls[idx]? = some x →
      retained window x.now s.flights (digest x.key) = none →
      ∀ (i : Nat) (y : Call K V), s.calls[i]? = some y → digest y.key = digest x.key →
        (∀ c, ¬ s.Open y c) ∧
          (∀ c t v, y.phase = .ran c t (some v) → window ≤ s.now - t) ∧
          (y.phase = .called → ∀ j ∈ y.owed, ∀ z, s.calls[j]? = some z → ∀ c, ¬ Live z c)
  | _ => True

/-- What the calls know of their cells, and the flights of the calls. -/
structure Inv (s : State K κ V) : Prop where
  alone : ∀ (i j : Nat) (x y : Call K V) c t t', s.calls[i]? = some x → s.calls[j]? = some y →
    x.phase = .running c t → y.phase = .running c t' → i = j
  knows : ∀ (i : Nat) (x : Call K V), s.calls[i]? = some x → x.phase.Knows s.cells
  flight : ∀ d f, s.flights d = some f → f.result < s.cells.length
  together : ∀ (i j : Nat) (x y : Call K V) c c', s.calls[i]? = some x → s.calls[j]? = some y →
    digest x.key = digest y.key → s.Open x c → s.Open y c' → c = c'
  current : ∀ (i : Nat) (x : Call K V) c f, s.calls[i]? = some x →
    s.flights (digest x.key) = some f → s.Open x c → c = f.result
  recent : ∀ (i : Nat) (x : Call K V) c t v f, s.calls[i]? = some x →
    s.flights (digest x.key) = some f → x.phase = .ran c t (some v) → s.now - t < window →
    c = f.result
  begun : ∀ (i j : Nat) (y : Call K V), s.calls[j]? = some y → i ∈ y.owed →
    ∃ x, s.calls[i]? = some x ∧ x.key = y.key ∧ x.phase.begun
  called : ∀ (i j : Nat) (x y : Call K V) c f, s.calls[i]? = some x → s.calls[j]? = some y →
    i ∈ y.owed → y.phase = .called → Live x c → s.flights (digest y.key) = some f →
    c = f.result
  awaits : ∀ (i j : Nat) (x y : Call K V) c, s.calls[i]? = some x → s.calls[j]? = some y →
    i ∈ y.owed → Live x c → y.phase.Awaits c

/-- A call has not opened a cell, nor become live without having begun before. -/
structure Follows (s t : State K κ V) (x y : Call K V) : Prop where
  key : y.key = x.key
  owed : y.owed = x.owed
  begun : x.phase.begun → y.phase.begun
  opens : ∀ c, t.Open y c → s.Open x c
  live : ∀ c, Live y c → x.phase.begun → Live x c
  ran : ∀ c t v, y.phase = .ran c t (some v) → x.phase = .ran c t (some v) ∨ s.Open x c
  called : y.phase = .called → x.phase = .called
  awaits : ∀ c, x.phase.Awaits c → y.phase.Awaits c ∨
    ∀ (j : Nat) (z : Call K V), j ∈ x.owed → s.calls[j]? = some z → ¬ Live z c

/-- None of the calls has, and no flight was begun. -/
structure Fewer (s t : State K κ V) : Prop where
  now : s.now ≤ t.now
  flights : ∀ d f, t.flights d = some f → s.flights d = some f
  stays : ∀ i : Nat, s.calls[i]?.isSome → t.calls[i]?.isSome
  call : ∀ (i : Nat) (y : Call K V), t.calls[i]? = some y →
    ∃ x, s.calls[i]? = some x ∧ Follows s t x y

end Step

section Runs

variable {window : Nat} {digest : K → κ} {s t : State K κ V} {idx cell : Nat} {call : Call K V}
  {phase : Phase V}

theorem Inv.single (h : Inv window digest s) : Single s where
  alone i j x y c c' t t' hx hy hkey hrun hrun' := by
    have hc : c = c' := h.together i j x y c c' hx hy (by rw [hkey]) (Or.inl ⟨t, hrun⟩)
      (Or.inl ⟨t', hrun'⟩)
    subst hc
    exact h.alone i j x y c t t' hx hy hrun hrun'
  gets i j x y c t v hx hy howed hran := by
    have hawaits := h.awaits i j x y c hx hy howed ⟨t, Or.inr ⟨v, hran⟩⟩
    have hvalue := h.knows i x hx
    have hvalue' := h.knows j y hy
    rw [hran] at hvalue
    change s.cells[c]? = some (some v) at hvalue
    cases hphase : y.phase with
    | called | dropped => trivial
    | waiting c' =>
        rw [hphase] at hawaits
        cases hawaits
        exact hvalue
    | running c' t' | ran c' t' r =>
        rw [hphase] at hawaits
        exact hawaits
    | shared c' v' =>
        rw [hphase] at hawaits hvalue'
        cases hawaits
        change s.cells[c]? = some (some v') at hvalue'
        rw [hvalue] at hvalue'
        exact (Option.some.inj (Option.some.inj hvalue')).symm

/-- Where no call opens a cell, the invariant is kept. -/
theorem Inv.fewer (h : Inv window digest s) (hfewer : Fewer s t)
    (halone : ∀ (i j : Nat) (x y : Call K V) c t₁ t₂, t.calls[i]? = some x →
      t.calls[j]? = some y → x.phase = .running c t₁ → y.phase = .running c t₂ → i = j)
    (hknows : ∀ (i : Nat) (x : Call K V), t.calls[i]? = some x → x.phase.Knows t.cells)
    (hflight : ∀ d f, t.flights d = some f → f.result < t.cells.length) :
    Inv window digest t where
  alone := halone
  knows := hknows
  flight := hflight
  together i j x y c c' hx hy hdigest hopen hopen' := by
    obtain ⟨x₀, hx₀, hxx⟩ := hfewer.call i x hx
    obtain ⟨y₀, hy₀, hyy⟩ := hfewer.call j y hy
    exact h.together i j x₀ y₀ c c' hx₀ hy₀ (hxx.key ▸ hyy.key ▸ hdigest) (hxx.opens c hopen)
      (hyy.opens c' hopen')
  current i x c f hx hf hopen := by
    obtain ⟨x₀, hx₀, hxx⟩ := hfewer.call i x hx
    exact h.current i x₀ c f hx₀ (hxx.key ▸ hfewer.flights _ f hf) (hxx.opens c hopen)
  recent i x c since v f hx hf hran hwindow := by
    obtain ⟨x₀, hx₀, hxx⟩ := hfewer.call i x hx
    have hf₀ := hxx.key ▸ hfewer.flights _ f hf
    have hnow := hfewer.now
    rcases hxx.ran c since v hran with hran₀ | hopen
    · exact h.recent i x₀ c since v f hx₀ hf₀ hran₀ (by omega)
    · exact h.current i x₀ c f hx₀ hf₀ hopen
  begun i j y hy howed := by
    obtain ⟨y₀, hy₀, hyy⟩ := hfewer.call j y hy
    obtain ⟨x₀, hx₀, hkey₀, hbegun₀⟩ := h.begun i j y₀ hy₀ (hyy.owed ▸ howed)
    obtain ⟨x, hx⟩ := Option.isSome_iff_exists.mp (hfewer.stays i (Option.isSome_of_eq_some hx₀))
    obtain ⟨x₁, hx₁, hxx⟩ := hfewer.call i x hx
    cases hx₀.symm.trans hx₁
    exact ⟨x, hx, hxx.key.trans (hkey₀.trans hyy.key.symm), hxx.begun hbegun₀⟩
  called i j x y c f hx hy howed hcalled hlive hf := by
    obtain ⟨x₀, hx₀, hxx⟩ := hfewer.call i x hx
    obtain ⟨y₀, hy₀, hyy⟩ := hfewer.call j y hy
    obtain ⟨x₁, hx₁, -, hbegun⟩ := h.begun i j y₀ hy₀ (hyy.owed ▸ howed)
    cases hx₀.symm.trans hx₁
    exact h.called i j x₀ y₀ c f hx₀ hy₀ (hyy.owed ▸ howed) (hyy.called hcalled)
      (hxx.live c hlive hbegun) (hyy.key ▸ hfewer.flights _ f hf)
  awaits i j x y c hx hy howed hlive := by
    obtain ⟨x₀, hx₀, hxx⟩ := hfewer.call i x hx
    obtain ⟨y₀, hy₀, hyy⟩ := hfewer.call j y hy
    obtain ⟨x₁, hx₁, -, hbegun⟩ := h.begun i j y₀ hy₀ (hyy.owed ▸ howed)
    cases hx₀.symm.trans hx₁
    have hlive₀ := hxx.live c hlive hbegun
    have hbefore := h.awaits i j x₀ y₀ c hx₀ hy₀ (hyy.owed ▸ howed) hlive₀
    exact (hyy.awaits c hbefore).resolve_right fun hdead =>
      hdead i x₀ (hyy.owed ▸ howed) hx₀ hlive₀

theorem Follows.refl (h : ∀ c : Nat, t.cells[c]? = some none → s.cells[c]? = some none) :
    Follows s t call call where
  key := rfl
  owed := rfl
  begun := id
  opens c hopen := hopen.imp id fun ⟨hphase, hcell⟩ => ⟨hphase, h c hcell⟩
  live _ hlive _ := hlive
  ran _ _ _ hran := Or.inl hran
  called := id
  awaits _ hawaits := Or.inl hawaits

/-- What the calls are, after one of them has come to a phase. -/
theorem get_setPhase {i : Nat} {y : Call K V}
    (h : (s.setPhase idx call phase).calls[i]? = some y) :
    i = idx ∧ y = { call with phase := phase } ∨ i ≠ idx ∧ s.calls[i]? = some y :=
  get_set h

theorem inv_tick (n : Nat) (h : Inv window digest s) :
    Inv window digest { s with now := s.now + n } := by
  refine h.fewer ⟨Nat.le_add_right _ _, fun _ _ hf => hf, fun _ hi => hi, fun i y hy => ?_⟩ h.alone
    h.knows h.flight
  exact ⟨y, hy, Follows.refl fun _ hc => hc⟩

/-- Flights are dropped. -/
theorem inv_retain (now : Nat) (h : Inv window digest s) :
    Inv window digest { s with flights := retained window now s.flights } := by
  have hflights : ∀ d f, retained window now s.flights d = some f → s.flights d = some f :=
    fun d f hf => (Option.filter_eq_some_iff.mp hf).1
  refine h.fewer ⟨le_rfl, hflights, fun _ hi => hi, fun i y hy => ?_⟩ h.alone h.knows
    fun d f hf => h.flight d f (hflights d f hf)
  exact ⟨y, hy, Follows.refl fun _ hc => hc⟩

/-- A call comes to a phase in which it does not run. -/
theorem Inv.setPhase (h : Inv window digest s) (hcall : s.calls[idx]? = some call)
    (hfollows : Follows s (s.setPhase idx call phase) call { call with phase := phase })
    (hrunning : ∀ c t, phase = .running c t → ∀ (i : Nat) (x : Call K V) t', i ≠ idx →
      s.calls[i]? = some x → x.phase ≠ .running c t')
    (hknows : phase.Knows s.cells) : Inv window digest (s.setPhase idx call phase) := by
  refine h.fewer ⟨le_rfl, fun _ _ hf => hf, ?_, ?_⟩ ?_ ?_ h.flight
  · intro i hi
    simpa [State.setPhase] using hi
  · intro i y hy
    rcases get_setPhase hy with ⟨rfl, rfl⟩ | ⟨-, hy⟩
    · exact ⟨call, hcall, hfollows⟩
    · exact ⟨y, hy, Follows.refl fun _ hc => hc⟩
  · intro i j x y c t t' hx hy hrun hrun'
    rcases get_setPhase hx with ⟨hi, rfl⟩ | ⟨hi, hx⟩ <;>
      rcases get_setPhase hy with ⟨hj, rfl⟩ | ⟨hj, hy⟩
    · exact hi.trans hj.symm
    · exact absurd hrun' (hrunning c t hrun j y t' hj hy)
    · exact absurd hrun (hrunning c t' hrun' i x t hi hx)
    · exact h.alone i j x y c t t' hx hy hrun hrun'
  · intro i x hx
    rcases get_setPhase hx with ⟨rfl, rfl⟩ | ⟨-, hx⟩
    · exact hknows
    · exact h.knows i x hx

theorem inv_share {value : V} (h : Inv window digest s) (hcall : s.calls[idx]? = some call)
    (hphase : call.phase = .waiting cell) (hvalue : s.cells[cell]? = some (some value)) :
    Inv window digest (s.setPhase idx call (.shared cell value)) := by
  refine h.setPhase hcall ?_ nofun hvalue
  refine ⟨rfl, rfl, ?_, ?_, ?_, nofun, nofun, ?_⟩
  · rw [hphase]
    nofun
  · rintro c (⟨t, hrun⟩ | ⟨hwait, -⟩)
    · cases hrun
    · cases hwait
  · rintro c ⟨t, hrun | ⟨v, hrun⟩⟩ <;> cases hrun
  · intro c hawaits
    rw [hphase] at hawaits
    exact Or.inl hawaits

theorem inv_drop (h : Inv window digest s) (hcall : s.calls[idx]? = some call) :
    Inv window digest (s.setPhase idx call .dropped) := by
  refine h.setPhase hcall ?_ nofun trivial
  refine ⟨rfl, rfl, fun _ => rfl, ?_, ?_, nofun, nofun, fun _ _ => Or.inl trivial⟩
  · rintro c (⟨t, hrun⟩ | ⟨hwait, -⟩)
    · cases hrun
    · cases hwait
  · rintro c ⟨t, hrun | ⟨v, hrun⟩⟩ <;> cases hrun

/-- A call runs: what it was owed has come to nothing. -/
theorem inv_run (h : Inv window digest s) (hcall : s.calls[idx]? = some call)
    (hphase : call.phase = .waiting cell) (hempty : s.cells[cell]? = some none)
    (hfree : ∀ x ∈ s.calls, x.phase.runs cell = false) (now : Nat) :
    Inv window digest (s.setPhase idx call (.running cell now)) := by
  have hnone : ∀ (i : Nat) (x : Call K V) t, s.calls[i]? = some x → x.phase ≠ .running cell t := by
    intro i x t hx hrun
    have hruns := hfree x (List.mem_of_getElem? hx)
    rw [hrun] at hruns
    exact absurd hruns (by simp [Phase.runs])
  refine h.setPhase hcall ?_ ?_ hempty
  · refine ⟨rfl, rfl, ?_, ?_, ?_, nofun, nofun, ?_⟩
    · rw [hphase]
      nofun
    · rintro c (⟨t, hrun⟩ | ⟨hwait, -⟩)
      · cases hrun
        exact Or.inr ⟨hphase, hempty⟩
      · cases hwait
    · rw [hphase]
      nofun
    · intro c hawaits
      rw [hphase] at hawaits
      obtain rfl : cell = c := hawaits
      refine Or.inr fun j z _ hz hlive => ?_
      obtain ⟨t, hrun | ⟨v, hran⟩⟩ := hlive
      · exact hnone j z t hz hrun
      · have hknows := h.knows j z hz
        rw [hran] at hknows
        change s.cells[cell]? = some (some v) at hknows
        cases hempty.symm.trans hknows
  · intro c t hrun i x t' _ hx
    cases hrun
    exact hnone i x t' hx

/-- A run is over; if it has failed, nothing else is different. -/
theorem inv_failed {since : Nat} (h : Inv window digest s) (hcall : s.calls[idx]? = some call)
    (hphase : call.phase = .running cell since) :
    Inv window digest (s.setPhase idx call (.ran cell since none)) := by
  refine h.setPhase hcall ?_ nofun trivial
  refine ⟨rfl, rfl, fun _ => rfl, ?_, ?_, nofun, nofun, ?_⟩
  · rintro c (⟨t, hrun⟩ | ⟨hwait, -⟩)
    · cases hrun
    · cases hwait
  · rintro c ⟨t, hrun | ⟨v, hrun⟩⟩ <;> cases hrun
  · intro c hawaits
    rw [hphase] at hawaits
    exact Or.inl hawaits

/-- A value is set in a cell in which another call does not run. -/
theorem knows_set {value : V} {cells : List (Option V)} (h : phase.Knows cells)
    (hempty : cells[cell]? = some none) (hrunning : ∀ t, phase ≠ .running cell t) :
    phase.Knows (cells.set cell (some value)) := by
  have hother : ∀ {c : Nat} {r : Option V}, c ≠ cell → cells[c]? = some r →
      (cells.set cell (some value))[c]? = some r := by
    intro c r hc hr
    rw [List.getElem?_set_ne hc.symm]
    exact hr
  have hset : ∀ {c : Nat} {v : V}, cells[c]? = some (some v) →
      (cells.set cell (some value))[c]? = some (some v) := by
    intro c v hv
    refine hother ?_ hv
    rintro rfl
    cases hempty.symm.trans hv
  match phase with
  | .called | .dropped | .ran _ _ none => trivial
  | .waiting c =>
      change c < (cells.set cell (some value)).length
      rw [List.length_set]
      exact h
  | .running c t =>
      refine hother ?_ h
      rintro rfl
      exact hrunning t rfl
  | .ran c t (some v) => exact hset h
  | .shared c v => exact hset h

/-- A run returns a value, which is there for all that wait in its cell. -/
theorem inv_returned {since : Nat} {value : V} (h : Inv window digest s)
    (hcall : s.calls[idx]? = some call) (hphase : call.phase = .running cell since) :
    Inv window digest { s.setPhase idx call (.ran cell since (some value)) with
      cells := s.cells.set cell (some value) } := by
  have hempty : s.cells[cell]? = some none := by
    have hknows := h.knows idx call hcall
    rw [hphase] at hknows
    exact hknows
  have hopens : ∀ c : Nat, (s.cells.set cell (some value))[c]? = some none →
      s.cells[c]? = some none := by
    intro c hc
    rcases get_set hc with ⟨-, hnone⟩ | ⟨-, hc⟩
    · cases hnone
    · exact hc
  refine h.fewer ⟨le_rfl, fun _ _ hf => hf, ?_, ?_⟩ ?_ ?_ ?_
  · intro i hi
    simpa [State.setPhase] using hi
  · intro i y hy
    rcases get_setPhase hy with ⟨rfl, rfl⟩ | ⟨-, hy⟩
    · refine ⟨call, hcall, rfl, rfl, fun _ => rfl, ?_, ?_, ?_, nofun, ?_⟩
      · rintro c (⟨t, hrun⟩ | ⟨hwait, -⟩)
        · cases hrun
        · cases hwait
      · rintro c ⟨t, hrun | ⟨v, hran⟩⟩ _
        · cases hrun
        · cases hran
          exact ⟨since, Or.inl hphase⟩
      · intro c t v hran
        cases hran
        exact Or.inr (Or.inl ⟨since, hphase⟩)
      · intro c hawaits
        rw [hphase] at hawaits
        exact Or.inl hawaits
    · exact ⟨y, hy, Follows.refl hopens⟩
  · intro i j x y c t t' hx hy hrun hrun'
    rcases get_setPhase hx with ⟨hi, rfl⟩ | ⟨hi, hx⟩
    · cases hrun
    · rcases get_setPhase hy with ⟨hj, rfl⟩ | ⟨hj, hy⟩
      · cases hrun'
      · exact h.alone i j x y c t t' hx hy hrun hrun'
  · intro i x hx
    rcases get_setPhase hx with ⟨rfl, rfl⟩ | ⟨hi, hx⟩
    · change (s.cells.set cell (some value))[cell]? = some (some value)
      rw [List.getElem?_set_self', hempty]
      rfl
    · refine knows_set (h.knows i x hx) hempty fun t hrun => ?_
      exact hi (h.alone i idx x call cell t since hx hcall hrun hphase)
  · intro d f hf
    dsimp only
    rw [List.length_set]
    exact h.flight d f hf

theorem opens_waiting {c : Nat} (h : s.Open { call with phase := .waiting cell } c) : c = cell := by
  rcases h with ⟨t, hrun⟩ | ⟨hwait, -⟩
  · cases hrun
  · cases hwait
    rfl

theorem not_live_waiting {c : Nat} :
    ¬ Live ({ call with phase := .waiting cell } : Call K V) c := by
  rintro ⟨t, hrun | ⟨v, hran⟩⟩
  · cases hrun
  · cases hran

/-- Nothing is owed of a call that has not begun. -/
theorem begun_setPhase (h : Inv window digest s) (hcall : s.calls[idx]? = some call)
    (hbegun : call.phase.begun = false) (i j : Nat) (y : Call K V)
    (hy : (s.setPhase idx call phase).calls[j]? = some y) (howed : i ∈ y.owed) :
    ∃ x, (s.setPhase idx call phase).calls[i]? = some x ∧ x.key = y.key ∧ x.phase.begun := by
  obtain ⟨y₀, hy₀, hkey, howed₀⟩ :
      ∃ y₀, s.calls[j]? = some y₀ ∧ y₀.key = y.key ∧ y₀.owed = y.owed := by
    rcases get_setPhase hy with ⟨rfl, rfl⟩ | ⟨-, hy⟩
    · exact ⟨call, hcall, rfl, rfl⟩
    · exact ⟨y, hy, rfl, rfl⟩
  obtain ⟨x, hx, hkey', hbegun'⟩ := h.begun i j y₀ hy₀ (howed₀ ▸ howed)
  refine ⟨x, ?_, hkey'.trans hkey, hbegun'⟩
  rw [State.setPhase, List.getElem?_set_ne]
  · exact hx
  · rintro rfl
    cases hcall.symm.trans hx
    rw [hbegun] at hbegun'
    cases hbegun'

/-- A call takes the flight of its key. -/
theorem inv_join {flight : Flight} (h : Inv window digest s) (hcall : s.calls[idx]? = some call)
    (hphase : call.phase = .called) (hflight : s.flights (digest call.key) = some flight) :
    Inv window digest (s.setPhase idx call (.waiting flight.result)) where
  alone i j x y c t t' hx hy hrun hrun' := by
    rcases get_setPhase hx with ⟨-, rfl⟩ | ⟨-, hx⟩
    · cases hrun
    · rcases get_setPhase hy with ⟨-, rfl⟩ | ⟨-, hy⟩
      · cases hrun'
      · exact h.alone i j x y c t t' hx hy hrun hrun'
  knows i x hx := by
    rcases get_setPhase hx with ⟨-, rfl⟩ | ⟨-, hx⟩
    · exact h.flight _ _ hflight
    · exact h.knows i x hx
  flight := h.flight
  together i j x y c c' hx hy hdigest hopen hopen' := by
    rcases get_setPhase hx with ⟨-, rfl⟩ | ⟨-, hx⟩ <;>
      rcases get_setPhase hy with ⟨-, rfl⟩ | ⟨-, hy⟩
    · exact (opens_waiting hopen).trans (opens_waiting hopen').symm
    · exact (opens_waiting hopen).trans (h.current j y c' flight hy (hdigest ▸ hflight) hopen').symm
    · exact (h.current i x c flight hx (hdigest ▸ hflight) hopen).trans (opens_waiting hopen').symm
    · exact h.together i j x y c c' hx hy hdigest hopen hopen'
  current i x c f hx hf hopen := by
    rcases get_setPhase hx with ⟨-, rfl⟩ | ⟨-, hx⟩
    · cases hflight.symm.trans hf
      exact opens_waiting hopen
    · exact h.current i x c f hx hf hopen
  recent i x c t v f hx hf hran hwindow := by
    rcases get_setPhase hx with ⟨-, rfl⟩ | ⟨-, hx⟩
    · cases hran
    · exact h.recent i x c t v f hx hf hran hwindow
  begun := begun_setPhase h hcall (by rw [hphase]; rfl)
  called i j x y c f hx hy howed hcalled hlive hf := by
    rcases get_setPhase hy with ⟨-, rfl⟩ | ⟨-, hy⟩
    · cases hcalled
    · rcases get_setPhase hx with ⟨-, rfl⟩ | ⟨-, hx⟩
      · exact absurd hlive not_live_waiting
      · exact h.called i j x y c f hx hy howed hcalled hlive hf
  awaits i j x y c hx hy howed hlive := by
    rcases get_setPhase hx with ⟨-, rfl⟩ | ⟨-, hx⟩
    · exact absurd hlive not_live_waiting
    · rcases get_setPhase hy with ⟨-, rfl⟩ | ⟨-, hy⟩
      · exact (h.called i idx x call c flight hx hcall howed hphase hlive hflight).symm
      · exact h.awaits i j x y c hx hy howed hlive

/-- What a call knows of its cell when there is one more. -/
theorem knows_concat {cells : List (Option V)} (h : phase.Knows cells) :
    phase.Knows (cells ++ [none]) := by
  have hold : ∀ {c : Nat} {r : Option V}, cells[c]? = some r → (cells ++ [none])[c]? = some r := by
    intro c r hr
    rw [List.getElem?_append_left (List.getElem?_eq_some_iff.mp hr).1]
    exact hr
  match phase with
  | .called | .dropped | .ran _ _ none => trivial
  | .waiting c =>
      change c < (cells ++ [none]).length
      rw [List.length_append]
      exact Nat.lt_add_right 1 h
  | .running c t => exact hold h
  | .ran c t (some v) => exact hold h
  | .shared c v => exact hold h

/-- A call begins a flight. -/
theorem inv_begin [DecidableEq κ] (h : Inv window digest s) (hcall : s.calls[idx]? = some call)
    (hphase : call.phase = .called)
    (hopen : ∀ (i : Nat) (y : Call K V), s.calls[i]? = some y → digest y.key = digest call.key →
      ∀ c, ¬ s.Open y c)
    (hrecent : ∀ (i : Nat) (y : Call K V), s.calls[i]? = some y → digest y.key = digest call.key →
      ∀ c t v, y.phase = .ran c t (some v) → window ≤ s.now - t)
    (howed : ∀ (i : Nat) (y : Call K V), s.calls[i]? = some y → digest y.key = digest call.key →
      y.phase = .called → ∀ j ∈ y.owed, ∀ z, s.calls[j]? = some z → ∀ c, ¬ Live z c) :
    Inv window digest { s.setPhase idx call (.waiting s.cells.length) with
      flights := Function.update s.flights (digest call.key)
        (some ⟨call.now, s.cells.length⟩)
      cells := s.cells ++ [none] } := by
  -- A call that waits for another cell than the new one is as open as before.
  have hopens : ∀ {i : Nat} {y : Call K V} {c : Nat}, s.calls[i]? = some y →
      State.Open { s.setPhase idx call (.waiting s.cells.length) with
        flights := Function.update s.flights (digest call.key) (some ⟨call.now, s.cells.length⟩)
        cells := s.cells ++ [none] } y c → s.Open y c := by
    rintro i y c hy (hrun | ⟨hwait, hcell⟩)
    · exact Or.inl hrun
    · refine Or.inr ⟨hwait, ?_⟩
      have hknows := h.knows i y hy
      rw [hwait] at hknows
      rw [List.getElem?_append_left hknows] at hcell
      exact hcell
  have hold : ∀ {y : Call K V} {f : Flight}, digest y.key ≠ digest call.key →
      Function.update s.flights (digest call.key) (some ⟨call.now, s.cells.length⟩)
        (digest y.key) = some f → s.flights (digest y.key) = some f := by
    intro y f hne hf
    rwa [Function.update_of_ne hne] at hf
  refine ⟨?_, ?_, ?_, ?_, ?_, ?_, begun_setPhase h hcall (by rw [hphase]; rfl), ?_, ?_⟩
  · intro i j x y c t t' hx hy hrun hrun'
    rcases get_setPhase hx with ⟨-, rfl⟩ | ⟨-, hx⟩
    · cases hrun
    · rcases get_setPhase hy with ⟨-, rfl⟩ | ⟨-, hy⟩
      · cases hrun'
      · exact h.alone i j x y c t t' hx hy hrun hrun'
  · intro i x hx
    rcases get_setPhase hx with ⟨-, rfl⟩ | ⟨-, hx⟩
    · change s.cells.length < (s.cells ++ [none]).length
      rw [List.length_append]
      exact Nat.lt_succ_self _
    · exact knows_concat (h.knows i x hx)
  · intro d f hf
    dsimp only at hf ⊢
    rw [List.length_append]
    by_cases hd : d = digest call.key
    · subst hd
      rw [Function.update_self] at hf
      cases hf
      exact Nat.lt_succ_self _
    · rw [Function.update_of_ne hd] at hf
      exact Nat.lt_add_right 1 (h.flight d f hf)
  · intro i j x y c c' hx hy hdigest hx' hy'
    rcases get_setPhase hx with ⟨-, rfl⟩ | ⟨-, hx⟩ <;>
      rcases get_setPhase hy with ⟨-, rfl⟩ | ⟨-, hy⟩
    · exact (opens_waiting hx').trans (opens_waiting hy').symm
    · exact absurd (hopens hy hy') (hopen j y hy hdigest.symm c')
    · exact absurd (hopens hx hx') (hopen i x hx hdigest c)
    · exact h.together i j x y c c' hx hy hdigest (hopens hx hx') (hopens hy hy')
  · intro i x c f hx hf hx'
    rcases get_setPhase hx with ⟨-, rfl⟩ | ⟨-, hx⟩
    · dsimp only at hf
      rw [Function.update_self] at hf
      cases hf
      exact opens_waiting hx'
    · by_cases hd : digest x.key = digest call.key
      · exact absurd (hopens hx hx') (hopen i x hx hd c)
      · exact h.current i x c f hx (hold hd hf) (hopens hx hx')
  · intro i x c t v f hx hf hran hwindow
    rcases get_setPhase hx with ⟨-, rfl⟩ | ⟨-, hx⟩
    · cases hran
    · by_cases hd : digest x.key = digest call.key
      · exact absurd hwindow (Nat.not_lt.mpr (hrecent i x hx hd c t v hran))
      · exact h.recent i x c t v f hx (hold hd hf) hran hwindow
  · intro i j x y c f hx hy howed' hcalled hlive hf
    rcases get_setPhase hy with ⟨-, rfl⟩ | ⟨-, hy⟩
    · cases hcalled
    · rcases get_setPhase hx with ⟨-, rfl⟩ | ⟨-, hx⟩
      · exact absurd hlive not_live_waiting
      · by_cases hd : digest y.key = digest call.key
        · exact absurd hlive (howed j y hy hd hcalled i howed' x hx c)
        · exact h.called i j x y c f hx hy howed' hcalled hlive (hold hd hf)
  · intro i j x y c hx hy howed' hlive
    rcases get_setPhase hx with ⟨-, rfl⟩ | ⟨-, hx⟩
    · exact absurd hlive not_live_waiting
    · rcases get_setPhase hy with ⟨-, rfl⟩ | ⟨-, hy⟩
      · exact absurd hlive (howed idx call hcall rfl hphase i howed' x hx c)
      · exact h.awaits i j x y c hx hy howed' hlive

theorem mem_owed [DecidableEq K] {key : K} {i : Nat} (h : i ∈ owed window s key) :
    ∃ x, s.calls[i]? = some x ∧ x.key = key ∧ x.phase.owes window s.now := by
  obtain ⟨-, hany⟩ := List.mem_filter.mp h
  obtain ⟨x, hx, hboth⟩ := (Option.any_eq_true _ _).mp hany
  obtain ⟨hkey, howes⟩ := Bool.and_eq_true_iff.mp hboth
  exact ⟨x, hx, of_decide_eq_true hkey, howes⟩

/-- A call begins: what it is owed is in the flight of its key. -/
theorem inv_call [DecidableEq K] (h : Inv window digest s) (key : K) :
    Inv window digest { s with calls := s.calls ++ [⟨key, s.now, owed window s key, .called⟩] } := by
  have hbefore : ∀ {i j : Nat} {x y : Call K V}, s.calls[j]? = some y → i ∈ y.owed →
      (s.calls ++ [⟨key, s.now, owed window s key, .called⟩])[i]? = some x →
      s.calls[i]? = some x := by
    intro i j x y hy howed hx
    obtain ⟨x₀, hx₀, -⟩ := h.begun i j y hy howed
    rw [List.getElem?_append_left (List.getElem?_eq_some_iff.mp hx₀).1] at hx
    exact hx
  have hnew : ∀ {i : Nat} {x : Call K V}, i ∈ owed window s key →
      (s.calls ++ [⟨key, s.now, owed window s key, .called⟩])[i]? = some x →
      s.calls[i]? = some x := by
    intro i x howed hx
    obtain ⟨x₀, hx₀, -⟩ := mem_owed howed
    rw [List.getElem?_append_left (List.getElem?_eq_some_iff.mp hx₀).1] at hx
    exact hx
  refine ⟨?_, ?_, h.flight, ?_, ?_, ?_, ?_, ?_, ?_⟩
  · intro i j x y c t t' hx hy hrun hrun'
    rcases get_concat hx with hx | ⟨-, rfl⟩
    · rcases get_concat hy with hy | ⟨-, rfl⟩
      · exact h.alone i j x y c t t' hx hy hrun hrun'
      · cases hrun'
    · cases hrun
  · intro i x hx
    rcases get_concat hx with hx | ⟨-, rfl⟩
    · exact h.knows i x hx
    · trivial
  · intro i j x y c c' hx hy hdigest hopen hopen'
    rcases get_concat hx with hx | ⟨-, rfl⟩
    · rcases get_concat hy with hy | ⟨-, rfl⟩
      · exact h.together i j x y c c' hx hy hdigest hopen hopen'
      · rcases hopen' with ⟨t, hrun⟩ | ⟨hwait, -⟩
        · cases hrun
        · cases hwait
    · rcases hopen with ⟨t, hrun⟩ | ⟨hwait, -⟩
      · cases hrun
      · cases hwait
  · intro i x c f hx hf hopen
    rcases get_concat hx with hx | ⟨-, rfl⟩
    · exact h.current i x c f hx hf hopen
    · rcases hopen with ⟨t, hrun⟩ | ⟨hwait, -⟩
      · cases hrun
      · cases hwait
  · intro i x c t v f hx hf hran hwindow
    rcases get_concat hx with hx | ⟨-, rfl⟩
    · exact h.recent i x c t v f hx hf hran hwindow
    · cases hran
  · intro i j y hy howed
    have hstays : ∀ {x : Call K V}, s.calls[i]? = some x →
        (s.calls ++ [⟨key, s.now, SingleFlight.owed window s key, .called⟩])[i]? = some x := by
      intro x hx
      rw [List.getElem?_append_left (List.getElem?_eq_some_iff.mp hx).1]
      exact hx
    rcases get_concat hy with hy | ⟨-, rfl⟩
    · obtain ⟨x, hx, hkey, hbegun⟩ := h.begun i j y hy howed
      exact ⟨x, hstays hx, hkey, hbegun⟩
    · obtain ⟨x, hx, hkey, howes⟩ := mem_owed howed
      refine ⟨x, hstays hx, hkey, ?_⟩
      cases hphase : x.phase with
      | running c t | ran c t r | dropped => rfl
      | called | waiting c | shared c v =>
          rw [hphase] at howes
          cases howes
  · intro i j x y c f hx hy howed hcalled hlive hf
    rcases get_concat hy with hy | ⟨-, rfl⟩
    · exact h.called i j x y c f (hbefore hy howed hx) hy howed hcalled hlive hf
    · have hx₀ := hnew howed hx
      obtain ⟨x₁, hx₁, rfl, howes⟩ := mem_owed howed
      cases hx₀.symm.trans hx₁
      obtain ⟨t, hrun | ⟨v, hran⟩⟩ := hlive
      · exact h.current i x c f hx₀ hf (Or.inl ⟨t, hrun⟩)
      · rw [hran] at howes
        exact h.recent i x c t v f hx₀ hf hran (of_decide_eq_true howes)
  · intro i j x y c hx hy howed hlive
    rcases get_concat hy with hy | ⟨-, rfl⟩
    · exact h.awaits i j x y c (hbefore hy howed hx) hy howed hlive
    · trivial

theorem inv_step [DecidableEq K] [DecidableEq κ] {a : Act K V} (h : Inv window digest s)
    (hsettled : Settled window digest s a) (hstep : step window digest s a = some t) :
    Inv window digest t := by
  cases a with
  | tick n =>
      cases hstep
      exact inv_tick n h
  | call key =>
      cases hstep
      exact inv_call h key
  | flight idx =>
      obtain ⟨call, hcall, hstep⟩ := Option.bind_eq_some_iff.mp hstep
      cases hphase : call.phase with
      | called =>
          rw [hphase] at hstep
          dsimp only at hstep
          have hretain := inv_retain call.now h
          cases hflight : retained window call.now s.flights (digest call.key) with
          | some flight =>
              rw [hflight] at hstep
              cases hstep
              exact inv_join hretain hcall hphase hflight
          | none =>
              rw [hflight] at hstep
              cases hstep
              have hall := hsettled call hcall hflight
              exact inv_begin hretain hcall hphase (fun i y hy hd => (hall i y hy hd).1)
                (fun i y hy hd => (hall i y hy hd).2.1) (fun i y hy hd => (hall i y hy hd).2.2)
      | _ =>
          rw [hphase] at hstep
          cases hstep
  | run idx =>
      obtain ⟨call, hcall, hstep⟩ := Option.bind_eq_some_iff.mp hstep
      cases hphase : call.phase with
      | waiting cell =>
          rw [hphase] at hstep
          obtain ⟨hfree, hstep⟩ := Option.ite_none_right_eq_some.mp hstep
          cases hstep
          obtain ⟨hempty, hall⟩ := Bool.and_eq_true_iff.mp hfree
          obtain ⟨r, hr, hnone⟩ := (Option.any_eq_true _ _).mp hempty
          obtain rfl := Option.isNone_iff_eq_none.mp hnone
          refine inv_run h hcall hphase hr (fun x hx => ?_) s.now
          exact (Bool.not_eq_true' _).mp (List.all_eq_true.mp hall x hx)
      | _ =>
          rw [hphase] at hstep
          cases hstep
  | finish idx result =>
      obtain ⟨call, hcall, hstep⟩ := Option.bind_eq_some_iff.mp hstep
      cases hphase : call.phase with
      | running cell since =>
          rw [hphase] at hstep
          cases hstep
          cases result with
          | none => exact inv_failed h hcall hphase
          | some value => exact inv_returned h hcall hphase
      | _ =>
          rw [hphase] at hstep
          cases hstep
  | share idx =>
      obtain ⟨call, hcall, hstep⟩ := Option.bind_eq_some_iff.mp hstep
      cases hphase : call.phase with
      | waiting cell =>
          rw [hphase] at hstep
          obtain ⟨value, hvalue, hstep⟩ := Option.bind_eq_some_iff.mp hstep
          cases hstep
          exact inv_share h hcall hphase (Option.join_eq_some_iff.mp hvalue)
      | _ =>
          rw [hphase] at hstep
          cases hstep
  | drop idx =>
      obtain ⟨call, hcall, hstep⟩ := Option.bind_eq_some_iff.mp hstep
      cases hphase : call.phase with
      | called | waiting cell | running cell since =>
          rw [hphase] at hstep
          cases hstep
          exact inv_drop h hcall
      | _ =>
          rw [hphase] at hstep
          cases hstep

/-- In a run in which the flight of a key is settled whenever another one is begun, no two
runs of a key overlap, and a call gets what it is owed. -/
theorem single_flight [DecidableEq K] [DecidableEq κ]
    (h : (flying (V := V) window digest).ReachableBy (Settled window digest) s) : Single s := by
  have hinv : Inv window digest s := by
    refine h.invariant ?_ ?_
    · rintro s ⟨hflights, hcells, hcalls⟩
      have hnone : ∀ (i : Nat) (x : Call K V), s.calls[i]? ≠ some x := by
        intro i x hx
        rw [hcalls] at hx
        cases hx
      refine ⟨?_, ?_, ?_, ?_, ?_, ?_, ?_, ?_, ?_⟩
      · exact fun i _ x _ _ _ _ hx => absurd hx (hnone i x)
      · exact fun i x hx => absurd hx (hnone i x)
      · intro d f hf
        rw [hflights] at hf
        cases hf
      · exact fun i _ x _ _ _ hx => absurd hx (hnone i x)
      · exact fun i x _ _ hx => absurd hx (hnone i x)
      · exact fun i x _ _ _ _ hx => absurd hx (hnone i x)
      · exact fun _ j y hy => absurd hy (hnone j y)
      · exact fun i _ x _ _ _ hx => absurd hx (hnone i x)
      · exact fun i _ x _ _ hx => absurd hx (hnone i x)
    · intro s a t hinv hsettled hstep
      exact inv_step hinv hsettled hstep
  exact hinv.single

end Runs

/-- The start of a process. -/
def start : State Nat Nat Nat := ⟨0, fun _ => none, [], []⟩

/-- A second call, on its way while the first one runs, gets what the first one returns. -/
theorem single_flight_shared :
    ∃ s, (flying (V := Nat) 30 (id : Nat → Nat)).ReachableBy (Settled 30 id) s ∧
      s.calls.map Call.phase = [.ran 0 0 (some 7), .shared 0 7] ∧ Single s := by
  have hfirst : Settled 30 id (⟨0, fun _ => none, [], [⟨1, 0, [], .called⟩]⟩ : State Nat Nat Nat)
      (.flight 0) := by
    intro x hx _ i y hy _
    obtain rfl : y = ⟨1, 0, [], .called⟩ := by
      rcases i with _ | i
      · exact (Option.some.inj hy).symm
      · cases hy
    refine ⟨?_, nofun, nofun⟩
    rintro c (⟨t, hrun⟩ | ⟨hwait, -⟩)
    · cases hrun
    · cases hwait
  have hsecond : ∀ calls cells, calls[1]? = some ⟨1, 5, [0], .called⟩ →
      Settled 30 id (⟨5, Function.update (fun _ => none) 1 (some ⟨0, 0⟩), cells, calls⟩ :
        State Nat Nat Nat) (.flight 1) := by
    intro calls cells hcalls x hx hnone
    cases hcalls.symm.trans hx
    cases hnone
  have hcall : (flying (V := Nat) 30 (id : Nat → Nat)).RunOf (Settled 30 id) start [.call 1]
      ⟨0, fun _ => none, [], [⟨1, 0, [], .called⟩]⟩ := .single trivial rfl
  have hflight := hcall.snoc (a := Act.flight 0) hfirst rfl
  have hsecondCall := ((hflight.snoc (a := Act.run 0) trivial rfl).snoc (a := Act.tick 5) trivial
    rfl).snoc (a := Act.call 1) trivial rfl
  have hfinish := hsecondCall.snoc (a := Act.finish 0 (some 7)) trivial rfl
  have hshare := (hfinish.snoc (a := Act.flight 1) (hsecond _ _ rfl) rfl).snoc (a := Act.share 1)
    trivial rfl
  have hreach := (⟨start, _, ⟨fun _ => rfl, rfl, rfl⟩, hshare⟩ :
    (flying (V := Nat) 30 (id : Nat → Nat)).ReachableBy (Settled 30 id) _)
  exact ⟨_, hreach, rfl, single_flight hreach⟩

/-- A run that takes as long as the window: the next call of its key runs beside it. -/
theorem long_run_overlaps :
    ∃ s, (flying (V := Nat) 30 (id : Nat → Nat)).Reachable s ∧
      s.calls.map Call.phase = [.running 0 0, .running 1 30] ∧
      s.calls.map Call.key = [1, 1] ∧ ¬ Single s := by
  have hrun : (flying (V := Nat) 30 (id : Nat → Nat)).Run start
      [.call 1, .flight 0, .run 0, .tick 30, .call 1, .flight 1, .run 1] _ :=
    .snoc (.snoc (.snoc (.snoc (.snoc (.snoc (.single trivial rfl) trivial rfl) trivial rfl)
      trivial rfl) trivial rfl) trivial rfl) trivial rfl
  refine ⟨_, ⟨start, _, ⟨fun _ => rfl, rfl, rfl⟩, hrun⟩, rfl, rfl, ?_⟩
  intro hsingle
  exact absurd (hsingle.alone 0 1 _ _ _ _ _ _ rfl rfl rfl rfl rfl) (by decide)

end SingleFlight

end Flowgen.Web
