/-
# `Flowgen.Clients.Registry` — clients shared between tasks (`core/src/client_registry.rs`)

`get_or_init` looks for a client, then takes the guard of the key out of a
second map, locks it, looks again and only then runs the initialiser.  The map
of guards says which guard callers are to wait on; it says nothing about the
guards they already wait on.

`remove` takes the client out of the one map and the guard out of the other,
whoever uses it.  A caller that comes then finds neither and makes a guard of
its own, so that two initialisers of the key run side by side and each stores
its client (`two_initialisers_after_remove`).  In a run in which `remove` takes
nothing from under a caller (`Quiet`), the guard in the map is the one that all
callers of a key without a client use (`CallOk.guarded`), and the registry does
what it is for (`shared_of_quiet`).
-/
import Flowgen.Lib.Machine
import Flowgen.Lib.Slots

namespace Flowgen.Clients

open Flowgen.Lib

variable {κ τ : Type}

/-- A client of type `typ`; every initialisation makes a new one. -/
structure Client (τ : Type) where
  typ : τ
  id : Nat
deriving DecidableEq

inductive Error
  | init
  | typeMismatch
deriving DecidableEq

/-- How far a call of `get_or_init` is. -/
inductive Phase (τ : Type)
  | fast
  | missed
  | waiting (guard : Nat)
  | locked (guard : Nat)
  | initialising (guard : Nat)
  | created (guard : Nat) (client : Client τ)
  | stored (guard : Nat) (client : Client τ)
  | returned (result : Except Error (Client τ))
  | dropped

structure Call (κ τ : Type) where
  key : κ
  typ : τ
  phase : Phase τ

/-- What has happened: a call returned a client, or a `remove` took
the client of a key out of the registry, if there was one. -/
inductive Event (κ τ : Type)
  | got (key : κ) (client : Client τ)
  | removed (key : κ) (found : Bool)
deriving DecidableEq

structure State (κ τ : Type) where
  clients : κ → Option (Client τ)
  initGuards : κ → Option Nat
  calls : List (Call κ τ)
  /-- The removals that have not taken the guard yet. -/
  removals : List κ
  nextGuard : Nat
  nextClient : Nat
  /-- Newest first. -/
  log : List (Event κ τ)

def State.initial : State κ τ where
  clients _ := none
  initGuards _ := none
  calls := []
  removals := []
  nextGuard := 0
  nextClient := 0
  log := []

/-- The guard a call waits for or holds. -/
def Phase.guard : Phase τ → Option Nat
  | .waiting g | .locked g | .initialising g | .created g _ | .stored g _ => some g
  | .fast | .missed | .returned _ | .dropped => none

/-- The guard a call has locked. -/
def Phase.holds : Phase τ → Option Nat
  | .locked g | .initialising g | .created g _ | .stored g _ => some g
  | .fast | .missed | .waiting _ | .returned _ | .dropped => none

/-- The call runs its initialiser. -/
def Phase.inits : Phase τ → Bool
  | .initialising _ => true
  | _ => false

/-- The call is about to make a client, or has made one that is not in the map yet. -/
def Phase.making : Phase τ → Bool
  | .initialising _ | .created _ _ => true
  | _ => false

def Phase.storing : Phase τ → Bool
  | .stored _ _ => true
  | _ => false

def Phase.ended : Phase τ → Bool
  | .returned _ | .dropped => true
  | _ => false

/-- The steps of the registry: a call begins, takes its next step, has its
initialiser end, or is dropped; a `remove` takes the client, and then the
guard. -/
inductive Act (κ τ : Type)
  | call (key : κ) (typ : τ)
  | next (i : Nat)
  | finish (i : Nat) (ok : Bool)
  | drop (i : Nat)
  | remove (key : κ)
  | removeGuard (idx : Nat)

section Step

variable [DecidableEq κ] [DecidableEq τ]

def State.setPhase (s : State κ τ) (i : Nat) (c : Call κ τ) (phase : Phase τ) : State κ τ :=
  { s with calls := s.calls.set i { c with phase := phase } }

/-- A client that is there is returned, if it is of the type asked for. -/
def State.return (s : State κ τ) (i : Nat) (c : Call κ τ) (entry : Client τ) : State κ τ :=
  if entry.typ = c.typ then
    { s.setPhase i c (.returned (.ok entry)) with log := .got c.key entry :: s.log }
  else s.setPhase i c (.returned (.error .typeMismatch))

/-- The guard of the key, made if there is none. -/
def State.fetch (s : State κ τ) (i : Nat) (c : Call κ τ) : State κ τ :=
  match s.initGuards c.key with
  | some g => s.setPhase i c (.waiting g)
  | none =>
      { s.setPhase i c (.waiting s.nextGuard) with
        initGuards := Function.update s.initGuards c.key (some s.nextGuard)
        nextGuard := s.nextGuard + 1 }

/-- Some call has locked the guard. -/
def State.held (s : State κ τ) (g : Nat) : Bool := s.calls.any fun c => c.phase.holds == some g

/-- The next step of a call, other than the end of its initialiser. -/
def State.advance (s : State κ τ) (i : Nat) (c : Call κ τ) : Option (State κ τ) :=
  match c.phase with
  | .fast =>
      match s.clients c.key with
      | some entry => some (s.return i c entry)
      | none => some (s.setPhase i c .missed)
  | .missed => some (s.fetch i c)
  | .waiting g => if s.held g then none else some (s.setPhase i c (.locked g))
  | .locked g =>
      match s.clients c.key with
      | some entry => some (s.return i c entry)
      | none => some (s.setPhase i c (.initialising g))
  | .created g client =>
      some { s.setPhase i c (.stored g client) with
        clients := Function.update s.clients c.key (some client) }
  | .stored _ client =>
      some { s.setPhase i c (.returned (.ok client)) with
        initGuards := Function.update s.initGuards c.key none
        log := .got c.key client :: s.log }
  | .initialising _ | .returned _ | .dropped => none

/-- A client that the initialiser made, or its error. -/
def State.finish (s : State κ τ) (i : Nat) (c : Call κ τ) (ok : Bool) : Option (State κ τ) :=
  match c.phase with
  | .initialising g =>
      if ok then
        some { s.setPhase i c (.created g ⟨c.typ, s.nextClient⟩) with nextClient := s.nextClient + 1 }
      else some (s.setPhase i c (.returned (.error .init)))
  | _ => none

def step (s : State κ τ) : Act κ τ → Option (State κ τ)
  | .call key typ => some { s with calls := s.calls ++ [⟨key, typ, .fast⟩] }
  | .next i => s.calls[i]?.bind (s.advance i)
  | .finish i ok => s.calls[i]?.bind fun c => s.finish i c ok
  | .drop i => s.calls[i]?.bind fun c => if c.phase.ended then none else some (s.setPhase i c .dropped)
  | .remove key =>
      some { s with
        clients := Function.update s.clients key none
        removals := s.removals ++ [key]
        log := .removed key (s.clients key).isSome :: s.log }
  | .removeGuard idx =>
      s.removals[idx]?.map fun key =>
        { s with
          initGuards := Function.update s.initGuards key none
          removals := s.removals.eraseIdx idx }

/-- The registry, as `ClientRegistry::new` makes it. -/
def registry : Machine (State κ τ) (Act κ τ) where
  init s := s = .initial
  step := step

/-! ## What it is for -/

/-- At most one initialiser of a key runs. -/
def AtMostOne (s : State κ τ) : Prop :=
  ∀ (i j : Nat) (c d : Call κ τ), s.calls[i]? = some c → s.calls[j]? = some d → c.key = d.key →
    c.phase.inits = true → d.phase.inits = true → i = j

/-- Calls of a key between which it was not removed got the same client. -/
def Same (log : List (Event κ τ)) : Prop :=
  ∀ post mid pre key a b, log = post ++ .got key b :: (mid ++ .got key a :: pre) →
    (∀ found, .removed key found ∉ mid) → a = b

/-- A `remove` takes nothing from under a caller.  When it takes the client of
a key, the calls that wait for a guard or hold one use the guard in the map,
and none of them has just stored its client; when it takes the guard, there are
no such calls, unless a client is there. -/
def Quiet (s : State κ τ) : Act κ τ → Prop
  | .remove key => ∀ c ∈ s.calls, c.key = key → ∀ g, c.phase.guard = some g →
      s.initGuards key = some g ∧ c.phase.storing = false
  | .removeGuard idx => ∀ key, s.removals[idx]? = some key →
      s.clients key = none → ∀ c ∈ s.calls, c.key = key → c.phase.guard = none
  | _ => True

/-! ## What a call may rely on -/

/-- How a call stands to the two maps. -/
structure CallOk (clients : κ → Option (Client τ)) (initGuards : κ → Option Nat) (c : Call κ τ) :
    Prop where
  /-- Where there is no client, the guard in the map is the one in use. -/
  guarded : ∀ g, c.phase.guard = some g → clients c.key = none → initGuards c.key = some g
  making : c.phase.making = true → clients c.key = none
  stored : ∀ g client, c.phase = .stored g client → clients c.key = some client

/-- A guard is locked by one call at a time. -/
def Exclusive (calls : List (Call κ τ)) : Prop :=
  ∀ (i j : Nat) (c d : Call κ τ) (g : Nat), calls[i]? = some c → calls[j]? = some d →
    c.phase.holds = some g → d.phase.holds = some g → i = j

/-- The client a call got is in the map until it is removed. -/
structure Recorded (clients : κ → Option (Client τ)) (log : List (Event κ τ)) : Prop where
  current : ∀ mid pre key a, log = mid ++ .got key a :: pre →
    (∀ found, .removed key found ∉ mid) → clients key = some a
  same : Same log

structure Kept (s : State κ τ) : Prop where
  calls : ∀ (i : Nat) c, s.calls[i]? = some c → CallOk s.clients s.initGuards c
  exclusive : Exclusive s.calls
  recorded : Recorded s.clients s.log

variable {s t : State κ τ} {i : Nat} {c d : Call κ τ} {p : Phase τ} {key : κ} {entry : Client τ}
  {clients clients' : κ → Option (Client τ)} {guards : κ → Option Nat} {log : List (Event κ τ)}
  {g : Nat} {calls : List (Call κ τ)}

omit [DecidableEq κ] [DecidableEq τ]

theorem Phase.guard_of_holds (h : p.holds = some g) : p.guard = some g := by
  cases p <;> first | exact h | cases h

theorem Phase.holds_of_making (h : p.making = true) : ∃ g, p.holds = some g := by
  cases p <;> first | exact ⟨_, rfl⟩ | cases h

theorem Phase.making_of_inits (h : p.inits = true) : p.making = true := by
  cases p <;> first | rfl | cases h

/-! ### The record -/

theorem recorded_nil : Recorded clients ([] : List (Event κ τ)) := by
  constructor
  · intro mid pre key a hlog
    cases mid <;> cases hlog
  · intro post mid pre key a b hlog
    cases post <;> cases hlog

/-- What is known of the past when one more thing happens. -/
theorem Recorded.cons {e : Event κ τ} (h : Recorded clients log)
    (hgot : ∀ key a, e = .got key a → clients key = some a ∧ clients' key = some a)
    (hold : ∀ key a, clients key = some a → (∀ found, e ≠ .removed key found) →
      clients' key = some a) : Recorded clients' (e :: log) := by
  constructor
  · intro mid pre key a hlog hmid
    rcases List.cons_eq_append_iff.mp hlog with ⟨rfl, he⟩ | ⟨mid', rfl, hlog'⟩
    · obtain ⟨he, _⟩ := List.cons.inj he
      exact (hgot key a he.symm).2
    · refine hold key a (h.current mid' pre key a hlog' fun found hf => ?_) fun found he => ?_
      · exact hmid found (List.mem_cons_of_mem _ hf)
      · exact hmid found (he ▸ List.mem_cons_self)
  · intro post mid pre key a b hlog hmid
    rcases List.cons_eq_append_iff.mp hlog with ⟨rfl, he⟩ | ⟨post', rfl, hlog'⟩
    · obtain ⟨he, hlog'⟩ := List.cons.inj he
      have ha := h.current mid pre key a hlog'.symm hmid
      exact Option.some.inj (ha.symm.trans (hgot key b he.symm).1)
    · exact h.same post' mid pre key a b hlog' hmid

/-- A client is stored where there was none. -/
theorem Recorded.store [DecidableEq κ] (h : Recorded clients log) (hn : clients key = none) :
    Recorded (Function.update clients key (some entry)) log := by
  refine ⟨?_, h.same⟩
  intro mid pre k a hlog hmid
  have ha := h.current mid pre k a hlog hmid
  rw [Function.update_of_ne]
  · exact ha
  · rintro rfl
    cases ha.symm.trans hn

/-! ### The calls -/

/-- A call moves on, and locks no guard that another one holds. -/
theorem Kept.move (h : Kept s) (hcalls : t.calls = s.calls.set i { c with phase := p })
    (hself : CallOk t.clients t.initGuards { c with phase := p })
    (hothers : ∀ j d, j ≠ i → s.calls[j]? = some d → CallOk s.clients s.initGuards d →
      CallOk t.clients t.initGuards d)
    (hlock : ∀ g, p.holds = some g → ∀ (j : Nat) d, s.calls[j]? = some d →
      d.phase.holds = some g → j = i)
    (hrecorded : Recorded t.clients t.log) : Kept t := by
  refine ⟨?_, ?_, hrecorded⟩
  · intro j d hd
    rw [hcalls] at hd
    rcases get_set hd with ⟨_, rfl⟩ | ⟨hj, hd'⟩
    · exact hself
    · exact hothers j d hj hd' (h.calls j d hd')
  · intro j k d e g hd he hdg heg
    rw [hcalls] at hd he
    rcases get_set hd with ⟨hj, rfl⟩ | ⟨hj, hd'⟩ <;> rcases get_set he with ⟨hk, rfl⟩ | ⟨hk, he'⟩
    · rw [hj, hk]
    · exact absurd (hlock g hdg k e he' heg) hk
    · exact absurd (hlock g heg j d hd' hdg) hj
    · exact h.exclusive j k d e g hd' he' hdg heg

/-- A call that locks nothing it has not locked before. -/
theorem Kept.lock_of_held (h : Kept s) (hi : s.calls[i]? = some c)
    (hp : ∀ g, p.holds = some g → c.phase.holds = some g) :
    ∀ g, p.holds = some g → ∀ (j : Nat) d, s.calls[j]? = some d → d.phase.holds = some g → j = i :=
  fun g hg j d hd hdg => h.exclusive j i d c g hd hi hdg (hp g hg)

/-- A call of a key without a client that has locked its guard is the only one
to have locked a guard of the key. -/
theorem Kept.sole (h : Kept s) (hi : s.calls[i]? = some c) {j : Nat} (hj : s.calls[j]? = some d)
    (hkey : d.key = c.key) (hn : s.clients c.key = none) (hc : c.phase.holds = some g) {g' : Nat}
    (hd : d.phase.holds = some g') : j = i := by
  have hg := (h.calls i c hi).guarded g (Phase.guard_of_holds hc) hn
  have hg' := (h.calls j d hj).guarded g' (Phase.guard_of_holds hd) (hkey ▸ hn)
  rw [hkey] at hg'
  obtain rfl := Option.some.inj (hg.symm.trans hg')
  exact h.exclusive j i d c g hj hi hd hc

/-- The guard of a key that has a client goes. -/
theorem CallOk.withoutGuard [DecidableEq κ] (h : CallOk clients guards d)
    (hn : d.key = key → clients key = none → d.phase.guard = none) :
    CallOk clients (Function.update guards key none) d := by
  refine ⟨?_, h.making, h.stored⟩
  intro g hg hc
  rw [Function.update_of_ne]
  · exact h.guarded g hg hc
  · rintro rfl
    cases (hn rfl hc).symm.trans hg

/-- A guard is made for a key that has none. -/
theorem CallOk.withGuard [DecidableEq κ] (h : CallOk clients guards d) (hn : guards key = none) :
    CallOk clients (Function.update guards key (some g)) d := by
  refine ⟨?_, h.making, h.stored⟩
  intro g' hg hc
  rw [Function.update_of_ne]
  · exact h.guarded g' hg hc
  · rintro rfl
    cases hn.symm.trans (h.guarded g' hg hc)

/-- The client of another key is stored or taken. -/
theorem CallOk.other [DecidableEq κ] (h : CallOk clients guards d) (hkey : d.key ≠ key)
    {client : Option (Client τ)} : CallOk (Function.update clients key client) guards d := by
  have hlook : Function.update clients key client d.key = clients d.key :=
    Function.update_of_ne hkey ..
  refine ⟨fun g hg hc => h.guarded g hg (hlook ▸ hc), fun hm => hlook ▸ h.making hm,
    fun g client' hp => hlook ▸ h.stored g client' hp⟩

/-- A call that waits for its guard, or has just locked it. -/
theorem CallOk.guarding (hm : d.phase.making = false) (hs : d.phase.storing = false)
    (hg : ∀ g, d.phase.guard = some g → clients d.key = none → guards d.key = some g) :
    CallOk clients guards d := by
  refine ⟨hg, ?_, ?_⟩
  · intro hm'
    cases hm.symm.trans hm'
  · intro g client hp
    rw [hp] at hs
    cases hs

/-- A call that waits for nothing and holds nothing. -/
theorem CallOk.idle (hg : d.phase.guard = none) : CallOk clients guards d := by
  refine ⟨?_, ?_, ?_⟩
  · intro g hg'
    cases hg.symm.trans hg'
  · intro hm
    obtain ⟨g, hh⟩ := Phase.holds_of_making hm
    cases hg.symm.trans (Phase.guard_of_holds hh)
  · intro g client hp
    rw [hp] at hg
    cases hg

end Step

/-! ## The steps -/

section Steps

variable {s t : State κ τ} {i : Nat} {c d : Call κ τ} {p : Phase τ}
  {entry : Client τ} {a : Act κ τ} {ok : Bool}

/-- A call that ends, and tells nothing. -/
theorem Kept.end (h : Kept s) (hp : p.guard = none) : Kept (s.setPhase i c p) := by
  refine h.move rfl (CallOk.idle hp) (fun j d _ _ hd => hd) (fun g hg => ?_) h.recorded
  cases hp.symm.trans (Phase.guard_of_holds hg)

theorem held_iff {g : Nat} : s.held g = true ↔ ∃ c ∈ s.calls, c.phase.holds = some g := by
  simp [State.held]

theorem Kept.finish (h : Kept s) (hi : s.calls[i]? = some c) (hs : s.finish i c ok = some t) :
    Kept t := by
  have hok := h.calls i c hi
  rw [State.finish] at hs
  cases hp : c.phase with
  | initialising g =>
      simp only [hp] at hs
      split at hs
      · obtain rfl := Option.some.inj hs
        have hn := hok.making (by rw [hp]; rfl)
        refine h.move rfl ⟨fun g' hg' hc => ?_, fun _ => hn,
          fun g client hp => by cases hp⟩
          (fun j d _ _ hd => hd) (h.lock_of_held hi fun g' hg' => ?_) h.recorded
        · cases hg'
          exact hok.guarded g (by rw [hp]; rfl) hc
        · rw [hp]
          exact hg'
      · obtain rfl := Option.some.inj hs
        exact h.end rfl
  | fast | missed | waiting _ | locked _ | created _ _ | stored _ _ | returned _ | dropped =>
      simp only [hp] at hs
      cases hs

theorem Kept.atMostOne (h : Kept s) : AtMostOne s := by
  intro i j c d hi hj hkey hc hd
  obtain ⟨g, hg⟩ := Phase.holds_of_making (Phase.making_of_inits hc)
  obtain ⟨g', hg'⟩ := Phase.holds_of_making (Phase.making_of_inits hd)
  have hn := (h.calls i c hi).making (Phase.making_of_inits hc)
  exact (h.sole hi hj hkey.symm hn hg hg').symm

/-- A call returns the client that is there, if it is of the right type. -/
theorem Kept.return [DecidableEq τ] (h : Kept s) (hc : s.clients c.key = some entry) : Kept (s.return i c entry) := by
  rw [State.return]
  split
  · refine h.move rfl (CallOk.idle rfl) (fun j d _ _ hd => hd) (fun g hg => by cases hg) ?_
    refine h.recorded.cons (fun key a he => ?_) fun key a ha _ => ha
    cases he
    exact ⟨hc, hc⟩
  · exact h.end rfl

theorem Kept.fetch [DecidableEq κ] (h : Kept s) : Kept (s.fetch i c) := by
  rw [State.fetch]
  split
  · rename_i g hg
    refine h.move rfl (CallOk.guarding rfl rfl fun g' hg' _ => ?_) (fun j d _ _ hd => hd)
      (fun g hg => by cases hg) h.recorded
    cases hg'
    exact hg
  · rename_i hg
    refine h.move rfl (CallOk.guarding rfl rfl fun g' hg' _ => ?_) (fun j d _ _ hd =>
      hd.withGuard hg) (fun g hg => by cases hg) h.recorded
    cases hg'
    exact Function.update_self ..

variable [DecidableEq κ] [DecidableEq τ]

theorem Kept.advance (h : Kept s) (hi : s.calls[i]? = some c) (hs : s.advance i c = some t) :
    Kept t := by
  have hok := h.calls i c hi
  rw [State.advance] at hs
  cases hp : c.phase with
  | fast =>
      simp only [hp] at hs
      cases hc : s.clients c.key with
      | some entry =>
          simp only [hc, Option.some.injEq] at hs
          exact hs ▸ h.return hc
      | none =>
          simp only [hc, Option.some.injEq] at hs
          exact hs ▸ h.end rfl
  | missed =>
      simp only [hp, Option.some.injEq] at hs
      exact hs ▸ h.fetch
  | waiting g =>
      simp only [hp] at hs
      split at hs
      · cases hs
      · rename_i hfree
        obtain rfl := Option.some.inj hs
        refine h.move rfl (CallOk.guarding rfl rfl fun g' hg' hc => ?_) (fun j d _ _ hd => hd)
          (fun g' hg' j d hd hdg => ?_) h.recorded
        · cases hg'
          exact hok.guarded g (by rw [hp]; rfl) hc
        · -- the guard is free
          cases hg'
          exact absurd (held_iff.mpr ⟨d, List.mem_of_getElem? hd, hdg⟩) hfree
  | locked g =>
      simp only [hp] at hs
      cases hc : s.clients c.key with
      | some entry =>
          simp only [hc, Option.some.injEq] at hs
          exact hs ▸ h.return hc
      | none =>
          simp only [hc, Option.some.injEq] at hs
          obtain rfl := hs
          refine h.move rfl ⟨fun g' hg' hc => ?_, fun _ => hc,
            fun g client hp => by cases hp⟩
            (fun j d _ _ hd => hd) (h.lock_of_held hi fun g' hg' => ?_) h.recorded
          · cases hg'
            exact hok.guarded g (by rw [hp]; rfl) hc
          · rw [hp]
            exact hg'
  | created g client =>
      simp only [hp, Option.some.injEq] at hs
      obtain rfl := hs
      have hn := hok.making (by rw [hp]; rfl)
      have hg := hok.guarded g (by rw [hp]; rfl) hn
      refine h.move rfl ?_ (fun j d hj hd hdok => ?_) (h.lock_of_held hi fun g' hg' => ?_) ?_
      · refine ⟨?_, ?_, ?_⟩
        · intro g' hg' hc
          cases hg'
          exact hg
        · intro hm
          cases hm
        · intro g' client' hp'
          cases hp'
          exact Function.update_self ..
      · -- no other call of the key is making a client, or has stored one
        by_cases hkey : d.key = c.key
        · refine ⟨?_, ?_, ?_⟩
          · intro g' _ hc
            have hself : Function.update s.clients c.key (some client) d.key = some client :=
              hkey ▸ Function.update_self ..
            cases hself.symm.trans hc
          · intro hm
            obtain ⟨g', hg'⟩ := Phase.holds_of_making hm
            exact absurd (h.sole hi hd hkey hn (by rw [hp]; rfl) hg') hj
          · intro g' client' hp'
            have := hdok.stored g' client' hp'
            rw [hkey] at this
            cases hn.symm.trans this
        · exact hdok.other hkey
      · rw [hp]
        exact hg'
      · exact h.recorded.store hn
  | stored g client =>
      simp only [hp, Option.some.injEq] at hs
      obtain rfl := hs
      have hc := hok.stored g client hp
      refine h.move rfl (CallOk.idle rfl) (fun j d _ _ hd => hd.withoutGuard fun _ hn => ?_)
        (fun g hg => by cases hg) ?_
      · cases hc.symm.trans hn
      · refine h.recorded.cons (fun key a he => ?_) fun key a ha _ => ha
        cases he
        exact ⟨hc, hc⟩
  | initialising _ | returned _ | dropped =>
      simp only [hp] at hs
      cases hs

/-- A step that takes nothing from under a caller. -/
theorem Kept.step (h : Kept s) (hq : Quiet s a) (hs : Clients.step s a = some t) : Kept t := by
  cases a with
  | call key typ =>
      obtain rfl := Option.some.inj hs
      have hget : ∀ {j : Nat} {d : Call κ τ}, (s.calls ++ [⟨key, typ, .fast⟩])[j]? = some d →
          s.calls[j]? = some d ∨ d.phase = .fast := by
        intro j d hd
        rcases get_concat hd with hd | ⟨_, rfl⟩
        · exact Or.inl hd
        · exact Or.inr rfl
      refine ⟨?_, ?_, h.recorded⟩
      · intro j d hd
        rcases hget hd with hd | hp
        · exact h.calls j d hd
        · exact CallOk.idle (by rw [hp]; rfl)
      · intro j k d e g hd he hdg heg
        rcases hget hd with hd | hp
        · rcases hget he with he | hp
          · exact h.exclusive j k d e g hd he hdg heg
          · rw [hp] at heg
            cases heg
        · rw [hp] at hdg
          cases hdg
  | next i =>
      obtain ⟨c, hi, hs⟩ := Option.bind_eq_some_iff.mp hs
      exact h.advance hi hs
  | finish i ok =>
      obtain ⟨c, hi, hs⟩ := Option.bind_eq_some_iff.mp hs
      exact h.finish hi hs
  | drop i =>
      obtain ⟨c, hi, hs⟩ := Option.bind_eq_some_iff.mp hs
      split at hs
      · cases hs
      · obtain rfl := Option.some.inj hs
        exact h.end rfl
  | remove key =>
      obtain rfl := Option.some.inj hs
      refine ⟨?_, h.exclusive, ?_⟩
      · intro j d hd
        have hok := h.calls j d hd
        by_cases hkey : d.key = key
        · -- nobody is about to return the client that is taken
          have hquiet := hq d (List.mem_of_getElem? hd) hkey
          refine ⟨?_, ?_, ?_⟩
          · intro g hg _
            exact hkey ▸ (hquiet g hg).1
          · intro hm
            rw [hkey]
            exact Function.update_self ..
          · intro g client hp
            have := (hquiet g (by rw [hp]; rfl)).2
            rw [hp] at this
            cases this
        · exact hok.other hkey
      · refine h.recorded.cons (fun key' a he => ?_) fun key' a ha hne => ?_
        · cases he
        show Function.update s.clients key none key' = some a
        rw [Function.update_of_ne]
        · exact ha
        · rintro rfl
          exact hne _ rfl
  | removeGuard idx =>
      obtain ⟨key, hkey, rfl⟩ := Option.map_eq_some_iff.mp hs
      refine ⟨?_, h.exclusive, h.recorded⟩
      intro j d hd
      exact (h.calls j d hd).withoutGuard fun hk hn =>
        hq key hkey hn d (List.mem_of_getElem? hd) hk

/-- In a run in which `remove` takes nothing from under a caller, one
initialiser of a key runs at a time, and the calls between two removals of a
key get the same client. -/
theorem shared_of_quiet (h : (registry (κ := κ) (τ := τ)).ReachableBy Quiet s) :
    AtMostOne s ∧ Same s.log := by
  have hkept : Kept s := by
    refine h.invariant (fun s h0 => ?_) fun s a t hi ha hs => hi.step ha hs
    obtain rfl : s = .initial := h0
    refine ⟨?_, ?_, recorded_nil⟩
    · intro i c hi
      cases hi
    · intro i j c d g hi
      cases hi
  exact ⟨hkept.atMostOne, hkept.recorded.same⟩

/-- What there is to wait for or to remove is finitely much. -/
instance (s : State κ τ) : ∀ a, Decidable (Quiet s a)
  | .remove key =>
      have := fun c : Call κ τ => Option.decidableForallMem (o := c.phase.guard)
        (p := fun g => s.initGuards key = some g ∧ c.phase.storing = false)
      inferInstanceAs (Decidable (∀ c ∈ s.calls, c.key = key → ∀ g ∈ c.phase.guard,
        s.initGuards key = some g ∧ c.phase.storing = false))
  | .removeGuard idx =>
      inferInstanceAs (Decidable (∀ key ∈ s.removals[idx]?,
        s.clients key = none → ∀ c ∈ s.calls, c.key = key → c.phase.guard = none))
  | .call _ _ | .next _ | .finish _ _ | .drop _ => .isTrue trivial

/-- A call of `get_or_init` up to where it runs its initialiser. -/
def begins (key : κ) (typ : τ) (i : Nat) : List (Act κ τ) :=
  [Act.call key typ, .next i, .next i, .next i, .next i]

/-- Its initialiser makes a client, which it stores and returns. -/
def ends (i : Nat) : List (Act κ τ) := [Act.finish i true, .next i, .next i]

/-- Two calls share a client; nobody uses the guard when it is removed. -/
theorem shared_of_quiet_twice :
    ∃ s : State Nat Unit, s.log = [.removed 7 true, .got 7 ⟨(), 0⟩, .got 7 ⟨(), 0⟩] ∧
      AtMostOne s ∧ Same s.log := by
  have hrun : ((registry.exec Quiet State.initial (begins 7 () 0 ++ ends 0 ++
      [Act.call 7 (), .next 1, .remove 7, .removeGuard 0])).any fun s =>
        s.log == [.removed 7 true, .got 7 ⟨(), 0⟩, .got 7 ⟨(), 0⟩]) = true := by
    decide
  obtain ⟨s, hr, hs⟩ := Machine.exists_of_exec hrun
  exact ⟨s, beq_iff_eq.mp hs, shared_of_quiet ⟨_, _, rfl, hr⟩⟩

/-- The client is removed while the first call initialises it.  A second call
makes a guard of its own and initialises it too; a third one is given the client
of the first, and the second one its own. -/
theorem two_initialisers_after_remove :
    let R := registry (κ := Nat) (τ := Unit)
    (∃ s, R.Reachable s ∧ ¬ AtMostOne s) ∧
      ∃ s, R.Reachable s ∧ ¬ Same s.log ∧
        s.log = [.got 7 ⟨(), 1⟩, .got 7 ⟨(), 0⟩, .got 7 ⟨(), 0⟩, .removed 7 false] := by
  intro R
  constructor
  · have hrun : ((R.exec (fun _ _ => True) State.initial
        (begins 7 () 0 ++ [Act.remove 7, .removeGuard 0] ++ begins 7 () 1)).any
          fun s : State Nat Unit => s.calls[0]?.any fun c : Call Nat Unit =>
            s.calls[1]?.any fun d : Call Nat Unit =>
              c.key == d.key && c.phase.inits && d.phase.inits) = true := by
      decide
    obtain ⟨s, hr, hs⟩ := Machine.exists_of_exec hrun
    obtain ⟨c, hc, hs⟩ := (Option.any_eq_true ..).mp hs
    obtain ⟨d, hd, hs⟩ := (Option.any_eq_true ..).mp hs
    simp only [Bool.and_eq_true, beq_iff_eq] at hs
    refine ⟨s, ⟨State.initial, _, rfl, hr⟩, ?_⟩
    intro hone
    have := hone 0 1 c d hc hd hs.1.1 hs.1.2 hs.2
    cases this
  · have hrun : ((R.exec (fun _ _ => True) State.initial
        (begins 7 () 0 ++ [Act.remove 7, .removeGuard 0] ++ begins 7 () 1 ++ ends 0 ++
          [Act.call 7 (), .next 2] ++ ends 1)).any fun s =>
        s.log == [.got 7 ⟨(), 1⟩, .got 7 ⟨(), 0⟩, .got 7 ⟨(), 0⟩, .removed 7 false]) = true := by
      decide
    obtain ⟨s, hr, hs⟩ := Machine.exists_of_exec hrun
    have hlog := beq_iff_eq.mp hs
    refine ⟨s, ⟨State.initial, _, rfl, hr⟩, ?_, hlog⟩
    intro hsame
    have := hsame [] [] _ 7 _ _ hlog fun found hf => by cases hf
    cases this

end Steps

end Flowgen.Clients
