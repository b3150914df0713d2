/-
# `Flowgen.Lease.Election` — the lease loops of all executors (`core/src/task/manager.rs`)

Every executor that wants to run the flow has one lease task: an acquisition
loop until the lease is granted, a renewal loop while it lasts, and back.  The
flow is sent `Leader` when the lease is granted, and `NotLeader` before the
lease is handed over or when it turns out to be lost.

`election` interleaves the loops of any number of executors over one shared
lease key, one call at a time.  The environment decides

* when a call takes effect and is answered (`serve`), when it fails for its
  caller (`lose`), and when a request whose caller has given up takes effect
  after all, if ever (`deliver`);
* how time passes (`tick`), for all executors alike, and when the cache
  removes an entry whose time to live is over (`expire`);
* what the peer registry says about handing the lease over (`react`), when a
  flow ends (`close`), and when a pod stops or starts over (`shutdown`,
  `register`).

Checks of the peer registry and of the current owner that only delay an
attempt are not steps: an attempt may start at any time.
-/
import Flowgen.Lib.Machine
import Flowgen.Lease.Executor

namespace Flowgen.Lease

open Flowgen.Lib Flowgen.Cache

/-- Where the lease task of an executor is; a program is a call of an executor
operation under way, or its result. -/
inductive Phase (ι : Type)
  | acquiring (attempt : Option (LeaseProg ι (LeaseResult ι)))
  | renewing (generation : Nat) (renewal : Option (LeaseProg ι (RenewalResult ι)))
  | handingOver (release : LeaseProg ι Unit)
  | stopping (release : LeaseProg ι Unit)
  | gone

/-- `LeaseTask` and its flow: `leading` is what the flow was last sent, and
`closed` says that its receiver is gone. -/
structure Node (ι : Type) where
  phase : Phase ι := .acquiring none
  currentRevision : Nat := 0
  leading : Bool := false
  closed : Bool := false

structure State (ι : Type) where
  now : Nat
  lease : LeaseKey ι
  node : ι → Node ι
  /-- Requests that are still on their way although nobody waits for them. -/
  stray : List (ι × Req ι)

inductive Act (ι : Type)
  | tick (secs : Nat)
  | expire (revision : Nat) (marker : Bool)
  | start (e : ι)
  | serve (e : ι) (c : Choice)
  | lose (e : ι)
  | deliver (idx : Nat) (c : Choice)
  | react (e : ι) (handOver : Bool)
  | close (e : ι)
  | shutdown (e : ι)
  | register (e : ι)

variable {ι : Type}

/-- The call a phase waits for. -/
def Phase.pending : Phase ι → Option (Req ι)
  | .acquiring (some p) => p.pending
  | .renewing _ (some p) => p.pending
  | .handingOver p => p.pending
  | .stopping p => p.pending
  | _ => none

/-- Answers the pending call of a phase. -/
def Phase.answer {β : Type} (f : (r : Req ι) → Option (r.Reply × β)) :
    Phase ι → Option (Phase ι × β)
  | .acquiring (some p) => (p.answer f).map fun (p, b) => (.acquiring (some p), b)
  | .renewing generation (some p) =>
      (p.answer f).map fun (p, b) => (.renewing generation (some p), b)
  | .handingOver p => (p.answer f).map fun (p, b) => (.handingOver p, b)
  | .stopping p => (p.answer f).map fun (p, b) => (.stopping p, b)
  | _ => none

/-- What a loop does with the result of its operation.  `handOver` is the
answer of `should_hand_over`; a flow that is gone is not told anything. -/
def Node.react (n : Node ι) (handOver : Bool) : Option (Node ι) :=
  match n.phase with
  | .acquiring (some (.ret (.ok (.acquired revision generation)))) =>
      if n.closed then some { n with currentRevision := revision, phase := .gone }
      else some { n with currentRevision := revision, phase := .renewing generation none, leading := true }
  | .acquiring (some (.ret (.ok (.takenOver revision generation)))) =>
      if n.closed then some { n with currentRevision := revision, phase := .gone }
      else some { n with currentRevision := revision, phase := .renewing generation none, leading := true }
  | .acquiring (some (.ret (.ok (.heldByOther _)))) => some { n with phase := .acquiring none }
  | .acquiring (some (.ret (.error _))) => some { n with phase := .acquiring none }
  | .renewing generation (some (.ret (.ok (.renewed revision)))) =>
      if handOver && !n.closed then
        -- `hand_over`: `NotLeader` is sent before the lease is released
        some
          { n with
            currentRevision := revision
            leading := false
            phase := .handingOver (releaseLeaseWithRevision revision) }
      else some { n with currentRevision := revision, phase := .renewing generation none }
  | .renewing _ (some (.ret (.ok (.lostOwnership _)))) =>
      if n.closed then some { n with phase := .gone }
      else some { n with leading := false, phase := .acquiring none }
  | .renewing _ (some (.ret (.ok .leaseDeleted))) =>
      if n.closed then some { n with phase := .gone }
      else some { n with leading := false, phase := .acquiring none }
  | .renewing generation (some (.ret (.error _))) =>
      -- transient errors: retry on the next interval
      some { n with phase := .renewing generation none }
  | .handingOver (.ret _) => some { n with phase := .acquiring none }
  | .stopping (.ret _) => some { n with phase := .gone }
  | _ => none

section Step

variable [DecidableEq ι] (config : LeaseConfig) (valid : config.validate = .ok ())

/-- The executor of a pod. -/
def executor (e : ι) : Executor ι := ⟨e, config, valid⟩

/-- The next attempt or renewal begins. -/
def Node.start (e : ι) (n : Node ι) : Option (Node ι) :=
  match n.phase with
  | .acquiring none =>
      some { n with phase := .acquiring (some (acquireLease (executor config valid e))) }
  | .renewing generation none =>
      some { n with
        phase := .renewing generation
          (some (renewLease (executor config valid e) n.currentRevision generation)) }
  | _ => none

def State.set (s : State ι) (e : ι) (n : Node ι) : State ι :=
  { s with node := Function.update s.node e n }

/-- The task of `e` is aborted: nobody waits any more for a request it sent. -/
def State.abandon (s : State ι) (e : ι) : State ι :=
  { s with stray := s.stray ++ (s.node e).phase.pending.toList.map (e, ·) }

/-- The entry whose time to live, counted from its last renewal, is over. -/
def expired (s : State ι) : Bool :=
  s.lease.current.any fun w =>
    w.content.any fun m => m.renewedAt + m.leaseDurationSecs ≤ s.now

def step (s : State ι) : Act ι → Option (State ι)
  | .tick secs => some { s with now := s.now + secs }
  | .expire revision marker =>
      if expired s then
        (s.lease.push ⟨revision, none, none⟩ marker).map fun lease => { s with lease := lease }
      else none
  | .start e => ((s.node e).start config valid e).map (s.set e)
  | .serve e c =>
      ((s.node e).phase.answer (Lease.serve e s.now c s.lease)).map fun (phase, lease) =>
        { s.set e { s.node e with phase := phase } with lease := lease }
  | .lose e =>
      ((s.node e).phase.answer fun r => r.failed.map (·, r)).map fun (phase, r) =>
        { s.set e { s.node e with phase := phase } with stray := s.stray ++ [(e, r)] }
  | .deliver idx c =>
      match s.stray[idx]? with
      | some (e, r) =>
          (Lease.serve e s.now c s.lease r).map fun (_, lease) =>
            { s with lease := lease, stray := s.stray.eraseIdx idx }
      | none => none
  | .react e handOver => ((s.node e).react handOver).map (s.set e)
  | .close e => some (s.set e { s.node e with closed := true, leading := false })
  | .shutdown e =>
      some ((s.abandon e).set e
        { s.node e with
          closed := true
          leading := false
          phase := .stopping (shutdownLease (executor config valid e)) })
  | .register e => some ((s.abandon e).set e {})

/-- Every executor is about to compete for a lease that has not been written yet. -/
def State.initial (now : Nat) : State ι :=
  { now := now, lease := .empty, node := fun _ => {}, stray := [] }

def election : Machine (State ι) (Act ι) where
  init s := ∃ now, s = .initial now
  step := step config valid

/-- The calls to the cache of `e`, each answered at once; a call that writes
gets the revision. -/
def serves (e : ι) (revisions : List Nat) : List (Act ι) :=
  revisions.map fun revision => .serve e ⟨revision, true, false⟩

end Step

/-! ## What a lease task knows -/

/-- Some value that `e` wrote, as the holder, has this revision. -/
def Owned (e : ι) (reg : LeaseKey ι) (ρ : Nat) : Prop :=
  ∃ w ∈ reg.log, w.revision = ρ ∧ w.writer = some e ∧ ∃ m, w.content = some m

/-- Values are written by the holder they name. -/
def Named (reg : LeaseKey ι) : Prop :=
  ∀ w ∈ reg.log, ∀ m, w.content = some m → w.writer = some m.holderIdentity

/-- What a reply tells `e` about its own writes is so. -/
def Truthful (e : ι) (reg : LeaseKey ι) : (r : Req ι) → r.Reply → Prop
  | .create _, x => ∀ ρ, x = Except.ok ρ → Owned e reg ρ
  | .update _ _, x => ∀ ρ, x = Except.ok ρ → Owned e reg ρ
  | .getWithRevision, x =>
      ∀ m ρ, x = Except.ok (some (m, ρ)) → m.holderIdentity = e → Owned e reg ρ
  | _, _ => True

/-- A request of `e` stores no other holder, and deletes only what `e` wrote. -/
def Fair (e : ι) (reg : LeaseKey ι) (r : Req ι) : Prop :=
  (∀ m ∈ r.value, m.holderIdentity = e) ∧ ∀ ρ, r = .deleteWithRevision ρ → Owned e reg ρ

/-- A release under way, or its result. -/
def ReleaseOf (e : ι) (reg : LeaseKey ι) (p : LeaseProg ι Unit) : Prop :=
  (∃ res, p = .ret res) ∨ ∃ ρ, p = releaseLeaseWithRevision ρ ∧ Owned e reg ρ

/-- What is known of a lease task from its phase alone. -/
def Phase.Sound [DecidableEq ι] (e : ι) (reg : LeaseKey ι) : Phase ι → Prop
  | .acquiring (some p) =>
      p.Within (WritesOwn e) AcquirePost ∧ ∀ res, p = .ret res → ∀ ρ ∈ granted res, Owned e reg ρ
  | .renewing _ (some p) =>
      p.Within (WritesOwn e) RenewPost ∧ ∀ res, p = .ret res → ∀ ρ ∈ renewed res, Owned e reg ρ
  | .handingOver p => ReleaseOf e reg p
  | .stopping p =>
      ReleaseOf e reg p ∨ ∃ ex : Executor ι, ex.identity = e ∧ p = shutdownLease ex
  | _ => True

/-- Only a task that renews has told its flow to lead, and it remembers a
write of its own. -/
structure Node.Sound [DecidableEq ι] (e : ι) (reg : LeaseKey ι) (n : Node ι) : Prop where
  phase : n.phase.Sound e reg
  leading : n.leading = true → ∃ generation p, n.phase = .renewing generation p
  remembers : ∀ generation p, n.phase = .renewing generation p → Owned e reg n.currentRevision
  closed : n.closed = true → n.leading = false

structure Orderly [DecidableEq ι] (s : State ι) : Prop where
  named : Named s.lease
  node : ∀ e, (s.node e).Sound e s.lease
  stray : ∀ q ∈ s.stray, Fair q.1 s.lease q.2

variable {e writer : ι} {reg reg' : LeaseKey ι} {ρ now : Nat} {c : Choice}

theorem Owned.mono (h : Owned e reg ρ) (hl : reg.log ⊆ reg'.log) : Owned e reg' ρ := by
  obtain ⟨w, hw, hr⟩ := h
  exact ⟨w, hl hw, hr⟩

theorem Owned.mem_revision (h : Owned e reg ρ) : ρ ∈ reg.log.map (·.revision) := by
  obtain ⟨w, hw, hr, _⟩ := h
  exact List.mem_map.mpr ⟨w, hw, hr⟩

theorem Fair.mono {r : Req ι} (h : Fair e reg r) (hl : reg.log ⊆ reg'.log) : Fair e reg' r :=
  ⟨h.1, fun ρ hr => (h.2 ρ hr).mono hl⟩

theorem fair_of_writesOwn {r : Req ι} (h : WritesOwn e r) : Fair e reg r :=
  ⟨h.1, fun ρ hr => (h.2 ρ hr).elim⟩

theorem fair_read {r : Req ι} (hv : r.value = none) (hd : ∀ ρ, r ≠ .deleteWithRevision ρ) :
    Fair e reg r :=
  fair_of_writesOwn (writesOwn_read hv hd)

theorem Truthful.wrote {r : Req ι} {x : r.Reply} (h : Truthful e reg r x) (hw : Wrote ρ r x) :
    Owned e reg ρ := by
  cases r with
  | create _ => exact h ρ hw
  | update _ _ => exact h ρ hw
  | _ => exact hw.elim

theorem owned_push {m : Metadata ι} (h : reg.push ⟨ρ, some e, some m⟩ true = some reg') :
    Owned e reg' ρ := by
  obtain ⟨_, hlog, _⟩ := Register.push_eq_some h
  exact ⟨_, hlog ▸ List.mem_cons_self, rfl, rfl, m, rfl⟩

/-- A call only adds to the log. -/
theorem serve_suffix {r : Req ι} {x : r.Reply} (h : serve writer now c reg r = some (x, reg')) :
    reg.log <:+ reg'.log := by
  obtain ⟨rfl, _⟩ | ⟨_, _, hp, _⟩ | ⟨_, _, _, hp⟩ := serve_cases h
  · exact List.suffix_refl _
  · exact Register.log_suffix hp
  · exact Register.log_suffix hp

theorem serve_log {r : Req ι} {x : r.Reply} (h : serve writer now c reg r = some (x, reg')) :
    reg.log ⊆ reg'.log :=
  (serve_suffix h).subset

theorem Named.push {w : Write ι (Metadata ι)} {v : Bool} (hn : Named reg)
    (hp : reg.push w v = some reg') (hw : ∀ m, w.content = some m → w.writer = some m.holderIdentity) :
    Named reg' := by
  obtain ⟨_, hlog, _⟩ := Register.push_eq_some hp
  intro w' hw' m hm
  rw [hlog] at hw'
  rcases List.mem_cons.mp hw' with rfl | hw'
  · exact hw m hm
  · exact hn w' hw' m hm

theorem serve_named {r : Req ι} {x : r.Reply} (hn : Named reg) (hf : Fair writer reg r)
    (h : serve writer now c reg r = some (x, reg')) : Named reg' := by
  obtain ⟨rfl, _⟩ | ⟨m, hm, hp, _⟩ | ⟨_, _, _, hp⟩ := serve_cases h
  · exact hn
  · refine hn.push hp fun m' hm' => ?_
    cases hm'
    rw [hf.1 m hm]
  · exact hn.push hp (by simp)

theorem serve_truthful {r : Req ι} {x : r.Reply} (hn : Named reg)
    (h : serve writer now c reg r = some (x, reg')) : Truthful writer reg' r x := by
  have hw : ∀ ρ, Wrote ρ r x → Owned writer reg' ρ := by
    intro ρ hρ
    obtain ⟨_, hno⟩ | ⟨m, _, hp, hrev, _⟩ | ⟨_, rfl, _, _⟩ := serve_cases h
    · exact (hno ρ hρ).elim
    · exact hrev ρ hρ ▸ owned_push hp
    · exact hρ.elim
  cases r with
  | create _ =>
      intro ρ hx
      exact hw ρ hx
  | update _ _ =>
      intro ρ hx
      exact hw ρ hx
  | getWithRevision =>
      cases h
      intro m ρ hx hm
      obtain ⟨w, hw, hc⟩ := Option.bind_eq_some_iff.mp (Except.ok.inj hx)
      obtain ⟨m', hm', he⟩ := Option.map_eq_some_iff.mp hc
      cases he
      have hmem := Register.current_mem hw
      exact ⟨w, hmem, rfl, hm ▸ hn w hmem m hm', m, hm'⟩
  | _ => trivial

theorem failed_truthful {r : Req ι} {x : r.Reply} (h : r.failed = some x) :
    Truthful e reg r x := by
  cases r <;> cases h <;> simp [Truthful]

theorem failed_not_wrote {r : Req ι} {x : r.Reply} (h : r.failed = some x) : ¬ Wrote ρ r x := by
  cases r <;> cases h <;> simp [Wrote]

/-! ### The phases -/

/-- The call `r` that `ph` waits for is answered by `x`. -/
inductive Phase.Resumes : Phase ι → (r : Req ι) → r.Reply → Phase ι → Prop
  | acquiring {r : Req ι} {x : r.Reply} (k : r.Reply → LeaseProg ι (LeaseResult ι)) :
      Resumes (.acquiring (some (.call r k))) r x (.acquiring (some (k x)))
  | renewing {r : Req ι} {x : r.Reply} (generation : Nat)
      (k : r.Reply → LeaseProg ι (RenewalResult ι)) :
      Resumes (.renewing generation (some (.call r k))) r x (.renewing generation (some (k x)))
  | handingOver {r : Req ι} {x : r.Reply} (k : r.Reply → LeaseProg ι Unit) :
      Resumes (.handingOver (.call r k)) r x (.handingOver (k x))
  | stopping {r : Req ι} {x : r.Reply} (k : r.Reply → LeaseProg ι Unit) :
      Resumes (.stopping (.call r k)) r x (.stopping (k x))

variable {ph ph' : Phase ι} {r : Req ι} {x : r.Reply}

theorem Phase.answer_eq_some {β : Type} {f : (r : Req ι) → Option (r.Reply × β)} {b : β}
    (h : ph.answer f = some (ph', b)) :
    ∃ r x, f r = some (x, b) ∧ ph.pending = some r ∧ ph.Resumes r x ph' := by
  unfold Phase.answer at h
  split at h
  · obtain ⟨⟨p', b'⟩, hp, he⟩ := Option.map_eq_some_iff.mp h
    obtain ⟨r, k, x, rfl, hf, rfl⟩ := Prog.answer_eq_some hp
    cases he
    exact ⟨r, x, hf, rfl, .acquiring k⟩
  · obtain ⟨⟨p', b'⟩, hp, he⟩ := Option.map_eq_some_iff.mp h
    obtain ⟨r, k, x, rfl, hf, rfl⟩ := Prog.answer_eq_some hp
    cases he
    exact ⟨r, x, hf, rfl, .renewing _ k⟩
  · obtain ⟨⟨p', b'⟩, hp, he⟩ := Option.map_eq_some_iff.mp h
    obtain ⟨r, k, x, rfl, hf, rfl⟩ := Prog.answer_eq_some hp
    cases he
    exact ⟨r, x, hf, rfl, .handingOver k⟩
  · obtain ⟨⟨p', b'⟩, hp, he⟩ := Option.map_eq_some_iff.mp h
    obtain ⟨r, k, x, rfl, hf, rfl⟩ := Prog.answer_eq_some hp
    cases he
    exact ⟨r, x, hf, rfl, .stopping k⟩
  · cases h

/-- What `e` has been granted and not yet told its flow. -/
def Phase.granted : Phase ι → Option Nat
  | .acquiring (some (.ret res)) => Lease.granted res
  | _ => none

theorem ReleaseOf.mono {p : LeaseProg ι Unit} (h : ReleaseOf e reg p) (hl : reg.log ⊆ reg'.log) :
    ReleaseOf e reg' p := by
  rcases h with hret | ⟨ρ, hp, ho⟩
  · exact Or.inl hret
  · exact Or.inr ⟨ρ, hp, ho.mono hl⟩

theorem ReleaseOf.fair {k : r.Reply → LeaseProg ι Unit} (h : ReleaseOf e reg (.call r k)) :
    Fair e reg r := by
  rcases h with ⟨_, hret⟩ | ⟨ρ, hp, ho⟩
  · cases hret
  · cases hp
    refine ⟨?_, ?_⟩
    · intro m hm
      cases hm
    · intro ρ' hr
      cases hr
      exact ho

theorem ReleaseOf.resume {k : r.Reply → LeaseProg ι Unit} (h : ReleaseOf e reg (.call r k)) :
    ReleaseOf e reg' (k x) := by
  rcases h with ⟨_, hret⟩ | ⟨ρ, hp, _⟩
  · cases hret
  · cases hp
    exact Or.inl ⟨x, rfl⟩

theorem State.mem_abandon {s : State ι} {q : ι × Req ι} (h : q ∈ (s.abandon e).stray) :
    q ∈ s.stray ∨ q.1 = e ∧ (s.node e).phase.pending = some q.2 := by
  rcases List.mem_append.mp h with h | h
  · exact Or.inl h
  · obtain ⟨r, hr, rfl⟩ := List.mem_map.mp h
    exact Or.inr ⟨rfl, Option.mem_toList.mp hr⟩

section Sound

variable [DecidableEq ι]

/-- Having read who owns the lease, `shutdown` deletes a write of its own, if anything. -/
theorem shutdownLease_resume {ex : Executor ι} {k : r.Reply → LeaseProg ι Unit}
    (h : (Prog.call r k : LeaseProg ι Unit) = shutdownLease ex)
    (ht : Truthful ex.identity reg r x) : ReleaseOf ex.identity reg (k x) := by
  cases h
  rcases x with err | _ | ⟨m, ρ⟩
  · exact Or.inl ⟨_, rfl⟩
  · exact Or.inl ⟨_, rfl⟩
  · by_cases hm : m.holderIdentity = ex.identity
    · refine Or.inr ⟨ρ, ?_, ht m ρ rfl hm⟩
      simp [Prog.bind, hm]
    · refine Or.inl ⟨.ok (), ?_⟩
      simp [Prog.bind, hm]

theorem Phase.Sound.mono (h : ph.Sound e reg) (hl : reg.log ⊆ reg'.log) : ph.Sound e reg' := by
  rcases ph with (_ | p) | ⟨g, _ | p⟩ | p | p | _
  · trivial
  · exact ⟨h.1, fun res hp ρ hρ => (h.2 res hp ρ hρ).mono hl⟩
  · trivial
  · exact ⟨h.1, fun res hp ρ hρ => (h.2 res hp ρ hρ).mono hl⟩
  · exact ReleaseOf.mono h hl
  · exact h.imp (fun hr => hr.mono hl) id
  · trivial

theorem Phase.Sound.fair (h : ph.Sound e reg) (hp : ph.pending = some r) : Fair e reg r := by
  rcases ph with (_ | p | ⟨r', k⟩) | ⟨g, _ | p | ⟨r', k⟩⟩ | (p | ⟨r', k⟩) | (p | ⟨r', k⟩) | _ <;> cases hp
  · exact fair_of_writesOwn h.1.1
  · exact fair_of_writesOwn h.1.1
  · exact ReleaseOf.fair h
  · rcases h with hr | ⟨ex, _, hs⟩
    · exact hr.fair
    · cases hs
      exact fair_read rfl (by simp)

theorem Phase.Resumes.sound (h : ph.Resumes r x ph') (hs : ph.Sound e reg)
    (ht : Truthful e reg' r x) : ph'.Sound e reg' := by
  cases h with
  | acquiring k =>
      exact ⟨(hs.1.2 x).1, fun res hk ρ hρ => ht.wrote ((hs.1.2 x).2 res hk ρ hρ)⟩
  | renewing g k =>
      exact ⟨(hs.1.2 x).1, fun res hk ρ hρ => ht.wrote ((hs.1.2 x).2 res hk ρ hρ)⟩
  | handingOver k => exact ReleaseOf.resume hs
  | stopping k =>
      rcases hs with hr | ⟨ex, rfl, hp⟩
      · exact Or.inl hr.resume
      · exact Or.inl (shutdownLease_resume hp ht)

/-- A lease is granted by the reply to a write. -/
theorem Phase.Resumes.granted (h : ph.Resumes r x ph') (hs : ph.Sound e reg)
    (hρ : ρ ∈ ph'.granted) : Wrote ρ r x := by
  cases h with
  | acquiring k =>
      cases hk : k x with
      | ret res =>
          rw [hk] at hρ
          exact (hs.1.2 x).2 res hk ρ hρ
      | call _ _ =>
          rw [hk] at hρ
          cases hρ
  | _ => cases hρ

/-! ### The tasks and the whole election -/

variable {n n' : Node ι} {config : LeaseConfig} {valid : config.validate = .ok ()}

theorem Node.Sound.mono (h : n.Sound e reg) (hl : reg.log ⊆ reg'.log) : n.Sound e reg' where
  phase := h.phase.mono hl
  leading := h.leading
  remembers g p hp := (h.remembers g p hp).mono hl
  closed := h.closed

/-- A task that does not renew and does not lead knows only its phase. -/
theorem Node.sound_of_phase (h : n.phase.Sound e reg) (hl : n.leading = false)
    (hr : ∀ g p, n.phase ≠ .renewing g p) : n.Sound e reg where
  phase := h
  leading ht := by simp [hl] at ht
  remembers g p hp := (hr g p hp).elim
  closed _ := hl

theorem Node.Sound.not_leading (h : n.Sound e reg) (hr : ∀ g p, n.phase ≠ .renewing g p) :
    n.leading = false := by
  rw [← Bool.not_eq_true]
  intro hl
  obtain ⟨g, p, hp⟩ := h.leading hl
  exact hr g p hp

theorem Node.Sound.start (h : n.Sound e reg) (hs : n.start config valid e = some n') :
    n'.Sound e reg := by
  rw [Node.start] at hs
  split at hs
  · rename_i hp
    cases hs
    refine Node.sound_of_phase ⟨acquireLease_within (executor config valid e), ?_⟩ ?_ (by simp)
    · exact nofun
    · exact h.not_leading (by simp [hp])
  · rename_i g hp
    cases hs
    refine ⟨⟨renewLease_within (executor config valid e) _ _, ?_⟩, fun _ => ⟨_, _, rfl⟩, ?_, h.closed⟩
    · exact nofun
    · intro _ _ _
      exact h.remembers g none hp
  · cases hs

theorem Node.Sound.resume (h : n.Sound e reg) (hl : reg.log ⊆ reg'.log)
    (hr : n.phase.Resumes r x ph') (ht : Truthful e reg' r x) :
    ({ n with phase := ph' } : Node ι).Sound e reg' where
  phase := hr.sound h.phase ht
  leading hlead := by
    obtain ⟨g, p, hp⟩ := h.leading hlead
    rw [hp] at hr
    cases hr with
    | renewing g k => exact ⟨g, _, rfl⟩
  remembers g p hp := by
    obtain rfl : ph' = .renewing g p := hp
    generalize hq : n.phase = ph at hr
    cases hr with
    | renewing g k => exact (h.remembers g _ hq).mono hl
  closed := h.closed

/-- A task that has acquired the lease remembers its write, and leads unless it is being
closed. -/
theorem Node.sound_of_acquired {generation : Nat} (hidle : n.leading = false)
    (ho : Owned e reg ρ)
    (hr : (if n.closed then some { n with currentRevision := ρ, phase := .gone }
      else some
        { n with
          currentRevision := ρ
          phase := .renewing generation none
          leading := true }) = some n') : n'.Sound e reg := by
  split at hr
  · cases hr
    exact Node.sound_of_phase trivial hidle (by simp)
  · rename_i hc
    cases hr
    exact ⟨trivial, fun _ => ⟨_, _, rfl⟩, fun _ _ _ => ho, fun hc' => (hc hc').elim⟩

/-- A task that has lost the lease leads no more. -/
theorem Node.Sound.deposed (h : n.Sound e reg)
    (hr : (if n.closed then some { n with phase := .gone }
      else some { n with leading := false, phase := .acquiring none }) = some n') :
    n'.Sound e reg := by
  split at hr
  · rename_i hc
    cases hr
    exact Node.sound_of_phase trivial (h.closed hc) (by simp)
  · cases hr
    exact Node.sound_of_phase trivial rfl (by simp)

/-- What a task takes over from a result is what the result is known to say. -/
theorem Node.Sound.react {handOver : Bool} (h : n.Sound e reg)
    (hr : n.react handOver = some n') : n'.Sound e reg := by
  have hph := h.phase
  have idle : (∀ g p, n.phase ≠ .renewing g p) → n.leading = false := h.not_leading
  rw [Node.react] at hr
  split at hr
  -- an acquisition attempt has ended
  · rename_i hp
    rw [hp] at hph
    exact Node.sound_of_acquired (idle (by simp [hp])) (hph.2 _ rfl _ rfl) hr
  · rename_i hp
    rw [hp] at hph
    exact Node.sound_of_acquired (idle (by simp [hp])) (hph.2 _ rfl _ rfl) hr
  · rename_i hp
    cases hr
    exact Node.sound_of_phase trivial (idle (by simp [hp])) (by simp)
  · rename_i hp
    cases hr
    exact Node.sound_of_phase trivial (idle (by simp [hp])) (by simp)
  -- a renewal has ended
  · rename_i hp
    rw [hp] at hph
    have ho := hph.2 _ rfl _ rfl
    split at hr <;> cases hr
    · exact Node.sound_of_phase (Or.inr ⟨_, rfl, ho⟩) rfl (by simp)
    · exact ⟨trivial, fun _ => ⟨_, _, rfl⟩, fun _ _ _ => ho, h.closed⟩
  · exact h.deposed hr
  · exact h.deposed hr
  · rename_i hp
    cases hr
    exact ⟨trivial, fun _ => ⟨_, _, rfl⟩, fun _ _ _ => h.remembers _ _ hp, h.closed⟩
  -- a release has ended
  · rename_i hp
    cases hr
    exact Node.sound_of_phase trivial (idle (by simp [hp])) (by simp)
  · rename_i hp
    cases hr
    exact Node.sound_of_phase trivial (idle (by simp [hp])) (by simp)
  · cases hr

theorem Node.Sound.close (h : n.Sound e reg) :
    ({ n with closed := true, leading := false } : Node ι).Sound e reg where
  phase := h.phase
  leading ht := by cases ht
  remembers := h.remembers
  closed _ := rfl

variable {s t : State ι} {a : Act ι}

/-- The task of `e` changes, and the lease, and requests are given up. -/
theorem Orderly.of_set (h : Orderly s) {stray : List (ι × Req ι)} (hl : s.lease.log ⊆ reg.log)
    (hnamed : Named reg) (hn : n.Sound e reg)
    (hs : ∀ q ∈ stray, q ∈ s.stray ∨ q.1 = e ∧ (s.node e).phase.pending = some q.2) :
    Orderly { s.set e n with lease := reg, stray := stray } where
  named := hnamed
  node e' := by
    by_cases he : e' = e
    · subst he
      simpa [State.set] using hn
    · simpa [State.set, he] using (h.node e').mono hl
  stray q hq := by
    rcases hs q hq with hq | ⟨rfl, hp⟩
    · exact (h.stray q hq).mono hl
    · exact ((h.node _).phase.fair hp).mono hl

/-- A new write, whoever it is from. -/
theorem Orderly.of_lease (h : Orderly s) {stray : List (ι × Req ι)} (hl : s.lease.log ⊆ reg.log)
    (hnamed : Named reg) (hs : stray ⊆ s.stray) :
    Orderly { s with lease := reg, stray := stray } where
  named := hnamed
  node e := (h.node e).mono hl
  stray q hq := (h.stray q (hs hq)).mono hl

/-- Every step keeps what the lease tasks know true. -/
theorem Orderly.step (h : Orderly s) (hs : step config valid s a = some t) : Orderly t := by
  cases a with
  | tick secs =>
      cases hs
      exact ⟨h.named, h.node, h.stray⟩
  | expire revision marker =>
      simp only [Lease.step] at hs
      split at hs
      · obtain ⟨reg, hp, rfl⟩ := Option.map_eq_some_iff.mp hs
        exact h.of_lease (Register.log_subset hp) (h.named.push hp (by simp)) (List.Subset.refl _)
      · cases hs
  | start e =>
      obtain ⟨n, hn, rfl⟩ := Option.map_eq_some_iff.mp hs
      exact h.of_set (List.Subset.refl _) h.named ((h.node e).start hn) fun q hq => Or.inl hq
  | serve e c =>
      obtain ⟨⟨ph, reg⟩, hp, rfl⟩ := Option.map_eq_some_iff.mp hs
      obtain ⟨r, x, hx, hpend, hres⟩ := Phase.answer_eq_some hp
      have hl := serve_log hx
      have hn := serve_named h.named ((h.node e).phase.fair hpend) hx
      exact h.of_set hl hn ((h.node e).resume hl hres (serve_truthful h.named hx))
        fun q hq => Or.inl hq
  | lose e =>
      obtain ⟨⟨ph, r⟩, hp, rfl⟩ := Option.map_eq_some_iff.mp hs
      obtain ⟨r', x, hx, hpend, hres⟩ := Phase.answer_eq_some hp
      obtain ⟨y, hy, he⟩ := Option.map_eq_some_iff.mp hx
      cases he
      have hl : s.lease.log ⊆ s.lease.log := List.Subset.refl _
      refine h.of_set hl h.named ((h.node e).resume hl hres (failed_truthful hy)) fun q hq => ?_
      rcases List.mem_append.mp hq with hq | hq
      · exact Or.inl hq
      · rw [List.mem_singleton.mp hq]
        exact Or.inr ⟨rfl, hpend⟩
  | deliver idx c =>
      simp only [Lease.step] at hs
      split at hs
      · rename_i e r hq
        obtain ⟨⟨x, reg⟩, hx, rfl⟩ := Option.map_eq_some_iff.mp hs
        have hf := h.stray _ (List.mem_of_getElem? hq)
        exact h.of_lease (serve_log hx) (serve_named h.named hf hx) (List.eraseIdx_subset)
      · cases hs
  | react e handOver =>
      obtain ⟨n, hn, rfl⟩ := Option.map_eq_some_iff.mp hs
      exact h.of_set (List.Subset.refl _) h.named ((h.node e).react hn) fun q hq => Or.inl hq
  | close e =>
      cases hs
      exact h.of_set (List.Subset.refl _) h.named (h.node e).close fun q hq => Or.inl hq
  | shutdown e =>
      cases hs
      refine h.of_set (List.Subset.refl _) h.named ?_ fun q hq => State.mem_abandon hq
      exact Node.sound_of_phase (Or.inr ⟨executor config valid e, rfl, rfl⟩) rfl (by simp)
  | register e =>
      cases hs
      refine h.of_set (List.Subset.refl _) h.named ?_ fun q hq => State.mem_abandon hq
      exact Node.sound_of_phase trivial rfl (by simp)

/-! ### One task at a time -/

/-- What the step `a` from `s` to `t` does to the task of `e`. -/
inductive Moved (config : LeaseConfig) (valid : config.validate = .ok ()) (e : ι) (s t : State ι) :
    Act ι → Prop
  | still {a : Act ι} (hn : t.node e = s.node e) (ha : ∀ c, a ≠ .serve e c) : Moved config valid e s t a
  | start (hn : (s.node e).start config valid e = some (t.node e)) : Moved config valid e s t (.start e)
  | serve {c : Choice} {r : Req ι} {x : r.Reply} {ph' : Phase ι}
      (hx : Lease.serve e s.now c s.lease r = some (x, t.lease)) (hr : (s.node e).phase.Resumes r x ph')
      (hn : t.node e = { s.node e with phase := ph' }) : Moved config valid e s t (.serve e c)
  | lose {r : Req ι} {x : r.Reply} {ph' : Phase ι} (hx : r.failed = some x)
      (hr : (s.node e).phase.Resumes r x ph') (hn : t.node e = { s.node e with phase := ph' }) :
      Moved config valid e s t (.lose e)
  | react {handOver : Bool} (hn : (s.node e).react handOver = some (t.node e)) :
      Moved config valid e s t (.react e handOver)
  | close (hn : t.node e = { s.node e with closed := true, leading := false }) :
      Moved config valid e s t (.close e)
  | shutdown (hn : (t.node e).phase = .stopping (shutdownLease (executor config valid e))) :
      Moved config valid e s t (.shutdown e)
  | register (hn : t.node e = {}) : Moved config valid e s t (.register e)

theorem State.set_self (s : State ι) (e : ι) (n : Node ι) : (s.set e n).node e = n := by
  simp [State.set]

theorem State.set_ne (s : State ι) {e e' : ι} (n : Node ι) (h : e' ≠ e) :
    (s.set e n).node e' = s.node e' := by
  simp [State.set, h]

/-- A step moves one task at most, and adds to the log of the lease. -/
theorem step_moved (hs : step config valid s a = some t) (e : ι) :
    Moved config valid e s t a ∧ s.lease.log <:+ t.lease.log := by
  have hrefl : s.lease.log <:+ s.lease.log := List.suffix_refl _
  cases a with
  | tick secs =>
      cases hs
      exact ⟨.still rfl (by simp), hrefl⟩
  | expire revision marker =>
      simp only [Lease.step] at hs
      split at hs
      · obtain ⟨reg, hp, rfl⟩ := Option.map_eq_some_iff.mp hs
        exact ⟨.still rfl (by simp), Register.log_suffix hp⟩
      · cases hs
  | start e' =>
      obtain ⟨n, hn, rfl⟩ := Option.map_eq_some_iff.mp hs
      by_cases he : e = e'
      · subst he
        exact ⟨.start (by rwa [State.set_self]), hrefl⟩
      · exact ⟨.still (State.set_ne s n he) (by simp), hrefl⟩
  | serve e' c =>
      obtain ⟨⟨ph, reg⟩, hp, rfl⟩ := Option.map_eq_some_iff.mp hs
      obtain ⟨r, x, hx, _, hr⟩ := Phase.answer_eq_some hp
      by_cases he : e = e'
      · subst he
        exact ⟨.serve hx hr (State.set_self s e _), serve_suffix hx⟩
      · refine ⟨.still (State.set_ne s _ he) fun c' h => ?_, serve_suffix hx⟩
        cases h
        exact he rfl
  | lose e' =>
      obtain ⟨⟨ph, r⟩, hp, rfl⟩ := Option.map_eq_some_iff.mp hs
      obtain ⟨r', x, hx, _, hr⟩ := Phase.answer_eq_some hp
      obtain ⟨y, hy, heq⟩ := Option.map_eq_some_iff.mp hx
      cases heq
      by_cases he : e = e'
      · subst he
        exact ⟨.lose hy hr (State.set_self s e _), hrefl⟩
      · exact ⟨.still (State.set_ne s _ he) (by simp), hrefl⟩
  | deliver idx c =>
      simp only [Lease.step] at hs
      split at hs
      · obtain ⟨⟨x, reg⟩, hx, rfl⟩ := Option.map_eq_some_iff.mp hs
        exact ⟨.still rfl (by simp), serve_suffix hx⟩
      · cases hs
  | react e' handOver =>
      obtain ⟨n, hn, rfl⟩ := Option.map_eq_some_iff.mp hs
      by_cases he : e = e'
      · subst he
        exact ⟨.react (by rwa [State.set_self]), hrefl⟩
      · exact ⟨.still (State.set_ne s n he) (by simp), hrefl⟩
  | close e' =>
      cases hs
      by_cases he : e = e'
      · subst he
        exact ⟨.close (State.set_self s e _), hrefl⟩
      · exact ⟨.still (State.set_ne s _ he) (by simp), hrefl⟩
  | shutdown e' =>
      cases hs
      by_cases he : e = e'
      · subst he
        exact ⟨.shutdown (by rw [State.set_self]), hrefl⟩
      · exact ⟨.still (State.set_ne _ _ he) (by simp), hrefl⟩
  | register e' =>
      cases hs
      by_cases he : e = e'
      · subst he
        exact ⟨.register (State.set_self _ e _), hrefl⟩
      · exact ⟨.still (State.set_ne _ _ he) (by simp), hrefl⟩

theorem orderly_init (h : (election config valid).init s) : Orderly s := by
  obtain ⟨now, rfl⟩ := h
  refine ⟨nofun, ?_, nofun⟩
  intro e
  exact Node.sound_of_phase trivial rfl nofun

theorem orderly_of_reachable {ok : State ι → Act ι → Prop}
    (h : (election config valid).ReachableBy ok s) : Orderly s :=
  h.invariant (fun _ => orderly_init) fun _ _ _ ho _ hs => ho.step hs

end Sound

end Flowgen.Lease
