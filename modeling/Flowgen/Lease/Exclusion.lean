/-
# `Flowgen.Lease.Exclusion` — at most one executor leads

Only one pod is to run the flow at a time.  The lease names one holder at a
time, so all depends on whether the flow that was sent `Leader` is sent
`NotLeader` before another executor can be granted the lease.  It is not: a
renewal that fails is tried again at the next interval, and the loop never
looks at how long ago the last one succeeded.  Nor does an attempt that found
a deleted entry check, before it overwrites the revision it reads next, that
the entry is still deleted.

So the lease can be replaced while its holder still claims it, in two ways
that are runs of the code (`two_leaders_after_expiry`,
`two_leaders_at_deletion`).  In every other run nobody else leads
(`exclusive_of_keeps`): whatever the calls, failures, delayed requests,
releases and restarts of the executors do, the lease stays with an executor
that claims it.
-/
import Flowgen.Lease.Election

namespace Flowgen.Lease

open Flowgen.Lib Flowgen.Cache

variable {ι : Type}

/-- The flow leads, or its task has been granted the lease and will tell it so. -/
def Node.claims (n : Node ι) : Bool := n.leading || (!n.closed && n.phase.granted.isSome)

/-- The value that is current was written by `e`. -/
def Holds (e : ι) (reg : LeaseKey ι) : Prop :=
  ∃ w, reg.current = some w ∧ w.writer = some e ∧ ∃ m, w.content = some m

/-- At most one flow leads. -/
def State.Exclusive (s : State ι) : Prop :=
  ∀ e e', (s.node e).leading = true → (s.node e').leading = true → e = e'

/-- The lease belongs to somebody who claims it, and is not excepted. -/
def State.claimed (s : State ι) (except : ι → Bool) : Bool :=
  s.lease.current.any fun w => w.writer.any fun h => !except h && (s.node h).claims

/-- An update by `e` would be accepted and replace the lease of somebody else
who claims it. -/
def State.usurps [DecidableEq ι] (s : State ι) (e : ι) : Req ι → Bool
  | .update _ expectedRevision => s.lease.accepts expectedRevision && s.claimed (· = e)
  | _ => false

/-- The step does not take the lease from an executor that claims it: no
update replaces it, and its time to live does not end. -/
def Keeps [DecidableEq ι] (s : State ι) : Act ι → Prop
  | .expire _ _ => s.claimed (fun _ => false) = false
  | .serve e _ => ∀ r ∈ (s.node e).phase.pending, s.usurps e r = false
  | .deliver idx _ => ∀ q ∈ s.stray[idx]?, s.usurps q.1 q.2 = false
  | _ => True

instance [DecidableEq ι] (s : State ι) (a : Act ι) : Decidable (Keeps s a) :=
  match a with
  | .expire _ _ => inferInstanceAs (Decidable (s.claimed (fun _ => false) = false))
  | .serve e _ =>
      inferInstanceAs (Decidable (∀ r ∈ (s.node e).phase.pending, s.usurps e r = false))
  | .deliver idx _ => inferInstanceAs (Decidable (∀ q ∈ s.stray[idx]?, s.usurps q.1 q.2 = false))
  | .tick _ | .start _ | .lose _ | .react _ _ | .close _ | .shutdown _ | .register _ =>
      inferInstanceAs (Decidable True)

/-! ## The lease stays with an executor that claims it -/

/-- Who claims the lease holds it; and no request to delete it that an
executor gave up earlier can delete the lease it claims now. -/
structure Guarded [DecidableEq ι] (s : State ι) : Prop extends Orderly s where
  holds : ∀ e, (s.node e).claims = true → Holds e s.lease
  stale : ∀ e ρ, (e, .deleteWithRevision ρ) ∈ s.stray → (s.node e).claims = true →
    s.lease.accepts ρ = false

variable {e e' : ι} {reg reg' : LeaseKey ι} {ρ : Nat}

theorem Holds.unique (h : Holds e reg) (h' : Holds e' reg) : e = e' := by
  obtain ⟨w, hw, he, _⟩ := h
  obtain ⟨w', hw', he', _⟩ := h'
  cases hw.symm.trans hw'
  exact Option.some.inj (he.symm.trans he')

theorem holds_push {m : Metadata ι} (h : reg.push ⟨ρ, some e, some m⟩ true = some reg') :
    Holds e reg' :=
  ⟨_, Register.current_push h, rfl, m, rfl⟩

/-- A revision `e` wrote and that is still current makes `e` the holder. -/
theorem Owned.holds (h : Owned e reg ρ) (ha : reg.accepts ρ = true) : Holds e reg := by
  obtain ⟨w, hw, hr, hwr, hm⟩ := h
  obtain ⟨w', hw', hr'⟩ := Register.accepts_iff.mp ha
  obtain rfl := Register.eq_of_revision hw (Register.current_mem hw') (hr.trans hr'.symm)
  exact ⟨w, hw', hwr, hm⟩

/-- Every revision known before a write is stale after it. -/
theorem Owned.stale {w : Write ι (Metadata ι)} {v : Bool} (h : Owned e reg ρ)
    (hp : reg.push w v = some reg') : reg'.accepts ρ = false :=
  (Register.superseded_push h.mem_revision hp).not_current

theorem State.claimed_of_holds {s : State ι} (except : ι → Bool) (h : Holds e s.lease)
    (hc : (s.node e).claims = true) (he : except e = false) : s.claimed except = true := by
  obtain ⟨w, hw, hwr, _⟩ := h
  simp [State.claimed, hw, hwr, hc, he]

/-! ### What makes a task claim the lease -/

variable {n n' : Node ι} {ph' : Phase ι} {r : Req ι} {x : r.Reply}

theorem Node.claims_of_leading (h : n.leading = true) : n.claims = true := by
  simp [Node.claims, h]

/-- Where nothing has been granted, only the flow that leads claims the lease. -/
theorem Node.leading_of_claims (h : n.claims = true) (hg : n.phase.granted = none) :
    n.leading = true := by
  simpa [Node.claims, hg] using h

theorem Node.granted_of_react {handOver : Bool} (hr : n.react handOver = some n') :
    n'.phase.granted = none := by
  rw [Node.react] at hr
  split at hr <;> (try split at hr) <;> cases hr <;> rfl

/-- A flow is sent `Leader` only when its task has been granted the lease. -/
theorem Node.claims_of_react {handOver : Bool} (hr : n.react handOver = some n')
    (hc : n'.claims = true) : n.claims = true := by
  have hl := Node.leading_of_claims hc (Node.granted_of_react hr)
  rw [Node.react] at hr
  split at hr
  -- the lease was acquired, or taken over
  iterate 2
    · rename_i hp
      split at hr <;> cases hr
      · exact Node.claims_of_leading hl
      · rename_i hopen
        simp [Node.claims, hp, hopen, Phase.granted, Lease.granted]
  all_goals
    (try split at hr) <;> cases hr <;> first | exact Node.claims_of_leading hl | cases hl

section Steps

variable [DecidableEq ι] {config : LeaseConfig} {valid : config.validate = .ok ()}

theorem Node.claims_of_start (hs : n.start config valid e = some n') (hc : n'.claims = true) :
    n.claims = true := by
  have hg : n'.phase.granted = none := by
    rw [Node.start] at hs
    split at hs <;> cases hs <;> rfl
  have hl := Node.leading_of_claims hc hg
  rw [Node.start] at hs
  split at hs <;> cases hs <;> exact Node.claims_of_leading hl

/-- Only the reply to a write makes a task claim the lease. -/
theorem Node.claims_of_resume (h : n.Sound e reg) (hr : n.phase.Resumes r x ph')
    (hc : ({ n with phase := ph' } : Node ι).claims = true) :
    n.claims = true ∨ ∃ ρ, Wrote ρ r x := by
  rcases Bool.or_eq_true_iff.mp hc with hl | hg
  · exact Or.inl (by simp [Node.claims, show n.leading = true from hl])
  · obtain ⟨ρ, hρ⟩ := Option.isSome_iff_exists.mp (Bool.and_eq_true_iff.mp hg).2
    exact Or.inr ⟨ρ, hr.granted h.phase hρ⟩

/-- A task that deletes the lease has stopped to claim it. -/
theorem Node.Sound.claims_of_delete (h : n.Sound e reg)
    (hp : n.phase.pending = some (.deleteWithRevision ρ)) : n.claims = false := by
  rw [← Bool.not_eq_true]
  intro hc
  have hg : n.phase.granted = none := by
    generalize n.phase = ph at hp
    rcases ph with (_ | res | _) | _ | _ | _ | _
    · rfl
    · cases hp
    all_goals rfl
  obtain ⟨g, p, hren⟩ := h.leading (Node.leading_of_claims hc hg)
  rw [hren] at hp
  have hph := h.phase
  rw [hren] at hph
  rcases p with _ | (_ | ⟨r, k⟩) <;> cases hp
  exact hph.1.1.2 ρ rfl

/-! ### The steps -/

variable {s t : State ι} {a : Act ι} {now : Nat} {c : Choice}

/-- The lease is as it was, and nobody claims it who did not before. -/
theorem Guarded.of_quiet (h : Guarded s) (ho : Orderly t) (hl : t.lease = s.lease)
    (hc : ∀ e, (t.node e).claims = true → (s.node e).claims = true)
    (hs : ∀ e ρ, (e, .deleteWithRevision ρ) ∈ t.stray → (t.node e).claims = true →
      (e, .deleteWithRevision ρ) ∈ s.stray) : Guarded t where
  toOrderly := ho
  holds e he := hl ▸ h.holds e (hc e he)
  stale e ρ hq he := hl ▸ h.stale e ρ (hs e ρ hq he) (hc e he)

/-- A new write: whoever claims the lease then holds it. -/
theorem Guarded.of_push (h : Guarded s) (ho : Orderly t) {w : Write ι (Metadata ι)} {v : Bool}
    (hp : s.lease.push w v = some t.lease) (hs : t.stray ⊆ s.stray)
    (hc : ∀ e, (t.node e).claims = true → Holds e t.lease) : Guarded t where
  toOrderly := ho
  holds := hc
  stale _ ρ hq _ := ((h.stray _ (hs hq)).2 ρ rfl).stale hp

/-- A request takes effect that takes the lease from nobody else: a write
leaves it with who claims it, or gives it to `e`. -/
theorem Guarded.serve (h : Guarded s) (hf : Fair e s.lease r)
    (hx : Lease.serve e now c s.lease r = some (x, reg)) (hk : s.usurps e r = false)
    (hd : ∀ ρ, r = .deleteWithRevision ρ → s.lease.accepts ρ = true → (s.node e).claims = false) :
    (reg = s.lease ∧ ∀ ρ, ¬ Wrote ρ r x) ∨
    ∃ w v, s.lease.push w v = some reg ∧
      ∀ e', (s.node e').claims = true ∨ (e' = e ∧ ∃ ρ, Wrote ρ r x) → Holds e' reg := by
  obtain hno | ⟨m, hm, hp, _, hacc⟩ | ⟨ρ, rfl, hacc, hp⟩ := serve_cases hx
  · exact Or.inl hno
  · refine Or.inr ⟨_, _, hp, fun e' hc => ?_⟩
    by_cases he : e' = e
    · exact he ▸ holds_push hp
    have hold := h.holds e' (hc.resolve_right fun hw => he hw.1)
    rcases hacc with ⟨_, hnone⟩ | ⟨ρ, rfl, hacc⟩
    · obtain ⟨w, hw, _⟩ := hold
      cases hnone.symm.trans hw
    · -- the update would replace the lease of `e'`
      have := State.claimed_of_holds (· = e) hold (hc.resolve_right fun hw => he hw.1)
        (by simpa using he)
      simp [State.usurps, hacc, this] at hk
  · refine Or.inr ⟨_, _, hp, fun e' hc => ?_⟩
    have hc' := hc.resolve_right fun hw => hw.2.elim fun _ hw => hw
    obtain rfl := (h.holds e' hc').unique (((hf.2 ρ rfl).holds) hacc)
    simp [hd ρ rfl hacc] at hc'

/-- Claims after the task of `e` alone has changed. -/
theorem State.claims_set (h : ((s.set e n).node e').claims = true) :
    (e' = e ∧ n.claims = true) ∨ (e' ≠ e ∧ (s.node e').claims = true) := by
  by_cases he : e' = e
  · subst he
    exact Or.inl ⟨rfl, State.set_self s e' n ▸ h⟩
  · exact Or.inr ⟨he, State.set_ne s n he ▸ h⟩

/-- The task of `e` moves on without claiming more than it did, and the lease
stays. -/
theorem Guarded.of_set (h : Guarded s) (ho : Orderly (s.set e n))
    (hc : n.claims = true → (s.node e).claims = true) : Guarded (s.set e n) :=
  h.of_quiet ho rfl (fun e' he => by
    rcases State.claims_set he with ⟨rfl, hn⟩ | ⟨_, hs⟩
    · exact hc hn
    · exact hs) fun _ _ hq _ => hq

/-- The task of `e` ends or is replaced. -/
theorem Guarded.of_abandon (h : Guarded s) (ho : Orderly ((s.abandon e).set e n))
    (hn : n.claims = false) : Guarded ((s.abandon e).set e n) := by
  have hc : ∀ e', (((s.abandon e).set e n).node e').claims = true →
      e' ≠ e ∧ (s.node e').claims = true := by
    intro e' he
    rcases State.claims_set he with ⟨_, hn'⟩ | hs
    · simp [hn] at hn'
    · exact hs
  refine h.of_quiet ho rfl (fun e' he => (hc e' he).2) fun e' ρ hq he => ?_
  rcases State.mem_abandon hq with hq | ⟨heq, _⟩
  · exact hq
  · exact ((hc e' he).1 heq).elim

theorem Guarded.step (h : Guarded s) (hk : Keeps s a) (hs : step config valid s a = some t) :
    Guarded t := by
  have ho : Orderly t := h.toOrderly.step hs
  cases a with
  | tick secs =>
      cases hs
      exact h.of_quiet ho rfl (fun _ hc => hc) fun _ _ hq _ => hq
  | expire revision marker =>
      simp only [Lease.step] at hs
      split at hs
      · obtain ⟨reg, hp, rfl⟩ := Option.map_eq_some_iff.mp hs
        refine h.of_push ho hp (List.Subset.refl _) fun e he => ?_
        have := State.claimed_of_holds (fun _ => false) (h.holds e he) he rfl
        simp [show s.claimed (fun _ => false) = false from hk] at this
      · cases hs
  | start e =>
      obtain ⟨n, hn, rfl⟩ := Option.map_eq_some_iff.mp hs
      exact h.of_set ho (Node.claims_of_start hn)
  | serve e c =>
      obtain ⟨⟨ph, reg⟩, hp, rfl⟩ := Option.map_eq_some_iff.mp hs
      obtain ⟨r, x, hx, hpend, hres⟩ := Phase.answer_eq_some hp
      have hnode := h.node e
      have hclaims : ∀ e', ((s.set e { s.node e with phase := ph }).node e').claims = true →
          (s.node e').claims = true ∨ (e' = e ∧ ∃ ρ, Wrote ρ r x) := by
        intro e' he
        rcases State.claims_set he with ⟨rfl, hn⟩ | ⟨_, hold⟩
        · exact (Node.claims_of_resume hnode hres hn).imp_right fun hw => ⟨rfl, hw⟩
        · exact Or.inl hold
      have hd : ∀ ρ, r = .deleteWithRevision ρ → s.lease.accepts ρ = true →
          (s.node e).claims = false :=
        fun ρ hr _ => hnode.claims_of_delete (hr ▸ hpend)
      obtain ⟨hl, hno⟩ | ⟨w, v, hpush, hold⟩ := h.serve (hnode.phase.fair hpend) hx (hk r hpend) hd
      · refine h.of_quiet ho hl (fun e' he => ?_) fun _ _ hq _ => hq
        exact (hclaims e' he).resolve_right fun hw => hw.2.elim hno
      · exact h.of_push ho hpush (List.Subset.refl _) fun e' he => hold e' (hclaims e' he)
  | lose e =>
      obtain ⟨⟨ph, r⟩, hp, rfl⟩ := Option.map_eq_some_iff.mp hs
      obtain ⟨r', x, hx, hpend, hres⟩ := Phase.answer_eq_some hp
      obtain ⟨y, hy, he⟩ := Option.map_eq_some_iff.mp hx
      cases he
      have hclaims : ∀ e', ((s.set e { s.node e with phase := ph }).node e').claims = true →
          (s.node e').claims = true := by
        intro e' he
        rcases State.claims_set he with ⟨rfl, hn⟩ | ⟨_, hold⟩
        · exact (Node.claims_of_resume (h.node _) hres hn).resolve_right
            fun hw => hw.elim fun _ hw => failed_not_wrote hy hw
        · exact hold
      refine h.of_quiet ho rfl hclaims fun e' ρ hq he => ?_
      rcases List.mem_append.mp hq with hq | hq
      · exact hq
      · -- the request that was lost is a deletion
        cases List.mem_singleton.mp hq
        have hfree := (h.node _).claims_of_delete hpend
        simp [hclaims _ he] at hfree
  | deliver idx c =>
      simp only [Lease.step] at hs
      split at hs
      · rename_i e r hq
        obtain ⟨⟨x, reg⟩, hx, rfl⟩ := Option.map_eq_some_iff.mp hs
        have hmem := List.mem_of_getElem? hq
        have hd : ∀ ρ, r = .deleteWithRevision ρ → s.lease.accepts ρ = true →
            (s.node e).claims = false := by
          intro ρ hr hacc
          rw [← Bool.not_eq_true]
          intro hc
          simp [h.stale e ρ (hr ▸ hmem) hc] at hacc
        have hsub : s.stray.eraseIdx idx ⊆ s.stray := List.eraseIdx_subset
        obtain ⟨hl, _⟩ | ⟨w, v, hpush, hold⟩ := h.serve (h.stray _ hmem) hx (hk (e, r) hq) hd
        · exact h.of_quiet ho hl (fun _ he => he) fun _ _ hq _ => hsub hq
        · exact h.of_push ho hpush hsub fun e' he => hold e' (Or.inl he)
      · cases hs
  | react e handOver =>
      obtain ⟨n, hn, rfl⟩ := Option.map_eq_some_iff.mp hs
      exact h.of_set ho (Node.claims_of_react hn)
  | close e =>
      cases hs
      exact h.of_set ho (by simp [Node.claims])
  | shutdown e =>
      cases hs
      exact h.of_abandon ho rfl
  | register e =>
      cases hs
      exact h.of_abandon ho rfl

end Steps

/-! ## Two leaders -/

section Theorem

variable [DecidableEq ι] {config : LeaseConfig} {valid : config.validate = .ok ()} {s : State ι}

theorem guarded_init (h : (election config valid).init s) : Guarded s := by
  refine ⟨orderly_init h, fun e he => ?_, fun e ρ hq _ => ?_⟩
  all_goals obtain ⟨now, rfl⟩ := h
  · cases he
  · cases hq

/-- In a run in which nobody is taken the lease from while claiming it, at most one flow leads. -/
theorem exclusive_of_keeps (h : (election config valid).ReachableBy Keeps s) : s.Exclusive := by
  have hg : Guarded s := h.invariant (fun _ => guarded_init) fun _ _ _ hi hk hs => hi.step hk hs
  intro e e' he he'
  exact (hg.holds e (Node.claims_of_leading he)).unique (hg.holds e' (Node.claims_of_leading he'))

end Theorem

/-- The first executor hands the lease over, and the second one acquires it. -/
theorem exclusive_of_keeps_handover :
    ∃ s, (election (ι := Bool) {} rfl).ReachableBy Keeps s ∧
      (s.node true).leading = true ∧ s.Exclusive := by
  have hrun : ((election (ι := Bool) {} rfl).exec Keeps (.initial 0)
      ([Act.start false] ++ serves false [0, 1] ++ [Act.react false false] ++
        [Act.start false] ++ serves false [0, 2] ++ [Act.react false true] ++
        serves false [3] ++ [Act.react false false] ++
        [Act.start true] ++ serves true [0, 0, 0, 0, 4] ++ [Act.react true false])).any
      (fun s => (s.node true).leading) = true := by
    decide
  obtain ⟨s, hr, hlead⟩ := Machine.exists_of_exec hrun
  have h : (election (ι := Bool) {} rfl).ReachableBy Keeps s := ⟨_, _, ⟨0, rfl⟩, hr⟩
  exact ⟨s, h, hlead, exclusive_of_keeps h⟩

/-- Only the calls of the first executor fail.  It tries to renew every ten
seconds, and leads on after the second one has taken over the expired lease. -/
theorem two_leaders_after_expiry :
    ∃ s, (election (ι := Bool) {} rfl).Reachable s ∧
      (s.node false).leading = true ∧ (s.node true).leading = true ∧ ¬ s.Exclusive := by
  have hrun : ((election (ι := Bool) {} rfl).exec (fun _ _ => True) (.initial 0)
      ([Act.start false] ++ serves false [0, 1] ++ [Act.react false false] ++
        [Act.tick 50, Act.start false] ++ serves false [0] ++ [Act.lose false, Act.react false false] ++
        [Act.tick 11, Act.start true] ++ serves true [0, 0, 0, 2] ++ [Act.react true false])).any
      (fun s => (s.node false).leading && (s.node true).leading) = true := by
    decide
  obtain ⟨s, hr, hlead⟩ := Machine.exists_of_exec hrun
  obtain ⟨hf, ht⟩ := Bool.and_eq_true_iff.mp hlead
  exact ⟨s, ⟨_, _, ⟨0, rfl⟩, hr⟩, hf, ht, fun h => by cases h false true hf ht⟩

/-- No call fails and no time passes.  The second executor finds the lease
deleted, the first one acquires it again, and the second one overwrites the
revision it reads next. -/
theorem two_leaders_at_deletion :
    ∃ s, (election (ι := Bool) {} rfl).Reachable s ∧
      s.now = 0 ∧ (s.node false).leading = true ∧ (s.node true).leading = true := by
  have hrun : ((election (ι := Bool) {} rfl).exec (fun _ _ => True) (.initial 0)
      ([Act.start false] ++ serves false [0, 1] ++ [Act.react false false] ++
        [Act.start false] ++ serves false [0, 2] ++ [Act.react false true] ++
        serves false [3] ++ [Act.react false false] ++
        [Act.start true] ++ serves true [0, 0, 0] ++
        [Act.start false] ++ serves false [0, 0, 0, 0, 4] ++ [Act.react false false] ++
        serves true [0, 5] ++ [Act.react true false])).any
      (fun s => s.now == 0 && ((s.node false).leading && (s.node true).leading)) = true := by
    decide
  obtain ⟨s, hr, hs⟩ := Machine.exists_of_exec hrun
  obtain ⟨hnow, hlead⟩ := Bool.and_eq_true_iff.mp hs
  obtain ⟨hf, ht⟩ := Bool.and_eq_true_iff.mp hlead
  exact ⟨s, ⟨_, _, ⟨0, rfl⟩, hr⟩, eq_of_beq hnow, hf, ht⟩

end Flowgen.Lease
