/-
# `Flowgen.Lease.Fencing` — a lease that was taken cannot be renewed

The loop renews with the revision of its last acquisition or renewal.  Two
facts about the history of the lease key make that a fence.

* Once anybody has written after that revision, `renew_lease` with it is
  refused.  Unless one of its calls fails, it returns `LostOwnership` or
  `LeaseDeleted`, and none of its calls changes the lease
  (`Renewal.refused`, `renewal_fenced`).
* The write of a renewal that succeeds stands directly after the write whose
  revision it was made with, and both are by the same executor
  (`Follows`, `renewal_adjacent`).

Both need only where a renewal is in its program, which is `Renewal`.
-/
import Flowgen.Lease.Election

namespace Flowgen.Lease

open Flowgen.Lib Flowgen.Cache

variable {ι : Type}

/-- Two successive writes of `e`, the earlier one of revision `ρ`, the later of `ρ'`. -/
def Follows (e : ι) (log : List (Write ι (Metadata ι))) (ρ ρ' : Nat) : Prop :=
  ∃ l w' w l', log = l ++ w' :: w :: l' ∧
    (w'.revision = ρ' ∧ w'.writer = some e) ∧ w.revision = ρ ∧ w.writer = some e

theorem Follows.mono {e : ι} {log log' : List (Write ι (Metadata ι))} {ρ ρ' : Nat}
    (h : Follows e log ρ ρ') (hl : log <:+ log') : Follows e log' ρ ρ' := by
  obtain ⟨l, w', w, l', rfl, hw⟩ := h
  obtain ⟨l₀, rfl⟩ := hl
  exact ⟨l₀ ++ l, w', w, l', by simp, hw⟩

/-! ## Where a renewal is -/

/-- A call of `renew_lease` under way, whose result, if it has one, satisfies `R`. -/
inductive Renewal (ex : Executor ι) (ρ generation : Nat)
    (R : Except CacheError (RenewalResult ι) → Prop) : LeaseProg ι (RenewalResult ι) → Prop
  | begun : Renewal ex ρ generation R (renewLease ex ρ generation)
  | timed (now : Nat) : Renewal ex ρ generation R (renewAt ex ρ generation now)
  | lost : Renewal ex ρ generation R renewLost
  | done (res : Except CacheError (RenewalResult ι)) (h : R res) :
      Renewal ex ρ generation R (.ret res)

variable {e : ι} {ex : Executor ι} {ρ generation now : Nat} {c : Choice} {reg reg' : LeaseKey ι}
  {R R' : Except CacheError (RenewalResult ι) → Prop} {p : LeaseProg ι (RenewalResult ι)}
  {r : Req ι} {x : r.Reply} {k : r.Reply → LeaseProg ι (RenewalResult ι)}

theorem Renewal.mono (h : Renewal ex ρ generation R p) (hR : ∀ res, R res → R' res) :
    Renewal ex ρ generation R' p := by
  cases h with
  | begun => exact .begun
  | timed now => exact .timed now
  | lost => exact .lost
  | done res h => exact .done res (hR res h)

theorem Renewal.result {res : Except CacheError (RenewalResult ι)}
    (h : Renewal ex ρ generation R (.ret res)) : R res := by
  cases h with
  | done _ h => exact h

/-- The cache refuses an update in one of two ways, and nothing is written then. -/
theorem refused_update {m : Metadata ι} {err : CacheError}
    (h : serve e now c reg (.update m ρ) = some (.error err, reg')) :
    err = .notFound ∨ ∃ actual, err = .revisionMismatch ρ actual := by
  simp only [serve] at h
  split at h
  · obtain ⟨_, _, he⟩ := Option.map_eq_some_iff.mp h
    cases he
  · cases h
    cases hm : c.missing <;> simp [Choice.refusal, hm]

/-- A call of a renewal is answered by the cache. -/
theorem Renewal.serve (h : Renewal ex ρ generation R (.call r k))
    (hx : Lease.serve e now c reg r = some (x, reg'))
    (hw : ∀ ρ', Wrote ρ' r x → R (.ok (.renewed ρ')))
    (hlost : ∀ holder, R (.ok (.lostOwnership holder))) (hdel : R (.ok .leaseDeleted)) :
    Renewal ex ρ generation R (k x) := by
  generalize hp : (Prog.call r k : LeaseProg ι _) = p at h
  cases h with
  | begun =>
      cases hp
      exact .timed x
  | timed now =>
      cases hp
      rcases x with err | ρ'
      · rcases refused_update hx with rfl | ⟨actual, rfl⟩
        · exact .lost
        · exact .lost
      · exact .done _ (hw ρ' rfl)
  | lost =>
      cases hp
      rcases x with err | _ | ⟨m, ρ'⟩
      · cases hx
      · exact .done _ hdel
      · exact .done _ (hlost _)
  | done res h => cases hp

/-- A call of a renewal fails. -/
theorem Renewal.lose (h : Renewal ex ρ generation R (.call r k)) (hx : r.failed = some x)
    (herr : ∀ op, R (.error (.failed op))) : Renewal ex ρ generation R (k x) := by
  generalize hp : (Prog.call r k : LeaseProg ι _) = p at h
  cases h with
  | begun =>
      cases hp
      cases hx
  | timed now =>
      cases hp
      cases hx
      exact .done _ (herr _)
  | lost =>
      cases hp
      cases hx
      exact .done _ (herr _)
  | done res h => cases hp

/-- A renewal writes with its own revision only: it is refused if that is not
current, and follows the write of that revision otherwise. -/
theorem Renewal.effect (h : Renewal ex ρ generation R (.call r k))
    (hx : Lease.serve e now c reg r = some (x, reg')) :
    (reg' = reg ∧ ∀ ρ', ¬ Wrote ρ' r x) ∨
    (reg.accepts ρ = true ∧ ∃ m, reg.push ⟨c.revision, some e, some m⟩ true = some reg' ∧
      ∀ ρ', Wrote ρ' r x → ρ' = c.revision) := by
  obtain hno | ⟨m, hm, hp, hrev, hacc⟩ | ⟨_, rfl, _, _⟩ := serve_cases hx
  · exact Or.inl hno
  · generalize hq : (Prog.call r k : LeaseProg ι _) = p at h
    cases h with
    | begun =>
        cases hq
        cases hm
    | timed now =>
        cases hq
        rcases hacc with ⟨hr, _⟩ | ⟨ρ', hr, hacc⟩ <;> cases hr
        exact Or.inr ⟨hacc, _, hp, hrev⟩
    | lost =>
        cases hq
        cases hm
    | done res h => cases hq
  · generalize hq : (Prog.call (Req.deleteWithRevision _) k : LeaseProg ι _) = p at h
    cases h <;> cases hq

/-! ## Renewals in the election -/

variable {a : Act ι} {as bs : List (Act ι)} {n n' : Node ι} {ph ph' : Phase ι}

theorem Phase.Resumes.to_renewing {p : LeaseProg ι (RenewalResult ι)} (h : ph.Resumes r x ph')
    (hp : ph' = .renewing generation (some p)) :
    ∃ k : r.Reply → LeaseProg ι (RenewalResult ι),
      ph = .renewing generation (some (.call r k)) ∧ p = k x := by
  cases h <;> cases hp
  exact ⟨_, rfl, rfl⟩

theorem Node.react_idle {handOver : Bool} (h : n.react handOver = some n') {g : Nat}
    {p : LeaseProg ι (RenewalResult ι)} : n'.phase ≠ .renewing g (some p) := by
  rw [Node.react] at h
  split at h <;> (try split at h) <;> cases h <;> simp

/-- The write a renewal makes follows the one it was made with. -/
theorem follows_push {m : Metadata ι} (ho : Owned e reg ρ) (ha : reg.accepts ρ = true)
    (hp : reg.push ⟨c.revision, some e, some m⟩ true = some reg') :
    Follows e reg'.log ρ c.revision := by
  obtain ⟨w, hw, hr, hwr, _⟩ := ho
  obtain ⟨w', l, hlog, hr', _⟩ := Register.head_of_accepts ha
  obtain ⟨_, hlog', _⟩ := Register.push_eq_some hp
  obtain rfl := Register.eq_of_revision hw (hlog ▸ List.mem_cons_self) (hr.trans hr'.symm)
  exact ⟨[], _, w, l, by rw [hlog', hlog]; rfl, ⟨rfl, rfl⟩, hr, hwr⟩

def Phase.renews : Phase ι → Bool
  | .renewing _ _ => true
  | _ => false

/-- What a renewal has returned. -/
def Phase.renewal : Phase ι → Option (Except CacheError (RenewalResult ι))
  | .renewing _ (some (.ret res)) => some res
  | _ => none

theorem Phase.renews_iff : ph.renews = true ↔ ∃ g p, ph = .renewing g p := by
  cases ph <;> simp [Phase.renews]

theorem Phase.renewal_eq_some {res : Except CacheError (RenewalResult ι)}
    (h : ph.renewal = some res) : ∃ g, ph = .renewing g (some (.ret res)) := by
  unfold Phase.renewal at h
  split at h
  · cases h
    exact ⟨_, rfl⟩
  · cases h

/-- The renewal of `e` goes on: nothing is done with its result, and its task
is not stopped or replaced. -/
def During (e : ι) : Act ι → Prop
  | .react e' _ => e' ≠ e
  | .shutdown e' => e' ≠ e
  | .register e' => e' ≠ e
  | _ => True

instance [DecidableEq ι] (e : ι) (a : Act ι) : Decidable (During e a) :=
  match a with
  | .react e' _ | .shutdown e' | .register e' => inferInstanceAs (Decidable (e' ≠ e))
  | .tick _ | .expire _ _ | .start _ | .serve _ _ | .lose _ | .deliver _ _ | .close _ =>
      inferInstanceAs (Decidable True)

/-- What a renewal returns that is refused, unless one of its calls failed. -/
def Refused (e : ι) (as : List (Act ι)) (res : Except CacheError (RenewalResult ι)) : Prop :=
  (∃ holder, res = .ok (.lostOwnership holder)) ∨ res = .ok .leaseDeleted ∨
    (.lose e ∈ as ∧ ∃ op, res = .error (.failed op))

theorem Refused.snoc {res : Except CacheError (RenewalResult ι)} (h : Refused e as res) (a : Act ι) :
    Refused e (as ++ [a]) res :=
  h.imp_right (Or.imp_right fun hl => ⟨List.mem_append_left _ hl.1, hl.2⟩)

section Election

variable [DecidableEq ι] {config : LeaseConfig} {valid : config.validate = .ok ()}
  {s t v : State ι} {w : Write ι (Metadata ι)}

/-- The renewals of all executors follow the writes they were made with. -/
def Adjacent (config : LeaseConfig) (valid : config.validate = .ok ()) (s : State ι) : Prop :=
  ∀ e g p, (s.node e).phase = .renewing g (some p) →
    Renewal (executor config valid e) (s.node e).currentRevision g
      (fun res => ∀ ρ ∈ renewed res, Follows e s.lease.log (s.node e).currentRevision ρ) p

theorem Adjacent.step (h : Adjacent config valid s) (ho : Orderly s)
    (hs : step config valid s a = some t) : Adjacent config valid t := by
  intro e g p hp
  obtain ⟨hm, hl⟩ := step_moved hs e
  -- what was known of a renewal is still so after other writes
  have keep : ∀ {p}, (s.node e).phase = .renewing g (some p) →
      Renewal (executor config valid e) (s.node e).currentRevision g
        (fun res => ∀ ρ ∈ renewed res, Follows e t.lease.log (s.node e).currentRevision ρ) p :=
    fun hp => (h e g _ hp).mono fun _ hf ρ hρ => (hf ρ hρ).mono hl
  cases hm with
  | still hn _ =>
      rw [hn] at hp ⊢
      exact keep hp
  | start hn =>
      rw [Node.start] at hn
      split at hn
      · cases Option.some.inj hn ▸ hp
      · obtain hn := Option.some.inj hn
        rw [← hn] at hp ⊢
        cases hp
        exact .begun
      · cases hn
  | serve hx hr hn =>
      rw [hn] at hp ⊢
      obtain ⟨k, hk, rfl⟩ := hr.to_renewing hp
      refine (keep hk).serve hx (fun ρ' hw ρ hρ => ?_)
        (fun _ _ hρ => by cases hρ) (fun _ hρ => by cases hρ)
      cases hρ
      rcases (keep hk).effect hx with ⟨_, hno⟩ | ⟨hacc, m, hpush, hrev⟩
      · exact (hno _ hw).elim
      · exact hrev _ hw ▸ follows_push ((ho.node e).remembers g _ hk) hacc hpush
  | lose hx hr hn =>
      rw [hn] at hp ⊢
      obtain ⟨k, hk, rfl⟩ := hr.to_renewing hp
      exact (keep hk).lose hx fun _ _ hρ => by cases hρ
  | react hn => exact (Node.react_idle hn hp).elim
  | close hn =>
      rw [hn] at hp ⊢
      exact keep hp
  | shutdown hn => cases hn.symm.trans hp
  | register hn =>
      rw [hn] at hp
      cases hp

theorem adjacent_of_reachable (h : (election config valid).Reachable s) :
    Adjacent config valid s :=
  (h.invariant (I := fun s => Orderly s ∧ Adjacent config valid s)
    (fun _ h0 => ⟨orderly_init h0, by
      obtain ⟨now, rfl⟩ := h0
      exact fun e g p hp => by cases hp⟩)
    fun _ _ _ hi _ hs => ⟨hi.1.step hs, hi.2.step hi.1 hs⟩).2

/-! ### A renewal after somebody else has written -/

/-- If the step is a call of `e`, it leaves the lease as it is. -/
def Spares (config : LeaseConfig) (valid : config.validate = .ok ()) (e : ι) (s : State ι)
    (a : Act ι) : Prop :=
  ∀ c t, a = .serve e c → step config valid s a = some t → t.lease = s.lease

/-- A renewal with a superseded revision is under way, or was refused. -/
structure Fenced (config : LeaseConfig) (valid : config.validate = .ok ()) (e : ι) (ρ : Nat)
    (as : List (Act ι)) (s : State ι) : Prop where
  superseded : s.lease.Superseded ρ
  renewal : ∃ g p, (s.node e).phase = .renewing g (some p) ∧
    Renewal (executor config valid e) ρ g (Refused e as) p

theorem Fenced.step (h : Fenced config valid e ρ as s) (ha : During e a)
    (hs : step config valid s a = some t) :
    Spares config valid e s a ∧ Fenced config valid e ρ (as ++ [a]) t := by
  obtain ⟨hsup, g, p, hp, hren⟩ := h
  obtain ⟨hm, hl⟩ := step_moved hs e
  have hren' := hren.mono fun _ hR => hR.snoc a
  cases hm with
  | still hn hne =>
      exact ⟨fun c _ h _ => (hne c h).elim, hsup.mono hl, g, p, hn ▸ hp, hren'⟩
  | start hn => simp [Node.start, hp] at hn
  | @serve c r x ph' hx hr hn =>
      have hfix : t.lease = s.lease ∧ ∀ ρ', ¬ Wrote ρ' r x := by
        rw [hp] at hr
        cases hr with
        | renewing _ k =>
            rcases hren.effect hx with hno | ⟨hacc, _⟩
            · exact hno
            · simp [hsup.not_current] at hacc
      refine ⟨?_, hsup.mono hl, ?_⟩
      · intro c' t' _ hs'
        cases hs.symm.trans hs'
        exact hfix.1
      · rw [hp] at hr
        cases hr with
        | renewing _ k =>
            refine ⟨g, k x, by rw [hn], hren'.serve hx (fun ρ' hw => (hfix.2 ρ' hw).elim) ?_ ?_⟩
            · intro holder
              exact Or.inl ⟨holder, rfl⟩
            · exact Or.inr (Or.inl rfl)
  | lose hx hr hn =>
      rw [hp] at hr
      cases hr with
      | renewing _ k =>
          refine ⟨?_, hsup.mono hl, g, k _, by rw [hn], hren'.lose hx ?_⟩
          · intro c t' hc
            cases hc
          · intro op
            exact Or.inr (Or.inr ⟨List.mem_append_right _ (List.mem_singleton_self _), op, rfl⟩)
  | react _ => exact (ha rfl).elim
  | close hn =>
      refine ⟨?_, hsup.mono hl, g, p, by rw [hn]; exact hp, hren'⟩
      intro c t' hc
      cases hc
  | shutdown _ => exact (ha rfl).elim
  | register _ => exact (ha rfl).elim

theorem Fenced.run (h : Fenced config valid e ρ [] s)
    (hr : (election config valid).RunOf (fun _ a => During e a) s as t) :
    (election config valid).RunOf (fun s a => Spares config valid e s a) s as t ∧
      Fenced config valid e ρ as t := by
  induction hr with
  | nil => exact ⟨.nil, h⟩
  | snoc _ ha hs ih =>
      obtain ⟨hsp, hf⟩ := ih.2.step ha hs
      exact ⟨.snoc ih.1 hsp hs, hf⟩

/-- Once anybody has written after the revision `e` remembers, it is superseded for ever. -/
theorem superseded_of_write (ho : Owned e s.lease ρ) (hlog : t.lease.log = w :: s.lease.log)
    (hv : (election config valid).Run t bs v) : v.lease.Superseded ρ :=
  hv.invariant (I := fun v => v.lease.Superseded ρ) ⟨w, s.lease.log, hlog, ho.mem_revision⟩
    fun _ _ _ h _ hs => h.mono (step_moved hs e).2

/-- A renewal is refused that is begun after anybody has written to the lease
key, with the revision that its executor remembered when that happened; and a
renewal that succeeds is the next write after the last one its executor knows
to have succeeded. -/
theorem renewals_fenced (hs : (election config valid).Reachable s) :
    (∀ e a t w bs v v' as u, (s.node e).phase.renews = true →
      step config valid s a = some t → t.lease.log = w :: s.lease.log →
      (election config valid).Run t bs v → (v.node e).phase.renews = true →
      (v.node e).currentRevision = (s.node e).currentRevision →
      step config valid v (.start e) = some v' →
      (election config valid).RunOf (fun _ a => During e a) v' as u →
      (election config valid).RunOf (fun s a => Spares config valid e s a) v' as u ∧
        ∀ res, (u.node e).phase.renewal = some res → Refused e as res) ∧
    ∀ e ρ, (s.node e).phase.renewal = some (.ok (.renewed ρ)) →
      Follows e s.lease.log (s.node e).currentRevision ρ := by
  refine ⟨?_, ?_⟩
  · intro e a t w bs v v' as u hp _ hlog hv hp' hrev hstart hu
    obtain ⟨g, p, hp⟩ := Phase.renews_iff.mp hp
    obtain ⟨g', p', hp'⟩ := Phase.renews_iff.mp hp'
    have ho := ((orderly_of_reachable hs).node e).remembers g p hp
    have hsup : v.lease.Superseded (s.node e).currentRevision := superseded_of_write ho hlog hv
    have hf : Fenced config valid e (s.node e).currentRevision [] v' := by
      obtain ⟨n, hn, rfl⟩ := Option.map_eq_some_iff.mp hstart
      cases p' with
      | some p' => simp [Node.start, hp'] at hn
      | none =>
          simp only [Node.start, hp', Option.some.injEq] at hn
          refine ⟨hsup, g', renewLease (executor config valid e) (v.node e).currentRevision g', ?_, ?_⟩
          · rw [State.set_self, ← hn]
          · exact hrev ▸ .begun
    obtain ⟨hsp, -, g₁, p₁, hp₁, hren⟩ := hf.run hu
    refine ⟨hsp, ?_⟩
    intro res hres
    obtain ⟨g₂, hres⟩ := Phase.renewal_eq_some hres
    cases hp₁.symm.trans hres
    exact hren.result
  · intro e ρ hp
    obtain ⟨g, hp⟩ := Phase.renewal_eq_some hp
    exact (adjacent_of_reachable hs e g _ hp).result ρ rfl

end Election

/-- The first executor is slow to renew; the second one takes the lease over,
and the renewal tells the first one so. -/
theorem renewals_fenced_takeover :
    let lost : Except CacheError (RenewalResult Bool) := .ok (.lostOwnership true)
    ∃ (v' u : State Bool) (as : List (Act Bool)), (u.node false).phase.renewal = some lost ∧
      (election (ι := Bool) {} rfl).RunOf (fun s a => Spares {} rfl false s a) v' as u ∧
      Refused false as lost := by
  intro lost
  let E := election (ι := Bool) {} rfl
  have hrun : ((E.exec (fun _ _ => True) (.initial 0)
      ([Act.start false] ++ serves false [0, 1] ++ [Act.react false false] ++
        [Act.tick 61, Act.start true] ++ serves true [0, 0, 0])).any fun s =>
      (step {} rfl s (.serve true ⟨2, true, false⟩)).any fun t =>
      (E.exec (fun _ _ => True) t [.react true false]).any fun v =>
      (step {} rfl v (.start false)).any fun v' =>
      (E.exec (fun _ a => During false a) v' (serves false [0, 0, 0])).any fun u =>
        (s.node false).phase.renews && (v.node false).phase.renews &&
          (v.node false).currentRevision == (s.node false).currentRevision &&
          t.lease.log == ⟨2, some true, some ⟨true, 61, 60, 2⟩⟩ :: s.lease.log &&
          (u.node false).phase.renewal == some lost) = true := by
    decide
  simp only [Option.any_eq_true, Bool.and_eq_true, beq_iff_eq] at hrun
  obtain ⟨s, hs, t, ht, v, hv, v', hv', u, hu, ⟨⟨⟨hp, hp'⟩, hrev⟩, hlog⟩, hres⟩ := hrun
  have hreach : E.Reachable s := ⟨_, _, ⟨0, rfl⟩, Machine.run_of_exec hs⟩
  obtain ⟨hsp, href⟩ := (renewals_fenced hreach).1 false _ t _ _ v v' _ u hp ht hlog
    (Machine.run_of_exec hv) hp' hrev hv' (Machine.run_of_exec hu)
  exact ⟨v', u, _, hres, hsp, href _ hres⟩

end Flowgen.Lease
