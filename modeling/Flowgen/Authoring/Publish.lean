/-
# `Flowgen.Authoring.Publish` — one publish at a time (`app/src/authoring.rs`)

The status `publishing` is the claim of one attempt on the change, and what the
attempt records at its end goes over that very record.  But the claim is bound
to the task that waits for the publish flow, not to the flow: a call that has
waited for the flow's `ack_timeout` records a failure while the flow goes on,
and an approval takes over a claim that is older than that, whoever works on it
(`two_publishes_after_timeout`).

Where no wait ends without success while the flow runs, and no claim is taken
over but from an attempt that is over (`Patient`), an attempt that is not over
is the one whose claim stands (`Stands`), and there is one publish at a time
(`one_publish_of_patient`).
-/
import Flowgen.Lib.Slots
import Flowgen.Authoring.Review

namespace Flowgen.Authoring

open Flowgen.Lib

/-- The flow has run to success. -/
def Attempt.succeeded (a : Attempt) : Bool :=
  match a.answer with
  | some (.ok _) => true
  | _ => false

/-- Two runs of the publish flow do not overlap. -/
def NoOverlap (s : State) : Prop :=
  ∀ (i j : Nat) (a b : Attempt), s.attempts[i]? = some a → s.attempts[j]? = some b →
    a.running = true → b.running = true → i = j

/-- A change that is recorded as failed has not been published. -/
def FailedUnpublished (s : State) : Prop :=
  ∀ c, s.change = some c → c.status = .failed → ∀ a ∈ s.attempts, a.succeeded = false

/-- The attempt will not run the flow, does not run it, and has not run it to success. -/
structure Attempt.Over (a : Attempt) : Prop where
  sent : a.phase ≠ .approved
  stopped : a.running = false
  unpublished : a.succeeded = false

/-- A wait for the publish flow ends without success only when the flow does
not run any more; and a change that is being published is approved again only
when the attempt that has claimed it is over. -/
def Patient (s : State) : Act → Prop
  | .attempt i (.timeout _) => ∀ a, s.attempts[i]? = some a → a.running = false
  | .attempt i .observe => ∀ a, s.attempts[i]? = some a → a.succeeded = false → a.running = false
  | .write i env _ => ∀ c, s.calls[i]? = some c → c.change.status = .publishing →
      canPublish c.change env.timeout env.checkedAt = true →
        ∀ a ∈ s.attempts, a.revision = c.revision → a.Over
  | _ => True

/-! ## The claim that stands -/

variable {s t : State} {act : Act} {a b : Attempt} {c : Call}
  {record record' : Register Writer Change} {w : Write Writer Change} {new : Change}

/-- The claim of the attempt is the record, or has been replaced by its success. -/
def Stands (record : Register Writer Change) (a : Attempt) : Prop :=
  ∃ w l, record.log = w :: l ∧ (w.revision = a.revision ∨
    (∃ c, w.content = some c ∧ c.status = .published) ∧
      ∃ w₀ l', l = w₀ :: l' ∧ w₀.revision = a.revision)

/-- What the phase of an attempt says about the run of its flow. -/
structure Attempt.Coherent (a : Attempt) : Prop where
  approved : a.phase = .approved → a.running = false ∧ a.answer = none
  failed : ∀ reason, a.phase = .recording (.error reason) → a.running = false ∧ a.succeeded = false

structure Claimed (s : State) : Prop where
  orderly : Orderly s
  revisions : ∀ (i j : Nat) (a b : Attempt), s.attempts[i]? = some a → s.attempts[j]? = some b →
    a.revision = b.revision → i = j
  coherent : ∀ a ∈ s.attempts, a.Coherent
  stands : ∀ a ∈ s.attempts, a.Over ∨ Stands s.record a

/-- The record is the claim itself where it is of the attempt's revision. -/
theorem Attempt.Sound.content (ha : a.Sound record) (hw : w ∈ record.log)
    (hr : w.revision = a.revision) : w.content = some a.change := by
  obtain ⟨w', hw', hr', hc⟩ := ha.written
  rw [record.eq_of_revision hw hw' (hr.trans hr'.symm)]
  exact hc

/-- One attempt's claim stands. -/
theorem Stands.unique (ha : Stands record a) (hb : Stands record b) (hsa : a.Sound record)
    (hsb : b.Sound record) : a.revision = b.revision := by
  obtain ⟨w, l, hlog, ha⟩ := ha
  obtain ⟨w', l', hlog', hb⟩ := hb
  obtain ⟨rfl, rfl⟩ := List.cons.inj (hlog.symm.trans hlog')
  have hmem : w ∈ record.log := hlog ▸ List.mem_cons_self
  -- a claim is not yet published
  have hne : ∀ {a : Attempt}, a.Sound record → w.revision = a.revision →
      ¬ ∃ c, w.content = some c ∧ c.status = .published := by
    rintro a hs hr ⟨c, hc, hp⟩
    obtain rfl := Option.some.inj ((hs.content hmem hr).symm.trans hc)
    cases hs.publishing.symm.trans hp
  rcases ha with ha | ⟨hp, w₀, l₀, hl, ha⟩ <;> rcases hb with hb | ⟨hp', w₁, l₁, hl', hb⟩
  · exact ha.symm.trans hb
  · exact absurd hp' (hne hsa ha)
  · exact absurd hp (hne hsb hb)
  · obtain ⟨rfl, _⟩ := List.cons.inj (hl.symm.trans hl')
    exact ha.symm.trans hb

/-- While a claim stands the change is being published, or is published. -/
theorem Stands.status (ha : Stands s.record a) (hsa : a.Sound s.record) {c : Change}
    (hc : s.change = some c) : c.status = .publishing ∨ c.status = .published := by
  obtain ⟨w, l, hlog, ha⟩ := ha
  obtain ⟨w', hw', hc'⟩ := Option.bind_eq_some_iff.mp hc
  obtain ⟨w₀, l₀, hlog₀, _, hcur⟩ := Register.head_of_accepts (Register.accepts_iff.mpr ⟨w', hw', rfl⟩)
  obtain rfl := Option.some.inj (hcur.symm.trans hw')
  obtain ⟨rfl, _⟩ := List.cons.inj (hlog.symm.trans hlog₀)
  rcases ha with ha | ⟨⟨c', hc'', hp⟩, _⟩
  · obtain rfl := Option.some.inj ((hsa.content (hlog ▸ List.mem_cons_self) ha).symm.trans hc')
    exact Or.inl hsa.publishing
  · obtain rfl := Option.some.inj (hc''.symm.trans hc')
    exact Or.inr hp

theorem Claimed.noOverlap (h : Claimed s) : NoOverlap s := by
  intro i j a b hi hj hra hrb
  have hstands : ∀ {i : Nat} {a : Attempt}, s.attempts[i]? = some a → a.running = true →
      Stands s.record a := by
    intro i a hi hr
    rcases h.stands a (List.mem_of_getElem? hi) with ho | hs
    · cases ho.stopped.symm.trans hr
    · exact hs
  refine h.revisions i j a b hi hj ((hstands hi hra).unique (hstands hj hrb) ?_ ?_)
  · exact h.orderly.attempts a (List.mem_of_getElem? hi)
  · exact h.orderly.attempts b (List.mem_of_getElem? hj)

theorem Claimed.failedUnpublished (h : Claimed s) : FailedUnpublished s := by
  intro c hc hf a ha
  rcases h.stands a ha with ho | hs
  · exact ho.unpublished
  · rcases hs.status (h.orderly.attempts a ha) hc with hst | hst
    · cases hf.symm.trans hst
    · cases hf.symm.trans hst

/-! ## The steps -/

/-- What an attempt that is over goes on to do. -/
theorem Attempt.Over.step {event : Event} (h : a.Over) (hb : a.step event = some b) : b.Over := by
  cases Attempt.moves hb with
  | send hp | refuse hp => exact absurd hp h.sent
  | answer hr | stop hr | timeout _ hr => cases h.stopped.symm.trans hr
  | answered _ _ | dropped _ _ _ | abandon =>
      exact ⟨Phase.noConfusion, h.stopped, h.unpublished⟩

/-- The phase goes on telling about the flow's run, if the task is patient. -/
theorem Attempt.Coherent.step {event : Event} (h : a.Coherent) (hb : a.step event = some b)
    (ht : ∀ reason, event = .timeout reason → a.running = false)
    (ho : event = .observe → a.succeeded = false → a.running = false) : b.Coherent := by
  cases Attempt.moves hb with
  | send _ | abandon => exact ⟨Phase.noConfusion, fun _ hp => Phase.noConfusion hp⟩
  | refuse hp =>
      refine ⟨Phase.noConfusion, fun _ _ => ⟨(h.approved hp).1, ?_⟩⟩
      show Attempt.succeeded a = false
      rw [Attempt.succeeded, (h.approved hp).2]
  | answer hr _ | stop hr =>
      refine ⟨?_, ?_⟩
      · intro hp
        cases (h.approved hp).1.symm.trans hr
      · intro reason hp
        cases (h.failed reason hp).1.symm.trans hr
  | @answered result _ ha =>
      refine ⟨Phase.noConfusion, ?_⟩
      intro reason hp
      cases hp
      have hs : a.succeeded = false := by rw [Attempt.succeeded, ha]
      exact ⟨ho rfl hs, hs⟩
  | dropped _ ha hr =>
      refine ⟨Phase.noConfusion, fun _ _ => ⟨hr, ?_⟩⟩
      show Attempt.succeeded a = false
      rw [Attempt.succeeded, ha]
  | timeout _ hr _ => cases (ht _ rfl).symm.trans hr

/-- A change that is being published is rewritten only by an approval that
takes the claim over. -/
theorem canPublish_of_apply {env : Env} {request : Request} {change : Change}
    {data : Option Publish} (h : request.apply env change = .ok (new, data))
    (hs : change.status = .publishing) : canPublish change env.timeout env.checkedAt = true := by
  cases request with
  | edit title description =>
      obtain ⟨_, hok, _⟩ := map_eq_ok h
      cases hs.symm.trans (editChange_eq_ok hok).1
  | addFiles files =>
      obtain ⟨_, hok, _⟩ := map_eq_ok h
      cases hs.symm.trans (addChangeFiles_eq_ok hok).1
  | approve reviewed =>
      obtain ⟨_, hok, _⟩ := map_eq_ok h
      exact (approveChange_eq_ok hok).1
  | reject =>
      obtain ⟨_, hok, _⟩ := map_eq_ok h
      rcases (rejectChange_eq_ok hok).1 with hp | hp
      · cases hs.symm.trans hp
      · cases hs.symm.trans hp

/-- Before a request writes, all attempts are over. -/
theorem Claimed.over_of_write (h : Claimed s) {i revision : Nat} {env : Env}
    {data : Option Publish} (hp : Patient s (.write i env revision)) (hi : s.calls[i]? = some c)
    (happly : c.request.apply env c.change = .ok (new, data))
    (haccepts : s.record.accepts c.revision = true) (ha : a ∈ s.attempts) : a.Over := by
  rcases h.stands a ha with ho | ⟨w, l, hlog, hst⟩
  · exact ho
  · obtain ⟨w', hw', hr', hc'⟩ := (h.orderly.calls c (List.mem_of_getElem? hi)).current haccepts
    obtain ⟨w₀, l₀, hlog₀, hr₀, hcur⟩ := Register.head_of_accepts haccepts
    obtain rfl := Option.some.inj (hcur.symm.trans hw')
    obtain ⟨rfl, _⟩ := List.cons.inj (hlog.symm.trans hlog₀)
    rcases hst with hrev | ⟨⟨c', hc, hpub⟩, _⟩
    · -- the claim of the attempt itself
      have hcont := (h.orderly.attempts a ha).content (hlog ▸ List.mem_cons_self) hrev
      have hch : a.change = c.change := Option.some.inj (hcont.symm.trans hc')
      have hs : c.change.status = .publishing := hch ▸ (h.orderly.attempts a ha).publishing
      exact hp c hi hs (canPublish_of_apply happly hs) a ha (hrev.symm.trans hr')
    · -- a published change is not written again
      obtain rfl := Option.some.inj (hc.symm.trans hc')
      have hdec := (apply_eq_ok happly).1.undecided
      rw [Change.decided, hpub] at hdec
      cases hdec

/-- An attempt that stands leaves its claim to the outcome it records, or is over. -/
theorem Claimed.over_of_other (h : Claimed s) {i j : Nat} (hi : s.attempts[i]? = some a)
    (haccepts : s.record.accepts a.revision = true) (hj : s.attempts[j]? = some b) (hne : j ≠ i) :
    b.Over := by
  rcases h.stands b (List.mem_of_getElem? hj) with ho | hst
  · exact ho
  · obtain ⟨w, l, hlog, hr, _⟩ := Register.head_of_accepts haccepts
    have hsa := h.orderly.attempts a (List.mem_of_getElem? hi)
    have hsb := h.orderly.attempts b (List.mem_of_getElem? hj)
    have hrev := hst.unique ⟨w, l, hlog, Or.inl hr⟩ hsb hsa
    exact absurd (h.revisions j i b a hj hi hrev) hne

theorem Stands.congr (h : Stands record a) (hr : b.revision = a.revision) : Stands record b := by
  obtain ⟨w, l, hlog, h⟩ := h
  exact ⟨w, l, hlog, by rwa [hr]⟩

/-- An attempt takes a step; the record stays. -/
theorem Claimed.move (h : Claimed s) {i : Nat} (ho : Orderly (s.setAttempt i b))
    (hi : s.attempts[i]? = some a) (hr : b.revision = a.revision) (hc : b.Coherent)
    (hover : a.Over → b.Over) : Claimed (s.setAttempt i b) := by
  refine ⟨ho, ?_, ?_, ?_⟩
  · intro j k d e hj hk hrev
    rcases get_set hj with ⟨rfl, rfl⟩ | ⟨_, hj'⟩ <;> rcases get_set hk with ⟨rfl, rfl⟩ | ⟨_, hk'⟩
    · rfl
    · exact h.revisions _ _ a e hi hk' (hr.symm.trans hrev)
    · exact h.revisions _ _ d a hj' hi (hrev.trans hr)
    · exact h.revisions j k d e hj' hk' hrev
  · intro d hd
    rcases List.mem_or_eq_of_mem_set hd with hd | rfl
    · exact h.coherent d hd
    · exact hc
  · intro d hd
    rcases List.mem_or_eq_of_mem_set hd with hd | rfl
    · exact h.stands d hd
    · exact (h.stands a (List.mem_of_getElem? hi)).imp hover fun hst => hst.congr hr

/-- An approval is written: the claim is that of the new attempt. -/
theorem Claimed.write (h : Claimed s) {i revision : Nat} {env : Env} {data : Option Publish}
    (hp : Patient s (.write i env revision)) (hi : s.calls[i]? = some c)
    (happly : c.request.apply env c.change = .ok (new, data))
    (haccepts : s.record.accepts c.revision = true)
    (hpush : s.record.push ⟨revision, some (.request i), some new⟩ true = some record)
    (ho : Orderly t) (hrec : t.record = record)
    (hatt : t.attempts = s.attempts ++ (data.map (c.spawn revision new)).toList) : Claimed t := by
  have hover : ∀ a ∈ s.attempts, a.Over := fun a ha => h.over_of_write hp hi happly haccepts ha
  obtain ⟨hfresh, hlog, _⟩ := Register.push_eq_some hpush
  cases data with
  | none =>
      have hatt' : t.attempts = s.attempts := hatt.trans (List.append_nil _)
      refine ⟨ho, hatt' ▸ h.revisions, hatt' ▸ h.coherent, ?_⟩
      intro a ha
      exact Or.inl (hover a (hatt' ▸ ha))
  | some data =>
      have hatt' : t.attempts = s.attempts ++ [c.spawn revision new data] := hatt
      have hne : ∀ {a : Attempt}, a ∈ s.attempts → a.revision ≠ revision := by
        rintro a ha rfl
        obtain ⟨w, hw, hr, _⟩ := (h.orderly.attempts a ha).written
        exact hfresh (List.mem_map.mpr ⟨w, hw, hr⟩)
      refine ⟨ho, ?_, ?_, ?_⟩
      · intro j k a b hj hk hrev
        rw [hatt'] at hj hk
        rcases get_concat hj with hj | ⟨rfl, rfl⟩ <;> rcases get_concat hk with hk | ⟨rfl, rfl⟩
        · exact h.revisions j k a b hj hk hrev
        · exact absurd hrev (hne (List.mem_of_getElem? hj))
        · exact absurd hrev.symm (hne (List.mem_of_getElem? hk))
        · rfl
      · intro a ha
        rw [hatt'] at ha
        rcases List.mem_append.mp ha with ha | ha
        · exact h.coherent a ha
        · obtain rfl := List.mem_singleton.mp ha
          exact ⟨fun _ => ⟨rfl, rfl⟩, fun _ hp => Phase.noConfusion hp⟩
      · intro a ha
        rw [hatt'] at ha
        rcases List.mem_append.mp ha with ha | ha
        · exact Or.inl (hover a ha)
        · obtain rfl := List.mem_singleton.mp ha
          exact Or.inr ⟨_, _, hrec ▸ hlog, Or.inl rfl⟩

/-- An outcome is recorded: a failure says that the attempt is over, and a
success takes the place of its claim. -/
theorem Claimed.recorded (h : Claimed s) {i revision : Nat} {result : FlowResult} {p : Phase}
    (hi : s.attempts[i]? = some a) (hp : a.phase = .recording result)
    (haccepts : s.record.accepts a.revision = true)
    (hpush : s.record.push ⟨revision, some (.attempt i), some (outcome a.change result)⟩ true =
      some record)
    (hphase : p = .done ∨ p = a.phase) (ho : Orderly t) (hrec : t.record = record)
    (hatt : t.attempts = s.attempts.set i { a with phase := p }) : Claimed t := by
  have ha := List.mem_of_getElem? hi
  obtain ⟨_, hlog, _⟩ := Register.push_eq_some hpush
  have hsent : p ≠ .approved := by
    rcases hphase with rfl | rfl
    · exact Phase.noConfusion
    · rw [hp]
      exact Phase.noConfusion
  refine ⟨ho, ?_, ?_, ?_⟩
  · intro j k d e hj hk hrev
    rw [hatt] at hj hk
    rcases get_set hj with ⟨rfl, rfl⟩ | ⟨_, hj'⟩ <;> rcases get_set hk with ⟨rfl, rfl⟩ | ⟨_, hk'⟩
    · rfl
    · exact h.revisions _ _ a e hi hk' hrev
    · exact h.revisions _ _ d a hj' hi hrev
    · exact h.revisions j k d e hj' hk' hrev
  · intro d hd
    rw [hatt] at hd
    rcases List.mem_or_eq_of_mem_set hd with hd | rfl
    · exact h.coherent d hd
    · refine ⟨fun hp => absurd hp hsent, ?_⟩
      intro reason hr
      rcases hphase with rfl | rfl
      · cases hr
      · exact (h.coherent a ha).failed reason hr
  · intro d hd
    obtain ⟨j, hj⟩ := List.getElem?_of_mem hd
    rw [hatt] at hj
    rcases get_set hj with ⟨rfl, rfl⟩ | ⟨hne, hj⟩
    · cases result with
      | ok value =>
          obtain ⟨w, l, hlog₀, hr, _⟩ := Register.head_of_accepts haccepts
          refine Or.inr ⟨_, _, hrec ▸ hlog, Or.inr ⟨⟨_, rfl, rfl⟩, w, l, hlog₀, hr⟩⟩
      | error reason =>
          obtain ⟨hstop, hun⟩ := (h.coherent a ha).failed reason hp
          exact Or.inl ⟨hsent, hstop, hun⟩
    · exact Or.inl (h.over_of_other hi haccepts hj hne)

theorem Claimed.step (h : Claimed s) (hp : Patient s act) (hs : Step s act t) : Claimed t := by
  have ho := h.orderly.step hs
  cases hs with
  | calls _ => exact ⟨ho, h.revisions, h.coherent, h.stands⟩
  | write hi happly haccepts hpush => exact h.write hp hi happly haccepts hpush ho rfl rfl
  | @attempt i event a b hi hb =>
      have ha := h.coherent a (List.mem_of_getElem? hi)
      refine h.move ho hi ?_ (ha.step hb ?_ ?_) fun hover => hover.step hb
      · cases Attempt.moves hb <;> rfl
      · rintro reason rfl
        exact hp a hi
      · rintro rfl
        exact hp a hi
  | @record i revision replied a result record hi hrec haccepts hpush =>
      refine h.recorded hi hrec haccepts hpush ?_ ho rfl rfl
      cases replied
      · exact Or.inr rfl
      · exact Or.inl rfl
  | @leave i revision replied a hi =>
      refine h.move ho hi rfl ⟨Phase.noConfusion, fun _ hp => Phase.noConfusion hp⟩ fun hover => ?_
      exact ⟨Phase.noConfusion, hover.stopped, hover.unpublished⟩

/-- In a run in which no wait for the publish flow ends without success while
the flow runs, and no claim is taken over but from an attempt that is over,
two publishes never overlap, and a change that has been published is not
recorded as failed. -/
theorem one_publish_of_patient (h : review.ReachableBy Patient s) :
    NoOverlap s ∧ FailedUnpublished s := by
  have hc : Claimed s := by
    refine h.invariant ?_ fun s act t hi hp hs => hi.step hp (step_spec hs)
    rintro s ⟨change, revision, rfl⟩
    refine ⟨orderly_start change revision, ?_, List.forall_mem_nil _,
      List.forall_mem_nil _⟩
    intro i j a b hi
    cases hi
  exact ⟨hc.noOverlap, hc.failedUnpublished⟩

/-! ## Two runs -/

instance (p : Phase) : Decidable (p = .approved) :=
  match p with
  | .approved => .isTrue rfl
  | .waiting | .recording _ | .done => .isFalse Phase.noConfusion

instance (a : Attempt) : Decidable a.Over :=
  decidable_of_iff (a.phase ≠ .approved ∧ a.running = false ∧ a.succeeded = false)
    ⟨fun h => ⟨h.1, h.2.1, h.2.2⟩, fun h => ⟨h.sent, h.stopped, h.unpublished⟩⟩

instance (s : State) : ∀ act, Decidable (Patient s act)
  | .attempt i (.timeout _) =>
      inferInstanceAs (Decidable (∀ a ∈ s.attempts[i]?, a.running = false))
  | .attempt i .observe =>
      inferInstanceAs (Decidable (∀ a ∈ s.attempts[i]?, a.succeeded = false → a.running = false))
  | .write i env _ =>
      inferInstanceAs (Decidable (∀ c ∈ s.calls[i]?, c.change.status = .publishing →
        canPublish c.change env.timeout env.checkedAt = true →
          ∀ a ∈ s.attempts, a.revision = c.revision → a.Over))
  | .load _ | .fail _ | .record _ _ _ | .attempt _ .send | .attempt _ (.refuse _)
  | .attempt _ (.answer _) | .attempt _ .stop | .attempt _ .abandon => .isTrue trivial

/-- The flow fails, and the change is published at the second attempt. -/
theorem one_publish_of_patient_retry :
    ∃ s : State, s.attempts.length = 2 ∧ (s.change.any (·.status == .published)) = true ∧
      NoOverlap s ∧ FailedUnpublished s := by
  have hrun : ((review.exec Patient (.start draft 1)
      [.load (.approve none), .write 0 (pod 10 none) 2, .attempt 0 .send,
        .attempt 0 (.answer (.error "push rejected")), .attempt 0 .stop, .attempt 0 .observe,
        .record 0 3 true, .load (.approve none), .write 1 (pod 20 none) 4, .attempt 1 .send,
        .attempt 1 (.answer (.ok none)), .attempt 1 .observe, .record 1 5 true]).any fun s =>
      s.attempts.length == 2 && s.change.any (·.status == .published)) = true := by
    decide
  obtain ⟨s, hr, hs⟩ := Machine.exists_of_exec hrun
  rw [Bool.and_eq_true, beq_iff_eq] at hs
  exact ⟨s, hs.1, hs.2, one_publish_of_patient ⟨_, _, ⟨draft, 1, rfl⟩, hr⟩⟩

/-- An approval, whose call is given up after the flow's `ack_timeout`, and another one. -/
def retried : List Act :=
  [.load (.approve none), .write 0 (pod 10 (some 1000)) 2, .attempt 0 .send,
    .attempt 0 (.timeout "Publishing timed out"), .record 0 3 true, .load (.approve none),
    .write 1 (pod 2000 (some 1000)) 4, .attempt 1 .send]

/-- The flow goes on after the wait for it has timed out: the next attempt runs
it at the same time, and fails after the first one has succeeded. -/
theorem two_publishes_after_timeout :
    (∃ s, review.Reachable s ∧ ¬ NoOverlap s) ∧ ∃ s, review.Reachable s ∧ ¬ FailedUnpublished s := by
  constructor
  · have hrun : ((review.exec (fun _ _ => True) (.start draft 1) retried).any fun s =>
        s.attempts[0]?.any (·.running) && s.attempts[1]?.any (·.running)) = true := by
      decide
    obtain ⟨s, hr, hs⟩ := Machine.exists_of_exec hrun
    rw [Bool.and_eq_true] at hs
    obtain ⟨a, ha, hra⟩ := (Option.any_eq_true ..).mp hs.1
    obtain ⟨b, hb, hrb⟩ := (Option.any_eq_true ..).mp hs.2
    refine ⟨s, ⟨_, _, ⟨draft, 1, rfl⟩, hr⟩, ?_⟩
    intro h
    cases h 0 1 a b ha hb hra hrb
  · have hrun : ((review.exec (fun _ _ => True) (.start draft 1)
        (retried ++ [Act.attempt 0 (.answer (.ok none)), .attempt 1 (.answer (.error "not a fast-forward")),
          .attempt 1 .observe, .record 1 5 true])).any fun s =>
        s.change.any (·.status == .failed) && s.attempts[0]?.any (·.succeeded)) = true := by
      decide
    obtain ⟨s, hr, hs⟩ := Machine.exists_of_exec hrun
    rw [Bool.and_eq_true] at hs
    obtain ⟨c, hc, hst⟩ := (Option.any_eq_true ..).mp hs.1
    obtain ⟨a, ha, hsucc⟩ := (Option.any_eq_true ..).mp hs.2
    refine ⟨s, ⟨_, _, ⟨draft, 1, rfl⟩, hr⟩, ?_⟩
    intro h
    cases (h c hc (beq_iff_eq.mp hst) a (List.mem_of_getElem? ha)).symm.trans hsucc

end Flowgen.Authoring
