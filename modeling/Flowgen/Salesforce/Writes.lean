/-
# `Flowgen.Salesforce.Writes` — operations whose request is not to be sent twice
(`salesforce/src/restapi/sobject.rs`, `salesforce/src/restapi/composite.rs`,
`salesforce/src/bulkapi/query_job.rs`, `salesforce/src/soapapi/merge.rs`,
`salesforce/src/toolingapi.rs`)

An operation of one request prepares it, sends it, reads the answer and emits it.  Where
sending it again is not safe, the runner repeats the event only after an error of the
authentication.

So the request is sent again only after such an error.  But the handler looks for a
cancellation between the answer and the emission, and returns without either the response
or the completion; and the task downstream may have stopped.  In a run in which neither
happens to an attempt that was answered, each answer is emitted, and in no other
(`writes_answered_iff`).
-/
import Flowgen.Salesforce.Processor

namespace Flowgen.Salesforce

open Flowgen.Lib Flowgen.Task

inductive SObjectOperation
  | create
  | get
  | getByExternalId
  | update
  | upsert
  | delete
  | getDeleted
deriving DecidableEq

inductive CompositeOperation
  | create
  | get
  | update
  | upsert
  | delete
  | tree
deriving DecidableEq

inductive QueryJobOperation
  | create
  | get
  | delete
  | abort
  | getResults
deriving DecidableEq

inductive ToolingOperation
  | createManagedEventSubscription
deriving DecidableEq

/-- The tasks whose operations send one request, but for `getResults`. -/
inductive Task
  | sobject (operation : SObjectOperation)
  | composite (operation : CompositeOperation)
  | queryJob (operation : QueryJobOperation)
  | merge
  | tooling (operation : ToolingOperation)
deriving DecidableEq

def Task.retriesSafely : Task → Bool
  | .sobject operation => !(operation matches .create | .upsert)
  | .composite operation => !(operation matches .create | .tree)
  | .queryJob operation => !(operation matches .create)
  | .merge => false
  | .tooling operation =>
      match operation with
      | .createManagedEventSubscription => false

/-- As what the error of a request is returned. -/
def Task.request : Task → Request
  | .sobject _ => .sobject
  | .composite _ => .composite
  | .queryJob _ => .bulkQuery
  | .merge => .merge
  | .tooling _ => .tooling

namespace Writes

/-- `R` is what a request is answered with, `J` what of it is emitted. -/
inductive Call (R : Type)
  | preparing
  /-- An upsert looks for the record first. -/
  | looking
  | requesting
  | answered (response : R)
  | emitted
deriving DecidableEq

inductive Answer (R : Type)
  | ok
  | failed (error : Error)
  /-- The lookup of an upsert: whether the record has an id, or an error. -/
  | found (record : Except ApiError Bool)
  | response (result : Except ApiError R)

section Step

variable {R J : Type} (task : Task) (toJson : R → Option J)

def step : Call R → Bool → Answer R → Option (Turn (Call R) J)
  | .preparing, _, .ok =>
      if task = .sobject .upsert then some (.next .looking) else some (.next .requesting)
  | .preparing, _, .failed error => some (.fail error)
  | .looking, _, .found record =>
      match record with
      | .ok false => some (.fail .missingRecordId)
      | _ => some (.next .requesting)
  | .requesting, _, .response result =>
      match result with
      | .ok response => some (.next (.answered response))
      | .error source => some (.fail (.request task.request source))
  | .answered response, _, _ =>
      match toJson response with
      | some output => some (.emit output .emitted)
      | none => some (.fail .response)
  | .emitted, _, _ => some .done
  | _, _, _ => none

def operation : Operation (Call R) (Answer R) J where
  retriesSafely := task.retriesSafely
  start := .preparing
  step := step task toJson

/-- How a request was answered. -/
def requested (s : Processor.State (Call R) J) :
    Processor.Act (Answer R) → Option (Except Error Unit)
  | .call (.response result) =>
      match s.stage with
      | .calling .requesting =>
          some (match result with
            | .ok _ => .ok ()
            | .error source => .error (.request task.request source))
      | _ => none
  | _ => none

end Step

section Spec

variable {R J : Type} (task : Task) (toJson : R → Option J) (retry : Runner.RetryConfig)
  (tx handlesFailed : Bool) (failureMessage : Error → String)

abbrev processor : Processor (Call R) (Answer R) J :=
  ⟨operation task toJson, retry, tx, handlesFailed, failureMessage⟩

/-- The handling of an event, with a record of the requests. -/
abbrev writing :
    Machine (Processor.State (Call R) J × List (Except Error Unit)) (Processor.Act (Answer R)) :=
  (processor task toJson retry tx handlesFailed failureMessage).handling.logged (requested task)

/-- Each of the requests failed with an error of the authentication. -/
def Refused (requests : List (Except Error Unit)) : Prop :=
  ∀ request ∈ requests, ∃ error, request = .error error ∧ failure error = .auth

/-- No attempt is in its call. -/
def Over : Processor.Stage (Call R) → Prop
  | .idle | .failing _ | .returned _ => True
  | _ => False

/-- The response has been sent with the completion, or, without a task downstream, the
completion has been signalled with it. -/
def Answered (s : Processor.State (Call R) J) : Prop :=
  ∃ output, s.sent = [(output, tx)] ∧ (tx = false → .ok output ∈ s.signals)

/-- If a request succeeded, its attempt has given out the response before it was over. -/
def AnswersWrites (s : Processor.State (Call R) J × List (Except Error Unit)) : Prop :=
  .ok () ∈ s.2 → Over s.1.stage → Answered tx s.1

/-- After the answer, the task is not cancelled before the check, the response can be
read, and the task downstream, if there is one, has not stopped. -/
def Undisturbed (s : Processor.State (Call R) J × List (Except Error Unit)) :
    Processor.Act (Answer R) → Prop
  | .call _ =>
      match s.1.stage with
      | .calling (.answered response) => (toJson response).isSome
      | _ => True
  | .finish =>
      match s.1.stage with
      | .closing => s.1.cancelled = false ∧ (tx = true → s.1.closed = false)
      | _ => True
  | _ => True

end Spec

section Runs

variable {R J : Type} {task : Task} {toJson : R → Option J} {retry : Runner.RetryConfig}
  {tx handlesFailed : Bool} {failureMessage : Error → String}
  {s t : Processor.State (Call R) J × List (Except Error Unit)} {a : Processor.Act (Answer R)}

/-- Nothing has been sent, and no request succeeded. -/
structure Unanswered (sent : List (J × Bool)) (requests : List (Except Error Unit)) : Prop where
  sent : sent = []
  refused : Refused requests

/-- Nothing has been sent, and no request but the last one has succeeded. -/
structure Awaiting (sent : List (J × Bool)) (requests : List (Except Error Unit)) : Prop where
  sent : sent = []
  refused : Refused requests.dropLast

/-- The requests and what was sent, at each stage of an attempt. -/
def InAttempt (sent : List (J × Bool)) (pending : Option J) (requests : List (Except Error Unit)) :
    Processor.Stage (Call R) → Prop
  | .idle => False
  | .entered | .rendering => Unanswered sent requests
  | .calling .preparing | .calling .looking | .calling .requesting =>
      Unanswered sent requests ∧ pending = none
  | .calling (.answered _) => Awaiting sent requests ∧ pending = none ∧ .ok () ∈ requests
  | .calling .emitted | .closing =>
      Awaiting sent requests ∧ pending.isSome ∧ .ok () ∈ requests
  | .failing error | .returned (.error error) =>
      Awaiting sent requests ∧ (failure error = .auth → Refused requests)
  | .returned (.ok _) => Refused requests.dropLast

/-- The requests and what was sent, between and after the attempts. -/
def Between (sent : List (J × Bool)) (requests : List (Except Error Unit)) :
    Runner.Phase Error → Prop
  | .spawned | .waiting _ => Unanswered sent requests
  | .handling | .panicked => False
  | .forwarding => Awaiting sent requests
  | .ended => Refused requests.dropLast

def Inv (s : Processor.State (Call R) J × List (Except Error Unit)) : Prop :=
  s.1.stage = .idle ∧ Between s.1.sent s.2 s.1.job.phase ∨
    s.1.job.phase = .handling ∧ InAttempt s.1.sent s.1.pending s.2 s.1.stage

theorem Refused.dropLast {requests : List (Except Error Unit)} (h : Refused requests) :
    Refused requests.dropLast := fun request hmem => h request (List.dropLast_subset _ hmem)

theorem Refused.ok_notMem {requests : List (Except Error Unit)} (h : Refused requests) :
    .ok () ∉ requests := by
  intro hmem
  obtain ⟨error, herror, -⟩ := h _ hmem
  cases herror

theorem Unanswered.awaiting {sent : List (J × Bool)} {requests : List (Except Error Unit)}
    (h : Unanswered sent requests) : Awaiting sent requests :=
  ⟨h.sent, h.refused.dropLast⟩

theorem Inv.refused (h : Inv s) : Refused s.2.dropLast := by
  rcases h with ⟨-, h⟩ | ⟨-, h⟩
  · unfold Between at h
    split at h
    · exact h.refused.dropLast
    · exact h.refused.dropLast
    · exact h.elim
    · exact h.elim
    · exact h.refused
    · exact h
  · unfold InAttempt at h
    split at h
    · exact h.elim
    · exact h.refused.dropLast
    · exact h.refused.dropLast
    · exact h.1.refused.dropLast
    · exact h.1.refused.dropLast
    · exact h.1.refused.dropLast
    · exact h.1.refused
    · exact h.1.refused
    · exact h.1.refused
    · exact h.1.refused
    · exact h.1.refused
    · exact h

theorem not_answered {σ : Processor.State (Call R) J} (h : σ.sent = []) : ¬ Answered tx σ := by
  rintro ⟨output, houtput, -⟩
  cases h.symm.trans houtput

/-- Where no request has succeeded, nothing is left unanswered. -/
theorem answers_of_notMem (hbefore : .ok () ∉ s.2) (hafter : .ok () ∉ t.2)
    (hfine : Undisturbed toJson tx s a) :
    AnswersWrites tx t ↔ AnswersWrites tx s ∧ Undisturbed toJson tx s a :=
  ⟨fun _ => ⟨fun h => absurd h hbefore, hfine⟩, fun _ h => absurd h hafter⟩

theorem answers_of_refused (hrefused : Refused s.2) (hlog : t.2 = s.2)
    (hfine : Undisturbed toJson tx s a) :
    AnswersWrites tx t ↔ AnswersWrites tx s ∧ Undisturbed toJson tx s a :=
  answers_of_notMem hrefused.ok_notMem (hlog ▸ hrefused.ok_notMem) hfine

/-- The answers are as they were. -/
theorem answers_of_same (hlog : t.2 = s.2) (hover : Over t.1.stage ↔ Over s.1.stage)
    (hanswered : Answered tx t.1 ↔ Answered tx s.1) (hfine : Undisturbed toJson tx s a) :
    AnswersWrites tx t ↔ AnswersWrites tx s ∧ Undisturbed toJson tx s a := by
  rw [AnswersWrites, hlog, hover, hanswered]
  exact (and_iff_left hfine).symm

/-- What has been answered is not over after the step either. -/
theorem answers_of_not_over (hover : ¬ Over t.1.stage) (hbefore : ¬ Over s.1.stage)
    (hfine : Undisturbed toJson tx s a) :
    AnswersWrites tx t ↔ AnswersWrites tx s ∧ Undisturbed toJson tx s a :=
  ⟨fun _ => ⟨fun _ h => absurd h hbefore, hfine⟩, fun _ _ h => absurd h hover⟩

/-- The step loses an answer. -/
theorem answers_lost (hok : .ok () ∈ t.2) (hover : Over t.1.stage) (hsent : t.1.sent = [])
    (hdisturbed : ¬ Undisturbed toJson tx s a) :
    AnswersWrites tx t ↔ AnswersWrites tx s ∧ Undisturbed toJson tx s a := by
  constructor
  · intro h
    exact absurd (h hok hover) (not_answered hsent)
  · rintro ⟨-, hfine⟩
    exact absurd hfine hdisturbed

/-- The step gives out the answer. -/
theorem answers_given (hbefore : ¬ Over s.1.stage) (hanswered : Answered tx t.1)
    (hfine : Undisturbed toJson tx s a) :
    AnswersWrites tx t ↔ AnswersWrites tx s ∧ Undisturbed toJson tx s a :=
  ⟨fun _ => ⟨fun _ h => absurd h hbefore, hfine⟩, fun _ _ _ => hanswered⟩

theorem writing_step
    (hstep : (writing task toJson retry tx handlesFailed failureMessage).step s a = some t) :
    Processor.step (processor task toJson retry tx handlesFailed failureMessage) s.1 a =
      some t.1 ∧ t.2 = s.2 ++ (requested task s.1 a).toList :=
  Machine.logged_step hstep

theorem requested_none {σ : Processor.State (Call R) J} (h : σ.stage ≠ .calling .requesting) :
    requested task σ a = none := by
  unfold requested
  split
  · split
    · rename_i hstage
      exact absurd hstage h
    · rfl
  · rfl

theorem step_runner (h : Inv s) {act : Runner.JobAct Error}
    (hstep : (writing task toJson retry tx handlesFailed failureMessage).step s (.runner act) =
      some t) :
    Inv t ∧ (AnswersWrites tx t ↔ AnswersWrites tx s ∧ Undisturbed toJson tx s (.runner act)) := by
  obtain ⟨hs, hlog⟩ := writing_step hstep
  have hlog : t.2 = s.2 := hlog.trans (List.append_nil _)
  obtain ⟨σ, requests⟩ := s
  obtain ⟨τ, _⟩ := t
  dsimp only at hlog
  subst hlog
  cases act with
  | start =>
      obtain ⟨job, hjob, hs⟩ := Option.bind_eq_some_iff.mp hs
      cases hs
      rw [Runner.Job.step] at hjob
      split at hjob
      · rename_i hspawned
        rcases h with ⟨hidle, h⟩ | ⟨hphase, -⟩
        · rw [hspawned] at h
          refine ⟨?_, answers_of_refused h.refused rfl trivial⟩
          split at hjob
          · cases hjob
            exact Or.inl ⟨hidle, h.awaiting⟩
          · cases hjob
            exact Or.inr ⟨rfl, h⟩
        · cases hspawned.symm.trans hphase
      · cases hjob
  | wake =>
      obtain ⟨job, hjob, hs⟩ := Option.bind_eq_some_iff.mp hs
      cases hs
      rw [Runner.Job.step] at hjob
      split at hjob
      · rename_i error hwaiting
        rcases h with ⟨hidle, h⟩ | ⟨hphase, -⟩
        · rw [hwaiting] at h
          refine ⟨?_, answers_of_refused h.refused rfl trivial⟩
          split at hjob
          · cases hjob
          · cases hjob
            exact Or.inr ⟨rfl, h⟩
        · cases hwaiting.symm.trans hphase
      · cases hjob
  | giveUp =>
      obtain ⟨job, hjob, hs⟩ := Option.bind_eq_some_iff.mp hs
      cases hs
      rw [Runner.Job.step] at hjob
      split at hjob
      · rename_i error hwaiting
        rcases h with ⟨hidle, h⟩ | ⟨hphase, -⟩
        · rw [hwaiting] at h
          refine ⟨?_, answers_of_refused h.refused rfl trivial⟩
          split at hjob
          · cases hjob
            exact Or.inl ⟨hidle, h.awaiting⟩
          · cases hjob
        · cases hwaiting.symm.trans hphase
      · cases hjob
  | forwarded =>
      obtain ⟨job, hjob, hs⟩ := Option.bind_eq_some_iff.mp hs
      rw [Runner.Job.step] at hjob
      split at hjob
      · rename_i hforwarding
        cases hjob
        obtain rfl := Option.some.inj hs
        rcases h with ⟨hidle, h⟩ | ⟨hphase, -⟩
        · rw [hforwarding] at h
          unfold Processor.forwardFailure
          split
          · exact ⟨Or.inl ⟨hidle, h.refused⟩, answers_of_same rfl Iff.rfl
              (iff_of_false (not_answered h.sent) (not_answered h.sent)) trivial⟩
          · exact ⟨Or.inl ⟨hidle, h.refused⟩, answers_of_same rfl Iff.rfl
              (iff_of_false (not_answered h.sent) (not_answered h.sent)) trivial⟩
        · cases hforwarding.symm.trans hphase
      · cases hjob
  | finish outcome => cases hs

/-- A step of an attempt; the stage it is taken in is the one that the handler is in. -/
theorem Inv.inAttempt (h : Inv s) (hstage : s.1.stage ≠ .idle) :
    s.1.job.phase = .handling ∧ InAttempt s.1.sent s.1.pending s.2 s.1.stage :=
  h.resolve_left fun h => hstage h.1

theorem step_enter (h : Inv s)
    (hstep : (writing task toJson retry tx handlesFailed failureMessage).step s .enter = some t) :
    Inv t ∧ (AnswersWrites tx t ↔ AnswersWrites tx s ∧ Undisturbed toJson tx s .enter) := by
  obtain ⟨hs, hlog⟩ := writing_step hstep
  have hlog : t.2 = s.2 := hlog.trans (List.append_nil _)
  obtain ⟨σ, requests⟩ := s
  obtain ⟨τ, _⟩ := t
  dsimp only at hlog
  subst hlog
  dsimp only at hs
  rw [Processor.step] at hs
  split at hs
  · rename_i hstage
    obtain ⟨hphase, h⟩ := h.inAttempt fun hidle => by cases hstage.symm.trans hidle
    rw [hstage] at h
    refine ⟨?_, answers_of_refused h.refused rfl trivial⟩
    split at hs
    · cases hs
      exact Or.inr ⟨hphase, h.refused.dropLast⟩
    · cases hs
      exact Or.inr ⟨hphase, h⟩
  · cases hs

theorem step_render (h : Inv s) {ok : Bool}
    (hstep : (writing task toJson retry tx handlesFailed failureMessage).step s (.render ok) =
      some t) :
    Inv t ∧ (AnswersWrites tx t ↔ AnswersWrites tx s ∧ Undisturbed toJson tx s (.render ok)) := by
  obtain ⟨hs, hlog⟩ := writing_step hstep
  have hlog : t.2 = s.2 := hlog.trans (List.append_nil _)
  obtain ⟨σ, requests⟩ := s
  obtain ⟨τ, _⟩ := t
  dsimp only at hlog
  subst hlog
  dsimp only at hs
  rw [Processor.step] at hs
  split at hs
  · rename_i hstage
    obtain ⟨hphase, h⟩ := h.inAttempt fun hidle => by cases hstage.symm.trans hidle
    rw [hstage] at h
    refine ⟨?_, answers_of_refused h.refused rfl trivial⟩
    split at hs
    · cases hs
      exact Or.inr ⟨hphase, h, rfl⟩
    · cases hs
      exact Or.inr ⟨hphase, h.awaiting, fun hauth => by cases hauth⟩
  · cases hs

theorem step_call (h : Inv s) {answer : Answer R}
    (hstep : (writing task toJson retry tx handlesFailed failureMessage).step s (.call answer) =
      some t) :
    Inv t ∧ (AnswersWrites tx t ↔ AnswersWrites tx s ∧ Undisturbed toJson tx s (.call answer)) := by
  obtain ⟨hs, hlog⟩ := writing_step hstep
  obtain ⟨σ, requests⟩ := s
  obtain ⟨τ, log⟩ := t
  dsimp only at hlog
  dsimp only at hs
  rw [Processor.step] at hs
  split at hs
  · rename_i call hstage
    obtain ⟨turn, hturn, rfl⟩ := Option.map_eq_some_iff.mp hs
    obtain ⟨hphase, h⟩ := h.inAttempt fun hidle => by cases hstage.symm.trans hidle
    rw [hstage] at h
    -- Only while the request is out does an answer count as one to it.
    have hsame : call ≠ .requesting → log = requests := by
      intro hcall
      rw [requested_none (fun hc => hcall (Processor.Stage.calling.inj (hstage.symm.trans hc)))]
        at hlog
      exact hlog.trans (List.append_nil _)
    have hbefore : ¬ Over σ.stage := by
      rw [hstage]
      exact not_false
    have hfine : (∀ response, call ≠ .answered response) →
        Undisturbed toJson tx (σ, requests) (.call answer) := by
      intro hcall
      unfold Undisturbed
      dsimp only
      rw [hstage]
      cases call with
      | answered response => exact absurd rfl (hcall response)
      | _ => trivial
    have hanswered : ∀ response, call = .answered response →
        (Undisturbed toJson tx (σ, requests) (.call answer) ↔ (toJson response).isSome) := by
      rintro response rfl
      unfold Undisturbed
      dsimp only
      rw [hstage]
    change Writes.step task toJson call σ.cancelled answer = some turn at hturn
    unfold Writes.step at hturn
    split at hturn
    · obtain rfl := hsame fun hcall => by cases hcall
      refine ⟨?_, answers_of_refused h.1.refused rfl (hfine fun _ hcall => by cases hcall)⟩
      split at hturn
      · cases hturn
        exact Or.inr ⟨hphase, h⟩
      · cases hturn
        exact Or.inr ⟨hphase, h⟩
    · obtain rfl := hsame fun hcall => by cases hcall
      refine ⟨?_, answers_of_refused h.1.refused rfl (hfine fun _ hcall => by cases hcall)⟩
      cases hturn
      exact Or.inr ⟨hphase, h.1.awaiting, fun _ => h.1.refused⟩
    · obtain rfl := hsame fun hcall => by cases hcall
      refine ⟨?_, answers_of_refused h.1.refused rfl (hfine fun _ hcall => by cases hcall)⟩
      split at hturn
      · cases hturn
        exact Or.inr ⟨hphase, h.1.awaiting, fun _ => h.1.refused⟩
      · cases hturn
        exact Or.inr ⟨hphase, h⟩
    · rename_i result
      unfold requested at hlog
      dsimp only at hlog
      rw [hstage] at hlog
      subst hlog
      cases result with
      | ok response =>
          cases hturn
          refine ⟨Or.inr ⟨hphase, ⟨h.1.sent, ?_⟩, h.2, ?_⟩,
            answers_of_not_over not_false hbefore (hfine fun _ hcall => by cases hcall)⟩
          · exact List.dropLast_concat.symm ▸ h.1.refused
          · exact List.mem_append_right _ (List.mem_singleton_self _)
      | error source =>
          cases hturn
          have hrefused : .ok () ∉ requests := h.1.refused.ok_notMem
          refine ⟨Or.inr ⟨hphase, ⟨h.1.sent, ?_⟩, ?_⟩,
            answers_of_notMem hrefused ?_ (hfine fun _ hcall => by cases hcall)⟩
          · exact List.dropLast_concat.symm ▸ h.1.refused
          · intro hauth request hmem
            rcases List.mem_append.mp hmem with hmem | hmem
            · exact h.1.refused request hmem
            · exact ⟨_, List.mem_singleton.mp hmem, hauth⟩
          · intro hmem
            rcases List.mem_append.mp hmem with hmem | hmem
            · exact hrefused hmem
            · cases List.mem_singleton.mp hmem
    · rename_i response
      obtain rfl := hsame fun hcall => by cases hcall
      obtain ⟨hawaiting, hpending, hok⟩ := h
      have hundisturbed := hanswered response rfl
      cases hjson : toJson response with
      | some output =>
          rw [hjson] at hturn hundisturbed
          cases hturn
          have hemit : Processor.emit (processor task toJson retry tx handlesFailed failureMessage)
              σ output = .ok { σ with pending := some output } := by
            rw [Processor.emit, hpending]
          dsimp only
          rw [hemit]
          exact ⟨Or.inr ⟨hphase, hawaiting, rfl, hok⟩,
            answers_of_not_over not_false hbefore (hundisturbed.mpr rfl)⟩
      | none =>
          rw [hjson] at hturn hundisturbed
          cases hturn
          refine ⟨Or.inr ⟨hphase, hawaiting, fun hauth => by cases hauth⟩,
            answers_lost hok trivial hawaiting.sent fun hfine => ?_⟩
          cases hundisturbed.mp hfine
    · obtain rfl := hsame fun hcall => by cases hcall
      cases hturn
      exact ⟨Or.inr ⟨hphase, h⟩,
        answers_of_not_over not_false hbefore (hfine fun _ hcall => by cases hcall)⟩
    · cases hturn
  · cases hs

/-- The response is given out, unless the task downstream has stopped. -/
theorem finish_held {σ : Processor.State (Call R) J} {last : J} (hpending : σ.pending = some last)
    (hsent : σ.sent = []) :
    (tx = true ∧ σ.closed = true ∧
      Processor.finish (processor task toJson retry tx handlesFailed failureMessage) σ =
        .error .sendMessage) ∨
    ((tx = true → σ.closed = false) ∧ ∃ υ,
      Processor.finish (processor task toJson retry tx handlesFailed failureMessage) σ = .ok υ ∧
        υ.job = σ.job ∧ Answered tx υ) := by
  unfold Processor.finish Processor.send
  rw [hpending]
  cases tx with
  | true =>
      cases hclosed : σ.closed with
      | true => exact Or.inl ⟨rfl, rfl, rfl⟩
      | false => exact Or.inr ⟨fun _ => rfl, _, rfl, rfl, last, congrArg (· ++ _) hsent, nofun⟩
  | false =>
      refine Or.inr ⟨nofun, _, rfl, rfl, last, congrArg (· ++ _) hsent, fun _ => ?_⟩
      exact List.mem_append_right _ (List.mem_singleton_self _)

theorem step_finish (h : Inv s)
    (hstep : (writing task toJson retry tx handlesFailed failureMessage).step s .finish = some t) :
    Inv t ∧ (AnswersWrites tx t ↔ AnswersWrites tx s ∧ Undisturbed toJson tx s .finish) := by
  obtain ⟨hs, hlog⟩ := writing_step hstep
  have hlog : t.2 = s.2 := hlog.trans (List.append_nil _)
  obtain ⟨σ, requests⟩ := s
  obtain ⟨τ, log⟩ := t
  dsimp only at hlog
  subst hlog
  dsimp only at hs
  rw [Processor.step] at hs
  split at hs
  · rename_i hstage
    obtain ⟨hphase, h⟩ := h.inAttempt fun hidle => by cases hstage.symm.trans hidle
    rw [hstage] at h
    obtain ⟨hawaiting, hpending, hok⟩ := h
    obtain ⟨last, hpending⟩ := Option.isSome_iff_exists.mp hpending
    have hbefore : ¬ Over σ.stage := by
      rw [hstage]
      exact not_false
    have hundisturbed : Undisturbed toJson tx (σ, log) .finish ↔
        σ.cancelled = false ∧ (tx = true → σ.closed = false) := by
      unfold Undisturbed
      dsimp only
      rw [hstage]
    split at hs
    · rename_i hcancelled
      cases hs
      refine ⟨Or.inr ⟨hphase, hawaiting.refused⟩,
        answers_lost hok trivial hawaiting.sent fun hfine => ?_⟩
      cases hcancelled.symm.trans (hundisturbed.mp hfine).1
    · rename_i hcancelled
      have hcancelled : σ.cancelled = false := (Bool.not_eq_true _).mp hcancelled
      obtain rfl := Option.some.inj hs
      rcases finish_held hpending hawaiting.sent with
        ⟨htx, hclosed, hfinish⟩ | ⟨hopen, υ, hfinish, hjob, hanswered⟩
      · rw [hfinish]
        refine ⟨Or.inr ⟨hphase, hawaiting, fun hauth => by cases hauth⟩,
          answers_lost hok trivial hawaiting.sent fun hfine => ?_⟩
        cases hclosed.symm.trans ((hundisturbed.mp hfine).2 htx)
      · rw [hfinish]
        refine ⟨Or.inr ⟨?_, hawaiting.refused⟩,
          answers_given hbefore ?_ (hundisturbed.mpr ⟨hcancelled, hopen⟩)⟩
        · exact hjob ▸ hphase
        · exact hanswered
  · cases hs

theorem step_reconnect (h : Inv s) {ok : Bool}
    (hstep : (writing task toJson retry tx handlesFailed failureMessage).step s (.reconnect ok) =
      some t) :
    Inv t ∧
      (AnswersWrites tx t ↔ AnswersWrites tx s ∧ Undisturbed toJson tx s (.reconnect ok)) := by
  obtain ⟨hs, hlog⟩ := writing_step hstep
  have hlog : t.2 = s.2 := hlog.trans (List.append_nil _)
  obtain ⟨σ, requests⟩ := s
  obtain ⟨τ, _⟩ := t
  dsimp only at hlog
  subst hlog
  dsimp only at hs
  rw [Processor.step] at hs
  split at hs
  · rename_i error hstage
    obtain ⟨hphase, h⟩ := h.inAttempt fun hidle => by cases hstage.symm.trans hidle
    rw [hstage] at h
    cases hs
    refine ⟨Or.inr ⟨hphase, h.1, ?_⟩, answers_of_same rfl ?_ Iff.rfl trivial⟩
    · rw [Processor.failure_reconnect]
      exact h.2
    · dsimp only
      rw [hstage]
      exact Iff.rfl
  · cases hs

/-- The event is repeated only after an error of the authentication. -/
theorem step_leave (hwrite : task.retriesSafely = false) (h : Inv s)
    (hstep : (writing task toJson retry tx handlesFailed failureMessage).step s .leave = some t) :
    Inv t ∧ (AnswersWrites tx t ↔ AnswersWrites tx s ∧ Undisturbed toJson tx s .leave) := by
  obtain ⟨hs, hlog⟩ := writing_step hstep
  have hlog : t.2 = s.2 := hlog.trans (List.append_nil _)
  obtain ⟨σ, requests⟩ := s
  obtain ⟨τ, _⟩ := t
  dsimp only at hlog
  subst hlog
  dsimp only at hs
  rw [Processor.step] at hs
  split at hs
  · rename_i result hstage
    obtain ⟨job, hjob, hs⟩ := Option.bind_eq_some_iff.mp hs
    cases hs
    obtain ⟨hphase, h⟩ := h.inAttempt fun hidle => by cases hstage.symm.trans hidle
    rw [hstage] at h
    rw [Runner.Job.step, hphase] at hjob
    cases hjob
    refine ⟨Or.inl ⟨rfl, ?_⟩, answers_of_same rfl ?_ Iff.rfl trivial⟩
    · cases result with
      | ok _ => exact h
      | error error =>
          obtain ⟨hawaiting, hauth⟩ := h
          rw [Runner.Job.returned]
          cases hdelay : σ.job.retryDelay
              (processor task toJson retry tx handlesFailed failureMessage).runner
              σ.cancelled error with
          | none => exact hawaiting
          | some delays =>
              refine ⟨hawaiting.sent, hauth ?_⟩
              have hretryable : Processor.isRetryable
                  (processor task toJson retry tx handlesFailed failureMessage) error = true := by
                unfold Runner.Job.retryDelay at hdelay
                split at hdelay
                · assumption
                · cases hdelay
              unfold Processor.isRetryable at hretryable
              split at hretryable
              · assumption
              · cases hwrite.symm.trans hretryable
              · cases hretryable
    · dsimp only
      rw [hstage]
      exact Iff.rfl
  · cases hs

/-- What goes on around the event. -/
theorem step_around (h : Inv s) {cancelled closed : Bool} (hlog : t.2 = s.2)
    (hs : t.1 = { s.1 with cancelled := cancelled, closed := closed })
    (hfine : Undisturbed toJson tx s a) :
    Inv t ∧ (AnswersWrites tx t ↔ AnswersWrites tx s ∧ Undisturbed toJson tx s a) := by
  obtain ⟨σ, requests⟩ := s
  obtain ⟨τ, log⟩ := t
  dsimp only at hs hlog
  subst hs hlog
  exact ⟨h, answers_of_same rfl Iff.rfl Iff.rfl hfine⟩

theorem step_spec (hwrite : task.retriesSafely = false) (h : Inv s)
    (hstep : (writing task toJson retry tx handlesFailed failureMessage).step s a = some t) :
    Inv t ∧ (AnswersWrites tx t ↔ AnswersWrites tx s ∧ Undisturbed toJson tx s a) := by
  cases a with
  | cancel =>
      cases hstep
      exact step_around h (List.append_nil _) rfl trivial
  | close =>
      cases hstep
      exact step_around h (List.append_nil _) rfl trivial
  | runner act => exact step_runner h hstep
  | enter => exact step_enter h hstep
  | render ok => exact step_render h hstep
  | call answer => exact step_call h hstep
  | finish => exact step_finish h hstep
  | reconnect ok => exact step_reconnect h hstep
  | leave => exact step_leave hwrite h hstep

theorem inv_init (hinit : (writing task toJson retry tx handlesFailed failureMessage).init s) :
    Inv s ∧ AnswersWrites tx s := by
  obtain ⟨⟨event, hs⟩, hlog⟩ := hinit
  obtain ⟨σ, requests⟩ := s
  dsimp only at hs hlog
  subst hs hlog
  exact ⟨Or.inl ⟨rfl, rfl, nofun⟩, nofun⟩

end Runs

end Writes

open Writes in
/-- For an operation that is not to be sent twice, whatever the answers are and whenever the
task is cancelled, every request for an event but the last one failed with an error of the
authentication.  And when a request has succeeded and its attempt is over, the response and
the completion have been given out by that attempt, exactly if the run was undisturbed. -/
theorem writes_answered_iff {R J : Type} (task : Task) (toJson : R → Option J)
    (retry : Runner.RetryConfig) (tx handlesFailed : Bool) (failureMessage : Error → String)
    (hwrite : task.retriesSafely = false)
    {s t : Processor.State (Writes.Call R) J × List (Except Error Unit)}
    {acts : List (Processor.Act (Writes.Answer R))}
    (hinit : (writing task toJson retry tx handlesFailed failureMessage).init s)
    (hrun : (writing task toJson retry tx handlesFailed failureMessage).Run s acts t) :
    Refused t.2.dropLast ∧
      (AnswersWrites tx t ↔
        (writing task toJson retry tx handlesFailed failureMessage).RunOf
          (Undisturbed toJson tx) s acts t) := by
  obtain ⟨hinv, hanswers⟩ := inv_init hinit
  have hkeep : ∀ s a t, Writes.Inv s →
      (writing task toJson retry tx handlesFailed failureMessage).step s a = some t → Inv t :=
    fun s a t h hstep => (step_spec hwrite h hstep).1
  constructor
  · exact (hrun.invariant hinv fun s a t h _ hstep => hkeep s a t h hstep).refused
  · exact hrun.iff_steps hinv hanswers hkeep fun s a t h hstep => (step_spec hwrite h hstep).2

open Writes in
/-- The first request meets an error of the authentication, the second one succeeds. -/
theorem writes_answered_reconnected :
    let writes := writing (.composite .create) (some : Nat → Option Nat) ⟨some 3⟩ true false
      fun _ => "failed"
    ∃ s t acts, writes.init s ∧ writes.Run s acts t ∧ t.1.sent = [(7, true)] ∧
      t.2.map Except.isOk = [false, true] ∧ Refused t.2.dropLast ∧
      (AnswersWrites true t ↔ writes.RunOf (Undisturbed some true) s acts t) := by
  intro writes
  have hexec : (writes.exec (fun _ _ => True) (.initial (processor (.composite .create) some
        ⟨some 3⟩ true false fun _ => "failed") ⟨(), none⟩, [])
      [.runner .start, .enter, .render true, .call .ok,
        .call (.response (.error ⟨true, false⟩)), .reconnect true, .leave, .runner .wake, .enter,
        .render true, .call .ok, .call (.response (.ok 7)), .call .ok, .call .ok, .finish,
        .leave]).any
      (fun t => t.1.sent == [(7, true)] && t.2.map Except.isOk == [false, true]) = true := by
    rfl
  obtain ⟨t, hrun, ht⟩ := Lib.Machine.exists_of_exec hexec
  obtain ⟨hsent, hlog⟩ := Bool.and_eq_true_iff.mp ht
  have hinit : writes.init (.initial (processor (.composite .create) some ⟨some 3⟩ true false
      fun _ => "failed") ⟨(), none⟩, []) := ⟨⟨_, rfl⟩, rfl⟩
  exact ⟨_, t, _, hinit, hrun, beq_iff_eq.mp hsent, beq_iff_eq.mp hlog,
    writes_answered_iff (.composite .create) some ⟨some 3⟩ true false _ rfl hinit hrun⟩

open Writes in
/-- The records have been created when the task is cancelled: neither the response nor the
completion is given out. -/
theorem created_records_unanswered :
    let writes := writing (.composite .create) (some : Nat → Option Nat) ⟨some 3⟩ true false
      fun _ => "failed"
    ∃ t, writes.Reachable t ∧ .ok () ∈ t.2 ∧ t.1.job.phase = .ended ∧ t.1.sent = [] ∧
      t.1.failed = [] ∧ t.1.signals = [] ∧ ¬ AnswersWrites true t := by
  intro writes
  have hrun : writes.Run (.initial (processor (.composite .create) some ⟨some 3⟩ true false
      fun _ => "failed") ⟨(), none⟩, [])
      [.runner .start, .enter, .render true, .call .ok, .call (.response (.ok 7)), .call .ok,
        .call .ok, .cancel, .finish, .leave] _ :=
    .snoc (.snoc (.snoc (.snoc (.snoc (.snoc (.snoc (.snoc (.snoc (.single trivial rfl) trivial rfl)
      trivial rfl) trivial rfl) trivial rfl) trivial rfl) trivial rfl) trivial rfl) trivial rfl)
      trivial rfl
  refine ⟨_, ⟨_, _, ⟨⟨_, rfl⟩, rfl⟩, hrun⟩, List.mem_singleton_self _, rfl, rfl, rfl, rfl, ?_⟩
  intro h
  exact absurd (h (List.mem_singleton_self _) trivial) (not_answered rfl)

end Flowgen.Salesforce
