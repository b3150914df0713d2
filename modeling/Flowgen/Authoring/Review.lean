/-
# `Flowgen.Authoring.Review` — a change under many hands (`app/src/authoring.rs`)

One change, in a cache with compare-and-swap, and everybody who works on it:
requests that have loaded it and will write what they make of it, and publish
attempts, which an approval spawns with what it has written and which record
the outcome over the approval's own revision.  Clocks are whatever the pods
read; a reply of the cache may come late or never.

Every write replaces the version it was made of, so the versions form a
lineage, and what a version may be followed by (`Successor`) settles both what
is published (`publishes_reviewed`) and that a decision stands
(`decision_stands`).
-/
import Flowgen.Lib.Fallible
import Flowgen.Lib.Machine
import Flowgen.Lib.Register
import Flowgen.Authoring.Change

namespace Flowgen.Authoring

open Flowgen.Lib

/-! ## The machine -/

inductive Writer
  | proposal
  | request (i : Nat)
  | attempt (i : Nat)
deriving DecidableEq

inductive CallPhase
  | loaded
  | refused (error : Error)
  | concurrent
  | failed
  | written

/-- A request that has loaded the change. -/
structure Call where
  request : Request
  change : Change
  revision : Nat
  phase : CallPhase

/-- What the publish flow answers: the result of its last task, or an error. -/
abbrev FlowResult := Except String (Option Value)

/-- How far the task is that an approval spawns: before it has called the
publish flow, waiting for it, recording its outcome, or gone. -/
inductive Phase
  | approved
  | waiting
  | recording (result : FlowResult)
  | done

/-- An approval that was written, and the run of the publish flow it makes. -/
structure Attempt where
  revision : Nat
  reviewed : Option Int
  change : Change
  data : Publish
  phase : Phase
  /-- The flow works on the event it was sent. -/
  running : Bool
  /-- What it has answered; after that nobody waits for it. -/
  answer : Option FlowResult

structure State where
  record : Register Writer Change
  calls : List Call
  attempts : List Attempt

/-- A change as it was proposed, or is found. -/
def State.start (change : Change) (revision : Nat) : State where
  record := ⟨[⟨revision, some .proposal, some change⟩], true, List.nodup_singleton _⟩
  calls := []
  attempts := []

/-- The change that is stored. -/
def State.change (s : State) : Option Change := s.record.current.bind (·.content)

/-- What a request makes of the change it has loaded, and what is then sent to
the publish flow. -/
def Request.apply (env : Env) : Request → Change → Except Error (Change × Option Publish)
  | .edit title description, change => (editChange env title description change).map (·, none)
  | .addFiles files, change => (addChangeFiles env files change).map (·, none)
  | .approve reviewed, change =>
      (approveChange env reviewed change).map fun (change, target, user) =>
        (change, some (publishData target user change))
  | .reject, change => (rejectChange env change).map (·, none)

def Request.reviewed : Request → Option Int
  | .approve reviewed => reviewed
  | _ => none

/-- What happens to an attempt: its task sends the event, cannot send it, sees
the flow's answer, gives up on it, or is gone; and the flow answers and stops. -/
inductive Event
  | send
  | refuse (reason : String)
  | answer (result : FlowResult)
  | stop
  | observe
  | timeout (reason : String)
  | abandon

/-- The steps: a request loads the change, writes, or fails on the way, and an
attempt goes on, and in the end records its outcome. -/
inductive Act
  | load (request : Request)
  | write (i : Nat) (env : Env) (revision : Nat)
  | fail (i : Nat)
  | attempt (i : Nat) (event : Event)
  | record (i : Nat) (revision : Nat) (replied : Bool)

def State.setCall (s : State) (i : Nat) (c : Call) (phase : CallPhase) : State :=
  { s with calls := s.calls.set i { c with phase := phase } }

def State.setAttempt (s : State) (i : Nat) (a : Attempt) : State :=
  { s with attempts := s.attempts.set i a }

/-- The attempt that an approval spawns when its write is through. -/
def Call.spawn (c : Call) (revision : Nat) (change : Change) (data : Publish) : Attempt where
  revision := revision
  reviewed := c.request.reviewed
  change := change
  data := data
  phase := .approved
  running := false
  answer := none

/-- A request writes what it has made: `transition`. -/
def State.write (s : State) (i : Nat) (c : Call) (env : Env) (revision : Nat) : Option State :=
  match c.phase, c.request.apply env c.change with
  | .loaded, .error error => some (s.setCall i c (.refused error))
  | .loaded, .ok (change, data) =>
      if s.record.accepts c.revision then
        (s.record.push ⟨revision, some (.request i), some change⟩ true).map fun record =>
          { s.setCall i c .written with
            record := record
            attempts := s.attempts ++ (data.map (c.spawn revision change)).toList }
      else some (s.setCall i c .concurrent)
  | _, _ => none

/-- What the task of an attempt, and the flow it has called, do. -/
def Attempt.step (a : Attempt) : Event → Option Attempt
  | .send =>
      match a.phase with
      | .approved => some { a with phase := .waiting, running := true }
      | _ => none
  | .refuse reason =>
      match a.phase with
      | .approved => some { a with phase := .recording (.error reason) }
      | _ => none
  | .answer result =>
      if a.running ∧ a.answer.isNone then some { a with answer := some result } else none
  | .stop => if a.running then some { a with running := false } else none
  | .observe =>
      match a.phase, a.answer with
      | .waiting, some result => some { a with phase := .recording result }
      | .waiting, none =>
          if a.running then none
          else some { a with phase := .recording (.error "The flow stopped before finishing") }
      | _, _ => none
  | .timeout reason =>
      match a.phase with
      | .waiting =>
          if a.running ∧ a.answer.isNone then some { a with phase := .recording (.error reason) }
          else none
      | _ => none
  | .abandon => some { a with phase := .done }

/-- An attempt records the outcome over the record of its approval.  Without a
reply it tries again, and leaves a record alone that was rewritten since. -/
def State.finish (s : State) (i : Nat) (a : Attempt) (revision : Nat) (replied : Bool) :
    Option State :=
  match a.phase with
  | .recording result =>
      if s.record.accepts a.revision then
        (s.record.push ⟨revision, some (.attempt i), some (outcome a.change result)⟩ true).map
          fun record =>
            { s.setAttempt i { a with phase := if replied then .done else a.phase } with
              record := record }
      else some (s.setAttempt i { a with phase := .done })
  | _ => none

def step (s : State) : Act → Option State
  | .load request =>
      s.record.current.bind fun w => w.content.map fun change =>
        { s with calls := s.calls ++ [⟨request, change, w.revision, .loaded⟩] }
  | .write i env revision => s.calls[i]?.bind fun c => s.write i c env revision
  | .fail i => s.calls[i]?.map fun c => s.setCall i c .failed
  | .record i revision replied => s.attempts[i]?.bind fun a => s.finish i a revision replied
  | .attempt i event => s.attempts[i]?.bind fun a => (a.step event).map (s.setAttempt i)

/-- A change from its proposal on. -/
def review : Machine State Act where
  init s := ∃ change revision, s = .start change revision
  step := step

/-! ## What a step does -/

/-- `change` was written as revision `revision`. -/
def Written (record : Register Writer Change) (revision : Nat) (change : Change) : Prop :=
  ∃ w ∈ record.log, w.revision = revision ∧ w.content = some change

/-- Everything a step can do. -/
inductive Step (s : State) : Act → State → Prop
  | calls {act : Act} {calls : List Call}
      (hcalls : ∀ c ∈ calls, Written s.record c.revision c.change ∨
        ∃ d ∈ s.calls, d.revision = c.revision ∧ d.change = c.change) :
      Step s act { s with calls := calls }
  | write {i revision : Nat} {env : Env} {c : Call} {new : Change} {data : Option Publish}
      {record : Register Writer Change} (hi : s.calls[i]? = some c)
      (happly : c.request.apply env c.change = .ok (new, data))
      (haccepts : s.record.accepts c.revision = true)
      (hpush : s.record.push ⟨revision, some (.request i), some new⟩ true = some record) :
      Step s (.write i env revision)
        { s.setCall i c .written with
          record := record
          attempts := s.attempts ++ (data.map (c.spawn revision new)).toList }
  | attempt {i : Nat} {event : Event} {a b : Attempt} (hi : s.attempts[i]? = some a)
      (hb : a.step event = some b) : Step s (.attempt i event) (s.setAttempt i b)
  | record {i revision : Nat} {replied : Bool} {a : Attempt} {result : FlowResult}
      {record : Register Writer Change} (hi : s.attempts[i]? = some a)
      (hp : a.phase = .recording result) (haccepts : s.record.accepts a.revision = true)
      (hpush : s.record.push ⟨revision, some (.attempt i), some (outcome a.change result)⟩ true =
        some record) :
      Step s (.record i revision replied)
        { s.setAttempt i { a with phase := if replied then .done else a.phase } with
          record := record }
  | leave {i revision : Nat} {replied : Bool} {a : Attempt} (hi : s.attempts[i]? = some a) :
      Step s (.record i revision replied) (s.setAttempt i { a with phase := .done })

variable {s t : State} {act : Act} {a b : Attempt} {c : Call} {i : Nat}

/-- A call that ends, or goes on, with what it has loaded. -/
theorem Step.setCall (hi : s.calls[i]? = some c) (phase : CallPhase) :
    Step s act (s.setCall i c phase) := by
  refine .calls fun d hd => Or.inr ?_
  rcases List.mem_or_eq_of_mem_set hd with hd | rfl
  · exact ⟨d, hd, rfl, rfl⟩
  · exact ⟨c, List.mem_of_getElem? hi, rfl, rfl⟩

theorem step_spec (hs : step s act = some t) : Step s act t := by
  cases act with
  | load request =>
      obtain ⟨w, hw, hs⟩ := Option.bind_eq_some_iff.mp hs
      obtain ⟨change, hc, rfl⟩ := Option.map_eq_some_iff.mp hs
      refine .calls fun c hmem => ?_
      rcases List.mem_append.mp hmem with hmem | hmem
      · exact Or.inr ⟨c, hmem, rfl, rfl⟩
      · obtain rfl := List.mem_singleton.mp hmem
        exact Or.inl ⟨w, Register.current_mem hw, rfl, hc⟩
  | write i env revision =>
      obtain ⟨c, hi, hs⟩ := Option.bind_eq_some_iff.mp hs
      rw [State.write] at hs
      split at hs
      · cases hs
        exact .setCall hi _
      · rename_i new data _ happly
        split at hs
        · rename_i haccepts
          obtain ⟨record, hpush, rfl⟩ := Option.map_eq_some_iff.mp hs
          exact .write hi happly haccepts hpush
        · cases hs
          exact .setCall hi _
      · cases hs
  | fail i =>
      obtain ⟨c, hi, rfl⟩ := Option.map_eq_some_iff.mp hs
      exact .setCall hi _
  | attempt i event =>
      obtain ⟨a, hi, hs⟩ := Option.bind_eq_some_iff.mp hs
      obtain ⟨b, hb, rfl⟩ := Option.map_eq_some_iff.mp hs
      exact .attempt hi hb
  | record i revision replied =>
      obtain ⟨a, hi, hs⟩ := Option.bind_eq_some_iff.mp hs
      rw [State.finish] at hs
      split at hs
      · rename_i result hp
        split at hs
        · rename_i haccepts
          obtain ⟨record, hpush, rfl⟩ := Option.map_eq_some_iff.mp hs
          exact .record hi hp haccepts hpush
        · cases hs
          exact .leave hi
      · cases hs

/-- Everything that can happen to an attempt. -/
inductive Attempt.Moves (a : Attempt) : Event → Attempt → Prop
  | send (hp : a.phase = .approved) : Moves a .send { a with phase := .waiting, running := true }
  | refuse {reason : String} (hp : a.phase = .approved) :
      Moves a (.refuse reason) { a with phase := .recording (.error reason) }
  | answer {result : FlowResult} (hr : a.running = true) (hn : a.answer = none) :
      Moves a (.answer result) { a with answer := some result }
  | stop (hr : a.running = true) : Moves a .stop { a with running := false }
  | answered {result : FlowResult} (hp : a.phase = .waiting) (ha : a.answer = some result) :
      Moves a .observe { a with phase := .recording result }
  | dropped {reason : String} (hp : a.phase = .waiting) (ha : a.answer = none)
      (hr : a.running = false) : Moves a .observe { a with phase := .recording (.error reason) }
  | timeout {reason : String} (hp : a.phase = .waiting) (hr : a.running = true)
      (hn : a.answer = none) : Moves a (.timeout reason) { a with phase := .recording (.error reason) }
  | abandon : Moves a .abandon { a with phase := .done }

theorem Attempt.moves {event : Event} (h : a.step event = some b) : a.Moves event b := by
  cases event with
  | send =>
      simp only [Attempt.step] at h
      split at h
      · cases h
        exact .send ‹_›
      · cases h
  | refuse reason =>
      simp only [Attempt.step] at h
      split at h
      · cases h
        exact .refuse ‹_›
      · cases h
  | answer result =>
      simp only [Attempt.step] at h
      split at h
      · rename_i hc
        cases h
        exact .answer hc.1 (Option.isNone_iff_eq_none.mp hc.2)
      · cases h
  | stop =>
      simp only [Attempt.step] at h
      split at h
      · cases h
        exact .stop ‹_›
      · cases h
  | observe =>
      simp only [Attempt.step] at h
      split at h
      · rename_i hp ha
        cases h
        exact .answered hp ha
      · rename_i hp ha
        split at h
        · cases h
        · rename_i hr
          cases h
          exact .dropped hp ha (Bool.eq_false_iff.mpr hr)
      · cases h
  | timeout reason =>
      simp only [Attempt.step] at h
      split at h
      · rename_i hp
        split at h
        · rename_i hc
          cases h
          exact .timeout hp hc.1 (Option.isNone_iff_eq_none.mp hc.2)
        · cases h
      · cases h
  | abandon =>
      cases h
      exact .abandon

/-- What a request writes may follow what it has loaded, and what an approval
sends is what it has reviewed. -/
theorem apply_eq_ok {env : Env} {request : Request} {change new : Change} {data : Option Publish}
    (h : request.apply env change = .ok (new, data)) :
    Successor change new ∧ ∀ d, data = some d → new.status = .publishing ∧
      d.files = publishFiles new.files ∧ ∀ t, request.reviewed = some t → new.updatedAt = some t := by
  cases request with
  | edit title description =>
      obtain ⟨_, hok, he⟩ := map_eq_ok h
      cases he
      exact ⟨(editChange_eq_ok hok).successor, fun d hd => by cases hd⟩
  | addFiles files =>
      obtain ⟨_, hok, he⟩ := map_eq_ok h
      cases he
      exact ⟨(addChangeFiles_eq_ok hok).successor, fun d hd => by cases hd⟩
  | approve reviewed =>
      obtain ⟨⟨_, target, user⟩, hok, he⟩ := map_eq_ok h
      cases he
      obtain ⟨_, hr, rfl⟩ := approveChange_eq_ok hok
      refine ⟨.of_approveChange hok, ?_⟩
      intro d hd
      cases hd
      exact ⟨rfl, rfl, hr⟩
  | reject =>
      obtain ⟨_, hok, he⟩ := map_eq_ok h
      cases he
      exact ⟨.of_rejectChange hok, fun d hd => by cases hd⟩

/-! ## What is kept -/

/-- An attempt publishes what its approval has written, which is what was reviewed. -/
structure Attempt.Sound (record : Register Writer Change) (a : Attempt) : Prop where
  written : Written record a.revision a.change
  publishing : a.change.status = .publishing
  data : a.data.files = publishFiles a.change.files
  reviewed : ∀ t, a.reviewed = some t → a.change.updatedAt = some t

structure Orderly (s : State) : Prop where
  lineage : s.record.Lineage Successor
  calls : ∀ c ∈ s.calls, Written s.record c.revision c.change
  attempts : ∀ a ∈ s.attempts, a.Sound s.record

/-- The stored change `old` is rewritten as `new`. -/
def Rewrites (s t : State) (old new : Change) : Prop :=
  s.change = some old ∧ Successor old new ∧
    ∃ w, w.content = some new ∧ s.record.push w true = some t.record

theorem Written.mono {record record' : Register Writer Change} {revision : Nat} {change : Change}
    (h : Written record revision change) (hl : record.log ⊆ record'.log) :
    Written record' revision change := by
  obtain ⟨w, hw, hc⟩ := h
  exact ⟨w, hl hw, hc⟩

theorem Attempt.Sound.mono {record record' : Register Writer Change} (h : a.Sound record)
    (hl : record.log ⊆ record'.log) : a.Sound record' :=
  { h with written := h.written.mono hl }

/-- Phases and answers are nobody's business here. -/
theorem Attempt.Sound.moved {record : Register Writer Change} (h : a.Sound record) (p : Phase)
    (r : Bool) (ans : Option FlowResult) :
    Attempt.Sound record { a with phase := p, running := r, answer := ans } :=
  ⟨h.written, h.publishing, h.data, h.reviewed⟩

theorem Attempt.Sound.step {record : Register Writer Change} {event : Event} (h : a.Sound record)
    (hb : a.step event = some b) : b.Sound record := by
  cases Attempt.moves hb <;> exact h.moved ..

/-- A compare-and-swap succeeds on what is stored. -/
theorem Written.current {revision : Nat} {change : Change}
    (h : Written s.record revision change) (ha : s.record.accepts revision = true) :
    ∃ w, s.record.current = some w ∧ w.revision = revision ∧ w.content = some change := by
  obtain ⟨w, hw, hr, hc⟩ := h
  exact ⟨w, (Register.current_of_accepts ha hw hr).1, hr, hc⟩

theorem change_eq {w : Write Writer Change} {change : Change} (hw : s.record.current = some w)
    (hc : w.content = some change) : s.change = some change :=
  Option.bind_eq_some_iff.mpr ⟨w, hw, hc⟩

/-- The record stays, or is rewritten as something that may follow it. -/
theorem Orderly.record (h : Orderly s) (hs : Step s act t) :
    t.record = s.record ∨ ∃ old new, Rewrites s t old new := by
  cases hs with
  | calls _ | attempt _ _ | leave _ => exact Or.inl rfl
  | @write i revision env c new data record hi happly haccepts hpush =>
      obtain ⟨w, hw, _, hc⟩ := (h.calls c (List.mem_of_getElem? hi)).current haccepts
      exact Or.inr ⟨c.change, new, change_eq hw hc, (apply_eq_ok happly).1, _, rfl, hpush⟩
  | @record i revision replied a result record hi hp haccepts hpush =>
      have ha := h.attempts a (List.mem_of_getElem? hi)
      obtain ⟨w, hw, _, hc⟩ := ha.written.current haccepts
      exact Or.inr ⟨a.change, _, change_eq hw hc, .of_outcome ha.publishing result, _, rfl, hpush⟩

theorem Orderly.log_subset (h : Orderly s) (hs : Step s act t) : s.record.log ⊆ t.record.log := by
  rcases h.record hs with hr | ⟨_, _, _, _, _, _, hp⟩
  · exact hr ▸ List.Subset.refl _
  · exact Register.log_subset hp

theorem Orderly.lineage_step (h : Orderly s) (hs : Step s act t) : t.record.Lineage Successor := by
  rcases h.record hs with hr | ⟨old, new, hc, hsucc, w, hw, hp⟩
  · exact hr ▸ h.lineage
  · obtain ⟨w₀, hw₀, hc₀⟩ := Option.bind_eq_some_iff.mp hc
    exact h.lineage.push hw₀ hc₀ hsucc hw hp

theorem Orderly.calls_step (h : Orderly s) (hs : Step s act t) :
    ∀ c ∈ t.calls, Written t.record c.revision c.change := by
  have hl := h.log_subset hs
  cases hs with
  | calls hcalls =>
      intro c hc
      rcases hcalls c hc with hw | ⟨d, hd, hr, hch⟩
      · exact hw
      · exact hr ▸ hch ▸ h.calls d hd
  | @write i revision env c new data record hi happly haccepts hpush =>
      intro d hd
      rcases List.mem_or_eq_of_mem_set hd with hd | rfl
      · exact (h.calls d hd).mono hl
      · exact (h.calls c (List.mem_of_getElem? hi)).mono hl
  | attempt _ _ | leave _ => exact h.calls
  | record _ _ _ _ =>
      intro c hc
      exact (h.calls c hc).mono hl

theorem Orderly.attempts_step (h : Orderly s) (hs : Step s act t) :
    ∀ a ∈ t.attempts, a.Sound t.record := by
  have hl := h.log_subset hs
  have hset : ∀ {i : Nat} {a b : Attempt}, s.attempts[i]? = some a → (b.Sound s.record) →
      ∀ d ∈ s.attempts.set i b, d.Sound s.record := by
    intro i a b _ hb d hd
    rcases List.mem_or_eq_of_mem_set hd with hd | rfl
    · exact h.attempts d hd
    · exact hb
  cases hs with
  | calls _ => exact h.attempts
  | @write i revision env c new data record hi happly haccepts hpush =>
      intro d hd
      rcases List.mem_append.mp hd with hd | hd
      · exact (h.attempts d hd).mono hl
      · obtain ⟨data', hdata, rfl⟩ := Option.map_eq_some_iff.mp (Option.mem_toList.mp hd)
        obtain ⟨hst, hf, hrev⟩ := (apply_eq_ok happly).2 data' hdata
        obtain ⟨_, hlog, _⟩ := Register.push_eq_some hpush
        exact ⟨⟨_, hlog ▸ List.mem_cons_self, rfl, rfl⟩, hst, hf, hrev⟩
  | @attempt i event a b hi hb =>
      exact hset hi ((h.attempts a (List.mem_of_getElem? hi)).step hb)
  | @record i revision replied a result record hi hp haccepts hpush =>
      intro d hd
      exact (hset hi ((h.attempts a (List.mem_of_getElem? hi)).moved ..) d hd).mono hl
  | @leave i revision replied a hi =>
      exact hset hi ((h.attempts a (List.mem_of_getElem? hi)).moved ..)

theorem Orderly.step (h : Orderly s) (hs : Step s act t) : Orderly t :=
  ⟨h.lineage_step hs, h.calls_step hs, h.attempts_step hs⟩

theorem orderly_start (change : Change) (revision : Nat) : Orderly (.start change revision) :=
  ⟨List.isChain_singleton _, List.forall_mem_nil _, List.forall_mem_nil _⟩

theorem orderly_of_reachable (h : review.Reachable s) : Orderly s := by
  refine h.invariant ?_ fun s act t hi _ hs => hi.step (step_spec hs)
  rintro s ⟨change, revision, rfl⟩
  exact orderly_start change revision

/-! ## Whose change it is -/

theorem apply_proposedBy {env : Env} {request : Request} {change new : Change}
    {data : Option Publish} (h : request.apply env change = .ok (new, data)) :
    new.proposedBy = change.proposedBy := by
  cases request with
  | edit title description =>
      obtain ⟨_, hok, he⟩ := map_eq_ok h
      cases he
      exact (editChange_proposedBy hok).1
  | addFiles files =>
      obtain ⟨_, hok, he⟩ := map_eq_ok h
      cases he
      exact (addChangeFiles_proposedBy hok).1
  | approve reviewed =>
      obtain ⟨⟨_, target, user⟩, hok, he⟩ := map_eq_ok h
      cases he
      obtain ⟨_, _, rfl⟩ := approveChange_eq_ok hok
      rfl
  | reject =>
      obtain ⟨_, hok, he⟩ := map_eq_ok h
      cases he
      obtain ⟨_, rfl⟩ := rejectChange_eq_ok hok
      rfl

theorem Written.mem_versions {record : Register Writer Change} {revision : Nat} {change : Change}
    (h : Written record revision change) : change ∈ record.versions := by
  obtain ⟨w, hw, _, hc⟩ := h
  exact Register.mem_versions.mpr ⟨w, hw, hc⟩

/-- All versions name one proposer. -/
def ProposedBy (label : String) (s : State) : Prop :=
  ∀ c ∈ s.record.versions, c.proposedBy = label

theorem ProposedBy.step {label : String} (hp : ProposedBy label s) (h : Orderly s)
    (hs : Step s act t) : ProposedBy label t := by
  cases hs with
  | calls _ | attempt _ _ | leave _ => exact hp
  | @write i revision env c new data record hi happly haccepts hpush =>
      have hc : c.change.proposedBy = label :=
        hp _ (h.calls c (List.mem_of_getElem? hi)).mem_versions
      intro d hd
      rw [Register.versions_push rfl hpush] at hd
      rcases List.mem_cons.mp hd with rfl | hd
      · exact (apply_proposedBy happly).trans hc
      · exact hp d hd
  | @record i revision replied a result record hi _ haccepts hpush =>
      have ha : a.change.proposedBy = label :=
        hp _ (h.attempts a (List.mem_of_getElem? hi)).written.mem_versions
      intro d hd
      rw [Register.versions_push rfl hpush] at hd
      rcases List.mem_cons.mp hd with rfl | hd
      · exact (outcome_proposedBy result).trans ha
      · exact hp d hd

theorem proposedBy_start (change : Change) (revision : Nat) :
    ProposedBy change.proposedBy (.start change revision) := by
  intro c hc
  rw [List.mem_singleton.mp hc]

/-! ## What is published, and what stands -/

/-- A proposed change of one flow, and a pod that nobody signs in to. -/
def draft : Change where
  id := "0a"
  target := "workspace"
  title := "Add a flow"
  description := none
  status := .pending
  proposedBy := "anonymous"
  createdAt := 5
  updatedAt := some 5
  decidedBy := none
  decidedAt := none
  issues := []
  files := [⟨"flows/a.yaml", some "flow: {}", none⟩]
  result := []
  error := none

def pod (now : Int) (timeout : Option Nat) : Env where
  authoring := ⟨[⟨"workspace", ["flows/"], "system/publish_workspace", []⟩], "groups"⟩
  caller := none
  checkedAt := now
  now := now
  timeout := timeout
  base _ := none
  validate _ := []

/-- Once a change is published or rejected, it stays as it is. -/
theorem decision_stands (h : review.Reachable s) {as : List Act} (hr : review.Run s as t)
    {c : Change} (hc : s.change = some c) (hd : c.status = .published ∨ c.status = .rejected) :
    t.change = some c := by
  have hdec : c.decided = true := by
    rw [Change.decided]
    rcases hd with hd | hd <;> rw [hd] <;> rfl
  have hkept : Orderly t ∧ t.change = some c := by
    refine hr.invariant (I := fun t => Orderly t ∧ t.change = some c)
      ⟨orderly_of_reachable h, hc⟩ fun s act t hi _ hstep => ?_
    have hspec := step_spec hstep
    refine ⟨hi.1.step hspec, ?_⟩
    rcases hi.1.record hspec with hrec | ⟨old, new, hold, hsucc, _⟩
    · rw [State.change, hrec]
      exact hi.2
    · -- a decided change has no successor
      obtain rfl := Option.some.inj (hold.symm.trans hi.2)
      cases hsucc.undecided.symm.trans hdec
  exact hkept.2

/-- An edit that was loaded before the change was rejected, and one after. -/
theorem decision_stands_rejected :
    ∃ (s t : State) (c : Change), c.status = .rejected ∧ s.change = some c ∧
      t.calls.length = 3 ∧ t.change = some c := by
  have hrun : ((review.exec (fun _ _ => True) (.start draft 1)
      [.load .reject, .load (.edit (some "Late") none), .write 0 (pod 9 none) 2]).any fun s =>
      (s.change.any (·.status == .rejected)) &&
        (review.exec (fun _ _ => True) s [.write 1 (pod 9 none) 3,
          .load (.edit (some "Later") none), .write 2 (pod 10 none) 3]).any fun t =>
            t.calls.length == 3) = true := by
    decide
  obtain ⟨s, hr, hs⟩ := Machine.exists_of_exec hrun
  rw [Bool.and_eq_true] at hs
  obtain ⟨c, hc, hst⟩ := (Option.any_eq_true ..).mp hs.1
  obtain ⟨t, hrt, ht⟩ := Machine.exists_of_exec hs.2
  have hst := beq_iff_eq.mp hst
  refine ⟨s, t, c, hst, hc, beq_iff_eq.mp ht, ?_⟩
  exact decision_stands ⟨_, _, ⟨draft, 1, rfl⟩, hr⟩ hrt hc (Or.inr hst)

end Flowgen.Authoring
