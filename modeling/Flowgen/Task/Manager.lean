/-
# `Flowgen.Task.Manager` — the lease tasks of one pod (`core/src/task/manager.rs`)

`TaskManager` keeps one background task for each flow that wants to lead: it
acquires the lease, and then hands off to a task that renews it, and back.
The handle of the task is recorded in `active_leases`.  `register` puts a
registration into a queue; the event loop aborts the task that is recorded
for the flow, if any, and starts another one.  `unregister` aborts the
recorded task.

`manager` interleaves these with the tasks themselves, which make the calls of
`Flowgen.Lease.Executor` and are answered arbitrarily.  An `abort` ends a task
at once only where it is suspended.  A task that is being polled runs on to
its next suspension point; until then it is `aborted` and not yet `over`.

A section of the code that holds the lock of `active_leases` is one step.
-/
import Flowgen.Lib.Machine
import Flowgen.Lease.Executor

namespace Flowgen.Task.Manager

open Flowgen.Lib Flowgen.Lease Flowgen.Cache

/-- Whether a task is being polled.  An aborted one stops as soon as it is not. -/
inductive Status
  | suspended
  | running
  | aborted
  | over
deriving DecidableEq

/-- Where a lease task is; `sent` says that the call it waits for has been made. -/
inductive Body (ι : Type)
  | acquisition
  | acquiring (sent : Bool) (p : LeaseProg ι (LeaseResult ι))
  | renewal (generation : Nat)
  | renewing (generation : Nat) (sent : Bool) (p : LeaseProg ι (RenewalResult ι))
  | releasing (sent : Bool) (p : LeaseProg ι Unit)
  | handOffToAcquisition
  | handOffToRenewal (generation : Nat)

/-- A spawned `LeaseTask`.  `registration` numbers the registrations that were
processed; a task that is handed off to belongs to the same one. -/
structure LeaseTask (κ ι : Type) where
  taskId : κ
  registration : Nat
  currentRevision : Nat
  body : Body ι
  status : Status

structure ActiveLease where
  handle : Nat
  leading : Bool
deriving DecidableEq

structure TaskRegistration (κ : Type) where
  taskId : κ
  leaderElection : Bool

/-- A call that writes the lease key, and the handle that was recorded when it was made. -/
structure Written where
  handle : Nat
  recorded : Option Nat
deriving DecidableEq

/-- A task is known by its place in `tasks`. -/
structure State (κ ι : Type) where
  queue : List (TaskRegistration κ)
  /-- The flow whose stale entry the event loop has just removed. -/
  processing : Option κ
  activeLeases : κ → Option ActiveLease
  tasks : List (LeaseTask κ ι)
  /-- The registration in force: processed last, and not unregistered. -/
  inForce : κ → Option Nat
  registrations : Nat
  writes : List Written

variable {κ ι : Type}

def State.initial : State κ ι where
  queue := []
  processing := none
  activeLeases _ := none
  tasks := []
  inForce _ := none
  registrations := 0
  writes := []

/-! ## A lease task on its own -/

def Status.active : Status → Bool
  | .running => true
  | .aborted => true
  | _ => false

/-- Nothing will stop the task. -/
def Status.live : Status → Bool
  | .suspended => true
  | .running => true
  | _ => false

def Status.abort : Status → Status
  | .suspended => .over
  | .running => .aborted
  | status => status

/-- A poll returns `Pending`. -/
def Status.suspend : Status → Option Status
  | .running => some .suspended
  | .aborted => some .over
  | _ => none

def Body.pending : Body ι → Option (Req ι)
  | .acquiring _ p => p.pending
  | .renewing _ _ p => p.pending
  | .releasing _ p => p.pending
  | _ => none

/-- The pause before an attempt or a renewal is over. -/
def LeaseTask.begin [DecidableEq ι] (ex : Executor ι) (t : LeaseTask κ ι) : Option (Body ι) :=
  match t.body with
  | .acquisition => some (.acquiring false (acquireLease ex))
  | .renewal generation =>
      some (.renewing generation false (renewLease ex t.currentRevision generation))
  | _ => none

def Body.send : Body ι → Option (Body ι × Req ι)
  | .acquiring false p => p.pending.map (.acquiring true p, ·)
  | .renewing generation false p => p.pending.map (.renewing generation true p, ·)
  | .releasing false p => p.pending.map (.releasing true p, ·)
  | _ => none

def Body.reply (f : (r : Req ι) → r.Reply) : Body ι → Option (Body ι)
  | .acquiring true p => (p.answer fun r => some (f r, ())).map fun (p, _) => .acquiring false p
  | .renewing generation true p =>
      (p.answer fun r => some (f r, ())).map fun (p, _) => .renewing generation false p
  | .releasing true p => (p.answer fun r => some (f r, ())).map fun (p, _) => .releasing false p
  | _ => none

/-- What a task does with the result of an operation.  `closed` says that the
flow has terminated, and `handOver` is the answer of `should_hand_over`. -/
def LeaseTask.settle (closed handOver : Bool) (t : LeaseTask κ ι) : Option (LeaseTask κ ι) :=
  match t.body with
  | .acquiring _ (.ret res) =>
      match res with
      | .ok (.acquired revision generation) =>
          if closed then some { t with currentRevision := revision, status := .over }
          else some { t with currentRevision := revision, body := .handOffToRenewal generation }
      | .ok (.takenOver revision generation) =>
          if closed then some { t with currentRevision := revision, status := .over }
          else some { t with currentRevision := revision, body := .handOffToRenewal generation }
      | _ => some { t with body := .acquisition }
  | .renewing generation _ (.ret res) =>
      match res with
      | .ok (.renewed revision) =>
          if handOver && !closed then
            some
              { t with
                currentRevision := revision
                body := .releasing false (releaseLeaseWithRevision revision) }
          else some { t with currentRevision := revision, body := .renewal generation }
      | .error _ => some { t with body := .renewal generation }
      | _ =>
          if closed then some { t with status := .over }
          else some { t with body := .handOffToAcquisition }
  | .releasing _ (.ret _) => some { t with body := .handOffToAcquisition }
  | _ => none

/-- The task that is spawned by a hand-off, and whether it leads. -/
def LeaseTask.successor (t : LeaseTask κ ι) : Option (LeaseTask κ ι × Bool) :=
  match t.body with
  | .handOffToAcquisition => some ({ t with body := .acquisition, status := .suspended }, false)
  | .handOffToRenewal generation =>
      some ({ t with body := .renewal generation, status := .suspended }, true)
  | _ => none

/-- The calls that write the lease key. -/
def writesKey : Req ι → Bool
  | .create _ => true
  | .update _ _ => true
  | .deleteWithRevision _ => true
  | _ => false

/-! ## The manager -/

inductive Act (κ ι : Type)
  | register (r : TaskRegistration κ)
  | unregister (id : κ)
  | take
  | install
  | poll (handle : Nat)
  | suspend (handle : Nat)
  | begin (handle : Nat)
  | send (handle : Nat)
  | reply (handle : Nat) (f : (r : Req ι) → r.Reply)
  | settle (handle : Nat) (closed handOver : Bool)
  | handOff (handle : Nat)

section Step

variable [DecidableEq κ]

/-- Removes the entry of a flow and aborts its task. -/
def State.remove (s : State κ ι) (id : κ) : State κ ι :=
  { s with
    activeLeases := Function.update s.activeLeases id none
    inForce := Function.update s.inForce id none
    tasks := match s.activeLeases id with
      | some a => s.tasks.modify a.handle fun t => { t with status := t.status.abort }
      | none => s.tasks }

/-- Spawns a task and inserts it; the handle that was recorded before is dropped. -/
def State.spawn (s : State κ ι) (t : LeaseTask κ ι) (leading : Bool) : State κ ι :=
  { s with
    tasks := s.tasks ++ [t]
    activeLeases := Function.update s.activeLeases t.taskId (some ⟨s.tasks.length, leading⟩) }

def State.setTask (s : State κ ι) (handle : Nat) (t : LeaseTask κ ι) : State κ ι :=
  { s with tasks := s.tasks.set handle t }

/-- The task, if it is being polled. -/
def State.polled (s : State κ ι) (handle : Nat) : Option (LeaseTask κ ι) :=
  s.tasks[handle]?.filter (·.status.active)

/-- `hand_off_to_acquisition` by the event loop. -/
def State.installNew (s : State κ ι) (id : κ) : State κ ι :=
  { s with
    processing := none
    inForce := Function.update s.inForce id (some s.registrations)
    registrations := s.registrations + 1 }.spawn
      { taskId := id, registration := s.registrations, currentRevision := 0,
        body := .acquisition, status := .suspended } false

def step [DecidableEq ι] (ex : Executor ι) (s : State κ ι) : Act κ ι → Option (State κ ι)
  | .register r => some { s with queue := s.queue ++ [r] }
  | .unregister id => some (s.remove id)
  | .take =>
      match s.processing, s.queue with
      | none, r :: queue =>
          if r.leaderElection then
            some { s.remove r.taskId with queue := queue, processing := some r.taskId }
          -- the flow is sent `NoElection`
          else some { s with queue := queue }
      | _, _ => none
  | .install => s.processing.map s.installNew
  | .poll handle =>
      match s.tasks[handle]? with
      | some t =>
          if t.status = .suspended then some (s.setTask handle { t with status := .running })
          else none
      | none => none
  | .suspend handle =>
      match s.polled handle with
      | some t =>
          -- reading the clock is not a suspension point
          if t.body.pending = some .clock then none
          else t.status.suspend.map fun status => s.setTask handle { t with status := status }
      | none => none
  | .begin handle =>
      match s.polled handle with
      | some t => (t.begin ex).map fun body => s.setTask handle { t with body := body }
      | none => none
  | .send handle =>
      match s.polled handle with
      | some t => t.body.send.map fun (body, r) =>
          { s.setTask handle { t with body := body } with
            writes :=
              if writesKey r then s.writes ++ [⟨handle, (s.activeLeases t.taskId).map (·.handle)⟩]
              else s.writes }
      | none => none
  | .reply handle f =>
      match s.polled handle with
      | some t => (t.body.reply f).map fun body => s.setTask handle { t with body := body }
      | none => none
  | .settle handle closed handOver =>
      match s.polled handle with
      | some t => (t.settle closed handOver).map (s.setTask handle)
      | none => none
  | .handOff handle =>
      match s.polled handle with
      | some t => t.successor.map fun (t', leading) =>
          (s.setTask handle { t with status := .over }).spawn t' leading
      | none => none

def manager [DecidableEq ι] (ex : Executor ι) : Machine (State κ ι) (Act κ ι) where
  init s := s = .initial
  step := step ex

end Step

/-! ## One lease task for each flow -/

/-- A lease task that nothing will stop is the recorded one, and belongs to
the registration in force; and the lease key was only ever written by the task
that was recorded. -/
structure Single (s : State κ ι) : Prop where
  recorded : ∀ (h : Nat) (t : LeaseTask κ ι), s.tasks[h]? = some t → t.status.live = true →
    (s.activeLeases t.taskId).map (·.handle) = some h ∧ s.inForce t.taskId = some t.registration
  written : ∀ w ∈ s.writes, w.recorded = some w.handle

/-- A task that was aborted while it was being polled reaches a suspension
point, or its end, before it hands off or writes the lease key. -/
def Heeds (s : State κ ι) : Act κ ι → Prop
  | .send h => ∀ t, s.tasks[h]? = some t → t.status = .aborted →
      ∀ r ∈ t.body.pending, writesKey r = false
  | .handOff h => ∀ t, s.tasks[h]? = some t → t.status ≠ .aborted
  | _ => True

/-- What holds of all tasks in runs in which aborts are heeded. -/
structure Tidy (s : State κ ι) : Prop extends Single s where
  entry : ∀ id a, s.activeLeases id = some a → ∃ t, s.tasks[a.handle]? = some t ∧ t.taskId = id
  processed : ∀ (h : Nat) (t : LeaseTask κ ι), s.tasks[h]? = some t → t.registration < s.registrations
  aborted : ∀ (h : Nat) (t : LeaseTask κ ι), s.tasks[h]? = some t → t.status = .aborted →
    (s.activeLeases t.taskId).map (·.handle) ≠ some h ∧ s.inForce t.taskId ≠ some t.registration
  removed : ∀ id, s.processing = some id → s.activeLeases id = none

variable {s s' : State κ ι} {h h' : Nat} {t t' : LeaseTask κ ι} {id : κ}

theorem State.getElem?_setTask (ht : (s.setTask h t').tasks[h']? = some t) :
    (h' = h ∧ t = t') ∨ (h' ≠ h ∧ s.tasks[h']? = some t) := by
  by_cases he : h = h'
  · subst he
    rw [State.setTask, List.getElem?_set_self'] at ht
    obtain ⟨_, _, rfl⟩ := Option.map_eq_some_iff.mp ht
    exact Or.inl ⟨rfl, rfl⟩
  · rw [State.setTask, List.getElem?_set_ne he] at ht
    exact Or.inr ⟨Ne.symm he, ht⟩

/-- A task takes a step of its own; what it writes, it writes while recorded. -/
theorem Tidy.of_setTask (hs : Tidy s) {writes : List Written} (ht : s.tasks[h]? = some t)
    (hid : t'.taskId = t.taskId) (hreg : t'.registration = t.registration)
    (hlive : t'.status.live = true → t.status.live = true)
    (hab : t'.status = .aborted → t.status = .aborted)
    (hw : ∀ w ∈ writes, w.recorded = some w.handle) :
    Tidy { s.setTask h t' with writes := writes } where
  recorded h' u hu hul := by
    rcases State.getElem?_setTask hu with ⟨rfl, rfl⟩ | ⟨_, hu⟩
    · rw [hid, hreg]
      exact hs.recorded _ t ht (hlive hul)
    · exact hs.recorded h' u hu hul
  written := hw
  entry id a ha := by
    obtain ⟨u, hu, huid⟩ := hs.entry id a ha
    by_cases he : h = a.handle
    · subst he
      cases ht.symm.trans hu
      refine ⟨t', ?_, hid.trans huid⟩
      show (s.tasks.set a.handle t')[a.handle]? = some t'
      rw [List.getElem?_set_self', ht]
      rfl
    · refine ⟨u, ?_, huid⟩
      show (s.tasks.set h t')[a.handle]? = some u
      rw [List.getElem?_set_ne he, hu]
  processed h' u hu := by
    rcases State.getElem?_setTask hu with ⟨rfl, rfl⟩ | ⟨_, hu⟩
    · exact hreg ▸ hs.processed _ t ht
    · exact hs.processed h' u hu
  aborted h' u hu hua := by
    rcases State.getElem?_setTask hu with ⟨rfl, rfl⟩ | ⟨_, hu⟩
    · rw [hid, hreg]
      exact hs.aborted _ t ht (hab hua)
    · exact hs.aborted h' u hu hua
  removed := hs.removed

theorem Status.abort_not_live (st : Status) : st.abort.live = false := by
  cases st <;> rfl

/-- Where a flow has no entry, no task of it is live. -/
theorem Tidy.not_live (hs : Tidy s) (hid : s.activeLeases t.taskId = none)
    (ht : s.tasks[h]? = some t) : t.status.live = false := by
  rw [← Bool.not_eq_true]
  intro hl
  have := (hs.recorded h t ht hl).1
  simp [hid] at this

/-! ### What the steps of a task leave as it is -/

theorem State.polled_eq_some (hp : s.polled h = some t) :
    s.tasks[h]? = some t ∧ t.status.active = true :=
  Option.filter_eq_some_iff.mp hp

theorem Status.suspend_frame {st st' : Status} (h : st.suspend = some st') :
    (st'.live = true → st.live = true) ∧ st' ≠ .aborted := by
  cases st <;> cases h <;> decide

theorem LeaseTask.settle_frame {closed handOver : Bool} (ht : t.settle closed handOver = some t') :
    t'.taskId = t.taskId ∧ t'.registration = t.registration ∧
      (t'.status = t.status ∨ t'.status = .over) := by
  rw [LeaseTask.settle] at ht
  split at ht
  · split at ht <;> (try split at ht) <;> cases ht <;> simp
  · split at ht <;> (try split at ht) <;> cases ht <;> simp
  · cases ht
    simp
  · cases ht

theorem LeaseTask.successor_frame {leading : Bool} (ht : t.successor = some (t', leading)) :
    t'.taskId = t.taskId ∧ t'.registration = t.registration ∧ t'.status = .suspended := by
  rw [LeaseTask.successor] at ht
  split at ht <;> cases ht <;> simp

theorem Body.pending_of_send {body body' : Body ι} {r : Req ι} (hb : body.send = some (body', r)) :
    body.pending = some r := by
  unfold Body.send at hb
  split at hb
  iterate 3
    · obtain ⟨r', hr, he⟩ := Option.map_eq_some_iff.mp hb
      cases he
      exact hr
  · cases hb

/-- A task that is polled and takes a step of its own stays as live as it was. -/
theorem Tidy.of_polled (hs : Tidy s) (hp : s.polled h = some t) (hid : t'.taskId = t.taskId)
    (hreg : t'.registration = t.registration) (hst : t'.status = t.status ∨ t'.status = .over) :
    Tidy (s.setTask h t') := by
  refine hs.of_setTask (State.polled_eq_some hp).1 hid hreg (fun hl => ?_) (fun hab => ?_) hs.written
  · rcases hst with he | he
    · exact he ▸ hl
    · simp [he, Status.live] at hl
  · rcases hst with he | he
    · exact he ▸ hab
    · simp [he] at hab

theorem tidy_initial : Tidy (.initial : State κ ι) :=
  ⟨⟨nofun, nofun⟩, nofun, nofun, nofun, nofun⟩

section Steps

variable [DecidableEq κ]

/-- Removing an entry aborts its task, and leaves the others as they are. -/
theorem State.getElem?_remove (s : State κ ι) (id : κ) (h : Nat) :
    (s.remove id).tasks[h]? = s.tasks[h]?.map fun t =>
      if (s.activeLeases id).map (·.handle) = some h then { t with status := t.status.abort }
      else t := by
  rw [State.remove]
  cases ha : s.activeLeases id with
  | none => simp
  | some a =>
      simp only [List.getElem?_modify, Option.map_some, Option.some.injEq, Option.map_eq_map]

theorem State.remove_self (s : State κ ι) (id : κ) :
    (s.remove id).activeLeases id = none ∧ (s.remove id).inForce id = none := by
  simp [State.remove]

theorem State.remove_ne (s : State κ ι) {id id' : κ} (hne : id' ≠ id) :
    (s.remove id).activeLeases id' = s.activeLeases id' ∧
      (s.remove id).inForce id' = s.inForce id' := by
  simp [State.remove, hne]

theorem Tidy.remove (hs : Tidy s) (id : κ) : Tidy (s.remove id) where
  recorded h t ht hl := by
    rw [State.getElem?_remove] at ht
    obtain ⟨u, hu, rfl⟩ := Option.map_eq_some_iff.mp ht
    split at hl
    · simp [Status.abort_not_live] at hl
    · rename_i hh
      have hrec := hs.recorded h u hu hl
      have hne : u.taskId ≠ id := fun he => hh (he ▸ hrec.1)
      simpa only [if_neg hh, State.remove_ne s hne] using hrec
  written := hs.written
  entry id' a ha := by
    by_cases he : id' = id
    · subst he
      simp [State.remove_self] at ha
    · rw [(State.remove_ne s he).1] at ha
      obtain ⟨u, hu, hid⟩ := hs.entry id' a ha
      refine ⟨_, by rw [State.getElem?_remove, hu]; rfl, ?_⟩
      split <;> exact hid
  processed h t ht := by
    rw [State.getElem?_remove] at ht
    obtain ⟨u, hu, rfl⟩ := Option.map_eq_some_iff.mp ht
    split <;> exact hs.processed h u hu
  aborted h t ht hab := by
    rw [State.getElem?_remove] at ht
    obtain ⟨u, hu, rfl⟩ := Option.map_eq_some_iff.mp ht
    by_cases hid : u.taskId = id
    · split <;> simp [hid, State.remove_self]
    · by_cases hh : (s.activeLeases id).map (·.handle) = some h
      · -- the entry of `id` is that of a task of `id`
        obtain ⟨a, ha, rfl⟩ := Option.map_eq_some_iff.mp hh
        obtain ⟨u', hu', hid'⟩ := hs.entry id a ha
        cases hu.symm.trans hu'
        exact (hid hid').elim
      · rw [if_neg hh] at hab ⊢
        rw [(State.remove_ne s hid).1, (State.remove_ne s hid).2]
        exact hs.aborted h u hu hab
  removed id' hp := by
    by_cases he : id' = id
    · subst he
      exact (State.remove_self s _).1
    · rw [(State.remove_ne s he).1]
      exact hs.removed id' hp

/-- A task is spawned for a flow none of whose tasks is live. -/
theorem Tidy.spawn (hs : Tidy s) {leading : Bool}
    (hno : ∀ (h : Nat) (u : LeaseTask κ ι), s.tasks[h]? = some u → u.taskId = t.taskId →
      u.status.live = false)
    (hproc : s.processing ≠ some t.taskId) (hforce : s.inForce t.taskId = some t.registration)
    (hreg : t.registration < s.registrations) (hst : t.status = .suspended) :
    Tidy (s.spawn t leading) := by
  have hcases : ∀ {h u}, (s.spawn t leading).tasks[h]? = some u →
      s.tasks[h]? = some u ∨ (h = s.tasks.length ∧ u = t) := by
    intro h u hu
    rcases Nat.lt_trichotomy h s.tasks.length with hlt | rfl | hgt
    · exact Or.inl (by simpa [State.spawn, List.getElem?_append_left hlt] using hu)
    · exact Or.inr ⟨rfl, by simpa [State.spawn, eq_comm] using hu⟩
    · simp [State.spawn, List.getElem?_append_right (Nat.le_of_lt hgt),
        List.getElem?_eq_none_iff.mpr (show [t].length ≤ h - s.tasks.length by simp; omega)] at hu
  have hself : (s.spawn t leading).activeLeases t.taskId = some ⟨s.tasks.length, leading⟩ := by
    simp [State.spawn]
  have hother : ∀ {id}, id ≠ t.taskId → (s.spawn t leading).activeLeases id = s.activeLeases id := by
    intro id hne
    simp [State.spawn, hne]
  have hlt : ∀ {h u}, s.tasks[h]? = some u → h < s.tasks.length :=
    fun hu => (List.getElem?_eq_some_iff.mp hu).1
  constructor
  · constructor
    · intro h u hu hl
      rcases hcases hu with hu | ⟨rfl, rfl⟩
      · have hne : u.taskId ≠ t.taskId := fun he => by simp [hno h u hu he] at hl
        rw [hother hne]
        exact hs.recorded h u hu hl
      · exact ⟨by rw [hself]; rfl, hforce⟩
    · exact hs.written
  · intro id a ha
    by_cases he : id = t.taskId
    · subst he
      obtain rfl := Option.some.inj (hself.symm.trans ha)
      exact ⟨t, by simp [State.spawn], rfl⟩
    · obtain ⟨u, hu, hid⟩ := hs.entry id a (hother he ▸ ha)
      refine ⟨u, ?_, hid⟩
      simpa [State.spawn, List.getElem?_append_left (hlt hu)] using hu
  · intro h u hu
    rcases hcases hu with hu | ⟨rfl, rfl⟩
    · exact hs.processed h u hu
    · exact hreg
  · intro h u hu hab
    rcases hcases hu with hu | ⟨rfl, rfl⟩
    · refine ⟨?_, (hs.aborted h u hu hab).2⟩
      by_cases he : u.taskId = t.taskId
      · have := hlt hu
        rw [he, hself]
        simp
        omega
      · rw [hother he]
        exact (hs.aborted h u hu hab).1
    · simp [hst] at hab
  · intro id hp
    have hne : id ≠ t.taskId := fun he => hproc (he ▸ hp)
    rw [hother hne]
    exact hs.removed id hp

theorem Tidy.install (hs : Tidy s) (hp : s.processing = some id) : Tidy (s.installNew id) := by
  have hnone := hs.removed id hp
  have hdead : ∀ (h : Nat) (u : LeaseTask κ ι), s.tasks[h]? = some u → u.taskId = id →
      u.status.live = false := fun h u hu hid => hs.not_live (hid ▸ hnone) hu
  refine Tidy.spawn ?_ hdead (by simp) (by simp) (Nat.lt_succ_self _) rfl
  refine ⟨⟨fun h u hu hl => ?_, hs.written⟩, hs.entry, ?_, ?_, by simp⟩
  · have hne : u.taskId ≠ id := fun he => by simp [hdead h u hu he] at hl
    simpa [hne] using hs.recorded h u hu hl
  · intro h u hu
    exact Nat.lt_succ_of_lt (hs.processed h u hu)
  · intro h u hu hab
    refine ⟨(hs.aborted h u hu hab).1, ?_⟩
    by_cases he : u.taskId = id
    · have := hs.processed h u hu
      simp [he]
      omega
    · simpa [he] using (hs.aborted h u hu hab).2

/-- The recorded task hands off: its place in the map goes to its successor. -/
theorem Tidy.handOff (hs : Tidy s) {leading : Bool} (hp : s.polled h = some t)
    (ht : t.successor = some (t', leading)) (hheed : t.status ≠ .aborted) :
    Tidy ((s.setTask h { t with status := .over }).spawn t' leading) := by
  obtain ⟨hmem, hact⟩ := State.polled_eq_some hp
  obtain ⟨hid, hreg, hst⟩ := LeaseTask.successor_frame ht
  have hrun : t.status = .running := by
    cases h : t.status <;> simp_all [Status.active]
  obtain ⟨hrec, hforce⟩ := hs.recorded h t hmem (by simp [hrun, Status.live])
  have hs' : Tidy (s.setTask h { t with status := .over }) :=
    hs.of_polled hp rfl rfl (Or.inr rfl)
  refine hs'.spawn (fun h' u hu huid => ?_) (fun hproc => ?_) ?_ ?_ hst
  · rcases State.getElem?_setTask hu with ⟨_, rfl⟩ | ⟨hne, hu⟩
    · rfl
    · rw [← Bool.not_eq_true]
      intro hl
      have := (hs.recorded h' u hu hl).1
      rw [huid, hid, hrec] at this
      exact hne (Option.some.inj this).symm
  · have := hs.removed _ hproc
    simp [hid ▸ this] at hrec
  · rw [hid, hreg]
    exact hforce
  · exact hreg ▸ hs.processed h t hmem

section Run

variable [DecidableEq ι] {ex : Executor ι} {a : Act κ ι}

theorem Tidy.step (hs : Tidy s) (hok : Heeds s a) (hstep : step ex s a = some s') : Tidy s' := by
  cases a with
  | register r =>
      cases hstep
      exact ⟨⟨hs.recorded, hs.written⟩, hs.entry, hs.processed, hs.aborted, hs.removed⟩
  | unregister id =>
      cases hstep
      exact hs.remove id
  | take =>
      simp only [Manager.step] at hstep
      split at hstep
      · split at hstep <;> cases hstep
        · rename_i r queue _ _ _
          have hr := hs.remove r.taskId
          refine ⟨⟨hr.recorded, hr.written⟩, hr.entry, hr.processed, hr.aborted, ?_⟩
          intro id hid
          exact Option.some.inj hid ▸ (State.remove_self s _).1
        · exact ⟨⟨hs.recorded, hs.written⟩, hs.entry, hs.processed, hs.aborted, hs.removed⟩
      · cases hstep
  | install =>
      obtain ⟨id, hp, rfl⟩ := Option.map_eq_some_iff.mp hstep
      exact hs.install hp
  | poll h =>
      simp only [Manager.step] at hstep
      split at hstep
      · rename_i t ht
        split at hstep <;> cases hstep
        rename_i hst
        exact hs.of_setTask ht rfl rfl (fun _ => by simp [hst, Status.live]) nofun hs.written
      · cases hstep
  | suspend h =>
      simp only [Manager.step] at hstep
      split at hstep
      · rename_i t hp
        split at hstep
        · cases hstep
        · obtain ⟨st, hst, rfl⟩ := Option.map_eq_some_iff.mp hstep
          obtain ⟨hl, hab⟩ := Status.suspend_frame hst
          exact hs.of_setTask (State.polled_eq_some hp).1 rfl rfl hl (fun h => (hab h).elim) hs.written
      · cases hstep
  | begin h =>
      simp only [Manager.step] at hstep
      split at hstep
      · rename_i t hp
        obtain ⟨body, _, rfl⟩ := Option.map_eq_some_iff.mp hstep
        exact hs.of_polled hp rfl rfl (Or.inl rfl)
      · cases hstep
  | send h =>
      simp only [Manager.step] at hstep
      split at hstep
      · rename_i t hp
        obtain ⟨⟨body, r⟩, hr, rfl⟩ := Option.map_eq_some_iff.mp hstep
        obtain ⟨hmem, hact⟩ := State.polled_eq_some hp
        refine hs.of_setTask hmem rfl rfl id id ?_
        split
        · rename_i hw
          have hlive : t.status.live = true := by
            cases hst : t.status with
            | aborted => simp [hok t hmem hst r (Body.pending_of_send hr)] at hw
            | running => rfl
            | _ => simp [hst, Status.active] at hact
          intro w hw
          rcases List.mem_append.mp hw with hw | hw
          · exact hs.written w hw
          · obtain rfl := List.mem_singleton.mp hw
            exact (hs.recorded h t hmem hlive).1
        · exact hs.written
      · cases hstep
  | reply h f =>
      simp only [Manager.step] at hstep
      split at hstep
      · rename_i t hp
        obtain ⟨body, _, rfl⟩ := Option.map_eq_some_iff.mp hstep
        exact hs.of_polled hp rfl rfl (Or.inl rfl)
      · cases hstep
  | settle h closed handOver =>
      simp only [Manager.step] at hstep
      split at hstep
      · rename_i t hp
        obtain ⟨t', ht, rfl⟩ := Option.map_eq_some_iff.mp hstep
        obtain ⟨hid, hreg, hst⟩ := LeaseTask.settle_frame ht
        exact hs.of_polled hp hid hreg hst
      · cases hstep
  | handOff h =>
      simp only [Manager.step] at hstep
      split at hstep
      · rename_i t hp
        obtain ⟨⟨t', leading⟩, ht, rfl⟩ := Option.map_eq_some_iff.mp hstep
        exact hs.handOff hp ht (hok t (State.polled_eq_some hp).1)
      · cases hstep

/-- An abort that is not heeded shows at once. -/
theorem Tidy.heeds (hs : Tidy s) (hstep : Manager.step ex s a = some s') (hs' : Single s') : Heeds s a := by
  cases a with
  | send h =>
      intro t ht hab r hr
      rw [← Bool.not_eq_true]
      intro hw
      simp only [Manager.step] at hstep
      split at hstep
      · rename_i t' hp
        cases ht.symm.trans (State.polled_eq_some hp).1
        obtain ⟨⟨body, r'⟩, hb, rfl⟩ := Option.map_eq_some_iff.mp hstep
        cases hr.symm.trans (Body.pending_of_send hb)
        have hmem := hs'.written ⟨h, (s.activeLeases t.taskId).map (·.handle)⟩
        simp only [hw, if_true] at hmem
        exact (hs.aborted h t ht hab).1 (hmem (List.mem_append_right _ (List.mem_singleton_self _)))
      · cases hstep
  | handOff h =>
      intro t ht hab
      simp only [Manager.step] at hstep
      split at hstep
      · rename_i t' hp
        cases ht.symm.trans (State.polled_eq_some hp).1
        obtain ⟨⟨t', leading⟩, hsucc, rfl⟩ := Option.map_eq_some_iff.mp hstep
        obtain ⟨hid, hreg, hst⟩ := LeaseTask.successor_frame hsucc
        have hnew := (hs'.recorded s.tasks.length t' (by simp [State.spawn, State.setTask])
          (by simp [hst, Status.live])).2
        rw [hid, hreg] at hnew
        exact (hs.aborted h t ht hab).2 hnew
      · cases hstep
  | _ => trivial

/-- After every step of a run the lease task of each flow is a single one,
exactly when the run heeds its aborts. -/
theorem single_iff_heeds {as : List (Act κ ι)} :
    (manager ex).RunThrough Single .initial as s ↔ (manager ex).RunOf Heeds .initial as s :=
  Machine.runThrough_iff tidy_initial
    (fun _ _ _ hs hok hstep => ⟨hs.step hok hstep, (hs.step hok hstep).toSingle⟩)
    fun _ _ _ hs hstep hs' => hs.heeds hstep hs'

end Run

end Steps

/-- The replies of a cache that finds the lease key deleted. -/
def vacant {ι : Type} : (r : Req ι) → r.Reply
  | .clock => (0 : Nat)
  | .create _ => .ok 1
  | .update _ _ => .error .notFound
  | .getWithRevision => .ok none
  | .getRevision => .ok none
  | .deleteWithRevision _ => .error .notFound

/-- The calls of a task, one after the other, each answered at once. -/
def calls (h : Nat) : Nat → List (Act Unit Unit)
  | 0 => []
  | n + 1 => .send h :: .reply h vacant :: calls h n

/-- The flow is replaced while its renewal task, about to hand off, is being
polled.  The task that is aborted still spawns a successor and records it; the
event loop then records its own, and the successor goes on to acquire the
lease without anybody knowing its handle. -/
theorem orphan_after_reregistration :
    ∃ s : State Unit Unit, (manager ⟨(), {}, rfl⟩).Reachable s ∧ s.queue.length = 0 ∧
      s.processing = none ∧ (s.activeLeases ()).map (·.handle) = some 3 ∧
      (s.tasks[2]?).map (·.status) = some .running ∧ ⟨2, some 3⟩ ∈ s.writes ∧ ¬ Single s := by
  have hrun : ((manager ⟨(), {}, rfl⟩).exec (fun _ _ => True) (.initial : State Unit Unit)
      ([Act.register ⟨(), true⟩, Act.take, Act.install, Act.poll 0, Act.begin 0] ++ calls 0 2 ++
        [Act.settle 0 false false, Act.handOff 0, Act.poll 1, Act.begin 1] ++ calls 1 3 ++
        [Act.settle 1 false false, Act.register ⟨(), true⟩, Act.take, Act.handOff 1, Act.install] ++
        [Act.poll 2, Act.begin 2] ++ calls 2 2)).any
      (fun s : State Unit Unit => s.queue.length == 0 && s.processing == none &&
        (s.activeLeases ()).map (·.handle) == some 3 &&
        (s.tasks[2]?).map (fun task : LeaseTask Unit Unit => task.status) == some .running &&
        s.writes.contains ⟨2, some 3⟩) = true := by
    decide
  obtain ⟨s, hr, hs⟩ := Machine.exists_of_exec hrun
  simp only [Bool.and_eq_true, beq_iff_eq, List.contains_iff_mem] at hs
  obtain ⟨⟨⟨⟨hq, hp⟩, ha⟩, ht⟩, hw⟩ := hs
  refine ⟨s, ⟨_, _, rfl, hr⟩, hq, hp, ha, ht, hw, ?_⟩
  intro hsingle
  cases hsingle.written _ hw

end Flowgen.Task.Manager
