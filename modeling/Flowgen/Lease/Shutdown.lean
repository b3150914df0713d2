/-
# `Flowgen.Lease.Shutdown` — the leases when the app stops (`app/src/app.rs`,
`app/src/reconciler.rs`, `core/src/task/manager.rs`)

Every flow has a `TaskManager` of its own, made when the flow is initialised, and
the flow registers with it for the lease.  `App::start` collects the task managers
of the flows it starts with.  The reconciler loads and stops flows while the app
runs; a flow that it loads has a new task manager, which is in the registry but
not in that list.  When the signal comes the reconciler is stopped, the registry
is drained and its flows are awaited, and the task managers of the list are shut
down one after the other: the lease task is aborted, and the lease is deleted if
it is still held.

`app` interleaves this with the steps of all task managers (`Flowgen.Task.Manager`)
and with the other users of the shared cache.  What a lease task sends to the cache
takes effect at any later time, also after the task was aborted, or never; what it
is answered is left open.  The calls of the shutdown are answered by the cache.

All leases of the drained flows are released if each of these flows is one the app
has started with, or has left no lease behind, and if no lease task writes to a
lease after the shutdown has looked at it (`shutdown_releases`).  A flow that was
loaded by the reconciler keeps its lease, and its lease task goes on
(`reloaded_keeps_lease`).
-/
import Flowgen.Lib.Slots
import Flowgen.Task.Manager

namespace Flowgen.Lease.Shutdown

open Flowgen.Lib Flowgen.Lease Flowgen.Cache Flowgen.Task

/-- A flow that was started, with its `TaskManager`; `registered` says that its
master task has asked for the lease, and `ended` that this task is over. -/
structure Flow (κ ι : Type) where
  identity : κ
  leaderElected : Bool
  taskManager : Manager.State κ ι
  registered : Bool
  ended : Bool

/-- What `App::start` is at; `call` is the release of a lease under way. -/
inductive Phase (κ ι : Type)
  | serving
  | stopping
  | releasing (rest : List Nat) (call : Option (κ × LeaseProg ι Unit))
  | complete

/-- The flows are known by their places; `registry` has those that are registered,
`taskManagers` those collected at the start, and `stopped` those the registry was
drained of. -/
structure State (κ ι : Type) where
  flows : List (Flow κ ι)
  registry : List Nat
  taskManagers : List Nat
  stopped : List Nat
  lease : κ → LeaseKey ι
  /-- What lease tasks have sent to the cache and has not taken effect. -/
  requests : List (κ × Req ι)
  phase : Phase κ ι

inductive Act (κ ι : Type)
  | remove (m : Nat)
  | unregister (m : Nat)
  | insert (identity : κ) (leaderElected : Bool)
  | register (m : Nat)
  | finish (m : Nat)
  | manager (m : Nat) (a : Manager.Act κ ι)
  | serve (i now : Nat) (c : Choice)
  | foreign (identity : κ) (w : Write ι (Metadata ι)) (visible : Bool)
  | signal
  | awaited
  | shutdown
  | release (now : Nat) (c : Choice)
  | released
  | exit

variable {κ ι : Type}

def Flow.new (identity : κ) (leaderElected : Bool) : Flow κ ι :=
  ⟨identity, leaderElected, .initial, false, false⟩

/-- The app when its flows are started; `task_managers` is collected. -/
def State.start (flows : List (κ × Bool)) (lease : κ → LeaseKey ι) : State κ ι where
  flows := flows.map fun flow => .new flow.1 flow.2
  registry := List.range flows.length
  taskManagers := List.range flows.length
  stopped := []
  lease := lease
  requests := []
  phase := .serving

def State.serving (s : State κ ι) : Bool :=
  match s.phase with
  | .serving => true
  | _ => false

/-- The steps of a task manager that nobody else takes part in. -/
def own : Manager.Act κ ι → Bool
  | .register _ => false
  | .unregister _ => false
  | _ => true

/-- What a step of a task manager sends to the cache.  A flow registers with its own
task manager only, so this is for the lease of the flow. -/
def request (tm : Manager.State κ ι) : Manager.Act κ ι → Option (Req ι)
  | .send handle => (tm.polled handle).bind fun t => t.body.send.map Prod.snd
  | _ => none

def State.setFlow (s : State κ ι) (m : Nat) (fl : Flow κ ι) : State κ ι :=
  { s with flows := s.flows.set m fl }

section Step

variable [DecidableEq κ] [DecidableEq ι] (ex : Executor ι)

/-- The entry of a lease names this pod. -/
def holds (reg : LeaseKey ι) : Bool :=
  (reg.current.bind (·.content)).any fun metadata => metadata.holderIdentity = ex.identity

/-- The master task is sent to its end only after its registration was answered. -/
def Flow.answered (fl : Flow κ ι) : Bool :=
  fl.registered && fl.taskManager.queue.isEmpty && fl.taskManager.processing.isNone

/-- `shutdown_internal` up to the release of the lease, of which there is one at most. -/
def State.abortLease (s : State κ ι) (m : Nat) (rest : List Nat) (fl : Flow κ ι) : State κ ι :=
  { s.setFlow m { fl with taskManager := fl.taskManager.remove fl.identity } with
    phase := .releasing rest
      ((fl.taskManager.activeLeases fl.identity).map fun _ => (fl.identity, shutdownLease ex)) }

def step (s : State κ ι) : Act κ ι → Option (State κ ι)
  | .remove m =>
      if s.serving && s.registry.contains m then
        some { s with registry := s.registry.filter (· ≠ m) }
      else none
  | .unregister m =>
      if s.serving && !s.registry.contains m then
        s.flows[m]?.map fun fl =>
          s.setFlow m { fl with taskManager := fl.taskManager.remove fl.identity }
      else none
  | .insert identity leaderElected =>
      if s.serving && s.registry.all fun m => s.flows[m]?.all fun fl => fl.identity ≠ identity then
        some { s with
          flows := s.flows ++ [.new identity leaderElected]
          registry := s.registry ++ [s.flows.length] }
      else none
  | .register m =>
      match s.flows[m]? with
      | some fl =>
          if fl.registered then none
          else
            (Manager.step ex fl.taskManager (.register ⟨fl.identity, fl.leaderElected⟩)).map
              fun tm => s.setFlow m { fl with taskManager := tm, registered := true }
      | none => none
  | .finish m =>
      match s.flows[m]? with
      | some fl => if fl.answered then some (s.setFlow m { fl with ended := true }) else none
      | none => none
  | .manager m a =>
      match s.flows[m]? with
      | some fl =>
          if own a then
            (Manager.step ex fl.taskManager a).map fun tm =>
              { s.setFlow m { fl with taskManager := tm } with
                requests :=
                  s.requests ++ (request fl.taskManager a).toList.map (fl.identity, ·) }
          else none
      | none => none
  | .serve i now c =>
      match s.requests[i]? with
      | some (identity, r) =>
          (Lease.serve ex.identity now c (s.lease identity) r).map fun (_, reg) =>
            { s with
              requests := s.requests.eraseIdx i
              lease := Function.update s.lease identity reg }
      | none => none
  | .foreign identity w visible =>
      -- another pod, or an entry whose time to live is over
      if w.content.all fun metadata => metadata.holderIdentity ≠ ex.identity then
        ((s.lease identity).push w visible).map fun reg =>
          { s with lease := Function.update s.lease identity reg }
      else none
  | .signal =>
      if s.serving then some { s with phase := .stopping, registry := [], stopped := s.registry }
      else none
  | .awaited =>
      match s.phase with
      | .stopping =>
          if s.stopped.all fun m => s.flows[m]?.any (·.ended) then
            some { s with phase := .releasing s.taskManagers none }
          else none
      | _ => none
  | .shutdown =>
      match s.phase with
      | .releasing (m :: rest) none => s.flows[m]?.map (s.abortLease ex m rest)
      | _ => none
  | .release now c =>
      match s.phase with
      | .releasing rest (some (identity, p)) =>
          (p.answer (Lease.serve ex.identity now c (s.lease identity))).map fun (p, reg) =>
            { s with
              phase := .releasing rest (some (identity, p))
              lease := Function.update s.lease identity reg }
      | _ => none
  | .released =>
      match s.phase with
      | .releasing rest (some (_, .ret _)) => some { s with phase := .releasing rest none }
      | _ => none
  | .exit =>
      match s.phase with
      | .releasing [] none => some { s with phase := .complete }
      | _ => none

def app : Machine (State κ ι) (Act κ ι) where
  init s := ∃ flows lease, (flows.map Prod.fst).Nodup ∧ s = .start flows lease
  step := step ex

/-! ## Releasing the leases -/

/-- When the app has stopped, no lease of a flow that was registered names this pod,
and no lease task of it goes on. -/
def Released (s : State κ ι) : Prop :=
  match s.phase with
  | .complete => ∀ m ∈ s.stopped, ∀ fl ∈ s.flows[m]?, holds ex (s.lease fl.identity) = false ∧
      ∀ fl' ∈ s.flows, fl'.identity = fl.identity →
        ∀ t ∈ fl'.taskManager.tasks, t.status.live = false
  | _ => True

/-- No lease task of the flow goes on, or will be started. -/
structure Flow.Idle (fl : Flow κ ι) : Prop where
  asked : fl.registered = true ∨ fl.leaderElected = false
  queue : ∀ r ∈ fl.taskManager.queue, r.leaderElection = false
  processing : fl.taskManager.processing = none
  ended : ∀ t ∈ fl.taskManager.tasks, t.status = .over

/-- Under this identity no flow has left anything of a lease. -/
structure State.Quiet (s : State κ ι) (identity : κ) : Prop where
  idle : ∀ fl ∈ s.flows, fl.identity = identity → fl.Idle
  requests : ∀ r ∈ s.requests, r.1 ≠ identity
  free : holds ex (s.lease identity) = false

/-- The shutdown has looked at the lease of the flow. -/
def State.looked (s : State κ ι) (m : Nat) (identity : κ) : Prop :=
  match s.phase with
  | .serving => False
  | .stopping => False
  | .releasing rest call => m ∉ rest ∧ ∀ p, call = some (identity, p) → p.pending ≠ some .getWithRevision
  | .complete => True

/-- A create or an update that the cache accepts. -/
def stores (reg : LeaseKey ι) : Req ι → Bool
  | .create _ => reg.current.isNone
  | .update _ expectedRevision => reg.accepts expectedRevision
  | _ => false

/-- What a step has to heed: when the signal comes, each registered flow has the task
manager that was collected at the start, or there is nothing of a lease; then aborts
are heeded, and no lease task writes to a lease that was looked at. -/
def Careful (s : State κ ι) : Act κ ι → Prop
  | .signal => ∀ m ∈ s.registry, ∀ fl ∈ s.flows[m]?,
      (m ∈ s.taskManagers ∧ fl.leaderElected = true) ∨ s.Quiet ex fl.identity
  | .manager m a => m ∈ s.stopped → ∀ fl ∈ s.flows[m]?, Manager.Heeds fl.taskManager a
  | .serve i _ _ => ∀ r ∈ s.requests[i]?, ∀ m ∈ s.stopped, ∀ fl ∈ s.flows[m]?,
      fl.identity = r.1 → s.looked m r.1 → stores (s.lease r.1) r.2 = false
  | _ => True

end Step

/-! ## What a task manager does by itself -/

/-- What a step of one lease task does: the task goes on, or hands off to another. -/
inductive Moves [DecidableEq κ] (tm : Manager.State κ ι) : Manager.State κ ι → Prop
  | task {handle : Nat} {t t' : Manager.LeaseTask κ ι} {writes : List Manager.Written}
      (ht : tm.tasks[handle]? = some t) (hover : t.status ≠ .over) (hid : t'.taskId = t.taskId)
      (habort : t'.status = .aborted → t.status = .aborted) :
      Moves tm { tm.setTask handle t' with writes := writes }
  | handOff {handle : Nat} {t t' : Manager.LeaseTask κ ι} {leading : Bool}
      (ht : tm.tasks[handle]? = some t) (hrun : t.status = .running) (hid : t'.taskId = t.taskId)
      (hsuspended : t'.status = .suspended) :
      Moves tm ((tm.setTask handle { t with status := .over }).spawn t' leading)

section Manager

variable {tm tm' : Manager.State κ ι} {a : Manager.Act κ ι} {id : κ} {handle : Nat}
  {t : Manager.LeaseTask κ ι}

theorem not_over_of_polled (hp : tm.polled handle = some t) : t.status ≠ .over := by
  intro hover
  have hactive := (Manager.State.polled_eq_some hp).2
  rw [hover] at hactive
  cases hactive

/-- Where no task is aborted there is nothing to heed. -/
theorem heeds_of_none_aborted (h : ∀ t ∈ tm.tasks, t.status ≠ .aborted) : Manager.Heeds tm a := by
  cases a with
  | send handle =>
      intro t ht hab
      exact absurd hab (h t (List.mem_of_getElem? ht))
  | handOff handle =>
      intro t ht
      exact h t (List.mem_of_getElem? ht)
  | _ => trivial

variable [DecidableEq κ]

/-- The tasks after an abort are those before it, one of them perhaps aborted. -/
theorem mem_tasks_remove (ht : t ∈ (tm.remove id).tasks) :
    ∃ u ∈ tm.tasks, t = u ∨ t = { u with status := u.status.abort } := by
  obtain ⟨i, hi⟩ := List.mem_iff_getElem?.mp ht
  rw [Manager.State.getElem?_remove] at hi
  obtain ⟨u, hu, rfl⟩ := Option.map_eq_some_iff.mp hi
  refine ⟨u, List.mem_of_getElem? hu, ?_⟩
  split
  · exact .inr rfl
  · exact .inl rfl

/-- A task that goes on and has written nothing. -/
theorem Moves.keeping {t t' : Manager.LeaseTask κ ι} (ht : tm.tasks[handle]? = some t)
    (hover : t.status ≠ .over) (hid : t'.taskId = t.taskId)
    (habort : t'.status = .aborted → t.status = .aborted) : Moves tm (tm.setTask handle t') := by
  change Moves tm { tm.setTask handle t' with writes := tm.writes }
  exact .task ht hover hid habort

/-- The event loop takes a registration or starts the lease task for it, or a lease
task takes a step. -/
theorem own_cases [DecidableEq ι] {ex : Executor ι} (hown : own a = true) (hok : Manager.Heeds tm a)
    (hstep : Manager.step ex tm a = some tm') :
    (∃ r queue, tm.processing = none ∧ tm.queue = r :: queue ∧
      tm' = (if r.leaderElection then
        { tm.remove r.taskId with queue := queue, processing := some r.taskId }
      else { tm with queue := queue })) ∨
    (∃ id, tm.processing = some id ∧ tm' = tm.installNew id) ∨ Moves tm tm' := by
  cases a with
  | register r => cases hown
  | unregister id => cases hown
  | take =>
      simp only [Manager.step] at hstep
      split at hstep
      · rename_i r queue hproc hqueue
        refine Or.inl ⟨r, queue, hproc, hqueue, ?_⟩
        split at hstep
        · rename_i hr
          cases hstep
          rw [if_pos hr]
        · rename_i hr
          cases hstep
          rw [if_neg hr]
      · cases hstep
  | install =>
      obtain ⟨id, hproc, rfl⟩ := Option.map_eq_some_iff.mp hstep
      exact Or.inr (Or.inl ⟨id, hproc, rfl⟩)
  | poll handle =>
      refine Or.inr (Or.inr ?_)
      simp only [Manager.step] at hstep
      split at hstep
      · rename_i t ht
        split at hstep <;> cases hstep
        rename_i hst
        exact .keeping ht (by simp [hst]) rfl (by simp)
      · cases hstep
  | suspend handle =>
      refine Or.inr (Or.inr ?_)
      simp only [Manager.step] at hstep
      split at hstep
      · rename_i t hp
        split at hstep
        · cases hstep
        · obtain ⟨st, hst, rfl⟩ := Option.map_eq_some_iff.mp hstep
          exact .keeping (Manager.State.polled_eq_some hp).1
            (not_over_of_polled hp) rfl fun h => absurd h (Manager.Status.suspend_frame hst).2
      · cases hstep
  | begin handle =>
      refine Or.inr (Or.inr ?_)
      simp only [Manager.step] at hstep
      split at hstep
      · rename_i t hp
        obtain ⟨body, -, rfl⟩ := Option.map_eq_some_iff.mp hstep
        exact .keeping (Manager.State.polled_eq_some hp).1
          (not_over_of_polled hp) rfl id
      · cases hstep
  | send handle =>
      refine Or.inr (Or.inr ?_)
      simp only [Manager.step] at hstep
      split at hstep
      · rename_i t hp
        obtain ⟨⟨body, r⟩, -, rfl⟩ := Option.map_eq_some_iff.mp hstep
        exact .task (Manager.State.polled_eq_some hp).1 (not_over_of_polled hp) rfl id
      · cases hstep
  | reply handle f =>
      refine Or.inr (Or.inr ?_)
      simp only [Manager.step] at hstep
      split at hstep
      · rename_i t hp
        obtain ⟨body, -, rfl⟩ := Option.map_eq_some_iff.mp hstep
        exact .keeping (Manager.State.polled_eq_some hp).1
          (not_over_of_polled hp) rfl id
      · cases hstep
  | settle handle closed handOver =>
      refine Or.inr (Or.inr ?_)
      simp only [Manager.step] at hstep
      split at hstep
      · rename_i t hp
        obtain ⟨t', ht, rfl⟩ := Option.map_eq_some_iff.mp hstep
        obtain ⟨hid, -, hst⟩ := Manager.LeaseTask.settle_frame ht
        refine .keeping (Manager.State.polled_eq_some hp).1
          (not_over_of_polled hp) hid ?_
        intro hab
        rcases hst with hst | hst
        · exact hst ▸ hab
        · rw [hst] at hab
          cases hab
      · cases hstep
  | handOff handle =>
      refine Or.inr (Or.inr ?_)
      simp only [Manager.step] at hstep
      split at hstep
      · rename_i t hp
        obtain ⟨⟨t', leading⟩, ht, rfl⟩ := Option.map_eq_some_iff.mp hstep
        obtain ⟨hid, -, hst⟩ := Manager.LeaseTask.successor_frame ht
        obtain ⟨hmem, hactive⟩ := Manager.State.polled_eq_some hp
        refine .handOff hmem ?_ hid hst
        cases hstatus : t.status with
        | running => rfl
        | aborted => exact absurd hstatus (hok t hmem)
        | _ =>
            rw [hstatus] at hactive
            cases hactive
      · cases hstep

/-- A step of a lease task leaves the registrations alone. -/
theorem Moves.frame (h : Moves tm tm') :
    tm'.queue = tm.queue ∧ tm'.processing = tm.processing := by
  cases h with
  | task => exact ⟨rfl, rfl⟩
  | handOff => exact ⟨rfl, rfl⟩

/-- Only a task that is not over takes a step. -/
theorem Moves.exists_task (h : Moves tm tm') : ∃ t ∈ tm.tasks, t.status ≠ .over := by
  cases h with
  | task ht hover => exact ⟨_, List.mem_of_getElem? ht, hover⟩
  | handOff ht hrun => exact ⟨_, List.mem_of_getElem? ht, by simp [hrun]⟩

/-- The tasks stay those of one flow, and none of them is aborted. -/
theorem Moves.mine (h : Moves tm tm')
    (hmine : ∀ t ∈ tm.tasks, t.taskId = id ∧ t.status ≠ .aborted) :
    ∀ t ∈ tm'.tasks, t.taskId = id ∧ t.status ≠ .aborted := by
  intro u hu
  cases h with
  | task ht hover hid habort =>
      obtain ⟨hid', hst⟩ := hmine _ (List.mem_of_getElem? ht)
      rcases List.mem_or_eq_of_mem_set hu with hu | rfl
      · exact hmine u hu
      · exact ⟨hid.trans hid', fun h => hst (habort h)⟩
  | handOff ht hrun hid hsuspended =>
      obtain ⟨hid', -⟩ := hmine _ (List.mem_of_getElem? ht)
      rcases List.mem_append.mp hu with hu | hu
      · rcases List.mem_or_eq_of_mem_set hu with hu | rfl
        · exact hmine u hu
        · exact ⟨hid', by simp⟩
      · obtain rfl := List.mem_singleton.mp hu
        exact ⟨hid.trans hid', by simp [hsuspended]⟩

/-- A recorded lease task stays recorded, or its successor is. -/
theorem Moves.entry (h : Moves tm tm') (hentry : tm.activeLeases id ≠ none) :
    tm'.activeLeases id ≠ none := by
  cases h with
  | task => exact hentry
  | @handOff _ _ t' _ _ _ _ _ =>
      change Function.update tm.activeLeases t'.taskId _ id ≠ none
      rw [Function.update_apply]
      split
      · exact Option.some_ne_none _
      · exact hentry

/-- Where nothing is recorded, nothing hands off. -/
theorem Moves.none (h : Moves tm tm') (htidy : Manager.Tidy tm)
    (hmine : ∀ t ∈ tm.tasks, t.taskId = id) (hnone : tm.activeLeases id = none) :
    tm'.activeLeases id = none ∧ ∀ t ∈ tm'.tasks, t.taskId = id := by
  cases h with
  | task ht hover hid habort =>
      refine ⟨hnone, ?_⟩
      intro u hu
      rcases List.mem_or_eq_of_mem_set hu with hu | rfl
      · exact hmine u hu
      · exact hid.trans (hmine _ (List.mem_of_getElem? ht))
  | handOff ht hrun hid hsuspended =>
      have hdead := htidy.not_live (by rw [hmine _ (List.mem_of_getElem? ht)]; exact hnone) ht
      rw [hrun] at hdead
      cases hdead

end Manager

/-! ## What is kept while the app serves, and while it stops -/

section Kept

variable {fl : Flow κ ι} {tm : Manager.State κ ι} {a : Manager.Act κ ι}

/-- How far the registration of a flow has come. -/
inductive Stage (fl : Flow κ ι) : Prop
  | unregistered (hreg : fl.registered = false) (hqueue : fl.taskManager.queue = [])
      (hproc : fl.taskManager.processing = none) (htasks : fl.taskManager.tasks = [])
      (hnone : fl.taskManager.activeLeases fl.identity = none)
  | queued (hreg : fl.registered = true)
      (hqueue : fl.taskManager.queue = [⟨fl.identity, fl.leaderElected⟩])
      (hproc : fl.taskManager.processing = none) (htasks : fl.taskManager.tasks = [])
      (hnone : fl.taskManager.activeLeases fl.identity = none)
  | processing (hreg : fl.registered = true) (hqueue : fl.taskManager.queue = [])
      (hproc : fl.taskManager.processing = some fl.identity) (htasks : fl.taskManager.tasks = [])
  | answered (hreg : fl.registered = true) (hqueue : fl.taskManager.queue = [])
      (hproc : fl.taskManager.processing = none)
      (hentry : fl.leaderElected = true → fl.taskManager.activeLeases fl.identity ≠ none)

/-- A flow that nobody has stopped. -/
structure Kept (fl : Flow κ ι) : Prop where
  tidy : Manager.Tidy fl.taskManager
  mine : ∀ t ∈ fl.taskManager.tasks, t.taskId = fl.identity ∧ t.status ≠ .aborted
  stage : Stage fl
  ended : fl.ended = true → fl.answered = true

/-- A flow whose lease task was aborted by the shutdown. -/
structure Closed (fl : Flow κ ι) : Prop where
  tidy : Manager.Tidy fl.taskManager
  mine : ∀ t ∈ fl.taskManager.tasks, t.taskId = fl.identity
  answered : fl.answered = true
  none : fl.taskManager.activeLeases fl.identity = none

theorem answered_iff : fl.answered = true ↔ fl.registered = true ∧ fl.taskManager.queue = [] ∧
    fl.taskManager.processing = none := by
  simp [Flow.answered, and_assoc]

theorem kept_new (identity : κ) (leaderElected : Bool) :
    Kept (.new identity leaderElected : Flow κ ι) where
  tidy := Manager.tidy_initial
  mine _ h := absurd h List.not_mem_nil
  stage := .unregistered rfl rfl rfl rfl rfl
  ended h := nomatch h

theorem Kept.heeds (h : Kept fl) : Manager.Heeds fl.taskManager a :=
  heeds_of_none_aborted fun t ht => (h.mine t ht).2

theorem Kept.entry (h : Kept fl) (hended : fl.ended = true) (helected : fl.leaderElected = true) :
    fl.taskManager.activeLeases fl.identity ≠ none := by
  obtain ⟨hreg, hqueue, hproc⟩ := answered_iff.mp (h.ended hended)
  cases h.stage with
  | answered _ _ _ hentry => exact hentry helected
  | unregistered hreg' =>
      rw [hreg] at hreg'
      cases hreg'
  | queued _ hqueue' =>
      rw [hqueue] at hqueue'
      cases hqueue'
  | processing _ _ hproc' =>
      rw [hproc] at hproc'
      cases hproc'

theorem Closed.not_live (h : Closed fl) {t : Manager.LeaseTask κ ι}
    (ht : t ∈ fl.taskManager.tasks) : t.status.live = false := by
  obtain ⟨handle, hhandle⟩ := List.mem_iff_getElem?.mp ht
  refine h.tidy.not_live ?_ hhandle
  rw [h.mine t ht]
  exact h.none

variable [DecidableEq κ]

/-- The shutdown aborts the lease task of a flow that has ended. -/
theorem Kept.close (h : Kept fl) (hended : fl.ended = true) :
    Closed { fl with taskManager := fl.taskManager.remove fl.identity } where
  tidy := h.tidy.remove fl.identity
  mine t ht := by
    obtain ⟨u, hu, rfl | rfl⟩ := mem_tasks_remove ht
    · exact (h.mine _ hu).1
    · exact (h.mine u hu).1
  answered := h.ended hended
  none := (Manager.State.remove_self _ _).1

variable [DecidableEq ι] {ex : Executor ι}

theorem Kept.register (h : Kept fl) (hreg : fl.registered = false)
    (hstep : Manager.step ex fl.taskManager (.register ⟨fl.identity, fl.leaderElected⟩) = some tm) :
    Kept { fl with taskManager := tm, registered := true } := by
  have hok : Manager.Heeds fl.taskManager (.register ⟨fl.identity, fl.leaderElected⟩) := trivial
  have htidy := h.tidy.step hok hstep
  cases hstep
  cases h.stage with
  | unregistered _ hqueue hproc htasks hnone =>
      refine ⟨htidy, h.mine, .queued rfl ?_ hproc htasks hnone, ?_⟩
      · simp [hqueue]
      · intro hended
        have hanswered := (answered_iff.mp (h.ended hended)).1
        rw [hreg] at hanswered
        cases hanswered
  | queued hreg' | processing hreg' | answered hreg' =>
      rw [hreg] at hreg'
      cases hreg'

/-- While a flow is not stopped its task manager goes from stage to stage. -/
theorem Kept.step (h : Kept fl) (hown : own a = true)
    (hstep : Manager.step ex fl.taskManager a = some tm) :
    Kept { fl with taskManager := tm } := by
  have htidy := h.tidy.step h.heeds hstep
  rcases own_cases hown h.heeds hstep with ⟨r, queue, hproc, hqueue, rfl⟩ | ⟨id, hproc, rfl⟩ | hmoves
  · cases h.stage with
    | queued hreg hqueue' hproc' htasks hnone =>
        rw [hqueue] at hqueue'
        cases hqueue'
        have hended : fl.ended ≠ true := by
          intro hended
          have := (answered_iff.mp (h.ended hended)).2.1
          rw [hqueue] at this
          cases this
        by_cases helected : fl.leaderElected = true
        · simp only [helected, if_true] at htidy ⊢
          have htasks' : (fl.taskManager.remove fl.identity).tasks = [] := by
            rw [Manager.State.remove, hnone]
            exact htasks
          refine ⟨htidy, ?_, .processing hreg rfl rfl htasks', fun h => absurd h hended⟩
          intro t ht
          have ht : t ∈ (fl.taskManager.remove fl.identity).tasks := ht
          rw [htasks'] at ht
          cases ht
        · simp only [helected, if_false, Bool.false_eq_true] at htidy ⊢
          exact ⟨htidy, h.mine, .answered hreg rfl hproc fun h => absurd h Bool.false_ne_true,
            fun h => absurd h hended⟩
    | unregistered _ hqueue' | processing _ hqueue' | answered _ hqueue' =>
        rw [hqueue] at hqueue'
        cases hqueue'
  · cases h.stage with
    | processing hreg hqueue hproc' htasks =>
        rw [hproc] at hproc'
        cases hproc'
        refine ⟨htidy, ?_, .answered hreg hqueue rfl ?_, ?_⟩
        · intro t ht
          rcases List.mem_append.mp ht with ht | ht
          · rw [htasks] at ht
            cases ht
          · obtain rfl := List.mem_singleton.mp ht
            exact ⟨rfl, by simp⟩
        · intro _
          simp [Manager.State.installNew, Manager.State.spawn]
        · intro _
          exact answered_iff.mpr ⟨hreg, hqueue, rfl⟩
    | unregistered _ _ hproc' | queued _ _ hproc' | answered _ _ hproc' =>
        rw [hproc] at hproc'
        cases hproc'
  · obtain ⟨hqueue', hproc'⟩ := hmoves.frame
    obtain ⟨t, ht, -⟩ := hmoves.exists_task
    refine ⟨htidy, hmoves.mine h.mine, ?_, ?_⟩
    · cases h.stage with
      | answered hreg hqueue hproc hentry =>
          exact .answered hreg (hqueue'.trans hqueue) (hproc'.trans hproc) fun helected =>
            hmoves.entry (hentry helected)
      | unregistered _ _ _ htasks | queued _ _ _ htasks | processing _ _ _ htasks =>
          rw [htasks] at ht
          cases ht
    · intro hended
      obtain ⟨hreg, hqueue, hproc⟩ := answered_iff.mp (h.ended hended)
      exact answered_iff.mpr ⟨hreg, hqueue'.trans hqueue, hproc'.trans hproc⟩

theorem Closed.step (h : Closed fl) (hown : own a = true) (hok : Manager.Heeds fl.taskManager a)
    (hstep : Manager.step ex fl.taskManager a = some tm) :
    Closed { fl with taskManager := tm } := by
  have htidy := h.tidy.step hok hstep
  obtain ⟨hreg, hqueue, hproc⟩ := answered_iff.mp h.answered
  rcases own_cases hown hok hstep with ⟨r, queue, -, hqueue', -⟩ | ⟨id, hproc', -⟩ | hmoves
  · rw [hqueue] at hqueue'
    cases hqueue'
  · rw [hproc] at hproc'
    cases hproc'
  · obtain ⟨hqueue', hproc'⟩ := hmoves.frame
    obtain ⟨hnone, hmine⟩ := hmoves.none h.tidy h.mine h.none
    exact ⟨htidy, hmine,
      answered_iff.mpr ⟨hreg, hqueue'.trans hqueue, hproc'.trans hproc⟩, hnone⟩

end Kept

/-! ## Flows without a lease -/

section Idle

variable {fl : Flow κ ι} {tm : Manager.State κ ι} {a : Manager.Act κ ι}

theorem Flow.Idle.heeds (h : fl.Idle) : Manager.Heeds fl.taskManager a :=
  heeds_of_none_aborted fun t ht => by simp [h.ended t ht]

theorem Flow.Idle.request_eq_none (h : fl.Idle) : request fl.taskManager a = none := by
  cases a with
  | send handle =>
      rw [request, Option.bind_eq_none_iff]
      intro t hp
      exact absurd (h.ended t (List.mem_of_getElem? (Manager.State.polled_eq_some hp).1))
        (not_over_of_polled hp)
  | _ => rfl

variable [DecidableEq κ]

theorem Flow.Idle.abort (h : fl.Idle) :
    Flow.Idle { fl with taskManager := fl.taskManager.remove fl.identity } where
  asked := h.asked
  queue := h.queue
  processing := h.processing
  ended t ht := by
    obtain ⟨u, hu, rfl | rfl⟩ := mem_tasks_remove ht
    · exact h.ended _ hu
    · simp [h.ended u hu, Manager.Status.abort]

variable [DecidableEq ι] {ex : Executor ι}

theorem Flow.Idle.register (h : fl.Idle) (hreg : fl.registered = false)
    (hstep : Manager.step ex fl.taskManager (.register ⟨fl.identity, fl.leaderElected⟩) = some tm) :
    Flow.Idle { fl with taskManager := tm, registered := true } := by
  have helected : fl.leaderElected = false := h.asked.resolve_left (by simp [hreg])
  cases hstep
  refine ⟨Or.inl rfl, ?_, h.processing, h.ended⟩
  intro r hr
  rcases List.mem_append.mp hr with hr | hr
  · exact h.queue r hr
  · obtain rfl := List.mem_singleton.mp hr
    exact helected

theorem Flow.Idle.step (h : fl.Idle) (hown : own a = true)
    (hstep : Manager.step ex fl.taskManager a = some tm) :
    Flow.Idle { fl with taskManager := tm } := by
  rcases own_cases hown h.heeds hstep with ⟨r, queue, hproc, hqueue, rfl⟩ | ⟨id, hproc, -⟩ | hmoves
  · have hr : r.leaderElection = false := h.queue r (hqueue ▸ List.mem_cons_self)
    simp only [hr, if_false, Bool.false_eq_true]
    exact ⟨h.asked, fun r' hr' => h.queue r' (hqueue ▸ List.mem_cons_of_mem _ hr'), h.processing,
      h.ended⟩
  · rw [h.processing] at hproc
    cases hproc
  · obtain ⟨t, ht, hover⟩ := hmoves.exists_task
    exact absurd (h.ended t ht) hover

end Idle

/-! ## The release of a lease -/

section Release

variable [DecidableEq ι] {ex : Executor ι} {now : Nat} {c : Choice} {reg reg' : LeaseKey ι}
  {p p' : LeaseProg ι Unit}

/-- How far the release of a lease has come: a lease that is still held is the one
that was looked at. -/
inductive Releasing (ex : Executor ι) (reg : LeaseKey ι) : LeaseProg ι Unit → Prop
  | asking : Releasing ex reg (shutdownLease ex)
  | deleting {ρ : Nat} (hheld : holds ex reg = true → reg.accepts ρ = true) :
      Releasing ex reg (releaseLeaseWithRevision ρ)
  | released {r : Except CacheError Unit} (hfree : holds ex reg = false) : Releasing ex reg (.ret r)

theorem holds_push_none {w : Write ι (Metadata ι)} {visible : Bool}
    (hw : (w.content.all fun metadata => metadata.holderIdentity ≠ ex.identity) = true)
    (h : reg.push w visible = some reg') : holds ex reg' = false := by
  obtain ⟨-, hlog, hvisible⟩ := Register.push_eq_some h
  rw [holds, Register.current, hvisible, hlog]
  cases visible with
  | false => rfl
  | true =>
      cases hcontent : w.content with
      | none => simp [hcontent]
      | some metadata => simpa [hcontent] using hw

/-- A request that does not store anything does not make this pod the holder. -/
theorem serve_of_not_stores {r : Req ι} {x : r.Reply} (hr : stores reg r = false)
    (h : Lease.serve ex.identity now c reg r = some (x, reg')) :
    reg' = reg ∨ holds ex reg' = false := by
  rcases serve_cases h with ⟨rfl, -⟩ | ⟨value, hvalue, -, -, hcause⟩ | ⟨ρ, -, -, hpush⟩
  · exact Or.inl rfl
  · rcases hcause with ⟨rfl, hnone⟩ | ⟨ρ, rfl, haccepts⟩
    · simp [stores, hnone] at hr
    · simp [stores, haccepts] at hr
  · exact Or.inr (holds_push_none rfl hpush)

/-- Whoever writes in between does not make this pod the holder. -/
theorem Releasing.other (h : Releasing ex reg p) (hreg : reg' = reg ∨ holds ex reg' = false) :
    Releasing ex reg' p := by
  rcases hreg with rfl | hfree
  · exact h
  · cases h with
    | asking => exact .asking
    | deleting => exact .deleting fun h => by simp [hfree] at h
    | released => exact .released hfree

/-- Before the release has looked at the lease it is one for any lease. -/
theorem Releasing.unasked (h : Releasing ex reg p) (hp : p.pending = some .getWithRevision) :
    Releasing ex reg' p := by
  cases h with
  | asking => exact .asking
  | deleting => simp [releaseLeaseWithRevision, Prog.pending] at hp
  | released => simp [Prog.pending] at hp

theorem Releasing.answer (h : Releasing ex reg p)
    (ha : p.answer (Lease.serve ex.identity now c reg) = some (p', reg')) :
    Releasing ex reg' p' ∧ (reg' = reg ∨ holds ex reg' = false) := by
  obtain ⟨r, k, x, rfl, hserve, rfl⟩ := Prog.answer_eq_some ha
  generalize hp : Prog.call r k = p at h
  cases h with
  | asking =>
      cases hp
      cases hserve
      refine ⟨?_, Or.inl rfl⟩
      cases hcurrent : reg.current.bind fun w => w.content.map (·, w.revision) with
      | none =>
          refine .released ?_
          rw [holds]
          cases hw : reg.current with
          | none => rfl
          | some w =>
              rw [hw, Option.bind_some, Option.map_eq_none_iff] at hcurrent
              simp [hcurrent]
      | some found =>
          obtain ⟨w, hw, hfound⟩ := Option.bind_eq_some_iff.mp hcurrent
          obtain ⟨metadata, hcontent, rfl⟩ := Option.map_eq_some_iff.mp hfound
          have hholds : holds ex reg = decide (metadata.holderIdentity = ex.identity) := by
            simp [holds, hw, hcontent]
          simp only [Prog.bind]
          by_cases hmine : metadata.holderIdentity = ex.identity
          · rw [if_pos hmine]
            exact .deleting fun _ => Register.accepts_iff.mpr ⟨w, hw, rfl⟩
          · rw [if_neg hmine]
            exact .released (hholds.trans (decide_eq_false hmine))
  | deleting hheld =>
      cases hp
      simp only [Lease.serve] at hserve
      split at hserve
      · obtain ⟨reg₁, hpush, he⟩ := Option.map_eq_some_iff.mp hserve
        cases he
        have hfree : holds ex reg' = false := holds_push_none rfl hpush
        exact ⟨.released hfree, Or.inr hfree⟩
      · rename_i hrefused
        cases hserve
        have hfree : holds ex reg = false := by
          rw [← Bool.not_eq_true]
          exact fun h => hrefused (hheld h)
        exact ⟨.released hfree, Or.inl rfl⟩
  | released => cases hp

/-- The release of a lease that nothing is known about. -/
theorem Releasing.forget (h : Releasing ex reg p) : Releasing ex .empty p := h.other (Or.inr rfl)

theorem Releasing.forget_answer (h : Releasing ex .empty p)
    (ha : p.answer (Lease.serve ex.identity now c reg) = some (p', reg')) :
    Releasing ex .empty p' := by
  cases h with
  | asking => exact (Releasing.asking.answer ha).1.forget
  | deleting =>
      obtain ⟨r, k, x, hp, -, rfl⟩ := Prog.answer_eq_some ha
      cases hp
      exact .released rfl
  | released => cases ha

end Release

/-! ## The app -/

section App

variable {s s' : State κ ι} {m n : Nat} {f fl fl' : Flow κ ι} {identity : κ}

/-- No other flow was loaded under the identity of this one. -/
def State.Sole (s : State κ ι) (m : Nat) : Prop :=
  ∀ n fl fl', s.flows[m]? = some fl → s.flows[n]? = some fl' → fl'.identity = fl.identity → n = m

/-- Every flow in the registry is kept; where it was collected at the start it is the
only one of its identity. -/
def Serving (s : State κ ι) : Prop :=
  s.stopped = [] ∧ ∀ m ∈ s.registry, ∃ fl, s.flows[m]? = some fl ∧ Kept fl ∧
    (m ∈ s.taskManagers → s.Sole m)

/-- A drained flow that the app has started with, and that may hold the lease. -/
structure Settling [DecidableEq ι] (ex : Executor ι) (s : State κ ι) (m : Nat) (fl : Flow κ ι) : Prop where
  elected : fl.leaderElected = true
  sole : s.Sole m
  phase : match s.phase with
    | .serving => False
    | .stopping => m ∈ s.taskManagers ∧ Kept fl
    | .releasing rest call => (m ∈ rest ∧ Kept fl ∧ fl.ended = true) ∨
        (m ∉ rest ∧ Closed fl ∧
          (∀ p, call = some (fl.identity, p) → Releasing ex (s.lease fl.identity) p) ∧
          ((∀ p, call ≠ some (fl.identity, p)) → holds ex (s.lease fl.identity) = false))
    | .complete => Closed fl ∧ holds ex (s.lease fl.identity) = false

def Stopping [DecidableEq ι] (ex : Executor ι) (s : State κ ι) : Prop :=
  ∀ m ∈ s.stopped, ∃ fl, s.flows[m]? = some fl ∧ (s.Quiet ex fl.identity ∨ Settling ex s m fl)

structure Inv [DecidableEq ι] (ex : Executor ι) (s : State κ ι) : Prop where
  nodup : s.taskManagers.Nodup
  places : ∀ m ∈ s.taskManagers, m < s.flows.length
  rest : ∀ rest call, s.phase = .releasing rest call → rest.Nodup ∧
    ∀ identity p, call = some (identity, p) → Releasing ex .empty p
  flows : if s.serving then Serving s else Stopping ex s

theorem getElem?_setFlow_self (hfl : s.flows[n]? = some fl) :
    (s.setFlow n fl').flows[n]? = some fl' := by
  rw [State.setFlow, List.getElem?_set_self', hfl]
  rfl

theorem getElem?_setFlow_ne (hne : m ≠ n) :
    (s.setFlow n fl').flows[m]? = s.flows[m]? :=
  List.getElem?_set_ne hne.symm

theorem State.Sole.setFlow (h : s.Sole m) (hfl : s.flows[n]? = some fl)
    (hid : fl'.identity = fl.identity) : (s.setFlow n fl').Sole m := by
  have hback : ∀ {k : Nat} {g : Flow κ ι}, (s.setFlow n fl').flows[k]? = some g →
      ∃ f, s.flows[k]? = some f ∧ f.identity = g.identity := by
    intro k g hg
    rcases get_set hg with ⟨rfl, rfl⟩ | ⟨-, hg⟩
    · exact ⟨fl, hfl, hid.symm⟩
    · exact ⟨g, hg, rfl⟩
  intro k g g' hg hg' heq
  obtain ⟨f, hf, hfg⟩ := hback hg
  obtain ⟨f', hf', hfg'⟩ := hback hg'
  exact h k f f' hf hf' (hfg'.trans (heq.trans hfg.symm))

theorem Serving.setFlow (h : Serving s) (hfl : s.flows[n]? = some fl)
    (hid : fl'.identity = fl.identity) (hkept : n ∈ s.registry → Kept fl → Kept fl') :
    Serving (s.setFlow n fl') := by
  refine ⟨h.1, ?_⟩
  intro m hm
  obtain ⟨g, hg, hgkept, hsole⟩ := h.2 m hm
  rcases eq_or_ne m n with rfl | hne
  · cases hg.symm.trans hfl
    exact ⟨fl', getElem?_setFlow_self hfl, hkept hm hgkept, fun h => (hsole h).setFlow hfl hid⟩
  · exact ⟨g, (getElem?_setFlow_ne hne).trans hg, hgkept, fun h => (hsole h).setFlow hfl hid⟩

/-- A flow is loaded under an identity that is not in the registry. -/
theorem Serving.insert (h : Serving s) (leaderElected : Bool)
    (hplaces : ∀ m ∈ s.taskManagers, m < s.flows.length)
    (hnew : ∀ m ∈ s.registry, ∀ fl, s.flows[m]? = some fl → fl.identity ≠ identity) :
    Serving { s with
      flows := s.flows ++ [.new identity leaderElected]
      registry := s.registry ++ [s.flows.length] } := by
  refine ⟨h.1, ?_⟩
  intro m hm
  rcases List.mem_append.mp hm with hm | hm
  · obtain ⟨fl, hfl, hkept, hsole⟩ := h.2 m hm
    have hlt : m < s.flows.length := (List.getElem?_eq_some_iff.mp hfl).1
    refine ⟨fl, (List.getElem?_append_left hlt).trans hfl, hkept, ?_⟩
    intro hcollected k g g' hg hg' heq
    cases ((List.getElem?_append_left hlt).symm.trans hg).symm.trans hfl
    rcases get_concat hg' with hg' | ⟨-, rfl⟩
    · exact hsole hcollected k fl g' hfl hg' heq
    · exact absurd heq.symm (hnew m hm fl hfl)
  · obtain rfl := List.mem_singleton.mp hm
    refine ⟨.new identity leaderElected, by simp, kept_new _ _, ?_⟩
    intro hcollected
    exact absurd (hplaces _ hcollected) (Nat.lt_irrefl _)

theorem serving_iff : s.serving = true ↔ s.phase = .serving := by
  rw [State.serving]
  split
  · rename_i h
    simp [h]
  · rename_i h
    simpa using h

theorem Kept.finish (h : Kept fl) (hanswered : fl.answered = true) :
    Kept { fl with ended := true } := by
  refine ⟨h.tidy, h.mine, ?_, fun _ => hanswered⟩
  cases h.stage with
  | unregistered hreg hqueue hproc htasks hnone =>
      exact .unregistered hreg hqueue hproc htasks hnone
  | queued hreg hqueue hproc htasks hnone => exact .queued hreg hqueue hproc htasks hnone
  | processing hreg hqueue hproc htasks => exact .processing hreg hqueue hproc htasks
  | answered hreg hqueue hproc hentry => exact .answered hreg hqueue hproc hentry

variable [DecidableEq ι] {ex : Executor ι} {requests : List (Req ι)}

theorem State.Quiet.setFlow (h : s.Quiet ex identity) (hfl : s.flows[n]? = some fl)
    (hid : fl'.identity = fl.identity) (hidle : fl.Idle → fl'.Idle)
    (hrequests : fl.Idle → requests = []) :
    State.Quiet ex { s.setFlow n fl' with
      requests := s.requests ++ requests.map (fl.identity, ·) } identity where
  idle g hg hgid := by
    rcases List.mem_or_eq_of_mem_set hg with hg | rfl
    · exact h.idle g hg hgid
    · exact hidle (h.idle fl (List.mem_of_getElem? hfl) (hid.symm.trans hgid))
  requests r hr := by
    rcases List.mem_append.mp hr with hr | hr
    · exact h.requests r hr
    · obtain ⟨r, hr, rfl⟩ := List.mem_map.mp hr
      intro heq
      rw [hrequests (h.idle fl (List.mem_of_getElem? hfl) heq)] at hr
      cases hr
  free := h.free

/-- What a step of a flow has to keep of it while the app stops. -/
structure Follows (fl fl' : Flow κ ι) : Prop where
  identity : fl'.identity = fl.identity
  elected : fl'.leaderElected = fl.leaderElected
  kept : Kept fl → Kept fl'
  ended : fl.ended = true → fl'.ended = true
  closed : Closed fl → Closed fl'

theorem Settling.setFlow (h : Settling ex s m fl) (hfl : s.flows[n]? = some f)
    (hid : fl'.identity = f.identity) :
    Settling ex { s.setFlow n fl' with requests := s.requests ++ requests.map (f.identity, ·) }
      m fl where
  elected := h.elected
  sole := h.sole.setFlow hfl hid
  phase := h.phase

theorem Settling.follow (h : Settling ex s m fl) (hf : Follows fl fl') : Settling ex s m fl' where
  elected := hf.elected.trans h.elected
  sole := h.sole
  phase := by
    have hphase := h.phase
    rw [hf.identity]
    cases hp : s.phase with
    | serving =>
        rw [hp] at hphase
        exact hphase
    | stopping =>
        rw [hp] at hphase
        exact ⟨hphase.1, hf.kept hphase.2⟩
    | releasing rest call =>
        rw [hp] at hphase
        rcases hphase with ⟨hrest, hkept, hended⟩ | ⟨hrest, hclosed, hcall⟩
        · exact Or.inl ⟨hrest, hf.kept hkept, hf.ended hended⟩
        · exact Or.inr ⟨hrest, hf.closed hclosed, hcall⟩
    | complete =>
        rw [hp] at hphase
        exact ⟨hf.closed hphase.1, hphase.2⟩

theorem Stopping.setFlow (h : Stopping ex s) (hfl : s.flows[n]? = some fl)
    (hid : fl'.identity = fl.identity) (hidle : fl.Idle → fl'.Idle)
    (hrequests : fl.Idle → requests = []) (hfollows : n ∈ s.stopped → Follows fl fl') :
    Stopping ex { s.setFlow n fl' with
      requests := s.requests ++ requests.map (fl.identity, ·) } := by
  intro m hm
  obtain ⟨g, hg, hfate⟩ := h m hm
  rcases eq_or_ne m n with rfl | hne
  · cases hg.symm.trans hfl
    refine ⟨fl', getElem?_setFlow_self hfl, ?_⟩
    rcases hfate with hquiet | hsettling
    · exact Or.inl (hid ▸ hquiet.setFlow hfl hid hidle hrequests)
    · exact Or.inr ((hsettling.setFlow hfl hid).follow (hfollows hm))
  · refine ⟨g, (getElem?_setFlow_ne hne).trans hg, ?_⟩
    rcases hfate with hquiet | hsettling
    · exact Or.inl (hquiet.setFlow hfl hid hidle hrequests)
    · exact Or.inr (hsettling.setFlow hfl hid)

/-- Another lease is written, or one that does not become held, or one that the
shutdown has yet to look at. -/
theorem Settling.write {reg : LeaseKey ι} {requests : List (κ × Req ι)} [DecidableEq κ]
    (h : Settling ex s m fl)
    (hlooked : fl.identity = identity → s.looked m identity →
      reg = s.lease identity ∨ holds ex reg = false) :
    Settling ex { s with
      requests := requests, lease := Function.update s.lease identity reg } m fl where
  elected := h.elected
  sole := h.sole
  phase := by
    rcases eq_or_ne fl.identity identity with rfl | hne
    · have hlooked := hlooked rfl
      have hphase := h.phase
      simp only [Function.update_self]
      cases hp : s.phase with
      | serving => simp [hp] at hphase
      | stopping =>
          rw [hp] at hphase
          exact hphase
      | releasing rest call =>
          rw [hp] at hphase
          rw [State.looked, hp] at hlooked
          rcases hphase with hbefore | ⟨hrest, hclosed, hcall, hfree⟩
          · exact Or.inl hbefore
          · refine Or.inr ⟨hrest, hclosed, ?_, ?_⟩
            · intro p hp
              by_cases hasking : p.pending = some .getWithRevision
              · exact (hcall p hp).unasked hasking
              · refine (hcall p hp).other (hlooked ⟨hrest, ?_⟩)
                intro p' hp'
                cases hp.symm.trans hp'
                exact hasking
            · intro hno
              rcases hlooked ⟨hrest, fun p hp => absurd hp (hno p)⟩ with rfl | hreg
              · exact hfree hno
              · exact hreg
      | complete =>
          rw [hp] at hphase
          rw [State.looked, hp] at hlooked
          refine ⟨hphase.1, ?_⟩
          rcases hlooked trivial with rfl | hreg
          · exact hphase.2
          · exact hreg
    · simp only [Function.update_of_ne hne]
      exact h.phase

theorem Stopping.write [DecidableEq κ] {reg : LeaseKey ι} {requests : List (κ × Req ι)}
    (h : Stopping ex s) (hrequests : requests ⊆ s.requests)
    (hquiet : s.Quiet ex identity → holds ex reg = false)
    (hlooked : ∀ m ∈ s.stopped, ∀ fl, s.flows[m]? = some fl → fl.identity = identity →
      s.looked m identity → reg = s.lease identity ∨ holds ex reg = false) :
    Stopping ex { s with
      requests := requests, lease := Function.update s.lease identity reg } := by
  intro m hm
  obtain ⟨fl, hfl, hfate⟩ := h m hm
  refine ⟨fl, hfl, ?_⟩
  rcases hfate with hfate | hsettling
  · refine Or.inl ⟨hfate.idle, fun r hr => hfate.requests r (hrequests hr), ?_⟩
    change holds ex (Function.update s.lease identity reg fl.identity) = false
    rcases eq_or_ne fl.identity identity with rfl | hne
    · rw [Function.update_self]
      exact hquiet hfate
    · rw [Function.update_of_ne hne]
      exact hfate.free
  · exact Or.inr (hsettling.write (hlooked m hm fl hfl))

/-- The signal: with care, every registered flow is one or the other. -/
theorem Serving.signal [DecidableEq κ] (h : Serving s) (hok : Careful ex s .signal) :
    Stopping ex { s with phase := .stopping, registry := [], stopped := s.registry } := by
  intro m hm
  obtain ⟨fl, hfl, hkept, hsole⟩ := h.2 m hm
  refine ⟨fl, hfl, ?_⟩
  rcases hok m hm fl hfl with ⟨hcollected, helected⟩ | hquiet
  · exact Or.inr ⟨helected, hsole hcollected, hcollected, hkept⟩
  · exact Or.inl ⟨hquiet.idle, hquiet.requests, hquiet.free⟩

/-- The step from one phase to the next. -/
theorem Stopping.phase {phase : Phase κ ι} (h : Stopping ex s)
    (hsettling : ∀ m ∈ s.stopped, ∀ fl, s.flows[m]? = some fl → Settling ex s m fl →
      Settling ex { s with phase := phase } m fl) : Stopping ex { s with phase := phase } := by
  intro m hm
  obtain ⟨fl, hfl, hfate⟩ := h m hm
  refine ⟨fl, hfl, ?_⟩
  rcases hfate with hquiet | hfate
  · exact Or.inl ⟨hquiet.idle, hquiet.requests, hquiet.free⟩
  · exact Or.inr (hsettling m hm fl hfl hfate)

theorem Stopping.awaited (h : Stopping ex s) (hphase : s.phase = .stopping)
    (hended : (s.stopped.all fun m => s.flows[m]?.any (·.ended)) = true) :
    Stopping ex { s with phase := .releasing s.taskManagers none } := by
  refine h.phase ?_
  intro m hm fl hfl hsettling
  have hstage := hsettling.phase
  rw [hphase] at hstage
  have hended := List.all_eq_true.mp hended m hm
  rw [hfl] at hended
  exact ⟨hsettling.elected, hsettling.sole, Or.inl ⟨hstage.1, hstage.2, hended⟩⟩

theorem Stopping.released {rest : List Nat} {r : Except CacheError Unit} (h : Stopping ex s)
    (hphase : s.phase = .releasing rest (some (identity, .ret r))) :
    Stopping ex { s with phase := .releasing rest none } := by
  refine h.phase ?_
  intro m hm fl hfl hsettling
  have hstage := hsettling.phase
  rw [hphase] at hstage
  refine ⟨hsettling.elected, hsettling.sole, ?_⟩
  rcases hstage with hbefore | ⟨hrest, hclosed, hcall, hfree⟩
  · exact Or.inl hbefore
  · refine Or.inr ⟨hrest, hclosed, nofun, fun _ => ?_⟩
    rcases eq_or_ne identity fl.identity with rfl | hne
    · cases hcall _ rfl with
      | released hfree => exact hfree
    · refine hfree ?_
      intro p hp
      cases hp
      exact hne rfl

theorem Stopping.exit (h : Stopping ex s) (hphase : s.phase = .releasing [] none) :
    Stopping ex { s with phase := .complete } := by
  refine h.phase ?_
  intro m hm fl hfl hsettling
  have hstage := hsettling.phase
  rw [hphase] at hstage
  refine ⟨hsettling.elected, hsettling.sole, ?_⟩
  rcases hstage with ⟨hrest, -, -⟩ | ⟨-, hclosed, -, hfree⟩
  · cases hrest
  · exact ⟨hclosed, hfree nofun⟩

/-- A call of the release under way is answered. -/
theorem Stopping.release [DecidableEq κ] {rest : List Nat} {p p' : LeaseProg ι Unit} {now : Nat}
    {c : Choice} {reg : LeaseKey ι} (h : Stopping ex s)
    (hphase : s.phase = .releasing rest (some (identity, p))) (hp : Releasing ex .empty p)
    (ha : p.answer (Lease.serve ex.identity now c (s.lease identity)) = some (p', reg)) :
    Stopping ex { s with
      phase := .releasing rest (some (identity, p'))
      lease := Function.update s.lease identity reg } := by
  intro m hm
  obtain ⟨fl, hfl, hfate⟩ := h m hm
  refine ⟨fl, hfl, ?_⟩
  rcases hfate with hquiet | hsettling
  · refine Or.inl ⟨hquiet.idle, hquiet.requests, ?_⟩
    change holds ex (Function.update s.lease identity reg fl.identity) = false
    rcases eq_or_ne fl.identity identity with rfl | hne
    · rw [Function.update_self]
      rcases ((hp.other (Or.inr hquiet.free)).answer ha).2 with rfl | hreg
      · exact hquiet.free
      · exact hreg
    · rw [Function.update_of_ne hne]
      exact hquiet.free
  · have hstage := hsettling.phase
    rw [hphase] at hstage
    refine Or.inr ⟨hsettling.elected, hsettling.sole, ?_⟩
    rcases hstage with hbefore | ⟨hrest, hclosed, hcall, hfree⟩
    · exact Or.inl hbefore
    · refine Or.inr ⟨hrest, hclosed, ?_⟩
      rcases eq_or_ne fl.identity identity with rfl | hne
      · simp only [Function.update_self]
        refine ⟨?_, fun hno => absurd rfl (hno p')⟩
        intro p'' hp''
        cases hp''
        exact ((hcall p rfl).answer ha).1
      · simp only [Function.update_of_ne hne]
        refine ⟨?_, fun _ => hfree ?_⟩
        · intro p'' hp''
          cases hp''
          exact absurd rfl hne
        · intro p'' hp''
          cases hp''
          exact hne rfl

/-- A task manager is shut down: its lease is looked at next, if it has one. -/
theorem Stopping.shutdown [DecidableEq κ] {rest : List Nat} (h : Stopping ex s)
    (hphase : s.phase = .releasing (n :: rest) none) (hnodup : (n :: rest).Nodup)
    (hfl : s.flows[n]? = some fl) : Stopping ex (s.abortLease ex n rest fl) := by
  intro m hm
  obtain ⟨g, hg, hfate⟩ := h m hm
  have hflows : (s.abortLease ex n rest fl).flows =
      (s.setFlow n { fl with taskManager := fl.taskManager.remove fl.identity }).flows := rfl
  have hquiet : s.Quiet ex g.identity → (s.abortLease ex n rest fl).Quiet ex g.identity := by
    intro hquiet
    refine ⟨?_, hquiet.requests, hquiet.free⟩
    intro f hf hid
    rcases List.mem_or_eq_of_mem_set hf with hf | rfl
    · exact hquiet.idle f hf hid
    · exact (hquiet.idle fl (List.mem_of_getElem? hfl) hid).abort
  rcases eq_or_ne m n with rfl | hne
  · cases hg.symm.trans hfl
    refine ⟨_, getElem?_setFlow_self hfl, ?_⟩
    rcases hfate with hfate | hsettling
    · exact Or.inl (hquiet hfate)
    · have hstage := hsettling.phase
      rw [hphase] at hstage
      refine Or.inr ⟨hsettling.elected, hsettling.sole.setFlow hfl rfl, ?_⟩
      rcases hstage with ⟨-, hkept, hended⟩ | ⟨hrest, -⟩
      · refine Or.inr ⟨(List.nodup_cons.mp hnodup).1, hkept.close hended, ?_⟩
        obtain ⟨entry, hentry⟩ :=
          Option.ne_none_iff_exists'.mp (hkept.entry hended hsettling.elected)
        rw [hentry]
        refine ⟨?_, fun hno => absurd rfl (hno _)⟩
        intro p hp
        cases hp
        exact .asking
      · exact absurd List.mem_cons_self hrest
  · refine ⟨g, (getElem?_setFlow_ne hne).trans hg, ?_⟩
    rcases hfate with hfate | hsettling
    · exact Or.inl (hquiet hfate)
    · have hstage := hsettling.phase
      rw [hphase] at hstage
      refine Or.inr ⟨hsettling.elected, hsettling.sole.setFlow hfl rfl, ?_⟩
      rcases hstage with ⟨hrest, hkept, hended⟩ | ⟨hrest, hclosed, -, hfree⟩
      · exact Or.inl ⟨(List.mem_cons.mp hrest).resolve_left hne, hkept, hended⟩
      · refine Or.inr ⟨fun h => hrest (List.mem_cons_of_mem _ h), hclosed, ?_, fun _ => hfree nofun⟩
        intro p hp
        obtain ⟨-, -, hcall⟩ := Option.map_eq_some_iff.mp hp
        have hid : fl.identity = g.identity := congrArg Prod.fst hcall
        exact absurd (hsettling.sole n g fl hg hfl hid).symm hne

theorem inv_start {flows : List (κ × Bool)} {lease : κ → LeaseKey ι}
    (hnodup : (flows.map Prod.fst).Nodup) : Inv ex (.start flows lease) where
  nodup := List.nodup_range
  places m hm := by
    change m < (flows.map _).length
    rw [List.length_map]
    exact List.mem_range.mp hm
  rest _ _ h := by cases h
  flows := by
    refine ⟨rfl, ?_⟩
    intro m hm
    have hlt : m < flows.length := List.mem_range.mp hm
    have hget : ∀ {k : Nat} {g : Flow κ ι}, (State.start flows lease).flows[k]? = some g →
        (flows.map Prod.fst)[k]? = some g.identity := by
      intro k g hg
      change (flows.map _)[k]? = some g at hg
      rw [List.getElem?_map] at hg ⊢
      obtain ⟨flow, hflow, rfl⟩ := Option.map_eq_some_iff.mp hg
      rw [hflow]
      rfl
    refine ⟨.new flows[m].1 flows[m].2, ?_, kept_new _ _, ?_⟩
    · change (flows.map _)[m]? = _
      rw [List.getElem?_map, List.getElem?_eq_getElem hlt]
      rfl
    · intro _ n g g' hg hg' hid
      have hm := hget hg
      have hn := hget hg'
      rw [hid] at hn
      have hlt' : m < (flows.map Prod.fst).length := by
        rw [List.length_map]
        exact hlt
      exact ((List.getElem?_inj hlt' hnodup).mp (hm.trans hn.symm)).symm

/-- A flow takes a step. -/
theorem Inv.setFlow (h : Inv ex s) (hfl : s.flows[n]? = some fl)
    (hid : fl'.identity = fl.identity) (hkept : n ∈ s.registry → Kept fl → Kept fl')
    (hidle : fl.Idle → fl'.Idle) (hrequests : fl.Idle → requests = [])
    (hfollows : n ∈ s.stopped → Follows fl fl') :
    Inv ex { s.setFlow n fl' with
      requests := s.requests ++ requests.map (fl.identity, ·) } where
  nodup := h.nodup
  places m hm := by
    change m < (s.flows.set n fl').length
    rw [List.length_set]
    exact h.places m hm
  rest := h.rest
  flows := by
    have hflows := h.flows
    change if s.serving then _ else _
    split at hflows
    · rename_i hserving
      rw [if_pos hserving]
      exact hflows.setFlow hfl hid hkept
    · rename_i hserving
      rw [if_neg hserving]
      exact hflows.setFlow hfl hid hidle hrequests hfollows

theorem Inv.setFlow_quietly (h : Inv ex s) (hfl : s.flows[n]? = some fl)
    (hid : fl'.identity = fl.identity) (hkept : n ∈ s.registry → Kept fl → Kept fl')
    (hidle : fl.Idle → fl'.Idle) (hfollows : n ∈ s.stopped → Follows fl fl') :
    Inv ex (s.setFlow n fl') := by
  have hnone : fl.Idle → ([] : List (Req ι)) = [] := fun _ => rfl
  have hset := h.setFlow hfl hid hkept hidle hnone hfollows
  have hsame : { s.setFlow n fl' with requests := s.requests ++ [].map (fl.identity, ·) } =
      s.setFlow n fl' := by
    rw [List.map_nil, List.append_nil]
    rfl
  exact hsame ▸ hset

theorem Inv.stopping (h : Inv ex s) (hphase : s.phase ≠ .serving) : Stopping ex s := by
  have hflows := h.flows
  rwa [if_neg fun hs => hphase (serving_iff.mp hs)] at hflows

theorem Inv.serving (h : Inv ex s) (hserving : s.serving = true) : Serving s := by
  have hflows := h.flows
  rwa [if_pos hserving] at hflows

theorem Inv.released (h : Inv ex s) : Released ex s := by
  rw [Released]
  split
  · rename_i hphase
    intro m hm fl hfl
    obtain ⟨g, hg, hfate⟩ := h.stopping (by simp [hphase]) m hm
    cases hg.symm.trans hfl
    rcases hfate with hquiet | hsettling
    · refine ⟨hquiet.free, ?_⟩
      intro fl' hfl' hid t ht
      rw [(hquiet.idle fl' hfl' hid).ended t ht]
      rfl
    · have hstage := hsettling.phase
      rw [hphase] at hstage
      refine ⟨hstage.2, ?_⟩
      intro fl' hfl' hid t ht
      obtain ⟨n, hn⟩ := List.mem_iff_getElem?.mp hfl'
      obtain rfl := hsettling.sole n fl fl' hfl hn hid
      cases hn.symm.trans hfl
      exact hstage.1.not_live ht
  · trivial

variable [DecidableEq κ] {a : Act κ ι}

/-- With care, what is known of the flows stays true. -/
theorem Inv.step (h : Inv ex s) (hok : Careful ex s a) (hstep : Shutdown.step ex s a = some s') :
    Inv ex s' := by
  cases a with
  | remove m =>
      obtain ⟨hguard, hstep⟩ := Option.ite_none_right_eq_some.mp hstep
      cases hstep
      obtain ⟨hserving, -⟩ := Bool.and_eq_true_iff.mp hguard
      have hflows := h.serving hserving
      refine ⟨h.nodup, h.places, h.rest, ?_⟩
      change if s.serving then _ else _
      rw [if_pos hserving]
      exact ⟨hflows.1, fun n hn => hflows.2 n (List.mem_filter.mp hn).1⟩
  | unregister m =>
      obtain ⟨hguard, hstep⟩ := Option.ite_none_right_eq_some.mp hstep
      obtain ⟨hserving, hgone⟩ := Bool.and_eq_true_iff.mp hguard
      obtain ⟨fl, hfl, rfl⟩ := Option.map_eq_some_iff.mp hstep
      refine h.setFlow_quietly hfl rfl ?_ Flow.Idle.abort ?_
      · intro hm
        simp [hm] at hgone
      · intro hm
        rw [(h.serving hserving).1] at hm
        cases hm
  | insert identity leaderElected =>
      obtain ⟨hguard, hstep⟩ := Option.ite_none_right_eq_some.mp hstep
      cases hstep
      obtain ⟨hserving, hnew⟩ := Bool.and_eq_true_iff.mp hguard
      refine ⟨h.nodup, ?_, h.rest, ?_⟩
      · intro m hm
        rw [List.length_append]
        exact Nat.lt_add_right _ (h.places m hm)
      · change if s.serving then _ else _
        rw [if_pos hserving]
        refine (h.serving hserving).insert leaderElected h.places ?_
        intro m hm fl hfl
        have hnew := List.all_eq_true.mp hnew m hm
        rw [hfl] at hnew
        simpa using hnew
  | register m =>
      simp only [Shutdown.step] at hstep
      split at hstep
      · rename_i fl hfl
        obtain ⟨hreg, hstep⟩ := Option.ite_none_left_eq_some.mp hstep
        obtain ⟨tm, htm, rfl⟩ := Option.map_eq_some_iff.mp hstep
        have hreg : fl.registered = false := by simpa using hreg
        refine h.setFlow_quietly hfl rfl (fun _ hkept => hkept.register hreg htm)
          (fun hidle => hidle.register hreg htm) ?_
        intro _
        refine ⟨rfl, rfl, fun hkept => hkept.register hreg htm, id, ?_⟩
        intro hclosed
        have hanswered := (answered_iff.mp hclosed.answered).1
        rw [hreg] at hanswered
        cases hanswered
      · cases hstep
  | finish m =>
      simp only [Shutdown.step] at hstep
      split at hstep
      · rename_i fl hfl
        obtain ⟨hanswered, hstep⟩ := Option.ite_none_right_eq_some.mp hstep
        cases hstep
        refine h.setFlow_quietly hfl rfl (fun _ hkept => hkept.finish hanswered)
          (fun hidle => ⟨hidle.asked, hidle.queue, hidle.processing, hidle.ended⟩) ?_
        intro _
        exact ⟨rfl, rfl, fun hkept => hkept.finish hanswered, fun _ => rfl,
          fun hclosed => ⟨hclosed.tidy, hclosed.mine, hclosed.answered, hclosed.none⟩⟩
      · cases hstep
  | manager m a =>
      simp only [Shutdown.step] at hstep
      split at hstep
      · rename_i fl hfl
        obtain ⟨hown, hstep⟩ := Option.ite_none_right_eq_some.mp hstep
        obtain ⟨tm, htm, rfl⟩ := Option.map_eq_some_iff.mp hstep
        refine h.setFlow hfl rfl (fun _ hkept => hkept.step hown htm)
          (fun hidle => hidle.step hown htm) (fun hidle => ?_) ?_
        · rw [hidle.request_eq_none]
          rfl
        · intro hm
          exact ⟨rfl, rfl, fun hkept => hkept.step hown htm, id,
            fun hclosed => hclosed.step hown (hok hm fl hfl) htm⟩
      · cases hstep
  | serve i now c =>
      simp only [Shutdown.step] at hstep
      split at hstep
      · rename_i identity r hr
        obtain ⟨⟨x, reg⟩, hserve, rfl⟩ := Option.map_eq_some_iff.mp hstep
        refine ⟨h.nodup, h.places, h.rest, ?_⟩
        change if s.serving then _ else _
        by_cases hserving : s.serving = true
        · rw [if_pos hserving]
          exact h.serving hserving
        · rw [if_neg hserving]
          have hstopping := h.stopping fun hs => hserving (serving_iff.mpr hs)
          refine hstopping.write (List.eraseIdx_subset) ?_ ?_
          · intro hquiet
            exact absurd rfl (hquiet.requests _ (List.mem_of_getElem? hr))
          · intro m hm fl hfl hid hlooked
            exact serve_of_not_stores (hok _ hr m hm fl hfl hid hlooked) hserve
      · cases hstep
  | foreign identity w visible =>
      obtain ⟨hforeign, hstep⟩ := Option.ite_none_right_eq_some.mp hstep
      obtain ⟨reg, hpush, rfl⟩ := Option.map_eq_some_iff.mp hstep
      have hfree : holds ex reg = false := holds_push_none hforeign hpush
      refine ⟨h.nodup, h.places, h.rest, ?_⟩
      change if s.serving then _ else _
      by_cases hserving : s.serving = true
      · rw [if_pos hserving]
        exact h.serving hserving
      · rw [if_neg hserving]
        have hstopping := h.stopping fun hs => hserving (serving_iff.mpr hs)
        exact hstopping.write (List.Subset.refl _) (fun _ => hfree) fun _ _ _ _ _ _ => Or.inr hfree
  | signal =>
      obtain ⟨hserving, hstep⟩ := Option.ite_none_right_eq_some.mp hstep
      cases hstep
      exact ⟨h.nodup, h.places, nofun, (h.serving hserving).signal hok⟩
  | awaited =>
      simp only [Shutdown.step] at hstep
      split at hstep
      · rename_i hphase
        obtain ⟨hended, hstep⟩ := Option.ite_none_right_eq_some.mp hstep
        cases hstep
        have hstopping := h.stopping (by simp [hphase])
        refine ⟨h.nodup, h.places, ?_, hstopping.awaited hphase hended⟩
        intro rest call hrest
        cases hrest
        exact ⟨h.nodup, nofun⟩
      · cases hstep
  | shutdown =>
      simp only [Shutdown.step] at hstep
      split at hstep
      · rename_i m rest hphase
        obtain ⟨fl, hfl, rfl⟩ := Option.map_eq_some_iff.mp hstep
        have hstopping := h.stopping (by simp [hphase])
        have hnodup := (h.rest _ _ hphase).1
        refine ⟨h.nodup, ?_, ?_, hstopping.shutdown hphase hnodup hfl⟩
        · intro n hn
          change n < (s.flows.set m _).length
          rw [List.length_set]
          exact h.places n hn
        · intro rest' call hrest
          cases hrest
          refine ⟨(List.nodup_cons.mp hnodup).2, ?_⟩
          intro identity p hp
          obtain ⟨-, -, hcall⟩ := Option.map_eq_some_iff.mp hp
          cases hcall
          exact .asking
      · cases hstep
  | release now c =>
      simp only [Shutdown.step] at hstep
      split at hstep
      · rename_i rest identity p hphase
        obtain ⟨⟨p', reg⟩, ha, rfl⟩ := Option.map_eq_some_iff.mp hstep
        have hstopping := h.stopping (by simp [hphase])
        obtain ⟨hnodup, hcall⟩ := h.rest _ _ hphase
        have hp := hcall identity p rfl
        refine ⟨h.nodup, h.places, ?_, hstopping.release hphase hp ha⟩
        intro rest' call hrest
        cases hrest
        refine ⟨hnodup, ?_⟩
        intro identity' p'' hp''
        cases hp''
        exact hp.forget_answer ha
      · cases hstep
  | released =>
      simp only [Shutdown.step] at hstep
      split at hstep
      · rename_i rest identity r hphase
        cases hstep
        have hstopping := h.stopping (by simp [hphase])
        refine ⟨h.nodup, h.places, ?_, hstopping.released hphase⟩
        intro rest' call hrest
        cases hrest
        exact ⟨(h.rest _ _ hphase).1, nofun⟩
      · cases hstep
  | exit =>
      simp only [Shutdown.step] at hstep
      split at hstep
      · rename_i hphase
        cases hstep
        have hstopping := h.stopping (by simp [hphase])
        exact ⟨h.nodup, h.places, nofun, hstopping.exit hphase⟩
      · cases hstep

/-- **The shutdown releases the leases** of all flows that were registered when the
signal came, in every run that takes care. -/
theorem shutdown_releases (ex : Executor ι) {s : State κ ι}
    (h : (app ex).ReachableBy (Careful ex) s) : Released ex s := by
  refine Inv.released (h.invariant ?_ fun _ _ _ h hok hstep => h.step hok hstep)
  rintro s ⟨flows, lease, hnodup, rfl⟩
  exact inv_start hnodup

end App

/-! ## A flow of the start, and one that was reloaded -/

/-- A flow registers, its lease task gets the lease and is renewing it, and the flow
ends. -/
def lead : List (Act Unit Unit) :=
  [.register 0, .manager 0 .take, .manager 0 .install, .manager 0 (.poll 0), .manager 0 (.begin 0),
    .manager 0 (.send 0), .manager 0 (.reply 0 Manager.vacant), .manager 0 (.send 0),
    .serve 1 0 { revision := 1 }, .manager 0 (.reply 0 Manager.vacant),
    .manager 0 (.settle 0 false false), .manager 0 (.handOff 0), .finish 0]

def pod : Executor Unit := ⟨(), {}, rfl⟩

def empty : Unit → LeaseKey Unit := fun _ => .empty

/-- The flow was there at the start, and no lease task does anything after the signal. -/
def plain (s : State Unit Unit) : Act Unit Unit → Bool
  | .signal =>
      s.registry.all fun m => s.taskManagers.contains m && s.flows[m]?.all (·.leaderElected)
  | .manager _ _ => s.stopped.isEmpty
  | .serve _ _ _ => s.stopped.isEmpty
  | _ => true

theorem careful_of_plain {s : State Unit Unit} {a : Act Unit Unit} (h : plain s a = true) :
    Careful pod s a := by
  have hstopped : s.stopped.isEmpty = true → ∀ m, m ∉ s.stopped := by
    intro hs m hm
    rw [List.isEmpty_iff.mp hs] at hm
    cases hm
  cases a with
  | signal =>
      intro m hm fl hfl
      obtain ⟨hcollected, helected⟩ := Bool.and_eq_true_iff.mp (List.all_eq_true.mp h m hm)
      rw [Option.mem_def.mp hfl] at helected
      exact Or.inl ⟨List.contains_iff_mem.mp hcollected, helected⟩
  | manager m a => exact fun hm => absurd hm (hstopped h m)
  | serve i now c => exact fun r hr m hm => absurd hm (hstopped h m)
  | _ => trivial

theorem started_releases_lease : ∃ s : State Unit Unit, (app pod).ReachableBy (Careful pod) s ∧
    s.stopped = [0] ∧ (s.lease ()).log.length = 2 ∧ Released pod s := by
  have hrun : ((app pod).exec (fun s a => plain s a = true) (.start [((), true)] empty)
      (lead ++ [Act.signal, .awaited, .shutdown, .release 0 { revision := 2 },
        .release 0 { revision := 2 }, .released, .exit])).any
      (fun s => s.stopped == [0] && (s.lease ()).log.length == 2) = true := by
    decide
  obtain ⟨s, hr, hs⟩ := Machine.exists_of_exec hrun
  obtain ⟨hstopped, hlog⟩ := Bool.and_eq_true_iff.mp hs
  have hreach : (app pod).ReachableBy (Careful pod) s :=
    ⟨_, _, ⟨_, _, by decide, rfl⟩, hr.mono fun _ _ h => careful_of_plain h⟩
  exact ⟨s, hreach, by simpa using hstopped, by simpa using hlog, shutdown_releases pod hreach⟩

/-- The flow is loaded by the reconciler: the shutdown does not know its task manager,
so that the lease still names the pod, and is renewed. -/
theorem reloaded_keeps_lease : ∃ s : State Unit Unit, (app pod).Reachable s ∧
    s.stopped = [0] ∧ holds pod (s.lease ()) = true ∧ ¬ Released pod s := by
  have hrun : ((app pod).exec (fun _ _ => True) (.start [] empty)
      (Act.insert () true :: lead ++ [Act.signal, .awaited, .exit])).any
      (fun s => s.stopped == [0] && holds pod (s.lease ()) && s.flows.length == 1 &&
        match s.phase with
        | .complete => true
        | _ => false) = true := by
    decide
  obtain ⟨s, hr, hs⟩ := Machine.exists_of_exec hrun
  simp only [Bool.and_eq_true, beq_iff_eq] at hs
  obtain ⟨⟨⟨hstopped, hholds⟩, hflows⟩, hphase⟩ := hs
  refine ⟨s, ⟨_, _, ⟨[], _, List.nodup_nil, rfl⟩, hr⟩, hstopped, hholds, ?_⟩
  intro hreleased
  rw [Released] at hreleased
  split at hreleased
  · have hfl : s.flows[0]? = some s.flows[0] := List.getElem?_eq_getElem (by omega)
    have hfree := (hreleased 0 (by simp [hstopped]) _ hfl).1
    cases hholds.symm.trans hfree
  · rename_i hcomplete
    split at hphase
    · rename_i h
      exact hcomplete h
    · cases hphase

end Flowgen.Lease.Shutdown
