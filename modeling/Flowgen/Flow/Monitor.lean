/-
# `Flowgen.Flow.Monitor` — tenures of a flow with leader election (`app/src/flow.rs`)

`monitor_tasks` waits for `Leader`, spawns the tasks of the flow, and watches
them until `NotLeader` arrives; then it aborts them and waits again.  The
messages come through a channel from the lease task of the flow, in any order
and at any time.

The first tenure spawns `parallel_instances` copies of the pipeline, every
later one spawns a single copy.  Right after `Leader` was received, further
`Leader` messages are drained, and the drain takes the message it stops at as
well: a `NotLeader` that has already arrived is lost.  `tenures_iff` says that
these two, and `parallel_instances: 0`, are all that can go wrong.

Aborted tasks are taken to stop at once, and tasks that complete on their own
end the monitor.
-/
import Flowgen.Lib.Machine
import Flowgen.Flow.Wiring

namespace Flowgen.Flow

open Flowgen.Lib

/-- What the monitor reads of a flow. -/
structure FlowConfig where
  tasks : List TaskType
  requireLeaderElection : Option Bool := none
  parallelInstances : Nat := 1

/-- Flows with blocking tasks are never leader elected. -/
def FlowConfig.isLeaderElected (config : FlowConfig) : Bool :=
  if config.tasks.any (·.isBlocking) then false else config.requireLeaderElection.getD false

/-- A flow with leader election. -/
structure ElectedFlow where
  config : FlowConfig
  elected : config.isLeaderElected = true

/-- A spawned task of some copy of the pipeline. -/
structure TaskHandle where
  copy : Nat
  task : Nat
deriving DecidableEq

structure TaskHandles where
  blockingHandles : List TaskHandle
  backgroundHandles : List TaskHandle

/-- Separates tasks into blocking (setup) and background tasks. -/
def TaskRegistry.partition (reg : TaskRegistry) : List TaskDescriptor × List TaskDescriptor :=
  reg.tasks.partition (·.isBlocking)

def spawnTask (copy : Nat) (task : TaskDescriptor) : TaskHandle := ⟨copy, task.id⟩

def spawnAllTasks (config : FlowConfig) : Except Error TaskHandles := do
  let registry ← build config.tasks
  let (blocking, background) := registry.partition
  return ⟨blocking.map (spawnTask 0), background.map (spawnTask 0)⟩

def spawnParallelInstances (config : FlowConfig) (count : Nat) : Except Error TaskHandles := do
  let instances ← (List.range count).mapM fun copy => do
    let registry ← build config.tasks
    return (copy, registry.partition)
  return ⟨instances.flatMap fun (copy, blocking, _) => blocking.map (spawnTask copy),
    instances.flatMap fun (copy, _, background) => background.map (spawnTask copy)⟩

/-- What is spawned for a tenure. -/
def spawnTenure (config : FlowConfig) (first : Bool) : Except Error TaskHandles :=
  if first then
    if config.parallelInstances ≤ 1 then spawnAllTasks config
    else spawnParallelInstances config config.parallelInstances
  else spawnAllTasks config

/-! ## Copies of the pipeline -/

/-- The background tasks of `count` copies of a pipeline. -/
def copies (reg : TaskRegistry) (count : Nat) : List TaskHandle :=
  (List.range count).flatMap fun copy => reg.partition.2.map (spawnTask copy)

variable {config : FlowConfig} {flow : ElectedFlow} {reg : TaskRegistry} {tasks : List TaskType}

theorem length_copies (reg : TaskRegistry) (count : Nat) :
    (copies reg count).length = count * reg.partition.2.length := by
  simp [copies, List.length_flatMap]

theorem copies_inj {m n : Nat} (hne : reg.partition.2 ≠ []) (h : copies reg m = copies reg n) :
    m = n := by
  have hlen := congrArg List.length h
  rw [length_copies, length_copies] at hlen
  exact Nat.eq_of_mul_eq_mul_right (List.length_pos_iff.mpr hne) hlen

/-- The tasks of a registry block where those of the flow do. -/
theorem build_isBlocking (hb : build tasks = .ok reg) (h : tasks.any (·.isBlocking) = false) :
    ∀ t ∈ reg.tasks, t.isBlocking = false := by
  have hfalse : ∀ t ∈ tasks, t.isBlocking = false := by simpa using h
  rw [build] at hb
  split at hb
  · cases hb
    nofun
  · split at hb
    · rw [buildDag] at hb
      split at hb
      · cases hb
      · rw [mapM_ok fun p _ => wireParent_eq p] at hb
        cases hb
        intro t ht
        obtain ⟨⟨⟨taskType, wire⟩, idx⟩, hmem, rfl⟩ := List.mem_map.mp ht
        exact hfalse taskType (List.of_mem_zip (List.fst_mem_of_mem_zipIdx hmem)).1
    · cases hb
      intro t ht
      obtain ⟨⟨taskType, idx⟩, hmem, rfl⟩ := List.mem_map.mp ht
      exact hfalse taskType (List.fst_mem_of_mem_zipIdx hmem)

/-- All tasks of a flow with leader election are background tasks. -/
theorem ElectedFlow.partition (hb : build flow.config.tasks = .ok reg) :
    reg.partition = ([], reg.tasks) := by
  have hany : flow.config.tasks.any (·.isBlocking) = false := by
    rw [← Bool.not_eq_true]
    intro h
    have := flow.elected
    simp [FlowConfig.isLeaderElected, h] at this
  have hfalse := build_isBlocking hb hany
  rw [TaskRegistry.partition, List.partition_eq_filter_filter, Prod.mk.injEq]
  refine ⟨List.filter_eq_nil_iff.mpr fun t ht => by simp [hfalse t ht], ?_⟩
  exact List.filter_eq_self.mpr fun t ht => by simp [hfalse t ht]

theorem spawnAllTasks_eq (hb : build config.tasks = .ok reg) :
    spawnAllTasks config =
      .ok ⟨reg.partition.1.map (spawnTask 0), reg.partition.2.map (spawnTask 0)⟩ := by
  simp [spawnAllTasks, hb, bind, Except.bind, pure, Except.pure]

theorem spawnParallelInstances_eq (hb : build config.tasks = .ok reg) (count : Nat) :
    spawnParallelInstances config count =
      .ok ⟨(List.range count).flatMap fun copy => reg.partition.1.map (spawnTask copy),
        (List.range count).flatMap fun copy => reg.partition.2.map (spawnTask copy)⟩ := by
  have hm : (List.range count).mapM (fun copy => do
      let registry ← build config.tasks
      return (copy, registry.partition)) =
      (Except.ok ((List.range count).map fun copy => (copy, reg.partition)) : Except Error _) :=
    mapM_ok fun copy _ => by rw [hb]; rfl
  rw [spawnParallelInstances, hm]
  simp [bind, Except.bind, pure, Except.pure, List.flatMap_map]

/-- The first tenure runs as many copies as are configured, but one at least; a later one runs one. -/
theorem spawnTenure_eq (hb : build flow.config.tasks = .ok reg) (first : Bool) :
    ∃ handles, spawnTenure flow.config first = .ok handles ∧
      handles.blockingHandles ++ handles.backgroundHandles =
        copies reg (if first then max 1 flow.config.parallelInstances else 1) := by
  have hnone : reg.partition.1 = [] := by rw [ElectedFlow.partition hb]
  have hone : ∃ handles, spawnAllTasks flow.config = .ok handles ∧
      handles.blockingHandles ++ handles.backgroundHandles = copies reg 1 :=
    ⟨_, spawnAllTasks_eq hb, by simp [hnone, copies]⟩
  cases first with
  | false => simpa [spawnTenure] using hone
  | true =>
      by_cases hle : flow.config.parallelInstances ≤ 1
      · simpa [spawnTenure, hle, Nat.max_eq_left hle] using hone
      · refine ⟨_, by simp only [spawnTenure, hle, if_true, if_false]; exact spawnParallelInstances_eq hb _, ?_⟩
        simp [hnone, copies, Nat.max_eq_right (Nat.le_of_not_le hle)]

theorem spawnTenure_error {e : Error} (hb : build config.tasks = .error e) (first : Bool) :
    spawnTenure config first = .error e := by
  have hall : spawnAllTasks config = .error e := by
    simp [spawnAllTasks, hb, bind, Except.bind]
  cases first with
  | false => simpa [spawnTenure] using hall
  | true =>
      by_cases hle : config.parallelInstances ≤ 1
      · simpa [spawnTenure, hle] using hall
      · obtain ⟨n, hn⟩ : ∃ n, config.parallelInstances = n + 1 := ⟨config.parallelInstances - 1, by omega⟩
        simp [spawnTenure, spawnParallelInstances, hn, List.range_succ_eq_map, hb, bind, Except.bind]
        intro _
        exact hall

namespace Monitor

inductive LeaderElectionResult
  | leader
  | notLeader
  | noElection
deriving DecidableEq

/-- Where `monitor_tasks` is. -/
inductive Phase
  | waiting
  | draining
  | spawning
  | monitoring
  | exited
deriving DecidableEq

structure State where
  queue : List LeaderElectionResult
  /-- Nobody can send any more. -/
  closed : Bool
  phase : Phase
  tasksSpawned : Bool
  backgroundTasks : List TaskHandle
  /-- How many tenures there have been. -/
  tenures : Nat
  /-- The last message that was taken from the channel. -/
  last : Option LeaderElectionResult
deriving DecidableEq

def State.initial : State where
  queue := []
  closed := false
  phase := .waiting
  tasksSpawned := false
  backgroundTasks := []
  tenures := 0
  last := none

inductive Act
  | send (status : LeaderElectionResult)
  | close
  | recv
  | tryRecv
  | spawn
  | complete
deriving DecidableEq

/-- A message taken by the loop that waits for leadership. -/
def State.await (s : State) : LeaderElectionResult → State
  | .leader =>
      if !s.tasksSpawned then { s with tasksSpawned := true, phase := .draining } else s
  | .notLeader => { s with tasksSpawned := false }
  | .noElection => { s with tasksSpawned := true, phase := .spawning }

/-- A message taken by the loop that watches the tasks. -/
def State.watch (s : State) : LeaderElectionResult → State
  | .notLeader => { s with backgroundTasks := [], tasksSpawned := false, phase := .waiting }
  | _ => s

/-- The tasks of a tenure, or an error, after which the monitor returns. -/
def State.begin (s : State) (spawned : Except Error TaskHandles) : State :=
  match spawned with
  | .error _ => { s with phase := .exited }
  | .ok handles =>
      let tasks := handles.blockingHandles ++ handles.backgroundHandles
      if s.tenures = 0 ∧ tasks = [] then { s with phase := .exited }
      else
        { s with backgroundTasks := tasks, tenures := s.tenures + 1, phase := .monitoring }

def step (flow : ElectedFlow) (s : State) : Act → Option State
  | .send status => if s.closed then none else some { s with queue := s.queue ++ [status] }
  | .close => some { s with closed := true }
  | .recv =>
      match s.phase, s.queue with
      | .waiting, status :: queue => some ({ s with queue := queue, last := some status }.await status)
      | .waiting, [] => if s.closed then some { s with phase := .exited } else none
      | .monitoring, status :: queue =>
          some ({ s with queue := queue, last := some status }.watch status)
      | _, _ => none
  | .tryRecv =>
      match s.phase, s.queue with
      | .draining, .leader :: queue => some { s with queue := queue, last := some .leader }
      -- the message the drain stops at is gone
      | .draining, status :: queue =>
          some { s with queue := queue, last := some status, phase := .spawning }
      | .draining, [] => some { s with phase := .spawning }
      | _, _ => none
  | .spawn =>
      if s.phase = .spawning then some (s.begin (spawnTenure flow.config (s.tenures = 0)))
      else none
  | .complete =>
      -- a message that has arrived is taken first
      if s.phase = .monitoring ∧ s.queue = [] then
        some { s with backgroundTasks := [], phase := .exited }
      else none

def monitor (flow : ElectedFlow) : Machine State Act where
  init s := s = .initial
  step := step flow

/-! ## Tenures -/

/-- The last message says to run. -/
def State.leads (s : State) : Bool := s.last.any (· ≠ .notLeader)

/-- While the monitor waits for messages, the configured copies of the
pipeline run if the flow leads, and nothing runs if it does not. -/
def Tenure (flow : ElectedFlow) (s : State) : Prop :=
  s.phase = .waiting ∨ s.phase = .monitoring →
    (s.leads = true → ∃ reg, build flow.config.tasks = .ok reg ∧
      s.backgroundTasks = copies reg flow.config.parallelInstances) ∧
    (s.leads = false → s.backgroundTasks = [])

/-- Tasks are spawned for a flow that still leads, and one copy is what is
configured, or this is the first tenure and something is. -/
def Configured (flow : ElectedFlow) (s : State) : Act → Prop
  | .spawn => ∀ reg, build flow.config.tasks = .ok reg → reg.tasks ≠ [] →
      s.leads = true ∧
        if s.tenures = 0 then 1 ≤ flow.config.parallelInstances
        else flow.config.parallelInstances = 1
  | _ => True

/-- What holds in each phase. -/
def State.Kept (flow : ElectedFlow) (s : State) : Prop :=
  match s.phase with
  | .waiting => s.backgroundTasks = [] ∧ s.leads = false ∧ s.tasksSpawned = false
  | .draining => s.backgroundTasks = []
  | .spawning => s.backgroundTasks = []
  | .monitoring => s.leads = true ∧ ∃ reg, build flow.config.tasks = .ok reg ∧
      s.backgroundTasks = copies reg flow.config.parallelInstances
  | .exited => True

/-- A flow with nothing to run has no tenure. -/
def State.Nonempty (flow : ElectedFlow) (s : State) : Prop :=
  s.tenures ≠ 0 → ∀ reg, build flow.config.tasks = .ok reg → reg.tasks ≠ []

variable {s t : State} {a : Act}

theorem State.Kept.tenure (h : s.Kept flow) : Tenure flow s := by
  intro hp
  rcases hp with hp | hp
  · simp only [State.Kept, hp] at h
    exact ⟨fun hl => by simp [h.2.1] at hl, fun _ => h.1⟩
  · simp only [State.Kept, hp] at h
    exact ⟨fun _ => h.2, fun hl => by simp [h.1] at hl⟩

/-- How many copies a tenure runs. -/
def State.copyCount (flow : ElectedFlow) (s : State) : Nat :=
  if s.tenures = 0 then max 1 flow.config.parallelInstances else 1

/-- A tenure runs one copy at least, so it runs nothing only where there is nothing. -/
theorem State.copies_eq_nil (hb : build flow.config.tasks = .ok reg) :
    copies reg (s.copyCount flow) = [] ↔ reg.tasks = [] := by
  have hpos : 1 ≤ s.copyCount flow := by
    rw [State.copyCount]
    split <;> omega
  rw [← List.length_eq_zero_iff, length_copies, ElectedFlow.partition hb, Nat.mul_eq_zero,
    List.length_eq_zero_iff]
  exact or_iff_right (Nat.ne_of_gt hpos)

/-- A tenure begins with its copies, unless there is nothing to run. -/
theorem State.begin_eq (h : s.Nonempty flow) :
    ((∀ reg, build flow.config.tasks = .ok reg → reg.tasks = []) ∧
      s.begin (spawnTenure flow.config (s.tenures = 0)) = { s with phase := .exited }) ∨
    ∃ reg, build flow.config.tasks = .ok reg ∧ reg.tasks ≠ [] ∧
      s.begin (spawnTenure flow.config (s.tenures = 0)) =
        { s with
          backgroundTasks := copies reg (s.copyCount flow)
          tenures := s.tenures + 1
          phase := .monitoring } := by
  cases hb : build flow.config.tasks with
  | error e =>
      rw [spawnTenure_error hb]
      exact Or.inl ⟨nofun, rfl⟩
  | ok reg =>
      obtain ⟨handles, hh, htasks⟩ := spawnTenure_eq hb (s.tenures = 0)
      replace htasks : handles.blockingHandles ++ handles.backgroundHandles =
          copies reg (s.copyCount flow) := by
        rw [htasks, State.copyCount]
        simp only [decide_eq_true_eq]
      rw [hh]
      simp only [State.begin, htasks, State.copies_eq_nil hb]
      by_cases hexit : s.tenures = 0 ∧ reg.tasks = []
      · refine Or.inl ⟨fun reg' hreg' => ?_, if_pos hexit⟩
        cases hreg'
        exact hexit.2
      · refine Or.inr ⟨reg, rfl, fun hnil => ?_, if_neg hexit⟩
        by_cases hfirst : s.tenures = 0
        · exact hexit ⟨hfirst, hnil⟩
        · exact h hfirst reg hb hnil

theorem State.Nonempty.step (h : s.Nonempty flow) (hs : Monitor.step flow s a = some t) :
    t.Nonempty flow := by
  cases a with
  | spawn =>
      simp only [Monitor.step] at hs
      split at hs <;> cases hs
      rcases State.begin_eq h with ⟨_, he⟩ | ⟨reg, hb, hne, he⟩
      · rw [he]
        exact h
      · intro _ reg' hb'
        cases hb.symm.trans hb'
        exact hne
  | send _ =>
      simp only [Monitor.step] at hs
      split at hs <;> cases hs
      exact h
  | close =>
      cases hs
      exact h
  | recv =>
      simp only [Monitor.step] at hs
      split at hs
      · rename_i status _ _ _
        cases hs
        cases status with
        | leader =>
            simp only [State.await]
            split <;> exact h
        | _ => exact h
      · split at hs <;> cases hs
        exact h
      · rename_i status _ _ _
        cases hs
        cases status <;> exact h
      · cases hs
  | tryRecv =>
      simp only [Monitor.step] at hs
      split at hs <;> cases hs <;> exact h
  | complete =>
      simp only [Monitor.step] at hs
      split at hs <;> cases hs
      exact h

theorem State.Kept.step (h : s.Kept flow) (hne : s.Nonempty flow) (hok : Configured flow s a)
    (hs : Monitor.step flow s a = some t) : t.Kept flow := by
  cases a with
  | send status =>
      simp only [Monitor.step] at hs
      split at hs <;> cases hs
      exact h
  | close =>
      cases hs
      exact h
  | recv =>
      simp only [Monitor.step] at hs
      split at hs
      · rename_i status queue hp _
        simp only [State.Kept, hp] at h
        cases hs
        cases status with
        | leader => simp [State.await, h.2.2, State.Kept, h.1]
        | notLeader => simp [State.await, State.Kept, h.1, State.leads, hp]
        | noElection => simp [State.await, State.Kept, h.1]
      · split at hs <;> cases hs
        trivial
      · rename_i status queue hp _
        simp only [State.Kept, hp] at h
        cases hs
        cases status with
        | leader => simp [State.watch, State.Kept, hp, State.leads, h.2]
        | notLeader => simp [State.watch, State.Kept, State.leads]
        | noElection => simp [State.watch, State.Kept, hp, State.leads, h.2]
      · cases hs
  | tryRecv =>
      simp only [Monitor.step] at hs
      split at hs
      iterate 3
        · rename_i hp _
          simp only [State.Kept, hp] at h
          cases hs
          simpa [State.Kept, hp] using h
      · cases hs
  | spawn =>
      simp only [Monitor.step] at hs
      split at hs <;> cases hs
      rcases State.begin_eq hne with ⟨_, he⟩ | ⟨reg, hb, hreg, he⟩
      · rw [he]
        trivial
      · obtain ⟨hl, hn⟩ := hok reg hb hreg
        have hcount : s.copyCount flow = flow.config.parallelInstances := by
          rw [State.copyCount]
          split <;> simp_all
        rw [he]
        exact ⟨hl, reg, hb, by rw [hcount]⟩
  | complete =>
      simp only [Monitor.step] at hs
      split at hs <;> cases hs
      trivial

/-- A tenure that begins otherwise shows at once. -/
theorem configured_of_tenure (hne : s.Nonempty flow) (hs : Monitor.step flow s a = some t)
    (ht : Tenure flow t) : Configured flow s a := by
  cases a with
  | spawn =>
      intro reg hb hreg
      simp only [Monitor.step] at hs
      split at hs <;> cases hs
      rcases State.begin_eq hne with ⟨hnone, _⟩ | ⟨reg', hb', _, he⟩
      · exact (hreg (hnone reg hb)).elim
      · cases hb.symm.trans hb'
        rw [he] at ht
        obtain ⟨hrun, hstop⟩ := ht (Or.inr rfl)
        have hl : s.leads = true := by
          rw [← Bool.not_eq_false]
          intro hl
          exact hreg ((State.copies_eq_nil hb).mp (hstop hl))
        obtain ⟨reg', hb', hcopies⟩ := hrun hl
        cases hb.symm.trans hb'
        have hcount := copies_inj (by rwa [ElectedFlow.partition hb]) hcopies
        refine ⟨hl, ?_⟩
        rw [State.copyCount] at hcount
        split at hcount
        · rename_i hfirst
          rw [if_pos hfirst]
          omega
        · rename_i hlater
          rw [if_neg hlater]
          exact hcount.symm
  | _ => trivial

/-- After every step of the monitor its tenure is as configured, exactly when
each tenure was begun so. -/
theorem tenures_iff {as : List Act} :
    (monitor flow).RunThrough (Tenure flow) .initial as s ↔
      (monitor flow).RunOf (Configured flow) .initial as s :=
  Machine.runThrough_iff (I := fun s => s.Kept flow ∧ s.Nonempty flow)
    ⟨⟨rfl, rfl, rfl⟩, fun h => (h rfl).elim⟩
    (fun _ _ _ hi hok hs =>
      have hk := hi.1.step hi.2 hok hs
      ⟨⟨hk, hi.2.step hs⟩, hk.tenure⟩)
    fun _ _ _ hi hs ht => configured_of_tenure hi.2 hs ht

/-- Two copies are configured; the second tenure runs one. -/
theorem second_tenure_single :
    let flow : ElectedFlow := ⟨⟨[{ name := "tail" }], some true, 2⟩, rfl⟩
    ∃ s, (monitor flow).Reachable s ∧ s.phase = .monitoring ∧ s.leads = true ∧ s.queue = [] ∧
      s.backgroundTasks = [⟨0, 0⟩] ∧ ¬ Tenure flow s := by
  intro flow
  have hrun : ((monitor flow).exec (fun _ _ => True) .initial
      [.send .leader, .recv, .tryRecv, .spawn, .send .notLeader, .recv,
        .send .leader, .recv, .tryRecv, .spawn]).any
      (fun s => s.phase == .monitoring && s.leads && s.queue == [] &&
        s.backgroundTasks == [⟨0, 0⟩]) = true := by
    decide
  obtain ⟨s, hr, hs⟩ := Machine.exists_of_exec hrun
  simp only [Bool.and_eq_true, beq_iff_eq] at hs
  obtain ⟨⟨⟨hp, hl⟩, hq⟩, hb⟩ := hs
  refine ⟨s, ⟨_, _, rfl, hr⟩, hp, hl, hq, hb, ?_⟩
  intro ht
  obtain ⟨reg, hreg, hcopies⟩ := (ht (Or.inr hp)).1 hl
  cases hreg
  rw [hb] at hcopies
  cases hcopies

/-- The lease is lost before the monitor has drained its queue: the message is
taken, and the tasks run on without the lease. -/
theorem notLeader_drained :
    let flow : ElectedFlow := ⟨⟨[{ name := "tail" }], some true, 1⟩, rfl⟩
    ∃ s, (monitor flow).Reachable s ∧ s.phase = .monitoring ∧ s.last = some .notLeader ∧
      s.queue = [] ∧ s.backgroundTasks = [⟨0, 0⟩] := by
  intro flow
  have hrun : ((monitor flow).exec (fun _ _ => True) .initial
      [.send .leader, .send .notLeader, .recv, .tryRecv, .spawn]).any
      (fun s => s.phase == .monitoring && s.last == some .notLeader && s.queue == [] &&
        s.backgroundTasks == [⟨0, 0⟩]) = true := by
    decide
  obtain ⟨s, hr, hs⟩ := Machine.exists_of_exec hrun
  simp only [Bool.and_eq_true, beq_iff_eq] at hs
  exact ⟨s, ⟨_, _, rfl, hr⟩, hs.1.1.1, hs.1.1.2, hs.1.2, hs.2⟩

end Monitor

end Flowgen.Flow
