/-
# `Flowgen.Flow.Wiring` — parents, channels and leaf counts of a flow (`app/src/flow.rs`)

A flow is a list of tasks.  `resolveParents` turns the `depends_on` entries
into parent indices and refuses the lists it cannot wire; `buildDag` gives
every task its channels and its `downstream_leaves`.  `build` picks between
this and the linear chain.

The Rust code uses hash maps for the children of a parent and for the
inbound channels.  Both are read by key only, so here they are functions of
the parent lists: `childrenPerParent` and `inboundTx`.  The order in which
the map of parents is walked does not matter, since each parent writes its
own slot.

At the end of the file the wiring is connected to `Lib.Dag`: an accepted
task list is in topological order, every task sends to exactly the children
the graph gives it, and the reverse pass computes the set of leaves below
each task.
-/
import Flowgen.Lib.Dag

namespace Flowgen.Flow

open Flowgen.Lib

/-- What the wiring reads of a task. -/
structure TaskType where
  name : String
  dependsOn : Option (List String) := none
  hasPipelineIo : Bool := true
  isBlocking : Bool := false
  handlesFailed : Bool := false
deriving DecidableEq

/-- Invalid task wiring in a flow. -/
inductive DagError
  | duplicateTask (name : String)
  | unknownDependency (task dependency : String)
  | laterDependency (task dependency : String)
deriving DecidableEq

inductive Error
  | dag (e : DagError)
  | configError (message : String)
deriving DecidableEq

/-! ## `resolve_parents` -/

/-- The first loop: names to indices, refusing a name used twice. -/
def indexNames : List TaskType → Nat → List (String × Nat) → Except DagError (List (String × Nat))
  | [], _, names => .ok names
  | t :: ts, idx, names =>
      match names.lookup t.name with
      | some _ => .error (.duplicateTask t.name)
      | none => indexNames ts (idx + 1) ((t.name, idx) :: names)

/-- The indices a `depends_on` list names, all of them before `idx`. -/
def resolveDeps (names : List (String × Nat)) (task : TaskType) (idx : Nat) :
    List String → Except DagError (List Nat)
  | [] => .ok []
  | dep :: deps =>
      match names.lookup dep with
      | none => .error (.unknownDependency task.name dep)
      | some parentIdx =>
          if parentIdx ≥ idx then .error (.laterDependency task.name dep)
          else (resolveDeps names task idx deps).map (parentIdx :: ·)

/-- The nearest task before `idx` that takes part in the pipeline. -/
def implicitParent (tasks : List TaskType) (idx : Nat) : Option Nat :=
  (List.range idx).reverse.find? fun i => tasks[i]?.any (·.hasPipelineIo)

/-- One turn of the second loop. -/
def parentsOf (tasks : List TaskType) (names : List (String × Nat)) (idx : Nat)
    (task : TaskType) : Except DagError (List Nat) :=
  match task.dependsOn with
  | some deps => resolveDeps names task idx deps
  | none =>
      if !task.hasPipelineIo then .ok []
      else
        match implicitParent tasks idx with
        | some i => .ok [i]
        | none => .ok []

/-- The second loop, from index `idx` on. -/
def parentIndices (tasks : List TaskType) (names : List (String × Nat)) :
    List TaskType → Nat → Except DagError (List (List Nat))
  | [], _ => .ok []
  | t :: ts, idx =>
      match parentsOf tasks names idx t with
      | .error e => .error e
      | .ok parents => (parentIndices tasks names ts (idx + 1)).map (parents :: ·)

def resolveParents (tasks : List TaskType) : Except DagError (List (List Nat)) :=
  match indexNames tasks 0 [] with
  | .error e => .error e
  | .ok names => parentIndices tasks names tasks 0

/-! ## `build_dag` -/

/-- A channel, named by the task or the dispatcher that receives from it. -/
inductive Channel
  | inbound (child : Nat)
  | dispatcher (parent : Nat)
deriving DecidableEq

/-- `children_per_parent`: each child once for every time it names the parent. -/
def childrenPerParent (parentIndices : List (List Nat)) (parent : Nat) : List Nat :=
  parentIndices.zipIdx.flatMap fun (parents, child) =>
    (parents.filter (· == parent)).map fun _ => child

/-- The inbound sender of a task: only tasks with a parent have one. -/
def inboundTx (parentIndices : List (List Nat)) (child : Nat) : Except Error Channel :=
  match parentIndices[child]? with
  | some (_ :: _) => .ok (.inbound child)
  | _ => .error (.configError
      s!"Internal error: missing inbound channel for task index {child}")

/-- The senders of a list of children, in order. -/
def childSenders (parentIndices : List (List Nat)) : List Nat → Except Error (List Channel)
  | [] => .ok []
  | c :: cs =>
      match inboundTx parentIndices c with
      | .error e => .error e
      | .ok tx => (childSenders parentIndices cs).map (tx :: ·)

/-- What a parent sends to, and the branches of the dispatcher spawned for it.
A single child is sent to directly. -/
def wireParent (parentIndices : List (List Nat)) (parent : Nat) :
    Except Error (Option Channel × List Channel) :=
  match childrenPerParent parentIndices parent with
  | [] => .ok (none, [])
  | [c] => (inboundTx parentIndices c).map fun tx => (some tx, [])
  | cs => (childSenders parentIndices cs).map fun txs => (some (.dispatcher parent), txs)

/-- One turn of the reverse pass. -/
def leavesFrom (parentIndices : List (List Nat)) (reachable : Nat → Finset Nat) (idx : Nat) :
    Finset Nat :=
  match childrenPerParent parentIndices idx with
  | [] => {idx}
  | children => children.foldl (fun set c => set ∪ reachable c) ∅

/-- The reverse pass over the indices below `idx`, from the last one down. -/
def reachableLeaves (parentIndices : List (List Nat)) :
    Nat → (Nat → Finset Nat) → Nat → Finset Nat
  | 0, reachable => reachable
  | idx + 1, reachable =>
      reachableLeaves parentIndices idx
        (Function.update reachable idx (leavesFrom parentIndices reachable idx))

/-- A task with its channel endpoints. -/
structure TaskDescriptor where
  id : Nat
  taskType : TaskType
  inputRx : Option Channel
  outputTx : Option Channel
  isBlocking : Bool
  downstreamLeaves : Nat
deriving DecidableEq

/-- All tasks of a flow, and the branches of each dispatcher. -/
structure TaskRegistry where
  tasks : List TaskDescriptor
  dispatchers : Nat → List Channel

def buildDag (tasks : List TaskType) : Except Error TaskRegistry :=
  match resolveParents tasks with
  | .error e => .error (.dag e)
  | .ok parents => do
      let wires ← (List.range tasks.length).mapM (wireParent parents)
      let leaves := reachableLeaves parents tasks.length fun _ => ∅
      .ok
        { tasks := (tasks.zip wires).zipIdx.map fun ((taskType, wire), idx) =>
            { id := idx
              taskType := taskType
              inputRx := (inboundTx parents idx).toOption
              outputTx := wire.1
              isBlocking := taskType.isBlocking
              downstreamLeaves := (leaves idx).card }
          dispatchers := fun p => ((wires[p]?).map Prod.snd).getD [] }

/-- `build_linear`: task N receives from task N-1, and every task sees one leaf. -/
def buildLinear (tasks : List TaskType) : TaskRegistry where
  tasks := tasks.zipIdx.map fun (taskType, idx) =>
    { id := idx
      taskType := taskType
      inputRx := if idx > 0 then some (.inbound idx) else none
      outputTx := if idx + 1 < tasks.length then some (.inbound (idx + 1)) else none
      isBlocking := taskType.isBlocking
      downstreamLeaves := 1 }
  dispatchers := fun _ => []

/-- `TaskRegistryBuilder::build`. -/
def build (tasks : List TaskType) : Except Error TaskRegistry :=
  if tasks.isEmpty then .ok { tasks := [], dispatchers := fun _ => [] }
  else if tasks.any (·.dependsOn.isSome) || tasks.any (!·.hasPipelineIo) then buildDag tasks
  else .ok (buildLinear tasks)

/-! ## An accepted list is in topological order -/

/-- Every parent comes before its child. -/
def Earlier (parentIndices : List (List Nat)) : Prop :=
  ∀ (idx : Nat) (parents : List Nat), parentIndices[idx]? = some parents → ∀ p ∈ parents, p < idx

theorem resolveDeps_lt {names : List (String × Nat)} {task : TaskType} {idx : Nat} :
    ∀ {deps : List String} {parents : List Nat}, resolveDeps names task idx deps = .ok parents →
      ∀ p ∈ parents, p < idx
  | [], parents, h, p, hp => by
      cases h
      exact absurd hp List.not_mem_nil
  | dep :: deps, parents, h, p, hp => by
      simp only [resolveDeps] at h
      split at h
      · cases h
      · rename_i parentIdx _
        split at h
        · cases h
        · rename_i hlt
          cases hr : resolveDeps names task idx deps with
          | error e =>
              rw [hr] at h
              cases h
          | ok rest =>
              rw [hr] at h
              cases h
              rcases List.mem_cons.mp hp with rfl | hp
              · exact Nat.lt_of_not_le hlt
              · exact resolveDeps_lt hr p hp

theorem implicitParent_lt {tasks : List TaskType} {idx i : Nat}
    (h : implicitParent tasks idx = some i) : i < idx := by
  have := List.mem_of_find?_eq_some h
  simpa using this

theorem parentsOf_lt {tasks : List TaskType} {names : List (String × Nat)} {idx : Nat}
    {task : TaskType} {parents : List Nat} (h : parentsOf tasks names idx task = .ok parents) :
    ∀ p ∈ parents, p < idx := by
  intro p hp
  simp only [parentsOf] at h
  split at h
  · exact resolveDeps_lt h p hp
  · split at h
    · cases h
      exact absurd hp List.not_mem_nil
    · split at h
      · rename_i i hi
        cases h
        rw [List.mem_singleton] at hp
        exact hp ▸ implicitParent_lt hi
      · cases h
        exact absurd hp List.not_mem_nil

theorem parentIndices_spec {tasks : List TaskType} {names : List (String × Nat)} :
    ∀ {ts : List TaskType} {idx : Nat} {out : List (List Nat)},
      parentIndices tasks names ts idx = .ok out →
      out.length = ts.length ∧
        ∀ k parents, out[k]? = some parents → ∀ p ∈ parents, p < idx + k
  | [], idx, out, h => by
      cases h
      exact ⟨rfl, fun k parents hk => by simp at hk⟩
  | t :: ts, idx, out, h => by
      simp only [parentIndices] at h
      split at h
      · cases h
      · rename_i first hfirst
        cases hr : parentIndices tasks names ts (idx + 1) with
        | error e =>
            rw [hr] at h
            cases h
        | ok rest =>
            rw [hr] at h
            cases h
            obtain ⟨hlen, hlt⟩ := parentIndices_spec hr
            refine ⟨by simp [hlen], ?_⟩
            intro k parents hk p hp
            cases k with
            | zero =>
                have : first = parents := by simpa using hk
                exact parentsOf_lt hfirst p (this ▸ hp)
            | succ k =>
                have := hlt k parents (by simpa using hk) p hp
                omega

theorem resolveParents_length {tasks : List TaskType} {parents : List (List Nat)}
    (h : resolveParents tasks = .ok parents) : parents.length = tasks.length := by
  simp only [resolveParents] at h
  split at h
  · cases h
  · exact (parentIndices_spec h).1

theorem resolveParents_earlier {tasks : List TaskType} {parents : List (List Nat)}
    (h : resolveParents tasks = .ok parents) : Earlier parents := by
  simp only [resolveParents] at h
  split at h
  · cases h
  · intro idx ps hps p hp
    have := (parentIndices_spec h).2 idx ps hps p hp
    omega

/-! ## The graph of the wiring -/

theorem mem_childrenPerParent {parents : List (List Nat)} {p c : Nat} :
    c ∈ childrenPerParent parents p ↔ ∃ ps, parents[c]? = some ps ∧ p ∈ ps := by
  simp only [childrenPerParent, List.mem_flatMap, Prod.exists, List.mem_map, List.mem_filter,
    beq_iff_eq, List.mem_zipIdx_iff_getElem?]
  constructor
  · rintro ⟨ps, i, hi, q, ⟨hq, rfl⟩, rfl⟩
    exact ⟨ps, hi, hq⟩
  · rintro ⟨ps, hps, hp⟩
    exact ⟨ps, c, hps, p, ⟨hp, rfl⟩, rfl⟩

/-- The graph whose edges are the wired channels. -/
def dagOf (parents : List (List Nat)) (h : Earlier parents) : Dag where
  size := parents.length
  children := childrenPerParent parents
  forward := fun hc => by
    obtain ⟨ps, hps, hp⟩ := mem_childrenPerParent.mp hc
    exact h _ ps hps _ hp
  bounded := fun hc => by
    obtain ⟨ps, hps, _⟩ := mem_childrenPerParent.mp hc
    exact (List.getElem?_eq_some_iff.mp hps).1

variable {parents : List (List Nat)}

/-- Where no task names more than one parent, the graph is a tree. -/
theorem dagOf_tree (h : Earlier parents) (hone : ∀ ps ∈ parents, ps.length ≤ 1) :
    (dagOf parents h).Tree where
  nodup i := by
    refine List.nodup_flatMap.mpr ⟨fun x hx => ?_, ?_⟩
    · have hlen := (List.length_filter_le (· == i) x.1).trans
        (hone x.1 (List.fst_mem_of_mem_zipIdx hx))
      refine List.nodup_iff_count_le_one.mpr fun c => List.count_le_length.trans ?_
      rw [List.length_map]
      exact hlen
    · have hn := (List.nodup_zipIdx_map_snd parents)
      rw [List.Nodup, List.pairwise_map] at hn
      refine hn.imp fun {x y} hxy c hcx hcy => hxy ?_
      obtain ⟨_, _, rfl⟩ := List.mem_map.mp hcx
      obtain ⟨_, _, he⟩ := List.mem_map.mp hcy
      exact he.symm
  unique := fun hi hj => by
    obtain ⟨ps, hps, hi⟩ := mem_childrenPerParent.mp hi
    obtain ⟨qs, hqs, hj⟩ := mem_childrenPerParent.mp hj
    obtain rfl : ps = qs := Option.some.inj (hps.symm.trans hqs)
    have := hone ps (List.mem_of_getElem? hps)
    match ps with
    | [p] => exact (List.mem_singleton.mp hi).trans (List.mem_singleton.mp hj).symm
    | _ :: _ :: _ => simp at this

theorem inboundTx_of_child {p c : Nat} (h : c ∈ childrenPerParent parents p) :
    inboundTx parents c = .ok (.inbound c) := by
  obtain ⟨ps, hps, hp⟩ := mem_childrenPerParent.mp h
  obtain ⟨q, qs, rfl⟩ := List.exists_cons_of_ne_nil (List.ne_nil_of_mem hp)
  simp [inboundTx, hps]

theorem childSenders_eq : ∀ {cs : List Nat}, (∀ c ∈ cs, inboundTx parents c = .ok (.inbound c)) →
    childSenders parents cs = .ok (cs.map Channel.inbound)
  | [], _ => rfl
  | c :: cs, h => by
      rw [childSenders, h c List.mem_cons_self,
        childSenders_eq fun c hc => h c (List.mem_cons_of_mem _ hc)]
      rfl

/-- What a task sends to, as the graph has it. -/
def outputOf (children : List Nat) (parent : Nat) : Option Channel :=
  match children with
  | [] => none
  | [c] => some (.inbound c)
  | _ => some (.dispatcher parent)

/-- The dispatcher's branches, as the graph has them. -/
def branchesOf (children : List Nat) : List Channel :=
  match children with
  | [] => []
  | [_] => []
  | cs => cs.map .inbound

/-- The internal error of the wiring loop is never met. -/
theorem wireParent_eq (p : Nat) : wireParent parents p =
    .ok (outputOf (childrenPerParent parents p) p, branchesOf (childrenPerParent parents p)) := by
  have h := @inboundTx_of_child parents p
  rw [wireParent]
  match hcs : childrenPerParent parents p with
  | [] => rfl
  | [c] =>
      rw [hcs] at h
      simp [h List.mem_cons_self, outputOf, branchesOf, Except.map]
  | c :: d :: cs =>
      rw [hcs] at h
      simp only [childSenders_eq fun _ hc => h hc, outputOf, branchesOf, Except.map]

theorem mapM_ok {α β ε : Type} {f : α → Except ε β} {g : α → β} :
    ∀ {l : List α}, (∀ a ∈ l, f a = .ok (g a)) → l.mapM f = .ok (l.map g)
  | [], _ => rfl
  | a :: l, h => by
      rw [List.mapM_cons, h a List.mem_cons_self,
        mapM_ok fun a ha => h a (List.mem_cons_of_mem _ ha)]
      rfl

/-- A registry with a property, found by wiring the tasks. -/
theorem exists_of_buildDag {tasks : List TaskType} {p : TaskRegistry → Bool}
    (h : (buildDag tasks).toOption.any p = true) : ∃ reg, buildDag tasks = .ok reg ∧ p reg = true := by
  cases hb : buildDag tasks with
  | error e =>
      rw [hb] at h
      cases h
  | ok reg =>
      rw [hb] at h
      exact ⟨reg, rfl, h⟩

/-! ## The reverse pass computes the leaf sets -/

theorem foldl_union (f : Nat → Finset Nat) : ∀ (cs : List Nat) (s : Finset Nat) (ℓ : Nat),
    ℓ ∈ cs.foldl (fun s c => s ∪ f c) s ↔ ℓ ∈ s ∨ ∃ c ∈ cs, ℓ ∈ f c
  | [], s, ℓ => by simp
  | c :: cs, s, ℓ => by
      rw [List.foldl_cons, foldl_union f cs]
      simp [or_assoc]

theorem leavesFrom_eq (h : Earlier parents) {reachable : Nat → Finset Nat} {idx : Nat}
    (hc : ∀ c ∈ childrenPerParent parents idx, reachable c = (dagOf parents h).leafSet c) :
    leavesFrom parents reachable idx = (dagOf parents h).leafSet idx := by
  rw [leavesFrom]
  split
  · rename_i hnil
    exact (Dag.leafSet_leaf hnil).symm
  · rename_i hne
    ext ℓ
    rw [foldl_union, Dag.leafSet_eq (fun hl => hne hl), Dag.mem_foldr_union]
    simp only [Finset.notMem_empty, false_or]
    exact ⟨fun ⟨c, hm, hℓ⟩ => ⟨c, hm, hc c hm ▸ hℓ⟩, fun ⟨c, hm, hℓ⟩ => ⟨c, hm, (hc c hm).symm ▸ hℓ⟩⟩

/-- If the entries from `n` on are right, the pass over the indices below `n`
makes all of them right. -/
theorem reachableLeaves_eq (h : Earlier parents) : ∀ (n : Nat) (reachable : Nat → Finset Nat),
    (∀ i, n ≤ i → i < parents.length → reachable i = (dagOf parents h).leafSet i) →
    ∀ i, i < parents.length → reachableLeaves parents n reachable i = (dagOf parents h).leafSet i
  | 0, _, hr, i, hi => hr i (Nat.zero_le i) hi
  | n + 1, reachable, hr, i, hi => by
      refine reachableLeaves_eq h n _ (fun j hj hlt => ?_) i hi
      rcases Nat.eq_or_lt_of_le hj with rfl | hlt'
      · rw [Function.update_self]
        refine leavesFrom_eq h fun c hc => hr c ?_ ?_
        · exact (dagOf parents h).forward hc
        · exact (dagOf parents h).bounded hc
      · rw [Function.update_of_ne (Nat.ne_of_gt hlt')]
        exact hr j hlt' hlt

/-! ## What an accepted list is wired to -/

/-- The output channel of task `i`. -/
def TaskRegistry.outputTx (reg : TaskRegistry) (i : Nat) : Option Channel :=
  reg.tasks[i]?.bind (·.outputTx)

/-- `downstream_leaves` of task `i`, which its context has as `leaf_count`. -/
def TaskRegistry.leafCount (reg : TaskRegistry) (i : Nat) : Nat :=
  (reg.tasks[i]?.map (·.downstreamLeaves)).getD 0

/-- Whether task `i` handles events whose upstream task failed. -/
def TaskRegistry.handlesFailed (reg : TaskRegistry) (i : Nat) : Bool :=
  reg.tasks[i]?.any (·.taskType.handlesFailed)

/-- `reg` is the wiring of the graph `G`. -/
structure Wired (reg : TaskRegistry) (G : Dag) : Prop where
  length : reg.tasks.length = G.size
  outputTx : ∀ i, reg.outputTx i = outputOf (G.children i) i
  branches : ∀ i, reg.dispatchers i = branchesOf (G.children i)
  leafCount : ∀ i, i < G.size → reg.leafCount i = (G.leafSet i).card

/-- The graph of an accepted task list. -/
def flowDag {tasks : List TaskType} {parents : List (List Nat)}
    (h : resolveParents tasks = .ok parents) : Dag :=
  dagOf parents (resolveParents_earlier h)

/-- `build_dag` refuses only what `resolve_parents` refuses, and wires the
rest to the graph of the parent indices. -/
theorem buildDag_wired {tasks : List TaskType} {parents : List (List Nat)} {reg : TaskRegistry}
    (hp : resolveParents tasks = .ok parents) (h : buildDag tasks = .ok reg) :
    Wired reg (flowDag hp) := by
  have he := resolveParents_earlier hp
  have hlen := resolveParents_length hp
  rw [buildDag] at h
  rw [hp] at h
  dsimp only at h
  rw [mapM_ok fun p _ => wireParent_eq p] at h
  cases h
  have hl : ∀ i, i < parents.length →
      reachableLeaves parents tasks.length (fun _ => ∅) i = (dagOf parents he).leafSet i :=
    reachableLeaves_eq he _ _ fun i h₁ h₂ => by omega
  have hnone : ∀ i, ¬ i < tasks.length → childrenPerParent parents i = [] := by
    intro i hi
    refine List.eq_nil_iff_forall_not_mem.mpr fun c hc => hi ?_
    have := (dagOf parents he).forward hc
    have : c < parents.length := (dagOf parents he).bounded hc
    omega
  refine ⟨by simp [flowDag, dagOf, hlen], ?_, ?_, ?_⟩
  · intro i
    by_cases hi : i < tasks.length
    · simp [TaskRegistry.outputTx, flowDag, dagOf, hi]
    · simp [TaskRegistry.outputTx, flowDag, dagOf, hi, hnone i hi, outputOf]
  · intro i
    by_cases hi : i < tasks.length
    · simp [flowDag, dagOf, hi]
    · simp [flowDag, dagOf, hi, hnone i hi, branchesOf]
  · intro i hi
    have hit : i < tasks.length := hlen ▸ hi
    simp [TaskRegistry.leafCount, flowDag, hit, hl i hi]

theorem buildDag_ok_iff (tasks : List TaskType) :
    (∃ reg, buildDag tasks = .ok reg) ↔ ∃ parents, resolveParents tasks = .ok parents := by
  constructor
  · rintro ⟨reg, h⟩
    rw [buildDag] at h
    cases hp : resolveParents tasks with
    | error e =>
        rw [hp] at h
        cases h
    | ok parents => exact ⟨parents, rfl⟩
  · rintro ⟨parents, hp⟩
    rw [buildDag]
    rw [hp]
    dsimp only
    rw [mapM_ok fun p _ => wireParent_eq p]
    exact ⟨_, rfl⟩

/-! ## The leaf counts in terms of the parents -/

/-- Task `p` is a parent of task `c`. -/
def ParentOf (parents : List (List Nat)) (p c : Nat) : Prop :=
  ∃ ps, parents[c]? = some ps ∧ p ∈ ps

/-- `ℓ` is `i` or comes after it on some path, and no task comes after `ℓ`. -/
def LeafBelow (parents : List (List Nat)) (i ℓ : Nat) : Prop :=
  Relation.ReflTransGen (ParentOf parents) i ℓ ∧ ∀ c, ¬ ParentOf parents ℓ c

theorem leafBelow_iff (h : Earlier parents) {i ℓ : Nat} :
    LeafBelow parents i ℓ ↔ ℓ ∈ (dagOf parents h).leafSet i := by
  have hedges : ∀ p c, ParentOf parents p c ↔ c ∈ (dagOf parents h).children p :=
    fun p c => mem_childrenPerParent.symm
  have hreaches : Relation.ReflTransGen (ParentOf parents) i ℓ ↔ (dagOf parents h).Reaches i ℓ := by
    rw [Dag.Reaches, show ParentOf parents = fun p c => c ∈ (dagOf parents h).children p from
      funext fun p => funext fun c => propext (hedges p c)]
  have hleaf : (∀ c, ¬ ParentOf parents ℓ c) ↔ (dagOf parents h).Leaf ℓ := by
    rw [Dag.Leaf, List.eq_nil_iff_forall_not_mem]
    exact forall_congr' fun c => not_congr (hedges ℓ c)
  rw [LeafBelow, Dag.mem_leafSet, hreaches, hleaf, and_comm]

/-- In a list of tasks that is accepted, every task counts the distinct leaves that
can be reached from it. -/
theorem downstreamLeaves_eq_ncard {tasks : List TaskType} {reg : TaskRegistry}
    (h : buildDag tasks = .ok reg) :
    ∃ parents, resolveParents tasks = .ok parents ∧ reg.tasks.length = tasks.length ∧
      ∀ i task, reg.tasks[i]? = some task →
        task.downstreamLeaves = {ℓ | LeafBelow parents i ℓ}.ncard := by
  obtain ⟨parents, hp⟩ := (buildDag_ok_iff tasks).mp ⟨reg, h⟩
  have hw := buildDag_wired hp h
  have hsize : (flowDag hp).size = tasks.length := resolveParents_length hp
  refine ⟨parents, hp, hw.length.trans hsize, fun i task htask => ?_⟩
  have hi : i < (flowDag hp).size := hw.length ▸ (List.getElem?_eq_some_iff.mp htask).1
  have hcount : reg.leafCount i = task.downstreamLeaves := by
    rw [TaskRegistry.leafCount, htask]
    rfl
  have hset : {ℓ | LeafBelow parents i ℓ} = ((flowDag hp).leafSet i : Set Nat) :=
    Set.ext fun ℓ => leafBelow_iff (resolveParents_earlier hp)
  rw [hset, Set.ncard_coe_finset, ← hcount, hw.leafCount i hi]

/-- Two branches that meet again lead to one leaf. -/
theorem downstreamLeaves_eq_ncard_diamond :
    let diamond : List TaskType :=
      [{ name := "read" }, { name := "left", dependsOn := some ["read"] },
        { name := "right", dependsOn := some ["read"] },
        { name := "write", dependsOn := some ["left", "right"] }]
    ∃ reg parents, buildDag diamond = .ok reg ∧ resolveParents diamond = .ok parents ∧
      (reg.tasks[0]?.map (·.downstreamLeaves)) = some 1 ∧
      ∀ i task, reg.tasks[i]? = some task →
        task.downstreamLeaves = {ℓ | LeafBelow parents i ℓ}.ncard := by
  intro diamond
  obtain ⟨reg, hreg, hone⟩ := exists_of_buildDag
    (p := fun reg => reg.tasks[0]?.map (·.downstreamLeaves) == some 1)
    (show (buildDag diamond).toOption.any _ = true by decide)
  obtain ⟨parents, hp, -, hcounts⟩ := downstreamLeaves_eq_ncard hreg
  exact ⟨reg, parents, hreg, hp, eq_of_beq hone, hcounts⟩

end Flowgen.Flow
