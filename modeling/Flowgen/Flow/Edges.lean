/-
# `Flowgen.Flow.Edges` — the edges a registry wires, against `resolve_parents`

`validate_flow` reports what `resolve_parents` refuses; what a flow really
runs on is built by `TaskRegistryBuilder::build`, which takes one of two
paths.  The path for graphs starts with `resolve_parents`, so it refuses what
the validator refuses.  The linear chain does not look at the names at all.

The edges of a registry are read off its channels: `targets` are the inbound
channels an event sent by a task gets to, through the dispatcher if there is
one.  `Agrees` compares both paths with the parents, and

    build agrees with resolve_parents ↔ the path for graphs is taken, or no name is used twice

holds for every list of tasks.  Where both paths can be taken they build the
same registry (`buildDag_chain`).
-/
import Flowgen.Flow.Wiring

namespace Flowgen.Flow

open Flowgen.Lib

/-! ## What the name table says -/

/-- `k` steps after `idx` stands a task of this name. -/
theorem indexNames_lookup : ∀ {ts : List TaskType} {idx : Nat} {names out : List (String × Nat)},
    indexNames ts idx names = .ok out → ∀ (name : String) (i : Nat), out.lookup name = some i ↔
      names.lookup name = some i ∨ ∃ k t, ts[k]? = some t ∧ t.name = name ∧ i = idx + k
  | [], idx, names, out, h, name, i => by
      cases h
      simp
  | t :: ts, idx, names, out, h, name, i => by
      simp only [indexNames] at h
      split at h
      · cases h
      · rename_i hfresh
        rw [indexNames_lookup h name i, List.lookup_cons]
        by_cases hname : name = t.name
        · subst hname
          rw [beq_self_eq_true, hfresh]
          constructor
          · rintro (h0 | ⟨k, u, hu, hk, rfl⟩)
            · exact .inr ⟨0, t, rfl, rfl, (Option.some.inj h0).symm⟩
            · exact .inr ⟨k + 1, u, hu, hk, by omega⟩
          · rintro (h0 | ⟨k, u, hu, hk, rfl⟩)
            · cases h0
            · cases k with
              | zero => exact .inl rfl
              | succ k => exact .inr ⟨k, u, hu, hk, by omega⟩
        · rw [beq_false_of_ne hname]
          constructor
          · rintro (h0 | ⟨k, u, hu, hk, rfl⟩)
            · exact .inl h0
            · exact .inr ⟨k + 1, u, hu, hk, by omega⟩
          · rintro (h0 | ⟨k, u, hu, hk, rfl⟩)
            · exact .inl h0
            · cases k with
              | zero =>
                  obtain rfl : t = u := Option.some.inj hu
                  exact absurd hk.symm hname
              | succ k => exact .inr ⟨k, u, hu, hk, by omega⟩

/-- The first loop refuses a list exactly if a name comes up twice. -/
theorem indexNames_ok_iff : ∀ {ts : List TaskType} {idx : Nat} {names : List (String × Nat)},
    (∃ out, indexNames ts idx names = .ok out) ↔
      (ts.map (·.name)).Nodup ∧ ∀ t ∈ ts, names.lookup t.name = none
  | [], idx, names => by simp [indexNames]
  | t :: ts, idx, names => by
      rw [List.map_cons, List.nodup_cons]
      constructor
      · rintro ⟨out, h⟩
        simp only [indexNames] at h
        split at h
        · cases h
        · rename_i hfresh
          obtain ⟨hnodup, hrest⟩ := indexNames_ok_iff.mp ⟨out, h⟩
          have hne : ∀ u ∈ ts, u.name ≠ t.name ∧ names.lookup u.name = none := by
            intro u hu
            have := hrest u hu
            rw [List.lookup_cons] at this
            split at this
            · cases this
            · rename_i hname
              exact ⟨by simpa using hname, this⟩
          refine ⟨⟨?_, hnodup⟩, ?_⟩
          · intro hmem
            obtain ⟨u, hu, hname⟩ := List.mem_map.mp hmem
            exact (hne u hu).1 hname
          · intro u hu
            rcases List.mem_cons.mp hu with rfl | hu
            · exact hfresh
            · exact (hne u hu).2
      · rintro ⟨⟨hmem, hnodup⟩, hfresh⟩
        simp only [indexNames, hfresh t List.mem_cons_self]
        refine indexNames_ok_iff.mpr ⟨hnodup, ?_⟩
        intro u hu
        have hname : u.name ≠ t.name := fun h => hmem (h ▸ List.mem_map_of_mem hu)
        rw [List.lookup_cons, beq_false_of_ne hname]
        exact hfresh u (List.mem_cons_of_mem _ hu)

/-- The parents of each task, as one turn of the second loop finds them. -/
theorem parentIndices_iff {tasks : List TaskType} {names : List (String × Nat)}
    {ts : List TaskType} {idx : Nat} {out : List (List Nat)} :
    parentIndices tasks names ts idx = .ok out ↔ out.length = ts.length ∧
      ∀ k t ps, ts[k]? = some t → out[k]? = some ps → parentsOf tasks names (idx + k) t = .ok ps := by
  induction ts generalizing idx out with
  | nil =>
      simp only [parentIndices, Except.ok.injEq, List.length_nil, List.length_eq_zero_iff]
      exact ⟨fun h => ⟨h.symm, fun k t ps hk => by simp at hk⟩, fun h => h.1.symm⟩
  | cons t ts ih =>
      simp only [parentIndices]
      constructor
      · intro h
        split at h
        · cases h
        · rename_i first hfirst
          cases hr : parentIndices tasks names ts (idx + 1) with
          | error e =>
              rw [hr] at h
              cases h
          | ok rest =>
              rw [hr] at h
              cases h
              obtain ⟨hlen, hrest⟩ := ih.mp hr
              refine ⟨by simp [hlen], ?_⟩
              intro k u ps hu hps
              cases k with
              | zero =>
                  cases hu
                  cases hps
                  exact hfirst
              | succ k =>
                  rw [← Nat.succ_add_eq_add_succ]
                  exact hrest k u ps hu hps
      · rintro ⟨hlen, hall⟩
        cases out with
        | nil => cases hlen
        | cons first rest =>
            have hfirst : parentsOf tasks names idx t = .ok first := hall 0 t first rfl rfl
            rw [hfirst]
            have hr : parentIndices tasks names ts (idx + 1) = .ok rest := by
              refine ih.mpr ⟨by simpa using hlen, ?_⟩
              intro k u ps hu hps
              rw [Nat.succ_add_eq_add_succ]
              exact hall (k + 1) u ps hu hps
            simp [hr, Except.map]

theorem resolveParents_iff {tasks : List TaskType} {parents : List (List Nat)} :
    resolveParents tasks = .ok parents ↔ ∃ names, indexNames tasks 0 [] = .ok names ∧
      parents.length = tasks.length ∧ ∀ k t ps, tasks[k]? = some t → parents[k]? = some ps →
        parentsOf tasks names k t = .ok ps := by
  rw [resolveParents]
  cases h : indexNames tasks 0 [] with
  | error e => simp
  | ok names => simp [parentIndices_iff]

/-! ## The linear chain -/

/-- No task says what it depends on, and all of them take part in the pipeline:
what `build` leaves to the linear path. -/
def Linear (tasks : List TaskType) : Prop :=
  ∀ t ∈ tasks, t.dependsOn = none ∧ t.hasPipelineIo = true

instance (tasks : List TaskType) : Decidable (Linear tasks) :=
  inferInstanceAs (Decidable (∀ t ∈ tasks, t.dependsOn = none ∧ t.hasPipelineIo = true))

/-- The parents in a chain: the task before. -/
def before : Nat → List Nat
  | 0 => []
  | k + 1 => [k]

variable {tasks : List TaskType} {parents : List (List Nat)} {reg : TaskRegistry}

theorem implicitParent_linear (h : Linear tasks) {k : Nat} (hk : k < tasks.length) :
    implicitParent tasks (k + 1) = some k := by
  have hio : tasks[k].hasPipelineIo = true := (h _ (List.getElem_mem hk)).2
  rw [implicitParent, List.range_succ, List.reverse_append]
  simp [hk, hio]

theorem parentsOf_linear (h : Linear tasks) {names : List (String × Nat)} {k : Nat}
    {t : TaskType} (ht : tasks[k]? = some t) : parentsOf tasks names k t = .ok (before k) := by
  obtain ⟨hdeps, hio⟩ := h t (List.mem_of_getElem? ht)
  have hk : k < tasks.length := (List.getElem?_eq_some_iff.mp ht).1
  simp only [parentsOf, hdeps, hio, Bool.not_true, Bool.false_eq_true, if_false]
  cases k with
  | zero => rfl
  | succ k => rw [implicitParent_linear h (Nat.lt_of_succ_lt hk), before]

/-- On a list for the linear path, `resolve_parents` refuses a name used twice and
nothing else. -/
theorem resolveParents_linear (h : Linear tasks) :
    resolveParents tasks = .ok parents ↔
      (tasks.map (·.name)).Nodup ∧ parents = (List.range tasks.length).map before := by
  rw [resolveParents_iff]
  constructor
  · rintro ⟨names, hnames, hlen, hall⟩
    refine ⟨(indexNames_ok_iff.mp ⟨names, hnames⟩).1, ?_⟩
    refine List.ext_getElem (by simp [hlen]) ?_
    intro k hk _
    have hkt : k < tasks.length := hlen ▸ hk
    have hps := hall k _ _ (List.getElem?_eq_getElem hkt) (List.getElem?_eq_getElem hk)
    rw [parentsOf_linear h (List.getElem?_eq_getElem hkt)] at hps
    simp only [List.getElem_map, List.getElem_range]
    exact (Except.ok.inj hps).symm
  · rintro ⟨hnodup, rfl⟩
    obtain ⟨names, hnames⟩ := indexNames_ok_iff.mpr ⟨hnodup, fun t _ => List.lookup_nil⟩
    refine ⟨names, hnames, by simp, ?_⟩
    intro k t ps ht hps
    rw [parentsOf_linear h ht]
    have hk : k < tasks.length := (List.getElem?_eq_some_iff.mp ht).1
    simp [hk] at hps
    rw [hps]

/-- The graph of a chain of `n` tasks. -/
def chain (n : Nat) : Dag where
  size := n
  children i := if i + 1 < n then [i + 1] else []
  forward := fun {i c} h => by
    split at h
    · rw [List.mem_singleton.mp h]
      exact Nat.lt_succ_self i
    · exact absurd h List.not_mem_nil
  bounded := fun {i c} h => by
    split at h
    · rw [List.mem_singleton.mp h]
      assumption
    · exact absurd h List.not_mem_nil

theorem children_chain (n i : Nat) :
    (chain n).children i = if i + 1 < n then [i + 1] else [] := rfl

/-- The last task is the one leaf of a chain. -/
theorem leafSet_chain {n : Nat} : ∀ i, i < n → (chain n).leafSet i = {n - 1} := by
  refine (chain n).bottomUp ?_
  intro i ih hi
  by_cases hnext : i + 1 < n
  · have hc : (chain n).children i = [i + 1] := by rw [children_chain, if_pos hnext]
    ext ℓ
    rw [Dag.leafSet_eq (by simp [hc]), Dag.mem_foldr_union, hc]
    simp [ih (i + 1) (hc ▸ List.mem_singleton_self _) hnext]
  · have hlast : i = n - 1 := by omega
    rw [Dag.leafSet_leaf (by rw [Dag.Leaf, children_chain, if_neg hnext]), hlast]

theorem buildLinear_wired : Wired (buildLinear tasks) (chain tasks.length) where
  length := by simp [buildLinear, chain]
  outputTx i := by
    rw [children_chain]
    by_cases hi : i < tasks.length
    · by_cases hnext : i + 1 < tasks.length
      · simp [TaskRegistry.outputTx, buildLinear, hi, hnext, outputOf]
      · simp [TaskRegistry.outputTx, buildLinear, hi, hnext, outputOf]
    · have hnext : ¬ i + 1 < tasks.length := by omega
      simp [TaskRegistry.outputTx, buildLinear, hi, hnext, outputOf]
  branches i := by
    rw [children_chain]
    split
    · rfl
    · rfl
  leafCount i hi := by
    have hit : i < tasks.length := hi
    rw [leafSet_chain i hit]
    simp [TaskRegistry.leafCount, buildLinear, hit]

/-- What `build` does with a list: the linear path for linear lists. -/
theorem build_eq (tasks : List TaskType) :
    build tasks = if Linear tasks then .ok (buildLinear tasks) else buildDag tasks := by
  have hneeds : (tasks.any (·.dependsOn.isSome) || tasks.any (!·.hasPipelineIo)) = true ↔
      ¬ Linear tasks := by
    simp only [Bool.or_eq_true, List.any_eq_true, Option.isSome_iff_ne_none, ne_eq, Linear,
      Bool.not_eq_true', not_forall, exists_prop, Classical.not_and_iff_not_or_not,
      Bool.not_eq_true]
    constructor
    · rintro (⟨t, ht, h⟩ | ⟨t, ht, h⟩)
      · exact ⟨t, ht, .inl h⟩
      · exact ⟨t, ht, .inr h⟩
    · rintro ⟨t, ht, h | h⟩
      · exact .inl ⟨t, ht, h⟩
      · exact .inr ⟨t, ht, h⟩
  rw [build]
  split
  · rename_i hempty
    obtain rfl := List.isEmpty_iff.mp hempty
    rfl
  · by_cases hlin : Linear tasks
    · rw [if_neg (fun h => hneeds.mp h hlin), if_pos hlin]
    · rw [if_pos (hneeds.mpr hlin), if_neg hlin]

/-! ## The edges of a registry -/

/-- The input channel of task `i`. -/
def TaskRegistry.inputRx (reg : TaskRegistry) (i : Nat) : Option Channel :=
  reg.tasks[i]?.bind (·.inputRx)

/-- The channels an event sent by task `i` is put into in the end: the branches of the
dispatcher, where the task sends to one. -/
def TaskRegistry.targets (reg : TaskRegistry) (i : Nat) : List Channel :=
  match reg.outputTx i with
  | none => []
  | some (.inbound child) => [.inbound child]
  | some (.dispatcher parent) => reg.dispatchers parent

/-- How often task `c` lists `p` among its parents. -/
def timesListed (parents : List (List Nat)) (c p : Nat) : Nat :=
  ((parents[c]?).getD []).count p

theorem count_childrenPerParent (parents : List (List Nat)) (p c : Nat) :
    (childrenPerParent parents p).count c = timesListed parents c p := by
  have hgen : ∀ (ps : List (List Nat)) (n : Nat),
      ((ps.zipIdx n).flatMap fun q => (q.1.filter (· == p)).map fun _ => q.2).count c =
        if n ≤ c then ((ps[c - n]?).getD []).count p else 0 := by
    intro ps
    induction ps with
    | nil => simp
    | cons qs ps ih =>
        intro n
        rw [List.zipIdx_cons, List.flatMap_cons, List.count_append, ih]
        simp only [List.map_const', List.count_replicate]
        rcases Nat.lt_trichotomy n c with hlt | rfl | hgt
        · have hd : c - n = (c - (n + 1)) + 1 := by omega
          have hne : (n == c) = false := beq_false_of_ne hlt.ne
          rw [hne, if_neg Bool.false_ne_true, Nat.zero_add,
            if_pos (Nat.succ_le_of_lt hlt), if_pos hlt.le, hd, List.getElem?_cons_succ]
        · simp [List.count_eq_length_filter]
        · have hle : ¬ n + 1 ≤ c := by omega
          have hle' : ¬ n ≤ c := by omega
          have hne : ¬ n = c := by omega
          simp [hle, hle', hne]
  simpa [childrenPerParent, timesListed] using hgen parents 0

theorem targets_of_wired {G : Dag} (h : Wired reg G) (i : Nat) :
    reg.targets i = (G.children i).map .inbound := by
  rw [TaskRegistry.targets, h.outputTx]
  match hc : G.children i with
  | [] => rfl
  | [c] => rfl
  | c :: d :: cs =>
      have hbranches := h.branches i
      rw [hc] at hbranches
      exact hbranches

/-- The registry has the edges of the parent lists, each as often as it is listed, an
inbound channel for every task with a parent, and the leaf counts of the graph. -/
structure Wires (reg : TaskRegistry) (parents : List (List Nat)) (h : Earlier parents) : Prop where
  length : reg.tasks.length = parents.length
  edges : ∀ p c, (reg.targets p).count (.inbound c) = timesListed parents c p
  inbound : ∀ p, ∀ ch ∈ reg.targets p, ∃ c, ch = .inbound c
  inputRx : ∀ c, reg.inputRx c = if (parents[c]?).getD [] = [] then none else some (.inbound c)
  leaves : ∀ i, i < parents.length → reg.leafCount i = ((dagOf parents h).leafSet i).card

theorem wires_of_wired (h : Earlier parents) (hw : Wired reg (dagOf parents h))
    (hinput : ∀ c, reg.inputRx c = if (parents[c]?).getD [] = [] then none else some (.inbound c)) :
    Wires reg parents h where
  length := hw.length
  edges p c := by
    have hinj : Function.Injective Channel.inbound := fun a b hab => by
      cases hab
      rfl
    rw [targets_of_wired hw, List.count_map_of_injective _ _ hinj]
    exact count_childrenPerParent parents p c
  inbound p ch hch := by
    rw [targets_of_wired hw] at hch
    obtain ⟨c, _, rfl⟩ := List.mem_map.mp hch
    exact ⟨c, rfl⟩
  inputRx := hinput
  leaves := hw.leafCount

/-- The path for graphs wires the parents it has found. -/
theorem buildDag_wires (hp : resolveParents tasks = .ok parents) (h : buildDag tasks = .ok reg) :
    Wires reg parents (resolveParents_earlier hp) := by
  refine wires_of_wired _ (buildDag_wired hp h) ?_
  intro c
  have hlen := resolveParents_length hp
  rw [buildDag, hp] at h
  dsimp only at h
  rw [mapM_ok fun p _ => wireParent_eq p] at h
  cases h
  by_cases hc : c < tasks.length
  · have hcp : c < parents.length := hlen.symm ▸ hc
    cases hps : parents[c] with
    | nil => simp [TaskRegistry.inputRx, hc, hcp, hps, inboundTx, Except.toOption]
    | cons p ps => simp [TaskRegistry.inputRx, hc, hcp, hps, inboundTx, Except.toOption]
  · have hcp : ¬ c < parents.length := hlen.symm ▸ hc
    simp [TaskRegistry.inputRx, hc, hcp]

/-- The parents of a linear list give the graph of the chain. -/
theorem dagOf_before (n : Nat) (h : Earlier ((List.range n).map before)) :
    dagOf ((List.range n).map before) h = chain n := by
  have hchildren : childrenPerParent ((List.range n).map before) = (chain n).children := by
    funext p
    have hcount : ∀ c, (childrenPerParent ((List.range n).map before) p).count c =
        if c = p + 1 ∧ p + 1 < n then 1 else 0 := by
      intro c
      rw [count_childrenPerParent, timesListed]
      by_cases hc : c < n
      · cases c with
        | zero => simp [hc, before]
        | succ k =>
            by_cases hkp : k = p
            · subst hkp
              simp [hc, before]
            · simp [hc, before, hkp]
      · have hno : ¬ (c = p + 1 ∧ p + 1 < n) := by omega
        simp [hc, hno]
    rw [children_chain]
    by_cases hp : p + 1 < n
    · rw [if_pos hp]
      refine List.perm_singleton.mp (List.perm_iff_count.mpr fun c => ?_)
      rw [hcount, List.count_singleton]
      by_cases hc : c = p + 1
      · simp [hc, hp]
      · simp [hc, Ne.symm hc]
    · rw [if_neg hp]
      refine List.perm_nil.mp (List.perm_iff_count.mpr fun c => ?_)
      rw [hcount, List.count_nil, if_neg fun h => hp h.2]
  simp [dagOf, chain, hchildren]

/-- The linear path wires the parents of a linear list. -/
theorem buildLinear_wires (hlin : Linear tasks) (hp : resolveParents tasks = .ok parents) :
    Wires (buildLinear tasks) parents (resolveParents_earlier hp) := by
  obtain ⟨_, rfl⟩ := (resolveParents_linear hlin).mp hp
  refine wires_of_wired _ ?_ ?_
  · rw [dagOf_before]
    exact buildLinear_wired
  · intro c
    by_cases hc : c < tasks.length
    · cases c with
      | zero => simp [TaskRegistry.inputRx, buildLinear, hc, before]
      | succ k => simp [TaskRegistry.inputRx, buildLinear, hc, before]
    · simp [TaskRegistry.inputRx, buildLinear, hc]

/-- Two registries with the same channels and the same leaf counts for the same tasks. -/
theorem registry_ext {reg reg' : TaskRegistry} (hlen : reg.tasks.length = reg'.tasks.length)
    (htasks : ∀ i (h : i < reg.tasks.length), reg.tasks[i] = reg'.tasks[i])
    (hdispatchers : ∀ i, reg.dispatchers i = reg'.dispatchers i) : reg = reg' := by
  cases reg
  cases reg'
  simp only [TaskRegistry.mk.injEq]
  exact ⟨List.ext_getElem hlen fun i h _ => htasks i h, funext hdispatchers⟩

/-- On a linear list with distinct names the path for graphs builds what the linear
path builds. -/
theorem buildDag_chain (hlin : Linear tasks) (hnodup : (tasks.map (·.name)).Nodup) :
    buildDag tasks = .ok (buildLinear tasks) := by
  have hp := (resolveParents_linear hlin).mpr ⟨hnodup, rfl⟩
  have hearlier := resolveParents_earlier hp
  have hchildren : ∀ i, childrenPerParent ((List.range tasks.length).map before) i =
      if i + 1 < tasks.length then [i + 1] else [] := fun i =>
    congrFun (congrArg Dag.children (dagOf_before tasks.length hearlier)) i
  rw [buildDag, hp]
  dsimp only
  rw [mapM_ok fun p _ => wireParent_eq p]
  refine congrArg Except.ok (registry_ext ?_ ?_ ?_)
  · simp [buildLinear]
  · intro i hi
    have hit : i < tasks.length := by simpa using hi
    have hleaves : reachableLeaves ((List.range tasks.length).map before) tasks.length
        (fun _ => ∅) i = {tasks.length - 1} := by
      rw [reachableLeaves_eq hearlier _ _ (fun i h₁ h₂ => by simp at h₂; omega) i (by simpa using hit),
        dagOf_before, leafSet_chain i hit]
    have hinput : (inboundTx ((List.range tasks.length).map before) i).toOption =
        if i > 0 then some (.inbound i) else none := by
      cases i with
      | zero => simp [inboundTx, hit, before, Except.toOption]
      | succ k => simp [inboundTx, hit, before, Except.toOption]
    by_cases hnext : i + 1 < tasks.length
    · simp [buildLinear, hchildren, hleaves, hinput, hnext, outputOf]
    · simp [buildLinear, hchildren, hleaves, hinput, hnext, outputOf]
  · intro i
    by_cases hi : i < tasks.length
    · by_cases hnext : i + 1 < tasks.length
      · simp [buildLinear, hchildren, hi, hnext, branchesOf]
      · simp [buildLinear, hchildren, hi, hnext, branchesOf]
    · simp [buildLinear, hi]

/-! ## The builder against the validator -/

/-- `build` refuses what `resolve_parents` refuses, and wires the parents found. -/
structure Agrees (tasks : List TaskType) : Prop where
  fails : (∃ e, build tasks = .error e) ↔ ∃ e, resolveParents tasks = .error e
  wires : ∀ reg parents (hp : resolveParents tasks = .ok parents), build tasks = .ok reg →
    Wires reg parents (resolveParents_earlier hp)

theorem except_error_iff {ε α : Type} {x : Except ε α} :
    (∃ e, x = .error e) ↔ ¬ ∃ a, x = .ok a := by
  cases x with
  | error e => simp
  | ok a => simp

/-- The builder agrees with the validator exactly on the lists of the path for graphs and
on the linear lists that use no name twice. -/
theorem build_agrees_iff (tasks : List TaskType) :
    Agrees tasks ↔ ¬ Linear tasks ∨ (tasks.map (·.name)).Nodup := by
  have hbuild := build_eq tasks
  by_cases hlin : Linear tasks
  · rw [if_pos hlin] at hbuild
    have hok : (∃ parents, resolveParents tasks = .ok parents) ↔
        (tasks.map (·.name)).Nodup := by
      constructor
      · rintro ⟨parents, hp⟩
        exact ((resolveParents_linear hlin).mp hp).1
      · intro hnodup
        exact ⟨_, (resolveParents_linear hlin).mpr ⟨hnodup, rfl⟩⟩
    constructor
    · intro h
      refine .inr (hok.mp ?_)
      by_contra hno
      obtain ⟨e, he⟩ := h.fails.mpr (except_error_iff.mpr hno)
      rw [hbuild] at he
      cases he
    · rintro (hno | hnodup)
      · exact absurd hlin hno
      · refine ⟨?_, ?_⟩
        · rw [except_error_iff, except_error_iff, hok]
          exact iff_of_false (fun h => h ⟨_, hbuild⟩) (fun h => h hnodup)
        · intro reg parents hp hreg
          rw [hbuild] at hreg
          cases hreg
          exact buildLinear_wires hlin hp
  · rw [if_neg hlin] at hbuild
    refine iff_of_true ⟨?_, ?_⟩ (.inl hlin)
    · rw [except_error_iff, except_error_iff, hbuild, buildDag_ok_iff]
    · intro reg parents hp hreg
      rw [hbuild] at hreg
      exact buildDag_wires hp hreg

/-- Two tasks of one name in a chain: the validator refuses the flow, the builder wires it. -/
theorem duplicate_name_built :
    let twice : List TaskType := [{ name := "notify" }, { name := "notify" }]
    resolveParents twice = .error (.duplicateTask "notify") ∧
      build twice = .ok (buildLinear twice) ∧ ¬ Agrees twice := by
  refine ⟨by decide, by rfl, ?_⟩
  intro h
  obtain ⟨e, he⟩ := h.fails.mpr ⟨.duplicateTask "notify", by decide⟩
  cases he

end Flowgen.Flow
