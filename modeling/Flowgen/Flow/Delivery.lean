/-
# `Flowgen.Flow.Delivery` — what a task emits, and who receives it (`fan_out`)

The channels of a flow at work.  A task sends to its output channel, which is
the inbound channel of its one child or that of a dispatcher; a dispatcher
takes one event at a time and sends it to each of its branches; a task
receives from its inbound channel.  A channel holds `CHANNEL_CAPACITY` events
and a sender waits for room.  An event is written `(p, e)`, with the task `p`
that emitted it.

While the channels stay open, every event emitted by `p` is at every moment
accounted for at each task `c`: received by it, waiting in its channel, or
still on its way through the dispatcher, in as many copies as `p` has edges
to `c` (`Carried.count`).  The ways to move an event always come to an end
with all of them received (`exists_settled`).

So a task receives an event once for every edge, and the edges are the entries
of `depends_on`: nothing on the way drops the second of two equal entries.

    every event is received exactly once by the tasks that list its emitter, and by no other
      ↔ no `depends_on` list has an entry twice
-/
import Flowgen.Flow.Pipeline
import Flowgen.Flow.Edges

namespace Flowgen.Flow

open Flowgen.Lib

/-- Room for one event between two tasks. -/
def channelCapacity : Nat := 1

/-- The channels and dispatchers of a flow at work. -/
structure Net (E : Type) where
  /-- What is in a channel, oldest first. -/
  queue : Channel → List (Nat × E)
  /-- The event a dispatcher has taken, and the branches still to be sent to. -/
  feeding : Nat → Option ((Nat × E) × List Channel)
  branches : Nat → List Channel
  closed : List Channel
  emitted : List (Nat × E)
  received : Nat → List (Nat × E)

inductive Transfer (E : Type)
  | emit (task : Nat) (e : E)
  | receive (task : Nat)
  | dispatch (parent : Nat)
  | feed (parent : Nat)
  | close (task : Nat)

/-- The steps that bring events on their way, and do not emit or close. -/
def Transfer.Moves {E : Type} : Transfer E → Prop
  | .receive _ => True
  | .dispatch _ => True
  | .feed _ => True
  | _ => False

variable {E : Type}

namespace Net

def HasRoom (s : Net E) (ch : Channel) : Prop := (s.queue ch).length < channelCapacity

instance (s : Net E) (ch : Channel) : Decidable (s.HasRoom ch) :=
  inferInstanceAs (Decidable (_ < _))

def push (s : Net E) (ch : Channel) (m : Nat × E) : Net E :=
  { s with queue := Function.update s.queue ch (s.queue ch ++ [m]) }

section Push

variable (s : Net E) (ch : Channel) (m : Nat × E)

@[simp] theorem push_feeding : (s.push ch m).feeding = s.feeding := rfl

@[simp] theorem push_branches : (s.push ch m).branches = s.branches := rfl

@[simp] theorem push_closed : (s.push ch m).closed = s.closed := rfl

@[simp] theorem push_emitted : (s.push ch m).emitted = s.emitted := rfl

@[simp] theorem push_received : (s.push ch m).received = s.received := rfl

end Push

/-- The sender of task `p` takes an event. -/
def emit (reg : TaskRegistry) (s : Net E) (p : Nat) (e : E) : Option (Net E) :=
  match reg.outputTx p with
  | none => some { s with emitted := (p, e) :: s.emitted }
  | some ch =>
      if ch ∉ s.closed ∧ s.HasRoom ch then
        some ({ s with emitted := (p, e) :: s.emitted }.push ch (p, e))
      else none

def receive (reg : TaskRegistry) (s : Net E) (c : Nat) : Option (Net E) :=
  match reg.inputRx c with
  | none => none
  | some ch =>
      if ch ∈ s.closed then none
      else
        match s.queue ch with
        | [] => none
        | m :: rest =>
            some { s with
              queue := Function.update s.queue ch rest
              received := Function.update s.received c (m :: s.received c) }

/-- One turn of `fan_out`, up to the loop over the branches: closed branches are
dropped for good, and without one left the dispatcher stops. -/
def dispatch (s : Net E) (p : Nat) : Option (Net E) :=
  if .dispatcher p ∈ s.closed then none
  else
    match s.feeding p with
    | some _ => none
    | none =>
        match s.queue (.dispatcher p) with
        | [] => none
        | m :: rest =>
            let s := { s with
              queue := Function.update s.queue (.dispatcher p) rest
              branches := Function.update s.branches p ((s.branches p).filter (· ∉ s.closed)) }
            match s.branches p with
            | [] => some { s with closed := .dispatcher p :: s.closed }
            | b :: bs => some { s with feeding := Function.update s.feeding p (some (m, b :: bs)) }

/-- One turn of the loop over the branches, or its end.  A failed send is ignored. -/
def feed (s : Net E) (p : Nat) : Option (Net E) :=
  match s.feeding p with
  | none => none
  | some (_, []) => some { s with feeding := Function.update s.feeding p none }
  | some (m, b :: bs) =>
      if b ∈ s.closed then
        some { s with feeding := Function.update s.feeding p (some (m, bs)) }
      else if s.HasRoom b then
        some ({ s with feeding := Function.update s.feeding p (some (m, bs)) }.push b m)
      else none

def step (reg : TaskRegistry) (s : Net E) : Transfer E → Option (Net E)
  | .emit p e => s.emit reg p e
  | .receive c => s.receive reg c
  | .dispatch p => s.dispatch p
  | .feed p => s.feed p
  | .close c => some { s with closed := .inbound c :: s.closed }

def start (reg : TaskRegistry) : Net E where
  queue _ := []
  feeding _ := none
  branches := reg.dispatchers
  closed := []
  emitted := []
  received _ := []

/-- Nothing is on its way. -/
def Settled (s : Net E) : Prop := (∀ ch, s.queue ch = []) ∧ ∀ p, s.feeding p = none

end Net

/-- All the ways the tasks and dispatchers of a flow can send and receive. -/
def delivery (E : Type) (reg : TaskRegistry) : Machine (Net E) (Transfer E) where
  init s := s = .start reg
  step := Net.step reg

/-! ## Who lists whom -/

/-- How often task `c` names `p` as a parent: in its `depends_on`, or as the previous
pipeline task where it has none. -/
def timesNamed (tasks : List TaskType) (c p : Nat) : Nat :=
  match tasks[c]? with
  | none => 0
  | some t =>
      match t.dependsOn with
      | some deps => ((tasks[p]?).map fun u => deps.count u.name).getD 0
      | none => if t.hasPipelineIo = true ∧ implicitParent tasks c = some p then 1 else 0

/-- Task `c` lists `p` among its parents. -/
def Lists (tasks : List TaskType) (c p : Nat) : Prop := 0 < timesNamed tasks c p

instance (tasks : List TaskType) (c p : Nat) : Decidable (Lists tasks c p) :=
  inferInstanceAs (Decidable (0 < _))

/-- No `depends_on` list has an entry twice. -/
def DistinctDeps (tasks : List TaskType) : Prop :=
  ∀ t ∈ tasks, ∀ deps ∈ t.dependsOn, deps.Nodup

instance (tasks : List TaskType) : Decidable (DistinctDeps tasks) :=
  inferInstanceAs (Decidable (∀ t ∈ tasks, ∀ deps ∈ t.dependsOn, deps.Nodup))

variable {tasks : List TaskType} {parents : List (List Nat)} {reg : TaskRegistry} {G : Dag}

theorem resolveDeps_map {names : List (String × Nat)} {task : TaskType} {idx : Nat} :
    ∀ {deps : List String} {ps : List Nat}, resolveDeps names task idx deps = .ok ps →
      (deps.map fun dep => names.lookup dep) = ps.map some
  | [], ps, h => by
      cases h
      rfl
  | dep :: deps, ps, h => by
      simp only [resolveDeps] at h
      split at h
      · cases h
      · rename_i p hp
        split at h
        · cases h
        · cases hr : resolveDeps names task idx deps with
          | error e =>
              rw [hr] at h
              cases h
          | ok rest =>
              rw [hr] at h
              cases h
              rw [List.map_cons, List.map_cons, hp, resolveDeps_map hr]

/-- The parents found for a task are those it names. -/
theorem timesListed_eq (hp : resolveParents tasks = .ok parents) (c p : Nat) :
    timesListed parents c p = timesNamed tasks c p := by
  obtain ⟨names, hnames, hlen, hall⟩ := resolveParents_iff.mp hp
  have hlookup : ∀ name i, names.lookup name = some i ↔ ∃ t, tasks[i]? = some t ∧ t.name = name := by
    intro name i
    rw [indexNames_lookup hnames]
    simp only [List.lookup_nil, reduceCtorEq, false_or, Nat.zero_add]
    constructor
    · rintro ⟨k, t, ht, hname, rfl⟩
      exact ⟨t, ht, hname⟩
    · rintro ⟨t, ht, hname⟩
      exact ⟨i, t, ht, hname, rfl⟩
  rw [timesListed, timesNamed]
  by_cases hc : c < tasks.length
  · have ht : tasks[c]? = some tasks[c] := List.getElem?_eq_getElem hc
    obtain ⟨ps, hps⟩ : ∃ ps, parents[c]? = some ps :=
      ⟨_, List.getElem?_eq_getElem (hlen.symm ▸ hc)⟩
    have hparents := hall c _ _ ht hps
    rw [ht, hps]
    simp only [Option.getD_some]
    rw [parentsOf] at hparents
    cases hdeps : tasks[c].dependsOn with
    | some deps =>
        rw [hdeps] at hparents
        dsimp only at hparents ⊢
        have hcount : ps.count p =
            deps.countP fun dep => names.lookup dep == some p := by
          rw [← List.count_map_of_injective _ _ (Option.some_injective Nat) p,
            ← resolveDeps_map hparents, List.count, List.countP_map]
          rfl
        rw [hcount]
        cases hu : tasks[p]? with
        | none =>
            refine List.countP_eq_zero.mpr fun dep _ hdep => ?_
            obtain ⟨t, htp, _⟩ := (hlookup dep p).mp (by simpa using hdep)
            rw [hu] at htp
            cases htp
        | some u =>
            refine List.countP_congr fun dep _ => ?_
            rw [beq_iff_eq, beq_iff_eq, hlookup, hu]
            simp [eq_comm]
    | none =>
        rw [hdeps] at hparents
        dsimp only at hparents ⊢
        split at hparents
        · rename_i hio
          cases hparents
          simp at hio
          simp [hio]
        · rename_i hio
          simp only [Bool.not_eq_true', Bool.not_eq_false] at hio
          split at hparents
          · rename_i i hi
            cases hparents
            simp [hi, hio, List.count_singleton]
          · rename_i hi
            cases hparents
            simp [hi]
  · have ht : tasks[c]? = none := List.getElem?_eq_none (by omega)
    have hps : parents[c]? = none := List.getElem?_eq_none (by omega)
    simp [ht, hps]

/-- Every entry of an accepted `depends_on` names a task. -/
theorem named_of_accepted (hp : resolveParents tasks = .ok parents) {c : Nat} {t : TaskType}
    (hc : tasks[c]? = some t) {deps : List String} (hdeps : deps ∈ t.dependsOn) {dep : String}
    (hdep : dep ∈ deps) : ∃ (p : Nat) (u : TaskType), tasks[p]? = some u ∧ u.name = dep := by
  obtain ⟨names, hnames, hlen, hall⟩ := resolveParents_iff.mp hp
  have hct : c < tasks.length := (List.getElem?_eq_some_iff.mp hc).1
  obtain ⟨ps, hps⟩ : ∃ ps, parents[c]? = some ps :=
    ⟨_, List.getElem?_eq_getElem (hlen.symm ▸ hct)⟩
  have hparents := hall c t ps hc hps
  rw [parentsOf, Option.mem_def.mp hdeps] at hparents
  have hmem : names.lookup dep ∈ ps.map some :=
    resolveDeps_map hparents ▸ List.mem_map_of_mem hdep
  obtain ⟨p, _, hp⟩ := List.mem_map.mp hmem
  obtain ⟨k, u, hu, hname, _⟩ := ((indexNames_lookup hnames dep p).mp hp.symm).resolve_left (by simp)
  exact ⟨k, u, hu, hname⟩

/-- Tasks receive from their own inbound channels, and the children of a task do receive. -/
structure Receives (reg : TaskRegistry) (G : Dag) : Prop where
  own : ∀ c, ∀ ch ∈ reg.inputRx c, ch = .inbound c
  child : ∀ p, ∀ c ∈ G.children p, reg.inputRx c = some (.inbound c)

/-- What `build` accepts is wired to a graph, with one edge for every time a task names
another. -/
theorem wired_of_build (h : build tasks = .ok reg) : ∃ G : Dag, Wired reg G ∧
    Receives reg G ∧ ∀ p c, (G.children p).count c = timesNamed tasks c p := by
  rw [build_eq] at h
  split at h
  · rename_i hlin
    cases h
    refine ⟨chain tasks.length, buildLinear_wired, ⟨?_, ?_⟩, ?_⟩
    · intro c ch hch
      by_cases hc : c < tasks.length
      · simp only [TaskRegistry.inputRx, buildLinear, List.getElem?_map, List.getElem?_zipIdx,
          List.getElem?_eq_getElem hc] at hch
        by_cases hpos : c > 0
        · simpa [hpos, eq_comm] using hch
        · simp [hpos] at hch
      · simp [TaskRegistry.inputRx, buildLinear, hc] at hch
    · intro p c hc
      rw [children_chain] at hc
      split at hc
      · rename_i hnext
        rw [List.mem_singleton.mp hc]
        simp [TaskRegistry.inputRx, buildLinear, hnext]
      · cases hc
    · intro p c
      rw [children_chain, timesNamed]
      cases ht : tasks[c]? with
      | none =>
          have hc : tasks.length ≤ c := List.getElem?_eq_none_iff.mp ht
          split
          · exact List.count_eq_zero.mpr (by simp; omega)
          · rfl
      | some t =>
          obtain ⟨hdeps, hio⟩ := hlin t (List.mem_of_getElem? ht)
          have hc : c < tasks.length := (List.getElem?_eq_some_iff.mp ht).1
          simp only [hdeps, hio, true_and]
          cases c with
          | zero =>
              have hnone : implicitParent tasks 0 = none := rfl
              rw [hnone]
              split <;> simp
          | succ k =>
              rw [implicitParent_linear hlin (Nat.lt_of_succ_lt hc)]
              by_cases hkp : k = p
              · subst hkp
                simp [hc]
              · split
                · simp [hkp, Ne.symm hkp]
                · simp [hkp]
  · obtain ⟨parents, hp⟩ := (buildDag_ok_iff tasks).mp ⟨reg, h⟩
    have hwires := buildDag_wires hp h
    refine ⟨flowDag hp, buildDag_wired hp h, ⟨?_, ?_⟩, ?_⟩
    · intro c ch hch
      rw [hwires.inputRx] at hch
      split at hch
      · cases hch
      · cases hch
        rfl
    · intro p c hc
      obtain ⟨ps, hps, hmem⟩ := mem_childrenPerParent.mp hc
      rw [hwires.inputRx, hps, Option.getD_some, if_neg (List.ne_nil_of_mem hmem)]
    · intro p c
      rw [← timesListed_eq hp]
      exact count_childrenPerParent parents p c

/-! ## Every event is accounted for -/

/-- The copies of `m` a dispatcher has still to send to task `c`. -/
def unsent [DecidableEq E] (feeding : Option ((Nat × E) × List Channel)) (m : Nat × E) (c : Nat) :
    Nat :=
  match feeding with
  | none => 0
  | some (m', rest) => if m' = m then rest.count (.inbound c) else 0

variable [DecidableEq E] {s t : Net E}

@[simp] theorem unsent_none (m : Nat × E) (c : Nat) : unsent none m c = 0 := rfl

@[simp] theorem unsent_nil (m m' : Nat × E) (c : Nat) : unsent (some (m', [])) m c = 0 := by
  simp [unsent]

/-- With every channel open: where the copies of an event are.  The edges from `p` to `c`
are counted by the branches of the dispatcher, or by the one channel `p` sends to. -/
structure Carried (reg : TaskRegistry) (s : Net E) : Prop where
  branches : s.branches = reg.dispatchers
  queued : ∀ p, ∀ m ∈ s.queue (.dispatcher p), m.1 = p ∧ reg.outputTx p = some (.dispatcher p)
  inbound : ∀ c, ∀ m ∈ s.queue (.inbound c), .inbound c ∈ reg.targets m.1
  feeding : ∀ p m rest, s.feeding p = some (m, rest) →
    m.1 = p ∧ reg.outputTx p = some (.dispatcher p) ∧ rest <:+ reg.dispatchers p
  count : ∀ c p (e : E), (s.received c).count (p, e) + (s.queue (.inbound c)).count (p, e) +
      unsent (s.feeding p) (p, e) c +
      (s.queue (.dispatcher p)).count (p, e) * (reg.targets p).count (.inbound c) =
    s.emitted.count (p, e) * (reg.targets p).count (.inbound c)

theorem carried_start (reg : TaskRegistry) : Carried reg (.start reg : Net E) where
  branches := rfl
  queued p m hm := absurd hm List.not_mem_nil
  inbound c m hm := absurd hm List.not_mem_nil
  feeding p m rest h := by cases h
  count c p e := by simp [Net.start]

theorem targets_of_dispatcher {p : Nat} (h : reg.outputTx p = some (.dispatcher p)) :
    reg.targets p = reg.dispatchers p := by
  rw [TaskRegistry.targets, h]

/-- A task with a dispatcher sends to its own. -/
theorem outputTx_dispatcher (hw : Wired reg G) {p q : Nat}
    (h : reg.outputTx p = some (.dispatcher q)) : q = p := by
  rw [hw.outputTx] at h
  rcases outputOf_eq_some h with ⟨c, _, hc⟩ | ⟨_, hc⟩
  · cases hc
  · cases hc
    rfl

section Counts

variable {ch ch' : Channel} {m m' : Nat × E}

theorem count_cons_ite (l : List (Nat × E)) :
    (m :: l).count m' = l.count m' + if m' = m then 1 else 0 := by
  rw [List.count_cons]
  by_cases hm : m' = m
  · rw [hm, beq_self_eq_true, if_pos rfl, if_pos rfl]
  · rw [beq_false_of_ne (Ne.symm hm), if_neg hm, if_neg Bool.false_ne_true]

omit [DecidableEq E] in
theorem mem_push : m' ∈ (s.push ch m).queue ch' ↔ m' ∈ s.queue ch' ∨ ch' = ch ∧ m' = m := by
  rw [Net.push]
  by_cases hch : ch' = ch
  · subst hch
    simp
  · simp [hch]

theorem count_push : ((s.push ch m).queue ch').count m' =
    (s.queue ch').count m' + if ch' = ch ∧ m' = m then 1 else 0 := by
  rw [Net.push]
  by_cases hch : ch' = ch
  · subst hch
    simp [count_cons_ite]
  · simp [hch]

omit [DecidableEq E] in
/-- Taking the first event out of a channel. -/
theorem mem_pop {rest : List (Nat × E)} (hq : s.queue ch = m :: rest)
    (hm : m' ∈ Function.update s.queue ch rest ch') : m' ∈ s.queue ch' := by
  by_cases hch : ch' = ch
  · subst hch
    rw [Function.update_self] at hm
    rw [hq]
    exact List.mem_cons_of_mem _ hm
  · rwa [Function.update_of_ne hch] at hm

theorem count_pop {rest : List (Nat × E)} (hq : s.queue ch = m :: rest) :
    (s.queue ch').count m' = (Function.update s.queue ch rest ch').count m' +
      if ch' = ch ∧ m' = m then 1 else 0 := by
  by_cases hch : ch' = ch
  · subst hch
    simp [hq, count_cons_ite]
  · simp [hch]

end Counts

theorem Carried.emit (hw : Wired reg G) (h : Carried reg s) {p : Nat} {e : E}
    (hs : s.emit reg p e = some t) : Carried reg t := by
  rw [Net.emit] at hs
  split at hs
  · rename_i hout
    cases hs
    refine { h with count := ?_ }
    intro c q e'
    have hcount := h.count c q e'
    rw [count_cons_ite]
    split
    · rename_i hm
      cases hm
      have htargets : reg.targets p = [] := by rw [TaskRegistry.targets, hout]
      rw [htargets] at hcount ⊢
      exact hcount
    · exact hcount
  · rename_i ch hout
    obtain ⟨_, hs⟩ := Option.ite_none_right_eq_some.mp hs
    cases hs
    refine { branches := h.branches, queued := ?_, inbound := ?_, feeding := h.feeding, count := ?_ }
    · intro q m hm
      rcases mem_push.mp hm with hm | ⟨hq, rfl⟩
      · exact h.queued q m hm
      · subst hq
        have := outputTx_dispatcher hw hout
        exact ⟨this.symm, this ▸ hout⟩
    · intro c m hm
      rcases mem_push.mp hm with hm | ⟨hc, rfl⟩
      · exact h.inbound c m hm
      · subst hc
        simp [TaskRegistry.targets, hout]
    · intro c q e'
      have hcount := h.count c q e'
      have hnew : (if Channel.inbound c = ch ∧ (q, e') = (p, e) then 1 else 0) +
          (if Channel.dispatcher q = ch ∧ (q, e') = (p, e) then 1 else 0) *
            (reg.targets q).count (.inbound c) =
          (if (q, e') = (p, e) then 1 else 0) * (reg.targets q).count (.inbound c) := by
        by_cases hm : (q, e') = (p, e)
        · cases hm
          cases ch with
          | inbound d =>
              by_cases hcd : c = d
              · simp [TaskRegistry.targets, hout, hcd]
              · simp [TaskRegistry.targets, hout, hcd, Ne.symm hcd]
          | dispatcher r => simp [outputTx_dispatcher hw hout]
        · simp [hm]
      rw [count_push, count_push]
      simp only [Net.push_received, Net.push_feeding, Net.push_emitted, count_cons_ite, Nat.add_mul]
      omega

theorem Carried.receive (h : Carried reg s) {c : Nat} (hrx : ∀ ch ∈ reg.inputRx c, ch = .inbound c)
    (hs : s.receive reg c = some t) : Carried reg t := by
  rw [Net.receive] at hs
  split at hs
  · cases hs
  · rename_i ch hch
    obtain ⟨_, hs⟩ := Option.ite_none_left_eq_some.mp hs
    obtain rfl := hrx ch hch
    split at hs
    · cases hs
    · rename_i m rest hq
      cases hs
      refine { branches := h.branches, queued := ?_, inbound := ?_, feeding := h.feeding, count := ?_ }
      · intro p m' hm
        exact h.queued p m' (mem_pop hq hm)
      · intro d m' hm
        exact h.inbound d m' (mem_pop hq hm)
      · intro d p e
        have hcount := h.count d p e
        rw [@count_pop _ _ _ _ (.inbound d) _ _ _ hq, @count_pop _ _ _ _ (.dispatcher p) _ _ _ hq]
          at hcount
        have hreceived : (Function.update s.received c (m :: s.received c) d).count (p, e) =
            (s.received d).count (p, e) + if Channel.inbound d = .inbound c ∧ (p, e) = m then 1 else 0 := by
          by_cases hd : d = c
          · subst hd
            simp [count_cons_ite]
          · simp [hd]
        simp only [hreceived]
        simp only [reduceCtorEq, false_and, if_false, Nat.add_zero] at hcount
        omega

theorem Carried.dispatch (h : Carried reg s) (hopen : s.closed = [])
    (hopen' : t.closed = []) {p : Nat} (hs : s.dispatch p = some t) : Carried reg t := by
  rw [Net.dispatch] at hs
  obtain ⟨_, hs⟩ := Option.ite_none_left_eq_some.mp hs
  split at hs
  · cases hs
  · rename_i hidle
    split at hs
    · cases hs
    · rename_i m rest hq
      obtain ⟨hm, hout⟩ := h.queued p m (hq ▸ List.mem_cons_self)
      have hbranches : Function.update s.branches p ((s.branches p).filter (· ∉ s.closed)) =
          reg.dispatchers := by
        rw [hopen, ← h.branches]
        simp
      simp only [hbranches] at hs
      split at hs
      · cases hs
        cases hopen'
      · rename_i b bs hb
        cases hs
        refine { branches := rfl, queued := ?_, inbound := ?_, feeding := ?_, count := ?_ }
        · intro q m' hm'
          exact h.queued q m' (mem_pop hq hm')
        · intro d m' hm'
          exact h.inbound d m' (mem_pop hq hm')
        · intro q m' rest' hrest
          by_cases hqp : q = p
          · subst hqp
            simp only [Function.update_self, Option.some.injEq, Prod.mk.injEq] at hrest
            obtain ⟨rfl, rfl⟩ := hrest
            exact ⟨hm, hout, hb ▸ List.suffix_rfl⟩
          · simp only [Function.update_of_ne hqp] at hrest
            exact h.feeding q m' rest' hrest
        · intro d q e
          have hcount := h.count d q e
          rw [@count_pop _ _ _ _ (.inbound d) _ _ _ hq, @count_pop _ _ _ _ (.dispatcher q) _ _ _ hq]
            at hcount
          by_cases hqp : q = p
          · subst hqp
            simp only [Function.update_self, unsent, hidle, reduceCtorEq, false_and, if_false, true_and,
              ← hb, ← targets_of_dispatcher hout, Nat.add_mul] at hcount ⊢
            by_cases hme : m = (q, e)
            · rw [if_pos hme.symm] at hcount
              rw [if_pos hme]
              omega
            · rw [if_neg (Ne.symm hme)] at hcount
              rw [if_neg hme]
              omega
          · have hne : Channel.dispatcher q ≠ .dispatcher p := by simpa using hqp
            simp only [Function.update_of_ne hqp, reduceCtorEq, hne, false_and, if_false, Nat.add_zero]
              at hcount ⊢
            exact hcount

theorem Carried.feed (hw : Wired reg G) (h : Carried reg s) (hopen : s.closed = []) {p : Nat}
    (hs : s.feed p = some t) : Carried reg t := by
  rw [Net.feed] at hs
  split at hs
  · cases hs
  · rename_i m hfeed
    cases hs
    refine { h with feeding := ?_, count := ?_ }
    · intro q m' rest hrest
      by_cases hqp : q = p
      · subst hqp
        simp at hrest
      · simp only [Function.update_of_ne hqp] at hrest
        exact h.feeding q m' rest hrest
    · intro c q e
      have hcount := h.count c q e
      by_cases hqp : q = p
      · subst hqp
        simpa [hfeed] using hcount
      · simpa only [Function.update_of_ne hqp] using hcount
  · rename_i m b bs hfeed
    rw [hopen] at hs
    obtain ⟨_, hs⟩ := Option.ite_none_right_eq_some.mp hs
    cases hs
    obtain ⟨hm, hout, hrest⟩ := h.feeding p m _ hfeed
    have hb : b ∈ reg.targets p := by
      rw [targets_of_dispatcher hout]
      exact hrest.subset List.mem_cons_self
    obtain ⟨d, -, rfl⟩ := List.mem_map.mp (targets_of_wired hw p ▸ hb)
    refine { branches := h.branches, queued := ?_, inbound := ?_, feeding := ?_, count := ?_ }
    · intro q m' hm'
      rcases mem_push.mp hm' with hm' | ⟨hq, _⟩
      · exact h.queued q m' hm'
      · cases hq
    · intro c m' hm'
      rcases mem_push.mp hm' with hm' | ⟨hc, rfl⟩
      · exact h.inbound c m' hm'
      · rw [hc, hm]
        exact hb
    · intro q m' rest hq
      by_cases hqp : q = p
      · subst hqp
        simp only [Net.push_feeding, Function.update_self, Option.some.injEq, Prod.mk.injEq] at hq
        obtain ⟨rfl, rfl⟩ := hq
        exact ⟨hm, hout, (List.suffix_cons _ _).trans hrest⟩
      · simp only [Net.push_feeding, Function.update_of_ne hqp] at hq
        exact h.feeding q m' rest hq
    · intro c q e
      have hcount := h.count c q e
      rw [count_push, count_push]
      simp only [Net.push_received, Net.push_feeding, Net.push_emitted, reduceCtorEq, false_and,
        if_false, Nat.add_zero]
      by_cases hqp : q = p
      · subst hqp
        simp only [Function.update_self, hfeed, unsent, List.count_cons] at hcount ⊢
        by_cases hme : m = (q, e)
        · rw [if_pos hme] at hcount ⊢
          by_cases hcd : d = c
          · simp only [hcd, hme, beq_self_eq_true, if_true, and_self] at hcount ⊢
            omega
          · have hne : (Channel.inbound d == .inbound c) = false := by simpa using hcd
            simp only [hne, Channel.inbound.injEq, Ne.symm hcd, false_and, if_false,
              Bool.false_eq_true] at hcount ⊢
            omega
        · simp only [hme, Ne.symm hme, and_false, if_false] at hcount ⊢
          omega
      · have hne : (q, e) ≠ m := fun hqe => hqp (by rw [← hm, ← hqe])
        simp only [Function.update_of_ne hqp, hne, and_false, if_false, Nat.add_zero]
        exact hcount

omit [DecidableEq E] in
/-- The channels a flow has closed stay closed. -/
theorem closed_of_step {a : Transfer E} (hs : Net.step reg s a = some t) (ht : t.closed = []) :
    s.closed = [] := by
  cases a with
  | emit p e =>
      simp only [Net.step, Net.emit] at hs
      split at hs
      · cases hs
        exact ht
      · obtain ⟨_, hs⟩ := Option.ite_none_right_eq_some.mp hs
        cases hs
        exact ht
  | receive c =>
      simp only [Net.step, Net.receive] at hs
      split at hs
      · cases hs
      · obtain ⟨_, hs⟩ := Option.ite_none_left_eq_some.mp hs
        split at hs
        · cases hs
        · cases hs
          exact ht
  | dispatch p =>
      simp only [Net.step, Net.dispatch] at hs
      obtain ⟨_, hs⟩ := Option.ite_none_left_eq_some.mp hs
      split at hs
      · cases hs
      · split at hs
        · cases hs
        · split at hs
          · cases hs
            cases ht
          · cases hs
            exact ht
  | feed p =>
      simp only [Net.step, Net.feed] at hs
      split at hs
      · cases hs
      · cases hs
        exact ht
      · split at hs
        · cases hs
          exact ht
        · obtain ⟨_, hs⟩ := Option.ite_none_right_eq_some.mp hs
          cases hs
          exact ht
  | close c =>
      cases hs
      cases ht

theorem carried_step (hw : Wired reg G) (hrx : Receives reg G) {a : Transfer E}
    (h : s.closed = [] → Carried reg s) (hs : Net.step reg s a = some t) (ht : t.closed = []) :
    Carried reg t := by
  have hopen := closed_of_step hs ht
  have hc := h hopen
  cases a with
  | emit p e => exact hc.emit hw hs
  | receive c => exact hc.receive (hrx.own c) hs
  | dispatch p => exact hc.dispatch hopen ht hs
  | feed p => exact hc.feed hw hopen hs
  | close c =>
      cases hs
      cases ht

/-- While the channels are open, every event is accounted for. -/
theorem carried_of_reachable (hw : Wired reg G) (hrx : Receives reg G)
    (hr : (delivery E reg).Reachable s) (hopen : s.closed = []) : Carried reg s := by
  refine hr.invariant (I := fun s => s.closed = [] → Carried reg s) ?_ ?_ hopen
  · rintro s rfl _
    exact carried_start reg
  · intro s a t h _ hs ht
    exact carried_step hw hrx h hs ht

/-! ## Everything sent is received in the end -/

/-- The sends a dispatcher has still to do, each of them followed by a receive, and the
end of its loop. -/
def sends (feeding : Option ((Nat × E) × List Channel)) : Nat :=
  match feeding with
  | none => 0
  | some (_, rest) => 2 * rest.length + 1

omit [DecidableEq E] in
@[simp] theorem sends_none : sends (none : Option ((Nat × E) × List Channel)) = 0 := rfl

omit [DecidableEq E] in
@[simp] theorem sends_some (m : Nat × E) (rest : List Channel) :
    sends (some (m, rest)) = 2 * rest.length + 1 := rfl

/-- The steps it takes to bring all events to their tasks. -/
def Net.work (reg : TaskRegistry) (n : Nat) (s : Net E) : Nat :=
  (∑ c ∈ Finset.range n, (s.queue (.inbound c)).length) +
  (∑ p ∈ Finset.range n, sends (s.feeding p)) +
  ∑ p ∈ Finset.range n, (s.queue (.dispatcher p)).length * (2 * (reg.dispatchers p).length + 2)

/-- Two sums that differ in one summand. -/
theorem sum_change {n i : Nat} {f g : Nat → Nat} (hi : i < n) (h : ∀ j, j ≠ i → f j = g j) :
    ∑ j ∈ Finset.range n, f j + g i = ∑ j ∈ Finset.range n, g j + f i := by
  have hmem : i ∈ Finset.range n := Finset.mem_range.mpr hi
  have hrest : ∑ j ∈ (Finset.range n).erase i, f j = ∑ j ∈ (Finset.range n).erase i, g j :=
    Finset.sum_congr rfl fun j hj => h j (Finset.ne_of_mem_erase hj)
  rw [← Finset.add_sum_erase _ f hmem, ← Finset.add_sum_erase _ g hmem, hrest]
  omega

/-- A step that moves an event on. -/
def Progress (reg : TaskRegistry) (n : Nat) (s : Net E) : Prop :=
  ∃ a t, a.Moves ∧ Net.step reg s a = some t ∧ t.closed = s.closed ∧ t.emitted = s.emitted ∧
    t.work reg n < s.work reg n

theorem progress_receive (hw : Wired reg G) (hrx : Receives reg G) (h : Carried reg s)
    (hopen : s.closed = []) {c : Nat} (hq : s.queue (.inbound c) ≠ []) :
    Progress reg G.size s := by
  obtain ⟨m, rest, hm⟩ := List.exists_cons_of_ne_nil hq
  have htarget := h.inbound c m (hm ▸ List.mem_cons_self)
  rw [targets_of_wired hw] at htarget
  obtain ⟨d, hd, hdc⟩ := List.mem_map.mp htarget
  cases hdc
  have hstep : Net.step reg s (.receive c) = some { s with
      queue := Function.update s.queue (.inbound c) rest
      received := Function.update s.received c (m :: s.received c) } := by
    simp [Net.step, Net.receive, hrx.child _ c hd, hopen, hm]
  refine ⟨.receive c, _, trivial, hstep, rfl, rfl, ?_⟩
  have hsum := @sum_change G.size c
    (fun j => (Function.update s.queue (.inbound c) rest (.inbound j)).length)
    (fun j => (s.queue (.inbound j)).length) (G.bounded hd) (fun j hj => by simp [hj])
  simp only [Function.update_self, hm, List.length_cons] at hsum
  simp only [Net.work, ne_eq, reduceCtorEq, not_false_eq_true, Function.update_of_ne]
  omega

/-- A task with a dispatcher is one of the graph. -/
theorem lt_of_dispatcher (hw : Wired reg G) {p : Nat} (h : reg.outputTx p = some (.dispatcher p)) :
    p < G.size ∧ reg.dispatchers p ≠ [] := by
  rw [hw.outputTx] at h
  rcases outputOf_eq_some h with ⟨c, _, hc⟩ | ⟨hlen, _⟩
  · cases hc
  · obtain ⟨c, hc⟩ := List.exists_mem_of_length_pos (Nat.zero_lt_of_lt hlen)
    refine ⟨(G.forward hc).trans (G.bounded hc), ?_⟩
    rw [hw.branches, branchesOf_eq hlen]
    exact List.ne_nil_of_mem (List.mem_map_of_mem hc)

theorem progress_feed (hw : Wired reg G) (h : Carried reg s) (hopen : s.closed = [])
    (hempty : ∀ c, s.queue (.inbound c) = []) {p : Nat} (hfeed : s.feeding p ≠ none) :
    Progress reg G.size s := by
  obtain ⟨⟨m, rest⟩, hm⟩ := Option.ne_none_iff_exists'.mp hfeed
  obtain ⟨_, hout, hrest⟩ := h.feeding p m rest hm
  have hp := (lt_of_dispatcher hw hout).1
  cases rest with
  | nil =>
      have hstep : Net.step reg s (.feed p) =
          some { s with feeding := Function.update s.feeding p none } := by
        simp [Net.step, Net.feed, hm]
      refine ⟨.feed p, _, trivial, hstep, rfl, rfl, ?_⟩
      have hsum := @sum_change G.size p (fun j => sends (Function.update s.feeding p none j))
        (fun j => sends (s.feeding j)) hp (fun j hj => by simp [hj])
      simp only [Function.update_self, hm, sends_none, sends_some] at hsum
      simp only [Net.work]
      omega
  | cons b bs =>
      have hb : b ∈ reg.targets p := by
        rw [targets_of_dispatcher hout]
        exact hrest.subset List.mem_cons_self
      obtain ⟨d, hd, rfl⟩ := List.mem_map.mp (targets_of_wired hw p ▸ hb)
      have hroom : s.HasRoom (.inbound d) := by
        rw [Net.HasRoom, hempty d]
        exact Nat.one_pos
      have hstep : Net.step reg s (.feed p) = some ({ s with
          feeding := Function.update s.feeding p (some (m, bs)) }.push (.inbound d) m) := by
        simp [Net.step, Net.feed, hm, hopen, hroom]
      refine ⟨.feed p, _, trivial, hstep, rfl, rfl, ?_⟩
      have hsum := @sum_change G.size p
        (fun j => sends (Function.update s.feeding p (some (m, bs)) j))
        (fun j => sends (s.feeding j)) hp (fun j hj => by simp [hj])
      have hpush := @sum_change G.size d
        (fun j => (Function.update s.queue (.inbound d) (s.queue (.inbound d) ++ [m])
          (.inbound j)).length)
        (fun j => (s.queue (.inbound j)).length) (G.bounded hd) (fun j hj => by simp [hj])
      simp only [Function.update_self, hm, sends_some, List.length_cons, List.length_append,
        List.length_nil] at hsum hpush
      simp only [Net.work, Net.push, ne_eq, reduceCtorEq, not_false_eq_true, Function.update_of_ne]
      omega

theorem progress_dispatch (hw : Wired reg G) (h : Carried reg s) (hopen : s.closed = [])
    (hidle : ∀ p, s.feeding p = none) {p : Nat} (hq : s.queue (.dispatcher p) ≠ []) :
    Progress reg G.size s := by
  obtain ⟨m, rest, hm⟩ := List.exists_cons_of_ne_nil hq
  obtain ⟨_, hout⟩ := h.queued p m (hm ▸ List.mem_cons_self)
  obtain ⟨hp, hbranches⟩ := lt_of_dispatcher hw hout
  obtain ⟨b, bs, hb⟩ := List.exists_cons_of_ne_nil hbranches
  have hstep : Net.step reg s (.dispatch p) = some { s with
      queue := Function.update s.queue (.dispatcher p) rest
      branches := Function.update s.branches p (b :: bs)
      feeding := Function.update s.feeding p (some (m, b :: bs)) } := by
    simp [Net.step, Net.dispatch, hopen, hidle, hm, h.branches, hb]
  refine ⟨.dispatch p, _, trivial, hstep, rfl, rfl, ?_⟩
  have hfeed := @sum_change G.size p
    (fun j => sends (Function.update s.feeding p (some (m, b :: bs)) j))
    (fun j => sends (s.feeding j)) hp (fun j hj => by simp [hj])
  have hpop := @sum_change G.size p
    (fun j => (Function.update s.queue (.dispatcher p) rest (.dispatcher j)).length *
      (2 * (reg.dispatchers j).length + 2))
    (fun j => (s.queue (.dispatcher j)).length * (2 * (reg.dispatchers j).length + 2)) hp
    (fun j hj => by simp [hj])
  simp only [Function.update_self, hm, hb, hidle p, sends_none, sends_some, List.length_cons,
    Nat.add_mul] at hfeed hpop
  simp only [Net.work, ne_eq, reduceCtorEq, not_false_eq_true, Function.update_of_ne]
  omega

/-- As long as something is on its way and the channels are open, some step moves it on. -/
theorem progress (hw : Wired reg G) (hrx : Receives reg G) (h : Carried reg s)
    (hopen : s.closed = []) (hs : ¬ s.Settled) : Progress reg G.size s := by
  by_cases hinbound : ∀ c, s.queue (.inbound c) = []
  · by_cases hidle : ∀ p, s.feeding p = none
    · by_cases hqueued : ∀ p, s.queue (.dispatcher p) = []
      · refine absurd ⟨?_, hidle⟩ hs
        intro ch
        cases ch with
        | inbound c => exact hinbound c
        | dispatcher p => exact hqueued p
      · obtain ⟨p, hp⟩ := not_forall.mp hqueued
        exact progress_dispatch hw h hopen hidle hp
    · obtain ⟨p, hp⟩ := not_forall.mp hidle
      exact progress_feed hw h hopen hinbound hp
  · obtain ⟨c, hc⟩ := not_forall.mp hinbound
    exact progress_receive hw hrx h hopen hc

/-- Whatever is on its way, moving it on for long enough brings all of it to its tasks. -/
theorem exists_settled (hw : Wired reg G) (hrx : Receives reg G)
    (hr : (delivery E reg).Reachable s) (hopen : s.closed = []) :
    ∃ as t, (delivery E reg).RunOf (fun _ a => a.Moves) s as t ∧ t.closed = [] ∧ t.Settled ∧
      t.emitted = s.emitted := by
  have hmove : ∀ u : Net E, Carried reg u ∧ u.closed = [] ∧ u.emitted = s.emitted → ¬ u.Settled →
      ∃ a t, a.Moves ∧ (delivery E reg).step u a = some t ∧
        (Carried reg t ∧ t.closed = [] ∧ t.emitted = s.emitted) ∧
        t.work reg G.size < u.work reg G.size := by
    rintro u ⟨hc, hu, hem⟩ hno
    obtain ⟨a, t, ha, hstep, hclosed, hemitted, hlt⟩ := progress hw hrx hc hu hno
    have ht : t.closed = [] := hclosed.trans hu
    exact ⟨a, t, ha, hstep, ⟨carried_step hw hrx (fun _ => hc) hstep ht, ht, hemitted.trans hem⟩, hlt⟩
  obtain ⟨as, t, hrun, ⟨_, hclosed, hemitted⟩, hsettled⟩ :=
    Machine.exists_run_to_final _ Net.Settled (Net.work reg G.size) hmove s
      ⟨carried_of_reachable hw hrx hr hopen, hopen, rfl⟩
  exact ⟨as, t, hrun, hclosed, hsettled, hemitted⟩

/-! ## Exactly once -/

/-- While the channels of the flow are open: an emitted event has been received at most
once by the tasks that list its emitter and by no other, exactly once when nothing is on
its way any more, and moving on what is on its way gets there. -/
structure ExactlyOnce (E : Type) [DecidableEq E] (reg : TaskRegistry) (tasks : List TaskType) :
    Prop where
  atMost : ∀ s, (delivery E reg).Reachable s → s.closed = [] → ∀ c p (e : E),
    (s.received c).count (p, e) ≤ if Lists tasks c p then s.emitted.count (p, e) else 0
  settled : ∀ s, (delivery E reg).Reachable s → s.closed = [] → s.Settled → ∀ c p (e : E),
    (s.received c).count (p, e) = if Lists tasks c p then s.emitted.count (p, e) else 0
  settles : ∀ s, (delivery E reg).Reachable s → s.closed = [] →
    ∃ as t, (delivery E reg).RunOf (fun _ a => a.Moves) s as t ∧ t.closed = [] ∧ t.Settled ∧
      t.emitted = s.emitted

/-- The edges from `p` to `c` in the channels are the entries of `c` that name `p`. -/
theorem count_targets (h : build tasks = .ok reg) (c p : Nat) :
    (reg.targets p).count (.inbound c) = timesNamed tasks c p := by
  obtain ⟨G, hw, _, hcount⟩ := wired_of_build h
  have hinj : Function.Injective Channel.inbound := fun a b hab => by
    cases hab
    rfl
  rw [targets_of_wired hw, List.count_map_of_injective _ _ hinj, hcount]

/-- A settled event has been received once for every time its emitter is named. -/
theorem received_of_settled (h : build tasks = .ok reg) (hr : (delivery E reg).Reachable s)
    (hopen : s.closed = []) (hs : s.Settled) (c p : Nat) (e : E) :
    (s.received c).count (p, e) = s.emitted.count (p, e) * timesNamed tasks c p := by
  obtain ⟨G, hw, hrx, _⟩ := wired_of_build h
  have hcount := (carried_of_reachable hw hrx hr hopen).count c p e
  rw [hs.1, hs.1, hs.2, count_targets h] at hcount
  simpa using hcount

/-- In an accepted list no task is named twice exactly if the entries of every
`depends_on` are distinct. -/
theorem timesNamed_le_one_iff (h : build tasks = .ok reg) :
    (∀ c p, timesNamed tasks c p ≤ 1) ↔ DistinctDeps tasks := by
  constructor
  · intro hle t ht deps hdeps
    refine List.nodup_iff_count_le_one.mpr fun dep => ?_
    by_cases hmem : dep ∈ deps
    · obtain ⟨c, hc⟩ := List.mem_iff_getElem?.mp ht
      have hnot : ¬ Linear tasks := fun hlin => by
        have := (hlin t ht).1
        rw [this] at hdeps
        cases hdeps
      rw [build_eq, if_neg hnot] at h
      obtain ⟨parents, hp⟩ := (buildDag_ok_iff tasks).mp ⟨reg, h⟩
      obtain ⟨p, u, hu, hname⟩ := named_of_accepted hp hc hdeps hmem
      have := hle c p
      rw [timesNamed, hc] at this
      simpa [Option.mem_def.mp hdeps, hu, hname] using this
    · rw [List.count_eq_zero_of_not_mem hmem]
      exact Nat.zero_le 1
  · intro hdistinct c p
    rw [timesNamed]
    split
    · exact Nat.zero_le 1
    · rename_i t ht
      split
      · rename_i deps hdeps
        have hnodup := hdistinct t (List.mem_of_getElem? ht) deps hdeps
        cases tasks[p]? with
        | none => exact Nat.zero_le 1
        | some u => exact List.nodup_iff_count_le_one.mp hnodup u.name
      · split
        · exact le_rfl
        · exact Nat.zero_le 1

omit [DecidableEq E] in
/-- Every task can emit an event first thing. -/
theorem exists_emitted (reg : TaskRegistry) (p : Nat) (e : E) :
    ∃ s, (delivery E reg).Reachable s ∧ s.closed = [] ∧ s.emitted = [(p, e)] := by
  cases hout : reg.outputTx p with
  | none =>
      have hstep : (delivery E reg).step (.start reg) (.emit p e) =
          some { Net.start reg with emitted := [(p, e)] } := by
        simp [delivery, Net.step, Net.emit, hout, Net.start]
      exact ⟨_, ⟨_, _, rfl, .single trivial hstep⟩, rfl, rfl⟩
  | some ch =>
      have hstep : (delivery E reg).step (.start reg) (.emit p e) =
          some ({ Net.start reg with emitted := [(p, e)] }.push ch (p, e)) := by
        simp [delivery, Net.step, Net.emit, hout, Net.start, Net.HasRoom, channelCapacity]
      exact ⟨_, ⟨_, _, rfl, .single trivial hstep⟩, rfl, rfl⟩

/-- Exactly once, from every run, is a matter of how often a task is named. -/
theorem exactlyOnce_iff_le_one [Inhabited E] (h : build tasks = .ok reg) :
    ExactlyOnce E reg tasks ↔ ∀ c p, timesNamed tasks c p ≤ 1 := by
  obtain ⟨G, hw, hrx, _⟩ := wired_of_build h
  constructor
  · intro hexact c p
    -- One event is emitted and moved on until it has settled.
    obtain ⟨s, hr, hopen, hemitted⟩ := exists_emitted reg p (default : E)
    obtain ⟨as, t, hrun, hclosed, hsettled, hsame⟩ := exists_settled hw hrx hr hopen
    have hrt : (delivery E reg).Reachable t := by
      obtain ⟨s₀, as₀, h0, hr⟩ := hr
      exact ⟨s₀, _, h0, hr.trans hrun.run⟩
    have honce := hexact.settled t hrt hclosed hsettled c p default
    rw [received_of_settled h hrt hclosed hsettled, hsame, hemitted, List.count_singleton_self,
      Nat.one_mul] at honce
    rw [honce]
    split
    · exact le_rfl
    · exact Nat.zero_le 1
  · intro hle
    have hnamed : ∀ c p n, n * timesNamed tasks c p = if Lists tasks c p then n else 0 := by
      intro c p n
      simp only [Lists]
      rcases Nat.le_one_iff_eq_zero_or_eq_one.mp (hle c p) with h0 | h1
      · simp [h0]
      · simp [h1]
    refine ⟨?_, ?_, ?_⟩
    · intro s hr hopen c p e
      have hcount := (carried_of_reachable hw hrx hr hopen).count c p e
      rw [count_targets h, hnamed c p (s.emitted.count (p, e))] at hcount
      omega
    · intro s hr hopen hs c p e
      rw [received_of_settled h hr hopen hs, hnamed]
    · intro s hr hopen
      exact exists_settled hw hrx hr hopen

/-- In an accepted flow every event is received exactly once along every edge, exactly if
no task depends on another one twice. -/
theorem exactlyOnce_iff [Inhabited E] (h : build tasks = .ok reg) :
    ExactlyOnce E reg tasks ↔ DistinctDeps tasks := by
  rw [exactlyOnce_iff_le_one h, timesNamed_le_one_iff h]

/-- A fan-out with two branches that meet again: every event arrives once. -/
theorem exactlyOnce_diamond :
    let diamond : List TaskType :=
      [{ name := "read" }, { name := "left", dependsOn := some ["read"] },
        { name := "right", dependsOn := some ["read"] },
        { name := "join", dependsOn := some ["left", "right"] }]
    ∃ reg, build diamond = .ok reg ∧ ExactlyOnce Nat reg diamond := by
  intro diamond
  have hparents : resolveParents diamond = .ok [[], [0], [0], [1, 2]] := by decide
  obtain ⟨reg, hreg⟩ := (buildDag_ok_iff diamond).mpr ⟨_, hparents⟩
  have hbuild : build diamond = .ok reg := by
    rw [build_eq, if_neg (by decide), hreg]
  exact ⟨reg, hbuild, (exactlyOnce_iff hbuild).mpr (by decide)⟩

/-- A task that depends on the same task twice: the flow is accepted, and an event emitted
once is received twice. -/
theorem received_twice :
    let twice : List TaskType :=
      [{ name := "read" }, { name := "write", dependsOn := some ["read", "read"] }]
    ∃ reg, build twice = .ok reg ∧ ¬ ExactlyOnce Nat reg twice := by
  intro twice
  have hparents : resolveParents twice = .ok [[], [0, 0]] := by decide
  obtain ⟨reg, hreg⟩ := (buildDag_ok_iff twice).mpr ⟨_, hparents⟩
  have hbuild : build twice = .ok reg := by
    rw [build_eq, if_neg (by decide), hreg]
  refine ⟨reg, hbuild, ?_⟩
  intro h
  have hle := (exactlyOnce_iff_le_one hbuild).mp h 1 0
  have htwo : timesNamed twice 1 0 = 2 := by decide
  omega

end Flowgen.Flow
