/-
# `Flowgen.Flow.Journey` — what a journey that ends early is charged

A copy need not get to a leaf: a script returns nothing, an `iterate` is given
an empty array, a task fails for good, a branch of a dispatcher is gone.  The
leaves below that point will never see the copy, so they have to be signalled
for where the journey ends, or the source waits for ever.

Here the flow is a tree, and each point stands for its `downstream_leaves`.
Scripts and `iterate` signal for all of them (`exitSignals_length`).  Two
places do not: `forward_failure` signals once when the output channel is
closed, and `fan_out` drops its closed branches without a signal.
`ChargesAll` says of a step that it is neither, and

    every journey is charged in full, and all journeys ended → the source has its answer
      ↔ every step of the run satisfies `ChargesAll`

holds for every run, of all the actions of `pipeline`.
-/
import Flowgen.Flow.Account

namespace Flowgen.Flow

open Flowgen.Lib

variable {V : Type}

/-- The step does not end a journey that is charged too little: no failure at
a closed output below which there is more than one leaf, and no dispatcher
that meets a closed branch. -/
def ChargesAll (reg : TaskRegistry) (s : State V) : Act V → Prop
  | .fail task _ _ =>
      ∀ ch ∈ reg.outputTx task, ch ∈ s.closed → reg.leafCount task = 1
  | .dispatch parent _ => ∀ b ∈ reg.dispatchers parent, b ∉ s.closed
  | .branch _ rest _ => ∀ b ∈ rest.head?, b ∉ s.closed
  | _ => True

instance (reg : TaskRegistry) (s : State V) : ∀ a : Act V, Decidable (ChargesAll reg s a)
  | .fail task _ _ =>
      inferInstanceAs (Decidable (∀ ch ∈ reg.outputTx task, ch ∈ s.closed → reg.leafCount task = 1))
  | .dispatch parent _ => inferInstanceAs (Decidable (∀ b ∈ reg.dispatchers parent, b ∉ s.closed))
  | .branch _ rest _ => inferInstanceAs (Decidable (∀ b ∈ rest.head?, b ∉ s.closed))
  | .forward .. => isTrue trivial
  | .filter .. => isTrue trivial
  | .iterate .. => isTrue trivial
  | .fanInDone .. => isTrue trivial
  | .close .. => isTrue trivial

/-- The ending was signalled for once for each leaf below its point. -/
def Ending.Full (reg : TaskRegistry) (e : Ending) : Prop := e.charge = reg.leafCount e.point

variable {reg : TaskRegistry} {G : Dag} {src L : Nat} {s t : State V}

theorem leafCount_pos (hw : Wired reg G) {i : Nat} (hi : i < G.size) : 0 < reg.leafCount i := by
  rw [hw.leafCount i hi]
  exact Dag.card_leafSet_pos

theorem leafCount_leaf (hw : Wired reg G) {i : Nat} (hi : i < G.size) (hl : G.Leaf i) :
    reg.leafCount i = 1 := by
  rw [hw.leafCount i hi, Dag.leafSet_leaf hl, Finset.card_singleton]

/-- Scripts and `iterate` signal for every leaf below them. -/
theorem exitSignals_length (n : Nat) (payload : Option V) :
    (exitSignals n payload).length = max n 1 := by
  simp only [exitSignals, List.length_cons, List.length_replicate]
  omega

theorem unsignalled_not_full (hw : Wired reg G) {i : Nat} (hi : i < G.size) :
    ¬ Ending.Full reg ⟨i, 0⟩ := fun h => (leafCount_pos hw hi).ne h

theorem not_full_of_mem (hw : Wired reg G) {ps : List Nat} (hps : ∀ p ∈ ps, p < G.size) :
    (∀ e ∈ ps.map (⟨·, 0⟩), Ending.Full reg e) ↔ ps = [] := by
  cases ps with
  | nil => simp
  | cons p ps =>
      refine iff_of_false (fun h => ?_) (List.cons_ne_nil _ _)
      exact unsignalled_not_full hw (hps p List.mem_cons_self) (h _ List.mem_cons_self)

/-! ## The endings a step adds -/

/-- The endings of `t` are those of `s` and some new ones: none is charged too
much, and all of them are charged in full exactly if `P` holds. -/
def Ends (reg : TaskRegistry) (s t : State V) (P : Prop) : Prop :=
  ∃ es, t.endings = es ++ s.endings ∧ (∀ e ∈ es, e.charge ≤ reg.leafCount e.point) ∧
    ((∀ e ∈ es, Ending.Full reg e) ↔ P)

theorem ends_none {P : Prop} (h : t.endings = s.endings) (hP : P) : Ends reg s t P :=
  ⟨[], h, by simp, by simpa using hP⟩

theorem ends_one {P : Prop} {e : Ending} (h : t.endings = e :: s.endings)
    (hle : e.charge ≤ reg.leafCount e.point) (hP : e.Full reg ↔ P) : Ends reg s t P :=
  ⟨[e], h, by simpa using hle, by simpa using hP⟩

theorem Ends.congr {P Q : Prop} (hPQ : P ↔ Q) (h : Ends reg s t P) : Ends reg s t Q := by
  obtain ⟨es, hes, hle, hP⟩ := h
  exact ⟨es, hes, hle, hP.trans hPQ⟩

/-- A journey that is charged in full. -/
theorem ends_full {P : Prop} {e : Ending} (h : t.endings = e :: s.endings)
    (hfull : e.Full reg) (hP : P) : Ends reg s t P :=
  ends_one h hfull.le (iff_of_true hfull hP)

theorem ends_leaf {i : Nat} {r : CompletionResult V} {P : Prop} (hw : Wired reg G)
    (hi : i < G.size) (hch : reg.outputTx i = none) (hP : P) : Ends reg s (s.leafDone i r) P :=
  have hl : G.Leaf i := outputOf_eq_none.mp ((hw.outputTx i).symm.trans hch)
  ends_full rfl (leafCount_leaf hw hi hl).symm hP

theorem ends_forwardFailure {i : Nat} {message : String} (hw : Wired reg G) (hi : i < G.size) :
    Ends reg s (forwardFailure reg s i message)
      (∀ ch ∈ reg.outputTx i, ch ∈ s.closed → reg.leafCount i = 1) := by
  rw [forwardFailure]
  split
  · rename_i ch hch
    split
    · rename_i t ht
      obtain ⟨hopen, rfl⟩ := send_eq_some ht
      refine ends_none rfl fun ch' hch' hcl => ?_
      rw [hch, Option.mem_some_iff] at hch'
      exact absurd (hch' ▸ hcl) hopen
    · rename_i hnone
      have hcl : ch ∈ s.closed := by
        by_contra hopen
        rw [send_of_open hopen] at hnone
        cases hnone
      refine ends_one rfl (leafCount_pos hw hi) ?_
      rw [hch]
      simp [Ending.Full, hcl, eq_comm]
  · rename_i hch
    refine ends_leaf hw hi hch fun ch hch' => ?_
    rw [hch] at hch'
    cases hch'

theorem ends_fanOut {p : Nat} {e : Bool} (hw : Wired reg G) (hp : (Loc.dispatcher p).Placed G) :
    Ends reg s (fanOut reg s p e) (∀ b ∈ reg.dispatchers p, b ∉ s.closed) := by
  obtain ⟨hsz, h2⟩ := hp
  have hb : reg.dispatchers p = (G.children p).map .inbound :=
    (hw.branches p).trans (branchesOf_eq h2)
  rw [fanOut]
  dsimp only
  split
  · rename_i hnone
    refine ends_one rfl (Nat.zero_le _) (iff_of_false (unsignalled_not_full hw hsz) fun hall => ?_)
    -- there are branches, and none of them is open
    obtain ⟨c, hc⟩ := List.exists_mem_of_ne_nil _ (not_leaf_of_two h2)
    have hmem : Channel.inbound c ∈ reg.dispatchers p := hb ▸ List.mem_map_of_mem hc
    have := List.filter_eq_nil_iff.mp hnone _ hmem
    simp only [decide_not, Bool.not_eq_true', decide_eq_false_iff_not, not_not] at this
    exact hall _ hmem this
  · refine ⟨_, rfl, fun e he => ?_, ?_⟩
    · obtain ⟨ch, _, rfl⟩ := List.mem_map.mp he
      exact Nat.zero_le _
    have hps : ∀ q ∈ ((reg.dispatchers p).filter (· ∈ s.closed)).map Channel.node, q < G.size := by
      intro q hq
      obtain ⟨ch, hch, rfl⟩ := List.mem_map.mp hq
      rw [hb] at hch
      obtain ⟨c, hc, rfl⟩ := List.mem_map.mp (List.mem_of_mem_filter hch)
      exact G.bounded hc
    have := not_full_of_mem hw hps
    rw [List.map_map] at this
    refine this.trans ?_
    rw [List.map_eq_nil_iff, List.filter_eq_nil_iff]
    simp

theorem ends_fanOutSend {p : Nat} {b : Channel} {rest : List Channel} {e : Bool}
    (hw : Wired reg G) (hb : (Loc.fanning p (b :: rest)).Placed G) :
    Ends reg s (fanOutSend s p b rest e) (b ∉ s.closed) := by
  obtain ⟨c, hc, rfl⟩ := hb b List.mem_cons_self
  have hput : ∀ u : State V, u = (if rest.isEmpty then s else s.put ⟨.fanning p rest, e⟩) →
      u.endings = s.endings ∧ u.closed = s.closed := by
    rintro u rfl
    split <;> exact ⟨rfl, rfl⟩
  obtain ⟨hend, hcl⟩ := hput _ rfl
  unfold fanOutSend
  dsimp only
  split
  · rename_i t ht
    obtain ⟨hopen, rfl⟩ := send_eq_some ht
    rw [hcl] at hopen
    exact ends_none hend hopen
  · rename_i hnone
    have hclosed : Channel.inbound c ∈ s.closed := by
      by_contra hopen
      rw [send_of_open (hcl ▸ hopen)] at hnone
      cases hnone
    refine ends_one (e := ⟨c, 0⟩) (congrArg _ hend) (Nat.zero_le _) ?_
    exact iff_of_false (unsignalled_not_full hw (G.bounded hc)) (not_not.mpr hclosed)

/-- The journeys that end in a step are charged in full exactly if the step
satisfies `ChargesAll`. -/
theorem ends_step {a : Act V} (hw : Wired reg G) (h : Underway G src L [] s)
    (hs : step reg s a = some t) : Ends reg s t (ChargesAll reg s a) := by
  cases a with
  | forward task error payload =>
      simp only [step] at hs
      split at hs
      · obtain ⟨u, hu, hs⟩ := Option.bind_eq_some_iff.mp hs
        obtain ⟨hc, rfl⟩ := take_eq_some hu
        split at hs
        · obtain ⟨_, rfl⟩ := send_eq_some hs
          exact ends_none rfl trivial
        · rename_i hch
          cases hs
          exact ends_leaf (s := { s with copies := _ }) hw (h.copies _ hc) hch trivial
      · cases hs
  | filter task error payload =>
      simp only [step] at hs
      split at hs
      · obtain ⟨u, hu, hs⟩ := Option.bind_eq_some_iff.mp hs
        obtain ⟨hc, rfl⟩ := take_eq_some hu
        cases hs
        refine ends_full rfl ?_ trivial
        have := leafCount_pos hw (h.copies _ hc)
        simp only [Ending.Full, exitSignals_length]
        omega
      · cases hs
  | iterate task error =>
      simp only [step] at hs
      split at hs
      · obtain ⟨u, hu, hs⟩ := Option.bind_eq_some_iff.mp hs
        obtain ⟨_, rfl⟩ := take_eq_some hu
        cases hs
        exact ends_none rfl trivial
      · cases hs
  | fanInDone task =>
      obtain ⟨u, hu, hs⟩ := Option.bind_eq_some_iff.mp hs
      obtain ⟨hc, rfl⟩ := take_eq_some hu
      cases hs
      refine ends_full rfl ?_ trivial
      have := leafCount_pos hw (h.copies _ hc).1
      simp only [Ending.Full, List.length_replicate]
      omega
  | fail task error message =>
      obtain ⟨u, hu, hs⟩ := Option.bind_eq_some_iff.mp hs
      obtain ⟨hc, rfl⟩ := take_eq_some hu
      cases hs
      exact ends_forwardFailure (s := { s with copies := _ }) hw (h.copies _ hc)
  | dispatch parent error =>
      obtain ⟨u, hu, hs⟩ := Option.bind_eq_some_iff.mp hs
      obtain ⟨hc, rfl⟩ := take_eq_some hu
      cases hs
      exact ends_fanOut (s := { s with copies := _ }) hw (h.copies _ hc)
  | branch parent rest error =>
      cases rest with
      | nil => cases hs
      | cons b rest =>
          obtain ⟨u, hu, hs⟩ := Option.bind_eq_some_iff.mp hs
          obtain ⟨hc, rfl⟩ := take_eq_some hu
          cases hs
          refine Ends.congr ?_ (ends_fanOutSend (s := { s with copies := s.copies.erase _ })
            hw (h.copies _ hc))
          simp [ChargesAll]
  | close ch =>
      cases hs
      exact ends_none rfl trivial

/-- All endings so far are charged in full exactly if all steps satisfied
`ChargesAll`. -/
theorem full_iff_steps {as : List (Act V)} (hw : Wired reg G) (hsrc : src < G.size)
    (hr : (pipeline V reg src).Run (.start reg src) as s) :
    (∀ e ∈ s.endings, Ending.Full reg e) ↔
      (pipeline V reg src).RunOf (ChargesAll reg) (.start reg src) as s := by
  refine hr.iff_steps (I := Underway G src (max (reg.leafCount src) 1) [])
    (P := fun s => ∀ e ∈ s.endings, Ending.Full reg e)
    (underway_start hsrc) (by simp [State.start]) (fun _ _ _ hi hs => underway_step hw hi hs) ?_
  intro s a t hi hs
  obtain ⟨es, hes, _, hiff⟩ := ends_step hw hi hs
  rw [hes, List.forall_mem_append, hiff, and_comm]

/-- No journey is charged too much. -/
theorem charge_le {as : List (Act V)} (hw : Wired reg G) (hsrc : src < G.size)
    (hr : (pipeline V reg src).Run (.start reg src) as s) :
    ∀ e ∈ s.endings, e.charge ≤ reg.leafCount e.point := by
  refine (hr.invariant (I := fun s => Underway G src (max (reg.leafCount src) 1) [] s ∧
    ∀ e ∈ s.endings, e.charge ≤ reg.leafCount e.point)
    ⟨underway_start hsrc, by simp [State.start]⟩ ?_).2
  intro s a t hi _ hs
  obtain ⟨es, hes, hle, _⟩ := ends_step hw hi.1 hs
  exact ⟨underway_step hw hi.1 hs, hes ▸ List.forall_mem_append.mpr ⟨hle, hi.2⟩⟩

/-! ## All journeys have ended -/

theorem sum_eq_iff_of_le {α : Type*} {f g : α → Nat} : ∀ {l : List α}, (∀ a ∈ l, f a ≤ g a) →
    ((l.map g).sum ≤ (l.map f).sum ↔ ∀ a ∈ l, f a = g a)
  | [], _ => by simp
  | a :: l, h => by
      obtain ⟨ha, hl⟩ := List.forall_mem_cons.mp h
      have hsum : (l.map f).sum ≤ (l.map g).sum := List.sum_le_sum hl
      rw [List.forall_mem_cons, ← sum_eq_iff_of_le hl]
      simp only [List.map_cons, List.sum_cons]
      omega

/-- In a tree the journeys that ended stand for all the leaves of the source. -/
theorem leaves_of_endings (hw : Wired reg G) (hT : G.Tree) (h : Underway G src L [] s)
    (hnil : s.copies = []) :
    (s.endings.map fun e => reg.leafCount e.point).sum = (G.leafSet src).card := by
  have hacc := h.account (fun j => if G.Leaf j then 1 else 0) fun _ hi => if_neg hi
  rw [weigh_nil, Nat.zero_add, State.account, hnil, List.map_nil, List.sum_nil, Nat.zero_add,
    weigh, List.map_map] at hacc
  rw [← hT.arrivals_eq_card]
  refine Eq.trans (congrArg List.sum ?_) hacc
  refine List.map_congr_left fun e he => ?_
  rw [hw.leafCount _ (h.endings e he), ← hT.arrivals_eq_card]
  rfl

/-- Once every journey has ended, the source has its answer exactly if all of
them were charged in full. -/
theorem delivered_iff_full {as : List (Act V)} (hw : Wired reg G) (hT : G.Tree)
    (hsrc : src < G.size) (hr : (pipeline V reg src).Run (.start reg src) as s)
    (hnil : s.copies = []) :
    s.completion.delivered.isSome ↔ ∀ e ∈ s.endings, Ending.Full reg e := by
  have hu := underway_of_reachable (G := G) hw hsrc ⟨_, as, rfl, hr⟩
  have hsum := leaves_of_endings hw hT hu hnil
  have hL := leafCount_pos hw hsrc
  rw [hw.leafCount src hsrc, ← hsum] at hL
  have hle : s.completion.remaining = 0 ↔
      (s.endings.map fun e => reg.leafCount e.point).sum ≤ (s.endings.map (·.charge)).sum := by
    rw [hu.remaining, hw.leafCount src hsrc, ← hsum, State.charged]
    omega
  rw [CompletionState.delivered_isSome_iff, hle]
  exact sum_eq_iff_of_le (charge_le hw hsrc hr)

/-! ## The answer -/

/-- In a tree, every journey is charged the leaves below the point where it
ended, and the source gets its answer once all journeys have ended, in exactly
the runs whose steps all satisfy `ChargesAll`. -/
theorem journeys_charged_iff {tasks : List TaskType} {parents : List (List Nat)}
    {reg : TaskRegistry} {src : Nat} {as : List (Act V)} {s : State V}
    (hp : resolveParents tasks = .ok parents) (htree : ∀ ps ∈ parents, ps.length ≤ 1)
    (hb : buildDag tasks = .ok reg) (hsrc : src < tasks.length)
    (hr : (pipeline V reg src).Run (.start reg src) as s) :
    ((∀ e ∈ s.endings, e.charge = reg.leafCount e.point) ∧
        (s.copies = [] → s.completion.delivered.isSome)) ↔
      (pipeline V reg src).RunOf (ChargesAll reg) (.start reg src) as s := by
  have hw := buildDag_wired hp hb
  have hT : (flowDag hp).Tree := dagOf_tree _ htree
  have hsz : src < (flowDag hp).size := by
    rw [← resolveParents_length hp] at hsrc
    exact hsrc
  rw [← full_iff_steps hw hsz hr]
  exact ⟨fun h => h.1, fun h => ⟨h, fun hnil => (delivered_iff_full hw hT hsz hr hnil).mpr h⟩⟩

/-- A script that returns nothing in front of two leaves is charged for both,
and the source has its answer. -/
theorem journeys_charged_filter :
    let tasks : List TaskType := [{ name := "src" }, { name := "split", dependsOn := some ["src"] },
      { name := "x", dependsOn := some ["split"] }, { name := "y", dependsOn := some ["split"] }]
    ∃ (reg : TaskRegistry) (as : List (Act Unit)) (s : State Unit), buildDag tasks = .ok reg ∧
      (pipeline Unit reg 0).Run (.start reg 0) as s ∧ s.endings = [⟨1, 2⟩] ∧
        ((∀ e ∈ s.endings, e.charge = reg.leafCount e.point) ∧
          (s.copies = [] → s.completion.delivered.isSome)) := by
  intro tasks
  have hp : resolveParents tasks = .ok [[], [0], [1], [1]] := by decide
  have hrun : (buildDag tasks).toOption.any (fun reg =>
      ((pipeline Unit reg 0).exec (ChargesAll reg) (.start reg 0)
        [.forward 0 false none, .filter 1 false none]).any
        fun s => s.endings == [⟨1, 2⟩]) = true := by
    decide
  obtain ⟨reg, hb, hrun⟩ := exists_of_buildDag hrun
  obtain ⟨s, hr, hs⟩ := Machine.exists_of_exec hrun
  exact ⟨reg, _, s, hb, hr.run, eq_of_beq hs,
    (journeys_charged_iff hp (by decide) hb (by decide) hr.run).mpr hr⟩

/-- The same flow with the receiver of `x` gone: the dispatcher drops that
branch, `y` signals once of two, and the source waits for ever. -/
theorem closed_branch_uncharged :
    let tasks : List TaskType := [{ name := "src" }, { name := "split", dependsOn := some ["src"] },
      { name := "x", dependsOn := some ["split"] }, { name := "y", dependsOn := some ["split"] }]
    resolveParents tasks = .ok [[], [0], [1], [1]] ∧
    ∃ (reg : TaskRegistry) (as : List (Act Unit)) (s : State Unit), buildDag tasks = .ok reg ∧
      (pipeline Unit reg 0).Run (.start reg 0) as s ∧ s.copies = [] ∧
        (⟨2, 0⟩ ∈ s.endings ∧ reg.leafCount 2 = 1) ∧ s.completion.delivered = none := by
  intro tasks
  refine ⟨by decide, ?_⟩
  have hrun : (buildDag tasks).toOption.any (fun reg => reg.leafCount 2 == 1 &&
      ((pipeline Unit reg 0).exec (fun _ _ => True) (.start reg 0)
        [.close (.inbound 2), .forward 0 false none, .forward 1 false none, .dispatch 1 false,
          .branch 1 [.inbound 3] false, .forward 3 false none]).any
        fun s => s.copies == [] && s.endings.contains ⟨2, 0⟩ && s.completion.delivered.isNone)
      = true := by
    decide
  obtain ⟨reg, hb, hrun⟩ := exists_of_buildDag hrun
  obtain ⟨hleaf, hrun⟩ := Bool.and_eq_true_iff.mp hrun
  obtain ⟨s, hr, hs⟩ := Machine.exists_of_exec hrun
  simp only [Bool.and_eq_true, beq_iff_eq, List.contains_iff_mem, Option.isNone_iff_eq_none] at hs
  exact ⟨reg, _, s, hb, hr, hs.1.1, ⟨hs.1.2, eq_of_beq hleaf⟩, hs.2⟩

/-- A failure in front of a closed dispatcher signals once for two leaves. -/
theorem closed_output_charged_once :
    let tasks : List TaskType := [{ name := "src" }, { name := "split", dependsOn := some ["src"] },
      { name := "x", dependsOn := some ["split"] }, { name := "y", dependsOn := some ["split"] }]
    ∃ (reg : TaskRegistry) (as : List (Act Unit)) (s : State Unit), buildDag tasks = .ok reg ∧
      (pipeline Unit reg 0).Run (.start reg 0) as s ∧ s.copies = [] ∧
        s.endings = [⟨1, 1⟩] ∧ reg.leafCount 1 = 2 ∧ s.completion.delivered = none := by
  intro tasks
  have hrun : (buildDag tasks).toOption.any (fun reg => reg.leafCount 1 == 2 &&
      ((pipeline Unit reg 0).exec (fun _ _ => True) (.start reg 0)
        [.close (.dispatcher 1), .forward 0 false none, .fail 1 false "failed"]).any
        fun s => s.copies == [] && s.endings == [⟨1, 1⟩] && s.completion.delivered.isNone)
      = true := by
    decide
  obtain ⟨reg, hb, hrun⟩ := exists_of_buildDag hrun
  obtain ⟨hleaf, hrun⟩ := Bool.and_eq_true_iff.mp hrun
  obtain ⟨s, hr, hs⟩ := Machine.exists_of_exec hrun
  simp only [Bool.and_eq_true, beq_iff_eq, Option.isNone_iff_eq_none] at hs
  exact ⟨reg, _, s, hb, hr, hs.1.1, hs.1.2, eq_of_beq hleaf, hs.2⟩

end Flowgen.Flow
