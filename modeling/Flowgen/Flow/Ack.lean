/-
# `Flowgen.Flow.Ack` — when is the source acknowledged?

A source event carries a completion sized with `downstream_leaves`: the
number of *distinct* leaves below the source, computed on sets by the reverse
pass of `build_dag`.  At run time the completion is counted down once for
every *copy* a leaf handles.  Where two branches re-merge at a task that
forwards what it receives, the leaves below it get a copy for each path, and
the two counts differ.

The question is settled for all accepted task lists at once:

    every reachable state acknowledges only what is handled
      ↔ every leaf below the source is reached along exactly one path

The flows considered are those in which every task forwards every event it
receives: the steps of `Forwards`.  Any of the other steps ends a journey
early, and is looked at in `Flow.Journey`.

* `←`: the paths to leaves are as many as the leaves, so when the count is
  spent every copy is accounted for.
* `→`: all copies can be driven to the leaves (`exists_run_to_final`).  If
  acknowledging were sound, no leaf could handle a copy after the last
  expected one, so the paths are at most as many as the leaves.
-/
import Flowgen.Flow.Account

namespace Flowgen.Flow

open Flowgen.Lib

variable {V : Type}

/-- Each task forwards what it receives; no receiver is dropped. -/
def Forwards (_ : State V) : Act V → Prop
  | .forward .. => True
  | .dispatch .. => True
  | .branch .. => True
  | _ => False

instance (s : State V) : ∀ a : Act V, Decidable (Forwards s a)
  | .forward .. => isTrue trivial
  | .dispatch .. => isTrue trivial
  | .branch .. => isTrue trivial
  | .filter .. => isFalse id
  | .iterate .. => isFalse id
  | .fanInDone .. => isFalse id
  | .fail .. => isFalse id
  | .close .. => isFalse id

/-- If the source has its answer, every copy has been handled at every leaf it
gets to, and no leaf is left out. -/
def AckSound (G : Dag) (src : Nat) (s : State V) : Prop :=
  s.completion.delivered.isSome →
    s.copies = [] ∧
      ∀ ℓ ∈ G.leafSet src, s.handled.count ℓ = G.copies ℓ src ∧ 0 < s.handled.count ℓ

/-- What holds while every task forwards: all receivers are there, no copy has
failed, and journeys end at leaves only. -/
structure Flowing (G : Dag) (s : State V) : Prop where
  closed : s.closed = []
  sound : ∀ c ∈ s.copies, c.error = false
  moving : ∀ c ∈ s.copies, c.loc.nodes ≠ [] ∧ ∀ i, c.loc ≠ .fanIn i
  endings : s.endings = s.handled.map (⟨·, 1⟩)
  leaves : ∀ ℓ ∈ s.handled, G.Leaf ℓ

variable {reg : TaskRegistry} {G : Dag} {src L : Nat} {s t : State V} {c : Copy}

theorem flowing_start : Flowing G (.start reg src : State V) where
  closed := rfl
  sound := by simp [State.start]
  moving := by simp [State.start, Loc.nodes]
  endings := rfl
  leaves := by simp [State.start]

theorem flowing_take (h : Flowing G s) (ht : s.take c = some t) : Flowing G t := by
  obtain ⟨_, rfl⟩ := take_eq_some ht
  exact ⟨h.closed, fun d hd => h.sound d (List.mem_of_mem_erase hd),
    fun d hd => h.moving d (List.mem_of_mem_erase hd), h.endings, h.leaves⟩

theorem flowing_put (h : Flowing G s) (hc : c.error = false)
    (hm : c.loc.nodes ≠ [] ∧ ∀ i, c.loc ≠ .fanIn i) : Flowing G (s.put c) where
  closed := h.closed
  sound := List.forall_mem_cons.mpr ⟨hc, h.sound⟩
  moving := List.forall_mem_cons.mpr ⟨hm, h.moving⟩
  endings := h.endings
  leaves := h.leaves

theorem flowing_leafDone {i : Nat} {r : CompletionResult V} (h : Flowing G s) (hi : G.Leaf i) :
    Flowing G (s.leafDone i r) where
  closed := h.closed
  sound := h.sound
  moving := h.moving
  endings := by simp [State.leafDone, State.charge, h.endings]
  leaves := List.forall_mem_cons.mpr ⟨hi, h.leaves⟩

theorem channel_moving (ch : Channel) : ch.loc.nodes ≠ [] ∧ ∀ i, ch.loc ≠ .fanIn i := by
  cases ch <;> simp [Channel.loc, Loc.nodes]

/-- With all receivers there, `fan_out` keeps every branch. -/
theorem fanOut_eq {p : Nat} {e : Bool} (hc : s.closed = []) (hb : reg.dispatchers p ≠ []) :
    fanOut reg s p e = s.put ⟨.fanning p (reg.dispatchers p), e⟩ := by
  obtain ⟨b, bs, hbs⟩ := List.exists_cons_of_ne_nil hb
  simp [fanOut, hc, hbs, State.put]

theorem fanOutSend_eq {p : Nat} {b : Channel} {rest : List Channel} {e : Bool}
    (hc : s.closed = []) : fanOutSend s p b rest e =
      (if rest.isEmpty then s else s.put ⟨.fanning p rest, e⟩).put ⟨b.loc, e⟩ := by
  unfold fanOutSend
  split <;> simp [State.send, State.put, hc]

/-! ## What a forwarding step does

One lemma for each kind of step: from a copy that is there, the step is
enabled, and this is its result. -/

/-- A copy that may be moved, taken out of the state. -/
def State.without (s : State V) (c : Copy) : State V := { s with copies := s.copies.erase c }

theorem flowing_without (h : Flowing G s) (hc : c ∈ s.copies) : Flowing G (s.without c) :=
  flowing_take h (take_of_mem hc)

theorem step_forward_leaf {i : Nat} (payload : Option V) (hw : Wired reg G)
    (hc : ⟨.inbound i, false⟩ ∈ s.copies) (hi : G.Leaf i) :
    step reg s (.forward i false payload)
      = some ((s.without ⟨.inbound i, false⟩).leafDone i (.ok payload)) := by
  have hout : reg.outputTx i = none := (hw.outputTx i).trans (outputOf_eq_none.mpr hi)
  simp [step, takesUp, take_of_mem hc, hout, State.without]

theorem step_forward_send {i : Nat} {ch : Channel} (payload : Option V) (hf : s.closed = [])
    (hc : ⟨.inbound i, false⟩ ∈ s.copies) (hch : reg.outputTx i = some ch) :
    step reg s (.forward i false payload)
      = some ((s.without ⟨.inbound i, false⟩).put ⟨ch.loc, false⟩) := by
  simp [step, takesUp, take_of_mem hc, hch, State.send, hf, State.without]

theorem step_dispatch {p : Nat} (hw : Wired reg G) (hf : s.closed = [])
    (hc : ⟨.dispatcher p, false⟩ ∈ s.copies) (hp : 2 ≤ (G.children p).length) :
    step reg s (.dispatch p false) = some
      ((s.without ⟨.dispatcher p, false⟩).put ⟨.fanning p ((G.children p).map .inbound), false⟩) := by
  have hb : reg.dispatchers p = (G.children p).map .inbound :=
    (hw.branches p).trans (branchesOf_eq hp)
  have hne : reg.dispatchers p ≠ [] := by
    rw [hb, ne_eq, List.map_eq_nil_iff]
    exact not_leaf_of_two hp
  have := fanOut_eq (s := s.without ⟨.dispatcher p, false⟩) (e := false) hf hne
  rw [hb] at this
  simp only [step, take_of_mem hc]
  exact congrArg some this

theorem step_branch {p : Nat} {b : Channel} {rest : List Channel} (hf : s.closed = [])
    (hc : ⟨.fanning p (b :: rest), false⟩ ∈ s.copies) :
    step reg s (.branch p (b :: rest) false) = some
      ((if rest.isEmpty then s.without ⟨.fanning p (b :: rest), false⟩
        else (s.without ⟨.fanning p (b :: rest), false⟩).put ⟨.fanning p rest, false⟩).put
          ⟨b.loc, false⟩) := by
  have := @fanOutSend_eq V (s.without ⟨.fanning p (b :: rest), false⟩) p b rest false hf
  simp only [step, take_of_mem hc]
  exact congrArg some this

/-- A forwarding step takes a copy that is there and moves it on. -/
theorem forwards_cases {a : Act V} (hw : Wired reg G) (hu : Underway G src L [] s)
    (h : Flowing G s) (ha : Forwards s a) (hs : step reg s a = some t) :
    (∃ i payload, ⟨.inbound i, false⟩ ∈ s.copies ∧ G.Leaf i ∧
      t = (s.without ⟨.inbound i, false⟩).leafDone i (.ok payload)) ∨
    ∃ c ∈ s.copies, ∃ u : State V, (u = s.without c ∨
        ∃ p rest, rest ≠ [] ∧ u = (s.without c).put ⟨.fanning p rest, false⟩) ∧
      ∃ d : Copy, d.error = false ∧ d.loc.nodes ≠ [] ∧ (∀ i, d.loc ≠ .fanIn i) ∧ t = u.put d := by
  cases a with
  | forward i e payload =>
      simp only [step] at hs
      split at hs
      · obtain ⟨u, hu', _⟩ := Option.bind_eq_some_iff.mp hs
        have hc := (take_eq_some hu').1
        obtain rfl : e = false := h.sound _ hc
        rename_i htk
        have hs' : step reg s (.forward i false payload) = some t := by
          simp only [step, htk, if_true]
          exact hs
        cases hch : reg.outputTx i with
        | none =>
            have hi : G.Leaf i := outputOf_eq_none.mp ((hw.outputTx i).symm.trans hch)
            rw [step_forward_leaf payload hw hc hi] at hs'
            exact Or.inl ⟨i, payload, hc, hi, (Option.some.inj hs').symm⟩
        | some ch =>
            rw [step_forward_send payload h.closed hc hch] at hs'
            exact Or.inr ⟨_, hc, _, Or.inl rfl, _, rfl, (channel_moving ch).1,
              (channel_moving ch).2, (Option.some.inj hs').symm⟩
      · cases hs
  | dispatch p e =>
      obtain ⟨u, hu', _⟩ := Option.bind_eq_some_iff.mp hs
      have hc := (take_eq_some hu').1
      obtain rfl : e = false := h.sound _ hc
      have hp : 2 ≤ (G.children p).length := (hu.copies _ hc).2
      rw [step_dispatch hw h.closed hc hp] at hs
      refine Or.inr ⟨_, hc, _, Or.inl rfl, _, rfl, ?_, by simp, (Option.some.inj hs).symm⟩
      simpa [Loc.nodes] using not_leaf_of_two hp
  | branch p rest e =>
      cases rest with
      | nil => cases hs
      | cons b rest =>
          obtain ⟨u, hu', _⟩ := Option.bind_eq_some_iff.mp hs
          have hc := (take_eq_some hu').1
          obtain rfl : e = false := h.sound _ hc
          rw [step_branch h.closed hc] at hs
          refine Or.inr ⟨_, hc, _, ?_, _, rfl, (channel_moving b).1, (channel_moving b).2,
            (Option.some.inj hs).symm⟩
          cases rest with
          | nil => exact Or.inl rfl
          | cons b' rest => exact Or.inr ⟨p, b' :: rest, by simp, rfl⟩
  | _ => exact ha.elim

theorem flowing_step {a : Act V} (hw : Wired reg G) (hu : Underway G src L [] s)
    (h : Flowing G s) (ha : Forwards s a) (hs : step reg s a = some t) : Flowing G t := by
  obtain ⟨i, payload, hc, hi, rfl⟩ | ⟨c, hc, u, hu', d, hd, hn, hf, rfl⟩ :=
    forwards_cases hw hu h ha hs
  · exact flowing_leafDone (flowing_without h hc) hi
  · refine flowing_put ?_ hd ⟨hn, hf⟩
    rcases hu' with rfl | ⟨p, rest, hr, rfl⟩
    · exact flowing_without h hc
    · exact flowing_put (flowing_without h hc) rfl ⟨by simpa [Loc.nodes] using hr, by simp⟩

theorem flowing_of_reachable (hw : Wired reg G) (hsrc : src < G.size)
    (h : (pipeline V reg src).ReachableBy Forwards s) :
    Underway G src (max (reg.leafCount src) 1) [] s ∧ Flowing G s := by
  refine h.invariant (I := fun s => Underway G src _ [] s ∧ Flowing G s) ?_ ?_
  · rintro _ rfl
    exact ⟨underway_start hsrc, flowing_start⟩
  · intro _ _ _ hi ha hs
    exact ⟨underway_step hw hi.1 hs, flowing_step hw hi.1 hi.2 ha hs⟩

/-! ## Counting copies at leaves -/

theorem onLeaves_leaf : OnLeaves G fun j => if G.Leaf j then 1 else 0 := fun _ hi => if_neg hi

theorem onLeaves_single {ℓ : Nat} (hℓ : G.Leaf ℓ) : OnLeaves G fun j => if j = ℓ then 1 else 0 :=
  fun j hi => if_neg fun he : j = ℓ => hi (he ▸ hℓ)

/-- A weight counted over what was handled, leaf by leaf. -/
theorem weigh_handled {k : Nat → Nat} (h : Flowing G s) :
    weigh G k (s.endings.map (·.point)) = (s.handled.map k).sum := by
  rw [h.endings, List.map_map, weigh]
  congr 1
  simp only [Function.comp_def, List.map_map]
  exact List.map_congr_left fun ℓ hℓ => Dag.total_leaf k (h.leaves ℓ hℓ)

theorem charged_eq (h : Flowing G s) : s.charged = s.handled.length := by
  simp [State.charged, h.endings, Function.comp_def]

/-- What is still on its way, and what was handled, are all the paths. -/
theorem arrivals_account (hu : Underway G src L [] s) (h : Flowing G s) :
    (s.copies.map fun c => weigh G (fun j => if G.Leaf j then 1 else 0) c.loc.nodes).sum
      + s.handled.length = G.arrivals src := by
  have hacc := hu.account _ onLeaves_leaf
  rw [weigh_nil, Nat.zero_add, State.account, weigh_handled h] at hacc
  have hone : s.handled.map (fun j => if G.Leaf j then 1 else 0) = s.handled.map fun _ => 1 :=
    List.map_congr_left fun ℓ hℓ => if_pos (h.leaves ℓ hℓ)
  rw [hone] at hacc
  simpa [Dag.arrivals] using hacc

/-- Every copy still gets to some leaf. -/
theorem weigh_pos (h : Flowing G s) (hc : c ∈ s.copies) :
    0 < weigh G (fun j => if G.Leaf j then 1 else 0) c.loc.nodes := by
  obtain ⟨n, ns, hns⟩ := List.exists_cons_of_ne_nil (h.moving c hc).1
  rw [hns, weigh_cons]
  have := (Dag.card_leafSet_pos (G := G) (i := n)).trans_le (Dag.card_le_arrivals n)
  exact Nat.add_pos_left this _

theorem copies_eq_nil (hu : Underway G src L [] s) (h : Flowing G s)
    (hall : G.arrivals src ≤ s.handled.length) : s.copies = [] := by
  have hacc := arrivals_account hu h
  have h0 : (s.copies.map fun c =>
    weigh G (fun j => if G.Leaf j then 1 else 0) c.loc.nodes).sum = 0 := by omega
  refine List.eq_nil_iff_forall_not_mem.mpr fun c hc => ?_
  have := List.sum_eq_zero_iff.mp h0 _ (List.mem_map_of_mem hc)
  have := weigh_pos h hc
  omega

theorem sum_map_ite_count (ℓ : Nat) (l : List Nat) :
    (l.map fun j => if j = ℓ then 1 else 0).sum = l.count ℓ := by
  induction l with
  | nil => rfl
  | cons a l ih =>
      rw [List.map_cons, List.sum_cons, ih, List.count_cons]
      simp only [beq_iff_eq]
      omega

/-- With no copy left, each leaf has handled one copy for every path to it. -/
theorem count_handled {ℓ : Nat} (hu : Underway G src L [] s) (h : Flowing G s)
    (hnil : s.copies = []) (hℓ : G.Leaf ℓ) : s.handled.count ℓ = G.copies ℓ src := by
  have hacc := hu.account _ (onLeaves_single hℓ)
  rw [weigh_nil, Nat.zero_add, State.account, weigh_handled h, hnil, sum_map_ite_count] at hacc
  simpa [Dag.copies] using hacc

theorem acked_iff (hu : Underway G src L [] s) (h : Flowing G s) :
    s.completion.delivered.isSome ↔ L ≤ s.handled.length := by
  rw [CompletionState.delivered_isSome_iff, hu.remaining, charged_eq h]
  omega

/-! ## All copies can be driven to the leaves -/

/-- What it costs to take a copy in front of `i` to all the leaves below. -/
def price (G : Dag) (i : Nat) : Nat := G.total (fun j => 3 + (G.children j).length) i

theorem price_eq (i : Nat) :
    price G i = 3 + (G.children i).length + ((G.children i).map (price G)).sum :=
  Dag.total_eq _ i

/-- A copy costs more than all it turns into. -/
def Loc.cost (G : Dag) : Loc → Nat
  | .inbound i => price G i
  | .dispatcher p => price G p - 1
  | .fanning _ rest => 1 + (rest.map fun ch => price G ch.node + 1).sum
  | .fanIn _ => 0

def State.cost (G : Dag) (s : State V) : Nat := (s.copies.map fun c => c.loc.cost G).sum

theorem cost_without (hc : c ∈ s.copies) :
    s.cost G = c.loc.cost G + (s.without c).cost G :=
  (List.sum_map_erase (fun c : Copy => c.loc.cost G) hc).symm

@[simp] theorem cost_put : (s.put c).cost G = c.loc.cost G + s.cost G := by
  simp [State.cost, State.put]

theorem cost_fanning (p : Nat) (cs : List Nat) :
    (Loc.fanning p (cs.map .inbound)).cost G = 1 + cs.length + (cs.map (price G)).sum := by
  induction cs with
  | nil => rfl
  | cons c cs ih =>
      simp only [Loc.cost, List.map_cons, List.sum_cons, List.length_cons,
        Channel.node_inbound] at ih ⊢
      omega

/-- As long as a copy is left, some forwarding step brings the end nearer. -/
theorem exists_forwards_step (hw : Wired reg G) (hu : Underway G src L [] s) (h : Flowing G s)
    (hne : s.copies ≠ []) :
    ∃ a t, Forwards s a ∧ step reg s a = some t ∧ t.cost G < s.cost G := by
  obtain ⟨⟨loc, e⟩, hc⟩ := List.exists_mem_of_ne_nil _ hne
  obtain rfl : e = false := h.sound _ hc
  have hcost := cost_without (G := G) hc
  cases loc with
  | inbound i =>
      have hi := price_eq (G := G) i
      cases hch : reg.outputTx i with
      | none =>
          have hleaf : G.Leaf i := outputOf_eq_none.mp ((hw.outputTx i).symm.trans hch)
          refine ⟨.forward i false none, _, trivial, step_forward_leaf none hw hc hleaf, ?_⟩
          show (s.without _).cost G < s.cost G
          simp only [Loc.cost] at hcost
          omega
      | some ch =>
          refine ⟨.forward i false none, _, trivial, step_forward_send none h.closed hc hch, ?_⟩
          rw [cost_put]
          simp only [Loc.cost] at hcost
          rcases outputOf_eq_some ((hw.outputTx i).symm.trans hch) with ⟨c, hcs, rfl⟩ | ⟨h2, rfl⟩
          · simp only [hcs, List.map_cons, List.map_nil, List.sum_cons, List.sum_nil] at hi
            simp only [Channel.loc, Loc.cost]
            omega
          · simp only [Channel.loc, Loc.cost]
            omega
  | dispatcher p =>
      have hp : 2 ≤ (G.children p).length := (hu.copies _ hc).2
      have hi := price_eq (G := G) p
      refine ⟨.dispatch p false, _, trivial, step_dispatch hw h.closed hc hp, ?_⟩
      rw [cost_put, cost_fanning]
      simp only [Loc.cost] at hcost
      omega
  | fanning p rest =>
      have hr := (h.moving _ hc).1
      cases rest with
      | nil => exact absurd rfl hr
      | cons b rest =>
          refine ⟨.branch p (b :: rest) false, _, trivial, step_branch h.closed hc, ?_⟩
          obtain ⟨c, _, rfl⟩ := hu.copies _ hc b List.mem_cons_self
          simp only [Loc.cost, List.map_cons, List.sum_cons, Channel.node_inbound] at hcost
          rw [cost_put]
          cases rest with
          | nil =>
              simp only [List.isEmpty_nil, if_true, Channel.loc, Loc.cost]
              simp only [List.map_nil, List.sum_nil] at hcost
              omega
          | cons b' rest =>
              simp only [List.isEmpty_cons, Bool.false_eq_true, if_false, cost_put]
              simp only [Channel.loc, Loc.cost]
              omega
  | fanIn i => exact absurd rfl ((h.moving _ hc).2 i)

/-- Some forwarding run takes every copy to its leaf. -/
theorem exists_complete_run (hw : Wired reg G) (hsrc : src < G.size) :
    ∃ s : State V, (pipeline V reg src).ReachableBy Forwards s ∧ s.copies = [] := by
  have hrun : ∃ as s, (pipeline V reg src).RunOf Forwards (.start reg src) as s ∧
      (Underway G src (max (reg.leafCount src) 1) [] s ∧ Flowing G s) ∧ s.copies = [] := by
    refine Machine.exists_run_to_final
      (fun s => Underway G src (max (reg.leafCount src) 1) [] s ∧ Flowing G s)
      (fun s => s.copies = []) (fun s => s.cost G) (fun s ⟨hu, hf⟩ hne => ?_)
      (.start reg src) ⟨underway_start hsrc, flowing_start⟩
    obtain ⟨a, t, ha, hs, hlt⟩ := exists_forwards_step hw hu hf hne
    exact ⟨a, t, ha, hs, ⟨underway_step hw hu hs, flowing_step hw hu hf ha hs⟩, hlt⟩
  obtain ⟨as, s, hr, _, hnil⟩ := hrun
  exact ⟨s, ⟨_, as, rfl, hr⟩, hnil⟩

/-- If acknowledging is sound, no copy is handled after the last expected one. -/
theorem handled_le_of_sound (hw : Wired reg G) (hsrc : src < G.size)
    (hsound : ∀ s : State V, (pipeline V reg src).ReachableBy Forwards s → AckSound G src s)
    (h : (pipeline V reg src).ReachableBy Forwards s) :
    s.handled.length ≤ max (reg.leafCount src) 1 := by
  obtain ⟨s₀, as, h0, hr⟩ := h
  induction hr with
  | nil =>
      obtain rfl : s₀ = .start reg src := h0
      exact Nat.zero_le _
  | @snoc as t u a hr ha hs ih =>
      have ht : (pipeline V reg src).ReachableBy Forwards t := ⟨s₀, as, h0, hr⟩
      obtain ⟨hu, hf⟩ := flowing_of_reachable hw hsrc ht
      -- a further copy can only be handled while the source waits
      have hopen : t.handled.length < max (reg.leafCount src) 1 := by
        by_contra hle
        have hnil := (hsound t ht ((acked_iff hu hf).mpr (Nat.le_of_not_lt hle))).1
        obtain ⟨i, _, hc, _⟩ | ⟨c, hc, _⟩ := forwards_cases hw hu hf ha hs
        · rw [hnil] at hc
          exact absurd hc List.not_mem_nil
        · rw [hnil] at hc
          exact absurd hc List.not_mem_nil
      obtain ⟨i, payload, hc, hi, rfl⟩ | ⟨c, hc, v, hv, d, _, _, _, rfl⟩ :=
        forwards_cases hw hu hf ha hs
      · exact hopen
      · rcases hv with rfl | ⟨p, rest, _, rfl⟩
        · exact ih
        · exact ih

/-! ## The answer -/

/-- Acknowledging is sound, in every order in which the tasks handle the
copies, exactly for the flows in which every leaf below the source is reached
along one path. -/
theorem ack_sound_iff {tasks : List TaskType} {parents : List (List Nat)} {reg : TaskRegistry}
    {src : Nat} (V : Type) (hp : resolveParents tasks = .ok parents)
    (hb : buildDag tasks = .ok reg) (hsrc : src < tasks.length) :
    (∀ s : State V, (pipeline V reg src).ReachableBy Forwards s → AckSound (flowDag hp) src s) ↔
      ∀ ℓ ∈ (flowDag hp).leafSet src, (flowDag hp).copies ℓ src = 1 := by
  have hw := buildDag_wired hp hb
  have hsz : src < (flowDag hp).size := by
    rw [← resolveParents_length hp] at hsrc
    exact hsrc
  have hL : max (reg.leafCount src) 1 = ((flowDag hp).leafSet src).card := by
    rw [hw.leafCount src hsz]
    exact max_eq_left Dag.card_leafSet_pos
  rw [← Dag.arrivals_eq_card_iff]
  constructor
  · intro hsound
    obtain ⟨s, hs, hnil⟩ := exists_complete_run (V := V) hw hsz
    obtain ⟨hu, hf⟩ := flowing_of_reachable hw hsz hs
    have hacc := arrivals_account hu hf
    rw [hnil, List.map_nil, List.sum_nil, Nat.zero_add] at hacc
    have := handled_le_of_sound hw hsz hsound hs
    exact le_antisymm (by omega) (Dag.card_le_arrivals src)
  · intro heq s hs hdel
    obtain ⟨hu, hf⟩ := flowing_of_reachable hw hsz hs
    have hlen := (acked_iff hu hf).mp hdel
    have hnil := copies_eq_nil hu hf (by omega)
    refine ⟨hnil, ?_⟩
    intro ℓ hℓ
    have hcount := count_handled hu hf hnil ((Dag.mem_leafSet src).mp hℓ).1
    exact ⟨hcount, hcount ▸ Dag.one_le_copies_of_mem hℓ⟩

/-- In a chain of two tasks the source waits for the second one. -/
theorem ack_sound_chain :
    let chain : List TaskType := [{ name := "src" }, { name := "sink" }]
    ∃ (hp : resolveParents chain = .ok [[], [0]]) (reg : TaskRegistry), buildDag chain = .ok reg ∧
      ∀ s : State Unit, (pipeline Unit reg 0).ReachableBy Forwards s →
        AckSound (flowDag hp) 0 s := by
  intro chain
  have hp : resolveParents chain = .ok [[], [0]] := by decide
  obtain ⟨reg, hb⟩ := (buildDag_ok_iff chain).mpr ⟨_, hp⟩
  have hT : (flowDag hp).Tree := dagOf_tree _ (by decide)
  exact ⟨hp, reg, hb, (ack_sound_iff Unit hp hb (by decide)).mpr fun ℓ hℓ =>
    le_antisymm (hT.copies_le_one ℓ 0) (Dag.one_le_copies_of_mem hℓ)⟩

/-- Two branches re-merge at `merge`, and a third one ends at `audit`: once
`merge` has handled the copies of both branches the source is acknowledged,
and `audit` has handled none. -/
theorem diamond_acked_early :
    let diamond : List TaskType := [{ name := "src" },
      { name := "left", dependsOn := some ["src"] }, { name := "right", dependsOn := some ["src"] },
      { name := "merge", dependsOn := some ["left", "right"] },
      { name := "audit", dependsOn := some ["src"] }]
    ∃ (hp : resolveParents diamond = .ok [[], [0], [0], [1, 2], [0]]) (reg : TaskRegistry)
      (s : State Unit), buildDag diamond = .ok reg ∧ (pipeline Unit reg 0).ReachableBy Forwards s ∧
        s.completion.delivered.isSome ∧ s.handled.count 4 = 0 ∧ ¬ AckSound (flowDag hp) 0 s := by
  intro diamond
  have hp : resolveParents diamond = .ok [[], [0], [0], [1, 2], [0]] := by decide
  have hrun : (buildDag diamond).toOption.any (fun reg =>
      ((pipeline Unit reg 0).exec Forwards (.start reg 0)
        [.forward 0 false none, .dispatch 0 false,
          .branch 0 [.inbound 1, .inbound 2, .inbound 4] false,
          .branch 0 [.inbound 2, .inbound 4] false, .branch 0 [.inbound 4] false,
          .forward 1 false none, .forward 2 false none,
          .forward 3 false none, .forward 3 false none]).any
        fun s => s.completion.delivered.isSome && s.handled.count 4 == 0) = true := by
    decide
  obtain ⟨reg, hb, hrun⟩ := exists_of_buildDag hrun
  obtain ⟨s, hr, hs⟩ := Machine.exists_of_exec hrun
  simp only [Bool.and_eq_true, beq_iff_eq] at hs
  refine ⟨hp, reg, s, hb, ⟨_, _, rfl, hr⟩, hs.1, hs.2, ?_⟩
  intro h
  have hedge : 4 ∈ (flowDag hp).children 0 := by
    show 4 ∈ childrenPerParent [[], [0], [0], [1, 2], [0]] 0
    decide
  have hleaf : (flowDag hp).Leaf 4 := by
    show childrenPerParent [[], [0], [0], [1, 2], [0]] 4 = []
    decide
  have := ((h hs.1).2 4 ((Dag.mem_leafSet 0).mpr ⟨hleaf, .single hedge⟩)).2
  omega

end Flowgen.Flow
