/-
# `Flowgen.Flow.Account` — nothing that entered the flow is unaccounted for

Every copy of a source event stands for the leaves it can still get to, once
for each path.  Whatever a task or a dispatcher does, these leaves are passed
on: to the copies it sends, or to the journey that ends there.  `Underway`
says so, together with how far the completion has been counted down, and
`underway_step` is the one lemma about `step` from which everything said
about acknowledgements is derived.

The rules below take a copy into hand and spend it again.  `Underway G src L
ns s` has in `ns` the nodes that are in hand: a step starts with `[]`, `take`
puts the nodes of a copy there, and every way of spending them removes some.
-/
import Flowgen.Flow.Pipeline

namespace Flowgen.Flow

open Flowgen.Lib

variable {V : Type}

/-- The nodes a copy at this place is on its way to. -/
def Loc.nodes : Loc → List Nat
  | .inbound i => [i]
  | .dispatcher p => [p]
  | .fanning _ rest => rest.map Channel.node
  | .fanIn i => [i]

/-- Copies are only where the wiring can have put them. -/
def Loc.Placed (G : Dag) : Loc → Prop
  | .inbound i => i < G.size
  | .dispatcher p => p < G.size ∧ 2 ≤ (G.children p).length
  | .fanning p rest => ∀ ch ∈ rest, ∃ c ∈ G.children p, ch = .inbound c
  | .fanIn i => i < G.size ∧ ¬ G.Leaf i

/-- The weight of the paths that start in these nodes. -/
def weigh (G : Dag) (k : Nat → Nat) (ns : List Nat) : Nat := (ns.map (G.total k)).sum

@[simp] theorem weigh_nil {G : Dag} {k : Nat → Nat} : weigh G k [] = 0 := rfl

@[simp] theorem weigh_cons {G : Dag} {k : Nat → Nat} {n : Nat} {ns : List Nat} :
    weigh G k (n :: ns) = G.total k n + weigh G k ns := by
  simp [weigh]

@[simp] theorem weigh_append {G : Dag} {k : Nat → Nat} {ns ms : List Nat} :
    weigh G k (ns ++ ms) = weigh G k ns + weigh G k ms := by
  simp [weigh]

/-- The weight of all copies, and of all journeys that ended. -/
def State.account (G : Dag) (k : Nat → Nat) (s : State V) : Nat :=
  (s.copies.map fun c => weigh G k c.loc.nodes).sum + weigh G k (s.endings.map (·.point))

/-- How often the completion has been signalled. -/
def State.charged (s : State V) : Nat := (s.endings.map (·.charge)).sum

/-- Weights that count leaves only. -/
def OnLeaves (G : Dag) (k : Nat → Nat) : Prop := ∀ i, ¬ G.Leaf i → k i = 0

/-- The journeys of one event from `src`, with the nodes `ns` in hand. -/
structure Underway (G : Dag) (src L : Nat) (ns : List Nat) (s : State V) : Prop where
  copies : ∀ c ∈ s.copies, c.loc.Placed G
  endings : ∀ e ∈ s.endings, e.point < G.size
  remaining : s.completion.remaining = L - s.charged
  account : ∀ k, OnLeaves G k → weigh G k ns + s.account G k = G.total k src

variable {reg : TaskRegistry} {G : Dag} {src L : Nat} {ns : List Nat} {s t : State V}

/-! ## The rules -/

theorem underway_take {c : Copy} (h : Underway G src L [] s) (ht : s.take c = some t) :
    c.loc.Placed G ∧ Underway G src L c.loc.nodes t := by
  obtain ⟨hc, rfl⟩ := take_eq_some ht
  refine ⟨h.copies c hc, fun d hd => h.copies d (List.mem_of_mem_erase hd), h.endings,
    h.remaining, ?_⟩
  intro k hk
  have hsum := List.sum_map_erase (fun c : Copy => weigh G k c.loc.nodes) hc
  have hacc := h.account k hk
  simp only [State.account, weigh_nil] at hacc ⊢
  omega

theorem underway_put {c : Copy} (h : Underway G src L (c.loc.nodes ++ ns) s)
    (hc : c.loc.Placed G) : Underway G src L ns (s.put c) := by
  refine ⟨?_, h.endings, h.remaining, ?_⟩
  · intro d hd
    rcases List.mem_cons.mp hd with rfl | hd
    · exact hc
    · exact h.copies d hd
  · intro k hk
    have hacc := h.account k hk
    simp only [State.account, weigh_append, State.put, List.map_cons, List.sum_cons] at hacc ⊢
    omega

theorem underway_send {ch : Channel} {e : Bool} (h : Underway G src L (ch.node :: ns) s)
    (hch : ch.loc.Placed G) (ht : s.send ch e = some t) : Underway G src L ns t := by
  obtain ⟨_, rfl⟩ := send_eq_some ht
  cases ch <;> exact underway_put h hch

/-- A journey ends here, with these signals. -/
theorem underway_charge {i : Nat} {rs : List (CompletionResult V)}
    (h : Underway G src L (i :: ns) s) (hi : i < G.size) :
    Underway G src L ns (s.charge i rs) := by
  refine ⟨h.copies, ?_, ?_, ?_⟩
  · intro e he
    rcases List.mem_cons.mp he with rfl | he
    · exact hi
    · exact h.endings e he
  · have := h.remaining
    simp only [State.charge, State.charged, CompletionState.remaining_signals, List.map_cons,
      List.sum_cons] at this ⊢
    omega
  · intro k hk
    have hacc := h.account k hk
    simp only [State.account, State.charge, List.map_cons, weigh_cons] at hacc ⊢
    omega

theorem underway_leafDone {i : Nat} {r : CompletionResult V}
    (h : Underway G src L (i :: ns) s) (hi : i < G.size) :
    Underway G src L ns (s.leafDone i r) :=
  have hc : Underway G src L ns (s.charge i [r]) := underway_charge h hi
  ⟨hc.copies, hc.endings, hc.remaining, hc.account⟩

/-- Journeys end here, and nothing is signalled for them. -/
theorem underway_lost (ps : List Nat) (h : Underway G src L (ps ++ ns) s)
    (hps : ∀ p ∈ ps, p < G.size) :
    Underway G src L ns { s with endings := ps.map (⟨·, 0⟩) ++ s.endings } := by
  refine ⟨h.copies, ?_, ?_, ?_⟩
  · intro e he
    rcases List.mem_append.mp he with he | he
    · obtain ⟨p, hp, rfl⟩ := List.mem_map.mp he
      exact hps p hp
    · exact h.endings e he
  · have := h.remaining
    simpa [State.charged, Function.comp_def] using this
  · intro k hk
    have hacc := h.account k hk
    simp only [State.account, weigh_append, List.map_append, List.map_map, Function.comp_def,
      List.map_id'] at hacc ⊢
    omega

theorem Underway.close (h : Underway G src L ns s) (chs : List Channel) :
    Underway G src L ns { s with closed := chs ++ s.closed } :=
  ⟨h.copies, h.endings, h.remaining, h.account⟩

/-- What is in hand only matters through its leaves. -/
theorem Underway.swap {ms : List Nat} (h : Underway G src L ns s)
    (heq : ∀ k, OnLeaves G k → weigh G k ms = weigh G k ns) : Underway G src L ms s :=
  ⟨h.copies, h.endings, h.remaining, fun k hk => (heq k hk).symm ▸ h.account k hk⟩

theorem weigh_children {k : Nat → Nat} {i : Nat} (hk : OnLeaves G k) (hi : ¬ G.Leaf i) :
    weigh G k (G.children i) = G.total k i := by
  rw [Dag.total_eq k i, hk i hi, Nat.zero_add, weigh]

theorem lt_size_of_children {i : Nat} (h : ¬ G.Leaf i) : i < G.size := by
  obtain ⟨c, hc⟩ := List.exists_mem_of_ne_nil _ h
  exact (G.forward hc).trans (G.bounded hc)

theorem not_leaf_of_two {i : Nat} (h : 2 ≤ (G.children i).length) : ¬ G.Leaf i := fun hl => by
  rw [hl] at h
  cases h

/-- What a task sends on has the leaves of the task. -/
theorem underway_output {i : Nat} {ch : Channel} (hw : Wired reg G)
    (hch : reg.outputTx i = some ch) (h : Underway G src L (i :: ns) s) :
    ch.loc.Placed G ∧ Underway G src L (ch.node :: ns) s := by
  rw [hw.outputTx] at hch
  rcases outputOf_eq_some hch with ⟨c, hc, rfl⟩ | ⟨h2, rfl⟩
  · have hmem : c ∈ G.children i := by simp [hc]
    refine ⟨G.bounded hmem, h.swap fun k hk => ?_⟩
    have := weigh_children hk (List.ne_nil_of_mem hmem)
    rw [hc] at this
    simpa [Channel.node] using this
  · exact ⟨⟨lt_size_of_children (not_leaf_of_two h2), h2⟩, h⟩

/-! ## One step -/

theorem underway_forwardFailure {i : Nat} {message : String} (hw : Wired reg G)
    (h : Underway G src L [i] s) (hi : i < G.size) :
    Underway G src L [] (forwardFailure reg s i message) := by
  rw [forwardFailure]
  split
  · rename_i ch hch
    obtain ⟨hpl, hch⟩ := underway_output hw hch h
    split
    · rename_i t ht
      exact underway_send hch hpl ht
    · exact underway_charge h hi
  · exact underway_leafDone h hi

theorem weigh_filter {α : Type*} {k : Nat → Nat} (f : α → Nat) (p : α → Bool) (l : List α) :
    weigh G k ((l.filter p).map f) + weigh G k ((l.filter (!p ·)).map f) = weigh G k (l.map f) := by
  induction l with
  | nil => rfl
  | cons a l ih =>
      cases h : p a <;> simp [h] <;> omega

theorem underway_fanOut {p : Nat} {e : Bool} (hw : Wired reg G) (h : Underway G src L [p] s)
    (hp : (Loc.dispatcher p).Placed G) : Underway G src L [] (fanOut reg s p e) := by
  obtain ⟨hsz, h2⟩ := hp
  have hb : reg.dispatchers p = (G.children p).map .inbound :=
    (hw.branches p).trans (branchesOf_eq h2)
  rw [fanOut]
  dsimp only
  split
  · exact (underway_lost [p] h (by simpa using hsz)).close [_]
  · rename_i b bs hopen
    have hmem : ∀ ch ∈ reg.dispatchers p, ∃ c ∈ G.children p, ch = .inbound c := by
      rw [hb]
      rintro ch hch
      obtain ⟨c, hc, rfl⟩ := List.mem_map.mp hch
      exact ⟨c, hc, rfl⟩
    -- the children split into the branches still open and those that are gone
    have hsplit : Underway G src L ((b :: bs).map Channel.node ++
        ((reg.dispatchers p).filter (· ∈ s.closed)).map Channel.node) s := by
      refine h.swap fun k hk => ?_
      have hf := weigh_filter (G := G) (k := k) Channel.node (· ∉ s.closed) (reg.dispatchers p)
      rw [hopen] at hf
      simp only [decide_not, Bool.not_not] at hf
      rw [weigh_append, hf, hb, List.map_map, weigh_cons, weigh_nil,
        ← weigh_children hk (not_leaf_of_two h2)]
      simp [Function.comp_def, Channel.node]
    have hput := underway_put (c := ⟨.fanning p (b :: bs), e⟩) hsplit fun ch hch =>
      hmem ch (List.mem_of_mem_filter (hopen ▸ hch))
    rw [← List.append_nil (List.map Channel.node _)] at hput
    have := underway_lost _ hput fun q hq => by
      obtain ⟨ch, hch, rfl⟩ := List.mem_map.mp hq
      obtain ⟨c, hc, rfl⟩ := hmem ch (List.mem_of_mem_filter hch)
      exact G.bounded hc
    rw [List.map_map] at this
    exact this

theorem underway_fanOutSend {p : Nat} {b : Channel} {rest : List Channel} {e : Bool}
    (h : Underway G src L ((b :: rest).map Channel.node) s)
    (hb : (Loc.fanning p (b :: rest)).Placed G) :
    Underway G src L [] (fanOutSend s p b rest e) := by
  obtain ⟨c, hc, rfl⟩ := hb b List.mem_cons_self
  have hrest : Underway G src L [c]
      (if rest.isEmpty then s else s.put ⟨.fanning p rest, e⟩) := by
    cases rest with
    | nil => simpa [Channel.node] using h
    | cons b' rest =>
        simp only [List.isEmpty_cons, Bool.false_eq_true, if_false]
        refine underway_put (h.swap fun k _ => ?_) fun ch hch => hb ch (List.mem_cons_of_mem _ hch)
        simp only [Loc.nodes, weigh_append, List.map_cons, weigh_cons, weigh_nil, Channel.node]
        omega
  unfold fanOutSend
  dsimp only
  split
  · rename_i t ht
    have hnode : Underway G src L [(Channel.inbound c).node] _ := hrest
    exact underway_send hnode (G.bounded hc) ht
  · exact underway_lost [c] hrest (by simpa using G.bounded hc)

/-- Whatever happens in a flow, nothing is unaccounted for. -/
theorem underway_step {a : Act V} (hw : Wired reg G) (h : Underway G src L [] s)
    (hs : step reg s a = some t) : Underway G src L [] t := by
  cases a with
  | forward task error payload =>
      simp only [step] at hs
      split at hs
      · obtain ⟨u, hu, hs⟩ := Option.bind_eq_some_iff.mp hs
        obtain ⟨hpl, hu⟩ := underway_take h hu
        split at hs
        · rename_i ch hch
          obtain ⟨hpl, hu⟩ := underway_output hw hch hu
          exact underway_send hu hpl hs
        · cases hs
          exact underway_leafDone hu hpl
      · cases hs
  | filter task error payload =>
      simp only [step] at hs
      split at hs
      · obtain ⟨u, hu, hs⟩ := Option.bind_eq_some_iff.mp hs
        obtain ⟨hpl, hu⟩ := underway_take h hu
        cases hs
        exact underway_charge hu hpl
      · cases hs
  | iterate task error =>
      simp only [step] at hs
      split at hs
      · rename_i htx
        obtain ⟨u, hu, hs⟩ := Option.bind_eq_some_iff.mp hs
        obtain ⟨hpl, hu⟩ := underway_take h hu
        cases hs
        refine underway_put hu ⟨hpl, fun hl => ?_⟩
        rw [hw.outputTx, outputOf_eq_none.mpr hl] at htx
        simp at htx
      · cases hs
  | fanInDone task =>
      obtain ⟨u, hu, hs⟩ := Option.bind_eq_some_iff.mp hs
      obtain ⟨hpl, hu⟩ := underway_take h hu
      cases hs
      exact underway_charge hu hpl.1
  | fail task error message =>
      obtain ⟨u, hu, hs⟩ := Option.bind_eq_some_iff.mp hs
      obtain ⟨hpl, hu⟩ := underway_take h hu
      cases hs
      exact underway_forwardFailure hw hu hpl
  | dispatch parent error =>
      obtain ⟨u, hu, hs⟩ := Option.bind_eq_some_iff.mp hs
      obtain ⟨hpl, hu⟩ := underway_take h hu
      cases hs
      exact underway_fanOut hw hu hpl
  | branch parent rest error =>
      cases rest with
      | nil => cases hs
      | cons b rest =>
          obtain ⟨u, hu, hs⟩ := Option.bind_eq_some_iff.mp hs
          obtain ⟨hpl, hu⟩ := underway_take h hu
          cases hs
          exact underway_fanOutSend hu hpl
  | close ch =>
      cases hs
      exact h.close [ch]

theorem underway_start (hsrc : src < G.size) :
    Underway G src (max (reg.leafCount src) 1) [] (.start reg src : State V) := by
  refine ⟨?_, by simp [State.start], by simp [State.start, State.charged], ?_⟩
  · intro c hc
    rw [List.mem_singleton.mp hc]
    exact hsrc
  · intro k _
    simp [State.account, State.start, Loc.nodes]

/-- In every state a flow can be in, everything is accounted for. -/
theorem underway_of_reachable {ok : State V → Act V → Prop} (hw : Wired reg G)
    (hsrc : src < G.size) (h : (pipeline V reg src).ReachableBy ok s) :
    Underway G src (max (reg.leafCount src) 1) [] s := by
  refine h.invariant ?_ fun _ _ _ hi _ hs => underway_step hw hi hs
  rintro _ rfl
  exact underway_start hsrc

end Flowgen.Flow
