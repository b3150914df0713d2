/-
# `Flowgen.Lib.Dag` — paths and leaves of a finite acyclic graph

A `Dag` lists the children of every node, and every edge goes to a larger
index below `size`: the nodes are kept in topological order.  Parallel edges
are allowed, so `children` is a list and not a set.

Two ways of counting from a node `i` are kept apart here, because everything
said about acknowledgements is a comparison of the two:

* `leafSet i` — the distinct leaves below `i`;
* `arrivals i` — the paths from `i` down to a leaf, that is, how many times
  something is received at a leaf when every node hands what it receives to
  each of its children.

Both are instances of one recursion, `total`, which sums a node weight over
all paths that start in `i`.  `arrivals_eq_card_iff` says when they agree:
every leaf below `i` is reached along one path only.  In a tree that is
always so (`Tree.arrivals_eq_card`).
-/
import Mathlib

namespace Flowgen.Lib

/-- A finite graph in topological order. -/
structure Dag where
  size : Nat
  children : Nat → List Nat
  forward : ∀ {i c : Nat}, c ∈ children i → i < c
  bounded : ∀ {i c : Nat}, c ∈ children i → c < size

namespace Dag

variable (G : Dag)

/-- A node that hands nothing on. -/
abbrev Leaf (i : Nat) : Prop := G.children i = []

/-- `j` is `i` or lies below it. -/
def Reaches : Nat → Nat → Prop := Relation.ReflTransGen fun i c => c ∈ G.children i

variable {G} {i j c ℓ : Nat}

theorem Reaches.le (h : G.Reaches i j) : i ≤ j := by
  induction h with
  | refl => exact le_rfl
  | tail _ hc ih => exact ih.trans (G.forward hc).le

theorem Reaches.of_child (hc : c ∈ G.children i) (h : G.Reaches c j) : G.Reaches i j :=
  Relation.ReflTransGen.head hc h

theorem reaches_iff : G.Reaches i j ↔ i = j ∨ ∃ c ∈ G.children i, G.Reaches c j := by
  constructor
  · intro h
    rcases Relation.ReflTransGen.cases_head h with rfl | ⟨c, hc, h⟩
    · exact Or.inl rfl
    · exact Or.inr ⟨c, hc, h⟩
  · rintro (rfl | ⟨c, hc, h⟩)
    · exact .refl
    · exact .of_child hc h

variable (G) in
/-- Induction from the leaves up. -/
theorem bottomUp {P : Nat → Prop} (h : ∀ i, (∀ c ∈ G.children i, P c) → P i) : ∀ i, P i := by
  intro i
  induction hn : G.size - i using Nat.strongRecOn generalizing i with
  | ind n ih =>
      refine h i fun c hc => ih (G.size - c) ?_ c rfl
      have := G.forward hc
      have := G.bounded hc
      omega

/-! ## Summing a weight over all paths -/

variable (G) in
/-- The weight of `i` and of all nodes below it, each counted once for every
path from `i` to it. -/
def total (k : Nat → Nat) (i : Nat) : Nat :=
  k i + ((G.children i).attach.map fun c => total k c.1).sum
termination_by G.size - i
decreasing_by
  have := G.forward c.2
  have := G.bounded c.2
  omega

theorem total_eq (k : Nat → Nat) (i : Nat) :
    G.total k i = k i + ((G.children i).map (G.total k)).sum := by
  rw [total, List.attach_map_val (f := G.total k)]

theorem total_leaf (k : Nat → Nat) (h : G.Leaf i) : G.total k i = k i := by
  rw [total_eq, h]
  simp

/-- Only the weights of the nodes below `i` count. -/
theorem total_congr {k k' : Nat → Nat} :
    ∀ i, (∀ j, G.Reaches i j → k j = k' j) → G.total k i = G.total k' i := by
  refine G.bottomUp fun i ih h => ?_
  rw [total_eq, total_eq, h i .refl]
  congr 2
  exact List.map_congr_left fun c hc => ih c hc fun j hj => h j (.of_child hc hj)

theorem total_zero : ∀ i, G.total (fun _ => 0) i = 0 := by
  refine G.bottomUp fun i ih => ?_
  rw [total_eq, List.map_congr_left ih]
  simp

theorem total_add (k k' : Nat → Nat) :
    ∀ i, G.total (fun j => k j + k' j) i = G.total k i + G.total k' i := by
  refine G.bottomUp fun i ih => ?_
  rw [total_eq, total_eq, total_eq, List.map_congr_left ih, List.sum_map_add]
  omega

theorem total_finset_sum (s : Finset Nat) (k : Nat → Nat → Nat) (i : Nat) :
    G.total (fun j => ∑ l ∈ s, k l j) i = ∑ l ∈ s, G.total (k l) i := by
  induction s using Finset.induction_on with
  | empty => simpa using total_zero i
  | insert l s hl ih =>
      simp only [Finset.sum_insert hl]
      rw [total_add (k l) (fun j => ∑ l ∈ s, k l j), ih]

theorem le_total_of_child (k : Nat → Nat) (hc : c ∈ G.children i) :
    G.total k c ≤ G.total k i := by
  rw [total_eq k i]
  exact (List.single_le_sum (fun _ _ => Nat.zero_le _) _ (List.mem_map_of_mem hc)).trans
    (Nat.le_add_left _ _)

theorem weight_le_total (k : Nat → Nat) (h : G.Reaches i j) : k j ≤ G.total k i := by
  induction h using Relation.ReflTransGen.head_induction_on with
  | refl =>
      rw [total_eq]
      exact Nat.le_add_right _ _
  | head hc _ ih => exact ih.trans (le_total_of_child k hc)

/-! ## The distinct leaves below a node -/

variable (G) in
/-- The leaves below `i`, as a set. -/
def leafSet (i : Nat) : Finset Nat :=
  if G.children i = [] then {i}
  else ((G.children i).attach.map fun c => leafSet c.1).foldr (· ∪ ·) ∅
termination_by G.size - i
decreasing_by
  have := G.forward c.2
  have := G.bounded c.2
  omega

theorem mem_foldr_union {α : Type*} (f : α → Finset Nat) (l : List α) :
    ℓ ∈ (l.map f).foldr (· ∪ ·) ∅ ↔ ∃ a ∈ l, ℓ ∈ f a := by
  induction l with
  | nil => simp
  | cons a l ih => simp [ih]

theorem leafSet_leaf (h : G.Leaf i) : G.leafSet i = {i} := by
  rw [leafSet, if_pos h]

theorem leafSet_eq (h : ¬ G.Leaf i) :
    G.leafSet i = ((G.children i).map G.leafSet).foldr (· ∪ ·) ∅ := by
  rw [leafSet, if_neg h, List.attach_map_val (f := G.leafSet)]

theorem mem_leafSet : ∀ i, ℓ ∈ G.leafSet i ↔ G.Leaf ℓ ∧ G.Reaches i ℓ := by
  refine G.bottomUp fun i ih => ?_
  rw [reaches_iff]
  by_cases h : G.Leaf i
  · rw [leafSet_leaf h, Finset.mem_singleton]
    constructor
    · rintro rfl
      exact ⟨h, Or.inl rfl⟩
    · rintro ⟨_, rfl | ⟨c, hc, _⟩⟩
      · rfl
      · rw [h] at hc
        exact absurd hc List.not_mem_nil
  · rw [leafSet_eq h, mem_foldr_union]
    constructor
    · rintro ⟨c, hc, hℓ⟩
      obtain ⟨hleaf, hr⟩ := (ih c hc).mp hℓ
      exact ⟨hleaf, Or.inr ⟨c, hc, hr⟩⟩
    · rintro ⟨hleaf, rfl | ⟨c, hc, hr⟩⟩
      · exact absurd hleaf h
      · exact ⟨c, hc, (ih c hc).mpr ⟨hleaf, hr⟩⟩

theorem leafSet_nonempty : ∀ i, (G.leafSet i).Nonempty := by
  refine G.bottomUp fun i ih => ?_
  by_cases h : G.Leaf i
  · exact ⟨i, by simp [leafSet_leaf h]⟩
  · obtain ⟨c, hc⟩ := List.exists_mem_of_ne_nil _ h
    obtain ⟨ℓ, hℓ⟩ := ih c hc
    obtain ⟨hleaf, hr⟩ := (mem_leafSet c).mp hℓ
    exact ⟨ℓ, (mem_leafSet i).mpr ⟨hleaf, .of_child hc hr⟩⟩

theorem card_leafSet_pos : 0 < (G.leafSet i).card :=
  Finset.card_pos.mpr (leafSet_nonempty i)

/-! ## Counting paths -/

variable (G) in
/-- The number of paths from `i` to `ℓ`. -/
def copies (ℓ i : Nat) : Nat := G.total (fun j => if j = ℓ then 1 else 0) i

variable (G) in
/-- The number of paths from `i` to a leaf. -/
def arrivals (i : Nat) : Nat := G.total (fun j => if G.Leaf j then 1 else 0) i

theorem copies_pos (h : G.Reaches i ℓ) : 0 < G.copies ℓ i := by
  have := weight_le_total (fun j => if j = ℓ then 1 else 0) h
  simpa [copies, Nat.one_le_iff_ne_zero, Nat.pos_iff_ne_zero] using this

theorem copies_eq_zero (h : ¬ G.Reaches i ℓ) : G.copies ℓ i = 0 := by
  have hzero : ∀ j, G.Reaches i j → (if j = ℓ then 1 else 0) = 0 := by
    intro j hj
    have : j ≠ ℓ := fun he => h (he ▸ hj)
    simp [this]
  exact (total_congr i hzero).trans (total_zero i)

theorem arrivals_eq (i : Nat) : G.arrivals i = ∑ ℓ ∈ G.leafSet i, G.copies ℓ i := by
  simp only [arrivals, copies]
  rw [← total_finset_sum]
  refine total_congr i fun j hj => ?_
  rw [Finset.sum_ite_eq]
  exact if_congr ⟨fun h => (mem_leafSet i).mpr ⟨h, hj⟩, fun h => ((mem_leafSet i).mp h).1⟩
    rfl rfl

theorem one_le_copies_of_mem (h : ℓ ∈ G.leafSet i) : 1 ≤ G.copies ℓ i :=
  copies_pos ((mem_leafSet i).mp h).2

theorem card_le_arrivals (i : Nat) : (G.leafSet i).card ≤ G.arrivals i := by
  rw [arrivals_eq, Finset.card_eq_sum_ones]
  exact Finset.sum_le_sum fun _ => one_le_copies_of_mem

/-- The two counts agree exactly when no leaf below `i` is reached twice. -/
theorem arrivals_eq_card_iff (i : Nat) :
    G.arrivals i = (G.leafSet i).card ↔ ∀ ℓ ∈ G.leafSet i, G.copies ℓ i = 1 := by
  rw [arrivals_eq, Finset.card_eq_sum_ones, eq_comm,
    Finset.sum_eq_sum_iff_of_le fun _ => one_le_copies_of_mem]
  exact forall₂_congr fun _ _ => eq_comm

/-! ## Trees -/

variable (G) in
/-- Every node has at most one parent, along at most one edge. -/
structure Tree : Prop where
  nodup : ∀ i, (G.children i).Nodup
  unique : ∀ {i j c : Nat}, c ∈ G.children i → c ∈ G.children j → i = j

/-- Two children of one node have nothing below them in common. -/
theorem Tree.sibling_unique (hT : G.Tree) {c' : Nat} (hc : c ∈ G.children i)
    (hc' : c' ∈ G.children i) (h : G.Reaches c ℓ) (h' : G.Reaches c' ℓ) : c = c' := by
  have key : ∀ {a b : Nat}, a ∈ G.children i → b ∈ G.children i → G.Reaches a b → a = b := by
    intro a b ha hb hab
    rcases Relation.ReflTransGen.cases_tail hab with rfl | ⟨p, hap, hp⟩
    · rfl
    · have := hT.unique hp hb
      subst this
      exact absurd (G.forward ha) (not_lt.mpr (Reaches.le hap))
  have hU : Relator.RightUnique (Function.swap fun i c => c ∈ G.children i) :=
    fun _ _ _ h₁ h₂ => hT.unique h₁ h₂
  have := Relation.ReflTransGen.total_of_right_unique hU
    (Relation.reflTransGen_swap.mpr h) (Relation.reflTransGen_swap.mpr h')
  rcases this with hr | hr
  · exact (key hc' hc (Relation.reflTransGen_swap.mp hr)).symm
  · exact key hc hc' (Relation.reflTransGen_swap.mp hr)

theorem sum_map_le_one {α : Type*} {f : α → Nat} :
    ∀ {l : List α}, l.Nodup → (∀ a ∈ l, f a ≤ 1) →
      (∀ a ∈ l, ∀ b ∈ l, 0 < f a → 0 < f b → a = b) → (l.map f).sum ≤ 1
  | [], _, _, _ => by simp
  | a :: l, hn, h1, hu => by
      rw [List.map_cons, List.sum_cons]
      have ih := sum_map_le_one (l := l) hn.of_cons
        (fun b hb => h1 b (List.mem_cons_of_mem _ hb))
        (fun b hb d hd => hu b (List.mem_cons_of_mem _ hb) d (List.mem_cons_of_mem _ hd))
      rcases Nat.eq_zero_or_pos (f a) with h0 | hpos
      · omega
      · have hl : (l.map f).sum = 0 := by
          refine List.sum_eq_zero fun x hx => ?_
          obtain ⟨b, hb, rfl⟩ := List.mem_map.mp hx
          by_contra hne
          have := hu a List.mem_cons_self b (List.mem_cons_of_mem _ hb) hpos
            (Nat.pos_of_ne_zero hne)
          exact (List.nodup_cons.mp hn).1 (this ▸ hb)
        have := h1 a List.mem_cons_self
        omega

theorem Tree.copies_le_one (hT : G.Tree) (ℓ : Nat) : ∀ i, G.copies ℓ i ≤ 1 := by
  refine G.bottomUp fun i ih => ?_
  rw [copies, total_eq]
  by_cases he : i = ℓ
  · have : (G.children i).map (G.copies ℓ) = (G.children i).map fun _ => 0 :=
      List.map_congr_left fun c hc =>
        copies_eq_zero fun h => absurd (G.forward hc) (not_lt.mpr (he ▸ h.le))
    simp only [if_pos he]
    show 1 + ((G.children i).map (G.copies ℓ)).sum ≤ 1
    rw [this]
    simp
  · simp only [if_neg he, Nat.zero_add]
    refine sum_map_le_one (hT.nodup i) ih fun a ha b hb hpa hpb => ?_
    refine hT.sibling_unique ha hb (ℓ := ℓ) ?_ ?_
    · exact not_imp_comm.mp copies_eq_zero hpa.ne'
    · exact not_imp_comm.mp copies_eq_zero hpb.ne'

theorem Tree.arrivals_eq_card (hT : G.Tree) (i : Nat) :
    G.arrivals i = (G.leafSet i).card :=
  (arrivals_eq_card_iff i).mpr fun ℓ hℓ =>
    le_antisymm (hT.copies_le_one ℓ i) (one_le_copies_of_mem hℓ)

end Dag

end Flowgen.Lib
