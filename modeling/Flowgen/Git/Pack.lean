/-
# `Flowgen.Git.Pack` — the objects of a push (`git/src/push/client.rs`)

Trees are kept by what they hold: an object id stands for one object, so that the
objects themselves are the ids.  `reachable` collects all ids under the base tree
with a stack of trees to read; `newObjects` walks the new tree and takes every
object whose id is not known yet.  Both stop at a tree they know.

For `reachable` everything below a tree that was seen is seen in the end, or still
on the stack; for `newObjects` everything below a known tree is known, unless the
walk is inside that tree, which is then larger than all that is still to be looked
at.  So the pack holds what is below the new tree and not below the base tree, each
object once (`pack_exact`).
-/
import Flowgen.Lib.FileTree

namespace Flowgen.Git

open Flowgen.Lib.FileTree

/-- The kinds of entries other than trees. -/
inductive EntryKind
  | blob
  | blobExecutable
  | link
  | commit
deriving DecidableEq

/-- An entry that is not a tree; for a submodule the data is the id of its commit. -/
structure Leaf where
  kind : EntryKind
  data : List UInt8
deriving DecidableEq

abbrev Tree := Entries Leaf

/-- What an entry refers to. -/
inductive ObjectId
  | blob (data : List UInt8)
  | tree (tree : Tree)
  | commit (data : List UInt8)
deriving DecidableEq

def ObjectId.isCommit : ObjectId → Bool
  | .commit _ => true
  | _ => false

/-- `entry.object_id()`. -/
def objectId : Node Leaf → ObjectId
  | .leaf ⟨.commit, data⟩ => .commit data
  | .leaf ⟨_, data⟩ => .blob data
  | .tree tree => .tree tree

/-! ## Collecting the objects -/

/-- The entries of a tree, read with the ids seen and the trees pending so far. -/
def readEntries : Tree → List ObjectId → List Tree → List ObjectId × List Tree
  | .nil, seen, pending => (seen, pending)
  | .cons _ (.tree tree) rest, seen, pending => readEntries rest seen (tree :: pending)
  | .cons _ (.leaf leaf) rest, seen, pending =>
      readEntries rest (seen.insert (objectId (.leaf leaf))) pending

theorem size_readEntries (tree : Tree) (seen : List ObjectId) (pending : List Tree) :
    ((readEntries tree seen pending).2.map sizeOf).sum <
      sizeOf tree + (pending.map sizeOf).sum := by
  induction tree using Entries.induction generalizing seen pending with
  | nil => simp [readEntries]
  | cons name node rest ih =>
      cases node with
      | leaf leaf =>
          have := ih (seen.insert (objectId (.leaf leaf))) pending
          simp only [readEntries, Entries.cons.sizeOf_spec]
          omega
      | tree sub =>
          have := ih seen (sub :: pending)
          simp only [List.map_cons, List.sum_cons] at this
          simp only [readEntries, Entries.cons.sizeOf_spec, Node.tree.sizeOf_spec]
          omega

/-- The loop of `reachable`. -/
def reachableFrom (seen : List ObjectId) (pending : List Tree) : List ObjectId :=
  match pending with
  | [] => seen
  | tree :: pending =>
      if .tree tree ∈ seen then reachableFrom seen pending
      else
        reachableFrom (readEntries tree (.tree tree :: seen) pending).1
          (readEntries tree (.tree tree :: seen) pending).2
termination_by (pending.map sizeOf).sum
decreasing_by
  · have : 0 < sizeOf tree := by cases tree <;> simp
    simp only [List.map_cons, List.sum_cons]
    omega
  · exact size_readEntries tree (.tree tree :: seen) pending

/-- Ids of every tree and blob reachable from `tree`. -/
def reachable (tree : Tree) : List ObjectId := reachableFrom [] [tree]

/-- The ids that are known, and the objects that were appended. -/
structure Walk where
  known : List ObjectId
  objects : List ObjectId

def Walk.add (w : Walk) (id : ObjectId) : Walk := ⟨id :: w.known, w.objects ++ [id]⟩

mutual

/-- `new_objects` at a tree, and what it does with an entry. -/
def nodeObjects : Node Leaf → Walk → Walk
  | .leaf leaf, w =>
      match objectId (.leaf leaf) with
      | .commit _ => w
      | id => if id ∈ w.known then w else w.add id
  | .tree tree, w =>
      if .tree tree ∈ w.known then w else treeObjects tree (w.add (.tree tree))

def treeObjects : Tree → Walk → Walk
  | .nil, w => w
  | .cons _ node rest, w => treeObjects rest (nodeObjects node w)

end

def newObjects (tree : Tree) (known : List ObjectId) : List ObjectId :=
  (nodeObjects (.tree tree) ⟨known, []⟩).objects

/-- An object of a pack. -/
inductive PackEntry (κ : Type)
  | commit (id : κ)
  | object (id : ObjectId)
deriving DecidableEq

/-- The objects `Push::build` puts in the pack of a commit. -/
def packObjects {κ : Type} (commit : κ) (baseTree tree : Tree) : List (PackEntry κ) :=
  .commit commit :: (newObjects tree (reachable baseTree)).map .object

/-! ## What is reachable -/

mutual

/-- The object of a node, or one below it. -/
def Reaches : Node Leaf → ObjectId → Prop
  | .leaf leaf, id => id = objectId (.leaf leaf)
  | .tree tree, id => id = .tree tree ∨ Under tree id

/-- An object of an entry, or below one. -/
def Under : Tree → ObjectId → Prop
  | .nil, _ => False
  | .cons _ node rest, id => Reaches node id ∨ Under rest id

end

variable {tree sub base : Tree} {node : Node Leaf} {leaf : Leaf} {id : ObjectId}
  {seen : List ObjectId} {pending : List Tree}

theorem reaches_self (node : Node Leaf) : Reaches node (objectId node) := by
  cases node with
  | leaf leaf => exact rfl
  | tree tree => exact Or.inl rfl

theorem under_iff : Under tree id ↔ ∃ node ∈ tree.nodes, Reaches node id := by
  induction tree using Entries.induction with
  | nil => simp [Under, Entries.nodes]
  | cons name node rest ih => simp [Under, Entries.nodes, ih]

mutual

/-- What is below an object that is reached is reached. -/
theorem Reaches.trans : ∀ {node : Node Leaf}, Reaches node (.tree sub) → Under sub id →
    Reaches node id
  | .leaf ⟨kind, data⟩, h, _ => by cases kind <;> cases h
  | .tree tree, h, hid => by
      rcases h with heq | hunder
      · cases heq
        exact Or.inr hid
      · exact Or.inr (hunder.trans hid)

theorem Under.trans : ∀ {tree : Tree}, Under tree (.tree sub) → Under sub id → Under tree id
  | .nil, h, _ => h
  | .cons _ _ _, h, hid => by
      rcases h with hnode | hrest
      · exact Or.inl (hnode.trans hid)
      · exact Or.inr (hrest.trans hid)

end

/-! ## `reachable` -/

theorem mem_readEntries : id ∈ (readEntries tree seen pending).1 ↔
    id ∈ seen ∨ ∃ leaf, .leaf leaf ∈ tree.nodes ∧ id = objectId (.leaf leaf) := by
  induction tree using Entries.induction generalizing seen pending with
  | nil => simp [readEntries, Entries.nodes]
  | cons name node rest ih =>
      cases node with
      | leaf leaf =>
          rw [readEntries, ih, List.mem_insert_iff]
          simp only [Entries.nodes, List.mem_cons, Node.leaf.injEq]
          constructor
          · rintro ((rfl | hseen) | ⟨leaf', hleaf', rfl⟩)
            · exact Or.inr ⟨leaf, Or.inl rfl, rfl⟩
            · exact Or.inl hseen
            · exact Or.inr ⟨leaf', Or.inr hleaf', rfl⟩
          · rintro (hseen | ⟨leaf', rfl | hleaf', rfl⟩)
            · exact Or.inl (Or.inr hseen)
            · exact Or.inl (Or.inl rfl)
            · exact Or.inr ⟨leaf', hleaf', rfl⟩
      | tree sub =>
          rw [readEntries, ih]
          simp [Entries.nodes]

theorem mem_pending_readEntries : sub ∈ (readEntries tree seen pending).2 ↔
    sub ∈ pending ∨ .tree sub ∈ tree.nodes := by
  induction tree using Entries.induction generalizing seen pending with
  | nil => simp [readEntries, Entries.nodes]
  | cons name node rest ih =>
      cases node with
      | leaf leaf =>
          rw [readEntries, ih]
          simp [Entries.nodes]
      | tree sub' =>
          rw [readEntries, ih, List.mem_cons]
          simp only [Entries.nodes, List.mem_cons, Node.tree.injEq]
          tauto

/-- Every entry of a tree that was seen is seen too, or pending. -/
def Read (seen : List ObjectId) (pending : List Tree) : Prop :=
  ∀ tree, .tree tree ∈ seen → ∀ node ∈ tree.nodes,
    objectId node ∈ seen ∨ ∃ sub ∈ pending, node = .tree sub

theorem Read.skip (h : Read seen (tree :: pending)) (hseen : .tree tree ∈ seen) :
    Read seen pending := by
  intro t ht node hnode
  rcases h t ht node hnode with hid | ⟨sub, hsub, rfl⟩
  · exact Or.inl hid
  · rcases List.mem_cons.mp hsub with rfl | hsub
    · exact Or.inl hseen
    · exact Or.inr ⟨sub, hsub, rfl⟩

theorem Read.read (h : Read seen (tree :: pending)) :
    Read (readEntries tree (.tree tree :: seen) pending).1
      (readEntries tree (.tree tree :: seen) pending).2 := by
  have hown : ∀ node ∈ tree.nodes,
      objectId node ∈ (readEntries tree (.tree tree :: seen) pending).1 ∨
        ∃ sub ∈ (readEntries tree (.tree tree :: seen) pending).2, node = .tree sub := by
    intro node hnode
    cases node with
    | leaf leaf => exact Or.inl (mem_readEntries.mpr (Or.inr ⟨leaf, hnode, rfl⟩))
    | tree sub => exact Or.inr ⟨sub, mem_pending_readEntries.mpr (Or.inr hnode), rfl⟩
  intro t ht node hnode
  rcases mem_readEntries.mp ht with ht | ⟨⟨kind, data⟩, -, hid⟩
  · rcases List.mem_cons.mp ht with heq | ht
    · cases heq
      exact hown node hnode
    · rcases h t ht node hnode with hid | ⟨sub, hsub, rfl⟩
      · exact Or.inl (mem_readEntries.mpr (Or.inl (List.mem_cons_of_mem _ hid)))
      · rcases List.mem_cons.mp hsub with rfl | hsub
        · exact Or.inl (mem_readEntries.mpr (Or.inl List.mem_cons_self))
        · exact Or.inr ⟨sub, mem_pending_readEntries.mpr (Or.inl hsub), rfl⟩
  · cases kind <;> cases hid

/-- The loop keeps what is seen, sees what is pending, and ends with nothing unread. -/
theorem reachableFrom_complete (h : Read seen pending) :
    seen ⊆ reachableFrom seen pending ∧ (∀ tree ∈ pending, .tree tree ∈ reachableFrom seen pending) ∧
      Read (reachableFrom seen pending) [] := by
  induction seen, pending using reachableFrom.induct with
  | case1 seen =>
      rw [reachableFrom]
      exact ⟨List.Subset.refl _, nofun, h⟩
  | case2 seen tree pending hseen ih =>
      obtain ⟨hsub, hpending, hread⟩ := ih (h.skip hseen)
      rw [reachableFrom, if_pos hseen]
      refine ⟨hsub, ?_, hread⟩
      intro t ht
      rcases List.mem_cons.mp ht with rfl | ht
      · exact hsub hseen
      · exact hpending t ht
  | case3 seen tree pending hseen ih =>
      obtain ⟨hsub, hpending, hread⟩ := ih h.read
      have hgrow : .tree tree :: seen ⊆ (readEntries tree (.tree tree :: seen) pending).1 :=
        fun id hid => mem_readEntries.mpr (Or.inl hid)
      rw [reachableFrom, if_neg hseen]
      refine ⟨fun id hid => hsub (hgrow (List.mem_cons_of_mem _ hid)), ?_, hread⟩
      intro t ht
      rcases List.mem_cons.mp ht with rfl | ht
      · exact hsub (hgrow List.mem_cons_self)
      · exact hpending t (mem_pending_readEntries.mpr (Or.inl ht))

/-- Nothing is seen that is not below the first tree. -/
theorem reachableFrom_sound (hseen : ∀ id ∈ seen, Reaches node id)
    (hpending : ∀ tree ∈ pending, Reaches node (.tree tree)) :
    ∀ id ∈ reachableFrom seen pending, Reaches node id := by
  induction seen, pending using reachableFrom.induct with
  | case1 seen =>
      rw [reachableFrom]
      exact hseen
  | case2 seen tree pending hmem ih =>
      rw [reachableFrom, if_pos hmem]
      exact ih hseen fun t ht => hpending t (List.mem_cons_of_mem _ ht)
  | case3 seen tree pending hmem ih =>
      have htree := hpending tree List.mem_cons_self
      have hentry : ∀ node' ∈ tree.nodes, Reaches node (objectId node') := fun node' hnode' =>
        htree.trans (under_iff.mpr ⟨node', hnode', reaches_self node'⟩)
      rw [reachableFrom, if_neg hmem]
      refine ih ?_ ?_
      · intro id hid
        rcases mem_readEntries.mp hid with hid | ⟨leaf, hleaf, rfl⟩
        · rcases List.mem_cons.mp hid with rfl | hid
          · exact htree
          · exact hseen id hid
        · exact hentry _ hleaf
      · intro t ht
        rcases mem_pending_readEntries.mp ht with ht | ht
        · exact hpending t (List.mem_cons_of_mem _ ht)
        · exact hentry _ ht

mutual

/-- With nothing unread, everything below what is seen is seen. -/
theorem Read.below (h : Read seen []) : ∀ {node : Node Leaf}, objectId node ∈ seen →
    Reaches node id → id ∈ seen
  | .leaf _, hseen, hid => hid ▸ hseen
  | .tree tree, hseen, hid => by
      rcases hid with rfl | hunder
      · exact hseen
      · refine h.under ?_ hunder
        intro node hnode
        rcases h tree hseen node hnode with hid | ⟨_, hsub, _⟩
        · exact hid
        · cases hsub

theorem Read.under (h : Read seen []) : ∀ {tree : Tree},
    (∀ node ∈ tree.nodes, objectId node ∈ seen) → Under tree id → id ∈ seen
  | .nil, _, hid => hid.elim
  | .cons _ node rest, hseen, hid => by
      rcases hid with hnode | hrest
      · exact h.below (hseen node List.mem_cons_self) hnode
      · exact h.under (fun node' hnode' => hseen node' (List.mem_cons_of_mem _ hnode')) hrest

end

theorem mem_reachable : id ∈ reachable tree ↔ Reaches (.tree tree) id := by
  have hread : Read [] [tree] := fun _ h => absurd h List.not_mem_nil
  obtain ⟨-, hpending, hread⟩ := reachableFrom_complete hread
  constructor
  · refine reachableFrom_sound (fun _ h => absurd h List.not_mem_nil) ?_ id
    intro t ht
    obtain rfl := List.mem_singleton.mp ht
    exact Or.inl rfl
  · exact hread.below (hpending tree List.mem_cons_self)

/-! ## `new_objects` -/

/-- The objects a walk is about: a submodule is never sent. -/
def Sent (node : Node Leaf) (id : ObjectId) : Prop := Reaches node id ∧ id.isCommit = false

variable {w w' w'' : Walk} {S S' : ObjectId → Prop} {m n : Nat}

/-- Everything below a known tree is known, unless the tree is as large as `n`: then
the walk may be inside it. -/
def Known (w : Walk) (n : Nat) : Prop :=
  ∀ tree, .tree tree ∈ w.known →
    (∀ id, Under tree id → id.isCommit = false → id ∈ w.known) ∨ n ≤ sizeOf tree

/-- The objects of `S` become known; those that were not are appended, each once. -/
structure Appends (w w' : Walk) (S : ObjectId → Prop) : Prop where
  known : ∀ id, id ∈ w'.known ↔ id ∈ w.known ∨ S id
  objects : ∃ ids, w'.objects = w.objects ++ ids ∧ ids.Nodup ∧
    ∀ id, id ∈ ids ↔ S id ∧ id ∉ w.known

theorem Appends.nothing (h : ∀ id, S id → id ∈ w.known) : Appends w w S where
  known id := ⟨Or.inl, fun hid => hid.elim (fun hid => hid) (h id)⟩
  objects := by
    refine ⟨[], (List.append_nil _).symm, List.nodup_nil, ?_⟩
    intro id
    constructor
    · nofun
    · rintro ⟨hid, hnew⟩
      exact absurd (h id hid) hnew

theorem Appends.add (h : id ∉ w.known) : Appends w (w.add id) (· = id) where
  known id' := by
    rw [Walk.add, List.mem_cons, or_comm]
  objects := by
    refine ⟨[id], rfl, List.nodup_singleton id, ?_⟩
    intro id'
    rw [List.mem_singleton]
    constructor
    · rintro rfl
      exact ⟨rfl, h⟩
    · exact fun hid => hid.1

theorem Appends.trans (h : Appends w w' S) (h' : Appends w' w'' S') :
    Appends w w'' fun id => S id ∨ S' id where
  known id := by rw [h'.known, h.known, or_assoc]
  objects := by
    obtain ⟨ids, hobjects, hnodup, hids⟩ := h.objects
    obtain ⟨ids', hobjects', hnodup', hids'⟩ := h'.objects
    refine ⟨ids ++ ids', ?_, ?_, ?_⟩
    · rw [hobjects', hobjects, List.append_assoc]
    · refine hnodup.append hnodup' ?_
      intro id hid hid'
      exact ((hids' id).mp hid').2 ((h.known id).mpr (Or.inr ((hids id).mp hid).1))
    · intro id
      rw [List.mem_append, hids, hids', h.known]
      tauto

theorem Appends.congr (h : Appends w w' S) (hS : ∀ id, S id ↔ S' id) : Appends w w' S' := by
  have heq : S = S' := funext fun id => propext (hS id)
  exact heq ▸ h

/-- What was appended below one entry does not disturb the walk over the next ones. -/
theorem Known.append (h : Known w n) (ha : Appends w w' (Sent node)) (hm : m ≤ n) : Known w' m := by
  intro t ht
  rcases (ha.known _).mp ht with ht | ⟨ht, -⟩
  · rcases h t ht with hall | hn
    · exact Or.inl fun id hid hsent => (ha.known id).mpr (Or.inl (hall id hid hsent))
    · exact Or.inr (Nat.le_trans hm hn)
  · exact Or.inl fun id hid hsent => (ha.known id).mpr (Or.inr ⟨ht.trans hid, hsent⟩)

theorem appends_leaf (leaf : Leaf) : Appends w (nodeObjects (.leaf leaf) w) (Sent (.leaf leaf)) := by
  rw [nodeObjects]
  split
  · rename_i data hid
    refine .nothing ?_
    rintro id ⟨rfl, hsent⟩
    rw [hid] at hsent
    cases hsent
  · rename_i hcommit
    have hsent : (objectId (.leaf leaf)).isCommit = false := by
      cases hid : objectId (.leaf leaf) with
      | commit data => exact absurd hid (hcommit data)
      | blob data => rfl
      | tree tree => rfl
    split
    · rename_i hknown
      refine .nothing ?_
      rintro id ⟨rfl, -⟩
      exact hknown
    · rename_i hnew
      refine (Appends.add hnew).congr ?_
      intro id
      constructor
      · rintro rfl
        exact ⟨rfl, hsent⟩
      · exact fun hid => hid.1

mutual

theorem appends_nodeObjects : ∀ (node : Node Leaf) {w : Walk}, Known w (sizeOf node) →
    Appends w (nodeObjects node w) (Sent node)
  | .leaf leaf, _, _ => appends_leaf leaf
  | .tree tree, w, h => by
      rw [nodeObjects]
      split
      · rename_i hknown
        refine .nothing ?_
        rintro id ⟨rfl | hunder, hsent⟩
        · exact hknown
        · rcases h tree hknown with hall | hsize
          · exact hall id hunder hsent
          · rw [Node.tree.sizeOf_spec] at hsize
            omega
      · rename_i hnew
        have hknown : Known (w.add (.tree tree)) (sizeOf tree) := by
          intro t ht
          rcases List.mem_cons.mp ht with heq | ht
          · cases heq
            exact Or.inr (Nat.le_refl _)
          · rcases h t ht with hall | hsize
            · exact Or.inl fun id hid hsent => List.mem_cons_of_mem _ (hall id hid hsent)
            · rw [Node.tree.sizeOf_spec] at hsize
              exact Or.inr (by omega)
        refine ((Appends.add hnew).trans (appends_treeObjects tree hknown)).congr ?_
        intro id
        constructor
        · rintro (rfl | ⟨hunder, hsent⟩)
          · exact ⟨Or.inl rfl, rfl⟩
          · exact ⟨Or.inr hunder, hsent⟩
        · rintro ⟨rfl | hunder, hsent⟩
          · exact Or.inl rfl
          · exact Or.inr ⟨hunder, hsent⟩

theorem appends_treeObjects : ∀ (tree : Tree) {w : Walk}, Known w (sizeOf tree) →
    Appends w (treeObjects tree w) fun id => Under tree id ∧ id.isCommit = false
  | .nil, w, _ => .nothing fun _ hid => hid.1.elim
  | .cons name node rest, w, h => by
      have hsize : sizeOf node ≤ sizeOf (Entries.cons name node rest) ∧
          sizeOf rest ≤ sizeOf (Entries.cons name node rest) := by
        rw [Entries.cons.sizeOf_spec]
        omega
      have hnode := appends_nodeObjects node (w := w) fun t ht =>
        (h t ht).imp_right fun hn => Nat.le_trans hsize.1 hn
      have hrest := appends_treeObjects rest (h.append hnode hsize.2)
      rw [treeObjects]
      refine (hnode.trans hrest).congr ?_
      intro id
      rw [Sent, Under, or_and_right]

end

theorem known_reachable (base : Tree) : Known ⟨reachable base, []⟩ n := by
  intro t ht
  refine Or.inl fun id hid _ => ?_
  exact mem_reachable.mpr ((mem_reachable.mp ht).trans hid)

/-- **The pack is exact**: the commit, and what is below the new tree and not below the
base tree, each object once.  Whoever has the objects of the base tree has with these
all that the commit needs. -/
theorem pack_exact {κ : Type} (commit : κ) (base tree : Tree) :
    (∃ ids : List ObjectId, packObjects commit base tree = .commit commit :: ids.map .object ∧
      ids.Nodup ∧ ∀ id, id ∈ ids ↔
        (Reaches (.tree tree) id ∧ id.isCommit = false) ∧ ¬ Reaches (.tree base) id) ∧
    ∀ id, Reaches (.tree tree) id → id.isCommit = false →
      Reaches (.tree base) id ∨ .object id ∈ packObjects commit base tree := by
  obtain ⟨ids, hobjects, hnodup, hids⟩ :=
    (appends_nodeObjects (.tree tree) (known_reachable base)).objects
  have hpack : packObjects commit base tree = .commit commit :: ids.map .object := by
    rw [packObjects, newObjects, hobjects, List.nil_append]
  have hids : ∀ id, id ∈ ids ↔
      (Reaches (.tree tree) id ∧ id.isCommit = false) ∧ ¬ Reaches (.tree base) id := by
    intro id
    rw [hids, Sent, mem_reachable]
  refine ⟨⟨ids, hpack, hnodup, hids⟩, ?_⟩
  intro id hid hsent
  by_cases hbase : Reaches (.tree base) id
  · exact Or.inl hbase
  · refine Or.inr ?_
    rw [hpack]
    exact List.mem_cons_of_mem _ (List.mem_map.mpr ⟨id, (hids id).mpr ⟨⟨hid, hsent⟩, hbase⟩, rfl⟩)

/-- A blob of two entries is sent once; a submodule is not sent, and neither is what is
known. -/
example : newObjects
    (.cons "a" (.leaf ⟨.blob, [1]⟩) (.cons "b" (.leaf ⟨.link, [1]⟩)
      (.cons "c" (.leaf ⟨.commit, [2]⟩) (.cons "d" (.leaf ⟨.blob, [3]⟩) .nil)))) [.blob [3]] =
    [.tree (.cons "a" (.leaf ⟨.blob, [1]⟩) (.cons "b" (.leaf ⟨.link, [1]⟩)
      (.cons "c" (.leaf ⟨.commit, [2]⟩) (.cons "d" (.leaf ⟨.blob, [3]⟩) .nil)))), .blob [1]] := by
  decide

end Flowgen.Git
