/-
# `Flowgen.Lib.FileTree` — trees of named entries, changed along paths

A tree is a list of named nodes, each a leaf or a tree.  A path is a list of names.
A leaf is put at a path, or whatever stands there is removed; the trees on the way
are made as they are needed, and a tree that becomes empty is removed with its last
entry.

What a path holds afterwards depends only on how it lies to the changed one: at it,
below it, above it, or apart from it (`upsert_self`, `upsert_below`, `upsert_above`,
`upsert_apart`, and the same for `remove`).
-/
import Mathlib

namespace Flowgen.Lib.FileTree

mutual

inductive Node (L : Type)
  | leaf (value : L)
  | tree (entries : Entries L)

inductive Entries (L : Type)
  | nil
  | cons (name : String) (node : Node L) (rest : Entries L)

end

deriving instance DecidableEq for Node, Entries

variable {L : Type}

/-- Entries are looked at one after the other; what a node is made of does not matter. -/
@[induction_eliminator]
theorem Entries.induction {P : Entries L → Prop} (nil : P .nil)
    (cons : ∀ name node rest, P rest → P (.cons name node rest)) (entries : Entries L) :
    P entries := by
  refine Entries.rec (motive_1 := fun _ => True) ?_ ?_ nil ?_ entries
  · exact fun _ => trivial
  · exact fun _ _ => trivial
  · exact fun name node rest _ ih => cons name node rest ih

/-! ## One level -/

def Entries.find (name : String) : Entries L → Option (Node L)
  | .nil => none
  | .cons n node rest => if n = name then some node else rest.find name

def Entries.set (name : String) (node : Node L) : Entries L → Entries L
  | .nil => .cons name node .nil
  | .cons n x rest => if n = name then .cons n node rest else .cons n x (rest.set name node)

def Entries.erase (name : String) : Entries L → Entries L
  | .nil => .nil
  | .cons n x rest => if n = name then rest.erase name else .cons n x (rest.erase name)

def Entries.nodes : Entries L → List (Node L)
  | .nil => []
  | .cons _ node rest => node :: rest.nodes

-- Their equations are derived here, once, for the proofs that rewrite with them.
attribute [grind =] Entries.find Entries.set Entries.erase

/-- The tree under a name, which is empty if there is none. -/
def Entries.sub (entries : Entries L) (name : String) : Entries L :=
  match entries.find name with
  | some (.tree sub) => sub
  | _ => .nil

/-- A tree under a name, where it has entries. -/
def Entries.put (entries : Entries L) (name : String) : Entries L → Entries L
  | .nil => entries.erase name
  | sub => entries.set name (.tree sub)

section Level

variable {entries sub : Entries L} {node : Node L} {name name' : String}

theorem find_set_self : (entries.set name node).find name = some node := by
  induction entries with
  | nil => simp [Entries.set, Entries.find]
  | cons n x rest ih =>
      rw [Entries.set]
      split
      · rename_i h
        rw [Entries.find, if_pos h]
      · rename_i h
        rw [Entries.find, if_neg h, ih]

theorem find_set_ne (hne : name' ≠ name) :
    (entries.set name node).find name' = entries.find name' := by
  induction entries with
  | nil => simp [Entries.set, Entries.find, hne.symm]
  | cons n x rest ih =>
      rw [Entries.set]
      split
      · rename_i h
        subst h
        rw [Entries.find, Entries.find, if_neg hne.symm, if_neg hne.symm]
      · rw [Entries.find, Entries.find, ih]

theorem find_erase_self : (entries.erase name).find name = none := by
  induction entries with
  | nil => rfl
  | cons n x rest ih =>
      rw [Entries.erase]
      split
      · exact ih
      · rename_i h
        rw [Entries.find, if_neg h, ih]

theorem find_erase_ne (hne : name' ≠ name) :
    (entries.erase name).find name' = entries.find name' := by
  induction entries with
  | nil => rfl
  | cons n x rest ih =>
      rw [Entries.erase]
      split
      · rename_i h
        subst h
        rw [ih, Entries.find, if_neg hne.symm]
      · rw [Entries.find, Entries.find, ih]

theorem find_put_ne (hne : name' ≠ name) :
    (entries.put name sub).find name' = entries.find name' := by
  cases sub with
  | nil => exact find_erase_ne hne
  | cons => exact find_set_ne hne

end Level

/-! ## Paths -/

/-- What a path leads to. -/
def Node.at : Node L → List String → Option (Node L)
  | node, [] => some node
  | .leaf _, _ :: _ => none
  | .tree entries, name :: rest => (entries.find name).bind fun node => node.at rest

def Entries.at (entries : Entries L) (path : List String) : Option (Node L) :=
  (Node.tree entries).at path

/-- The leaf a path leads to. -/
def Entries.leafAt (entries : Entries L) (path : List String) : Option L :=
  match entries.at path with
  | some (.leaf value) => some value
  | _ => none

def Entries.upsert (value : L) : Entries L → List String → Entries L
  | entries, [] => entries
  | entries, [name] => entries.set name (.leaf value)
  | entries, name :: next :: rest =>
      entries.set name (.tree ((entries.sub name).upsert value (next :: rest)))

def Entries.remove : Entries L → List String → Entries L
  | entries, [] => entries
  | entries, [name] => entries.erase name
  | entries, name :: next :: rest =>
      match entries.find name with
      | some (.tree sub) => entries.put name (sub.remove (next :: rest))
      | _ => entries

attribute [grind =] Entries.upsert Entries.remove

/-- Neither path leads to the other. -/
def Apart (p q : List String) : Prop := ¬ p <+: q ∧ ¬ q <+: p

/-- The second path leads below the first. -/
def Below (p q : List String) : Prop := p <+: q ∧ p ≠ q

/-- How a path lies to another one. -/
theorem eq_or_below_or_above_or_apart (p q : List String) :
    p = q ∨ Below p q ∨ Below q p ∨ Apart p q := by
  by_cases heq : p = q
  · exact Or.inl heq
  · by_cases hpq : p <+: q
    · exact Or.inr (Or.inl ⟨hpq, heq⟩)
    · by_cases hqp : q <+: p
      · exact Or.inr (Or.inr (Or.inl ⟨hqp, Ne.symm heq⟩))
      · exact Or.inr (Or.inr (Or.inr ⟨hpq, hqp⟩))

variable {entries : Entries L} {value : L} {name : String} {p q rest : List String}

theorem at_nil : entries.at [] = some (.tree entries) := rfl

theorem at_cons : entries.at (name :: rest) = (entries.find name).bind fun node => node.at rest :=
  rfl

theorem Node.at_append (node : Node L) (p q : List String) :
    node.at (p ++ q) = (node.at p).bind fun node => node.at q := by
  induction p generalizing node with
  | nil => rfl
  | cons name rest ih =>
      cases node with
      | leaf value => rfl
      | tree entries =>
          change (entries.find name).bind _ = ((entries.find name).bind _).bind _
          cases entries.find name with
          | none => rfl
          | some node => exact ih node

/-- Nothing is below a leaf, or below nothing. -/
theorem at_below (h : ∀ sub, entries.at p ≠ some (.tree sub)) (hq : Below p q) :
    entries.at q = none := by
  obtain ⟨⟨r, rfl⟩, hne⟩ := hq
  rw [Entries.at, Node.at_append]
  cases hp : (Node.tree entries).at p with
  | none => rfl
  | some node =>
      cases node with
      | leaf value =>
          cases r with
          | nil => exact absurd (List.append_nil p).symm hne
          | cons name rest => rfl
      | tree sub => exact absurd hp (h sub)

theorem leafAt_eq_some : entries.leafAt p = some value ↔ entries.at p = some (.leaf value) := by
  rw [Entries.leafAt]
  cases entries.at p with
  | none => simp
  | some node => cases node <;> simp

theorem leafAt_eq_none : entries.leafAt p = none ↔ ∀ value, entries.at p ≠ some (.leaf value) := by
  rw [← not_iff_not, ← ne_eq, Option.ne_none_iff_exists']
  simp [leafAt_eq_some]

theorem leafAt_congr {entries' : Entries L} (h : entries.at p = entries'.at p) :
    entries.leafAt p = entries'.leafAt p := by
  rw [Entries.leafAt, Entries.leafAt, h]

/-- The way through a name goes into the tree under it. -/
theorem at_sub (hrest : rest ≠ []) : entries.at (name :: rest) = (entries.sub name).at rest := by
  cases rest with
  | nil => exact absurd rfl hrest
  | cons next rest =>
      rw [at_cons, Entries.sub]
      cases entries.find name with
      | none => rfl
      | some node =>
          cases node with
          | leaf value => rfl
          | tree sub => rfl

theorem at_put (hrest : rest ≠ []) : (entries.put name sub).at (name :: rest) = sub.at rest := by
  cases rest with
  | nil => exact absurd rfl hrest
  | cons next rest =>
      cases sub with
      | nil =>
          rw [at_cons, Entries.put, find_erase_self]
          rfl
      | cons =>
          rw [at_cons, Entries.put, find_set_self]
          · rfl
          · simp

theorem Below.cons (h : Below (name :: p) (name :: q)) : Below p q :=
  ⟨(List.cons_prefix_cons.mp h.1).2, fun heq => h.2 (heq ▸ rfl)⟩

theorem Below.ne_nil (h : Below p q) : q ≠ [] := by
  rintro rfl
  exact h.2 (List.prefix_nil.mp h.1)

theorem Apart.cons (h : Apart (name :: p) (name :: q)) : Apart p q :=
  ⟨fun hpq => h.1 (List.cons_prefix_cons.mpr ⟨rfl, hpq⟩),
    fun hqp => h.2 (List.cons_prefix_cons.mpr ⟨rfl, hqp⟩)⟩

theorem Apart.symm (h : Apart p q) : Apart q p := ⟨h.2, h.1⟩

theorem Apart.ne_nil (h : Apart p q) : p ≠ [] ∧ q ≠ [] := by
  constructor
  · rintro rfl
    exact h.1 List.nil_prefix
  · rintro rfl
    exact h.2 List.nil_prefix

/-! ## Putting a leaf -/

theorem upsert_self (hp : p ≠ []) : (entries.upsert value p).at p = some (.leaf value) := by
  induction p generalizing entries with
  | nil => exact absurd rfl hp
  | cons name rest ih =>
      cases rest with
      | nil =>
          rw [Entries.upsert, at_cons, find_set_self]
          rfl
      | cons next rest =>
          rw [Entries.upsert, at_cons, find_set_self]
          exact ih (List.cons_ne_nil _ _)

theorem upsert_above (hq : Below q p) :
    ∃ sub, (entries.upsert value p).at q = some (.tree sub) := by
  induction p generalizing entries q with
  | nil => exact absurd rfl hq.ne_nil
  | cons name rest ih =>
      cases q with
      | nil => exact ⟨_, at_nil⟩
      | cons name' q' =>
          obtain rfl : name' = name := (List.cons_prefix_cons.mp hq.1).1
          cases rest with
          | nil => exact absurd rfl hq.cons.ne_nil
          | cons next rest =>
              rw [Entries.upsert, at_cons, find_set_self]
              exact ih hq.cons

theorem upsert_apart (hq : Apart p q) : (entries.upsert value p).at q = entries.at q := by
  induction p generalizing entries q with
  | nil => exact absurd rfl hq.ne_nil.1
  | cons name rest ih =>
      cases q with
      | nil => exact absurd rfl hq.ne_nil.2
      | cons name' q' =>
          by_cases hname : name' = name
          · subst hname
            obtain ⟨hrest, hq'⟩ := hq.cons.ne_nil
            cases rest with
            | nil => exact absurd rfl hrest
            | cons next rest =>
                rw [Entries.upsert, at_cons, find_set_self, at_sub hq']
                exact ih hq.cons
          · cases rest with
            | nil => rw [Entries.upsert, at_cons, at_cons, find_set_ne hname]
            | cons next rest => rw [Entries.upsert, at_cons, at_cons, find_set_ne hname]

/-! ## Removing what stands at a path -/

theorem remove_nil (p : List String) : (Entries.nil : Entries L).remove p = .nil := by
  cases p with
  | nil => rfl
  | cons name rest =>
      cases rest with
      | nil => rfl
      | cons next rest => rfl

/-- Removing below a name is removing from the tree under it. -/
theorem remove_cons (hrest : rest ≠ []) (hq : q ≠ []) :
    (entries.remove (name :: rest)).at (name :: q) = ((entries.sub name).remove rest).at q := by
  cases rest with
  | nil => exact absurd rfl hrest
  | cons next rest =>
      have hnone : (∀ sub, entries.find name ≠ some (.tree sub)) →
          entries.at (name :: q) = ((entries.sub name).remove (next :: rest)).at q := by
        intro h
        have hsub : entries.sub name = .nil := by
          rw [Entries.sub]
          split
          · rename_i sub hfind
            exact absurd hfind (h sub)
          · rfl
        rw [at_sub hq, hsub, remove_nil]
      rw [Entries.remove]
      cases hfind : entries.find name with
      | none => exact hnone (by simp [hfind])
      | some node =>
          cases node with
          | leaf value => exact hnone (by simp [hfind])
          | tree sub =>
              rw [Entries.sub, hfind]
              exact at_put hq

theorem find_remove_ne {name' : String} (hname : name' ≠ name) :
    (entries.remove (name :: rest)).find name' = entries.find name' := by
  cases rest with
  | nil => exact find_erase_ne hname
  | cons next rest =>
      rw [Entries.remove]
      split
      · exact find_put_ne hname
      · rfl

theorem remove_self (hp : p ≠ []) : (entries.remove p).at p = none := by
  induction p generalizing entries with
  | nil => exact absurd rfl hp
  | cons name rest ih =>
      cases rest with
      | nil =>
          rw [Entries.remove, at_cons, find_erase_self]
          rfl
      | cons next rest =>
          rw [remove_cons (List.cons_ne_nil _ _) (List.cons_ne_nil _ _)]
          exact ih (List.cons_ne_nil _ _)

theorem remove_apart (hq : Apart p q) : (entries.remove p).at q = entries.at q := by
  induction p generalizing entries q with
  | nil => exact absurd rfl hq.ne_nil.1
  | cons name rest ih =>
      cases q with
      | nil => exact absurd rfl hq.ne_nil.2
      | cons name' q' =>
          by_cases hname : name' = name
          · subst hname
            obtain ⟨hrest, hq'⟩ := hq.cons.ne_nil
            rw [remove_cons hrest hq', at_sub hq']
            exact ih hq.cons
          · rw [at_cons, at_cons, find_remove_ne hname]

/-- Above the path no leaf comes or goes, and nothing appears. -/
theorem remove_above (hq : Below q p) (h : ∀ sub, entries.at q ≠ some (.tree sub)) :
    (entries.remove p).at q = entries.at q := by
  induction p generalizing entries q with
  | nil => exact absurd rfl hq.ne_nil
  | cons name rest ih =>
      cases q with
      | nil => exact absurd at_nil (h _)
      | cons name' q' =>
          obtain rfl : name' = name := (List.cons_prefix_cons.mp hq.1).1
          have hrest := hq.cons.ne_nil
          cases q' with
          | nil =>
              cases rest with
              | nil => exact absurd rfl hrest
              | cons next rest =>
                  have hfind : ∀ sub, entries.find name' ≠ some (.tree sub) := by
                    intro sub hfind
                    refine h sub ?_
                    rw [at_cons, hfind]
                    rfl
                  rw [Entries.remove]
                  split
                  · rename_i sub hsub
                    exact absurd hsub (hfind sub)
                  · rfl
          | cons next q' =>
              rw [remove_cons hrest (List.cons_ne_nil _ _), at_sub (List.cons_ne_nil _ _)]
              refine ih hq.cons ?_
              rwa [at_sub (List.cons_ne_nil _ _)] at h

/-- What was a tree above the path is one still, or is gone. -/
theorem remove_above_tree (hq : Below q p) {sub : Entries L} (h : entries.at q = some (.tree sub)) :
    ∀ value, (entries.remove p).at q ≠ some (.leaf value) := by
  induction p generalizing entries q with
  | nil => exact absurd rfl hq.ne_nil
  | cons name rest ih =>
      intro value
      cases q with
      | nil =>
          rw [at_nil]
          simp
      | cons name' q' =>
          obtain rfl : name' = name := (List.cons_prefix_cons.mp hq.1).1
          have hrest := hq.cons.ne_nil
          cases q' with
          | nil =>
              cases rest with
              | nil => exact absurd rfl hrest
              | cons next rest =>
                  rw [at_cons, Option.bind_eq_some_iff] at h
                  obtain ⟨node, hfind, hnode⟩ := h
                  cases hnode
                  rw [Entries.remove, hfind]
                  dsimp only
                  rw [at_cons]
                  cases sub.remove (next :: rest) with
                  | nil => simp [Entries.put, find_erase_self]
                  | cons =>
                      rw [Entries.put, find_set_self]
                      · simp [Node.at]
                      · simp
          | cons next q' =>
              rw [remove_cons hrest (List.cons_ne_nil _ _)]
              rw [at_sub (List.cons_ne_nil _ _)] at h
              exact ih hq.cons h value

end Flowgen.Lib.FileTree
