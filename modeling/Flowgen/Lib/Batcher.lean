/-
# `Flowgen.Lib.Batcher` — items collected by key and released in groups

A `Batcher` collects items under keys.  `add` puts an item behind those that
wait under its key, `release` lets all that wait under a key go as one group.
What is known of a group is that it is not empty, a field of the structure.

The one fact a caller needs is that nothing is lost, doubled or moved to
another key: the groups of a key, one after the other and followed by what
still waits, are the items that were added under it (`items`).  A release does
not change them (`items_release`), and an addition appends to them
(`items_add`).
-/
import Mathlib

namespace Flowgen.Lib

/-- What waits under each key, and the groups released so far, oldest first. -/
structure Batcher (κ α : Type) where
  pending : κ → List α
  released : List (κ × List α)
  nonempty : ∀ g ∈ released, g.2 ≠ []

namespace Batcher

variable {κ α : Type}

def empty : Batcher κ α where
  pending _ := []
  released := []
  nonempty _ hg := by cases hg

@[simp] theorem pending_empty {k : κ} : (empty : Batcher κ α).pending k = [] := rfl

variable [DecidableEq κ]

/-- Another item under a key. -/
def add (b : Batcher κ α) (k : κ) (a : α) : Batcher κ α :=
  { b with pending := Function.update b.pending k (b.pending k ++ [a]) }

/-- What waits under a key goes as a group, if there is anything. -/
def release (b : Batcher κ α) (k : κ) : Batcher κ α :=
  if h : b.pending k = [] then b
  else
    { pending := Function.update b.pending k []
      released := b.released ++ [(k, b.pending k)]
      nonempty := by
        intro g hg
        rcases List.mem_append.mp hg with hg | hg
        · exact b.nonempty g hg
        · obtain rfl := List.mem_singleton.mp hg
          exact h }

/-- The groups of a key, and what still waits under it. -/
def items (b : Batcher κ α) (k : κ) : List α :=
  (b.released.filter (·.1 = k)).flatMap (·.2) ++ b.pending k

variable {b : Batcher κ α} {k k' : κ} {a : α}

@[simp] theorem items_empty : (empty : Batcher κ α).items k = [] := rfl

/-! ## Adding -/

@[simp] theorem released_add : (b.add k a).released = b.released := rfl

@[simp] theorem pending_add_self : (b.add k a).pending k = b.pending k ++ [a] :=
  Function.update_self ..

theorem pending_add_ne (h : k' ≠ k) : (b.add k a).pending k' = b.pending k' :=
  Function.update_of_ne h ..

/-- An addition appends to the items of its key, and leaves the others. -/
theorem items_add : (b.add k a).items k' = b.items k' ++ if k = k' then [a] else [] := by
  unfold items
  split
  · rename_i h
    subst h
    simp
  · rename_i h
    rw [pending_add_ne fun he => h he.symm]
    simp

/-! ## Releasing -/

theorem release_of_nil (h : b.pending k = []) : b.release k = b := dif_pos h

theorem released_release (h : b.pending k ≠ []) :
    (b.release k).released = b.released ++ [(k, b.pending k)] := by
  simp [release, h]

@[simp] theorem pending_release_self : (b.release k).pending k = [] := by
  rw [release]
  split
  · assumption
  · exact Function.update_self ..

theorem pending_release_ne (h : k' ≠ k) : (b.release k).pending k' = b.pending k' := by
  rw [release]
  split
  · rfl
  · exact Function.update_of_ne h ..

/-- A release leaves the items of every key as they are. -/
@[simp] theorem items_release : (b.release k).items k' = b.items k' := by
  by_cases h : b.pending k = []
  · rw [release_of_nil h]
  · unfold items
    rw [released_release h]
    by_cases hk : k' = k
    · subst hk
      simp
    · rw [pending_release_ne hk]
      simp [Ne.symm hk]

/-! ## Releasing everything -/

/-- Several keys, one after the other. -/
def releaseAll (b : Batcher κ α) (ks : List κ) : Batcher κ α := ks.foldl release b

@[simp] theorem releaseAll_nil : b.releaseAll [] = b := rfl

@[simp] theorem releaseAll_cons {ks : List κ} :
    b.releaseAll (k :: ks) = (b.release k).releaseAll ks := rfl

@[simp] theorem items_releaseAll {ks : List κ} : (b.releaseAll ks).items k' = b.items k' := by
  induction ks generalizing b with
  | nil => rfl
  | cons k ks ih => rw [releaseAll_cons, ih, items_release]

theorem pending_releaseAll {ks : List κ} :
    (b.releaseAll ks).pending k' = if k' ∈ ks then [] else b.pending k' := by
  induction ks generalizing b with
  | nil => rfl
  | cons k ks ih =>
      rw [releaseAll_cons, ih]
      by_cases hk : k' = k
      · subst hk
        simp
      · simp [hk, pending_release_ne hk]

/-- Where nothing waits any more, the groups hold all items. -/
theorem flatMap_released_of_drained (h : b.pending k = []) :
    (b.released.filter (·.1 = k)).flatMap (·.2) = b.items k := by
  simp [items, h]

end Batcher

end Flowgen.Lib
