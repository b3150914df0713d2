/-
# `Flowgen.Lib.Table` — lists in chunks, and tables by columns

A list is cut into chunks of one length, the last of which may be shorter.  A table that is
held by columns is read back by rows.
-/
import Mathlib

namespace Flowgen.Lib

variable {α β ι : Type*}

/-! ## Chunks -/

/-- The chunks of what follows `current`, which belongs to the first of them. -/
def chunksFrom (n : ℕ+) (current : List α) : List α → List (List α)
  | [] => [current]
  | x :: xs =>
      if current.length < n then chunksFrom n (current ++ [x]) xs
      else current :: chunksFrom n [x] xs

/-- `slice::chunks`. -/
def chunks (n : ℕ+) : List α → List (List α)
  | [] => []
  | x :: xs => chunksFrom n [x] xs

variable (n : ℕ+)

theorem flatten_chunksFrom (xs : List α) : ∀ current, (chunksFrom n current xs).flatten =
    current ++ xs := by
  induction xs with
  | nil =>
      intro current
      rw [chunksFrom, List.flatten_singleton, List.append_nil]
  | cons x xs ih =>
      intro current
      rw [chunksFrom]
      split
      · rw [ih, List.append_assoc, List.singleton_append]
      · rw [List.flatten_cons, ih, List.singleton_append]

/-- The chunks are the list, in order. -/
theorem flatten_chunks (xs : List α) : (chunks n xs).flatten = xs := by
  cases xs with
  | nil => rfl
  | cons x xs => exact flatten_chunksFrom n xs [x]

/-! ## Columns -/

/-- The rows of columns of one length. -/
def rowsOf : List (List α) → List (List α)
  | [] => []
  | column :: columns =>
      (List.range column.length).map fun k => (column :: columns).filterMap (·[k]?)

theorem filterMap_getElem? (cell : ι → β → α) (rows : List β) (is : List ι) {k : ℕ} {row : β}
    (hrow : rows[k]? = some row) :
    (is.map fun i => rows.map (cell i)).filterMap (·[k]?) = is.map fun i => cell i row := by
  induction is with
  | nil => rfl
  | cons i is ih =>
      have hcell : (rows.map (cell i))[k]? = some (cell i row) := by
        rw [List.getElem?_map, hrow]
        rfl
      rw [List.map_cons, List.filterMap_cons_some (f := (·[k]?)) hcell, ih, List.map_cons]

/-- Columns that are made from rows, cell by cell, have the rows of these cells. -/
theorem rowsOf_map (cell : ι → β → α) (rows : List β) {is : List ι} (his : is ≠ []) :
    rowsOf (is.map fun i => rows.map (cell i)) = rows.map fun row => is.map fun i => cell i row := by
  cases is with
  | nil => exact absurd rfl his
  | cons i is =>
      have hrows : rowsOf ((i :: is).map fun i => rows.map (cell i)) =
          (List.range rows.length).map fun k =>
            ((i :: is).map fun i => rows.map (cell i)).filterMap (·[k]?) := by
        rw [List.map_cons, rowsOf, List.length_map]
      rw [hrows]
      refine List.ext_getElem? fun k => ?_
      rw [List.getElem?_map, List.getElem?_map]
      cases hrow : rows[k]? with
      | none =>
          have hk : rows.length ≤ k := List.getElem?_eq_none_iff.mp hrow
          rw [List.getElem?_eq_none (by rw [List.length_range]; exact hk)]
          rfl
      | some row =>
          obtain ⟨hk, -⟩ := List.getElem?_eq_some_iff.mp hrow
          rw [List.getElem?_range hk, Option.map_some, Option.map_some,
            filterMap_getElem? cell rows (i :: is) hrow]

end Flowgen.Lib
