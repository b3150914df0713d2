/-
# `Flowgen.Lib.Lines` — lines from a stream that comes in chunks

`split` takes the complete lines off a list and leaves the beginning of the next
one.  A reader that keeps this beginning and splits it again with each chunk
that comes finds the lines of the whole stream, however it was cut (`feed_eq`).
-/
import Mathlib

namespace Flowgen.Lib.Lines

variable {α : Type*} [DecidableEq α] (sep : α)

/-- The complete lines, without the separator, and what is left. -/
def split : List α → List (List α) × List α
  | [] => ([], [])
  | c :: cs =>
      if c = sep then ([] :: (split cs).1, (split cs).2)
      else
        match (split cs).1 with
        | line :: lines => ((c :: line) :: lines, (split cs).2)
        | [] => ([], c :: (split cs).2)

attribute [grind =] split

/-- The lines found chunk by chunk. -/
def feed (buffer : List α) : List (List α) → List (List α) × List α
  | [] => ([], buffer)
  | chunk :: chunks =>
      let found := split sep (buffer ++ chunk)
      (found.1 ++ (feed found.2 chunks).1, (feed found.2 chunks).2)

variable {sep} {xs ys line : List α} {lines chunks : List (List α)}

theorem split_line (h : sep ∉ line) :
    split sep (line ++ sep :: ys) = (line :: (split sep ys).1, (split sep ys).2) := by
  induction line with
  | nil => rw [List.nil_append, split, if_pos rfl]
  | cons c line ih =>
      obtain ⟨hc, hline⟩ := not_or.mp (List.mem_cons.not.mp h)
      rw [List.cons_append, split, ih hline, if_neg (Ne.symm hc)]

theorem split_rest (h : sep ∉ xs) : split sep xs = ([], xs) := by
  induction xs with
  | nil => rfl
  | cons c xs ih =>
      obtain ⟨hc, hxs⟩ := not_or.mp (List.mem_cons.not.mp h)
      rw [split, ih hxs, if_neg (Ne.symm hc)]

/-- Lines that are written are read again. -/
theorem split_lines (h : ∀ line ∈ lines, sep ∉ line) :
    split sep (lines.flatMap fun line => line ++ [sep]) = (lines, []) := by
  induction lines with
  | nil => rfl
  | cons line lines ih =>
      obtain ⟨hline, hlines⟩ := List.forall_mem_cons.mp h
      rw [List.flatMap_cons, List.append_assoc, List.singleton_append, split_line hline, ih hlines]

/-- What is left has no separator. -/
theorem not_mem_split_rest : sep ∉ (split sep xs).2 := by
  induction xs with
  | nil => exact List.not_mem_nil
  | cons c xs ih =>
      rw [split]
      split
      · exact ih
      · rename_i hc
        cases hlines : (split sep xs).1 with
        | nil => exact List.mem_cons.not.mpr (not_or.mpr ⟨Ne.symm hc, ih⟩)
        | cons line lines => exact ih

/-- To go on with what is left is to have had more from the beginning. -/
theorem split_append (xs ys : List α) : split sep (xs ++ ys) =
    ((split sep xs).1 ++ (split sep ((split sep xs).2 ++ ys)).1,
      (split sep ((split sep xs).2 ++ ys)).2) := by
  induction xs with
  | nil => rfl
  | cons c xs ih =>
      rw [List.cons_append, split, ih, split]
      split
      · rfl
      · rename_i hc
        cases hlines : (split sep xs).1 with
        | nil =>
            dsimp only
            rw [List.nil_append, List.nil_append, List.cons_append, split, if_neg hc]
        | cons line lines => rfl

theorem feed_eq {buffer : List α} (h : sep ∉ buffer) :
    feed sep buffer chunks = split sep (buffer ++ chunks.flatten) := by
  induction chunks generalizing buffer with
  | nil => rw [feed, List.flatten_nil, List.append_nil, split_rest h]
  | cons chunk chunks ih =>
      rw [feed, ih not_mem_split_rest, List.flatten_cons, ← List.append_assoc,
        split_append (buffer ++ chunk)]

end Flowgen.Lib.Lines
