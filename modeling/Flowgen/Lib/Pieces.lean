/-
# `Flowgen.Lib.Pieces` — lists cut at a separator

What is known of the pieces of a list that is cut at every occurrence of a
separator: none of them has the separator in it (`not_mem_of_mem_splitOn`).
-/
import Mathlib

namespace Flowgen.Lib.Pieces

variable {α : Type*} [DecidableEq α] {sep : α} {xs piece : List α}

/-- No piece has the separator in it. -/
theorem not_mem_of_mem_splitOn (h : piece ∈ xs.splitOn sep) : sep ∉ piece := by
  induction xs generalizing piece with
  | nil =>
      rw [List.splitOn_nil, List.mem_singleton] at h
      rw [h]
      exact List.not_mem_nil
  | cons x xs ih =>
      rw [List.splitOn_cons_eq_if_modifyHead] at h
      split at h
      · rcases List.mem_cons.mp h with rfl | h
        · exact List.not_mem_nil
        · exact ih h
      · rename_i hx
        obtain ⟨first, rest, heq⟩ := List.exists_cons_of_ne_nil (List.splitOn_ne_nil sep xs)
        have hfirst : sep ∉ first := ih (by rw [heq]; exact List.mem_cons_self)
        rw [heq] at h
        rcases List.mem_cons.mp h with rfl | h
        · intro hmem
          rcases List.mem_cons.mp hmem with rfl | hmem
          · exact hx (beq_self_eq_true _)
          · exact hfirst hmem
        · exact ih (by rw [heq]; exact List.mem_cons_of_mem _ h)

end Flowgen.Lib.Pieces
