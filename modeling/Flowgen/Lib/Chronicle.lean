/-
# `Flowgen.Lib.Chronicle` — what is said of each entry by those before it

A chronicle is a list of entries that grows at its end.  `Each P l` says that
`P` holds of every entry and of what stood before it when it was written, so it
is kept by writing an entry of which `P` holds (`each_concat`).
-/
import Mathlib

namespace Flowgen.Lib.Chronicle

variable {α : Type*} {P : List α → α → Prop} {l : List α} {e : α}

/-- `P` holds of each entry and what is before it. -/
def Each (P : List α → α → Prop) (l : List α) : Prop :=
  ∀ pre e post, l = pre ++ e :: post → P pre e

theorem each_nil : Each P [] := by
  intro pre e post h
  cases pre with
  | nil => cases h
  | cons x pre => cases h

/-- A chronicle goes on with an entry of which `P` holds. -/
theorem each_concat : Each P (l ++ [e]) ↔ Each P l ∧ P l e := by
  constructor
  · intro h
    refine ⟨?_, h l e [] rfl⟩
    rintro pre e' post rfl
    exact h pre e' (post ++ [e]) (by simp)
  · rintro ⟨h, he⟩ pre e' post heq
    rcases List.eq_nil_or_concat' post with rfl | ⟨post, last, rfl⟩
    · obtain ⟨rfl, hlast⟩ := List.append_inj' heq rfl
      cases hlast
      exact he
    · rw [← List.cons_append, ← List.append_assoc] at heq
      obtain ⟨rfl, -⟩ := List.append_inj' heq rfl
      exact h pre e' post rfl

end Flowgen.Lib.Chronicle
