/-
# `Flowgen.Lib.Slots` — the parties of a machine, kept in a list

A machine with parties that come one after the other keeps them in a list and
names them by their position.  A step sets one slot or adds one at the end.
-/
import Mathlib

namespace Flowgen.Lib

variable {α : Type*} {l : List α} {x y : α} {i j : Nat}

/-- What is found after a slot has been set. -/
theorem get_set (h : (l.set i x)[j]? = some y) : j = i ∧ y = x ∨ j ≠ i ∧ l[j]? = some y := by
  rw [List.getElem?_set] at h
  split at h
  · rename_i hij
    split at h
    · exact Or.inl ⟨hij.symm, (Option.some.inj h).symm⟩
    · cases h
  · rename_i hij
    exact Or.inr ⟨fun hji => hij hji.symm, h⟩

/-- What is found after a slot has been added. -/
theorem get_concat (h : (l ++ [x])[j]? = some y) : l[j]? = some y ∨ j = l.length ∧ y = x := by
  rcases Nat.lt_trichotomy j l.length with hlt | rfl | hgt
  · exact Or.inl (List.getElem?_append_left hlt ▸ h)
  · rw [List.getElem?_concat_length] at h
    exact Or.inr ⟨rfl, (Option.some.inj h).symm⟩
  · rw [List.getElem?_eq_none (by simp; omega)] at h
    cases h

end Flowgen.Lib
