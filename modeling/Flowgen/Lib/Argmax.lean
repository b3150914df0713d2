/-
# `Flowgen.Lib.Argmax` — the greatest of a list by a key that tells its elements apart

Where no two elements have the same key, the greatest does not depend on how
the list is arranged (`argmax_perm`), one more element is the greatest or
changes nothing (`argmax_of_perm_cons`), and so is one fewer.
-/
import Mathlib

namespace Flowgen.Lib

variable {α β : Type*} [LinearOrder β] {key : α → β} {xs ys : List α} {a : α}

theorem argmax_eq_some_iff (hkey : Function.Injective key) :
    xs.argmax key = some a ↔ a ∈ xs ∧ ∀ b ∈ xs, key b ≤ key a := by
  constructor
  · intro h
    exact ⟨List.argmax_mem h, fun b hb => List.le_of_mem_argmax hb h⟩
  · rintro ⟨ha, hmax⟩
    cases hm : xs.argmax key with
    | none =>
        rw [List.argmax_eq_none.mp hm] at ha
        cases ha
    | some m =>
        have hle : key a ≤ key m := List.le_of_mem_argmax ha hm
        exact congrArg some (hkey (le_antisymm (hmax m (List.argmax_mem hm)) hle))

/-- Lists with the same elements have the same greatest one. -/
theorem argmax_congr (hkey : Function.Injective key) (h : ∀ a, a ∈ xs ↔ a ∈ ys) :
    xs.argmax key = ys.argmax key := by
  ext a
  rw [argmax_eq_some_iff hkey, argmax_eq_some_iff hkey]
  simp only [h]

theorem argmax_perm (hkey : Function.Injective key) (h : xs.Perm ys) :
    xs.argmax key = ys.argmax key :=
  argmax_congr hkey fun _ => h.mem_iff

/-- One more element is the greatest, or the greatest stays. -/
theorem argmax_of_perm_cons (hkey : Function.Injective key) (h : xs.Perm (a :: ys)) :
    xs.argmax key = some a ∨ xs.argmax key = ys.argmax key := by
  cases hm : xs.argmax key with
  | none =>
      rw [List.argmax_eq_none.mp hm] at h
      cases h.length_eq
  | some m =>
      obtain ⟨hmem, hmax⟩ := (argmax_eq_some_iff hkey).mp hm
      rcases List.mem_cons.mp (h.mem_iff.mp hmem) with rfl | hmem
      · exact .inl rfl
      · refine .inr ((argmax_eq_some_iff hkey).mpr ⟨hmem, fun b hb => ?_⟩).symm
        exact hmax b (h.mem_iff.mpr (List.mem_cons_of_mem _ hb))

end Flowgen.Lib
