/-
# `Flowgen.Lib.Saturating` — sums that stop at a largest value

A saturating sum only grows, so checking it against a bound after every
summand is the same as checking it once, at the end (`within_iff`); and the
saturated sum is the sum cut off once (`total_eq`).
-/
import Mathlib

namespace Flowgen.Lib.Saturating

variable {max bound a : Nat} {xs : List Nat}

/-- Addition that stops at `max`. -/
def add (max a b : Nat) : Nat := min (a + b) max

/-- The saturating sum of `xs`, from `a` on. -/
def total (max : Nat) : Nat → List Nat → Nat
  | a, [] => a
  | a, x :: xs => total max (add max a x) xs

/-- After every summand the sum is within the bound. -/
def Within (max bound : Nat) : Nat → List Nat → Prop
  | _, [] => True
  | a, x :: xs => add max a x ≤ bound ∧ Within max bound (add max a x) xs

theorem total_eq (ha : a ≤ max) : total max a xs = min (a + xs.sum) max := by
  induction xs generalizing a with
  | nil =>
      rw [total, List.sum_nil, Nat.add_zero]
      exact (Nat.min_eq_left ha).symm
  | cons x xs ih =>
      have hadd : add max a x ≤ max := Nat.min_le_right _ _
      rw [total, ih hadd, List.sum_cons, add]
      omega

theorem within_iff (ha : a ≤ max) (hbound : a ≤ bound) :
    Within max bound a xs ↔ min (a + xs.sum) max ≤ bound := by
  induction xs generalizing a with
  | nil =>
      rw [Within, List.sum_nil, Nat.add_zero, Nat.min_eq_left ha]
      exact iff_of_true trivial hbound
  | cons x xs ih =>
      have hadd : add max a x ≤ max := Nat.min_le_right _ _
      rw [Within, List.sum_cons]
      constructor
      · rintro ⟨hle, hrest⟩
        have hsum := (ih hadd hle).mp hrest
        rw [add] at hsum
        omega
      · intro h
        have hle : add max a x ≤ bound := by
          rw [add]
          omega
        refine ⟨hle, (ih hadd hle).mpr ?_⟩
        rw [add]
        omega

end Flowgen.Lib.Saturating
