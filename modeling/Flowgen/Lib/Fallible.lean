/-
# `Flowgen.Lib.Fallible` — computations that may fail

What a computation in `Except` has done if it succeeded.
-/
import Mathlib

namespace Flowgen.Lib

universe u v

variable {ε : Type u} {α β : Type v}

/-- A sequence succeeds if and only if its two parts do. -/
theorem bind_eq_ok {x : Except ε α} {f : α → Except ε β} {b : β} :
    x >>= f = .ok b ↔ ∃ a, x = .ok a ∧ f a = .ok b := by
  cases x with
  | error e =>
      constructor
      · intro h
        cases h
      · rintro ⟨a, h, -⟩
        cases h
  | ok a =>
      constructor
      · intro h
        exact ⟨a, rfl, h⟩
      · rintro ⟨a', h, hf⟩
        cases h
        exact hf

/-- Two sequences with one first part agree if and only if what follows its
success does. -/
theorem bind_eq_bind_iff {x : Except ε α} {f g : α → Except ε β} :
    x >>= f = x >>= g ↔ ∀ a, x = .ok a → f a = g a := by
  cases x with
  | error e =>
      constructor
      · intro _ a h
        cases h
      · intro _
        rfl
  | ok a =>
      constructor
      · intro h a' ha
        cases ha
        exact h
      · intro h
        exact h a rfl

theorem map_eq_ok {x : Except ε α} {f : α → β} {y : β} (h : x.map f = .ok y) :
    ∃ z, x = .ok z ∧ f z = y := by
  cases x with
  | error e => cases h
  | ok z => exact ⟨z, rfl, Except.ok.inj h⟩

theorem elim_eq_ok {x : Option α} {e : ε} {a : α} :
    x.elim (.error e) .ok = Except.ok a ↔ x = some a := by
  cases x with
  | none => simp
  | some a' => simp

/-! ## Loops -/

/-- A loop succeeds if and only if every turn of it does. -/
theorem mapM_eq_ok_iff {f : α → Except ε β} {xs : List α} {ys : List β} :
    xs.mapM f = .ok ys ↔ List.Forall₂ (fun x y => f x = .ok y) xs ys := by
  induction xs generalizing ys with
  | nil =>
      rw [List.forall₂_nil_left_iff]
      constructor
      · intro h
        cases h
        rfl
      · rintro rfl
        rfl
  | cons x xs ih =>
      rw [List.mapM_cons, bind_eq_ok, List.forall₂_cons_left_iff]
      constructor
      · rintro ⟨y, hy, h⟩
        obtain ⟨rest, hrest, h⟩ := bind_eq_ok.mp h
        cases h
        exact ⟨y, rest, hy, ih.mp hrest, rfl⟩
      · rintro ⟨y, rest, hy, hrest, rfl⟩
        exact ⟨y, hy, bind_eq_ok.mpr ⟨rest, ih.mpr hrest, rfl⟩⟩

/-- What a loop over all items of some groups yields can be grouped alike. -/
theorem forall₂_flatMap {γ : Type*} {R : β → γ → Prop} {f : α → List β} {xs : List α}
    {ys : List γ} :
    List.Forall₂ R (xs.flatMap f) ys ↔
      ∃ groups, ys = groups.flatten ∧
        List.Forall₂ (fun x group => List.Forall₂ R (f x) group) xs groups := by
  induction xs generalizing ys with
  | nil =>
      rw [List.flatMap_nil, List.forall₂_nil_left_iff]
      constructor
      · rintro rfl
        exact ⟨[], rfl, .nil⟩
      · rintro ⟨groups, rfl, h⟩
        cases h
        rfl
  | cons x xs ih =>
      rw [List.flatMap_cons]
      constructor
      · intro h
        have hgroup := (List.forall₂_take_append _ _ _ h.flip).flip
        have hrest := (List.forall₂_drop_append _ _ _ h.flip).flip
        obtain ⟨groups, heq, hgroups⟩ := ih.mp hrest
        refine ⟨ys.take (f x).length :: groups, ?_, .cons hgroup hgroups⟩
        rw [List.flatten_cons, ← heq, List.take_append_drop]
      · rintro ⟨groups, rfl, h⟩
        cases h with
        | cons hgroup hgroups =>
            exact List.rel_append hgroup (ih.mpr ⟨_, rfl, hgroups⟩)

end Flowgen.Lib
