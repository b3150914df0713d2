/-
# `Flowgen.Lib.WaitGraph` — who waits for what, directly or through others

Somebody asks for something and gets it when it is done; one thing may hold up
another, which is then not done before it is.  Who waits for a thing are those
who asked for it, or for something it holds up, over any number of steps.

The graph grows while the system runs.  `Waits.within` is the rule for that:
what is known of a set of things that hold up nothing outside it is not changed
by what happens elsewhere.
-/
import Mathlib

namespace Flowgen.Lib

/-- `asks a b`: `a` wants `b` done.  `holdsUp b c`: `c` is not done before `b`. -/
structure WaitGraph (α β : Type*) where
  asks : α → β → Prop
  holdsUp : β → β → Prop

namespace WaitGraph

variable {α β : Type*} {g g' : WaitGraph α β} {a : α} {b c : β} {S : Set β}

/-- `a` waits for `b`, directly or through what `b` holds up. -/
def Waits (g : WaitGraph α β) (a : α) (b : β) : Prop :=
  ∃ c, Relation.ReflTransGen g.holdsUp b c ∧ g.asks a c

theorem Waits.of_asks (h : g.asks a b) : g.Waits a b := ⟨b, .refl, h⟩

theorem Waits.of_holdsUp (hbc : g.holdsUp b c) (h : g.Waits a c) : g.Waits a b := by
  obtain ⟨d, hcd, hd⟩ := h
  exact ⟨d, hcd.head hbc, hd⟩

/-- Who waits for `b` asked for it, or waits for something that it holds up. -/
theorem waits_iff : g.Waits a b ↔ g.asks a b ∨ ∃ c, g.holdsUp b c ∧ g.Waits a c := by
  constructor
  · rintro ⟨d, hbd, hd⟩
    rcases hbd.cases_head with rfl | ⟨c, hbc, hcd⟩
    · exact Or.inl hd
    · exact Or.inr ⟨c, hbc, d, hcd, hd⟩
  · rintro (h | ⟨c, hbc, h⟩)
    · exact .of_asks h
    · exact .of_holdsUp hbc h

/-- Inside a set that what it holds up does not leave, only the edges of the
set count. -/
theorem Waits.within (h : g.Waits a b) (hb : b ∈ S) (hasks : ∀ b ∈ S, g.asks a b → g'.asks a b)
    (hholds : ∀ b ∈ S, ∀ c, g.holdsUp b c → c ∈ S ∧ g'.holdsUp b c) : g'.Waits a b := by
  obtain ⟨d, hbd, hd⟩ := h
  induction hbd using Relation.ReflTransGen.head_induction_on with
  | refl => exact .of_asks (hasks d hb hd)
  | head hbc _ ih =>
      obtain ⟨hc, hbc'⟩ := hholds _ hb _ hbc
      exact .of_holdsUp hbc' (ih hc)

end WaitGraph

end Flowgen.Lib
