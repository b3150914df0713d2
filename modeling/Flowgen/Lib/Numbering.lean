/-
# `Flowgen.Lib.Numbering` — renaming the values of a counter

A counter counts the writes of a cell and may start again; a clock gives each
write a time that never comes back.  `times` lists the times that the values
`0, 1, 2, …` of the counter stand for.  A renaming `Numbers` such a list if it
agrees with it on the values up to `fixed`, and elsewhere agrees with it or
points past `now`; so that it may still be made to agree with times that are
written later.

Renamings are followed backwards: one that numbers what a list has become also
numbers what it was (`Numbers.earlier`).
-/
import Mathlib

namespace Flowgen.Lib

/-- The times of the values `0, 1, 2, …`, up to `now`. -/
structure Times (times : List Nat) (now : Nat) : Prop where
  sorted : times.Pairwise (· < ·)
  past : ∀ x ∈ times, x ≤ now

structure Numbers (times : List Nat) (fixed now : Nat) (f : Nat → Nat) : Prop where
  mono : StrictMono f
  fixed : ∀ r ≤ fixed, times[r]? = some (f r)
  later : ∀ r, times[r]? = some (f r) ∨ now < f r

variable {times times' : List Nat} {fixed fixed' now now' r r' t : Nat} {f : Nat → Nat}

theorem Times.mono (h : Times times now) (hle : now ≤ now') : Times times now' :=
  ⟨h.sorted, fun x hx => (h.past x hx).trans hle⟩

theorem Times.concat (h : Times times now) (hlt : now < now') :
    Times (times ++ [now']) now' := by
  constructor
  · refine List.pairwise_append.mpr ⟨h.sorted, List.pairwise_singleton _ _, ?_⟩
    intro x hx y hy
    rw [List.mem_singleton.mp hy]
    exact (h.past x hx).trans_lt hlt
  · intro x hx
    rcases List.mem_append.mp hx with hx | hx
    · exact (h.past x hx).trans hlt.le
    · exact (List.mem_singleton.mp hx).le

theorem Times.take (h : Times times now) (n : Nat) : Times (times.take n) now :=
  ⟨h.sorted.sublist (List.take_sublist ..), fun x hx => h.past x (List.mem_of_mem_take hx)⟩

/-- A time stands for one value. -/
theorem Times.injective (h : Times times now) (hr : times[r]? = some t)
    (hr' : times[r']? = some t) : r = r' := by
  have hnd : times.Nodup := h.sorted.imp fun hlt => hlt.ne
  obtain ⟨hlt, hget⟩ := List.getElem?_eq_some_iff.mp hr
  obtain ⟨hlt', hget'⟩ := List.getElem?_eq_some_iff.mp hr'
  exact (hnd.getElem_inj_iff ..).mp (hget.trans hget'.symm)

/-- A list of times has a renaming. -/
theorem Times.exists_numbers (h : Times times now) (hfixed : fixed < times.length) :
    ∃ f, Numbers times fixed now f := by
  refine ⟨fun r => times.getD r (now + r), ?_, ?_, ?_⟩
  · refine strictMono_nat_of_lt_succ ?_
    intro r
    rcases Nat.lt_trichotomy (r + 1) times.length with hlt | heq | hgt
    · rw [List.getD_eq_getElem _ _ (by omega), List.getD_eq_getElem _ _ hlt]
      exact List.pairwise_iff_getElem.mp h.sorted r (r + 1) (by omega) hlt (by omega)
    · have hr : r < times.length := by omega
      rw [List.getD_eq_getElem _ _ hr, List.getD_eq_default _ _ (by omega)]
      have := h.past _ (List.getElem_mem hr)
      omega
    · rw [List.getD_eq_default _ _ (by omega), List.getD_eq_default _ _ (by omega)]
      omega
  · intro r hr
    have hlt : r < times.length := by omega
    rw [List.getD_eq_getElem _ _ hlt]
    exact List.getElem?_eq_getElem hlt
  · intro r
    rcases Nat.lt_or_ge r times.length with hlt | hge
    · left
      rw [List.getD_eq_getElem _ _ hlt]
      exact List.getElem?_eq_getElem hlt
    · right
      rw [List.getD_eq_default _ _ hge]
      omega

/-- What numbers a list of times numbers what the list was, if the list has only
changed behind the fixed values, and there only to times past `now`. -/
theorem Numbers.earlier (h : Numbers times' fixed' now' f) (hnow : now ≤ now')
    (hfixed : fixed ≤ fixed')
    (hkeep : ∀ r t : Nat, r ≤ fixed → times'[r]? = some t → times[r]? = some t)
    (hlater : ∀ r t : Nat, times'[r]? = some t → times[r]? = some t ∨ now < t) :
    Numbers times fixed now f := by
  refine ⟨h.mono, ?_, ?_⟩
  · intro r hr
    exact hkeep r _ hr (h.fixed r (hr.trans hfixed))
  · intro r
    rcases h.later r with hr | hr
    · exact hlater r _ hr
    · exact Or.inr (hnow.trans_lt hr)

/-- Time has passed. -/
theorem Numbers.of_now (h : Numbers times fixed' now' f) (hnow : now ≤ now')
    (hfixed : fixed ≤ fixed') : Numbers times fixed now f :=
  h.earlier hnow hfixed (fun _ _ _ hr => hr) fun _ _ hr => Or.inl hr

/-- A time was added. -/
theorem Numbers.of_concat (h : Numbers (times ++ [now']) fixed' now' f) (hnow : now < now')
    (hfixed : fixed ≤ fixed') (hlt : fixed < times.length) : Numbers times fixed now f := by
  refine h.earlier hnow.le hfixed ?_ ?_
  · intro r t hr ht
    rw [List.getElem?_append_left (by omega)] at ht
    exact ht
  · intro r t ht
    rcases Nat.lt_or_ge r times.length with hr | hr
    · rw [List.getElem?_append_left hr] at ht
      exact Or.inl ht
    · rw [List.getElem?_append_right hr] at ht
      right
      have hmem := List.mem_of_getElem? ht
      rw [List.mem_singleton.mp hmem]
      exact hnow

/-- The values behind the fixed ones were given up. -/
theorem Numbers.of_take (h : Numbers (times.take (fixed' + 1)) fixed' now' f) (hnow : now ≤ now')
    (hfixed : fixed ≤ fixed') : Numbers times fixed now f := by
  have hkeep : ∀ r t : Nat, (times.take (fixed' + 1))[r]? = some t → times[r]? = some t := by
    intro r t ht
    rw [List.getElem?_take] at ht
    split at ht
    · exact ht
    · cases ht
  exact h.earlier hnow hfixed (fun r t _ => hkeep r t) fun r t ht => Or.inl (hkeep r t ht)

/-- A value that no time up to `now` stands for is not renamed to one. -/
theorem Numbers.ne_now (h : Numbers times fixed now f) (hr : times[r]? ≠ some now) :
    f r ≠ now := by
  intro hf
  rcases h.later r with hr' | hlt
  · rw [hf] at hr'
    exact hr hr'
  · omega

end Flowgen.Lib
