/-
# `Flowgen.Lib.Log` — append-only logs and how far they are read

A log holds records at increasing positions.  It only grows at its end, and a
position there may stay without a record.  `Passed P a b` says that every record
from `a` on and before `b` has the property `P`: it is what a reader that is at
`b` and was started at `a` has to show for itself.  A reader moves on record by
record (`Passed.read`, `Passed.succ`) or by batches (`Passed.batch`), and nothing
that is appended later comes before it (`Passed.extend`).
-/
import Mathlib

namespace Flowgen.Lib

/-- A log: where it begins, where it will go on, and its records. -/
structure Log (α : Type*) where
  start : Int
  next : Int
  records : List (Int × α)
  start_le : start ≤ next
  sorted : records.Pairwise fun r r' => r.1 < r'.1
  within : ∀ r ∈ records, start ≤ r.1 ∧ r.1 < next

namespace Log

variable {α : Type*} {l l' : Log α} {P Q : Int × α → Prop} {a b c : Int} {x : Option α}
  {r last : Int × α} {n : Nat}

/-- A log that begins at a position, without records. -/
def empty (a : Int) : Log α where
  start := a
  next := a
  records := []
  start_le := le_refl a
  sorted := List.Pairwise.nil
  within := by
    intro r hr
    cases hr

/-- One position more, with a record or without. -/
def push (l : Log α) (x : Option α) : Log α where
  start := l.start
  next := l.next + 1
  records := l.records ++ (x.map fun a => (l.next, a)).toList
  start_le := Int.le_add_one l.start_le
  sorted := by
    refine List.pairwise_append.mpr ⟨l.sorted, ?_, ?_⟩
    · cases x with
      | none => exact List.Pairwise.nil
      | some a => exact List.pairwise_singleton _ _
    · intro r hr r' hr'
      obtain ⟨a, -, rfl⟩ := Option.map_eq_some_iff.mp (Option.mem_toList.mp hr')
      exact (l.within r hr).2
  within := by
    intro r hr
    rcases List.mem_append.mp hr with hr | hr
    · have := l.within r hr
      omega
    · obtain ⟨a, -, rfl⟩ := Option.map_eq_some_iff.mp (Option.mem_toList.mp hr)
      have := l.start_le
      dsimp only
      omega

@[simp] theorem push_start (l : Log α) (x : Option α) : (l.push x).start = l.start := rfl

@[simp] theorem push_next (l : Log α) (x : Option α) : (l.push x).next = l.next + 1 := rfl

theorem mem_push (h : r ∈ (l.push x).records) : r ∈ l.records ∨ r.1 = l.next := by
  rcases List.mem_append.mp h with hr | hr
  · exact Or.inl hr
  · obtain ⟨a, -, rfl⟩ := Option.map_eq_some_iff.mp (Option.mem_toList.mp hr)
    exact Or.inr rfl

/-- What has become of a log: there may be more at its end. -/
structure Extends (l l' : Log α) : Prop where
  start : l'.start = l.start
  next : l.next ≤ l'.next
  mem : ∀ r ∈ l'.records, r ∈ l.records ∨ l.next ≤ r.1

theorem Extends.refl (l : Log α) : Extends l l := ⟨rfl, le_refl _, fun _ hr => Or.inl hr⟩

theorem extends_push (l : Log α) (x : Option α) : Extends l (l.push x) := by
  refine ⟨rfl, ?_, ?_⟩
  · rw [push_next]
    omega
  · intro r hr
    exact (mem_push hr).imp id ge_of_eq

/-- The first record at or after a position. -/
def from? (l : Log α) (a : Int) : Option (Int × α) := l.records.find? fun r => a ≤ r.1

theorem mem_of_from? (h : l.from? a = some r) : r ∈ l.records := List.mem_of_find?_eq_some h

theorem le_of_from? (h : l.from? a = some r) : a ≤ r.1 := by
  have hle := List.find?_some (p := fun r : Int × α => decide (a ≤ r.1)) h
  exact of_decide_eq_true hle

/-- There is no record between a position and the first one from there. -/
theorem from?_min (h : l.from? a = some r) {r' : Int × α} (hr' : r' ∈ l.records) (ha : a ≤ r'.1) :
    r.1 ≤ r'.1 := by
  obtain ⟨-, before, after, hsplit, hbefore⟩ := List.find?_eq_some_iff_append.mp h
  rw [hsplit] at hr'
  rcases List.mem_append.mp hr' with hr' | hr'
  · have hlt := hbefore r' hr'
    rw [decide_eq_true ha] at hlt
    cases hlt
  · rcases List.mem_cons.mp hr' with rfl | hr'
    · exact le_refl _
    · have hsorted := l.sorted
      rw [hsplit] at hsorted
      have hafter := (List.pairwise_append.mp hsorted).2.1
      exact (List.rel_of_pairwise_cons hafter hr').le

/-- Every record from `a` on and before `b` has the property. -/
def Passed (l : Log α) (P : Int × α → Prop) (a b : Int) : Prop :=
  ∀ r ∈ l.records, a ≤ r.1 → r.1 < b → P r

instance [DecidablePred P] : Decidable (l.Passed P a b) :=
  inferInstanceAs (Decidable (∀ r ∈ l.records, a ≤ r.1 → r.1 < b → P r))

theorem Passed.refl (l : Log α) (P : Int × α → Prop) (a : Int) : l.Passed P a a := by
  intro r _ ha hb
  omega

theorem Passed.mono (h : l.Passed P a b) (hPQ : ∀ r, P r → Q r) : l.Passed Q a b := by
  intro r hr ha hb
  exact hPQ _ (h r hr ha hb)

theorem Passed.anti (h : l.Passed P a b) (hc : c ≤ b) : l.Passed P a c := by
  intro r hr ha hb
  exact h r hr ha (by omega)

/-- Nothing lies before the next record that was not passed already. -/
theorem Passed.read (h : l.Passed P a b) (hr : l.from? b = some r) : l.Passed P a r.1 := by
  intro r' hr' ha hlt
  rcases Int.lt_or_le r'.1 b with hb | hb
  · exact h r' hr' ha hb
  · have := from?_min hr hr' hb
    omega

/-- A record with the property is passed. -/
theorem Passed.succ (h : l.Passed P a b) (hP : ∀ r ∈ l.records, r.1 = b → P r) :
    l.Passed P a (b + 1) := by
  intro r hr ha hb
  rcases Int.lt_or_le r.1 b with hlt | hle
  · exact h r hr ha hlt
  · exact hP r hr (by omega)

/-- What is appended comes after a reader within the log. -/
theorem Passed.extend (h : l.Passed P a b) (hl : Extends l l') (hb : b ≤ l.next) :
    l'.Passed P a b := by
  intro r hr ha hlt
  rcases hl.mem r hr with hr | hle
  · exact h r hr ha hlt
  · omega

/-- There is nothing to pass where no record lies before the position. -/
theorem Passed.of_forall_le (h : ∀ r ∈ l.records, b ≤ r.1) : l.Passed P a b := by
  intro r hr _ hb
  have := h r hr
  omega

/-! ## Batches -/

/-- The records at or after a position. -/
def rest (l : Log α) (a : Int) : List (Int × α) := l.records.filter fun r => a ≤ r.1

/-- The next `n` records from a position, or as many as there are. -/
def batch (l : Log α) (n : Nat) (a : Int) : List (Int × α) := (l.rest a).take n

theorem mem_rest : r ∈ l.rest a ↔ r ∈ l.records ∧ a ≤ r.1 := by
  unfold rest
  rw [List.mem_filter, decide_eq_true_iff]

theorem mem_of_batch (h : r ∈ l.batch n a) : r ∈ l.records ∧ a ≤ r.1 :=
  mem_rest.mp (List.mem_of_mem_take h)

/-- The records of a batch stand before those that are left. -/
theorem pairwise_batch (l : Log α) (n : Nat) (a : Int) :
    (l.batch n a ++ (l.rest a).drop n).Pairwise fun r r' => r.1 < r'.1 := by
  unfold batch
  rw [List.take_append_drop]
  exact l.sorted.filter _

/-- A record of a batch is not after its last one. -/
theorem le_getLast_of_batch (h : (l.batch n a).getLast? = some last) (hr : r ∈ l.batch n a) :
    r.1 ≤ last.1 := by
  obtain ⟨before, hbatch⟩ := List.getLast?_eq_some_iff.mp h
  have hpair := (List.pairwise_append.mp (pairwise_batch l n a)).1
  rw [hbatch] at hr hpair
  rcases List.mem_append.mp hr with hr | hr
  · exact ((List.pairwise_append.mp hpair).2.2 r hr last (List.mem_singleton_self _)).le
  · rw [List.mem_singleton.mp hr]

/-- A batch whose records have the property is passed. -/
theorem Passed.batch (h : l.Passed P a b) (hlast : (l.batch n b).getLast? = some last)
    (hP : ∀ r ∈ l.batch n b, P r) : l.Passed P a (last.1 + 1) := by
  intro r hr ha hlt
  rcases Int.lt_or_le r.1 b with hb | hb
  · exact h r hr ha hb
  · have hmem := mem_rest.mpr ⟨hr, hb⟩
    rw [← List.take_append_drop n (l.rest b)] at hmem
    rcases List.mem_append.mp hmem with hmem | hmem
    · exact hP r hmem
    · have := (List.pairwise_append.mp (pairwise_batch l n b)).2.2 last
        (List.mem_of_getLast? hlast) r hmem
      omega

end Log

end Flowgen.Lib
