/-
# `Flowgen.Lib.SortedMap` — maps kept in the order of their keys

A list of entries with strictly ascending keys.  Looking up a key is enough to
know the map (`find_eq_some`), so every operation has one lemma that says what
can be looked up after it.

Reading on from a key as long as a condition holds finds every key that meets
it, if those keys lie side by side from there on (`mem_rangeWhile`).  The keys
with one prefix do (`prefix_interval`).
-/
import Mathlib

namespace Flowgen.Lib

structure SortedMap (κ : Type*) (β : Type*) [LinearOrder κ] where
  entries : List (κ × β)
  sorted : entries.Pairwise fun a b => a.1 < b.1

namespace SortedMap

variable {κ β : Type*} [LinearOrder κ] {k k' lo : κ} {v : β} {m : SortedMap κ β} {ks : List κ}

def empty : SortedMap κ β := ⟨[], .nil⟩

def find (m : SortedMap κ β) (k : κ) : Option β :=
  (m.entries.find? fun e => e.1 = k).map (·.2)

def keys (m : SortedMap κ β) : List κ := m.entries.map (·.1)

def values (m : SortedMap κ β) : List β := m.entries.map (·.2)

/-- The entries with `k` at its place. -/
def insertInto (k : κ) (v : β) : List (κ × β) → List (κ × β)
  | [] => [(k, v)]
  | e :: es =>
      if k < e.1 then (k, v) :: e :: es
      else if k = e.1 then (k, v) :: es
      else e :: insertInto k v es

theorem mem_insertInto {e : κ × β} {es : List (κ × β)} (h : e ∈ insertInto k v es) :
    e = (k, v) ∨ e ∈ es := by
  induction es with
  | nil => exact .inl (List.mem_singleton.mp h)
  | cons e' es ih =>
      rw [insertInto] at h
      split at h
      · exact List.mem_cons.mp h
      · split at h
        · exact (List.mem_cons.mp h).imp_right (List.mem_cons_of_mem _)
        · rcases List.mem_cons.mp h with rfl | hmem
          · exact .inr List.mem_cons_self
          · exact (ih hmem).imp_right (List.mem_cons_of_mem _)

theorem sorted_insertInto {es : List (κ × β)} (h : es.Pairwise fun a b => a.1 < b.1) :
    (insertInto k v es).Pairwise fun a b => a.1 < b.1 := by
  induction es with
  | nil => exact List.pairwise_singleton _ _
  | cons e es ih =>
      obtain ⟨hhead, htail⟩ := List.pairwise_cons.mp h
      rw [insertInto]
      split
      · rename_i hlt
        refine List.pairwise_cons.mpr ⟨?_, h⟩
        intro a ha
        rcases List.mem_cons.mp ha with rfl | hmem
        · exact hlt
        · exact lt_trans hlt (hhead a hmem)
      · rename_i hnlt
        split
        · rename_i heq
          subst heq
          exact List.pairwise_cons.mpr ⟨hhead, htail⟩
        · rename_i hne
          refine List.pairwise_cons.mpr ⟨?_, ih htail⟩
          intro a ha
          rcases mem_insertInto ha with rfl | hmem
          · exact lt_of_le_of_ne (not_lt.mp hnlt) (Ne.symm hne)
          · exact hhead a hmem

def insert (m : SortedMap κ β) (k : κ) (v : β) : SortedMap κ β :=
  ⟨insertInto k v m.entries, sorted_insertInto m.sorted⟩

def erase (m : SortedMap κ β) (k : κ) : SortedMap κ β :=
  ⟨m.entries.filter fun e => e.1 ≠ k, m.sorted.filter _⟩

def eraseAll (m : SortedMap κ β) (ks : List κ) : SortedMap κ β := ks.foldl erase m

/-- The keys from `lo` on, as long as `p` holds. -/
def rangeWhile (m : SortedMap κ β) (lo : κ) (p : κ → Bool) : List κ :=
  (m.keys.filter fun k => lo ≤ k).takeWhile p

theorem find_eq_some : m.find k = some v ↔ (k, v) ∈ m.entries := by
  obtain ⟨entries, sorted⟩ := m
  change (entries.find? _).map _ = some v ↔ (k, v) ∈ entries
  induction entries with
  | nil => simp
  | cons e es ih =>
      obtain ⟨hhead, htail⟩ := List.pairwise_cons.mp sorted
      obtain ⟨k', v'⟩ := e
      by_cases hk : k' = k
      · subst hk
        rw [List.find?_cons_of_pos (by simp), List.mem_cons]
        constructor
        · intro h
          cases h
          exact .inl rfl
        · rintro (h | h)
          · cases h
            rfl
          · exact absurd (hhead _ h) (lt_irrefl _)
      · rw [List.find?_cons_of_neg (by simpa using hk), ih htail, List.mem_cons]
        constructor
        · exact .inr
        · rintro (h | h)
          · cases h
            exact absurd rfl hk
          · exact h

theorem isSome_find : (m.find k).isSome ↔ k ∈ m.keys := by
  rw [Option.isSome_iff_exists, keys, List.mem_map]
  constructor
  · rintro ⟨v, hv⟩
    exact ⟨(k, v), find_eq_some.mp hv, rfl⟩
  · rintro ⟨⟨k', v⟩, hmem, rfl⟩
    exact ⟨v, find_eq_some.mpr hmem⟩

theorem mem_values : v ∈ m.values ↔ ∃ k, m.find k = some v := by
  rw [values, List.mem_map]
  constructor
  · rintro ⟨⟨k, v⟩, hmem, rfl⟩
    exact ⟨k, find_eq_some.mpr hmem⟩
  · rintro ⟨k, hk⟩
    exact ⟨(k, v), find_eq_some.mp hk, rfl⟩

theorem mem_insert {e : κ × β} : e ∈ (m.insert k v).entries ↔
    e = (k, v) ∨ (e ∈ m.entries ∧ e.1 ≠ k) := by
  obtain ⟨entries, sorted⟩ := m
  change e ∈ insertInto k v entries ↔ e = (k, v) ∨ (e ∈ entries ∧ e.1 ≠ k)
  induction entries with
  | nil => simp [insertInto]
  | cons e' es ih =>
      obtain ⟨hhead, htail⟩ := List.pairwise_cons.mp sorted
      rw [insertInto]
      split
      · rename_i hlt
        have hne : ∀ a ∈ e' :: es, a.1 ≠ k := by
          intro a ha
          rcases List.mem_cons.mp ha with rfl | hmem
          · exact ne_of_gt hlt
          · exact ne_of_gt (lt_trans hlt (hhead a hmem))
        rw [List.mem_cons]
        exact or_congr_right ⟨fun h => ⟨h, hne e h⟩, fun h => h.1⟩
      · split
        · rename_i heq
          have hne : ∀ a ∈ es, a.1 ≠ k := fun a ha => ne_of_gt (heq ▸ hhead a ha)
          rw [List.mem_cons, List.mem_cons]
          refine or_congr_right ⟨fun h => ⟨.inr h, hne e h⟩, ?_⟩
          rintro ⟨rfl | h, hk⟩
          · exact absurd heq.symm hk
          · exact h
        · rename_i hne
          rw [List.mem_cons, List.mem_cons, ih htail]
          constructor
          · rintro (rfl | h | ⟨h, hk⟩)
            · exact .inr ⟨.inl rfl, Ne.symm hne⟩
            · exact .inl h
            · exact .inr ⟨.inr h, hk⟩
          · rintro (h | ⟨rfl | h, hk⟩)
            · exact .inr (.inl h)
            · exact .inl rfl
            · exact .inr (.inr ⟨h, hk⟩)

theorem find_insert : (m.insert k v).find k' = if k' = k then some v else m.find k' := by
  refine Option.ext fun w => ?_
  rw [find_eq_some, mem_insert, Prod.mk.injEq]
  split
  · rename_i hk
    rw [Option.some.injEq]
    constructor
    · rintro (⟨-, rfl⟩ | ⟨-, hne⟩)
      · rfl
      · exact absurd hk hne
    · rintro rfl
      exact .inl ⟨hk, rfl⟩
  · rename_i hk
    rw [find_eq_some]
    constructor
    · rintro (⟨heq, -⟩ | ⟨hmem, -⟩)
      · exact absurd heq hk
      · exact hmem
    · intro hmem
      exact .inr ⟨hmem, hk⟩

theorem find_erase : (m.erase k).find k' = if k' = k then none else m.find k' := by
  refine Option.ext fun w => ?_
  rw [find_eq_some, erase, List.mem_filter, decide_eq_true_eq]
  split
  · rename_i hk
    constructor
    · intro h
      exact absurd hk h.2
    · intro h
      cases h
  · rename_i hk
    rw [find_eq_some]
    exact and_iff_left hk

theorem find_eraseAll : (m.eraseAll ks).find k = if k ∈ ks then none else m.find k := by
  induction ks generalizing m with
  | nil => rfl
  | cons k' ks ih =>
      have hstep : (m.eraseAll (k' :: ks)).find k = ((m.erase k').eraseAll ks).find k := rfl
      rw [hstep, ih, find_erase]
      by_cases hk : k = k'
      · rw [if_pos hk, ite_self, if_pos (hk ▸ List.mem_cons_self)]
      · by_cases hmem : k ∈ ks
        · rw [if_pos hmem, if_pos (List.mem_cons_of_mem _ hmem)]
        · rw [if_neg hmem, if_neg hk, if_neg fun h => (List.mem_cons.mp h).elim hk hmem]

theorem mem_takeWhile {p : κ → Bool} {l : List κ} (h : l.Pairwise (· < ·))
    (hdown : ∀ a ∈ l, ∀ b, a ≤ b → p b = true → p a = true) :
    k ∈ l.takeWhile p ↔ k ∈ l ∧ p k = true := by
  induction l with
  | nil => simp
  | cons a l ih =>
      obtain ⟨hhead, htail⟩ := List.pairwise_cons.mp h
      rw [List.takeWhile_cons]
      split
      · rename_i hp
        rw [List.mem_cons, List.mem_cons, ih htail fun a ha => hdown a (List.mem_cons_of_mem _ ha)]
        constructor
        · rintro (rfl | ⟨hmem, hk⟩)
          · exact ⟨.inl rfl, hp⟩
          · exact ⟨.inr hmem, hk⟩
        · rintro ⟨rfl | hmem, hk⟩
          · exact .inl rfl
          · exact .inr ⟨hmem, hk⟩
      · rename_i hp
        refine iff_of_false List.not_mem_nil ?_
        rintro ⟨hmem, hk⟩
        rcases List.mem_cons.mp hmem with rfl | hmem
        · exact hp hk
        · exact hp (hdown a List.mem_cons_self k (le_of_lt (hhead k hmem)) hk)

theorem mem_rangeWhile {p : κ → Bool} (hfrom : ∀ k, p k = true → lo ≤ k)
    (hdown : ∀ a b, lo ≤ a → a ≤ b → p b = true → p a = true) :
    k ∈ m.rangeWhile lo p ↔ k ∈ m.keys ∧ p k = true := by
  have hkeys : m.keys.Pairwise (· < ·) := List.pairwise_map.mpr m.sorted
  have hlo : ∀ a ∈ m.keys.filter fun k => lo ≤ k, lo ≤ a :=
    fun a ha => of_decide_eq_true (List.mem_filter.mp ha).2
  rw [rangeWhile, mem_takeWhile (hkeys.filter _) fun a ha b => hdown a b (hlo a ha),
    List.mem_filter, decide_eq_true_eq, and_assoc]
  exact and_congr_right fun _ => and_iff_right_of_imp (hfrom k)

/-- The lists that begin with `l` lie side by side. -/
theorem prefix_interval {α : Type*} [LinearOrder α] {l a b : List α} (hl : ¬ a < l) (hab : ¬ b < a)
    (hb : l <+: b) : l <+: a := by
  obtain ⟨rest, rfl⟩ := hb
  induction l generalizing a with
  | nil => exact List.nil_prefix
  | cons x l ih =>
      cases a with
      | nil => exact absurd (List.nil_lt_cons x l) hl
      | cons y a =>
          rw [List.cons_append] at hab
          obtain ⟨hyx, hl'⟩ := not_or.mp (List.cons_lt_cons_iff.not.mp hl)
          obtain ⟨hxy, hab'⟩ := not_or.mp (List.cons_lt_cons_iff.not.mp hab)
          have heq : y = x := le_antisymm (not_lt.mp hxy) (not_lt.mp hyx)
          subst heq
          have hrest := ih (fun h => hl' ⟨rfl, h⟩) fun h => hab' ⟨rfl, h⟩
          exact (List.prefix_cons_inj y).mpr hrest

end SortedMap

end Flowgen.Lib
