/-
# `Flowgen.Lib.Grouped` — one entry for each key

Values are added one after the other to the entries of their keys; the first value
of a key starts its entry.  What stands under a key is what its own values make, in
their order (`find_grouped`), so two such maps are compared key by key
(`map_entries_eq_iff`).
-/
import Flowgen.Lib.SortedMap

namespace Flowgen.Lib

variable {α β γ κ : Type*} [LinearOrder κ]

namespace SortedMap

/-- The keys determine their order. -/
theorem keys_eq_of_mem {m m' : SortedMap κ β} (h : ∀ k, k ∈ m.keys ↔ k ∈ m'.keys) :
    m.keys = m'.keys := by
  have hsorted : ∀ m : SortedMap κ β, m.keys.Pairwise (· < ·) := fun m =>
    List.pairwise_map.mpr m.sorted
  exact (hsorted m).eq_of_mem_iff (hsorted m') h

/-- Whatever has a property stands from the first that has it on. -/
theorem eq_or_lt_of_find? {m : SortedMap κ β} {p : κ × β → Bool} {first e : κ × β}
    (h : m.entries.find? p = some first) (he : e ∈ m.entries) (hp : p e = true) :
    e = first ∨ first.1 < e.1 := by
  obtain ⟨-, before, after, hsplit, hbefore⟩ := List.find?_eq_some_iff_append.mp h
  have hsorted := m.sorted
  rw [hsplit] at he hsorted
  rcases List.mem_append.mp he with hin | hin
  · have hnot := hbefore e hin
    rw [hp] at hnot
    cases hnot
  · rcases List.mem_cons.mp hin with rfl | hlater
    · exact .inl rfl
    · exact .inr ((List.pairwise_cons.mp (List.pairwise_append.mp hsorted).2.1).1 _ hlater)

/-- The entries, read off the keys. -/
theorem map_entries (m : SortedMap κ β) (f : κ × β → γ) :
    (m.entries.map f).map some = m.keys.map fun k => (m.find k).map fun v => f (k, v) := by
  rw [keys, List.map_map, List.map_map]
  refine List.map_congr_left fun entry hentry => ?_
  have hfind : m.find entry.1 = some entry.2 := find_eq_some.mpr hentry
  show some (f entry) = (m.find entry.1).map fun v => f (entry.1, v)
  rw [hfind]
  rfl

theorem map_entries_eq_iff {m m' : SortedMap κ β} {f : κ × β → γ} (h : m.keys = m'.keys) :
    m.entries.map f = m'.entries.map f ↔
      ∀ k, ((m.find k).map fun v => f (k, v)) = (m'.find k).map fun v => f (k, v) := by
  rw [← (Option.some_injective γ).list_map.eq_iff, map_entries, map_entries, h, List.map_inj_left]
  refine ⟨fun hall k => ?_, fun hall k _ => hall k⟩
  by_cases hk : k ∈ m'.keys
  · exact hall k hk
  · have hnone : m.find k = none := by
      rw [← Option.not_isSome_iff_eq_none, isSome_find, h]
      exact hk
    have hnone' : m'.find k = none := by
      rw [← Option.not_isSome_iff_eq_none, isSome_find]
      exact hk
    rw [hnone, hnone']

end SortedMap

section Grouped

variable (key : α → κ) (start : β) (add : β → α → β)

/-- A value goes to the entry of its key, or starts it. -/
def addTo (m : SortedMap κ β) (x : α) : SortedMap κ β :=
  m.insert (key x) (add ((m.find (key x)).getD start) x)

def grouped (xs : List α) : SortedMap κ β := xs.foldl (addTo key start add) .empty

variable {key start add}

theorem find_foldl_addTo (xs : List α) (m : SortedMap κ β) (k : κ) :
    (xs.foldl (addTo key start add) m).find k =
      if xs.filter (key · = k) = [] then m.find k
      else some ((xs.filter (key · = k)).foldl add ((m.find k).getD start)) := by
  induction xs generalizing m with
  | nil => rfl
  | cons x xs ih =>
      rw [List.foldl_cons, ih, addTo, SortedMap.find_insert]
      by_cases hx : key x = k
      · subst hx
        rw [List.filter_cons_of_pos (by simp), if_pos rfl, if_neg (List.cons_ne_nil _ _),
          List.foldl_cons]
        split
        · rename_i hempty
          rw [hempty]
          rfl
        · rfl
      · rw [List.filter_cons_of_neg (by simpa using hx), if_neg (Ne.symm hx)]

/-- Under a key stands what its own values make. -/
theorem find_grouped (xs : List α) (k : κ) :
    (grouped key start add xs).find k =
      if xs.filter (key · = k) = [] then none
      else some ((xs.filter (key · = k)).foldl add start) :=
  find_foldl_addTo xs .empty k

theorem mem_keys_grouped {xs : List α} {k : κ} :
    k ∈ (grouped key start add xs).keys ↔ ∃ x ∈ xs, key x = k := by
  rw [← SortedMap.isSome_find, find_grouped]
  split
  · rename_i hempty
    simpa [List.filter_eq_nil_iff] using hempty
  · rename_i hsome
    simpa [List.filter_eq_nil_iff] using hsome

end Grouped

end Flowgen.Lib
