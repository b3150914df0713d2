/-
# `Flowgen.Lib.Unseen` — erasing what nobody looks at

A table is an association list with distinct keys.  Erasing an entry that a
filter, or a search, passes over leaves what it finds as it is.
-/
import Mathlib

namespace Flowgen.Lib

variable {κ α β : Type} [DecidableEq κ] {key : κ} {value : α}

/-- The value that is stored under a key. -/
abbrev Table (κ α : Type) := AList fun _ : κ => α

theorem filter_kerase {p : (Sigma fun _ : κ => α) → Bool} {l : List (Sigma fun _ : κ => α)}
    (h : l.dlookup key = some value) (hp : p ⟨key, value⟩ = false) :
    (l.kerase key).filter p = l.filter p := by
  induction l with
  | nil => rfl
  | cons entry l ih =>
      obtain ⟨key', value'⟩ := entry
      by_cases hkey : key = key'
      · subst hkey
        rw [List.dlookup_cons_eq] at h
        cases h
        have herase : List.kerase key (⟨key, value⟩ :: l) = l := List.kerase_cons_eq rfl
        rw [herase, List.filter_cons_of_neg (by simpa using hp)]
      · rw [List.dlookup_cons_ne _ _ hkey] at h
        rw [List.kerase_cons_ne hkey, List.filter_cons, List.filter_cons, ih h]

theorem findSome?_kerase {f : (Sigma fun _ : κ => α) → Option β}
    {l : List (Sigma fun _ : κ => α)} (h : l.dlookup key = some value)
    (hf : f ⟨key, value⟩ = none) : (l.kerase key).findSome? f = l.findSome? f := by
  induction l with
  | nil => rfl
  | cons entry l ih =>
      obtain ⟨key', value'⟩ := entry
      by_cases hkey : key = key'
      · subst hkey
        rw [List.dlookup_cons_eq] at h
        cases h
        have herase : List.kerase key (⟨key, value⟩ :: l) = l := List.kerase_cons_eq rfl
        rw [herase, List.findSome?_cons, hf]
      · rw [List.dlookup_cons_ne _ _ hkey] at h
        rw [List.kerase_cons_ne hkey, List.findSome?_cons, List.findSome?_cons, ih h]

namespace Table

variable {t : Table κ α}

theorem filter_erase {p : (Sigma fun _ : κ => α) → Bool} (h : t.lookup key = some value)
    (hp : p ⟨key, value⟩ = false) : (t.erase key).entries.filter p = t.entries.filter p :=
  filter_kerase h hp

theorem findSome?_erase {f : (Sigma fun _ : κ => α) → Option β} (h : t.lookup key = some value)
    (hf : f ⟨key, value⟩ = none) :
    (t.erase key).entries.findSome? f = t.entries.findSome? f :=
  findSome?_kerase h hf

end Table

end Flowgen.Lib
