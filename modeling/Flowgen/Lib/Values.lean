/-
# `Flowgen.Lib.Values` — what the values of a map contribute

Each value of a map contributes an entry or none.  The order of the entries depends on the map;
as a multiset they are what the keys contribute (`valuesWith_perm`).
-/
import Mathlib

namespace Flowgen.Lib

variable {κ β γ : Type*} [DecidableEq κ] {φ : β → Option γ} {m : AList fun _ : κ => β} {k : κ}
  {v : β}

/-- What the values contribute. -/
def valuesWith (φ : β → Option γ) (m : AList fun _ : κ => β) : List γ :=
  m.entries.filterMap fun e => φ e.2

theorem filterMap_cons_eq {α : Type*} {f : α → Option γ} {a : α} {l : List α} :
    (a :: l).filterMap f = (f a).toList ++ l.filterMap f := by
  cases h : f a with
  | none => exact List.filterMap_cons_none h
  | some b => exact List.filterMap_cons_some h

theorem valuesWith_insert :
    valuesWith φ (m.insert k v) = (φ v).toList ++ valuesWith φ (m.erase k) :=
  filterMap_cons_eq

/-- What a key contributes comes first, or anywhere. -/
theorem valuesWith_perm_erase :
    (valuesWith φ m).Perm (((m.lookup k).bind φ).toList ++ valuesWith φ (m.erase k)) := by
  by_cases hk : k ∈ m
  · obtain ⟨b, l₁, l₂, hl₁, hentries, herase⟩ := List.exists_of_kerase (AList.mem_keys.mp hk)
    have hlookup : m.lookup k = some b := by
      refine AList.mem_lookup_iff.mpr ?_
      rw [hentries]
      exact List.mem_append_right _ List.mem_cons_self
    have herase' : valuesWith φ (m.erase k) = (l₁ ++ l₂).filterMap fun e => φ e.2 :=
      congrArg (List.filterMap fun e : (_ : κ) × β => φ e.2) herase
    rw [hlookup, herase', valuesWith, hentries]
    refine (List.perm_middle.filterMap _).trans ?_
    rw [filterMap_cons_eq]
    rfl
  · have herase : (m.erase k).entries = m.entries := List.kerase_of_notMem_keys hk
    rw [AList.lookup_eq_none.mpr hk, valuesWith, valuesWith, herase]
    exact List.Perm.refl _

/-- A value that contributes what the one before it did. -/
theorem valuesWith_insert_perm (h : φ v = (m.lookup k).bind φ) :
    (valuesWith φ (m.insert k v)).Perm (valuesWith φ m) := by
  rw [valuesWith_insert, h]
  exact valuesWith_perm_erase.symm

theorem valuesWith_erase_perm (h : (m.lookup k).bind φ = none) :
    (valuesWith φ (m.erase k)).Perm (valuesWith φ m) := by
  have hperm := valuesWith_perm_erase (φ := φ) (m := m) (k := k)
  rw [h] at hperm
  exact hperm.symm

/-- What a map contributes is what the keys do that contribute at all. -/
theorem valuesWith_perm : ∀ {keys : List κ} {m : AList fun _ : κ => β}, keys.Nodup →
    (∀ k, ((m.lookup k).bind φ).isSome → k ∈ keys) →
      (valuesWith φ m).Perm (keys.filterMap fun k => (m.lookup k).bind φ) := by
  intro keys
  induction keys with
  | nil =>
      intro m _ hkeys
      have hnone : valuesWith φ m = [] := by
        rw [valuesWith, List.filterMap_eq_nil_iff]
        intro e he
        have hlookup : m.lookup e.1 = some e.2 := AList.mem_lookup_iff.mpr he
        have hnot := hkeys e.1
        rw [hlookup] at hnot
        exact Option.not_isSome_iff_eq_none.mp fun h => List.not_mem_nil (hnot h)
      rw [hnone]
      exact List.Perm.refl _
  | cons k keys ih =>
      intro m hnodup hkeys
      obtain ⟨hk, hnodup⟩ := List.nodup_cons.mp hnodup
      rw [filterMap_cons_eq]
      refine valuesWith_perm_erase.trans (List.Perm.append_left _ ?_)
      have hrest : (valuesWith φ (m.erase k)).Perm
          (keys.filterMap fun k' => ((m.erase k).lookup k').bind φ) := by
        refine ih hnodup ?_
        intro k' hk'
        by_cases heq : k' = k
        · subst heq
          rw [AList.lookup_erase] at hk'
          cases hk'
        · rw [AList.lookup_erase_ne heq] at hk'
          exact (List.mem_cons.mp (hkeys k' hk')).resolve_left heq
      refine hrest.trans ?_
      have hsame : ∀ k' ∈ keys, ((m.erase k).lookup k').bind φ = (m.lookup k').bind φ := by
        intro k' hk'
        have hne : k' ≠ k := by
          rintro rfl
          exact hk hk'
        rw [AList.lookup_erase_ne hne]
      rw [List.filterMap_congr hsame]

end Flowgen.Lib
