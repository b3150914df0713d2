/-
# `Flowgen.Lib.Entries` — maps as lists of entries

A map is the list of its entries, in any order, with every key once.  An entry is
put in by taking out the one under its key first.

`rename` takes out the entries whose keys `p` picks and puts them back under new
keys, all of them after all have been taken out.  Nothing is lost if and only if
the new keys differ from each other and from the keys that stay
(`lookup_rename`, `mem_rename`).
-/
import Mathlib

namespace Flowgen.Lib.Entries

variable {κ β : Type*} [DecidableEq κ] {m entries : List (κ × β)} {e : κ × β} {k : κ} {v : β}

/-- The keys are distinct. -/
def Keyed (m : List (κ × β)) : Prop := (m.map Prod.fst).Nodup

def remove (m : List (κ × β)) (k : κ) : List (κ × β) := m.filter fun e => e.1 ≠ k

def insert (m : List (κ × β)) (e : κ × β) : List (κ × β) := e :: remove m e.1

theorem mem_remove : e ∈ remove m k ↔ e ∈ m ∧ e.1 ≠ k := by
  simp [remove]

theorem mem_of_mem_insert {e' : κ × β} (h : e' ∈ insert m e) : e' = e ∨ e' ∈ m :=
  (List.mem_cons.mp h).imp_right fun hmem => (mem_remove.mp hmem).1

theorem mem_of_lookup (h : m.lookup k = some v) : (k, v) ∈ m := by
  induction m with
  | nil => cases h
  | cons e m ih =>
      rw [List.lookup_cons] at h
      split at h
      · rename_i heq
        cases h
        rw [eq_of_beq heq]
        exact List.mem_cons_self
      · exact List.mem_cons_of_mem _ (ih h)

theorem Keyed.lookup (h : Keyed m) (he : e ∈ m) : m.lookup e.1 = some e.2 := by
  induction m with
  | nil => cases he
  | cons e' m ih =>
      obtain ⟨hnot, hm⟩ := List.nodup_cons.mp h
      rw [List.lookup_cons]
      rcases List.mem_cons.mp he with rfl | hmem
      · simp
      · have hne : e.1 ≠ e'.1 := by
          intro heq
          exact hnot (heq ▸ List.mem_map_of_mem hmem)
        rw [beq_false_of_ne hne]
        exact ih hm hmem

theorem lookup_eq_none (h : ∀ e ∈ m, e.1 ≠ k) : m.lookup k = none := by
  cases hlookup : m.lookup k with
  | none => rfl
  | some v => exact absurd rfl (h _ (mem_of_lookup hlookup))

omit [DecidableEq κ] in
theorem Keyed.sublist {m' : List (κ × β)} (h : Keyed m) (hsub : m'.Sublist m) : Keyed m' :=
  List.Nodup.sublist (hsub.map Prod.fst) h

theorem Keyed.remove (h : Keyed m) (k : κ) : Keyed (remove m k) := h.sublist List.filter_sublist

theorem Keyed.insert (h : Keyed m) (e : κ × β) : Keyed (insert m e) := by
  refine List.nodup_cons.mpr ⟨?_, h.remove e.1⟩
  intro hmem
  obtain ⟨e', he', heq⟩ := List.mem_map.mp hmem
  exact (mem_remove.mp he').2 heq

theorem lookup_remove {k' : κ} (hk : k ≠ k') : (remove m k').lookup k = m.lookup k := by
  induction m with
  | nil => rfl
  | cons e m ih =>
      rw [remove, List.filter_cons]
      by_cases he : e.1 = k'
      · rw [if_neg (by simpa using he), List.lookup_cons, he, beq_false_of_ne hk]
        exact ih
      · rw [if_pos (by simpa using he), List.lookup_cons, List.lookup_cons]
        cases k == e.1 with
        | true => rfl
        | false => exact ih

theorem lookup_insert :
    (insert m e).lookup k = if k = e.1 then some e.2 else m.lookup k := by
  rw [insert, List.lookup_cons]
  by_cases hk : k = e.1
  · rw [if_pos hk, hk, beq_self_eq_true]
  · rw [if_neg hk, beq_false_of_ne hk]
    exact lookup_remove hk

/-! ## Many entries -/

def insertAll (m entries : List (κ × β)) : List (κ × β) := entries.foldl insert m

theorem insertAll_cons : insertAll m (e :: entries) = insertAll (insert m e) entries := rfl

theorem Keyed.insertAll (h : Keyed m) (entries : List (κ × β)) : Keyed (insertAll m entries) := by
  induction entries generalizing m with
  | nil => exact h
  | cons e entries ih => exact ih (h.insert e)

theorem mem_of_mem_insertAll (h : e ∈ insertAll m entries) : e ∈ entries ∨ e ∈ m := by
  induction entries generalizing m with
  | nil => exact .inr h
  | cons e' entries ih =>
      rcases ih h with hmem | hmem
      · exact .inl (List.mem_cons_of_mem _ hmem)
      · rcases mem_of_mem_insert hmem with rfl | hmem
        · exact .inl List.mem_cons_self
        · exact .inr hmem

theorem lookup_insertAll_of_notMem (h : ∀ e ∈ entries, e.1 ≠ k) :
    (insertAll m entries).lookup k = m.lookup k := by
  induction entries generalizing m with
  | nil => rfl
  | cons e entries ih =>
      obtain ⟨he, hentries⟩ := List.forall_mem_cons.mp h
      rw [insertAll_cons, ih hentries, lookup_insert, if_neg he.symm]

theorem lookup_insertAll_of_mem (hkeys : Keyed entries) (h : e ∈ entries) :
    (insertAll m entries).lookup e.1 = some e.2 := by
  induction entries generalizing m with
  | nil => cases h
  | cons e' entries ih =>
      obtain ⟨hnot, hentries⟩ := List.nodup_cons.mp hkeys
      rcases List.mem_cons.mp h with rfl | hmem
      · have hother : ∀ e'' ∈ entries, e''.1 ≠ e.1 := fun e'' he'' heq =>
          hnot (heq ▸ List.mem_map_of_mem he'')
        rw [insertAll_cons, lookup_insertAll_of_notMem hother, lookup_insert, if_pos rfl]
      · exact ih hentries hmem

/-! ## Renaming keys -/

section Rename

variable (p : κ → Bool) (f : κ → κ)

/-- One key is taken out of the first map, and its value put into the second. -/
def moveKey (maps : List (κ × β) × List (κ × β)) (k : κ) : List (κ × β) × List (κ × β) :=
  match maps.1.lookup k with
  | some v => (remove maps.1 k, insert maps.2 (f k, v))
  | none => maps

def rename (m : List (κ × β)) : List (κ × β) :=
  let moved := ((m.map Prod.fst).filter p).foldl (moveKey f) (m, [])
  insertAll moved.1 moved.2

def renamed (e : κ × β) : κ × β := (f e.1, e.2)

variable {p f}

theorem foldl_moveKey {moving m' : List (κ × β)} (hm : Keyed m) (hmoving : moving.Sublist m) :
    (moving.map Prod.fst).foldl (moveKey f) (m, m') =
      (m.filter fun e => e.1 ∉ moving.map Prod.fst, insertAll m' (moving.map (renamed f))) := by
  induction moving generalizing m m' with
  | nil => simp [insertAll]
  | cons e moving ih =>
      have he : e ∈ m := hmoving.subset List.mem_cons_self
      have hnot : e.1 ∉ moving.map Prod.fst :=
        (List.nodup_cons.mp (hm.sublist hmoving : Keyed (e :: moving))).1
      have hrest : moving.Sublist (remove m e.1) := by
        have hsub := ((List.sublist_cons_self e moving).trans hmoving).filter fun a => a.1 ≠ e.1
        rwa [List.filter_eq_self.mpr] at hsub
        intro a ha
        simpa using fun heq : a.1 = e.1 => hnot (heq ▸ List.mem_map_of_mem ha)
      rw [List.map_cons, List.foldl_cons, moveKey, hm.lookup he]
      change List.foldl (moveKey f) (remove m e.1, insert m' (f e.1, e.2)) _ = _
      rw [ih (hm.remove e.1) hrest, remove, List.filter_filter]
      refine Prod.ext ?_ rfl
      refine List.filter_congr fun a _ => ?_
      rw [Bool.eq_iff_iff]
      simp [and_comm]

theorem rename_eq (hm : Keyed m) :
    rename p f m = insertAll (m.filter fun e => !p e.1)
      (insertAll [] ((m.filter fun e => p e.1).map (renamed f))) := by
  have hkeys : (m.map Prod.fst).filter p = (m.filter fun e => p e.1).map Prod.fst := by
    rw [List.filter_map]
    rfl
  rw [rename, hkeys, foldl_moveKey hm List.filter_sublist]
  congr 1
  refine List.filter_congr fun e he => ?_
  rw [← hkeys]
  have hmem : e.1 ∈ m.map Prod.fst := List.mem_map_of_mem he
  simp [List.mem_filter, hmem]

/-- What is in the map afterwards was in it before, under its old key. -/
theorem mem_rename (hm : Keyed m) (h : e ∈ rename p f m) :
    (e ∈ m ∧ p e.1 = false) ∨ ∃ e' ∈ m, p e'.1 ∧ renamed f e' = e := by
  rw [rename_eq hm] at h
  rcases mem_of_mem_insertAll h with hmem | hmem
  · rcases mem_of_mem_insertAll hmem with hmem | hmem
    · obtain ⟨e', he', rfl⟩ := List.mem_map.mp hmem
      obtain ⟨hmem', hp⟩ := List.mem_filter.mp he'
      exact .inr ⟨e', hmem', hp, rfl⟩
    · cases hmem
  · obtain ⟨hmem', hp⟩ := List.mem_filter.mp hmem
    exact .inl ⟨hmem', by simpa using hp⟩

/-- If the new keys of all entries differ, each entry is found under its own. -/
theorem lookup_rename (hstay : ∀ k, p k = false → f k = k)
    (hkeys : Keyed (m.map (renamed f))) (he : e ∈ m) :
    (rename p f m).lookup (f e.1) = some e.2 := by
  have hm : Keyed m := by
    have hcomp : (m.map (renamed f)).map Prod.fst = (m.map Prod.fst).map f := by
      rw [List.map_map, List.map_map]
      rfl
    exact List.Nodup.of_map f (hcomp ▸ hkeys)
  have hmoved : Keyed ((m.filter fun e => p e.1).map (renamed f)) :=
    hkeys.sublist (List.filter_sublist.map _)
  rw [rename_eq hm]
  cases hp : p e.1 with
  | true =>
      have hfound : renamed f e ∈ (m.filter fun e => p e.1).map (renamed f) :=
        List.mem_map_of_mem (List.mem_filter.mpr ⟨he, hp⟩)
      have hlookup := lookup_insertAll_of_mem hmoved hfound (m := [])
      exact lookup_insertAll_of_mem ((show Keyed [] from List.nodup_nil).insertAll _)
        (mem_of_lookup hlookup)
  | false =>
      have hother : ∀ e' ∈ insertAll [] ((m.filter fun e => p e.1).map (renamed f)),
          e'.1 ≠ f e.1 := by
        intro e' he' heq
        rcases mem_of_mem_insertAll he' with hmem | hmem
        · obtain ⟨e'', he'', rfl⟩ := List.mem_map.mp hmem
          obtain ⟨hmem'', hp''⟩ := List.mem_filter.mp he''
          have hsame : renamed f e'' = renamed f e :=
            List.inj_on_of_nodup_map hkeys (List.mem_map_of_mem hmem'')
              (List.mem_map_of_mem he) heq
          have hsame' : e'' = e := List.inj_on_of_nodup_map
            (show ((m.map (renamed f))).Nodup from List.Nodup.of_map _ hkeys) hmem'' he hsame
          rw [hsame', hp] at hp''
          cases hp''
        · cases hmem
      rw [lookup_insertAll_of_notMem hother, hstay e.1 hp]
      exact (hm.sublist List.filter_sublist).lookup (List.mem_filter.mpr ⟨he, by simp [hp]⟩)

end Rename

end Flowgen.Lib.Entries
