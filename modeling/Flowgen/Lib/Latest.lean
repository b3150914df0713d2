/-
# `Flowgen.Lib.Latest` — the last entry of each key

In a list of keyed entries, oldest first, the last entry of a key is what
counts.  Whatever follows takes precedence (`latest_append`), and a list may be
coalesced to the last entry of each key without changing any (`latest_coalesce`).
A table that keeps one entry for each key of its own (`put`) is such a list.
-/
import Mathlib

namespace Flowgen.Lib

variable {α κ : Type*} [DecidableEq κ] (key : α → κ) {k : κ} {a : α} {l l' : List α}

/-- The last entry of a key. -/
def latest (k : κ) (l : List α) : Option α := (l.filter (key · = k)).getLast?

/-- Each entry takes the place of the earlier ones of its key. -/
def coalesce (l : List α) : List α := l.foldl (fun m a => m.filter (key · ≠ key a) ++ [a]) []

/-- The entry takes the place of the one of its key in a table. -/
def put (l : List α) (a : α) : List α := l.filter (key · ≠ key a) ++ [a]

variable {key}

@[simp] theorem latest_nil : latest key k [] = none := rfl

theorem latest_append : latest key k (l ++ l') = (latest key k l').or (latest key k l) := by
  rw [latest, List.filter_append, List.getLast?_append]
  rfl

theorem latest_singleton_self : latest key (key a) [a] = some a := by simp [latest]

theorem latest_singleton_ne (h : key a ≠ k) : latest key k [a] = none := by simp [latest, h]

theorem latest_concat_self : latest key (key a) (l ++ [a]) = some a := by
  rw [latest_append, latest_singleton_self]
  rfl

theorem latest_concat_ne (h : key a ≠ k) : latest key k (l ++ [a]) = latest key k l := by
  rw [latest_append, latest_singleton_ne h]
  rfl

theorem latest_eq_some (h : latest key k l = some a) : a ∈ l ∧ key a = k := by
  obtain ⟨hm, hk⟩ := List.mem_filter.mp (List.mem_of_getLast? h)
  exact ⟨hm, of_decide_eq_true hk⟩

theorem latest_eq_none : latest key k l = none ↔ ∀ a ∈ l, key a ≠ k := by
  rw [latest, List.getLast?_eq_none_iff, List.filter_eq_nil_iff]
  simp

/-- The entries of one key are taken out. -/
theorem latest_filter_ne {k' : κ} (h : k ≠ k') :
    latest key k (l.filter (key · ≠ k')) = latest key k l := by
  rw [latest, List.filter_filter, latest]
  congr 1
  refine List.filter_congr fun a _ => ?_
  by_cases ha : key a = k
  · simp [ha, h]
  · simp [ha]

theorem latest_filter_self : latest key k (l.filter (key · ≠ k)) = none := by
  refine latest_eq_none.mpr fun a ha => ?_
  exact of_decide_eq_true (List.mem_filter.mp ha).2

theorem latest_put_self : latest key (key a) (put key l a) = some a := latest_concat_self

theorem latest_put_ne (h : key a ≠ k) : latest key k (put key l a) = latest key k l := by
  rw [put, latest_concat_ne h, latest_filter_ne (Ne.symm h)]

/-- To put an entry into a table is to add it behind the others. -/
theorem latest_put : latest key k (put key l a) = latest key k (l ++ [a]) := by
  by_cases h : key a = k
  · subst h
    rw [latest_put_self, latest_concat_self]
  · rw [latest_put_ne h, latest_concat_ne h]

theorem latest_put_append : latest key k (put key l a ++ l') = latest key k (l ++ a :: l') := by
  rw [latest_append, latest_put, ← latest_append, List.append_assoc, List.singleton_append]

theorem mem_put {b : α} (h : b ∈ put key l a) : b ∈ l ∨ b = a := by
  rcases List.mem_append.mp h with h | h
  · exact .inl (List.mem_of_mem_filter h)
  · exact .inr (List.mem_singleton.mp h)

/-- Entries of one key that are all the same are their own last entry. -/
theorem latest_eq_of_forall (hmem : a ∈ l) (ha : key a = k) (h : ∀ b ∈ l, key b = k → b = a) :
    latest key k l = some a := by
  cases hl : latest key k l with
  | none => exact absurd ha (latest_eq_none.mp hl a hmem)
  | some b =>
      obtain ⟨hb, hk⟩ := latest_eq_some hl
      rw [h b hb hk]

/-- With one entry for each key, their order does not matter. -/
theorem latest_perm (h : l.Perm l') (hn : (l.map key).Nodup) : latest key k l = latest key k l' := by
  cases hl : latest key k l' with
  | none => exact latest_eq_none.mpr fun a ha => latest_eq_none.mp hl a (h.mem_iff.mp ha)
  | some a =>
      obtain ⟨hmem, hkey⟩ := latest_eq_some hl
      have hmem := h.mem_iff.mpr hmem
      refine latest_eq_of_forall hmem hkey fun b hb hbk => ?_
      exact List.inj_on_of_nodup_map hn hb hmem (hbk.trans hkey.symm)

/-! ## Entries that change or go -/

section At

variable {i : Nat} {b : α}

theorem eq_take_append_drop (h : l[i]? = some a) : l = l.take i ++ a :: l.drop (i + 1) := by
  obtain ⟨hi, rfl⟩ := List.getElem?_eq_some_iff.mp h
  rw [← List.drop_eq_getElem_cons hi, List.take_append_drop]

theorem set_eq_take_append_drop (h : l[i]? = some a) :
    l.set i b = l.take i ++ b :: l.drop (i + 1) := by
  obtain ⟨hi, -⟩ := List.getElem?_eq_some_iff.mp h
  rw [List.set_eq_take_append_cons_drop, if_pos hi]

/-- Entries that differ from the one that changes stay. -/
theorem mem_set_of_ne {c : α} (h : l[i]? = some a) (hc : c ∈ l) (hne : c ≠ a) : c ∈ l.set i b := by
  rw [eq_take_append_drop h] at hc
  rw [set_eq_take_append_drop h]
  rcases List.mem_append.mp hc with hbefore | hafter
  · exact List.mem_append_left _ hbefore
  · refine List.mem_append_right _ (List.mem_cons_of_mem _ ?_)
    exact (List.mem_cons.mp hafter).resolve_left hne

theorem mem_set_self (h : l[i]? = some a) : b ∈ l.set i b := by
  rw [set_eq_take_append_drop h]
  exact List.mem_append_right _ List.mem_cons_self

/-- So do those that differ from the one that goes. -/
theorem mem_eraseIdx_of_ne {c : α} (h : l[i]? = some a) (hc : c ∈ l) (hne : c ≠ a) :
    c ∈ l.eraseIdx i := by
  rw [eq_take_append_drop h] at hc
  rw [List.eraseIdx_eq_take_drop_succ]
  rcases List.mem_append.mp hc with hbefore | hafter
  · exact List.mem_append_left _ hbefore
  · exact List.mem_append_right _ ((List.mem_cons.mp hafter).resolve_left hne)

theorem map_set_of_eq {β : Type*} {f : α → β} (h : l[i]? = some a) (hf : f b = f a) :
    (l.set i b).map f = l.map f := by
  conv_rhs => rw [eq_take_append_drop h]
  rw [set_eq_take_append_drop h, List.map_append, List.map_append, List.map_cons, List.map_cons, hf]

theorem latest_cons : latest key k (a :: l) =
    (latest key k l).or (if key a = k then some a else none) := by
  rw [← List.singleton_append, latest_append]
  split
  · rename_i h
    rw [← h, latest_singleton_self]
  · rename_i h
    rw [latest_singleton_ne h]

/-- An entry that changes under its key is the last one of it, or the last one stays. -/
theorem latest_set (h : l[i]? = some a) (hb : key b = key a) :
    latest key k (l.set i b) = latest key k l ∨
      latest key k l = some a ∧ latest key k (l.set i b) = some b := by
  rw [set_eq_take_append_drop h]
  conv_lhs => rhs; rw [eq_take_append_drop h]
  conv_rhs => lhs; rw [eq_take_append_drop h]
  rw [latest_append, latest_append, latest_cons, latest_cons, hb]
  cases latest key k (l.drop (i + 1)) with
  | some c => exact .inl rfl
  | none =>
      by_cases hk : key a = k
      · rw [if_pos hk, if_pos hk]
        exact .inr ⟨rfl, rfl⟩
      · rw [if_neg hk, if_neg hk]
        exact .inl rfl

/-- Without an entry, the last one stays, or it was the last one and those before it count. -/
theorem latest_eraseIdx (key : α → κ) (k : κ) (h : l[i]? = some a) :
    latest key k (l.eraseIdx i) = latest key k l ∨
      key a = k ∧ latest key k l = some a ∧
        latest key k (l.eraseIdx i) = latest key k (l.take i) := by
  rw [List.eraseIdx_eq_take_drop_succ]
  conv_lhs => rhs; rw [eq_take_append_drop h]
  conv_rhs => rhs; lhs; rw [eq_take_append_drop h]
  rw [latest_append, latest_append, latest_cons]
  cases latest key k (l.drop (i + 1)) with
  | some c => exact .inl rfl
  | none =>
      by_cases hk : key a = k
      · rw [if_pos hk]
        exact .inr ⟨hk, rfl, rfl⟩
      · rw [if_neg hk]
        exact .inl rfl

end At

theorem latest_foldl_coalesce {m : List α} :
    latest key k (l.foldl (fun m a => m.filter (key · ≠ key a) ++ [a]) m) =
      latest key k (m ++ l) := by
  induction l generalizing m with
  | nil => rw [List.foldl_nil, List.append_nil]
  | cons a l ih =>
      rw [List.foldl_cons, ih, List.append_assoc, List.singleton_append, latest_append, latest_append]
      by_cases ha : key a = k
      · -- the entry itself is of the key
        have hsome : ∃ b, latest key k (a :: l) = some b := by
          refine Option.ne_none_iff_exists'.mp fun hn => ?_
          exact latest_eq_none.mp hn a List.mem_cons_self ha
        obtain ⟨b, hb⟩ := hsome
        rw [hb]
        rfl
      · rw [latest_filter_ne (Ne.symm ha)]

theorem latest_coalesce : latest key k (coalesce key l) = latest key k l :=
  latest_foldl_coalesce

theorem nodup_put (h : (l.map key).Nodup) : ((put key l a).map key).Nodup := by
  rw [put, List.map_append, List.nodup_append]
  refine ⟨h.sublist (List.filter_sublist.map key), List.nodup_singleton _, ?_⟩
  intro k hk k' hk'
  obtain ⟨b, hb, rfl⟩ := List.mem_map.mp hk
  obtain rfl : k' = key a := List.mem_singleton.mp hk'
  exact of_decide_eq_true (List.mem_filter.mp hb).2

/-- A coalesced list has one entry for each key. -/
theorem nodup_coalesce : ((coalesce key l).map key).Nodup := by
  induction l using List.reverseRecOn with
  | nil => exact List.nodup_nil
  | append_singleton l a ih =>
      rw [coalesce, List.foldl_append]
      exact nodup_put ih

theorem mem_of_mem_coalesce (h : a ∈ coalesce key l) : a ∈ l := by
  have hfold : ∀ (l m : List α), a ∈ l.foldl (fun m a => m.filter (key · ≠ key a) ++ [a]) m →
      a ∈ m ∨ a ∈ l := by
    intro l
    induction l with
    | nil =>
        intro m h
        exact Or.inl h
    | cons b l ih =>
        intro m h
        rcases ih _ h with h | h
        · rcases List.mem_append.mp h with h | h
          · exact Or.inl (List.mem_of_mem_filter h)
          · exact Or.inr (List.mem_singleton.mp h ▸ List.mem_cons_self)
        · exact Or.inr (List.mem_cons_of_mem _ h)
  rcases hfold l [] h with h | h
  · cases h
  · exact h

end Flowgen.Lib
