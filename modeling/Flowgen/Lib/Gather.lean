/-
# `Flowgen.Lib.Gather` — putting together what arrives in parts

A sender cuts values into parts and marks each part with a key; the receiver
keeps one entry for each key, which the first part of the key starts and every
later one extends.  When different values have different keys, the receiver
ends with the values that were cut (`gather_items`).  It never has more entries
than there are keys (`length_gather_le`), so that values under one key are lost.

The keys in question are often handed out by counters that all start from zero;
the keys of such counters are distinct if at most one of them is used
(`nodup_flatMap_range`).
-/
import Mathlib

namespace Flowgen.Lib

section Gather

variable {κ ε π : Type} [DecidableEq κ]

/-- A part extends the entry of its key, or starts one at the end. -/
def addPart (start : π → ε) (extend : ε → π → ε) : List (κ × ε) → κ × π → List (κ × ε)
  | [], part => [(part.1, start part.2)]
  | (k, e) :: rest, part =>
      if k = part.1 then (k, extend e part.2) :: rest
      else (k, e) :: addPart start extend rest part

def gather (start : π → ε) (extend : ε → π → ε) (entries : List (κ × ε))
    (parts : List (κ × π)) : List (κ × ε) :=
  parts.foldl (addPart start extend) entries

/-- A value that was cut: its key, its first part and the others. -/
structure Item (κ π : Type) where
  key : κ
  first : π
  more : List π

def Item.parts (i : Item κ π) : List (κ × π) := (i.key, i.first) :: i.more.map (i.key, ·)

variable {start : π → ε} {extend : ε → π → ε} {entries : List (κ × ε)} {k : κ}

theorem addPart_new {part : κ × π} (hnew : part.1 ∉ entries.map Prod.fst) :
    addPart start extend entries part = entries ++ [(part.1, start part.2)] := by
  induction entries with
  | nil => rfl
  | cons entry entries ih =>
      simp only [List.map_cons, List.mem_cons, not_or] at hnew
      simp [addPart, Ne.symm hnew.1, ih hnew.2]

/-- The parts of a key change nothing but its entry. -/
theorem addPart_last {part : π} {e : ε} (hnew : k ∉ entries.map Prod.fst) :
    addPart start extend (entries ++ [(k, e)]) (k, part) = entries ++ [(k, extend e part)] := by
  induction entries with
  | nil => simp [addPart]
  | cons entry entries ih =>
      simp only [List.map_cons, List.mem_cons, not_or] at hnew
      simp [addPart, Ne.symm hnew.1, ih hnew.2]

theorem gather_last {parts : List π} {e : ε} (hnew : k ∉ entries.map Prod.fst) :
    gather start extend (entries ++ [(k, e)]) (parts.map (k, ·)) =
      entries ++ [(k, parts.foldl extend e)] := by
  induction parts generalizing e with
  | nil => rfl
  | cons part parts ih =>
      show gather start extend (addPart start extend (entries ++ [(k, e)]) (k, part)) _ = _
      rw [addPart_last hnew, ih, List.foldl_cons]

theorem gather_append {parts parts' : List (κ × π)} :
    gather start extend entries (parts ++ parts') =
      gather start extend (gather start extend entries parts) parts' :=
  List.foldl_append

/-- The parts of a value with a key of its own become its entry. -/
theorem gather_parts (i : Item κ π) (hnew : i.key ∉ entries.map Prod.fst) :
    gather start extend entries i.parts =
      entries ++ [(i.key, i.more.foldl extend (start i.first))] := by
  show gather start extend (addPart start extend entries (i.key, i.first)) _ = _
  rw [addPart_new hnew, gather_last hnew]

theorem gather_items_append (items : List (Item κ π))
    (hnd : (entries.map Prod.fst ++ items.map Item.key).Nodup) :
    gather start extend entries (items.flatMap Item.parts) =
      entries ++ items.map fun i => (i.key, i.more.foldl extend (start i.first)) := by
  induction items generalizing entries with
  | nil => simp [gather]
  | cons i items ih =>
      have hnew : i.key ∉ entries.map Prod.fst := by
        intro hmem
        exact List.disjoint_of_nodup_append hnd hmem (by simp)
      rw [List.flatMap_cons, gather_append, gather_parts i hnew, ih]
      · simp
      · simpa [List.append_assoc] using hnd

/-- Values with different keys are put together again, in their order. -/
theorem gather_items (items : List (Item κ π)) (hnd : (items.map Item.key).Nodup) :
    gather start extend [] (items.flatMap Item.parts) =
      items.map fun i => (i.key, i.more.foldl extend (start i.first)) := by
  rw [gather_items_append items (by simpa using hnd), List.nil_append]

theorem keys_addPart (entries : List (κ × ε)) (part : κ × π) :
    (addPart start extend entries part).map Prod.fst =
      if part.1 ∈ entries.map Prod.fst then entries.map Prod.fst
      else entries.map Prod.fst ++ [part.1] := by
  induction entries with
  | nil => rfl
  | cons entry entries ih =>
      by_cases heq : entry.1 = part.1
      · simp [addPart, heq]
      · by_cases hmem : part.1 ∈ entries.map Prod.fst
        · simp only [addPart, heq, if_false, List.map_cons, ih, hmem, if_true]
          rw [if_pos (List.mem_cons_of_mem _ hmem)]
        · have hnot : part.1 ∉ entry.1 :: entries.map Prod.fst := by
            rw [List.mem_cons, not_or]
            exact ⟨Ne.symm heq, hmem⟩
          simp only [addPart, heq, if_false, List.map_cons, ih, hmem]
          rw [if_neg hnot, List.cons_append]

variable (start extend) in
/-- One entry for each key, and no other. -/
theorem keys_gather (parts : List (κ × π)) (hnd : (entries.map Prod.fst).Nodup) :
    ((gather start extend entries parts).map Prod.fst).Nodup ∧
      (gather start extend entries parts).map Prod.fst ⊆
        entries.map Prod.fst ++ parts.map Prod.fst := by
  induction parts generalizing entries with
  | nil => exact ⟨hnd, by simp [gather]⟩
  | cons part parts ih =>
      have hstep : ((addPart start extend entries part).map Prod.fst).Nodup := by
        rw [keys_addPart]
        split
        · exact hnd
        · rename_i hnew
          exact List.nodup_append.mpr ⟨hnd, List.nodup_singleton _, by
            rintro a ha b hb rfl
            exact hnew (List.mem_singleton.mp hb ▸ ha)⟩
      obtain ⟨hnodup, hsub⟩ := ih hstep
      refine ⟨hnodup, fun key hkey => ?_⟩
      have hmem := hsub hkey
      rw [keys_addPart] at hmem
      simp only [List.mem_append, List.map_cons, List.mem_cons] at hmem ⊢
      rcases hmem with hmem | hmem
      · split at hmem
        · exact .inl hmem
        · rcases List.mem_append.mp hmem with hmem | hmem
          · exact .inl hmem
          · exact .inr (.inl (List.mem_singleton.mp hmem))
      · exact .inr (.inr hmem)

/-- There are no more entries than keys. -/
theorem length_gather_le (parts : List (κ × π)) :
    (gather start extend [] parts).length ≤ (parts.map Prod.fst).dedup.length := by
  have hnone : (([] : List (κ × ε)).map Prod.fst).Nodup := List.nodup_nil
  obtain ⟨hnd, hsub⟩ := keys_gather start extend parts hnone
  rw [← List.length_map (Prod.fst : κ × ε → κ)]
  refine (hnd.subperm fun key hkey => ?_).length_le
  exact List.mem_dedup.mpr (by simpa using hsub hkey)

omit [DecidableEq κ] in
theorem Item.mem_keys (items : List (Item κ π)) (key : κ) :
    key ∈ (items.flatMap Item.parts).map Prod.fst ↔ key ∈ items.map Item.key := by
  simp only [List.map_flatMap, List.mem_flatMap, List.mem_map, Item.parts, List.map_cons,
    List.mem_cons, List.map_map, Function.comp_def]
  constructor
  · rintro ⟨i, hi, rfl | ⟨-, -, rfl⟩⟩ <;> exact ⟨i, hi, rfl⟩
  · rintro ⟨i, hi, rfl⟩
    exact ⟨i, hi, .inl rfl⟩

/-- Values that share a key are not told apart: there are fewer entries than
values. -/
theorem length_gather_lt (items : List (Item κ π)) (hdup : ¬(items.map Item.key).Nodup) :
    (gather start extend [] (items.flatMap Item.parts)).length < items.length := by
  have hperm : ((items.flatMap Item.parts).map Prod.fst).dedup.Perm
      (items.map Item.key).dedup := by
    rw [List.perm_ext_iff_of_nodup (List.nodup_dedup _) (List.nodup_dedup _)]
    intro key
    rw [List.mem_dedup, List.mem_dedup]
    exact Item.mem_keys items key
  calc (gather start extend [] (items.flatMap Item.parts)).length
      ≤ (items.map Item.key).dedup.length := hperm.length_eq ▸ length_gather_le _
    _ < (items.map Item.key).length :=
        lt_of_le_of_ne (List.dedup_sublist _).length_le fun heq =>
          hdup (List.dedup_eq_self.mp ((List.dedup_sublist _).eq_of_length heq))
    _ = items.length := List.length_map _

end Gather

/-- Numbers handed out by counters that all start from zero are distinct when
at most one of the counters is used. -/
theorem nodup_flatMap_range (counts : List Nat) :
    (counts.flatMap List.range).Nodup ↔ counts.countP (0 < ·) ≤ 1 := by
  induction counts with
  | nil => simp
  | cons n counts ih =>
      rw [List.flatMap_cons, List.nodup_append']
      rcases Nat.eq_zero_or_pos n with rfl | hn
      · simpa using ih
      · have hdisj : (List.range n).Disjoint (counts.flatMap List.range) ↔
            counts.countP (0 < ·) = 0 := by
          rw [List.countP_eq_zero]
          constructor
          · intro hdisj m hm hpos
            refine hdisj (List.mem_range.mpr hn) (List.mem_flatMap.mpr ⟨m, hm, ?_⟩)
            exact List.mem_range.mpr (by simpa using hpos)
          · intro hzero a _ ha
            obtain ⟨m, hm, ha⟩ := List.mem_flatMap.mp ha
            have := hzero m hm
            simp only [decide_eq_true_eq, not_lt, nonpos_iff_eq_zero] at this
            simp [this] at ha
        rw [hdisj, ih, List.countP_cons_of_pos (by simpa using hn)]
        constructor
        · rintro ⟨-, -, hzero⟩
          omega
        · intro hle
          exact ⟨List.nodup_range, by omega, by omega⟩

end Flowgen.Lib
