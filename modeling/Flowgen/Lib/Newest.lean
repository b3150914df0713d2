/-
# `Flowgen.Lib.Newest` — the newest `k` items, and merging them

`IsNewest key k all kept` says that `kept` is what is left of `all` when only
the newest `k` items by `key` are kept: it is sorted, nothing that was left out
is newer, and it is as long as it can be.  `newest` computes one such list by
sorting and dropping.

Two facts about them carry the comparison of a merged query with a single one.
The keys of the kept items are determined by the items (`map_key_eq`).  And
truncating parts to `k` before merging and truncating again loses nothing
(`of_flatMap`): what a part leaves out is not newer than the `k` items it keeps.
-/
import Mathlib

namespace Flowgen.Lib

variable {α β γ : Type*} [LinearOrder β] [LinearOrder γ] {key : α → β} {key' : α → γ} {k : Nat}
  {all all' kept kept' part rest others : List α} {x y : α}

structure IsNewest (key : α → β) (k : Nat) (all kept : List α) : Prop where
  sorted : kept.Pairwise fun x y => key x ≤ key y
  length : kept.length = min k all.length
  leaves : ∃ rest, (rest ++ kept).Perm all ∧ ∀ x ∈ rest, ∀ y ∈ kept, key x ≤ key y

/-- Sorts by the key, oldest first; items of one key stay in order. -/
def sortByKey (key : α → β) (l : List α) : List α :=
  l.insertionSort fun x y => key x ≤ key y

/-- The newest `k` items, oldest first. -/
def newest (key : α → β) (k : Nat) (l : List α) : List α :=
  (sortByKey key l).drop (l.length - k)

theorem pairwise_sortByKey (key : α → β) (l : List α) :
    (sortByKey key l).Pairwise fun x y => key x ≤ key y := by
  have : Std.Total fun x y : α => key x ≤ key y := ⟨fun x y => le_total (key x) (key y)⟩
  have : IsTrans α fun x y : α => key x ≤ key y := ⟨fun _ _ _ => le_trans⟩
  exact List.pairwise_insertionSort _ l

theorem perm_sortByKey (key : α → β) (l : List α) : (sortByKey key l).Perm l :=
  List.perm_insertionSort _ l

theorem newest_isNewest (key : α → β) (k : Nat) (l : List α) : IsNewest key k l (newest key k l) := by
  have hsorted := pairwise_sortByKey key l
  have hlen : (sortByKey key l).length = l.length := (perm_sortByKey key l).length_eq
  have hsplit := List.take_append_drop (l.length - k) (sortByKey key l)
  refine ⟨hsorted.sublist (List.drop_sublist _ _), ?_, (sortByKey key l).take (l.length - k), ?_, ?_⟩
  · rw [newest, List.length_drop, hlen]
    omega
  · rw [newest, hsplit]
    exact perm_sortByKey key l
  · rw [← hsplit] at hsorted
    exact (List.pairwise_append.mp hsorted).2.2

theorem IsNewest.perm (h : IsNewest key k all kept) (hp : all.Perm all') :
    IsNewest key k all' kept := by
  obtain ⟨rest, hrest, hle⟩ := h.leaves
  exact ⟨h.sorted, hp.length_eq ▸ h.length, rest, hrest.trans hp, hle⟩

theorem IsNewest.subset (h : IsNewest key k all kept) : kept ⊆ all := by
  obtain ⟨rest, hrest, _⟩ := h.leaves
  intro x hx
  exact hrest.subset (List.mem_append_right _ hx)

theorem isNewest_zero (key : α → β) (all : List α) : IsNewest key 0 all [] := by
  refine ⟨List.Pairwise.nil, (Nat.zero_min _).symm, all, ?_, ?_⟩
  · rw [List.append_nil]
  · intro x _ y hy
    cases hy

theorem IsNewest.eq_nil (h : IsNewest key 0 all kept) : kept = [] :=
  List.length_eq_zero_iff.mp (h.length.trans (Nat.zero_min _))

/-- The last item that is kept is the newest of all. -/
theorem IsNewest.exists_last (h : IsNewest key k all kept) (hk : k ≠ 0) (hx : x ∈ all) :
    ∃ y, kept.getLast? = some y ∧ ∀ z ∈ all, key z ≤ key y := by
  obtain ⟨rest, hrest, hle⟩ := h.leaves
  have hne : kept ≠ [] := by
    intro hnil
    have hlen := h.length
    have hpos := List.length_pos_of_mem hx
    rw [hnil, List.length_nil] at hlen
    omega
  refine ⟨kept.getLast hne, List.getLast?_eq_some_getLast hne, ?_⟩
  intro z hz
  rcases List.mem_append.mp (hrest.symm.subset hz) with hz | hz
  · exact hle z hz _ (List.getLast_mem hne)
  · have hsorted := h.sorted
    rw [← List.dropLast_append_getLast hne] at hsorted hz
    rcases List.mem_append.mp hz with hz | hz
    · exact (List.pairwise_append.mp hsorted).2.2 z hz _ List.mem_cons_self
    · exact le_of_eq (congrArg key (List.mem_singleton.mp hz))

/-- Another key that orders the items the same way. -/
theorem IsNewest.congr (h : IsNewest key k all kept)
    (hkey : ∀ x ∈ all, ∀ y ∈ all, key x ≤ key y ↔ key' x ≤ key' y) : IsNewest key' k all kept := by
  obtain ⟨rest, hrest, hle⟩ := h.leaves
  have hmem : ∀ x ∈ rest, x ∈ all := fun x hx => hrest.subset (List.mem_append_left _ hx)
  refine ⟨?_, h.length, rest, hrest, ?_⟩
  · refine h.sorted.imp_of_mem ?_
    intro x y hx hy hxy
    exact (hkey x (h.subset hx) y (h.subset hy)).mp hxy
  · intro x hx y hy
    exact (hkey x (hmem x hx) y (h.subset hy)).mp (hle x hx y hy)

/-- The keys that are kept depend on the items only. -/
theorem IsNewest.map_key_eq (h : IsNewest key k all kept) (h' : IsNewest key k all kept') :
    kept.map key = kept'.map key := by
  obtain ⟨rest, hrest, hle⟩ := h.leaves
  obtain ⟨rest', hrest', hle'⟩ := h'.leaves
  -- with what is left out sorted before it, both are the sorted list of all keys
  have hsorted : ∀ {rest kept : List α}, kept.Pairwise (fun x y => key x ≤ key y) →
      (∀ x ∈ rest, ∀ y ∈ kept, key x ≤ key y) →
      ((sortByKey key rest ++ kept).map key).Pairwise (· ≤ ·) := by
    intro rest kept hs hle
    rw [List.pairwise_map, List.pairwise_append]
    refine ⟨pairwise_sortByKey key rest, hs, ?_⟩
    intro x hx y hy
    exact hle x ((perm_sortByKey key rest).mem_iff.mp hx) y hy
  have hperm : ∀ {rest kept : List α}, (rest ++ kept).Perm all →
      ((sortByKey key rest ++ kept).map key).Perm (all.map key) := by
    intro rest kept hp
    exact (((perm_sortByKey key rest).append_right kept).trans hp).map key
  have heq : (sortByKey key rest ++ kept).map key = (sortByKey key rest' ++ kept').map key :=
    ((hperm hrest).trans (hperm hrest').symm).eq_of_pairwise' (hsorted h.sorted hle)
      (hsorted h'.sorted hle')
  rw [List.map_append, List.map_append] at heq
  refine (List.append_inj' heq ?_).2
  rw [List.length_map, List.length_map, h.length, h'.length]

/-- A part may be truncated before it is merged with the others. -/
theorem IsNewest.of_part (hpart : IsNewest key k all part)
    (h : IsNewest key k (part ++ others) kept) : IsNewest key k (all ++ others) kept := by
  obtain ⟨out, hout, hole⟩ := hpart.leaves
  obtain ⟨rest, hrest, hle⟩ := h.leaves
  have hlen : out.length + part.length = all.length := by
    rw [← List.length_append]
    exact hout.length_eq
  have hlen' := hpart.length
  refine ⟨h.sorted, ?_, out ++ rest, ?_, ?_⟩
  · have := h.length
    rw [List.length_append] at this ⊢
    omega
  · calc (out ++ rest ++ kept).Perm (out ++ (rest ++ kept)) := by rw [List.append_assoc]
      _ |>.Perm (out ++ (part ++ others)) := hrest.append_left out
      _ |>.Perm (all ++ others) := by
        rw [← List.append_assoc]
        exact hout.append_right others
  · intro x hx y hy
    rcases List.mem_append.mp hx with hx | hx
    · by_contra hlt
      rw [not_le] at hlt
      -- the part kept `k` items that are at least as new as `x`, and so did the merge
      have hk : part.length = k := by
        have := List.length_pos_of_mem hx
        omega
      have hcount := hrest.countP_eq fun z => decide (key x ≤ key z)
      rw [List.countP_append, List.countP_append] at hcount
      have hall : part.countP (fun z => decide (key x ≤ key z)) = part.length := by
        rw [List.countP_eq_length]
        intro z hz
        exact decide_eq_true (hole x hx z hz)
      have hnone : rest.countP (fun z => decide (key x ≤ key z)) = 0 := by
        rw [List.countP_eq_zero]
        intro z hz hxz
        exact absurd (le_trans (of_decide_eq_true hxz) (hle z hz y hy)) (not_le.mpr hlt)
      have hkept : kept.countP (fun z => decide (key x ≤ key z)) < kept.length := by
        refine lt_of_le_of_ne List.countP_le_length ?_
        intro heq
        exact absurd (of_decide_eq_true (List.countP_eq_length.mp heq y hy)) (not_le.mpr hlt)
      have := h.length
      rw [List.length_append] at this
      omega
    · exact hle x hx y hy

/-- All parts may be truncated before they are merged with one another and with others. -/
theorem IsNewest.of_flatMap_append {ι : Type*} {is : List ι} {whole part : ι → List α}
    (hpart : ∀ i ∈ is, IsNewest key k (whole i) (part i)) :
    ∀ {others : List α}, IsNewest key k (is.flatMap part ++ others) kept →
      IsNewest key k (is.flatMap whole ++ others) kept := by
  induction is with
  | nil =>
      intro others h
      exact h
  | cons i is ih =>
      intro others h
      have hi := hpart i List.mem_cons_self
      rw [List.flatMap_cons, List.append_assoc] at h ⊢
      have hrotate : ∀ l : List α, (whole i ++ (l ++ others)).Perm (l ++ (others ++ whole i)) := by
        intro l
        rw [← List.append_assoc l]
        exact List.perm_append_comm
      have h₁ := (hi.of_part h).perm (hrotate (is.flatMap part))
      have h₂ := ih (fun j hj => hpart j (List.mem_cons_of_mem i hj)) h₁
      exact h₂.perm (hrotate (is.flatMap whole)).symm

/-- All parts may be truncated before they are merged. -/
theorem IsNewest.of_flatMap {ι : Type*} {is : List ι} {whole part : ι → List α}
    (hpart : ∀ i ∈ is, IsNewest key k (whole i) (part i))
    (h : IsNewest key k (is.flatMap part) kept) : IsNewest key k (is.flatMap whole) kept := by
  rw [← List.append_nil (is.flatMap part)] at h
  rw [← List.append_nil (is.flatMap whole)]
  exact of_flatMap_append hpart h

end Flowgen.Lib
