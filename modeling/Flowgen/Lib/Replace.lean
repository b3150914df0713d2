/-
# `Flowgen.Lib.Replace` — replacing every occurrence of a word

`replace` goes through a list from the left, replaces a word where it finds it
and goes on behind it.  Where no occurrence begins in the first part of a list,
that part stays as it is (`replace_append`), and the length of the result counts
the occurrences that were replaced (`exists_length_replace`).

A separator and a word without it cannot overlap with themselves.  To replace
them first where a separator follows, and then what there is (`twice`), is to
replace every occurrence, whatever the list, exactly if what is put in does not
have them in it (`twice_eq_replace_iff`).
-/
import Mathlib

namespace Flowgen.Lib.Replace

variable {α : Type*} [DecidableEq α]

/-- Behind `skip` letters, `old` is replaced by `new` wherever it is found. -/
def replaceFrom (old new : List α) : Nat → List α → List α
  | _, [] => []
  | skip + 1, _ :: cs => replaceFrom old new skip cs
  | 0, c :: cs =>
      if old <+: c :: cs then new ++ replaceFrom old new (old.length - 1) cs
      else c :: replaceFrom old new 0 cs

attribute [grind =] replaceFrom

/-- `str::replace`, of a word that is not empty. -/
def replace (old new cs : List α) : List α := replaceFrom old new 0 cs

variable {old new cs ds u w : List α} {c : α} {n : Nat}

theorem replaceFrom_eq : replaceFrom old new n cs = replace old new (cs.drop n) := by
  induction n generalizing cs with
  | zero => rw [List.drop_zero, replace]
  | succ n ih =>
      cases cs with
      | nil => rfl
      | cons c cs => rw [replaceFrom, ih, List.drop_succ_cons]

theorem replace_nil : replace old new [] = [] := rfl

theorem replace_found (h : old ≠ []) : replace old new (old ++ cs) = new ++ replace old new cs := by
  cases old with
  | nil => exact absurd rfl h
  | cons c old =>
      have hpre : c :: old <+: c :: (old ++ cs) := List.prefix_append (c :: old) cs
      rw [List.cons_append, replace, replaceFrom, if_pos hpre, replaceFrom_eq,
        List.length_cons, Nat.add_sub_cancel, List.drop_left]

theorem replace_self (h : old ≠ []) : replace old new old = new := by
  calc replace old new old = replace old new (old ++ []) := by rw [List.append_nil]
    _ = new ++ replace old new [] := replace_found h
    _ = new := List.append_nil new

theorem replace_cons (h : ¬ old <+: c :: cs) :
    replace old new (c :: cs) = c :: replace old new cs := by
  rw [replace, replaceFrom, if_neg h, replace]

/-- What no occurrence begins in stays as it is. -/
theorem replace_append (h : ∀ v t, w = v ++ t → t ≠ [] → ¬ old <+: t ++ u) :
    replace old new (w ++ u) = w ++ replace old new u := by
  induction w with
  | nil => rfl
  | cons c w ih =>
      have hhead : ¬ old <+: c :: (w ++ u) := h [] (c :: w) rfl (List.cons_ne_nil _ _)
      rw [List.cons_append, replace_cons hhead, ih]
      · rfl
      · rintro v t rfl ht
        exact h (c :: v) t rfl ht

/-- Either nothing begins with the word or the word begins it. -/
theorem prefix_or_cons (old cs : List α) :
    cs = [] ∨ (∃ ds, cs = old ++ ds) ∨ ∃ c ds, cs = c :: ds ∧ ¬ old <+: cs := by
  cases cs with
  | nil => exact .inl rfl
  | cons c cs =>
      by_cases h : old <+: c :: cs
      · obtain ⟨ds, hds⟩ := h
        exact .inr (.inl ⟨ds, hds.symm⟩)
      · exact .inr (.inr ⟨c, cs, rfl, h⟩)

omit [DecidableEq α] in
theorem infix_cons_iff_of_not (h : ¬ old <+: c :: cs) : old <:+: c :: cs ↔ old <:+: cs := by
  rw [List.infix_cons_iff, or_iff_right h]

/-- The result is as long as the list, with the lengths of the words exchanged as often as the
word was found; and it was found if it is there. -/
theorem exists_length_replace (hold : old ≠ []) (cs : List α) :
    ∃ k, (replace old new cs).length + k * old.length = cs.length + k * new.length ∧
      (old <:+: cs → 0 < k) := by
  induction hn : cs.length using Nat.strongRecOn generalizing cs with
  | ind n ih =>
      rcases prefix_or_cons old cs with rfl | ⟨ds, rfl⟩ | ⟨c, ds, rfl, hpre⟩
      · refine ⟨0, by rw [← hn, replace_nil, Nat.zero_mul, Nat.zero_mul], fun h => ?_⟩
        exact absurd (List.infix_nil.mp h) hold
      · have hpos := List.length_pos_of_ne_nil hold
        rw [List.length_append] at hn
        obtain ⟨k, hk, -⟩ := ih ds.length (by omega) ds rfl
        refine ⟨k + 1, ?_, fun _ => Nat.succ_pos k⟩
        rw [replace_found hold, List.length_append, Nat.succ_mul, Nat.succ_mul]
        omega
      · rw [List.length_cons] at hn
        obtain ⟨k, hk, hpos⟩ := ih ds.length (by omega) ds rfl
        refine ⟨k, ?_, fun h => hpos ((infix_cons_iff_of_not hpre).mp h)⟩
        rw [replace_cons hpre, List.length_cons]
        omega

/-! ## A separator and a word without it -/

variable {sep : α} {word p text : List α}

/-- First where a separator follows, then wherever it is found. -/
def twice (sep : α) (word p text : List α) : List α :=
  replace (sep :: word) p (replace (sep :: word ++ [sep]) (p ++ [sep]) text)

/-- A word without a separator is not made by what is put in. -/
theorem prefix_of_prefix_replace (hp : p = [] ∨ p.head? = some sep) (hw : sep ∉ w)
    (h : w <+: replace (sep :: word ++ [sep]) (p ++ [sep]) cs) : w <+: cs := by
  induction w generalizing cs with
  | nil => exact List.nil_prefix
  | cons v w ih =>
      obtain ⟨hv, hw⟩ := not_or.mp (List.mem_cons.not.mp hw)
      rcases prefix_or_cons (sep :: word ++ [sep]) cs with rfl | ⟨ds, rfl⟩ | ⟨c, ds, rfl, hpre⟩
      · exact absurd h (by simp [replace_nil])
      · have hne : sep :: word ++ [sep] ≠ [] := List.cons_ne_nil _ _
        rw [replace_found hne] at h
        have hhead : ∃ rest, p ++ [sep] ++ replace (sep :: word ++ [sep]) (p ++ [sep]) ds =
            sep :: rest := by
          rcases hp with rfl | hp
          · exact ⟨_, rfl⟩
          · obtain ⟨rest, rfl⟩ := List.head?_eq_some_iff.mp hp
            exact ⟨_, rfl⟩
        obtain ⟨rest, hrest⟩ := hhead
        rw [hrest, List.cons_prefix_cons] at h
        exact absurd h.1.symm hv
      · rw [replace_cons hpre, List.cons_prefix_cons] at h
        exact List.cons_prefix_cons.mpr ⟨h.1, ih hw h.2⟩

/-- A word without a separator is passed over. -/
theorem replace_word (hw : sep ∉ w) :
    replace (sep :: old) new (w ++ u) = w ++ replace (sep :: old) new u := by
  refine replace_append ?_
  rintro v t rfl ht hpre
  cases t with
  | nil => exact ht rfl
  | cons c t =>
      obtain ⟨rfl, -⟩ := List.cons_prefix_cons.mp hpre
      exact hw (List.mem_append_right _ List.mem_cons_self)

/-- What is put in is passed over, if the word is not in it. -/
theorem replace_inserted (hword : sep ∉ word) (hfree : ¬ sep :: word <:+: p) :
    replace (sep :: word) new (p ++ sep :: u) = p ++ replace (sep :: word) new (sep :: u) := by
  refine replace_append ?_
  rintro v t rfl ht hpre
  have hin : sep :: word <+: t → False := fun h =>
    hfree (h.isInfix.trans (List.suffix_append _ _).isInfix)
  rcases List.prefix_or_prefix_of_prefix hpre (List.prefix_append t (sep :: u)) with h | ⟨rest, hrest⟩
  · exact hin h
  · rw [← hrest] at hpre
    have hsep := (List.prefix_append_right_inj t).mp hpre
    cases rest with
    | nil => exact hin (by rw [← hrest, List.append_nil])
    | cons c rest =>
        obtain ⟨rfl, -⟩ := List.cons_prefix_cons.mp hsep
        cases t with
        | nil => exact ht rfl
        | cons c' t =>
            refine hword ?_
            rw [← (List.cons.inj hrest).2]
            exact List.mem_append_right _ List.mem_cons_self

/-- Where the word is not in what is put in, the two ways agree. -/
theorem twice_eq_replace (hword : sep ∉ word) (hp : p = [] ∨ p.head? = some sep)
    (hfree : ¬ sep :: word <:+: p) (text : List α) :
    twice sep word p text = replace (sep :: word) p text := by
  have hbase : sep :: word ≠ [] := List.cons_ne_nil _ _
  have hslashed : sep :: word ++ [sep] ≠ [] := List.cons_ne_nil _ _
  induction hn : text.length using Nat.strongRecOn generalizing text with
  | ind n ih =>
      rcases prefix_or_cons (sep :: word) text with rfl | ⟨ds, rfl⟩ | ⟨c, ds, rfl, hpre⟩
      · rfl
      · rw [List.length_append, List.length_cons] at hn
        rw [replace_found hbase]
        by_cases hsep : [sep] <+: ds
        · -- a separator follows, and may itself begin an occurrence
          obtain ⟨r, rfl⟩ := hsep
          rw [List.singleton_append] at hn ⊢
          rw [List.length_cons] at hn
          have hrest : twice sep word p (sep :: r) = replace (sep :: word) p (sep :: r) :=
            ih (r.length + 1) (by omega) _ rfl
          have hfirst : sep :: word ++ sep :: r = sep :: word ++ [sep] ++ r := by simp
          rw [twice, hfirst, replace_found hslashed, List.append_assoc, List.singleton_append,
            replace_inserted hword hfree]
          congr 1
          by_cases hagain : sep :: word ++ [sep] <+: sep :: r
          · obtain ⟨r', hr'⟩ := hagain
            have hr : r = word ++ sep :: r' := by
              have hcons := (List.cons.inj hr').2
              rw [← hcons]
              simp
            subst hr
            rw [List.length_append, List.length_cons] at hn
            have hshort : twice sep word p (sep :: r') = replace (sep :: word) p (sep :: r') :=
              ih (r'.length + 1) (by omega) _ rfl
            rw [List.cons_append, replace_word hword, ← List.cons_append, replace_found hbase]
            show p ++ twice sep word p (sep :: r') = replace (sep :: word) p (sep :: word ++ sep :: r')
            rw [hshort, replace_found hbase]
          · rw [← hrest, twice, replace_cons hagain]
        · have hnot : ¬ sep :: word ++ [sep] <+: sep :: word ++ ds := fun h =>
            hsep ((List.prefix_append_right_inj _).mp h)
          have hrest : twice sep word p ds = replace (sep :: word) p ds :=
            ih ds.length (by omega) _ rfl
          have hfirst : replace (sep :: word ++ [sep]) (p ++ [sep]) (sep :: word ++ ds) =
              sep :: word ++ replace (sep :: word ++ [sep]) (p ++ [sep]) ds := by
            have hcons : ¬ sep :: word ++ [sep] <+: sep :: (word ++ ds) := hnot
            exact (replace_cons hcons).trans (congrArg (sep :: ·) (replace_word hword))
          rw [twice, hfirst, replace_found hbase, ← hrest, twice]
      · rw [List.length_cons] at hn
        have hrest : twice sep word p ds = replace (sep :: word) p ds :=
          ih ds.length (by omega) _ rfl
        have hnot : ¬ sep :: word ++ [sep] <+: c :: ds := fun h =>
          hpre ((List.prefix_append _ _).trans h)
        have hafter : ¬ sep :: word <+: c :: replace (sep :: word ++ [sep]) (p ++ [sep]) ds := by
          intro h
          obtain ⟨rfl, hwordPrefix⟩ := List.cons_prefix_cons.mp h
          exact hpre (List.cons_prefix_cons.mpr
            ⟨rfl, prefix_of_prefix_replace hp hword hwordPrefix⟩)
        rw [twice, replace_cons hnot, replace_cons hafter, replace_cons hpre, ← hrest, twice]

/-- Where it is, an occurrence before a separator is replaced once more. -/
theorem twice_ne_replace (hword : word ≠ []) (hlen : p.length ≠ (sep :: word).length)
    (h : sep :: word <:+: p) :
    twice sep word p (sep :: word ++ [sep]) ≠ replace (sep :: word) p (sep :: word ++ [sep]) := by
  have hbase : sep :: word ≠ [] := List.cons_ne_nil _ _
  have hshort : ¬ sep :: word <+: [sep] := by
    intro hpre
    exact hword (List.prefix_nil.mp (List.cons_prefix_cons.mp hpre).2)
  have honce : replace (sep :: word) p (sep :: word ++ [sep]) = p ++ [sep] := by
    rw [replace_found hbase, replace_cons hshort, replace_nil]
  obtain ⟨k, hk, hpos⟩ := @exists_length_replace _ _ _ p hbase (p ++ [sep])
  have hone := hpos (h.trans (List.prefix_append _ _).isInfix)
  have hslashed : sep :: word ++ [sep] ≠ [] := List.cons_ne_nil _ _
  rw [twice, replace_self hslashed, honce]
  intro heq
  rw [heq] at hk
  exact hlen (Nat.eq_of_mul_eq_mul_left hone (Nat.add_left_cancel hk)).symm

/-- The two ways agree on every list exactly if the word is not in what is put in. -/
theorem twice_eq_replace_iff (hword : sep ∉ word) (hne : word ≠ [])
    (hp : p = [] ∨ p.head? = some sep) (hlen : p ≠ sep :: word) :
    (∀ text, twice sep word p text = replace (sep :: word) p text) ↔ ¬ sep :: word <:+: p := by
  constructor
  · intro h hin
    refine twice_ne_replace hne ?_ hin (h _)
    intro heq
    exact hlen (hin.eq_of_length heq.symm).symm
  · exact fun hfree => twice_eq_replace hword hp hfree

end Flowgen.Lib.Replace
