/-
# `Flowgen.Lib.Branches` — names of what comes of what

A name is carried on by branches: a dash and the number of the branch in
decimal.  Carried on in different ways it becomes different names
(`tail_injective`).  Two names are apart if nothing that comes of the one is
named like something that comes of the other, and that is so exactly if neither
is what the other can become (`apart_iff`).

A list of things with names goes from generation to generation: what comes of a
thing carries on its name, and what comes of the same thing is apart.  So if
the names of a generation are apart, those of the next are (`apart_flatMap`).
-/
import Mathlib

namespace Flowgen.Lib.Branches

/-- What a number looks like. -/
def digits (i : Nat) : List Char := (toString i).toList

/-- What is put behind a name. -/
def tail (is : List Nat) : List Char := is.flatMap fun i => '-' :: digits i

/-- Nothing that comes of the one has the name of what comes of the other. -/
def Apart (x y : List Char) : Prop := ∀ is js, x ++ tail is ≠ y ++ tail js

variable {x y z : List Char} {is js : List Nat} {i j : Nat}

theorem digits_eq : digits i = Nat.toDigits 10 i := by
  rw [digits, Nat.toString_eq_ofList_toDigits, String.toList_ofList]

theorem digits_injective : Function.Injective digits := by
  intro i j h
  rw [digits_eq, digits_eq] at h
  rw [← Nat.ofDigitChars_ten_toDigits (n := i), h, Nat.ofDigitChars_ten_toDigits]

theorem ne_dash_of_mem_digits {c : Char} (h : c ∈ digits i) : c ≠ '-' := by
  rw [digits_eq] at h
  have hdigit : c.isDigit = true := Nat.isDigit_of_mem_toDigits (b := 10) (by decide) le_rfl h
  rintro rfl
  cases hdigit

theorem tail_cons : tail (i :: is) = '-' :: digits i ++ tail is := List.flatMap_cons

theorem tail_append : tail (is ++ js) = tail is ++ tail js := List.flatMap_append

/-- What is put behind a name begins with a dash, if it is anything. -/
theorem eq_dash_of_tail {c : Char} {rest : List Char} (h : tail is = c :: rest) : c = '-' := by
  cases is with
  | nil => cases h
  | cons i is =>
      rw [tail_cons] at h
      exact (List.cons.inj h).1.symm

/-- A number ends where the dash is. -/
theorem takeWhile_digits_tail : (digits i ++ tail is).takeWhile (· ≠ '-') = digits i := by
  rw [List.takeWhile_append_of_pos fun c hc => decide_eq_true (ne_dash_of_mem_digits hc)]
  cases htail : tail is with
  | nil => rw [List.takeWhile_nil, List.append_nil]
  | cons c rest =>
      rw [List.takeWhile_cons_of_neg, List.append_nil]
      rw [eq_dash_of_tail htail]
      decide

theorem digits_tail_inj (h : digits i ++ tail is = digits j ++ tail js) :
    i = j ∧ tail is = tail js := by
  have hdigits : digits i = digits j := by
    rw [← @takeWhile_digits_tail is i, h, takeWhile_digits_tail]
  refine ⟨digits_injective hdigits, ?_⟩
  rw [hdigits] at h
  exact List.append_cancel_left h

/-- Different branches are named differently. -/
theorem tail_injective : Function.Injective tail := by
  intro is
  induction is with
  | nil =>
      intro js h
      cases js with
      | nil => rfl
      | cons j js => cases h
  | cons i is ih =>
      intro js h
      cases js with
      | nil => cases h
      | cons j js =>
          rw [tail_cons, tail_cons] at h
          obtain ⟨rfl, hrest⟩ := digits_tail_inj (List.cons.inj h).2
          rw [ih hrest]

/-- What is left of branches before the last of them are branches. -/
theorem exists_of_append_tail {w : List Char} (h : tail is = w ++ tail js) : ∃ ks, w = tail ks := by
  induction is generalizing w with
  | nil =>
      obtain ⟨rfl, -⟩ := List.append_eq_nil_iff.mp h.symm
      exact ⟨[], rfl⟩
  | cons i is ih =>
      cases w with
      | nil => exact ⟨[], rfl⟩
      | cons c w =>
          rw [tail_cons] at h
          obtain ⟨rfl, hrest⟩ := List.cons.inj h
          rcases List.append_eq_append_iff.mp hrest with ⟨w', rfl, hw'⟩ | ⟨d, hd, hjs⟩
          · obtain ⟨ks, rfl⟩ := ih hw'
            exact ⟨i :: ks, rfl⟩
          · cases d with
            | nil =>
                rw [List.append_nil] at hd
                exact ⟨[i], by rw [← hd]; exact (List.append_nil _).symm⟩
            | cons c d =>
                have hc : c ∈ digits i := by
                  rw [hd]
                  exact List.mem_append_right _ List.mem_cons_self
                exact absurd (eq_dash_of_tail hjs) (ne_dash_of_mem_digits hc)

/-! ## Names apart -/

theorem Apart.symm (h : Apart x y) : Apart y x := fun is js heq => h js is heq.symm

theorem Apart.ne (h : Apart x y) : x ≠ y := by
  intro heq
  exact h [] [] (by rw [heq])

/-- What comes of names that are apart is apart. -/
theorem Apart.extend (h : Apart x y) : Apart (x ++ tail is) (y ++ tail js) := by
  intro is' js' heq
  rw [List.append_assoc, List.append_assoc, ← tail_append, ← tail_append] at heq
  exact h _ _ heq

/-- Ways that are equally long and different lead apart. -/
theorem apart_of_length_eq (hlen : is.length = js.length) (hne : is ≠ js) :
    Apart (x ++ tail is) (x ++ tail js) := by
  intro is' js' heq
  rw [List.append_assoc, List.append_assoc, ← tail_append, ← tail_append] at heq
  exact hne (List.append_inj_left (tail_injective (List.append_cancel_left heq)) hlen)

/-- Two branches of one name are apart. -/
theorem apart_of_ne (h : i ≠ j) : Apart (x ++ tail [i]) (x ++ tail [j]) :=
  apart_of_length_eq rfl fun heq => h (List.cons.inj heq).1

/-- Two names are apart exactly if neither is what the other can become. -/
theorem apart_iff : Apart x y ↔ (∀ is, y ≠ x ++ tail is) ∧ ∀ is, x ≠ y ++ tail is := by
  constructor
  · intro h
    refine ⟨fun is heq => h is [] ?_, fun is heq => h [] is ?_⟩
    · rw [heq]
      exact (List.append_nil _).symm
    · rw [← heq]
      exact List.append_nil _
  · rintro ⟨hy, hx⟩ is js heq
    rcases List.append_eq_append_iff.mp heq with ⟨w, rfl, hw⟩ | ⟨w, rfl, hw⟩
    · obtain ⟨ks, rfl⟩ := exists_of_append_tail hw
      exact hy ks rfl
    · obtain ⟨ks, rfl⟩ := exists_of_append_tail hw
      exact hx ks rfl

/-! ## Generations -/

variable {α : Type*} {name : α → Option (List Char)} {turn : α → List α} {xs : List α}

/-- Two things are not named, or named apart. -/
def ApartBy (name : α → Option (List Char)) (a b : α) : Prop :=
  ∀ x y, name a = some x → name b = some y → Apart x y

/-- What comes of a thing carries on its name, if it has one, and is apart. -/
structure Branching (name : α → Option (List Char)) (turn : α → List α) (a : α) : Prop where
  carries : ∀ b ∈ turn a, ∀ y, name b = some y → ∃ x is, name a = some x ∧ y = x ++ tail is
  apart : (turn a).Pairwise (ApartBy name)

/-- From names that are apart come names that are apart. -/
theorem apart_flatMap (h : xs.Pairwise (ApartBy name))
    (hturn : ∀ a ∈ xs, Branching name turn a) : (xs.flatMap turn).Pairwise (ApartBy name) := by
  induction xs with
  | nil => exact .nil
  | cons a xs ih =>
      obtain ⟨hhead, htail⟩ := List.pairwise_cons.mp h
      obtain ⟨ha, hxs⟩ := List.forall_mem_cons.mp hturn
      rw [List.flatMap_cons, List.pairwise_append]
      refine ⟨ha.apart, ih htail hxs, ?_⟩
      intro b hb c hc y z hy hz
      obtain ⟨d, hd, hcd⟩ := List.mem_flatMap.mp hc
      obtain ⟨x, is, hx, rfl⟩ := ha.carries b hb y hy
      obtain ⟨w, js, hw, rfl⟩ := (hxs d hd).carries c hcd z hz
      exact (hhead d hd x w hx hw).extend

/-- Names that are apart are different. -/
theorem nodup_of_apart (h : xs.Pairwise (ApartBy name)) : (xs.filterMap name).Nodup := by
  refine List.Pairwise.filterMap name ?_ h
  intro a b hab x hx y hy
  exact (hab x y hx hy).ne

end Flowgen.Lib.Branches
