/-
# `Flowgen.Lib.Latch` — the last of `n` parties opens it

Each of `n` parties arrives once, in any order, and takes one off a shared
counter; the one that takes the last one opens the latch, in a step of its
own.  The counter and the parties are not independent: the counter is the
number of parties still out, and exactly when it is zero either one party is
about to open the latch or the latch is open.  Both are fields, so a latch
that opens early or for a second time cannot be built.
-/
import Mathlib

namespace Flowgen.Lib

inductive Party
  | out
  | last
  | ended
deriving DecidableEq

structure Latch where
  parties : List Party
  remaining : Nat
  opened : Bool
  counted : remaining = parties.count .out
  once : parties.count .last + opened.toNat = if remaining = 0 then 1 else 0

namespace Latch

/-- Replacing one element changes the counts of the two elements concerned. -/
theorem count_set {l : List Party} {i : Nat} {a b : Party} (h : l[i]? = some a) (c : Party) :
    (l.set i b).count c + (if a = c then 1 else 0) = l.count c + if b = c then 1 else 0 := by
  induction l generalizing i with
  | nil => simp at h
  | cons x l ih =>
      cases i with
      | zero =>
          obtain rfl : x = a := by simpa using h
          simp only [List.set_cons_zero, List.count_cons, beq_iff_eq]
          omega
      | succ i =>
          have := ih (by simpa using h)
          simp only [List.set_cons_succ, List.count_cons]
          omega

theorem count_pos_of_get {l : List Party} {i : Nat} {a : Party} (h : l[i]? = some a) :
    0 < l.count a :=
  List.count_pos_iff.mpr (List.mem_of_getElem? h)

def new (n : Nat) (hn : 0 < n) : Latch where
  parties := List.replicate n .out
  remaining := n
  opened := false
  counted := by simp
  once := by
    rw [if_neg hn.ne', List.count_replicate]
    rfl

/-- Party `i` takes one off the counter. -/
def arrive (l : Latch) (i : Nat) (h : l.parties[i]? = some .out) : Latch where
  parties := l.parties.set i (if l.remaining = 1 then .last else .ended)
  remaining := l.remaining - 1
  opened := l.opened
  counted := by
    have hset := count_set (b := if l.remaining = 1 then .last else .ended) h .out
    have hne : (if l.remaining = 1 then Party.last else .ended) ≠ .out := by
      split
      · decide
      · decide
    rw [if_pos rfl, if_neg hne, ← l.counted] at hset
    omega
  once := by
    have hset := count_set (b := if l.remaining = 1 then .last else .ended) h .last
    have hpos : 0 < l.remaining := l.counted ▸ count_pos_of_get h
    have honce := l.once
    rw [if_neg hpos.ne'] at honce
    by_cases hone : l.remaining = 1
    · simp only [hone, if_true, reduceCtorEq, if_false, Nat.sub_self] at hset ⊢
      omega
    · have hne : l.remaining - 1 ≠ 0 := by omega
      simp only [hone, hne, if_false, reduceCtorEq] at hset ⊢
      omega

/-- The party that took the last one opens the latch. -/
def release (l : Latch) (i : Nat) (h : l.parties[i]? = some .last) : Latch where
  parties := l.parties.set i .ended
  remaining := l.remaining
  opened := true
  counted := by
    have hset := count_set (b := .ended) h .out
    simp only [reduceCtorEq, if_false] at hset
    rw [l.counted]
    omega
  once := by
    have hset := count_set (b := .ended) h .last
    have hpos := count_pos_of_get h
    have honce := l.once
    simp only [reduceCtorEq, if_true, if_false] at hset
    rw [Bool.toNat_true]
    by_cases hzero : l.remaining = 0
    · rw [if_pos hzero] at honce ⊢
      omega
    · rw [if_neg hzero] at honce
      omega

variable {l : Latch} {i n : Nat}

/-- Behind an open latch no party is out. -/
theorem remaining_of_opened (h : l.opened = true) : l.remaining = 0 := by
  have honce := l.once
  rw [h, Bool.toNat_true] at honce
  by_contra hne
  rw [if_neg hne] at honce
  omega

theorem not_out_of_opened (h : l.opened = true) : ∀ i : Nat, l.parties[i]? ≠ some .out := by
  intro i hi
  have hpos := count_pos_of_get hi
  have hzero := l.counted.symm.trans (remaining_of_opened h)
  omega

/-- A latch that is not open is waiting for a party. -/
theorem exists_party_of_not_opened (h : l.opened = false) :
    ∃ i : Nat, l.parties[i]? = some .out ∨ l.parties[i]? = some .last := by
  have honce := l.once
  rw [h, Bool.toNat_false, Nat.add_zero] at honce
  by_cases hzero : l.remaining = 0
  · rw [if_pos hzero] at honce
    obtain ⟨i, hi⟩ := List.mem_iff_getElem?.mp (List.count_pos_iff.mp (honce ▸ Nat.one_pos))
    exact ⟨i, .inr hi⟩
  · have hpos : 0 < l.parties.count .out := l.counted ▸ Nat.pos_of_ne_zero hzero
    obtain ⟨i, hi⟩ := List.mem_iff_getElem?.mp (List.count_pos_iff.mp hpos)
    exact ⟨i, .inl hi⟩

@[simp] theorem length_new (hn : 0 < n) : (new n hn).parties.length = n := List.length_replicate

@[simp] theorem length_arrive (h : l.parties[i]? = some .out) :
    (l.arrive i h).parties.length = l.parties.length := List.length_set

@[simp] theorem length_release (h : l.parties[i]? = some .last) :
    (l.release i h).parties.length = l.parties.length := List.length_set

/-- The steps left until the latch is open and all parties are done with it. -/
def work (l : Latch) : Nat := 2 * l.parties.count .out + l.parties.count .last

theorem work_arrive (h : l.parties[i]? = some .out) : (l.arrive i h).work < l.work := by
  have hout := count_set (b := if l.remaining = 1 then .last else .ended) h .out
  have hlast := count_set (b := if l.remaining = 1 then .last else .ended) h .last
  simp only [work, arrive]
  by_cases hone : l.remaining = 1
  · simp only [hone, if_true, reduceCtorEq, if_false] at hout hlast ⊢
    omega
  · simp only [hone, if_true, reduceCtorEq, if_false] at hout hlast ⊢
    omega

theorem work_release (h : l.parties[i]? = some .last) : (l.release i h).work < l.work := by
  have hout := count_set (b := .ended) h .out
  have hlast := count_set (b := .ended) h .last
  simp only [work, release]
  simp only [reduceCtorEq, if_true, if_false] at hout hlast
  omega

end Latch

end Flowgen.Lib
