/-
# `Flowgen.Lib.Ring` — ring buffers

A ring buffer takes elements in at its end, and drops its first one when it holds
as many as it may.  The test is for equality: a buffer that grows by one element at
a time cannot step over a positive capacity, so it holds the last elements of all
that were pushed (`foldl_push`).  A buffer of capacity 0 is past the test after its
first element and keeps everything (`foldl_push_zero`).
-/
import Mathlib

namespace Flowgen.Lib.Ring

variable {α : Type*}

def push (capacity : Nat) (buffer : List α) (x : α) : List α :=
  (if buffer.length = capacity then buffer.tail else buffer) ++ [x]

theorem length_rtake {l : List α} {n : Nat} : (l.rtake n).length = min l.length n := by
  rw [List.rtake, List.length_drop]
  omega

theorem tail_rtake {l : List α} {n : Nat} (h : n + 1 ≤ l.length) :
    (l.rtake (n + 1)).tail = l.rtake n := by
  have hsub : l.length - (n + 1) + 1 = l.length - n := by omega
  rw [List.rtake, List.rtake, List.tail_drop, hsub]

theorem rtake_of_length_le {l : List α} {n : Nat} (h : l.length ≤ n) : l.rtake n = l := by
  rw [List.rtake, Nat.sub_eq_zero_of_le h, List.drop_zero]

theorem rtake_min_length {l : List α} {n : Nat} : l.rtake (min n l.length) = l.rtake n := by
  rw [List.rtake, List.rtake]
  congr 1
  omega

/-- A push onto the last elements gives the last elements. -/
theorem push_rtake {capacity : Nat} (h : 0 < capacity) (l : List α) (x : α) :
    push capacity (l.rtake capacity) x = (l ++ [x]).rtake capacity := by
  obtain ⟨n, rfl⟩ := Nat.exists_eq_add_of_lt h
  rw [Nat.zero_add, List.rtake_concat_succ, push, length_rtake]
  split
  · rename_i hfull
    have hlen : n + 1 ≤ l.length := by omega
    rw [tail_rtake hlen]
  · rename_i hroom
    have hlen : l.length ≤ n := by omega
    rw [rtake_of_length_le hlen, rtake_of_length_le (Nat.le_succ_of_le hlen)]

theorem foldl_push {capacity : Nat} (h : 0 < capacity) (l : List α) :
    l.foldl (push capacity) [] = l.rtake capacity := by
  induction l using List.reverseRecOn with
  | nil => simp
  | append_singleton l x ih => rw [List.foldl_concat, ih, push_rtake h]

theorem foldl_push_zero (l : List α) : l.foldl (push 0) [] = l := by
  induction l using List.reverseRecOn with
  | nil => rfl
  | append_singleton l x ih =>
      rw [List.foldl_concat, ih, push]
      split
      · rename_i hempty
        rw [List.length_eq_zero_iff.mp hempty]
        rfl
      · rfl

/-- The last elements are kept exactly by buffers that may hold some. -/
theorem foldl_push_eq_iff {capacity : Nat} {l : List α} :
    l.foldl (push capacity) [] = l.rtake capacity ↔ 0 < capacity ∨ l = [] := by
  constructor
  · intro heq
    rcases Nat.eq_zero_or_pos capacity with rfl | hpos
    · rw [foldl_push_zero, List.rtake_zero] at heq
      exact .inr heq
    · exact .inl hpos
  · rintro (hpos | rfl)
    · exact foldl_push hpos l
    · simp

end Flowgen.Lib.Ring
