/-
# `Flowgen.Text` — the string functions of the source

Rust's string functions on the lists of characters of Lean's strings, so that
they can be evaluated, and `identity::within` (`core/src/identity.rs`), which
compares paths on whole segments.
-/
import Mathlib

namespace Flowgen.Text

/-- `char::is_whitespace`: the Unicode property `White_Space`. -/
def isWhitespace (c : Char) : Bool :=
  (0x9 ≤ c.toNat && c.toNat ≤ 0xd) || (0x2000 ≤ c.toNat && c.toNat ≤ 0x200a) ||
    [0x20, 0x85, 0xa0, 0x1680, 0x2028, 0x2029, 0x202f, 0x205f, 0x3000].contains c.toNat

/-- `str::trim`. -/
def trim (s : String) : String :=
  String.ofList ((s.toList.dropWhile isWhitespace).rdropWhile isWhitespace)

/-- `s.trim().is_empty()`. -/
def isBlank (s : String) : Bool := s.toList.all isWhitespace

/-- `str::split_once`. -/
def splitOnce (sep : Char) : List Char → Option (List Char × List Char)
  | [] => none
  | c :: cs =>
      if c = sep then some ([], cs)
      else (splitOnce sep cs).map fun (before, after) => (c :: before, after)

-- The equations are derived here, once, for the proofs that rewrite with them.
attribute [grind =] splitOnce

theorem splitOnce_append {sep : Char} {cs rest : List Char} (h : sep ∉ cs) :
    splitOnce sep (cs ++ sep :: rest) = some (cs, rest) := by
  induction cs with
  | nil => simp [splitOnce]
  | cons c cs ih =>
      obtain ⟨hc, hcs⟩ := not_or.mp (List.mem_cons.not.mp h)
      rw [List.cons_append, splitOnce, if_neg (Ne.symm hc), ih hcs]
      rfl

theorem splitOnce_eq_some {sep : Char} {cs before after : List Char} :
    splitOnce sep cs = some (before, after) ↔ cs = before ++ sep :: after ∧ sep ∉ before := by
  constructor
  · intro h
    induction cs generalizing before with
    | nil => cases h
    | cons c cs ih =>
        rw [splitOnce] at h
        split at h
        · rename_i hc
          cases h
          exact ⟨by rw [hc]; rfl, List.not_mem_nil⟩
        · rename_i hc
          obtain ⟨⟨before', after'⟩, hsplit, heq⟩ := Option.map_eq_some_iff.mp h
          cases heq
          obtain ⟨rfl, hsep⟩ := ih hsplit
          exact ⟨rfl, List.mem_cons.not.mpr (not_or.mpr ⟨Ne.symm hc, hsep⟩)⟩
  · rintro ⟨rfl, h⟩
    exact splitOnce_append h

/-- What is joined is still there. -/
theorem infix_intercalate {sep part : List Char} {parts : List (List Char)} (h : part ∈ parts) :
    part <:+: sep.intercalate parts := by
  induction parts with
  | nil => cases h
  | cons first parts ih =>
      by_cases hparts : parts = []
      · subst hparts
        rw [List.intercalate_singleton, List.mem_singleton.mp h]
      · rw [List.intercalate_cons_of_ne_nil hparts]
        rcases List.mem_cons.mp h with rfl | h
        · rw [List.append_assoc]
          exact (List.prefix_append _ _).isInfix
        · exact (ih h).trans (List.suffix_append _ _).isInfix

/-- A joined text, with one separator more, is as long as its parts with one
separator each. -/
theorem length_intercalate (sep : String) {parts : List String} (h : parts ≠ []) :
    (sep.intercalate parts).length + sep.length =
      (parts.map fun part => part.length + sep.length).sum := by
  induction parts with
  | nil => exact absurd rfl h
  | cons part parts ih =>
      rw [List.map_cons, List.sum_cons]
      by_cases hparts : parts = []
      · subst hparts
        simp
      · rw [String.intercalate_cons_of_ne_nil hparts, ← ih hparts, String.length_append,
          String.length_append]
        omega

/-- `str::strip_prefix`. -/
def stripPrefix : List Char → List Char → Option (List Char)
  | [], cs => some cs
  | _ :: _, [] => none
  | p :: ps, c :: cs => if p = c then stripPrefix ps cs else none

attribute [grind =] stripPrefix

theorem stripPrefix_eq_some {ps cs rest : List Char} :
    stripPrefix ps cs = some rest ↔ cs = ps ++ rest := by
  induction ps generalizing cs with
  | nil => simp [stripPrefix]
  | cons p ps ih =>
      cases cs with
      | nil => simp [stripPrefix]
      | cons c cs =>
          rw [stripPrefix]
          split
          · rename_i hpc
            rw [ih, hpc, List.cons_append, List.cons.injEq]
            simp
          · rename_i hpc
            rw [List.cons_append, List.cons.injEq]
            simp [Ne.symm hpc]

theorem stripPrefix_append (ps qs cs : List Char) :
    stripPrefix (ps ++ qs) cs = (stripPrefix ps cs).bind (stripPrefix qs) := by
  induction ps generalizing cs with
  | nil => rfl
  | cons p ps ih =>
      cases cs with
      | nil => rfl
      | cons c cs =>
          rw [List.cons_append, stripPrefix, stripPrefix]
          split
          · exact ih cs
          · rfl

/-- `str::strip_suffix`. -/
def stripSuffix (suffix cs : List Char) : Option (List Char) :=
  (stripPrefix suffix.reverse cs.reverse).map List.reverse

theorem stripSuffix_eq_some {suffix cs rest : List Char} :
    stripSuffix suffix cs = some rest ↔ cs = rest ++ suffix := by
  rw [stripSuffix, Option.map_eq_some_iff]
  constructor
  · rintro ⟨before, hbefore, rfl⟩
    have hcs := congrArg List.reverse (stripPrefix_eq_some.mp hbefore)
    simpa using hcs
  · rintro rfl
    exact ⟨rest.reverse, stripPrefix_eq_some.mpr (by simp), List.reverse_reverse rest⟩

/-- `identity::within`: `path` is `folder` or lies under it; an empty `folder`
contains every path. -/
def within (path folder : String) : Bool :=
  let folder := folder.toList.rdropWhile (· == '/')
  match stripPrefix folder path.toList with
  | some rest => folder.isEmpty || rest.isEmpty || rest.head? == some '/'
  | none => false

example : within "flows/user/a.yaml" "flows/user/" = true := by decide

end Flowgen.Text
