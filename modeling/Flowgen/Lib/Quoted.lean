/-
# `Flowgen.Lib.Quoted` — texts with quoted literals

A text whose quotes delimit literals, in which a backslash keeps the next
character from ending the literal.  Everything else is outside.  What is put
into such a text keeps to itself if it is a literal that was escaped
(`tokens_quoted`) or has no quote in it (`tokens_plain`).
-/
import Mathlib

namespace Flowgen.Lib.Quoted

/-- A literal keeps its backslashes; the text may end within one. -/
inductive Token
  | outside (c : Char)
  | literal (raw : List Char)
  | unfinished (raw : List Char)
deriving DecidableEq

/-- The tokens of a text, with what has been read of the literal it starts in. -/
def scan : Option (List Char) → List Char → List Token
  | none, [] => []
  | none, c :: cs => if c = '\'' then scan (some []) cs else .outside c :: scan none cs
  | some raw, [] => [.unfinished raw]
  | some raw, ['\\'] => [.unfinished (raw ++ ['\\'])]
  | some raw, '\\' :: c :: cs => scan (some (raw ++ ['\\', c])) cs
  | some raw, c :: cs =>
      if c = '\'' then .literal raw :: scan none cs else scan (some (raw ++ [c])) cs

-- The equations of its six cases are derived here, once, for the proofs below.
attribute [grind =] scan

abbrev tokens (cs : List Char) : List Token := scan none cs

/-- No quote ends a literal with this text early, nor does a backslash take its
last quote. -/
inductive Escaped : List Char → Prop
  | nil : Escaped []
  | char {c : Char} {cs : List Char} : c ≠ '\\' → c ≠ '\'' → Escaped cs → Escaped (c :: cs)
  | escape {c : Char} {cs : List Char} : Escaped cs → Escaped ('\\' :: c :: cs)

variable {cs rest raw : List Char}

theorem scan_char {c : Char} (hbackslash : c ≠ '\\') (hquote : c ≠ '\'') :
    scan (some raw) (c :: rest) = scan (some (raw ++ [c])) rest := by
  cases rest <;> simp [scan, hbackslash, hquote]

theorem scan_escape {c : Char} :
    scan (some raw) ('\\' :: c :: rest) = scan (some (raw ++ ['\\', c])) rest := by
  rw [scan]

theorem scan_quote : scan (some raw) ('\'' :: rest) = .literal raw :: tokens rest := by
  cases rest <;> simp [scan]

theorem scan_escaped (h : Escaped cs) :
    scan (some raw) (cs ++ '\'' :: rest) = .literal (raw ++ cs) :: tokens rest := by
  induction h generalizing raw with
  | nil => rw [List.nil_append, List.append_nil, scan_quote]
  | char hbackslash hquote _ ih =>
      rw [List.cons_append, scan_char hbackslash hquote, ih, List.append_assoc]
      rfl
  | escape _ ih =>
      rw [List.cons_append, List.cons_append, scan_escape, ih, List.append_assoc]
      rfl

theorem Escaped.append {ds : List Char} (hc : Escaped cs) (hd : Escaped ds) :
    Escaped (cs ++ ds) := by
  induction hc with
  | nil => exact hd
  | char hbackslash hquote _ ih => exact .char hbackslash hquote ih
  | escape _ ih => exact .escape ih

/-- A text with a backslash before each of some characters. -/
def escape (special : List Char) (cs : List Char) : List Char :=
  cs.flatMap fun c => if c ∈ special then ['\\', c] else [c]

theorem escaped_escape {special : List Char} (hbackslash : '\\' ∈ special)
    (hquote : '\'' ∈ special) (cs : List Char) : Escaped (escape special cs) := by
  induction cs with
  | nil => exact .nil
  | cons c cs ih =>
      rw [escape, List.flatMap_cons]
      refine Escaped.append ?_ ih
      split
      · exact .escape .nil
      · rename_i hc
        exact .char (fun heq => hc (heq ▸ hbackslash)) (fun heq => hc (heq ▸ hquote)) .nil

/-- A text that ends outside, whatever follows. -/
def Closed (cs : List Char) : Prop :=
  ∀ rest, tokens (cs ++ rest) = tokens cs ++ tokens rest

theorem closed_nil : Closed [] := fun _ => rfl

theorem Closed.append {ds : List Char} (hc : Closed cs) (hd : Closed ds) : Closed (cs ++ ds) := by
  intro rest
  rw [List.append_assoc, hc, hd, hc, List.append_assoc]

theorem closed_intercalate {sep : List Char} {css : List (List Char)} (hsep : Closed sep)
    (h : ∀ cs ∈ css, Closed cs) : Closed (sep.intercalate css) := by
  induction css with
  | nil => exact closed_nil
  | cons cs css ih =>
      obtain ⟨hcs, hcss⟩ := List.forall_mem_cons.mp h
      cases css with
      | nil => rwa [List.intercalate_singleton]
      | cons ds css =>
          rw [List.intercalate_cons_cons]
          exact (hcs.append hsep).append (ih hcss)

theorem tokens_intercalate {sep : List Char} {css : List (List Char)} (hsep : Closed sep)
    (h : ∀ cs ∈ css, Closed cs) :
    tokens (sep.intercalate css) = (tokens sep).intercalate (css.map tokens) := by
  induction css with
  | nil => rfl
  | cons cs css ih =>
      obtain ⟨hcs, hcss⟩ := List.forall_mem_cons.mp h
      cases css with
      | nil => rw [List.intercalate_singleton, List.map_singleton, List.intercalate_singleton]
      | cons ds css =>
          rw [List.intercalate_cons_cons, hcs.append hsep, hcs, ih hcss]
          simp only [List.map_cons, List.intercalate_cons_cons]

theorem tokens_char {c : Char} (h : c ≠ '\'') :
    tokens (c :: rest) = .outside c :: tokens rest := by
  rw [tokens, scan, if_neg h]

/-- An escaped literal is one token, whatever follows. -/
theorem tokens_quoted_append (h : Escaped cs) :
    tokens ('\'' :: cs ++ ['\''] ++ rest) = .literal cs :: tokens rest := by
  have hscan : scan (some []) (cs ++ '\'' :: rest) = .literal cs :: tokens rest := scan_escaped h
  rw [List.append_assoc, List.cons_append, tokens, scan, if_pos rfl]
  exact hscan

theorem tokens_quoted (h : Escaped cs) : tokens ('\'' :: cs ++ ['\'']) = [.literal cs] := by
  have happend : tokens ('\'' :: cs ++ ['\''] ++ []) = .literal cs :: tokens [] :=
    tokens_quoted_append h
  rwa [List.append_nil] at happend

theorem closed_quoted (h : Escaped cs) : Closed ('\'' :: cs ++ ['\'']) := by
  intro rest
  rw [tokens_quoted_append h, tokens_quoted h]
  rfl

/-- A text without a quote stays outside, whatever follows. -/
theorem tokens_plain_append (h : '\'' ∉ cs) :
    tokens (cs ++ rest) = cs.map .outside ++ tokens rest := by
  induction cs with
  | nil => rfl
  | cons c cs ih =>
      obtain ⟨hc, hcs⟩ := not_or.mp (List.mem_cons.not.mp h)
      rw [List.cons_append, tokens_char (Ne.symm hc), ih hcs]
      rfl

theorem tokens_plain (h : '\'' ∉ cs) : tokens cs = cs.map .outside := by
  have happend : tokens (cs ++ []) = cs.map .outside ++ tokens [] := tokens_plain_append h
  rwa [List.append_nil, show tokens [] = [] from rfl, List.append_nil] at happend

theorem closed_plain (h : '\'' ∉ cs) : Closed cs := by
  intro rest
  rw [tokens_plain_append h, tokens_plain h]

/-- A literal begins with no token outside. -/
theorem head?_scan_some {c : Char} {state : Option (List Char)} (h : state.isSome) :
    (scan state cs).head? ≠ some (.outside c) := by
  fun_induction scan state cs <;> simp_all

/-- The first token is outside only as the first character. -/
theorem head?_tokens {c : Char} (h : (tokens cs).head? = some (.outside c)) :
    cs.head? = some c := by
  cases cs with
  | nil => cases h
  | cons d cs =>
      rw [tokens, scan] at h
      split at h
      · exact absurd h (head?_scan_some rfl)
      · cases h
        rfl

end Flowgen.Lib.Quoted
