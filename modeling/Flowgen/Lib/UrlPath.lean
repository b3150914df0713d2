/-
# `Flowgen.Lib.UrlPath` — the path a browser reads

How a browser resolves a reference that begins with a slash, from a page served over
HTTP: backslashes count as slashes, control characters at the ends and tabs and
newlines anywhere are dropped, dot segments are resolved also where the dots are
percent-encoded, and the characters that a path cannot have are percent-encoded.
The query and the fragment are of no account here.

A text whose segments are no dot segments keeps them (`parsePath_segments`); what
comes before a slash is read before what follows it (`parsePath_append`).
-/
import Mathlib

namespace Flowgen.Lib.UrlPath

abbrev Segment := List Char

def isSlash (c : Char) : Bool := c == '/' || c == '\\'

/-- The character ends the path. -/
def isStop (c : Char) : Bool := c == '?' || c == '#'

/-- The path percent-encode set. -/
def isEncoded (c : Char) : Bool :=
  c.toNat ≤ 0x1f || 0x7e < c.toNat ||
    [' ', '"', '#', '<', '>', '?', '^', '\x60', '\x7b', '\x7d'].contains c

def hexDigits : List Char :=
  ['0', '1', '2', '3', '4', '5', '6', '7', '8', '9', 'A', 'B', 'C', 'D', 'E', 'F']

def hexDigit (n : Nat) : Char := hexDigits.getD n '0'

def percentEncoded (c : Char) : List Char :=
  (String.utf8EncodeChar c).flatMap fun byte =>
    ['%', hexDigit (byte.toNat / 16), hexDigit (byte.toNat % 16)]

def encodeChar (c : Char) : List Char := if isEncoded c then percentEncoded c else [c]

def encode (cs : List Char) : Segment := cs.flatMap encodeChar

def singleDots : List (List Char) := [".", "%2e"].map String.toList

def doubleDots : List (List Char) := ["..", ".%2e", "%2e.", "%2e%2e"].map String.toList

def isSingleDot (s : Segment) : Bool := singleDots.contains (s.map Char.toLower)

def isDoubleDot (s : Segment) : Bool := doubleDots.contains (s.map Char.toLower)

def isDot (s : Segment) : Bool := isSingleDot s || isDoubleDot s

/-- A segment has ended, at a slash or with the path. -/
def endSegment (path : List Segment) (buffer : Segment) (slash : Bool) : List Segment :=
  if isDoubleDot buffer then if slash then path.dropLast else path.dropLast ++ [[]]
  else if isSingleDot buffer then if slash then path else path ++ [[]]
  else path ++ [buffer]

def parsePath (path : List Segment) (buffer : Segment) : List Char → List Segment
  | [] => endSegment path buffer false
  | c :: cs =>
      if isSlash c then parsePath (endSegment path buffer true) [] cs
      else if isStop c then endSegment path buffer false
      else parsePath path (buffer ++ encodeChar c) cs

attribute [grind =] parsePath

def pathText (path : List Segment) : List Char := path.flatMap ('/' :: ·)

/-- What the browser does to a reference before it looks at it. -/
def cleaned (text : List Char) : List Char :=
  ((text.dropWhile (·.toNat ≤ 0x20)).rdropWhile (·.toNat ≤ 0x20)).filter
    fun c => !(['\t', '\n', '\r'].contains c)

inductive Target
  /-- A page of the same origin. -/
  | page (path : List Segment)
  /-- The reference names a host. -/
  | host
  /-- The reference does not begin with a slash. -/
  | other
deriving DecidableEq

def resolve (text : List Char) : Target :=
  match cleaned text with
  | [] => .other
  | c :: cs =>
      if isSlash c then
        if cs.head?.any isSlash then .host else .page (parsePath [] [] cs)
      else .other

/-! ## Segments -/

/-- The segments of a text up to its query, with the characters of the first that have
been read before. -/
def segments (read : Segment) : List Char → List Segment
  | [] => [read]
  | c :: cs =>
      if c = '/' then read :: segments [] cs
      else if isStop c then [read]
      else segments (read ++ [c]) cs

/-- The path after a text and a slash. -/
def walk (path : List Segment) (buffer : Segment) : List Char → List Segment
  | [] => endSegment path buffer true
  | c :: cs =>
      if isSlash c then walk (endSegment path buffer true) [] cs
      else walk path (buffer ++ encodeChar c) cs

variable {path : List Segment} {buffer read : Segment} {cs text rest : List Char} {c : Char}

theorem segments_ne_nil : segments read cs ≠ [] := by
  induction cs generalizing read with
  | nil => simp [segments]
  | cons c cs ih =>
      rw [segments]
      split
      · simp
      · split
        · simp
        · exact ih

theorem parsePath_append (hstop : ∀ c ∈ text, isStop c = false) :
    parsePath path buffer (text ++ '/' :: rest) = parsePath (walk path buffer text) [] rest := by
  induction text generalizing path buffer with
  | nil => rfl
  | cons c text ih =>
      obtain ⟨hc, htext⟩ := List.forall_mem_cons.mp hstop
      rw [List.cons_append, parsePath, walk, hc]
      split
      · exact ih htext
      · exact ih htext

/-- The rest of a text is not read after its query has begun. -/
theorem parsePath_stop (hstop : ∃ c ∈ text, isStop c) :
    parsePath path buffer (text ++ rest) = parsePath path buffer text := by
  induction text generalizing path buffer with
  | nil => simp at hstop
  | cons c text ih =>
      rw [List.cons_append, parsePath, parsePath]
      split
      · rename_i hslash
        refine ih ?_
        obtain ⟨d, hd, hdstop⟩ := hstop
        rcases List.mem_cons.mp hd with rfl | hmem
        · simp [isSlash, isStop] at hslash hdstop
          rcases hslash with rfl | rfl <;> simp at hdstop
        · exact ⟨d, hmem, hdstop⟩
      · split
        · rfl
        · rename_i hc
          refine ih ?_
          obtain ⟨d, hd, hdstop⟩ := hstop
          rcases List.mem_cons.mp hd with rfl | hmem
          · exact absurd hdstop hc
          · exact ⟨d, hmem, hdstop⟩

theorem encode_append (cs ds : List Char) : encode (cs ++ ds) = encode cs ++ encode ds :=
  List.flatMap_append

theorem encode_singleton : encode [c] = encodeChar c := List.append_nil _

theorem endSegment_of_not_dot {slash : Bool} (h : isDot buffer = false) :
    endSegment path buffer slash = path ++ [buffer] := by
  obtain ⟨hsingle, hdouble⟩ := Bool.or_eq_false_iff.mp h
  rw [endSegment, hdouble, hsingle]
  rfl

theorem isSlash_eq_false (hslash : c ≠ '/') (hback : c ≠ '\\') : isSlash c = false := by
  simp [isSlash, hslash, hback]

/-- Segments that are no dot segments are kept, in order. -/
theorem parsePath_segments (hback : '\\' ∉ cs)
    (hdot : ∀ s ∈ segments read cs, isDot (encode s) = false) :
    parsePath path (encode read) cs = path ++ (segments read cs).map encode := by
  induction cs generalizing path read with
  | nil => exact endSegment_of_not_dot (hdot read List.mem_cons_self)
  | cons c cs ih =>
      obtain ⟨hc, hcs⟩ := not_or.mp (List.mem_cons.not.mp hback)
      rw [segments] at hdot ⊢
      rw [parsePath]
      by_cases hslash : c = '/'
      · rw [if_pos hslash] at hdot ⊢
        obtain ⟨hread, hrest⟩ := List.forall_mem_cons.mp hdot
        rw [if_pos (by simp [isSlash, hslash]), endSegment_of_not_dot hread]
        rw [show parsePath (path ++ [encode read]) [] cs =
          parsePath (path ++ [encode read]) (encode []) cs from rfl, ih hcs hrest]
        simp
      · rw [if_neg hslash] at hdot ⊢
        rw [isSlash_eq_false hslash (Ne.symm hc), if_neg Bool.false_ne_true]
        cases hstop : isStop c with
        | true =>
            rw [hstop, if_pos rfl] at hdot
            exact endSegment_of_not_dot (hdot read List.mem_cons_self)
        | false =>
            rw [hstop, if_neg Bool.false_ne_true] at hdot
            rw [← encode_singleton, ← encode_append]
            exact ih hcs hdot

theorem walk_segments (hback : '\\' ∉ cs) (hstop : ∀ c ∈ cs, isStop c = false)
    (hdot : ∀ s ∈ segments read cs, isDot (encode s) = false) :
    walk path (encode read) cs = path ++ (segments read cs).map encode := by
  induction cs generalizing path read with
  | nil => exact endSegment_of_not_dot (hdot read List.mem_cons_self)
  | cons c cs ih =>
      obtain ⟨hc, hcs⟩ := not_or.mp (List.mem_cons.not.mp hback)
      obtain ⟨hcstop, hrestStop⟩ := List.forall_mem_cons.mp hstop
      rw [segments] at hdot ⊢
      rw [walk]
      by_cases hslash : c = '/'
      · rw [if_pos hslash] at hdot ⊢
        obtain ⟨hread, hrest⟩ := List.forall_mem_cons.mp hdot
        rw [if_pos (by simp [isSlash, hslash]), endSegment_of_not_dot hread]
        rw [show walk (path ++ [encode read]) [] cs =
          walk (path ++ [encode read]) (encode []) cs from rfl, ih hcs hrestStop hrest]
        simp
      · rw [if_neg hslash, hcstop, if_neg Bool.false_ne_true] at hdot ⊢
        rw [isSlash_eq_false hslash (Ne.symm hc), if_neg Bool.false_ne_true, ← encode_singleton,
          ← encode_append]
        exact ih hcs hrestStop hdot

/-! ## Paths as texts -/

theorem pathText_append (xs ys : List Segment) : pathText (xs ++ ys) = pathText xs ++ pathText ys :=
  List.flatMap_append

theorem pathText_segments (hstop : ∀ c ∈ cs, isStop c = false) :
    pathText (segments read cs) = '/' :: read ++ cs := by
  induction cs generalizing read with
  | nil => simp [segments, pathText]
  | cons c cs ih =>
      obtain ⟨hc, hcs⟩ := List.forall_mem_cons.mp hstop
      rw [segments, hc]
      split
      · rename_i hslash
        rw [show pathText (read :: segments [] cs) = '/' :: read ++ pathText (segments [] cs) from
          rfl, ih hcs, hslash]
        simp
      · rw [if_neg Bool.false_ne_true, ih hcs]
        simp

theorem slash_notMem_segments (hread : '/' ∉ read) : ∀ s ∈ segments read cs, '/' ∉ s := by
  induction cs generalizing read with
  | nil => simpa [segments] using hread
  | cons c cs ih =>
      rw [segments]
      split
      · exact List.forall_mem_cons.mpr ⟨hread, ih List.not_mem_nil⟩
      · rename_i hc
        split
        · simpa using hread
        · exact ih (by simp [hread, Ne.symm hc])

/-- A path can be read off its text. -/
theorem pathText_injective {xs ys : List Segment} (hxs : ∀ s ∈ xs, '/' ∉ s)
    (hys : ∀ s ∈ ys, '/' ∉ s) (h : pathText xs = pathText ys) : xs = ys := by
  induction xs generalizing ys with
  | nil =>
      cases ys with
      | nil => rfl
      | cons y ys => cases h
  | cons x xs ih =>
      cases ys with
      | nil => cases h
      | cons y ys =>
          obtain ⟨hx, hxs'⟩ := List.forall_mem_cons.mp hxs
          obtain ⟨hy, hys'⟩ := List.forall_mem_cons.mp hys
          have htail : x ++ pathText xs = y ++ pathText ys := List.cons_injective h
          have hhead : ∀ zs : List Segment, pathText zs = [] ∨ ∃ rest, pathText zs = '/' :: rest := by
            intro zs
            cases zs with
            | nil => exact .inl rfl
            | cons z zs => exact .inr ⟨_, rfl⟩
          have hsplit : ∀ (z : Segment) (zs : List Segment), '/' ∉ z →
              (z ++ pathText zs).takeWhile (· != '/') = z := by
            intro z zs hz
            rw [List.takeWhile_append_of_pos (by
              intro c hc
              simpa using fun heq : c = '/' => hz (heq ▸ hc))]
            rcases hhead zs with hnil | ⟨rest, hcons⟩
            · rw [hnil, List.takeWhile_nil, List.append_nil]
            · rw [hcons, List.takeWhile_cons_of_neg (by simp), List.append_nil]
          have hxy : x = y := by rw [← hsplit x xs hx, htail, hsplit y ys hy]
          subst hxy
          rw [ih hxs' hys' (List.append_cancel_left htail)]

/-! ## What a browser never leaves in a path -/

/-- A segment of a path that has been read. -/
structure Plain (s : Segment) : Prop where
  dot : isDot s = false
  chars : ∀ c ∈ s, c ≠ '/' ∧ isStop c = false

theorem hexDigit_mem (n : Nat) : hexDigit n ∈ hexDigits := by
  rw [hexDigit, List.getD_eq_getElem?_getD]
  cases h : hexDigits[n]? with
  | none => decide
  | some c => exact List.mem_of_getElem? h

theorem percentEncoded_chars : ∀ d ∈ percentEncoded c, d ≠ '/' ∧ isStop d = false := by
  intro d hd
  obtain ⟨byte, -, hd⟩ := List.mem_flatMap.mp hd
  have hall : hexDigits.all (fun d => d != '/' && !isStop d) = true := by decide
  have hdigits : ∀ d ∈ hexDigits, d ≠ '/' ∧ isStop d = false := by
    intro d hmem
    simpa using List.all_eq_true.mp hall d hmem
  rcases List.mem_cons.mp hd with rfl | hd
  · decide
  · rcases List.mem_cons.mp hd with rfl | hd
    · exact hdigits _ (hexDigit_mem _)
    · rw [List.mem_singleton.mp hd]
      exact hdigits _ (hexDigit_mem _)

theorem encodeChar_chars (hslash : isSlash c = false) (hstop : isStop c = false) :
    ∀ d ∈ encodeChar c, d ≠ '/' ∧ isStop d = false := by
  rw [encodeChar]
  split
  · exact percentEncoded_chars
  · intro d hd
    rw [List.mem_singleton.mp hd]
    refine ⟨?_, hstop⟩
    rintro rfl
    cases hslash

theorem plain_endSegment {slash : Bool} (hpath : ∀ s ∈ path, Plain s)
    (hbuffer : ∀ c ∈ buffer, c ≠ '/' ∧ isStop c = false) :
    ∀ s ∈ endSegment path buffer slash, Plain s := by
  have hempty : Plain [] := ⟨by decide, fun c hc => absurd hc List.not_mem_nil⟩
  have hlast : ∀ s ∈ path.dropLast, Plain s := fun s hs => hpath s (List.mem_of_mem_dropLast hs)
  have hadd : ∀ (xs : List Segment) (x : Segment), (∀ s ∈ xs, Plain s) → Plain x →
      ∀ s ∈ xs ++ [x], Plain s := by
    intro xs x hxs hx s hs
    rcases List.mem_append.mp hs with h | h
    · exact hxs s h
    · exact List.mem_singleton.mp h ▸ hx
  rw [endSegment]
  split
  · split
    · exact hlast
    · exact hadd _ _ hlast hempty
  · rename_i hdouble
    split
    · split
      · exact hpath
      · exact hadd _ _ hpath hempty
    · rename_i hsingle
      exact hadd _ _ hpath ⟨by simp [isDot, hdouble, hsingle], hbuffer⟩

theorem plain_parsePath (hpath : ∀ s ∈ path, Plain s)
    (hbuffer : ∀ c ∈ buffer, c ≠ '/' ∧ isStop c = false) :
    ∀ s ∈ parsePath path buffer cs, Plain s := by
  induction cs generalizing path buffer with
  | nil => exact plain_endSegment hpath hbuffer
  | cons c cs ih =>
      rw [parsePath]
      split
      · exact ih (plain_endSegment hpath hbuffer) (fun c hc => absurd hc List.not_mem_nil)
      · rename_i hslash
        split
        · exact plain_endSegment hpath hbuffer
        · rename_i hstop
          refine ih hpath fun d hd => ?_
          rcases List.mem_append.mp hd with h | h
          · exact hbuffer d h
          · exact encodeChar_chars (by simpa using hslash) (by simpa using hstop) d h

/-! ## Texts without control characters -/

/-- A text of visible ASCII characters. -/
def Graphic (cs : List Char) : Prop := ∀ c ∈ cs, 0x20 < c.toNat ∧ c.toNat < 0x7f

theorem cleaned_of_graphic (h : Graphic cs) : cleaned cs = cs := by
  have hvisible : ∀ c ∈ cs, ¬ decide (c.toNat ≤ 0x20) := by
    intro c hc
    have := h c hc
    simpa using this.1
  have hleft : cs.dropWhile (fun c => decide (c.toNat ≤ 0x20)) = cs := by
    rw [List.dropWhile_eq_self_iff]
    intro hpos
    exact hvisible _ (List.getElem_mem hpos)
  have hright : cs.rdropWhile (fun c => decide (c.toNat ≤ 0x20)) = cs := by
    rw [List.rdropWhile_eq_self_iff]
    intro hne
    exact hvisible _ (List.getLast_mem hne)
  rw [cleaned, hleft, hright, List.filter_eq_self]
  intro c hc
  have hlow : 0x20 < c.toNat := (h c hc).1
  rw [Bool.not_eq_true', ← Bool.not_eq_true, List.contains_iff_mem]
  intro hmem
  simp only [List.mem_cons, List.not_mem_nil, or_false] at hmem
  rcases hmem with rfl | rfl | rfl
  · revert hlow
    decide
  · revert hlow
    decide
  · revert hlow
    decide

/-- The visible characters that are encoded, but for those that end the path. -/
def encodedVisible : List Char := ['"', '<', '>', '^', '\x60', '\x7b', '\x7d']

theorem mem_encodedVisible (h : isEncoded c) (hgraphic : 0x20 < c.toNat ∧ c.toNat < 0x7f)
    (hstop : isStop c = false) : c ∈ encodedVisible := by
  obtain ⟨hlow, hhigh⟩ := hgraphic
  have h1 : ¬ c.toNat ≤ 0x1f := by omega
  have h2 : ¬ 0x7e < c.toNat := by omega
  rw [isEncoded, decide_eq_false h1, decide_eq_false h2, Bool.false_or, Bool.false_or,
    List.contains_iff_mem] at h
  simp only [List.mem_cons, List.not_mem_nil, or_false] at h
  rcases h with rfl | rfl | rfl | rfl | rfl | rfl | rfl | rfl | rfl | rfl
  all_goals first
    | decide
    | exact absurd hlow (by decide)
    | exact absurd hstop (by decide)

theorem encode_eq_self (h : ∀ c ∈ cs, isEncoded c = false) : encode cs = cs := by
  have hchars : ∀ c ∈ cs, encodeChar c = [c] := by
    intro c hc
    rw [encodeChar, h c hc]
    rfl
  rw [encode, List.flatMap_congr hchars]
  exact List.flatMap_singleton' cs

theorem infix_encodeChar (hc : c ∈ cs) : encodeChar c <:+: encode cs := by
  obtain ⟨before, after, rfl⟩ := List.append_of_mem hc
  refine ⟨encode before, encode after, ?_⟩
  rw [encode_append, show c :: after = [c] ++ after from rfl, encode_append, encode_singleton,
    List.append_assoc]

/-- A dot segment has no encoded character. -/
theorem encode_eq_of_dot (hgraphic : Graphic cs) (hstop : ∀ c ∈ cs, isStop c = false)
    (h : isDot (encode cs)) : encode cs = cs := by
  refine encode_eq_self fun c hc => ?_
  by_contra hencoded
  rw [Bool.not_eq_false] at hencoded
  have hvisible := mem_encodedVisible hencoded (hgraphic c hc) (hstop c hc)
  have hdots : (encode cs).map Char.toLower ∈ singleDots ++ doubleDots := by
    rw [isDot, Bool.or_eq_true, isSingleDot, isDoubleDot, List.contains_iff_mem,
      List.contains_iff_mem] at h
    exact List.mem_append.mpr h
  have hinfix := (infix_encodeChar hc).map Char.toLower
  have hnone : (encodedVisible.all fun c => (singleDots ++ doubleDots).all fun t =>
      !decide ((encodeChar c).map Char.toLower <:+: t)) = true := rfl
  have hnot := List.all_eq_true.mp (List.all_eq_true.mp hnone c hvisible) _ hdots
  exact absurd hinfix (by simpa using hnot)

theorem percent_mem_encode (hc : c ∈ cs) (h : isEncoded c) : '%' ∈ encode cs := by
  refine (infix_encodeChar hc).subset ?_
  rw [encodeChar, if_pos h, percentEncoded]
  cases hbytes : String.utf8EncodeChar c with
  | nil =>
      have hlen := String.length_utf8EncodeChar c
      rw [hbytes] at hlen
      have hpos := Char.utf8Size_pos c
      simp at hlen
      omega
  | cons byte bytes => simp

theorem encode_eq_of_percent_notMem (h : '%' ∉ encode cs) : encode cs = cs := by
  refine encode_eq_self fun c hc => ?_
  by_contra hencoded
  exact h (percent_mem_encode hc (by simpa using hencoded))

theorem mem_segments : ∀ s ∈ segments read cs, ∀ c ∈ s, c ∈ read ∨ c ∈ cs := by
  induction cs generalizing read with
  | nil =>
      intro s hs c hc
      exact .inl (List.mem_singleton.mp hs ▸ hc)
  | cons d cs ih =>
      intro s hs c hc
      rw [segments] at hs
      split at hs
      · rcases List.mem_cons.mp hs with rfl | hs
        · exact .inl hc
        · rcases ih s hs c hc with h | h
          · cases h
          · exact .inr (List.mem_cons_of_mem _ h)
      · split at hs
        · exact .inl (List.mem_singleton.mp hs ▸ hc)
        · rcases ih s hs c hc with h | h
          · rcases List.mem_append.mp h with h | h
            · exact .inl h
            · exact .inr (List.mem_singleton.mp h ▸ List.mem_cons_self)
          · exact .inr (List.mem_cons_of_mem _ h)

theorem isStop_segments (hread : ∀ c ∈ read, isStop c = false) :
    ∀ s ∈ segments read cs, ∀ c ∈ s, isStop c = false := by
  induction cs generalizing read with
  | nil => simpa [segments] using hread
  | cons d cs ih =>
      rw [segments]
      split
      · exact List.forall_mem_cons.mpr ⟨hread, ih fun c hc => absurd hc List.not_mem_nil⟩
      · split
        · simpa using hread
        · rename_i hd
          refine ih fun c hc => ?_
          rcases List.mem_append.mp hc with h | h
          · exact hread c h
          · rw [List.mem_singleton.mp h]
            simpa using hd

/-- Two segments have a slash between them. -/
theorem exists_of_segments {s t : Segment} {ts : List Segment}
    (h : segments read cs = s :: t :: ts) : ∃ rest, read ++ cs = s ++ '/' :: rest := by
  induction cs generalizing read with
  | nil => cases h
  | cons c cs ih =>
      rw [segments] at h
      split at h
      · rename_i hc
        exact ⟨cs, by rw [hc, (List.cons_eq_cons.mp h).1]⟩
      · split at h
        · cases h
        · obtain ⟨rest, hrest⟩ := ih h
          exact ⟨rest, by simpa using hrest⟩

end Flowgen.Lib.UrlPath
