/-
# `Flowgen.Lib.Utf8` — reading UTF-8, strictly and with replacement

A byte string is read as characters and spoilt pieces.  A spoilt piece is the
longest beginning of a character that is not continued, or a single byte that
begins none.  Strict reading fails on the first of them; reading with
replacement puts U+FFFD in its place.  Where there is none the two agree
(`lossy_of_strict`).  What is written as UTF-8 is read as it was written
(`fromUtf8_of_text`).
-/
import Mathlib

namespace Flowgen.Lib.Utf8

/-- A character that is not complete: how many bytes are to come, where the next
one lies, and the bits so far. -/
structure Partial where
  need : Nat
  low : Nat
  high : Nat
  bits : Nat

/-- What a byte adds, and the character it leaves incomplete. -/
abbrev Step := List (Option Char) × Option Partial

/-- A byte where a character may begin. -/
def lead (b : Nat) : Step :=
  if b < 0x80 then ([some (Char.ofNat b)], none)
  else if 0xc2 ≤ b ∧ b ≤ 0xdf then ([], some ⟨1, 0x80, 0xbf, b % 32⟩)
  else if b = 0xe0 then ([], some ⟨2, 0xa0, 0xbf, 0⟩)
  else if b = 0xed then ([], some ⟨2, 0x80, 0x9f, 13⟩)
  else if 0xe1 ≤ b ∧ b ≤ 0xef then ([], some ⟨2, 0x80, 0xbf, b % 16⟩)
  else if b = 0xf0 then ([], some ⟨3, 0x90, 0xbf, 0⟩)
  else if 0xf1 ≤ b ∧ b ≤ 0xf3 then ([], some ⟨3, 0x80, 0xbf, b % 8⟩)
  else if b = 0xf4 then ([], some ⟨3, 0x80, 0x8f, 4⟩)
  else ([none], none)

/-- A byte after what is incomplete; one that does not continue it begins anew. -/
def step (pending : Option Partial) (b : Nat) : Step :=
  match pending with
  | none => lead b
  | some p =>
      if p.low ≤ b ∧ b ≤ p.high then
        let bits := p.bits * 64 + b % 64
        if p.need ≤ 1 then ([some (Char.ofNat bits)], none)
        else ([], some ⟨p.need - 1, 0x80, 0xbf, bits⟩)
      else (none :: (lead b).1, (lead b).2)

/-- The characters and the spoilt pieces. -/
def chunksFrom (pending : Option Partial) : List UInt8 → List (Option Char)
  | [] => pending.elim [] fun _ => [none]
  | b :: bs => (step pending b.toNat).1 ++ chunksFrom (step pending b.toNat).2 bs

def chunks (bytes : List UInt8) : List (Option Char) := chunksFrom none bytes

/-- The characters, if there is nothing else. -/
def whole : List (Option Char) → Option (List Char)
  | [] => some []
  | none :: _ => none
  | some c :: cs => (whole cs).map (c :: ·)

/-- `String::from_utf8`. -/
def fromUtf8 (bytes : List UInt8) : Option String := (whole (chunks bytes)).map String.ofList

/-- `String::from_utf8_lossy`. -/
def fromUtf8Lossy (bytes : List UInt8) : String :=
  String.ofList ((chunks bytes).map (·.getD (Char.ofNat 0xfffd)))

theorem map_getD_of_whole {l : List (Option Char)} {cs : List Char} (h : whole l = some cs)
    (c : Char) : l.map (·.getD c) = cs := by
  induction l generalizing cs with
  | nil =>
      cases h
      rfl
  | cons x l ih =>
      cases x with
      | none => cases h
      | some x =>
          obtain ⟨cs', hcs, rfl⟩ := Option.map_eq_some_iff.mp h
          rw [List.map_cons, ih hcs]
          rfl

theorem lossy_of_strict {bytes : List UInt8} {text : String} (h : fromUtf8 bytes = some text) :
    fromUtf8Lossy bytes = text := by
  obtain ⟨cs, hcs, rfl⟩ := Option.map_eq_some_iff.mp h
  rw [fromUtf8Lossy, map_getD_of_whole hcs]

/-- An `é`, a `€` cut off, and an `a`. -/
example : chunks [0xc3, 0xa9, 0xe2, 0x82, 0x61] = [some 'é', none, some 'a'] := by decide

/-- The bytes of a text. -/
def asBytes (text : String) : List UInt8 := text.toByteArray.data.toList

theorem chunks_ascii {cs : List Char} (h : ∀ c ∈ cs, c.toNat < 0x80) :
    chunks (cs.flatMap String.utf8EncodeChar) = cs.map some := by
  induction cs with
  | nil => rfl
  | cons c cs ih =>
      obtain ⟨hc, hcs⟩ := List.forall_mem_cons.mp h
      have hsize : c.utf8Size = 1 := by
        rw [Char.utf8Size_eq_one_iff]
        exact UInt32.le_iff_toNat_le.mpr (Nat.le_of_lt_succ hc)
      have hbyte : c.val.toUInt8.toNat = c.toNat := by
        rw [UInt32.toNat_toUInt8]
        exact Nat.mod_eq_of_lt (Nat.lt_trans hc (by decide))
      have hstep : step none c.val.toUInt8.toNat = ([some c], none) := by
        rw [hbyte, step, lead, if_pos hc, Char.ofNat_toNat]
      rw [List.flatMap_cons, String.utf8EncodeChar_eq_singleton hsize, List.singleton_append,
        chunks, chunksFrom, hstep]
      exact congrArg (some c :: ·) (ih hcs)

theorem whole_some (cs : List Char) : whole (cs.map some) = some cs := by
  induction cs with
  | nil => rfl
  | cons c cs ih => rw [List.map_cons, whole, ih, Option.map_some]

/-- A text in ASCII is read as it was written. -/
theorem fromUtf8_asBytes {cs : List Char} (h : ∀ c ∈ cs, c.toNat < 0x80) :
    fromUtf8 (asBytes (String.ofList cs)) = some (String.ofList cs) := by
  have hbytes : asBytes (String.ofList cs) = cs.flatMap String.utf8EncodeChar := by
    rw [asBytes, String.toByteArray_ofList, List.utf8Encode, List.data_toByteArray]
  rw [hbytes, fromUtf8, chunks_ascii h, whole_some, Option.map_some]

/-! ## Any text -/

variable {pending : Option Partial} {p : Partial} {rest : List UInt8} {b v : Nat}

theorem toNat_ofNat_lt (h : b < 256) : (UInt8.ofNat b).toNat = b := by
  rw [UInt8.toNat_ofNat']
  exact Nat.mod_eq_of_lt h

/-- A byte that continues a character and does not complete it. -/
theorem step_more (hlow : p.low ≤ b) (hhigh : b ≤ p.high) (hneed : 1 < p.need) :
    step (some p) b = ([], some ⟨p.need - 1, 0x80, 0xbf, p.bits * 64 + b % 64⟩) := by
  dsimp only [step]
  rw [if_pos ⟨hlow, hhigh⟩, if_neg (Nat.not_le.mpr hneed)]

/-- A byte that completes a character. -/
theorem step_last (hlow : p.low ≤ b) (hhigh : b ≤ p.high) (hneed : p.need ≤ 1) :
    step (some p) b = ([some (Char.ofNat (p.bits * 64 + b % 64))], none) := by
  dsimp only [step]
  rw [if_pos ⟨hlow, hhigh⟩, if_pos hneed]

/-- The first byte of a character of two bytes. -/
theorem lead_two (h : 0x80 ≤ v) (h' : v ≤ 0x7ff) :
    lead (v / 64 % 32 + 192) = ([], some ⟨1, 0x80, 0xbf, v / 64⟩) := by
  have hbits : (v / 64 % 32 + 192) % 32 = v / 64 := by omega
  rw [lead, if_neg (by omega), if_pos (by omega), hbits]

/-- The first byte of a character of three bytes: what may follow keeps out the long forms and
the surrogates. -/
theorem lead_three (h : 0x800 ≤ v) (h' : v ≤ 0xffff) (hsurrogate : v < 0xd800 ∨ 0xdfff < v) :
    ∃ low high, lead (v / 4096 % 16 + 224) = ([], some ⟨2, low, high, v / 4096⟩) ∧
      low ≤ v / 64 % 64 + 128 ∧ v / 64 % 64 + 128 ≤ high := by
  have hbits : (v / 4096 % 16 + 224) % 16 = v / 4096 := by omega
  rw [lead, if_neg (by omega), if_neg (by omega)]
  by_cases hfirst : v / 4096 % 16 + 224 = 0xe0
  · rw [if_pos hfirst]
    refine ⟨0xa0, 0xbf, ?_, by omega, by omega⟩
    rw [show v / 4096 = 0 by omega]
  · rw [if_neg hfirst]
    by_cases hlast : v / 4096 % 16 + 224 = 0xed
    · rw [if_pos hlast]
      refine ⟨0x80, 0x9f, ?_, by omega, by omega⟩
      rw [show v / 4096 = 13 by omega]
    · rw [if_neg hlast, if_pos (by omega), hbits]
      exact ⟨0x80, 0xbf, rfl, by omega, by omega⟩

/-- The first byte of a character of four bytes. -/
theorem lead_four (h : 0x10000 ≤ v) (h' : v < 0x110000) :
    ∃ low high, lead (v / 262144 % 8 + 240) = ([], some ⟨3, low, high, v / 262144⟩) ∧
      low ≤ v / 4096 % 64 + 128 ∧ v / 4096 % 64 + 128 ≤ high := by
  have hbits : (v / 262144 % 8 + 240) % 8 = v / 262144 := by omega
  rw [lead, if_neg (by omega), if_neg (by omega), if_neg (by omega), if_neg (by omega),
    if_neg (by omega)]
  by_cases hfirst : v / 262144 % 8 + 240 = 0xf0
  · rw [if_pos hfirst]
    refine ⟨0x90, 0xbf, ?_, by omega, by omega⟩
    rw [show v / 262144 = 0 by omega]
  · rw [if_neg hfirst]
    by_cases hlast : v / 262144 % 8 + 240 = 0xf4
    · rw [if_neg (by omega), if_pos hlast]
      refine ⟨0x80, 0x8f, ?_, by omega, by omega⟩
      rw [show v / 262144 = 4 by omega]
    · rw [if_pos (by omega), hbits]
      exact ⟨0x80, 0xbf, rfl, by omega, by omega⟩

/-- A character is read from its own bytes, whatever follows them. -/
theorem chunksFrom_encode (c : Char) (rest : List UInt8) :
    chunksFrom none (String.utf8EncodeChar c ++ rest) = some c :: chunksFrom none rest := by
  have hvalid : c.toNat < 0xd800 ∨ 0xdfff < c.toNat ∧ c.toNat < 0x110000 := c.valid
  have hchar : Char.ofNat c.toNat = c := Char.ofNat_toNat c
  have hcode : c.val.toNat = c.toNat := rfl
  rw [String.utf8EncodeChar]
  simp only [hcode]
  generalize c.toNat = v at hvalid hchar
  split
  · rename_i hone
    rw [List.singleton_append, chunksFrom, toNat_ofNat_lt (by omega)]
    dsimp only [step]
    rw [lead, if_pos (by omega), hchar]
    rfl
  · rename_i hone
    split
    · rename_i htwo
      have hlead := lead_two (v := v) (by omega) htwo
      simp only [List.cons_append, List.nil_append, chunksFrom]
      rw [toNat_ofNat_lt (b := v / 64 % 32 + 192) (by omega), toNat_ofNat_lt (by omega)]
      have hbits : v / 64 * 64 + (v % 64 + 128) % 64 = v := by omega
      rw [show step none (v / 64 % 32 + 192) = _ from hlead]
      dsimp only
      rw [step_last (by dsimp only; omega) (by dsimp only; omega) le_rfl, hbits, hchar]
      rfl
    · rename_i htwo
      split
      · rename_i hthree
        obtain ⟨low, high, hlead, hlow, hhigh⟩ :=
          lead_three (v := v) (by omega) hthree (by omega)
        simp only [List.cons_append, List.nil_append, chunksFrom]
        rw [toNat_ofNat_lt (b := v / 4096 % 16 + 224) (by omega),
          toNat_ofNat_lt (b := v / 64 % 64 + 128) (by omega), toNat_ofNat_lt (by omega)]
        have hbits : (v / 4096 * 64 + (v / 64 % 64 + 128) % 64) * 64 + (v % 64 + 128) % 64 = v := by
          omega
        rw [show step none (v / 4096 % 16 + 224) = _ from hlead]
        dsimp only
        rw [step_more hlow hhigh Nat.one_lt_two]
        dsimp only
        rw [step_last (by dsimp only; omega) (by dsimp only; omega) le_rfl, hbits, hchar]
        rfl
      · rename_i hthree
        obtain ⟨low, high, hlead, hlow, hhigh⟩ := lead_four (v := v) (by omega) (by omega)
        simp only [List.cons_append, List.nil_append, chunksFrom]
        rw [toNat_ofNat_lt (b := v / 262144 % 8 + 240) (by omega),
          toNat_ofNat_lt (b := v / 4096 % 64 + 128) (by omega),
          toNat_ofNat_lt (b := v / 64 % 64 + 128) (by omega), toNat_ofNat_lt (by omega)]
        have hbits : ((v / 262144 * 64 + (v / 4096 % 64 + 128) % 64) * 64 +
            (v / 64 % 64 + 128) % 64) * 64 + (v % 64 + 128) % 64 = v := by omega
        rw [show step none (v / 262144 % 8 + 240) = _ from hlead]
        dsimp only
        rw [step_more hlow hhigh (by dsimp only; omega)]
        dsimp only
        rw [step_more (by dsimp only; omega) (by dsimp only; omega) (by dsimp only; omega)]
        dsimp only
        rw [step_last (by dsimp only; omega) (by dsimp only; omega) le_rfl, hbits, hchar]
        rfl

theorem chunks_encode (cs : List Char) :
    chunks (cs.flatMap String.utf8EncodeChar) = cs.map some := by
  induction cs with
  | nil => rfl
  | cons c cs ih =>
      rw [List.flatMap_cons, chunks, chunksFrom_encode]
      exact congrArg (some c :: ·) ih

/-- **A text is read as it was written.** -/
theorem fromUtf8_of_text (text : String) : fromUtf8 (asBytes text) = some text := by
  have hbytes : asBytes text = text.toList.flatMap String.utf8EncodeChar := by
    conv_lhs => rw [← String.ofList_toList (s := text)]
    rw [asBytes, String.toByteArray_ofList, List.utf8Encode, List.data_toByteArray]
  rw [hbytes, fromUtf8, chunks_encode, whole_some, Option.map_some, String.ofList_toList]

end Flowgen.Lib.Utf8
