/-
# `Flowgen.Lib.Base64` — base64 without padding

Three bytes become four digits of six bits; one or two bytes at the end become
two or three digits.  The number of digits tells how the last group ended, so
that nothing has to be padded and the digits can be read back
(`octets_sextets`).  The alphabet is a parameter; all that is asked of it is
that its letters differ.
-/
import Mathlib

namespace Flowgen.Lib.Base64

/-- The digit with the value `n`, of which the lowest six bits count. -/
def sextet (n : Nat) : Fin 64 := Fin.ofNat 64 n

/-- The digits of a sequence of bytes. -/
def sextets : List UInt8 → List (Fin 64)
  | [] => []
  | [a] => [sextet (a.toNat / 4), sextet (a.toNat * 16)]
  | [a, b] => [sextet (a.toNat / 4), sextet (a.toNat * 16 + b.toNat / 16), sextet (b.toNat * 4)]
  | a :: b :: c :: rest =>
      sextet (a.toNat / 4) :: sextet (a.toNat * 16 + b.toNat / 16) ::
        sextet (b.toNat * 4 + c.toNat / 64) :: sextet c.toNat :: sextets rest

def octet (n : Nat) : UInt8 := UInt8.ofNat n

/-- The bytes that digits stand for; what is left of the last digit is dropped. -/
def octets : List (Fin 64) → List UInt8
  | w :: x :: y :: z :: rest =>
      octet (w.val * 4 + x.val / 16) :: octet (x.val * 16 + y.val / 4) ::
        octet (y.val * 64 + z.val) :: octets rest
  | [w, x, y] => [octet (w.val * 4 + x.val / 16), octet (x.val * 16 + y.val / 4)]
  | [w, x] => [octet (w.val * 4 + x.val / 16)]
  | [_] => []
  | [] => []

@[simp] theorem val_sextet (n : Nat) : (sextet n).val = n % 64 := rfl

theorem octet_eq {n : Nat} {a : UInt8} (h : n % 256 = a.toNat) : octet n = a := by
  apply UInt8.toNat_inj.mp
  rw [← h]
  exact UInt8.toNat_ofNat'

theorem octet_first (a : UInt8) {n : Nat} (hn : n < 16) :
    octet ((sextet (a.toNat / 4)).val * 4 + (sextet (a.toNat * 16 + n)).val / 16) = a := by
  have ha := a.toNat_lt
  refine octet_eq ?_
  simp only [val_sextet]
  omega

theorem octet_second (b : UInt8) (k : Nat) {n : Nat} (hn : n < 4) :
    octet ((sextet (k * 16 + b.toNat / 16)).val * 16 + (sextet (b.toNat * 4 + n)).val / 4) = b := by
  have hb := b.toNat_lt
  refine octet_eq ?_
  simp only [val_sextet]
  omega

theorem octet_third (c : UInt8) (k : Nat) :
    octet ((sextet (k * 4 + c.toNat / 64)).val * 64 + (sextet c.toNat).val) = c := by
  have hc := c.toNat_lt
  refine octet_eq ?_
  simp only [val_sextet]
  omega

/-- The digits can be read back. -/
theorem octets_sextets (bytes : List UInt8) : octets (sextets bytes) = bytes := by
  induction bytes using sextets.induct with
  | case1 => rfl
  | case2 a =>
      have ha := octet_first a (n := 0) (by omega)
      rw [Nat.add_zero] at ha
      simp only [sextets, octets, ha]
  | case3 a b =>
      have hb' := b.toNat_lt
      have ha := octet_first a (n := b.toNat / 16) (by omega)
      have hb := octet_second b a.toNat (n := 0) (by omega)
      rw [Nat.add_zero] at hb
      simp only [sextets, octets, ha, hb]
  | case4 a b c rest ih =>
      have hb' := b.toNat_lt
      have hc' := c.toNat_lt
      have ha := octet_first a (n := b.toNat / 16) (by omega)
      have hb := octet_second b a.toNat (n := c.toNat / 64) (by omega)
      have hc := octet_third c b.toNat
      simp only [sextets, octets, ha, hb, hc, ih]

section Alphabet

variable {α : Type*} (letter : Fin 64 → α)

/-- The text of a sequence of bytes in an alphabet. -/
def encode (bytes : List UInt8) : List α := (sextets bytes).map letter

variable {letter}

/-- Different bytes have different texts. -/
theorem encode_injective (hletter : Function.Injective letter) :
    Function.Injective (encode letter) := by
  intro bytes bytes' h
  have hdigits : sextets bytes = sextets bytes' := List.map_injective_iff.mpr hletter h
  rw [← octets_sextets bytes, hdigits, octets_sextets]

/-- A text is written in the alphabet. -/
theorem mem_encode {bytes : List UInt8} {x : α} (h : x ∈ encode letter bytes) :
    ∃ digit, letter digit = x := by
  obtain ⟨digit, -, hx⟩ := List.mem_map.mp h
  exact ⟨digit, hx⟩

end Alphabet

/-- The alphabet for URLs and file names. -/
def urlSafe (digit : Fin 64) : Char :=
  if digit.val < 26 then Char.ofNat (digit.val + 'A'.toNat)
  else if digit.val < 52 then Char.ofNat (digit.val - 26 + 'a'.toNat)
  else if digit.val < 62 then Char.ofNat (digit.val - 52 + '0'.toNat)
  else if digit.val = 62 then '-'
  else '_'

theorem urlSafe_injective : Function.Injective urlSafe := by
  have h : ∀ i j : Fin 64, urlSafe i = urlSafe j → i = j := by decide
  intro i j hij
  exact h i j hij

theorem urlSafe_letters : ∀ digit, (urlSafe digit).isAlphanum ∨ urlSafe digit = '-' ∨
    urlSafe digit = '_' := by
  decide

theorem urlSafe_ascii : ∀ digit, (urlSafe digit).toNat < 0x80 := by
  decide

end Flowgen.Lib.Base64
