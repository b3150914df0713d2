/-
# `Flowgen.Lib.Protobuf` — the wire format of protobuf messages

A message is a sequence of values, each with the number of its field and the kind of its
encoding.  What is encoded is read back, in order (`decodeWire_encode`).
-/
import Mathlib

namespace Flowgen.Lib.Protobuf

inductive WireValue
  | varint (value : ℕ)
  | fixed64 (bits : UInt64)
  | delimited (bytes : List UInt8)
deriving DecidableEq

/-! ## Encoding -/

/-- Seven bits to a byte, the low ones first; `fuel` bounds the bytes that follow. -/
def varintFrom : ℕ → ℕ → List UInt8
  | 0, n => [UInt8.ofNat n]
  | fuel + 1, n =>
      if n < 128 then [UInt8.ofNat n]
      else UInt8.ofNat (n % 128 + 128) :: varintFrom fuel (n / 128)

attribute [grind =] varintFrom

def encodeVarint (n : ℕ) : List UInt8 := varintFrom n n

def littleEndian : ℕ → ℕ → List UInt8
  | 0, _ => []
  | k + 1, n => UInt8.ofNat (n % 256) :: littleEndian k (n / 256)

def encodeKey (tag wireType : ℕ) : List UInt8 := encodeVarint (8 * tag + wireType)

def encodeWire : ℕ × WireValue → List UInt8
  | (tag, .varint value) => encodeKey tag 0 ++ encodeVarint value
  | (tag, .fixed64 bits) => encodeKey tag 1 ++ littleEndian 8 bits.toNat
  | (tag, .delimited bytes) => encodeKey tag 2 ++ (encodeVarint bytes.length ++ bytes)

/-! ## Decoding -/

def decodeVarint : List UInt8 → Option (ℕ × List UInt8)
  | [] => none
  | byte :: rest =>
      if byte.toNat < 128 then some (byte.toNat, rest)
      else (decodeVarint rest).map fun p => (byte.toNat - 128 + 128 * p.1, p.2)

def readLittleEndian : List UInt8 → ℕ
  | [] => 0
  | byte :: rest => byte.toNat + 256 * readLittleEndian rest

def decodeOne (bytes : List UInt8) : Option ((ℕ × WireValue) × List UInt8) := do
  let (key, rest) ← decodeVarint bytes
  match key % 8 with
  | 0 =>
      let (value, rest) ← decodeVarint rest
      return ((key / 8, .varint value), rest)
  | 1 =>
      if 8 ≤ rest.length then
        return ((key / 8, .fixed64 (UInt64.ofNat (readLittleEndian (rest.take 8)))), rest.drop 8)
      else none
  | 2 =>
      let (length, rest) ← decodeVarint rest
      if length ≤ rest.length then
        return ((key / 8, .delimited (rest.take length)), rest.drop length)
      else none
  | _ => none

def decodeMany : ℕ → List UInt8 → Option (List (ℕ × WireValue))
  | _, [] => some []
  | 0, _ :: _ => none
  | fuel + 1, byte :: bytes => do
      let (value, rest) ← decodeOne (byte :: bytes)
      let values ← decodeMany fuel rest
      return value :: values

/-- A value takes a byte at least. -/
def decodeWire (bytes : List UInt8) : Option (List (ℕ × WireValue)) :=
  decodeMany bytes.length bytes

/-! ## What is read back -/

theorem decodeVarint_from (rest : List UInt8) : ∀ (fuel n : ℕ), n < 128 ^ (fuel + 1) →
    decodeVarint (varintFrom fuel n ++ rest) = some (n, rest) := by
  have hone : ∀ n < 128, decodeVarint ([UInt8.ofNat n] ++ rest) = some (n, rest) := by
    intro n hn
    have htoNat : (UInt8.ofNat n).toNat = n := by
      rw [UInt8.toNat_ofNat']
      omega
    rw [List.singleton_append, decodeVarint, htoNat, if_pos hn]
  intro fuel
  induction fuel with
  | zero =>
      intro n hn
      exact hone n (by omega)
  | succ fuel ih =>
      intro n hn
      rw [varintFrom]
      split
      · rename_i hsmall
        exact hone n hsmall
      · have htoNat : (UInt8.ofNat (n % 128 + 128)).toNat = n % 128 + 128 := by
          rw [UInt8.toNat_ofNat']
          omega
        have hquotient : n / 128 < 128 ^ (fuel + 1) := by
          rw [Nat.div_lt_iff_lt_mul (by norm_num), ← pow_succ]
          exact hn
        rw [List.cons_append, decodeVarint, htoNat, if_neg (by omega), ih _ hquotient,
          Option.map_some]
        have hsum : n % 128 + 128 - 128 + 128 * (n / 128) = n := by omega
        rw [hsum]

theorem decodeVarint_encode (n : ℕ) (rest : List UInt8) :
    decodeVarint (encodeVarint n ++ rest) = some (n, rest) := by
  refine decodeVarint_from rest n n ?_
  calc n < 128 ^ n := Nat.lt_pow_self (by norm_num)
    _ ≤ 128 ^ (n + 1) := Nat.pow_le_pow_right (by norm_num) (Nat.le_succ n)

theorem length_littleEndian : ∀ k n, (littleEndian k n).length = k
  | 0, _ => rfl
  | k + 1, n => congrArg Nat.succ (length_littleEndian k (n / 256))

theorem read_littleEndian : ∀ k n, n < 256 ^ k → readLittleEndian (littleEndian k n) = n := by
  intro k
  induction k with
  | zero =>
      intro n hn
      rw [pow_zero] at hn
      rw [littleEndian, readLittleEndian]
      omega
  | succ k ih =>
      intro n hn
      have hquotient : n / 256 < 256 ^ k := by
        rw [Nat.div_lt_iff_lt_mul (by norm_num), ← pow_succ]
        exact hn
      rw [littleEndian, readLittleEndian, ih _ hquotient, UInt8.toNat_ofNat']
      omega

theorem decodeOne_encode (value : ℕ × WireValue) (rest : List UInt8) :
    decodeOne (encodeWire value ++ rest) = some (value, rest) := by
  obtain ⟨tag, value⟩ := value
  have hkey : ∀ wireType < 8, ∀ rest, decodeVarint (encodeKey tag wireType ++ rest) =
      some (8 * tag + wireType, rest) := fun wireType _ rest => decodeVarint_encode _ rest
  cases value with
  | varint value =>
      have hkind : (8 * tag + 0) % 8 = 0 := by omega
      have htag : (8 * tag + 0) / 8 = tag := by omega
      rw [encodeWire, List.append_assoc, decodeOne, hkey 0 (by norm_num)]
      simp only [Option.bind_eq_bind, Option.bind_some, hkind, htag, decodeVarint_encode]
      rfl
  | fixed64 bits =>
      have hkind : (8 * tag + 1) % 8 = 1 := by omega
      have htag : (8 * tag + 1) / 8 = tag := by omega
      have hlength := length_littleEndian 8 bits.toNat
      have hbits : UInt64.ofNat (readLittleEndian (littleEndian 8 bits.toNat)) = bits := by
        rw [read_littleEndian 8 _ bits.toNat_lt, UInt64.ofNat_toNat]
      rw [encodeWire, List.append_assoc, decodeOne, hkey 1 (by norm_num)]
      simp only [Option.bind_eq_bind, Option.bind_some, hkind, htag]
      rw [if_pos (by rw [List.length_append, hlength]; omega), List.take_left' hlength,
        List.drop_left' hlength, hbits]
      rfl
  | delimited bytes =>
      have hkind : (8 * tag + 2) % 8 = 2 := by omega
      have htag : (8 * tag + 2) / 8 = tag := by omega
      rw [encodeWire, List.append_assoc, decodeOne, hkey 2 (by norm_num)]
      simp only [Option.bind_eq_bind, Option.bind_some, hkind, htag, List.append_assoc,
        decodeVarint_encode]
      rw [if_pos (by rw [List.length_append]; omega), List.take_left, List.drop_left]
      rfl

theorem varintFrom_ne_nil : ∀ fuel n, varintFrom fuel n ≠ []
  | 0, _ => List.cons_ne_nil _ _
  | fuel + 1, n => by
      rw [varintFrom]
      split
      · exact List.cons_ne_nil _ _
      · exact List.cons_ne_nil _ _

theorem encodeWire_ne_nil (value : ℕ × WireValue) : encodeWire value ≠ [] := by
  obtain ⟨tag, value⟩ := value
  cases value
  all_goals
    intro h
    exact varintFrom_ne_nil _ _ (List.append_eq_nil_iff.mp h).1

theorem decodeMany_encode (values : List (ℕ × WireValue)) : ∀ fuel, values.length ≤ fuel →
    decodeMany fuel (values.flatMap encodeWire) = some values := by
  induction values with
  | nil =>
      intro fuel _
      rw [List.flatMap_nil, decodeMany]
  | cons value values ih =>
      intro fuel hfuel
      obtain ⟨fuel, rfl⟩ : ∃ fuel', fuel = fuel' + 1 := ⟨fuel - 1, by
        rw [List.length_cons] at hfuel
        omega⟩
      have hone := decodeOne_encode value (values.flatMap encodeWire)
      rw [List.flatMap_cons]
      cases hbytes : encodeWire value ++ values.flatMap encodeWire with
      | nil => exact absurd (List.append_eq_nil_iff.mp hbytes).1 (encodeWire_ne_nil value)
      | cons byte bytes =>
          rw [hbytes] at hone
          rw [decodeMany, hone]
          simp only [Option.bind_eq_bind, Option.bind_some]
          rw [ih fuel (Nat.le_of_succ_le_succ hfuel)]
          rfl

/-- A message is read back value by value. -/
theorem decodeWire_encode (values : List (ℕ × WireValue)) :
    decodeWire (values.flatMap encodeWire) = some values := by
  refine decodeMany_encode values _ ?_
  induction values with
  | nil => exact Nat.le_refl 0
  | cons value values ih =>
      have hpos := List.length_pos_of_ne_nil (encodeWire_ne_nil value)
      rw [List.flatMap_cons, List.length_append, List.length_cons]
      omega

end Flowgen.Lib.Protobuf
