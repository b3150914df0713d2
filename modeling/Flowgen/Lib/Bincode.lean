/-
# `Flowgen.Lib.Bincode` — numbers and lengths in front (`bincode::serialize`)

A number is its eight bytes, the lowest first.  Bytes and texts have their length in
front; what a reader does not read is left to it.  What is written is read again
(`decodeBytes_encodeBytes`, `decodeString_encodeString`).

Something that is shorter than `2 ^ 56` bytes begins with a length whose last byte is
zero.  So eight bytes without a zero are a length that nothing of that size has
(`decodeBytes_of_dense`), and a text that is read there is none.
-/
import Flowgen.Lib.Utf8

namespace Flowgen.Lib.Bincode

/-- The lowest bytes of a number. -/
def leBytes : Nat → Nat → List UInt8
  | 0, _ => []
  | w + 1, n => UInt8.ofNat (n % 256) :: leBytes w (n / 256)

attribute [grind =] leBytes

def leValue : List UInt8 → Nat
  | [] => 0
  | b :: bs => b.toNat + 256 * leValue bs

/-- A `u64`. -/
def encodeU64 (n : Nat) : List UInt8 := leBytes 8 n

def decodeU64 (bytes : List UInt8) : Option (Nat × List UInt8) :=
  if 8 ≤ bytes.length then some (leValue (bytes.take 8), bytes.drop 8) else none

/-- A `Vec<u8>`. -/
def encodeBytes (bytes : List UInt8) : List UInt8 := encodeU64 bytes.length ++ bytes

def decodeBytes (bytes : List UInt8) : Option (List UInt8 × List UInt8) :=
  match decodeU64 bytes with
  | none => none
  | some (length, rest) =>
      if length ≤ rest.length then some (rest.take length, rest.drop length) else none

/-- A `String`. -/
def encodeString (text : String) : List UInt8 := encodeBytes (Utf8.asBytes text)

def decodeString (bytes : List UInt8) : Option (String × List UInt8) :=
  match decodeBytes bytes with
  | none => none
  | some (raw, rest) => (Utf8.fromUtf8 raw).map fun text => (text, rest)

variable {w n : Nat} {bytes raw rest : List UInt8}

theorem length_leBytes : (leBytes w n).length = w := by
  induction w generalizing n with
  | zero => rfl
  | succ w ih => rw [leBytes, List.length_cons, ih]

/-- What is written is read again. -/
theorem leValue_leBytes (h : n < 256 ^ w) : leValue (leBytes w n) = n := by
  induction w generalizing n with
  | zero =>
      rw [pow_zero, Nat.lt_one_iff] at h
      rw [h]
      rfl
  | succ w ih =>
      have hrest : n / 256 < 256 ^ w := by
        rw [pow_succ] at h
        exact Nat.div_lt_of_lt_mul (Nat.mul_comm _ _ ▸ h)
      have hbyte : (UInt8.ofNat (n % 256)).toNat = n % 256 :=
        Utf8.toNat_ofNat_lt (Nat.mod_lt n (by decide))
      rw [leBytes, leValue, ih hrest, hbyte, Nat.mod_add_div]

/-- A number that has room has a byte that is zero. -/
theorem zero_mem_leBytes (h : n < 256 ^ w) : 0 ∈ leBytes (w + 1) n := by
  induction w generalizing n with
  | zero =>
      rw [pow_zero, Nat.lt_one_iff] at h
      rw [h]
      exact List.mem_cons_self
  | succ w ih =>
      have hrest : n / 256 < 256 ^ w := by
        rw [pow_succ] at h
        exact Nat.div_lt_of_lt_mul (Nat.mul_comm _ _ ▸ h)
      rw [leBytes]
      exact List.mem_cons_of_mem _ (ih hrest)

/-- Bytes that are not zero are a large number. -/
theorem le_leValue (h : 0 ∉ bytes) (hne : bytes ≠ []) : 256 ^ (bytes.length - 1) ≤ leValue bytes := by
  induction bytes with
  | nil => exact absurd rfl hne
  | cons b bytes ih =>
      obtain ⟨hb, hrest⟩ := not_or.mp (List.mem_cons.not.mp h)
      rw [leValue, List.length_cons, Nat.add_sub_cancel]
      cases bytes with
      | nil =>
          have hpos : b.toNat ≠ 0 := fun hzero => hb (UInt8.toNat_inj.mp hzero.symm)
          rw [List.length_nil, pow_zero]
          omega
      | cons b' bytes =>
          have hle := ih hrest (List.cons_ne_nil _ _)
          rw [List.length_cons, Nat.add_sub_cancel] at hle
          calc 256 ^ (b' :: bytes).length = 256 * 256 ^ bytes.length := by
                rw [List.length_cons, pow_succ, Nat.mul_comm]
            _ ≤ 256 * leValue (b' :: bytes) := Nat.mul_le_mul_left _ hle
            _ ≤ b.toNat + 256 * leValue (b' :: bytes) := Nat.le_add_left _ _

theorem decodeU64_encodeU64 (h : n < 2 ^ 64) : decodeU64 (encodeU64 n ++ rest) = some (n, rest) := by
  have hlength : (encodeU64 n).length = 8 := length_leBytes
  have hn : n < 256 ^ 8 := h
  have htake : (encodeU64 n ++ rest).take 8 = encodeU64 n := List.take_left' hlength
  have hdrop : (encodeU64 n ++ rest).drop 8 = rest := List.drop_left' hlength
  rw [decodeU64, if_pos (by rw [List.length_append]; omega), htake, hdrop, encodeU64,
    leValue_leBytes hn]

theorem decodeBytes_encodeBytes (h : raw.length < 2 ^ 64) :
    decodeBytes (encodeBytes raw ++ rest) = some (raw, rest) := by
  rw [decodeBytes, encodeBytes, List.append_assoc, decodeU64_encodeU64 h]
  show (if raw.length ≤ (raw ++ rest).length then _ else none) = _
  rw [if_pos (by rw [List.length_append]; omega), List.take_left' rfl, List.drop_left' rfl]

theorem decodeString_encodeString {text : String} (h : (Utf8.asBytes text).length < 2 ^ 64) :
    decodeString (encodeString text ++ rest) = some (text, rest) := by
  rw [decodeString, encodeString, decodeBytes_encodeBytes h]
  show (Utf8.fromUtf8 (Utf8.asBytes text)).map _ = _
  rw [Utf8.fromUtf8_of_text]
  rfl

/-- What has no zero is no length and what has it. -/
theorem decodeBytes_of_dense (h : 0 ∉ bytes) (hsize : bytes.length < 2 ^ 56) :
    decodeBytes bytes = none := by
  by_cases height : 8 ≤ bytes.length
  · have hdense : 0 ∉ bytes.take 8 := fun hmem => h (List.mem_of_mem_take hmem)
    have htake : (bytes.take 8).length = 8 := by
      rw [List.length_take]
      omega
    have hlarge := le_leValue hdense (List.ne_nil_of_length_pos (by omega))
    rw [htake] at hlarge
    rw [decodeBytes, decodeU64, if_pos height]
    show (if leValue (bytes.take 8) ≤ (bytes.drop 8).length then _ else none) = _
    rw [if_neg]
    rw [List.length_drop]
    omega
  · rw [decodeBytes, decodeU64, if_neg height]

/-- The length of something small has a zero in it. -/
theorem zero_mem_encodeBytes (h : raw.length < 2 ^ 56) : 0 ∈ encodeBytes raw :=
  List.mem_append_left _ (@zero_mem_leBytes 7 _ h)

end Flowgen.Lib.Bincode
