/-
# `Flowgen.Lib.PktLine` — the pkt-line format

A packet is its length in four hexadecimal digits, these four bytes included, and its
data.  The lengths 0, 1 and 2 have no data and a meaning of their own.  A decoder
looks at the beginning of a body and says which packet stands there and how many
bytes it takes.

`Reads decode` is all that a reader of packets needs to know of its decoder: it finds
every packet that was written, and a packet takes at least its length bytes.  A body is
`Framed` if it is a sequence of packets for the decoder.
-/
import Mathlib

namespace Flowgen.Lib.PktLine

inductive Packet
  | data (bytes : List UInt8)
  | flush
  | delimiter
  | responseEnd
deriving DecidableEq

/-- What stands at the beginning of a body. -/
inductive Stream
  | complete (line : Packet) (bytesConsumed : Nat)
  | incomplete
  | invalid
deriving DecidableEq

/-! ## Writing -/

def hexDigit (d : Nat) : UInt8 := .ofNat (if d < 10 then d + 48 else d + 87)

def lengthBytes (n : Nat) : List UInt8 :=
  [hexDigit (n / 4096 % 16), hexDigit (n / 256 % 16), hexDigit (n / 16 % 16), hexDigit (n % 16)]

def Packet.encode : Packet → List UInt8
  | .data bytes => lengthBytes (bytes.length + 4) ++ bytes
  | .flush => lengthBytes 0
  | .delimiter => lengthBytes 1
  | .responseEnd => lengthBytes 2

/-- A packet that can be written: its data is not empty and not too long. -/
def Packet.Valid : Packet → Prop
  | .data bytes => bytes ≠ [] ∧ bytes.length ≤ 65516
  | _ => True

/-! ## Reading -/

def digit (b : UInt8) : Option Nat :=
  if 48 ≤ b.toNat ∧ b.toNat ≤ 57 then some (b.toNat - 48)
  else if 97 ≤ b.toNat ∧ b.toNat ≤ 102 then some (b.toNat - 87)
  else if 65 ≤ b.toNat ∧ b.toNat ≤ 70 then some (b.toNat - 55)
  else none

def readLength (a b c d : UInt8) : Option Nat := do
  let a ← digit a
  let b ← digit b
  let c ← digit c
  let d ← digit d
  return a * 4096 + b * 256 + c * 16 + d

/-- The packet of a length, with what follows the length. -/
def packet (rest : List UInt8) : Nat → Stream
  | 0 => .complete .flush 4
  | 1 => .complete .delimiter 4
  | 2 => .complete .responseEnd 4
  | n =>
      if n ≤ 4 ∨ 65520 < n then .invalid
      else if n ≤ rest.length + 4 then .complete (.data (rest.take (n - 4))) n
      else .incomplete

/-- A decoder of the format. -/
def decode (body : List UInt8) : Stream :=
  match body with
  | a :: b :: c :: d :: rest =>
      match readLength a b c d with
      | some n => packet rest n
      | none => .invalid
  | _ => .incomplete

/-- A decoder finds the packets that were written; a packet takes at least its length
bytes, and no more than there are. -/
structure Reads (decode : List UInt8 → Stream) : Prop where
  encoded : ∀ p : Packet, p.Valid → ∀ rest,
    decode (p.encode ++ rest) = .complete p p.encode.length
  four_le : ∀ {body p n}, decode body = .complete p n → 4 ≤ n
  le_length : ∀ {body p n}, decode body = .complete p n → n ≤ body.length

/-- The body is a sequence of packets. -/
inductive Framed (decode : List UInt8 → Stream) : List UInt8 → List Packet → Prop
  | nil : Framed decode [] []
  | cons {body : List UInt8} {p : Packet} {n : Nat} {ps : List Packet} :
      decode body = .complete p n → 4 ≤ n → n ≤ body.length →
      Framed decode (body.drop n) ps → Framed decode body (p :: ps)

theorem Packet.length_encode (p : Packet) : 4 ≤ p.encode.length := by
  cases p <;> simp [Packet.encode, lengthBytes]

/-- Packets that were written one after the other are found one after the other. -/
theorem framed_encode {decode : List UInt8 → Stream} (hd : Reads decode) {ps : List Packet}
    (hps : ∀ p ∈ ps, p.Valid) : Framed decode (ps.flatMap Packet.encode) ps := by
  induction ps with
  | nil => exact .nil
  | cons p ps ih =>
      rw [List.forall_mem_cons] at hps
      rw [List.flatMap_cons]
      refine .cons (hd.encoded p hps.1 _) p.length_encode (by simp) ?_
      rw [List.drop_left]
      exact ih hps.2

/-- A body has one reading. -/
theorem Framed.unique {decode : List UInt8 → Stream} {body : List UInt8} {ps qs : List Packet}
    (h : Framed decode body ps) (h' : Framed decode body qs) : ps = qs := by
  induction h generalizing qs with
  | nil =>
      cases h' with
      | nil => rfl
      | cons _ hfour hle =>
          have hzero : 4 ≤ ([] : List UInt8).length := hfour.trans hle
          cases hzero
  | cons hp hfour hle _ ih =>
      cases h' with
      | nil =>
          have hzero : 4 ≤ ([] : List UInt8).length := hfour.trans hle
          cases hzero
      | cons hp' _ _ hrest' =>
          cases hp.symm.trans hp'
          rw [ih hrest']

/-! ## The decoder reads what is written -/

theorem digit_hexDigit {d : Nat} (h : d < 16) : digit (hexDigit d) = some d := by
  interval_cases d <;> rfl

theorem readLength_lengthBytes {n : Nat} (h : n < 65536) :
    readLength (hexDigit (n / 4096 % 16)) (hexDigit (n / 256 % 16)) (hexDigit (n / 16 % 16))
      (hexDigit (n % 16)) = some n := by
  have hmod : ∀ m : Nat, m % 16 < 16 := fun m => Nat.mod_lt m (by decide)
  rw [readLength, digit_hexDigit (hmod _), digit_hexDigit (hmod _), digit_hexDigit (hmod _),
    digit_hexDigit (hmod _)]
  change some _ = some n
  congr 1
  omega

theorem decode_lengthBytes {n : Nat} (h : n < 65536) (rest : List UInt8) :
    decode (lengthBytes n ++ rest) = packet rest n := by
  rw [lengthBytes, List.cons_append, List.cons_append, List.cons_append, List.cons_append,
    List.nil_append, decode, readLength_lengthBytes h]

theorem decode_encode (p : Packet) (hp : p.Valid) (rest : List UInt8) :
    decode (p.encode ++ rest) = .complete p p.encode.length := by
  cases p with
  | data bytes =>
      obtain ⟨hne, hle⟩ := hp
      have hpos : 0 < bytes.length := List.length_pos_iff.mpr hne
      rw [Packet.encode, List.append_assoc, decode_lengthBytes (by omega), packet,
        if_neg (by omega), if_pos (by simp)]
      · simp [lengthBytes]
      · omega
      · omega
      · omega
  | flush => exact decode_lengthBytes (by decide) rest
  | delimiter => exact decode_lengthBytes (by decide) rest
  | responseEnd => exact decode_lengthBytes (by decide) rest

theorem packet_complete {rest : List UInt8} {p : Packet} {m n : Nat}
    (h : packet rest m = .complete p n) : 4 ≤ n ∧ n ≤ rest.length + 4 := by
  unfold packet at h
  split at h
  · cases h
    omega
  · cases h
    omega
  · cases h
    omega
  · split at h
    · cases h
    · split at h
      · cases h
        omega
      · cases h

theorem decode_complete {body : List UInt8} {p : Packet} {n : Nat}
    (h : decode body = .complete p n) : 4 ≤ n ∧ n ≤ body.length := by
  unfold decode at h
  split at h
  · split at h
    · exact packet_complete h
    · cases h
  · cases h

theorem reads_decode : Reads decode where
  encoded := decode_encode
  four_le h := (decode_complete h).1
  le_length h := (decode_complete h).2

end Flowgen.Lib.PktLine
