/-
# `Flowgen.Cache.Nats` — the cache over a JetStream bucket (`nats/src/cache.rs`)

A key-value bucket is one stream.  Each message has the next sequence number of
the stream, and the revision of a key is the sequence of its last message; a
deletion is a message too, so that a deleted key keeps a revision.  A publish
may expect the last sequence of its key, zero where there is no message, and is
refused where it is another one.

The bucket takes every key and value; a lost connection, the retention and the
times to live are left out.
-/
import Flowgen.Cache.Basic

namespace Flowgen.Cache

abbrev Bytes := List UInt8

/-- The `KV-Operation` of a message. -/
inductive Operation
  | put
  | delete
deriving DecidableEq

structure Message where
  sequence : Nat
  key : String
  operation : Operation
  value : Bytes
deriving DecidableEq

/-- The stream of a bucket, newest first. -/
structure Bucket where
  stream : List Message

namespace Bucket

def new : Bucket := ⟨[]⟩

def lastSequence (b : Bucket) : Nat := b.stream.length

/-- The last message of a key. -/
def entry (b : Bucket) (key : String) : Option Message :=
  b.stream.find? fun m => m.key = key

/-- The last sequence of a key, as a publish is checked against it. -/
def sequenceOf (b : Bucket) (key : String) : Nat := (b.entry key).elim 0 Message.sequence

/-- Appends a message, unless another last sequence of its key is expected. -/
def publish (b : Bucket) (key : String) (operation : Operation) (value : Bytes)
    (expected : Option Nat) : Option Nat × Bucket :=
  if expected.all (· == b.sequenceOf key) then
    (some (b.lastSequence + 1), ⟨⟨b.lastSequence + 1, key, operation, value⟩ :: b.stream⟩)
  else (none, b)

/-- `Store::keys`: the keys whose last message is a value, in the stream's order. -/
def storeKeys (b : Bucket) : List String :=
  (b.stream.reverse.filter fun m => b.entry m.key = some m ∧ m.operation = .put).map Message.key

/-! ## The operations -/

def put (b : Bucket) (key : String) (value : Bytes) : Bucket :=
  (b.publish key .put value none).2

/-- `Store::get`: a deletion has no value. -/
def get (b : Bucket) (key : String) : Option Bytes :=
  match b.entry key with
  | some m => if m.operation = .put then some m.value else none
  | none => none

def delete (b : Bucket) (key : String) : Bucket :=
  (b.publish key .delete [] none).2

def create (b : Bucket) (key : String) (value : Bytes) : Except CacheError Nat × Bucket :=
  match b.publish key .put value (some 0) with
  | (some sequence, b') => (.ok sequence, b')
  | (none, b') => (.error .alreadyExists, b')

/-- The server does not say which sequence it has; the error carries a zero. -/
def update (b : Bucket) (key : String) (value : Bytes) (expectedRevision : Nat) :
    Except CacheError Nat × Bucket :=
  match b.publish key .put value (some expectedRevision) with
  | (some sequence, b') => (.ok sequence, b')
  | (none, b') => (.error (.revisionMismatch expectedRevision 0), b')

def getWithRevision (b : Bucket) (key : String) : Option (Bytes × Nat) :=
  match b.entry key with
  | some m => if m.value.isEmpty then none else some (m.value, m.sequence)
  | none => none

def deleteWithRevision (b : Bucket) (key : String) (expectedRevision : Nat) :
    Except CacheError Unit × Bucket :=
  match b.publish key .delete [] (some expectedRevision) with
  | (some _, b') => (.ok (), b')
  | (none, b') => (.error (.revisionMismatch expectedRevision 0), b')

def listKeys (b : Bucket) (keyPrefix : String) : List String :=
  b.storeKeys.filter (·.startsWith keyPrefix)

/-! ## One key -/

variable {b : Bucket} {key k : String} {operation : Operation} {value : Bytes}
  {expected : Option Nat} {m : Message}

theorem entry_key (h : b.entry key = some m) : m.key = key := by
  simpa using List.find?_some h

theorem entry_mem (h : b.entry key = some m) : m ∈ b.stream := List.mem_of_find?_eq_some h

theorem mem_storeKeys : key ∈ b.storeKeys ↔ ∃ m, b.entry key = some m ∧ m.operation = .put := by
  constructor
  · intro h
    obtain ⟨m, hm, rfl⟩ := List.mem_map.mp h
    exact ⟨m, of_decide_eq_true (List.mem_filter.mp hm).2⟩
  · rintro ⟨m, hm, hput⟩
    refine List.mem_map.mpr ⟨m, List.mem_filter.mpr ⟨?_, ?_⟩, entry_key hm⟩
    · exact List.mem_reverse.mpr (entry_mem hm)
    · rw [entry_key hm]
      exact decide_eq_true ⟨hm, hput⟩

/-- A message is only read under its key. -/
theorem entry_cons : (⟨m :: b.stream⟩ : Bucket).entry key =
    if m.key = key then some m else b.entry key := by
  unfold entry
  rw [List.find?_cons]
  split
  · rename_i h
    rw [if_pos (of_decide_eq_true h)]
  · rename_i h
    rw [if_neg (of_decide_eq_false h)]

theorem entry_publish_ne (h : k ≠ key) :
    (b.publish k operation value expected).2.entry key = b.entry key := by
  unfold publish
  split
  · rw [entry_cons, if_neg h]
  · rfl

/-- The stream is numbered from one. -/
def Numbered (b : Bucket) : Prop := ∀ m ∈ b.stream, 0 < m.sequence ∧ m.sequence ≤ b.lastSequence

theorem Numbered.new : Numbered new := by
  intro m hm
  cases hm

theorem Numbered.publish (h : b.Numbered) :
    (b.publish key operation value expected).2.Numbered := by
  unfold Bucket.publish
  split
  · intro m hm
    rcases List.mem_cons.mp hm with rfl | hm
    · exact ⟨Nat.succ_pos _, le_refl _⟩
    · exact ⟨(h m hm).1, (h m hm).2.trans (Nat.le_succ _)⟩
  · exact h

end Bucket

end Flowgen.Cache
