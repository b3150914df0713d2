/-
# `Flowgen.Cache.Agreement` — one trait, two caches

The cache in memory (`core/src/cache/memory.rs`) and the one over a bucket
(`nats/src/cache.rs`) are given the same calls.  Their revisions differ: the one
counts the writes of a key, the other takes the stream's sequence numbers.  They
agree if a renaming of the revisions of each key, which keeps their order, makes
the answers of the one those of the other.

They do not agree after every history (`agree_iff`).  A deleted key is gone in
memory and has a message in the bucket: `create` is refused there, and neither
`update` nor `delete_with_revision` finds the key missing.  An empty value is no
value to the bucket's `get_with_revision`.  And a key that is deleted and
written again counts from one again in memory, so that one revision stands for
two; who holds on to it is answered differently by the two.
-/
import Flowgen.Lib.Numbering
import Flowgen.Cache.Memory
import Flowgen.Cache.Nats

namespace Flowgen.Cache

open Flowgen.Lib

/-- Which error. -/
inductive ErrorKind
  | alreadyExists
  | revisionMismatch
  | notFound
  | failed
deriving DecidableEq

def CacheError.kind : CacheError → ErrorKind
  | .alreadyExists => .alreadyExists
  | .revisionMismatch _ _ => .revisionMismatch
  | .notFound => .notFound
  | .failed _ => .failed

/-- What a call returns; keys come in no order. -/
inductive Reply
  | done
  | value (found : Option Bytes)
  | revision (r : Nat)
  | entry (found : Option (Bytes × Nat))
  | keys (found : Finset String)
  | error (kind : ErrorKind)
deriving DecidableEq

def Reply.ofRevision : Except CacheError Nat → Reply
  | .ok r => .revision r
  | .error e => .error e.kind

def Reply.ofDone : Except CacheError Unit → Reply
  | .ok () => .done
  | .error e => .error e.kind

/-- A call about one key. -/
inductive KeyCall
  | put (value : Bytes)
  | get
  | create (value : Bytes)
  | update (value : Bytes) (expectedRevision : Nat)
  | delete
  | deleteWithRevision (expectedRevision : Nat)
  | getWithRevision

inductive Call
  | on (key : String) (call : KeyCall)
  | listKeys (keyPrefix : String)

def KeyCall.onMemory (c : MemoryCache Bytes) (key : String) : KeyCall → Reply × MemoryCache Bytes
  | .put value => (.done, c.put key value)
  | .get => (.value (c.get key), c)
  | .create value => ((c.create key value).map .ofRevision id)
  | .update value expectedRevision => ((c.update key value expectedRevision).map .ofRevision id)
  | .delete => (.done, c.delete key)
  | .deleteWithRevision expectedRevision =>
      ((c.deleteWithRevision key expectedRevision).map .ofDone id)
  | .getWithRevision => (.entry (c.getWithRevision key), c)

def KeyCall.onNats (b : Bucket) (key : String) : KeyCall → Reply × Bucket
  | .put value => (.done, b.put key value)
  | .get => (.value (b.get key), b)
  | .create value => ((b.create key value).map .ofRevision id)
  | .update value expectedRevision => ((b.update key value expectedRevision).map .ofRevision id)
  | .delete => (.done, b.delete key)
  | .deleteWithRevision expectedRevision =>
      ((b.deleteWithRevision key expectedRevision).map .ofDone id)
  | .getWithRevision => (.entry (b.getWithRevision key), b)

def Call.onMemory (c : MemoryCache Bytes) : Call → Reply × MemoryCache Bytes
  | .on key call => call.onMemory c key
  | .listKeys keyPrefix => (.keys (c.listKeys keyPrefix).toFinset, c)

def Call.onNats (b : Bucket) : Call → Reply × Bucket
  | .on key call => call.onNats b key
  | .listKeys keyPrefix => (.keys (b.listKeys keyPrefix).toFinset, b)

def memoryReplies : MemoryCache Bytes → List Call → List Reply
  | _, [] => []
  | c, call :: calls => (call.onMemory c).1 :: memoryReplies (call.onMemory c).2 calls

def natsReplies : Bucket → List Call → List Reply
  | _, [] => []
  | b, call :: calls => (call.onNats b).1 :: natsReplies (call.onNats b).2 calls

/-! ## Renaming -/

def KeyCall.rename (f : Nat → Nat) : KeyCall → KeyCall
  | .update value expectedRevision => .update value (f expectedRevision)
  | .deleteWithRevision expectedRevision => .deleteWithRevision (f expectedRevision)
  | call => call

def Reply.rename (f : Nat → Nat) : Reply → Reply
  | .revision r => .revision (f r)
  | .entry found => .entry (found.map fun e => (e.1, f e.2))
  | reply => reply

/-- The names that the bucket's revisions have for those of the memory, key by
key. -/
abbrev Renaming := String → Nat → Nat

def Call.rename (ρ : Renaming) : Call → Call
  | .on key call => .on key (call.rename (ρ key))
  | .listKeys keyPrefix => .listKeys keyPrefix

def Call.renameReply (ρ : Renaming) : Call → Reply → Reply
  | .on key _, reply => reply.rename (ρ key)
  | .listKeys _, reply => reply

/-- The caches give the same answers, up to a renaming that keeps the order and
the zero, which is no revision. -/
def Agree (c : MemoryCache Bytes) (b : Bucket) (calls : List Call) : Prop :=
  ∃ ρ : Renaming, (∀ key, StrictMono (ρ key) ∧ ρ key 0 = 0) ∧
    natsReplies b (calls.map (Call.rename ρ)) =
      List.zipWith (Call.renameReply ρ) calls (memoryReplies c calls)

/-! ## When they agree -/

/-- What has happened to a key: the greatest of its revisions that a successful
call has taken or returned, the same when the key was last deleted, and whether
it was. -/
structure Past where
  used : Nat
  gone : Nat
  deleted : Bool

def Past.new : Past := ⟨0, 0, false⟩

def Past.use (p : Past) (r : Nat) : Past := { p with used := max p.used r }

def Past.erase (p : Past) : Past := ⟨p.used, p.used, true⟩

/-- The revision that a key has, zero for a key that is not there. -/
def revisionOf (e : Option (Bytes × Nat)) : Nat := e.elim 0 Prod.snd

/-- The past of a key after a call, when `e` is what the memory holds. -/
def KeyCall.pastAfter (e : Option (Bytes × Nat)) (p : Past) : KeyCall → Past
  | .put _ | .get => p
  | .create _ => if e = none then p.use 1 else p
  | .update _ r => if e.map Prod.snd = some r then p.use (r + 1) else p
  | .delete => p.erase
  | .deleteWithRevision r => if e.map Prod.snd = some r then (p.use r).erase else p
  | .getWithRevision => p.use (revisionOf e)

/-- A call that the caches agree on: it creates no key that was deleted, it
expects a revision of a key that is there, it does not read a revision off an
empty value, and where it succeeds the revision is none that was already used
before the key was last deleted. -/
def KeyCall.Safe (e : Option (Bytes × Nat)) (p : Past) : KeyCall → Prop
  | .put _ | .get | .delete => True
  | .create _ => e = none → p.deleted = false
  | .update _ r | .deleteWithRevision r => ∃ value cur, e = some (value, cur) ∧
      (cur = r → p.gone < cur)
  | .getWithRevision => ∀ value cur, e = some (value, cur) → value ≠ [] ∧ p.gone < cur

/-- Every call is safe where it is made. -/
def SafeRun : MemoryCache Bytes → (String → Past) → List Call → Prop
  | _, _, [] => True
  | c, past, .on key call :: calls =>
      call.Safe (c.getWithRevision key) (past key) ∧
        SafeRun (call.onMemory c key).2
          (Function.update past key (call.pastAfter (c.getWithRevision key) (past key))) calls
  | c, past, .listKeys _ :: calls => SafeRun c past calls

/-! ## The memory, seen from one key -/

def KeyCall.reply (e : Option (Bytes × Nat)) : KeyCall → Reply
  | .put _ | .delete => .done
  | .get => .value (e.map Prod.fst)
  | .create _ => if e = none then .revision 1 else .error .alreadyExists
  | .update _ r =>
      match e with
      | some (_, cur) => if cur = r then .revision (cur + 1) else .error .revisionMismatch
      | none => .error .notFound
  | .deleteWithRevision r =>
      match e with
      | some (_, cur) => if cur = r then .done else .error .revisionMismatch
      | none => .error .notFound
  | .getWithRevision => .entry e

/-- The message that a call writes, if it does. -/
def KeyCall.written (e : Option (Bytes × Nat)) : KeyCall → Option (Operation × Bytes)
  | .put value => some (.put, value)
  | .create value => if e = none then some (.put, value) else none
  | .update value r => if e.map Prod.snd = some r then some (.put, value) else none
  | .delete => some (.delete, [])
  | .deleteWithRevision r => if e.map Prod.snd = some r then some (.delete, []) else none
  | .get | .getWithRevision => none

/-- What a key holds after a message. -/
def entryAfter (e : Option (Bytes × Nat)) : Option (Operation × Bytes) → Option (Bytes × Nat)
  | some (.put, value) => some (value, revisionOf e + 1)
  | some (.delete, _) => none
  | none => e

section Memory

variable {c : MemoryCache Bytes} {key k : String} {call : KeyCall}

theorem lookup_eq {e : CacheEntry Bytes} (h : c.data.lookup key = some e) :
    c.getWithRevision key = some (e.value, e.revision) := by
  rw [MemoryCache.getWithRevision, h]
  rfl

theorem lookup_none (h : c.data.lookup key = none) : c.getWithRevision key = none := by
  rw [MemoryCache.getWithRevision, h]
  rfl

theorem getWithRevision_insert (e : CacheEntry Bytes) :
    ({ c with data := c.data.insert key e } : MemoryCache Bytes).getWithRevision k =
      if k = key then some (e.value, e.revision) else c.getWithRevision k := by
  unfold MemoryCache.getWithRevision
  split
  · rename_i h
    subst h
    simp
  · rename_i h
    simp [AList.lookup_insert_ne h]

theorem getWithRevision_erase :
    ({ c with data := c.data.erase key } : MemoryCache Bytes).getWithRevision k =
      if k = key then none else c.getWithRevision k := by
  unfold MemoryCache.getWithRevision
  split
  · rename_i h
    subst h
    simp
  · rename_i h
    simp [AList.lookup_erase_ne h]

/-- A call is answered from the key alone. -/
theorem onMemory_reply : (call.onMemory c key).1 = call.reply (c.getWithRevision key) := by
  cases call with
  | put value => rfl
  | get =>
      show Reply.value (c.get key) = .value _
      simp [MemoryCache.get, MemoryCache.getWithRevision, Option.map_map, Function.comp_def]
  | delete => rfl
  | getWithRevision => rfl
  | create value =>
      show Reply.ofRevision (c.create key value).1 = _
      cases he : c.data.lookup key with
      | none => simp [MemoryCache.create, he, lookup_none he, Reply.ofRevision, KeyCall.reply]
      | some e =>
          simp [MemoryCache.create, he, lookup_eq he, Reply.ofRevision, KeyCall.reply,
            CacheError.kind]
  | update value r =>
      show Reply.ofRevision (c.update key value r).1 = _
      cases he : c.data.lookup key with
      | none =>
          simp [MemoryCache.update, he, lookup_none he, Reply.ofRevision, KeyCall.reply,
            CacheError.kind]
      | some e =>
          rcases eq_or_ne e.revision r with hr | hr
          · simp [MemoryCache.update, he, lookup_eq he, Reply.ofRevision, KeyCall.reply, hr]
          · simp [MemoryCache.update, he, lookup_eq he, Reply.ofRevision, KeyCall.reply, hr,
              CacheError.kind]
  | deleteWithRevision r =>
      show Reply.ofDone (c.deleteWithRevision key r).1 = _
      cases he : c.data.lookup key with
      | none =>
          simp [MemoryCache.deleteWithRevision, he, lookup_none he, Reply.ofDone, KeyCall.reply,
            CacheError.kind]
      | some e =>
          rcases eq_or_ne e.revision r with hr | hr
          · simp [MemoryCache.deleteWithRevision, he, lookup_eq he, Reply.ofDone, KeyCall.reply, hr]
          · simp [MemoryCache.deleteWithRevision, he, lookup_eq he, Reply.ofDone, KeyCall.reply, hr,
              CacheError.kind]

/-- A call changes its key by the message it writes, and no other key. -/
theorem onMemory_entry : (call.onMemory c key).2.getWithRevision k =
    if k = key then entryAfter (c.getWithRevision key) (call.written (c.getWithRevision key))
    else c.getWithRevision k := by
  have hsame : (if k = key then c.getWithRevision key else c.getWithRevision k) =
      c.getWithRevision k := by
    split
    · rename_i h
      rw [h]
    · rfl
  cases call with
  | put value =>
      refine (getWithRevision_insert _).trans ?_
      cases he : c.data.lookup key with
      | none => simp [lookup_none he, KeyCall.written, entryAfter, revisionOf]
      | some e => simp [lookup_eq he, KeyCall.written, entryAfter, revisionOf]
  | get => exact hsame.symm
  | delete => exact getWithRevision_erase
  | getWithRevision => exact hsame.symm
  | create value =>
      show (c.create key value).2.getWithRevision k = _
      unfold MemoryCache.create
      cases he : c.data.lookup key with
      | none =>
          refine (getWithRevision_insert _).trans ?_
          simp [lookup_none he, KeyCall.written, entryAfter, revisionOf]
      | some e =>
          rw [lookup_eq he] at hsame ⊢
          exact hsame.symm
  | update value r =>
      show (c.update key value r).2.getWithRevision k = _
      unfold MemoryCache.update
      cases he : c.data.lookup key with
      | none =>
          rw [lookup_none he] at hsame ⊢
          exact hsame.symm
      | some e =>
          rcases eq_or_ne e.revision r with hr | hr
          · dsimp only
            rw [if_neg (not_not.mpr hr)]
            refine (getWithRevision_insert _).trans ?_
            simp [lookup_eq he, KeyCall.written, entryAfter, revisionOf, hr]
          · dsimp only
            rw [if_pos hr]
            simpa [lookup_eq he, KeyCall.written, entryAfter, hr] using hsame.symm
  | deleteWithRevision r =>
      show (c.deleteWithRevision key r).2.getWithRevision k = _
      unfold MemoryCache.deleteWithRevision
      cases he : c.data.lookup key with
      | none =>
          rw [lookup_none he] at hsame ⊢
          exact hsame.symm
      | some e =>
          rcases eq_or_ne e.revision r with hr | hr
          · dsimp only
            rw [if_neg (not_not.mpr hr)]
            refine getWithRevision_erase.trans ?_
            simp [lookup_eq he, KeyCall.written, entryAfter, hr]
          · dsimp only
            rw [if_pos hr]
            simpa [lookup_eq he, KeyCall.written, entryAfter, hr] using hsame.symm

end Memory

/-! ## The bucket, seen from one key -/

/-- What the memory holds of a key, its last message in the bucket, and whether
it was deleted. -/
inductive Related : Option (Bytes × Nat) → Option Message → Past → Prop
  | never (p : Past) : p.deleted = false → Related none none p
  | deleted (m : Message) (p : Past) : m.operation = .delete → m.value = [] →
      p.deleted = true → Related none (some m) p
  | live (m : Message) (cur : Nat) (p : Past) : m.operation = .put →
      Related (some (m.value, cur)) (some m) p

def Bucket.write (b : Bucket) (key : String) : Option (Operation × Bytes) → Bucket
  | some (operation, value) => (b.publish key operation value none).2
  | none => b

/-- The answers to a call are the same under the renaming `f` of the key's
revisions, where its last message has the sequence `now` and the next one will
have `next`. -/
def KeyCall.Matches (f : Nat → Nat) (e : Option (Bytes × Nat)) (p : Past) (now next : Nat) :
    KeyCall → Prop
  | .put _ | .get | .delete => True
  | .create _ => e = none → p.deleted = false ∧ f 1 = next
  | .update _ r => ∃ value cur, e = some (value, cur) ∧ (cur = r ↔ f r = now) ∧
      (cur = r → f (cur + 1) = next)
  | .deleteWithRevision r => ∃ value cur, e = some (value, cur) ∧ (cur = r ↔ f r = now)
  | .getWithRevision => ∀ value cur, e = some (value, cur) → value ≠ [] ∧ f cur = now

section Nats

variable {b : Bucket} {key k : String} {call : KeyCall} {e : Option (Bytes × Nat)} {p : Past}
  {f : Nat → Nat} {value : Bytes} {r : Nat} {m : Message} {w : Option (Operation × Bytes)}

theorem publish_expected {operation : Operation} : b.publish key operation value (some r) =
    if r = b.sequenceOf key then
      (some (b.lastSequence + 1), b.write key (some (operation, value)))
    else (none, b) := by
  unfold Bucket.publish
  simp only [Option.all_some, beq_iff_eq]
  rfl

theorem onNats_create : (KeyCall.create value).onNats b key =
    if 0 = b.sequenceOf key then
      (.revision (b.lastSequence + 1), b.write key (some (.put, value)))
    else (.error .alreadyExists, b) := by
  show (b.create key value).map Reply.ofRevision id = _
  rw [Bucket.create, publish_expected]
  rcases eq_or_ne 0 (b.sequenceOf key) with h | h
  · rw [if_pos h, if_pos h]
    rfl
  · rw [if_neg h, if_neg h]
    rfl

theorem onNats_update : (KeyCall.update value r).onNats b key =
    if r = b.sequenceOf key then
      (.revision (b.lastSequence + 1), b.write key (some (.put, value)))
    else (.error .revisionMismatch, b) := by
  show (b.update key value r).map Reply.ofRevision id = _
  rw [Bucket.update, publish_expected]
  rcases eq_or_ne r (b.sequenceOf key) with h | h
  · rw [if_pos h, if_pos h]
    rfl
  · rw [if_neg h, if_neg h]
    rfl

theorem onNats_deleteWithRevision : (KeyCall.deleteWithRevision r).onNats b key =
    if r = b.sequenceOf key then (.done, b.write key (some (.delete, [])))
    else (.error .revisionMismatch, b) := by
  show (b.deleteWithRevision key r).map Reply.ofDone id = _
  rw [Bucket.deleteWithRevision, publish_expected]
  rcases eq_or_ne r (b.sequenceOf key) with h | h
  · rw [if_pos h, if_pos h]
    rfl
  · rw [if_neg h, if_neg h]
    rfl

theorem sequenceOf_eq (h : b.entry key = some m) : b.sequenceOf key = m.sequence := by
  rw [Bucket.sequenceOf, h]
  rfl

theorem sequenceOf_none (h : b.entry key = none) : b.sequenceOf key = 0 := by
  rw [Bucket.sequenceOf, h]
  rfl

theorem sequenceOf_pos (hb : b.Numbered) (h : b.entry key = some m) : 0 < b.sequenceOf key := by
  rw [sequenceOf_eq h]
  exact (hb m (Bucket.entry_mem h)).1

theorem sequenceOf_le (hb : b.Numbered) : b.sequenceOf key ≤ b.lastSequence := by
  cases h : b.entry key with
  | none =>
      rw [sequenceOf_none h]
      exact Nat.zero_le _
  | some m =>
      rw [sequenceOf_eq h]
      exact (hb m (Bucket.entry_mem h)).2

/-- Where the key is there, the bucket refuses to create it; where it is not, it
creates it only if it was never deleted. -/
theorem create_iff (hb : b.Numbered) (hrel : Related e (b.entry key) p) :
    ((KeyCall.create value).onNats b key).1 = ((KeyCall.create value).reply e).rename f ↔
      (KeyCall.create value).Matches f e p (b.sequenceOf key) (b.lastSequence + 1) := by
  rw [onNats_create]
  cases hm : b.entry key with
  | none =>
      rw [hm] at hrel
      cases hrel with
      | never _ hp =>
          rw [if_pos (sequenceOf_none hm).symm]
          simp [KeyCall.reply, KeyCall.Matches, Reply.rename, hp, eq_comm]
  | some m =>
      rw [if_neg (sequenceOf_pos hb hm).ne]
      rw [hm] at hrel
      cases hrel with
      | deleted _ _ _ _ hp => simp [KeyCall.reply, KeyCall.Matches, Reply.rename, hp]
      | live cur _ _ hop => simp [KeyCall.reply, KeyCall.Matches, Reply.rename]

theorem update_iff (hrel : Related e (b.entry key) p) :
    ((KeyCall.update value (f r)).onNats b key).1 =
        ((KeyCall.update value r).reply e).rename f ↔
      (KeyCall.update value r).Matches f e p (b.sequenceOf key) (b.lastSequence + 1) := by
  rw [onNats_update]
  generalize b.entry key = last at hrel
  cases hrel with
  | never _ hp => split <;> simp [KeyCall.reply, KeyCall.Matches, Reply.rename]
  | deleted _ _ _ _ hp => split <;> simp [KeyCall.reply, KeyCall.Matches, Reply.rename]
  | live m cur _ hop =>
      rcases eq_or_ne cur r with hr | hr
      · split <;> simp [KeyCall.reply, KeyCall.Matches, Reply.rename, eq_comm, *]
      · split <;> simp [KeyCall.reply, KeyCall.Matches, Reply.rename, *]

theorem deleteWithRevision_iff (hrel : Related e (b.entry key) p) :
    ((KeyCall.deleteWithRevision (f r)).onNats b key).1 =
        ((KeyCall.deleteWithRevision r).reply e).rename f ↔
      (KeyCall.deleteWithRevision r).Matches f e p (b.sequenceOf key) (b.lastSequence + 1) := by
  rw [onNats_deleteWithRevision]
  generalize b.entry key = last at hrel
  cases hrel with
  | never _ hp => split <;> simp [KeyCall.reply, KeyCall.Matches, Reply.rename]
  | deleted _ _ _ _ hp => split <;> simp [KeyCall.reply, KeyCall.Matches, Reply.rename]
  | live m cur _ hop =>
      rcases eq_or_ne cur r with hr | hr
      · split <;> simp [KeyCall.reply, KeyCall.Matches, Reply.rename, *]
      · split <;> simp [KeyCall.reply, KeyCall.Matches, Reply.rename, *]

theorem getWithRevision_iff (hrel : Related e (b.entry key) p) :
    (KeyCall.getWithRevision.onNats b key).1 = (KeyCall.getWithRevision.reply e).rename f ↔
      KeyCall.getWithRevision.Matches f e p (b.sequenceOf key) (b.lastSequence + 1) := by
  show Reply.entry (b.getWithRevision key) = (Reply.entry e).rename f ↔ _
  rw [Bucket.getWithRevision]
  cases hm : b.entry key with
  | none =>
      rw [hm] at hrel
      cases hrel with
      | never _ hp => simp [KeyCall.Matches, Reply.rename]
  | some m =>
      rw [sequenceOf_eq hm]
      rw [hm] at hrel
      cases hrel with
      | deleted _ _ _ hvalue _ => simp [KeyCall.Matches, Reply.rename, hvalue]
      | live cur _ _ hop =>
          cases hvalue : m.value with
          | nil => simp [KeyCall.Matches, Reply.rename, hvalue]
          | cons x xs => simp [KeyCall.Matches, Reply.rename, hvalue, eq_comm]

theorem get_eq (hrel : Related e (b.entry key) p) : b.get key = e.map Prod.fst := by
  rw [Bucket.get]
  generalize b.entry key = last at hrel
  cases hrel with
  | never _ hp => rfl
  | deleted m _ hop _ _ => simp [hop]
  | live m cur _ hop => simp [hop]

/-- The answers are the same if and only if the call matches. -/
theorem reply_iff (hb : b.Numbered) (hrel : Related e (b.entry key) p) :
    ((call.rename f).onNats b key).1 = (call.reply e).rename f ↔
      call.Matches f e p (b.sequenceOf key) (b.lastSequence + 1) := by
  cases call with
  | put value => exact ⟨fun _ => trivial, fun _ => rfl⟩
  | get =>
      refine ⟨fun _ => trivial, fun _ => ?_⟩
      show Reply.value (b.get key) = .value (e.map Prod.fst)
      rw [get_eq hrel]
  | create value => exact create_iff hb hrel
  | update value r => exact update_iff hrel
  | delete => exact ⟨fun _ => trivial, fun _ => rfl⟩
  | deleteWithRevision r => exact deleteWithRevision_iff hrel
  | getWithRevision => exact getWithRevision_iff hrel

/-- A call that matches writes what it writes in memory. -/
theorem onNats_bucket (hb : b.Numbered) (hrel : Related e (b.entry key) p)
    (hmatch : call.Matches f e p (b.sequenceOf key) (b.lastSequence + 1)) :
    ((call.rename f).onNats b key).2 = b.write key (call.written e) := by
  cases call with
  | put value => rfl
  | get => rfl
  | delete => rfl
  | getWithRevision => rfl
  | create value =>
      show ((KeyCall.create value).onNats b key).2 = _
      rw [onNats_create]
      cases hm : b.entry key with
      | none =>
          rw [hm] at hrel
          cases hrel with
          | never _ hp =>
              rw [if_pos (sequenceOf_none hm).symm]
              rfl
      | some m =>
          rw [if_neg (sequenceOf_pos hb hm).ne]
          rw [hm] at hrel
          cases hrel with
          | deleted _ _ _ _ hp => cases hp.symm.trans (hmatch rfl).1
          | live cur _ _ hop => rfl
  | update value r =>
      obtain ⟨v, cur, rfl, hcur, -⟩ := hmatch
      show ((KeyCall.update value (f r)).onNats b key).2 = _
      rw [onNats_update]
      simp only [← hcur, KeyCall.written, Option.map_some, Option.some.injEq]
      split <;> rfl
  | deleteWithRevision r =>
      obtain ⟨v, cur, rfl, hcur⟩ := hmatch
      show ((KeyCall.deleteWithRevision (f r)).onNats b key).2 = _
      rw [onNats_deleteWithRevision]
      simp only [← hcur, KeyCall.written, Option.map_some, Option.some.injEq]
      split <;> rfl

theorem entry_write_ne (h : k ≠ key) : (b.write key w).entry k = b.entry k := by
  cases w with
  | none => rfl
  | some w => exact Bucket.entry_publish_ne (Ne.symm h)

theorem entry_write {operation : Operation} : (b.write key (some (operation, value))).entry key =
    some ⟨b.lastSequence + 1, key, operation, value⟩ := by
  show (Bucket.mk (_ :: b.stream)).entry key = _
  rw [Bucket.entry_cons, if_pos rfl]

theorem sequenceOf_write_ne (h : k ≠ key) : (b.write key w).sequenceOf k = b.sequenceOf k := by
  rw [Bucket.sequenceOf, entry_write_ne h]
  rfl

theorem sequenceOf_write : (b.write key w).sequenceOf key =
    w.elim (b.sequenceOf key) fun _ => b.lastSequence + 1 := by
  cases w with
  | none => rfl
  | some w => exact sequenceOf_eq entry_write

theorem numbered_write (h : b.Numbered) : (b.write key w).Numbered := by
  cases w with
  | none => exact h
  | some w => exact h.publish

/-! ### The two caches together -/

theorem Related.congr {p' : Past} {last : Option Message} (h : Related e last p)
    (hp : p'.deleted = p.deleted) : Related e last p' := by
  cases h with
  | never _ hdel => exact .never _ (hp.trans hdel)
  | deleted m _ hop hvalue hdel => exact .deleted m _ hop hvalue (hp.trans hdel)
  | live m cur _ hop => exact .live m cur _ hop

theorem related_put {cur : Nat} :
    Related (some (value, cur)) ((b.write key (some (.put, value))).entry key) p := by
  rw [entry_write]
  exact .live ⟨b.lastSequence + 1, key, .put, value⟩ cur p rfl

theorem related_delete (hp : p.deleted = true) :
    Related none ((b.write key (some (.delete, []))).entry key) p := by
  rw [entry_write]
  exact .deleted _ p rfl rfl hp

/-- After a call the key is related as before. -/
theorem Related.next (h : Related e (b.entry key) p) :
    Related (entryAfter e (call.written e)) ((b.write key (call.written e)).entry key)
      (call.pastAfter e p) := by
  cases call with
  | put value => exact related_put
  | get => exact h
  | create value =>
      rcases eq_or_ne e none with he | he
      · simp only [KeyCall.written, if_pos he]
        exact related_put
      · simp only [KeyCall.written, KeyCall.pastAfter, if_neg he]
        exact h
  | update value r =>
      rcases eq_or_ne (e.map Prod.snd) (some r) with he | he
      · simp only [KeyCall.written, if_pos he]
        exact related_put
      · simp only [KeyCall.written, KeyCall.pastAfter, if_neg he]
        exact h
  | delete => exact related_delete rfl
  | deleteWithRevision r =>
      rcases eq_or_ne (e.map Prod.snd) (some r) with he | he
      · simp only [KeyCall.written, KeyCall.pastAfter, if_pos he]
        exact related_delete rfl
      · simp only [KeyCall.written, KeyCall.pastAfter, if_neg he]
        exact h
  | getWithRevision => exact h.congr rfl

structure Linked (c : MemoryCache Bytes) (b : Bucket) (past : String → Past) : Prop where
  numbered : b.Numbered
  related : ∀ key, Related (c.getWithRevision key) (b.entry key) (past key)

theorem Linked.next {c : MemoryCache Bytes} {past : String → Past} (h : Linked c b past)
    (key : String) (call : KeyCall) :
    Linked (call.onMemory c key).2 (b.write key (call.written (c.getWithRevision key)))
      (Function.update past key (call.pastAfter (c.getWithRevision key) (past key))) := by
  refine ⟨numbered_write h.numbered, ?_⟩
  intro k
  rw [onMemory_entry]
  rcases eq_or_ne k key with rfl | hk
  · rw [if_pos rfl, Function.update_self]
    exact (h.related k).next
  · rw [if_neg hk, Function.update_of_ne hk, entry_write_ne hk]
    exact h.related k

/-- Both list the keys that have a value. -/
theorem Linked.listKeys {c : MemoryCache Bytes} {past : String → Past} (h : Linked c b past)
    (keyPrefix : String) : (b.listKeys keyPrefix).toFinset = (c.listKeys keyPrefix).toFinset := by
  have hkeys : ∀ key, key ∈ b.storeKeys ↔ key ∈ c.data.keys := by
    intro key
    have hthere : key ∈ c.data.keys ↔ c.getWithRevision key ≠ none := by
      rw [← AList.mem_keys, ← AList.lookup_isSome, MemoryCache.getWithRevision]
      cases c.data.lookup key <;> simp
    have hrel := h.related key
    rw [Bucket.mem_storeKeys, hthere]
    generalize b.entry key = last at hrel
    generalize c.getWithRevision key = e at hrel
    cases hrel with
    | never _ hp => simp
    | deleted m _ hop _ _ => simp [hop]
    | live m cur _ hop => simp [hop]
  ext key
  simp only [Bucket.listKeys, MemoryCache.listKeys, List.mem_toFinset, List.mem_filter, hkeys]

end Nats

/-! ## A renaming for a run of safe calls -/

/-- The times of the revisions of a key: the sequences that its revisions stand
for which were used, and those of the writes since it was last deleted. -/
structure Timed (e : Option (Bytes × Nat)) (p : Past) (now : Nat) (times : List Nat) : Prop where
  ordered : Times times now
  zero : times[0]? = some 0
  gone : p.gone ≤ p.used
  used : p.used < times.length
  fresh : p.deleted = false → p.gone = 0
  absent : e = none → times.length = p.gone + 1
  live : ∀ value cur, e = some (value, cur) → times.length = max p.gone cur + 1 ∧
    (p.gone < cur → times[cur]? = some now) ∧ (cur ≤ p.gone → now ∉ times)

/-- The times after a call. -/
def timesAfter (e : Option (Bytes × Nat)) (p : Past) (next : Nat) (times : List Nat) :
    Option (Operation × Bytes) → List Nat
  | some (.put, _) => if p.gone < revisionOf e + 1 then times ++ [next] else times
  | some (.delete, _) => times.take (p.used + 1)
  | none => times

section Safe

variable {e : Option (Bytes × Nat)} {p : Past} {now next : Nat} {times : List Nat}
  {value : Bytes} {cur r : Nat} {f : Nat → Nat} {call : KeyCall}

theorem Timed.length (h : Timed e p now times) : times.length = max p.gone (revisionOf e) + 1 := by
  cases e with
  | none => rw [h.absent rfl, revisionOf, Option.elim_none, Nat.max_zero]
  | some e => exact (h.live e.1 e.2 rfl).1

theorem Timed.write (h : Timed e p now times) (hnext : now < next) :
    Timed (some (value, revisionOf e + 1)) p next (timesAfter e p next times (some (.put, value))) := by
  have hlength := h.length
  have hused := h.used
  unfold timesAfter
  dsimp only
  split
  · -- the new revision is greater than all that are gone, and gets the new time
    rename_i hgone
    have hnew : times.length = revisionOf e + 1 := by omega
    refine ⟨h.ordered.concat hnext, ?_, h.gone, ?_, h.fresh, ?_, ?_⟩
    · rw [List.getElem?_append_left (by omega)]
      exact h.zero
    · rw [List.length_append]
      omega
    · intro hnone
      cases hnone
    · rintro value' cur' hcur
      cases hcur
      refine ⟨?_, fun _ => ?_, fun hle => ?_⟩
      · rw [List.length_append, List.length_singleton]
        omega
      · rw [← hnew]
        exact List.getElem?_concat_length
      · omega
  · rename_i hgone
    refine ⟨h.ordered.mono hnext.le, h.zero, h.gone, hused, h.fresh, ?_, ?_⟩
    · intro hnone
      cases hnone
    · rintro value' cur' hcur
      cases hcur
      refine ⟨by omega, fun hlt => absurd hlt hgone, fun _ hmem => ?_⟩
      have := h.ordered.past next hmem
      omega

theorem Timed.use (h : Timed e p now times) (hr : r ≤ revisionOf e) :
    Timed e (p.use r) now times := by
  have hlength := h.length
  have hused := h.used
  refine ⟨h.ordered, h.zero, h.gone.trans (le_max_left ..), ?_, h.fresh, h.absent, h.live⟩
  show max p.used r < times.length
  omega

theorem Timed.erase (h : Timed e p now times) (hnext : now < next) :
    Timed none p.erase next (timesAfter e p next times (some (.delete, []))) := by
  have hused := h.used
  refine ⟨(h.ordered.take _).mono hnext.le, ?_, le_refl _, ?_, ?_, fun _ => ?_, ?_⟩
  · rw [timesAfter, List.getElem?_take, if_pos (by omega)]
    exact h.zero
  · show p.used < (times.take (p.used + 1)).length
    rw [List.length_take]
    omega
  · intro hfalse
    cases hfalse
  · show (times.take (p.used + 1)).length = p.used + 1
    rw [List.length_take]
    omega
  · intro value' cur' hcur
    cases hcur

/-- The times are kept over a safe call. -/
theorem Timed.after (h : Timed e p now times) (hsafe : call.Safe e p) (hnext : now < next) :
    Timed (entryAfter e (call.written e)) (call.pastAfter e p)
      ((call.written e).elim now fun _ => next)
      (timesAfter e (call.pastAfter e p) next times (call.written e)) := by
  cases call with
  | put value => exact h.write hnext
  | get => exact h
  | create value =>
      rcases eq_or_ne e none with rfl | he
      · exact (h.write hnext).use (le_refl 1)
      · simp only [KeyCall.written, KeyCall.pastAfter, if_neg he]
        exact h
  | update value r =>
      obtain ⟨value', cur, rfl, -⟩ := hsafe
      rcases eq_or_ne cur r with rfl | hr
      · simp only [KeyCall.written, KeyCall.pastAfter, Option.map_some, if_true]
        exact (h.write hnext).use (le_refl _)
      · simp only [KeyCall.written, KeyCall.pastAfter, Option.map_some, Option.some.injEq, if_neg hr]
        exact h
  | delete => exact h.erase hnext
  | deleteWithRevision r =>
      obtain ⟨value', cur, rfl, -⟩ := hsafe
      rcases eq_or_ne cur r with rfl | hr
      · simp only [KeyCall.written, KeyCall.pastAfter, Option.map_some, if_true]
        exact (h.use (le_refl cur)).erase hnext
      · simp only [KeyCall.written, KeyCall.pastAfter, Option.map_some, Option.some.injEq, if_neg hr]
        exact h
  | getWithRevision => exact h.use (le_refl _)

theorem use_used (p : Past) (r : Nat) : p.used ≤ (p.use r).used := le_max_left ..

theorem used_mono : p.used ≤ (call.pastAfter e p).used := by
  cases call with
  | put value => exact le_refl _
  | get => exact le_refl _
  | create value =>
      rw [KeyCall.pastAfter]
      split
      · exact use_used ..
      · exact le_refl _
  | update value r =>
      rw [KeyCall.pastAfter]
      split
      · exact use_used ..
      · exact le_refl _
  | delete => exact le_refl _
  | deleteWithRevision r =>
      rw [KeyCall.pastAfter]
      split
      · exact use_used ..
      · exact le_refl _
  | getWithRevision => exact use_used ..

/-- A renaming for the times after a call is one for those before it. -/
theorem Timed.numbers (h : Timed e p now times) (hnext : now < next)
    (hf : Numbers (timesAfter e (call.pastAfter e p) next times (call.written e))
      (call.pastAfter e p).used ((call.written e).elim now fun _ => next) f) :
    Numbers times p.used now f := by
  have hused : p.used ≤ (call.pastAfter e p).used := used_mono
  generalize call.pastAfter e p = p' at hf hused
  cases hw : call.written e with
  | none =>
      rw [hw] at hf
      exact hf.of_now (le_refl _) hused
  | some w =>
      rw [hw] at hf
      obtain ⟨operation, v⟩ := w
      cases operation with
      | put =>
          simp only [timesAfter, Option.elim_some] at hf
          split at hf
          · exact hf.of_concat hnext hused h.used
          · exact hf.of_now hnext.le hused
      | delete => exact hf.of_take hnext.le hused

/-- No revision but the current one is renamed to the last sequence. -/
theorem Timed.eq_now_iff (h : Timed (some (value, cur)) p now times)
    (hf : Numbers times p.used now f) (hcur : cur = r → f r = now) : cur = r ↔ f r = now := by
  refine ⟨hcur, fun hr => ?_⟩
  obtain ⟨-, hlive, hgone⟩ := h.live value cur rfl
  by_contra hne
  refine hf.ne_now ?_ hr
  intro hget
  rcases Nat.lt_or_ge p.gone cur with hlt | hge
  · exact hne (h.ordered.injective (hlive hlt) hget)
  · exact hgone hge (List.mem_of_getElem? hget)

/-- The answers to a safe call are the same under a renaming for the times after
it. -/
theorem Timed.matches (h : Timed e p now times) (hsafe : call.Safe e p) (hnext : now < next)
    (hf : Numbers (timesAfter e (call.pastAfter e p) next times (call.written e))
      (call.pastAfter e p).used ((call.written e).elim now fun _ => next) f) :
    call.Matches f e p now next := by
  have hf' : Numbers times p.used now f := h.numbers hnext hf
  cases call with
  | put value => trivial
  | get => trivial
  | delete => trivial
  | create value =>
      intro he
      subst he
      have hp : p.deleted = false := hsafe rfl
      have hlength : times.length = 1 := by rw [h.absent rfl, h.fresh hp]
      have hgone : p.gone < 1 := by rw [h.fresh hp]; exact Nat.one_pos
      have hone := hf.fixed 1 (le_max_right ..)
      change (if p.gone < 1 then times ++ [next] else times)[1]? = some (f 1) at hone
      rw [if_pos hgone, List.getElem?_append_right hlength.le, hlength] at hone
      exact ⟨hp, (Option.some.inj hone).symm⟩
  | update value r =>
      obtain ⟨value', cur, rfl, hr⟩ := hsafe
      obtain ⟨hlength, hlive, -⟩ := h.live value' cur rfl
      have hdone : cur = r → f r = now ∧ f (cur + 1) = next := by
        rintro rfl
        have hgone := hr rfl
        have hlt : cur < times.length := by omega
        simp only [KeyCall.written, KeyCall.pastAfter, Option.map_some, if_true, timesAfter,
          revisionOf, Option.elim_some] at hf
        have hpos : (p.use (cur + 1)).gone < cur + 1 := by
          show p.gone < cur + 1
          omega
        rw [if_pos hpos] at hf
        have hnow := hf.fixed cur ((Nat.le_succ cur).trans (le_max_right ..))
        have hnew := hf.fixed (cur + 1) (le_max_right ..)
        rw [List.getElem?_append_left hlt, hlive hgone] at hnow
        have hlength' : times.length = cur + 1 := by omega
        rw [← hlength', List.getElem?_concat_length, hlength'] at hnew
        exact ⟨(Option.some.inj hnow).symm, (Option.some.inj hnew).symm⟩
      exact ⟨value', cur, rfl, h.eq_now_iff hf' fun hcur => (hdone hcur).1,
        fun hcur => (hdone hcur).2⟩
  | deleteWithRevision r =>
      obtain ⟨value', cur, rfl, hr⟩ := hsafe
      obtain ⟨hlength, hlive, -⟩ := h.live value' cur rfl
      refine ⟨value', cur, rfl, h.eq_now_iff hf' ?_⟩
      rintro rfl
      simp only [KeyCall.written, KeyCall.pastAfter, Option.map_some, if_true, timesAfter] at hf
      have hcur : cur ≤ (p.use cur).erase.used := le_max_right ..
      have hnow := hf.fixed cur hcur
      rw [List.getElem?_take, if_pos (by omega), hlive (hr rfl)] at hnow
      exact (Option.some.inj hnow).symm
  | getWithRevision =>
      rintro value cur rfl
      obtain ⟨hvalue, hgone⟩ := hsafe value cur rfl
      obtain ⟨-, hlive, -⟩ := h.live value cur rfl
      have hnow := hf.fixed cur (le_max_right ..)
      exact ⟨hvalue, (Option.some.inj ((hlive hgone).symm.trans hnow)).symm⟩

/-! ## What the answers tell of the calls -/

/-- What a renaming under which the answers were the same does with the past of
a key. -/
structure Held (f : Nat → Nat) (e : Option (Bytes × Nat)) (p : Past) (now : Nat) : Prop where
  used : f p.used ≤ now
  gone : p.gone ≤ p.used
  live : e ≠ none → f p.gone < now

theorem Held.safe (h : Held f e p now) (hmono : StrictMono f)
    (hmatch : call.Matches f e p now next) : call.Safe e p := by
  have hgone : ∀ {v cur}, e = some (v, cur) → f cur = now → p.gone < cur := by
    rintro v cur rfl hcur
    have hlt := h.live (by simp)
    rw [← hcur] at hlt
    exact hmono.lt_iff_lt.mp hlt
  cases call with
  | put value => trivial
  | get => trivial
  | delete => trivial
  | create value =>
      intro he
      exact (hmatch he).1
  | update value r =>
      obtain ⟨v, cur, he, hcur, -⟩ := hmatch
      refine ⟨v, cur, he, ?_⟩
      rintro rfl
      exact hgone he (hcur.mp rfl)
  | deleteWithRevision r =>
      obtain ⟨v, cur, he, hcur⟩ := hmatch
      refine ⟨v, cur, he, ?_⟩
      rintro rfl
      exact hgone he (hcur.mp rfl)
  | getWithRevision =>
      intro v cur he
      obtain ⟨hvalue, hcur⟩ := hmatch v cur he
      exact ⟨hvalue, hgone he hcur⟩

theorem Held.write (h : Held f e p now) (hmono : StrictMono f) (hnext : now < next) {e'} :
    Held f e' p next := by
  refine ⟨h.used.trans hnext.le, h.gone, fun _ => ?_⟩
  exact ((hmono.monotone h.gone).trans h.used).trans_lt hnext

theorem Held.use (h : Held f e p now) (hr : f r ≤ now) : Held f e (p.use r) now := by
  refine ⟨?_, h.gone.trans (le_max_left ..), h.live⟩
  show f (max p.used r) ≤ now
  rcases le_total p.used r with hle | hle
  · rw [max_eq_right hle]
    exact hr
  · rw [max_eq_left hle]
    exact h.used

theorem Held.erase (h : Held f e p now) (hnext : now < next) : Held f none p.erase next :=
  ⟨h.used.trans hnext.le, le_refl _, fun hne => absurd rfl hne⟩

theorem Held.after (h : Held f e p now) (hmono : StrictMono f) (h0 : f 0 = 0) (hnext : now < next)
    (hmatch : call.Matches f e p now next) :
    Held f (entryAfter e (call.written e)) (call.pastAfter e p)
      ((call.written e).elim now fun _ => next) := by
  cases call with
  | put value => exact h.write hmono hnext
  | get => exact h
  | create value =>
      rcases eq_or_ne e none with rfl | he
      · exact (h.write hmono hnext).use (hmatch rfl).2.le
      · simp only [KeyCall.written, KeyCall.pastAfter, if_neg he]
        exact h
  | update value r =>
      obtain ⟨v, cur, rfl, -, hnew⟩ := hmatch
      rcases eq_or_ne cur r with rfl | hr
      · simp only [KeyCall.written, KeyCall.pastAfter, Option.map_some, if_true]
        exact (h.write hmono hnext).use (hnew rfl).le
      · simp only [KeyCall.written, KeyCall.pastAfter, Option.map_some, Option.some.injEq, if_neg hr]
        exact h
  | delete => exact h.erase hnext
  | deleteWithRevision r =>
      obtain ⟨v, cur, rfl, hcur⟩ := hmatch
      rcases eq_or_ne cur r with rfl | hr
      · simp only [KeyCall.written, KeyCall.pastAfter, Option.map_some, if_true]
        exact (h.use (hcur.mp rfl).le).erase hnext
      · simp only [KeyCall.written, KeyCall.pastAfter, Option.map_some, Option.some.injEq, if_neg hr]
        exact h
  | getWithRevision =>
      cases e with
      | none =>
          refine h.use ?_
          rw [revisionOf, Option.elim_none, h0]
          exact Nat.zero_le _
      | some e => exact h.use (hmatch e.1 e.2 rfl).2.le

end Safe

/-! ## Runs -/

section Runs

variable {c : MemoryCache Bytes} {b : Bucket} {past : String → Past} {calls : List Call}
  {key : String} {call : KeyCall} {ρ : Renaming}

/-- The same answers, call by call. -/
theorem replies_cons : natsReplies b ((Call.on key call :: calls).map (Call.rename ρ)) =
      List.zipWith (Call.renameReply ρ) (Call.on key call :: calls)
        (memoryReplies c (Call.on key call :: calls)) ↔
    ((call.rename (ρ key)).onNats b key).1 =
        (call.reply (c.getWithRevision key)).rename (ρ key) ∧
      natsReplies ((call.rename (ρ key)).onNats b key).2 (calls.map (Call.rename ρ)) =
        List.zipWith (Call.renameReply ρ) calls (memoryReplies (call.onMemory c key).2 calls) := by
  rw [← onMemory_reply]
  exact List.cons_eq_cons

theorem replies_listKeys {keyPrefix : String} (h : Linked c b past) :
    natsReplies b ((Call.listKeys keyPrefix :: calls).map (Call.rename ρ)) =
      List.zipWith (Call.renameReply ρ) (Call.listKeys keyPrefix :: calls)
        (memoryReplies c (Call.listKeys keyPrefix :: calls)) ↔
    natsReplies b (calls.map (Call.rename ρ)) =
      List.zipWith (Call.renameReply ρ) calls (memoryReplies c calls) := by
  refine List.cons_eq_cons.trans (and_iff_right ?_)
  show Reply.keys _ = Reply.keys _
  rw [h.listKeys]

/-- The sequence of the next message is past that of every key. -/
theorem Linked.next_sequence (h : Linked c b past) (key : String) :
    b.sequenceOf key < b.lastSequence + 1 :=
  Nat.lt_succ_of_le (sequenceOf_le h.numbered)

/-- A run of safe calls has a renaming, and it can be any of those for the times
at its end. -/
theorem exists_renaming (calls : List Call) : ∀ (c : MemoryCache Bytes) (b : Bucket)
    (past : String → Past) (times : String → List Nat), Linked c b past →
    (∀ key, Timed (c.getWithRevision key) (past key) (b.sequenceOf key) (times key)) →
    SafeRun c past calls →
    ∃ ρ : Renaming, (∀ key, Numbers (times key) (past key).used (b.sequenceOf key) (ρ key)) ∧
      natsReplies b (calls.map (Call.rename ρ)) =
        List.zipWith (Call.renameReply ρ) calls (memoryReplies c calls) := by
  induction calls with
  | nil =>
      intro c b past times _ htimed _
      choose ρ hρ using fun key => (htimed key).ordered.exists_numbers (htimed key).used
      exact ⟨ρ, hρ, rfl⟩
  | cons head calls ih =>
      intro c b past times hlinked htimed hsafe
      cases head with
      | listKeys keyPrefix =>
          obtain ⟨ρ, hρ, hreplies⟩ := ih c b past times hlinked htimed hsafe
          exact ⟨ρ, hρ, (replies_listKeys hlinked).mpr hreplies⟩
      | on key call =>
          obtain ⟨hcall, hrest⟩ := hsafe
          have hnext := hlinked.next_sequence key
          have hkey := (htimed key).after hcall hnext
          obtain ⟨ρ, hρ, hreplies⟩ := ih _ _ _
            (Function.update times key (timesAfter (c.getWithRevision key)
              (call.pastAfter (c.getWithRevision key) (past key)) (b.lastSequence + 1) (times key)
              (call.written (c.getWithRevision key))))
            (hlinked.next key call) (by
              intro k
              rw [onMemory_entry]
              rcases eq_or_ne k key with rfl | hk
              · rw [if_pos rfl, Function.update_self, Function.update_self, sequenceOf_write]
                exact hkey
              · rw [if_neg hk, Function.update_of_ne hk, Function.update_of_ne hk,
                  sequenceOf_write_ne hk]
                exact htimed k) hrest
          have hnumbers := hρ key
          rw [Function.update_self, Function.update_self, sequenceOf_write] at hnumbers
          have hmatch := (htimed key).matches hcall hnext hnumbers
          refine ⟨ρ, ?_, replies_cons.mpr ⟨?_, ?_⟩⟩
          · intro k
            rcases eq_or_ne k key with rfl | hk
            · exact (htimed k).numbers hnext hnumbers
            · have hother := hρ k
              rw [Function.update_of_ne hk, Function.update_of_ne hk, sequenceOf_write_ne hk]
                at hother
              exact hother
          · exact (reply_iff hlinked.numbered (hlinked.related key)).mpr hmatch
          · rw [onNats_bucket hlinked.numbered (hlinked.related key) hmatch]
            exact hreplies

/-- A run with the same answers was one of safe calls. -/
theorem safe_of_replies (hρ : ∀ key, StrictMono (ρ key) ∧ ρ key 0 = 0) (calls : List Call) :
    ∀ (c : MemoryCache Bytes) (b : Bucket) (past : String → Past), Linked c b past →
    (∀ key, Held (ρ key) (c.getWithRevision key) (past key) (b.sequenceOf key)) →
    natsReplies b (calls.map (Call.rename ρ)) =
      List.zipWith (Call.renameReply ρ) calls (memoryReplies c calls) →
    SafeRun c past calls := by
  induction calls with
  | nil =>
      intro c b past _ _ _
      trivial
  | cons head calls ih =>
      intro c b past hlinked hheld hreplies
      cases head with
      | listKeys keyPrefix =>
          exact ih c b past hlinked hheld ((replies_listKeys hlinked).mp hreplies)
      | on key call =>
          obtain ⟨hreply, hrest⟩ := replies_cons.mp hreplies
          have hrel := hlinked.related key
          have hmatch := (reply_iff hlinked.numbered hrel).mp hreply
          rw [onNats_bucket hlinked.numbered hrel hmatch] at hrest
          refine ⟨(hheld key).safe (hρ key).1 hmatch, ih _ _ _ (hlinked.next key call) ?_ hrest⟩
          intro k
          rw [onMemory_entry]
          rcases eq_or_ne k key with rfl | hk
          · rw [if_pos rfl, Function.update_self, sequenceOf_write]
            exact (hheld k).after (hρ k).1 (hρ k).2 (hlinked.next_sequence k) hmatch
          · rw [if_neg hk, Function.update_of_ne hk, sequenceOf_write_ne hk]
            exact hheld k

/-! ### From the start -/

variable {history : Nat}

theorem linked_new : Linked (.withHistory history) .new fun _ => .new :=
  ⟨.new, fun _ => .never _ rfl⟩

theorem timed_new : Timed none .new 0 [0] := by
  refine ⟨⟨List.pairwise_singleton .., fun x hx => (List.mem_singleton.mp hx).le⟩, rfl, le_refl _,
    Nat.one_pos, fun _ => rfl, fun _ => rfl, ?_⟩
  intro value cur hcur
  cases hcur

/-- **When the two caches agree.**  The answers to a sequence of calls are the
same, up to a renaming of the revisions that keeps their order, if and only if
each of the calls is safe where it is made. -/
theorem agree_iff (history : Nat) (calls : List Call) :
    Agree (.withHistory history) .new calls ↔
      SafeRun (.withHistory history) (fun _ => .new) calls := by
  constructor
  · rintro ⟨ρ, hρ, hreplies⟩
    refine safe_of_replies hρ calls _ _ _ linked_new ?_ hreplies
    intro key
    refine ⟨?_, le_refl _, fun hne => absurd rfl hne⟩
    show ρ key 0 ≤ 0
    rw [(hρ key).2]
  · intro hsafe
    obtain ⟨ρ, hρ, hreplies⟩ := exists_renaming calls _ _ _ (fun _ => [0]) linked_new
      (fun _ => timed_new) hsafe
    refine ⟨ρ, fun key => ⟨(hρ key).mono, ?_⟩, hreplies⟩
    have hzero := (hρ key).fixed 0 (Nat.zero_le _)
    exact (Option.some.inj hzero).symm

/-- A key that was deleted can be created again in memory only. -/
theorem created_again : ¬ Agree (.withHistory 0) .new
    [.on "lease" (.create [1]), .on "lease" .delete, .on "lease" (.create [2])] := by
  rintro ⟨ρ, -, hreplies⟩
  have hthird := congrArg (fun replies => replies[2]?) hreplies
  change some (Reply.error .alreadyExists) = some (Reply.revision (ρ "lease" 1)) at hthird
  cases hthird

end Runs

end Flowgen.Cache
