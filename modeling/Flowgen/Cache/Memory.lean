/-
# `Flowgen.Cache.Memory` — the in-memory cache (`core/src/cache/memory.rs`)

A `MemoryCache` keeps the revision of a key in the entry itself.  An erased
key loses its revision with its entry, and the next write starts again at one.
The same revision can then stand for two different values, which is what a
compare-and-swap on revisions must exclude.

What an operation does to one key is one of three effects: none, a write, or
an erasure (`effect`).  The revision follows the effects, and nothing else
(`getRevision_apply`); `sinceErase` counts the writes since the last erasure.
With these, `cas_sound_iff` says after which histories a compare-and-swap may
be trusted.

DashMap holds the lock of an entry over each operation, so a history is the
list of operations in the order in which they took their locks.
-/
import Flowgen.Cache.Basic

namespace Flowgen.Cache

/-- Value, revision and retained history, oldest first. -/
structure CacheEntry (B : Type) where
  value : B
  revision : Nat
  history : List B
deriving DecidableEq

/-- A registered watcher: the key prefix it subscribed to, whether its receiver
is gone, and what was sent to it. -/
structure Watcher (B : Type) where
  keyPrefix : String
  closed : Bool
  sent : List (WatchEvent B)

structure MemoryCache (B : Type) where
  data : AList fun _ : String => CacheEntry B
  watchers : List (Watcher B)
  history : Nat

namespace MemoryCache

variable {B : Type}

/-- `MemoryCache::with_history`. -/
def withHistory (history : Nat) : MemoryCache B where
  data := ∅
  watchers := []
  history := history

def pushHistory (history : List B) (value : B) (cap : Nat) : List B :=
  if cap = 0 then history
  else if history.length = cap then history.tail ++ [value]
  else history ++ [value]

/-- Sends an event to the watchers of a prefix of its key, and drops the
watchers whose receiver is gone. -/
def broadcast (c : MemoryCache B) (event : WatchEvent B) : MemoryCache B :=
  { c with
    watchers := (c.watchers.filter (!·.closed)).map fun w =>
      if event.key.startsWith w.keyPrefix then { w with sent := w.sent ++ [event] } else w }

/-! ## The operations -/

def put (c : MemoryCache B) (key : String) (value : B) : MemoryCache B :=
  let entry :=
    match c.data.lookup key with
    | some e =>
        { value := value
          revision := e.revision + 1
          history := pushHistory e.history e.value c.history }
    | none => { value := value, revision := 1, history := [] }
  broadcast { c with data := c.data.insert key entry } (.put key value)

def get (c : MemoryCache B) (key : String) : Option B := (c.data.lookup key).map (·.value)

def delete (c : MemoryCache B) (key : String) : MemoryCache B :=
  broadcast { c with data := c.data.erase key } (.delete key)

def create (c : MemoryCache B) (key : String) (value : B) :
    Except CacheError Nat × MemoryCache B :=
  match c.data.lookup key with
  | some _ => (.error .alreadyExists, c)
  | none =>
      (.ok 1, { c with data := c.data.insert key { value := value, revision := 1, history := [] } })

def update (c : MemoryCache B) (key : String) (value : B) (expectedRevision : Nat) :
    Except CacheError Nat × MemoryCache B :=
  match c.data.lookup key with
  | some e =>
      if e.revision ≠ expectedRevision then
        (.error (.revisionMismatch expectedRevision e.revision), c)
      else
        (.ok (e.revision + 1),
          { c with
            data := c.data.insert key
              { value := value
                revision := e.revision + 1
                history := pushHistory e.history e.value c.history } })
  | none => (.error .notFound, c)

def getWithRevision (c : MemoryCache B) (key : String) : Option (B × Nat) :=
  (c.data.lookup key).map fun e => (e.value, e.revision)

def deleteWithRevision (c : MemoryCache B) (key : String) (expectedRevision : Nat) :
    Except CacheError Unit × MemoryCache B :=
  match c.data.lookup key with
  | some e =>
      if e.revision ≠ expectedRevision then
        (.error (.revisionMismatch expectedRevision e.revision), c)
      else (.ok (), { c with data := c.data.erase key })
  | none => (.error .notFound, c)

def getRevision (c : MemoryCache B) (key : String) : Option Nat :=
  (c.data.lookup key).map (·.revision)

def listKeys (c : MemoryCache B) (keyPrefix : String) : List String :=
  c.data.keys.filter (·.startsWith keyPrefix)

/-- Registers a watcher; with `includeHistory` it is first sent the retained
values of every key below the prefix, oldest first. -/
def watch (c : MemoryCache B) (keyPrefix : String) (includeHistory : Bool) : MemoryCache B :=
  let replay :=
    if includeHistory then
      (c.data.entries.filter (·.1.startsWith keyPrefix)).flatMap fun e =>
        (e.2.history ++ [e.2.value]).map (.put e.1)
    else []
  { c with watchers := c.watchers ++ [{ keyPrefix := keyPrefix, closed := false, sent := replay }] }

end MemoryCache

/-! ## Histories -/

open MemoryCache

variable {B : Type}

/-- The operations that can change a key. -/
inductive Op (B : Type)
  | put (key : String) (value : B)
  | create (key : String) (value : B)
  | update (key : String) (value : B) (expectedRevision : Nat)
  | delete (key : String)
  | deleteWithRevision (key : String) (expectedRevision : Nat)

/-- The cache after an operation, whether the operation succeeded or not. -/
def Op.apply (c : MemoryCache B) : Op B → MemoryCache B
  | .put key value => c.put key value
  | .create key value => (c.create key value).2
  | .update key value expectedRevision => (c.update key value expectedRevision).2
  | .delete key => c.delete key
  | .deleteWithRevision key expectedRevision => (c.deleteWithRevision key expectedRevision).2

/-- The cache after a history. -/
def MemoryCache.run (c : MemoryCache B) (ops : List (Op B)) : MemoryCache B :=
  ops.foldl Op.apply c

inductive Effect
  | none
  | write
  | erase
deriving DecidableEq

/-- What an operation does to a key: a write or an erasure that took effect. -/
def effect (key : String) (c : MemoryCache B) : Op B → Effect
  | .put k _ => if k = key then .write else .none
  | .create k v => if k = key ∧ (c.create k v).1.isOk then .write else .none
  | .update k v r => if k = key ∧ (c.update k v r).1.isOk then .write else .none
  | .delete k => if k = key ∧ (c.get k).isSome then .erase else .none
  | .deleteWithRevision k r => if k = key ∧ (c.deleteWithRevision k r).1.isOk then .erase else .none

/-- The effects of a history on a key. -/
def effects (key : String) : MemoryCache B → List (Op B) → List Effect
  | _, [] => []
  | c, op :: ops => effect key c op :: effects key (op.apply c) ops

/-- The writes since the last erasure, if there was one. -/
def sinceErase (es : List Effect) : Option Nat :=
  es.foldl (fun acc e =>
    match e with
    | .none => acc
    | .write => acc.map (· + 1)
    | .erase => some 0) none

/-- A compare-and-swap of a key on an expected revision. -/
inductive Cas (B : Type)
  | update (value : B)
  | delete

/-- Whether it succeeds. -/
def Cas.succeeds (c : MemoryCache B) (key : String) (expectedRevision : Nat) : Cas B → Bool
  | .update value => (c.update key value expectedRevision).1.isOk
  | .delete => (c.deleteWithRevision key expectedRevision).1.isOk

/-! ## The revision follows the effects -/

/-- What an effect does to the revision of its key. -/
def Effect.revision (r : Option Nat) : Effect → Option Nat
  | .none => r
  | .write => some (r.getD 0 + 1)
  | .erase => Option.none

variable {c : MemoryCache B} {key k : String} {r : Nat} {v : B}

@[simp] theorem getRevision_broadcast (e : WatchEvent B) :
    (c.broadcast e).getRevision key = c.getRevision key := rfl

theorem getRevision_insert (e : CacheEntry B) :
    ({ c with data := c.data.insert k e } : MemoryCache B).getRevision key =
      if k = key then some e.revision else c.getRevision key := by
  unfold getRevision
  split
  · rename_i h
    subst h
    simp
  · rename_i h
    simp [AList.lookup_insert_ne (Ne.symm h)]

theorem getRevision_erase :
    ({ c with data := c.data.erase k } : MemoryCache B).getRevision key =
      if k = key then none else c.getRevision key := by
  unfold getRevision
  split
  · rename_i h
    subst h
    simp
  · rename_i h
    simp [AList.lookup_erase_ne (Ne.symm h)]

theorem getRevision_eq (c : MemoryCache B) (key : String) :
    c.getRevision key = (c.data.lookup key).map (·.revision) := rfl

theorem create_isOk : (c.create key v).1.isOk = (c.getRevision key).isNone := by
  rw [create]
  rw [getRevision_eq]
  cases c.data.lookup key <;> rfl

theorem update_isOk : (c.update key v r).1.isOk = decide (c.getRevision key = some r) := by
  rw [update]
  rw [getRevision_eq]
  cases c.data.lookup key with
  | none => rfl
  | some e =>
      by_cases h : e.revision = r
      · simp [h, Except.isOk, Except.toBool]
      · simp [h, Except.isOk, Except.toBool]

theorem deleteWithRevision_isOk :
    (c.deleteWithRevision key r).1.isOk = decide (c.getRevision key = some r) := by
  rw [deleteWithRevision]
  rw [getRevision_eq]
  cases c.data.lookup key with
  | none => rfl
  | some e =>
      by_cases h : e.revision = r
      · simp [h, Except.isOk, Except.toBool]
      · simp [h, Except.isOk, Except.toBool]

/-- Both kinds of compare-and-swap compare the revision and nothing else. -/
theorem Cas.succeeds_iff (cas : Cas B) :
    cas.succeeds c key r = true ↔ c.getRevision key = some r := by
  cases cas with
  | update value => rw [Cas.succeeds, update_isOk, decide_eq_true_iff]
  | delete => rw [Cas.succeeds, deleteWithRevision_isOk, decide_eq_true_iff]

theorem getRevision_put :
    (c.put k v).getRevision key =
      if k = key then some ((c.getRevision k).getD 0 + 1) else c.getRevision key := by
  rw [put]
  rw [getRevision_broadcast, getRevision_insert, getRevision_eq c k]
  cases c.data.lookup k <;> rfl

theorem getRevision_delete :
    (c.delete k).getRevision key = if k = key then none else c.getRevision key := by
  rw [delete]
  rw [getRevision_broadcast, getRevision_erase]

theorem getRevision_create :
    (c.create k v).2.getRevision key =
      if k = key ∧ (c.getRevision k).isNone then some 1 else c.getRevision key := by
  rw [create]
  rw [getRevision_eq c k]
  cases c.data.lookup k with
  | none => simp [getRevision_insert]
  | some e => simp

theorem getRevision_update :
    (c.update k v r).2.getRevision key =
      if k = key ∧ c.getRevision k = some r then some (r + 1) else c.getRevision key := by
  rw [update]
  rw [getRevision_eq c k]
  cases c.data.lookup k with
  | none => simp
  | some e =>
      by_cases h : e.revision = r
      · simp [h, getRevision_insert]
      · simp [h]

theorem getRevision_deleteWithRevision :
    (c.deleteWithRevision k r).2.getRevision key =
      if k = key ∧ c.getRevision k = some r then none else c.getRevision key := by
  rw [deleteWithRevision]
  rw [getRevision_eq c k]
  cases c.data.lookup k with
  | none => simp
  | some e =>
      by_cases h : e.revision = r
      · simp [h, getRevision_erase]
      · simp [h]

/-- The revision of a key after an operation is that before, changed by the
effect the operation had on it. -/
theorem getRevision_apply (op : Op B) :
    (op.apply c).getRevision key = (effect key c op).revision (c.getRevision key) := by
  cases op with
  | put k v =>
      rw [Op.apply, getRevision_put, effect]
      by_cases h : k = key
      · subst h
        simp [Effect.revision]
      · simp [h, Effect.revision]
  | create k v =>
      rw [Op.apply, getRevision_create, effect, create_isOk]
      by_cases h : k = key ∧ (c.getRevision k).isNone
      · obtain ⟨rfl, hn⟩ := h
        simp [Effect.revision, Option.isNone_iff_eq_none.mp hn]
      · rw [if_neg h, if_neg h, Effect.revision]
  | update k v r =>
      rw [Op.apply, getRevision_update, effect, update_isOk]
      by_cases h : k = key ∧ c.getRevision k = some r
      · obtain ⟨rfl, hr⟩ := h
        simp [hr, Effect.revision]
      · simp [h, Effect.revision]
  | delete k =>
      rw [Op.apply, getRevision_delete, effect]
      have hget : (c.get k).isSome = (c.getRevision k).isSome := by
        simp [MemoryCache.get, getRevision]
      rw [hget]
      by_cases h : k = key
      · subst h
        cases hr : c.getRevision k <;> simp [Effect.revision]
      · simp [h, Effect.revision]
  | deleteWithRevision k r =>
      rw [Op.apply, getRevision_deleteWithRevision, effect, deleteWithRevision_isOk]
      by_cases h : k = key ∧ c.getRevision k = some r
      · obtain ⟨rfl, hr⟩ := h
        simp [hr, Effect.revision]
      · simp [h, Effect.revision]

theorem getRevision_run (key : String) : ∀ (ops : List (Op B)) (c : MemoryCache B),
    (c.run ops).getRevision key = (effects key c ops).foldl Effect.revision (c.getRevision key)
  | [], _ => rfl
  | op :: ops, c => by
      rw [effects, List.foldl_cons, ← getRevision_apply op]
      exact getRevision_run key ops (op.apply c)

/-! ## What the revision tells about the effects -/

/-- How a revision that started at `r` stands after some effects. -/
inductive Stands (r : Nat) : List Effect → Option Nat → Option Nat → Prop
  | kept {es : List Effect} (writes : Nat) (h : writes = 0 ↔ ∀ e ∈ es, e = .none) :
      Stands r es none (some (r + writes))
  | erased {es : List Effect} (h : ∃ e ∈ es, e ≠ .none) : Stands r es (some 0) none
  | rewritten {es : List Effect} (writes : Nat) (h : ∃ e ∈ es, e ≠ .none) :
      Stands r es (some (writes + 1)) (some (writes + 1))

theorem stands_snoc {es : List Effect} {acc rev : Option Nat} (h : Stands r es acc rev)
    (e : Effect) :
    Stands r (es ++ [e])
      (match e with
        | .none => acc
        | .write => acc.map (· + 1)
        | .erase => some 0)
      (e.revision rev) := by
  have hmore : (∃ e ∈ es, e ≠ Effect.none) → ∃ e' ∈ es ++ [e], e' ≠ .none :=
    fun ⟨e', he', hne⟩ => ⟨e', List.mem_append_left _ he', hne⟩
  have hlast : e ≠ .none → ∃ e' ∈ es ++ [e], e' ≠ .none :=
    fun hne => ⟨e, by simp, hne⟩
  cases e with
  | none =>
      cases h with
      | kept writes h => exact .kept writes (by simpa [or_imp, forall_and] using h)
      | erased h => exact .erased (hmore h)
      | rewritten writes h => exact .rewritten writes (hmore h)
  | write =>
      cases h with
      | kept writes h => exact .kept (writes + 1) (by simp)
      | erased h => exact .rewritten 0 (hlast (by simp))
      | rewritten writes h => exact .rewritten (writes + 1) (hlast (by simp))
  | erase => exact .erased (hlast (by simp))

theorem stands (r : Nat) (es : List Effect) :
    Stands r es (sinceErase es) (es.foldl Effect.revision (some r)) := by
  induction es using List.reverseRecOn with
  | nil => exact .kept 0 (by simp)
  | append_singleton es e ih =>
      rw [sinceErase, List.foldl_append, List.foldl_append]
      exact stands_snoc ih e

/-- No key is stored at revision zero. -/
theorem revision_pos {es : List Effect} : es.foldl Effect.revision none ≠ some 0 := by
  induction es using List.reverseRecOn with
  | nil => simp
  | append_singleton es e ih =>
      rw [List.foldl_append]
      cases e with
      | none => exact ih
      | write => simp [Effect.revision]
      | erase => simp [Effect.revision]

/-! ## When a compare-and-swap may be trusted -/

/-- A compare-and-swap on a revision observed after `before` succeeds after
`during` only if `during` did nothing to the key, exactly if `during` did not
erase the key and then write it as many times as that revision says. -/
theorem cas_sound_iff (history : Nat) (before during : List (Op B)) (key : String) (r : Nat)
    (cas : Cas B) (hr : ((withHistory history).run before).getRevision key = some r) :
    (cas.succeeds (((withHistory history).run before).run during) key r = true →
        ∀ e ∈ effects key ((withHistory history).run before) during, e = .none) ↔
      sinceErase (effects key ((withHistory history).run before) during) ≠ some r := by
  have hpos : r ≠ 0 := by
    rintro rfl
    rw [getRevision_run] at hr
    exact revision_pos hr
  rw [Cas.succeeds_iff, getRevision_run, hr]
  generalize effects key ((withHistory history).run before) during = es
  have hst := stands r es
  generalize sinceErase es = acc at hst ⊢
  generalize es.foldl Effect.revision (some r) = rev at hst ⊢
  cases hst with
  | kept writes h =>
      simp only [Option.some.injEq, Nat.add_eq_left]
      exact ⟨fun _ => by simp, fun _ => h.mp⟩
  | erased h =>
      simp only [reduceCtorEq, false_implies, true_iff, ne_eq, Option.some.injEq]
      exact hpos.symm
  | rewritten writes h =>
      simp only [Option.some.injEq, ne_eq]
      obtain ⟨e, he, hne⟩ := h
      exact ⟨fun hall heq => hne (hall heq e he), fun hn heq => absurd heq hn⟩

/-- A revision is observed by reading it, or by writing the key. -/
theorem observed_create (h : (c.create key v).1 = .ok r) :
    (c.create key v).2.getRevision key = some r := by
  have hok : (c.getRevision key).isNone = true := by rw [← create_isOk (v := v), h]; rfl
  rw [getRevision_create, if_pos ⟨rfl, hok⟩]
  rw [create] at h
  split at h
  · cases h
  · cases h
    rfl

theorem observed_update {r' : Nat} (h : (c.update key v r).1 = .ok r') :
    (c.update key v r).2.getRevision key = some r' := by
  rw [update] at h ⊢
  split at h
  · rename_i e he
    split at h
    · cases h
    · rename_i hne
      cases h
      simp [hne, getRevision_insert]
  · cases h

theorem observed_get {value : B} (h : c.getWithRevision key = some (value, r)) :
    c.getRevision key = some r := by
  rw [getWithRevision] at h
  rw [getRevision]
  cases hl : c.data.lookup key with
  | none => simp [hl] at h
  | some e =>
      simp only [hl, Option.map_some, Option.some.injEq, Prod.mk.injEq] at h
      simp [h.2]

/-- A key that is only written and updated. -/
theorem cas_sound_without_erase :
    let before := [Op.put "lease" 1]
    let during := [Op.put "lease" 2, .delete "other", .update "lease" 3 2]
    let c := (withHistory 4 : MemoryCache Nat).run before
    (Cas.update 9).succeeds (c.run during) "lease" 1 = true →
      ∀ e ∈ effects "lease" c during, e = .none :=
  (cas_sound_iff 4 [.put "lease" 1] [.put "lease" 2, .delete "other", .update "lease" 3 2]
    "lease" 1 (Cas.update 9) (by decide)).mpr (by decide)

/-- Revision 1 is read, the key is deleted and created again, and an update
on revision 1 succeeds. -/
theorem cas_after_recreate :
    let before := [Op.put "lease" 1]
    let during := [Op.delete "lease", .create "lease" 2]
    let c := (withHistory 4 : MemoryCache Nat).run before
    c.getRevision "lease" = some 1 ∧ ((c.run during).update "lease" 3 1).1 = .ok 2 ∧
      (Cas.update 3).succeeds (c.run during) "lease" 1 = true ∧
      (Cas.delete : Cas Nat).succeeds (c.run during) "lease" 1 = true ∧
      effects "lease" c during = [.erase, .write] := by
  decide

end Flowgen.Cache
