/-
# `Flowgen.Cache.History` — the values a watcher is replayed (`core/src/cache/memory.rs`)

An entry of the memory cache retains the values that were overwritten, up to the capacity,
and loses them with the key.  Three operations write an entry and two erase it, and some of
them fail; `written` is what has been written to a key since it was last created, whatever
the operations were.  Of these values the last is the entry's own and the ones before it are
in its history, as far as they fit (`recorded_apply`), and this is what a watcher with
history is sent (`watch_replays`).
-/
import Flowgen.Cache.Watch
import Flowgen.Lib.Ring

namespace Flowgen.Cache

open MemoryCache Flowgen.Lib

variable {B : Type}

/-- What is done to a cache: an operation on a key, a subscription, or the end of one, of
which the cache is not told. -/
inductive Access (B : Type)
  | op (operation : Op B)
  | watch (keyPrefix : String) (includeHistory : Bool)
  | hangUp (watcher : Nat)

def Access.apply (c : MemoryCache B) : Access B → MemoryCache B
  | .op operation => operation.apply c
  | .watch keyPrefix includeHistory => c.watch keyPrefix includeHistory
  | .hangUp watcher =>
      { c with watchers := c.watchers.modify watcher fun w => { w with closed := true } }

/-- The values that have been written to a key since it was created, after an operation. -/
def Op.written (key : String) (c : MemoryCache B) (values : List B) (op : Op B) : List B :=
  match effect key c op with
  | .none => values
  | .write => values ++ op.leaves.toList
  | .erase => []

/-- The cache after some accesses, and what has been written to a key since it was last
created. -/
def recordFrom (key : String) : MemoryCache B → List B → List (Access B) → MemoryCache B × List B
  | c, values, [] => (c, values)
  | c, values, .op operation :: accesses =>
      recordFrom key (operation.apply c) (operation.written key c values) accesses
  | c, values, access :: accesses => recordFrom key (access.apply c) values accesses

def record (history : Nat) (key : String) (accesses : List (Access B)) : MemoryCache B × List B :=
  recordFrom key (withHistory history) [] accesses

/-! ## What is retained -/

/-- The entry of a key that these values were written to. -/
inductive Recorded (history : Nat) : List B → Option (CacheEntry B) → Prop
  | absent : Recorded history [] none
  | entry {superseded : List B} {e : CacheEntry B}
      (h : e.history = superseded.rtake history) :
      Recorded history (superseded ++ [e.value]) (some e)

/-- An entry with a value written over it. -/
def overwrite (history : Nat) (entry : Option (CacheEntry B)) (value : B) : CacheEntry B :=
  match entry with
  | some e =>
      { value := value
        revision := e.revision + 1
        history := pushHistory e.history e.value history }
  | none => { value := value, revision := 1, history := [] }

/-- The history is a ring, or has no room at all. -/
theorem pushHistory_rtake (superseded : List B) (value : B) (history : Nat) :
    pushHistory (superseded.rtake history) value history =
      (superseded ++ [value]).rtake history := by
  rw [pushHistory]
  split
  · rename_i hzero
    rw [hzero, List.rtake_zero, List.rtake_zero]
  · rename_i hne
    rw [← Ring.push_rtake (Nat.pos_of_ne_zero hne), Ring.push]
    split
    · rfl
    · rfl

theorem Recorded.overwrite {history : Nat} {values : List B} {entry : Option (CacheEntry B)}
    (h : Recorded history values entry) (value : B) :
    Recorded history (values ++ [value]) (some (Cache.overwrite history entry value)) := by
  cases h with
  | absent =>
      refine @Recorded.entry B history [] (Cache.overwrite history none value) ?_
      rw [List.rtake_nil]
      rfl
  | @entry superseded e h =>
      refine .entry (e := Cache.overwrite history (some e) value) ?_
      rw [← pushHistory_rtake, ← h]
      rfl

/-! ## What an operation does to an entry -/

variable {c : MemoryCache B} {key k : String} {values : List B}

/-- Nothing, a write over it, or its erasure; which of them is its effect. -/
inductive Changes (key : String) (c : MemoryCache B) (op : Op B) : Prop
  | none (h : effect key c op = .none)
      (hlookup : (op.apply c).data.lookup key = c.data.lookup key)
  | write (value : B) (h : effect key c op = .write) (hleaves : op.leaves = some value)
      (hlookup : (op.apply c).data.lookup key =
        some (overwrite c.history (c.data.lookup key) value))
  | erase (h : effect key c op = .erase) (hlookup : (op.apply c).data.lookup key = Option.none)

theorem changes_put (value : B) : Changes key c (.put k value) := by
  by_cases hk : k = key
  · subst hk
    refine .write value (if_pos rfl) rfl ?_
    simp only [Op.apply, MemoryCache.put, MemoryCache.broadcast, AList.lookup_insert]
    cases c.data.lookup k with
    | none => rfl
    | some e => rfl
  · refine .none (if_neg hk) ?_
    simp only [Op.apply, MemoryCache.put, MemoryCache.broadcast,
      AList.lookup_insert_ne (Ne.symm hk)]

theorem changes_create (value : B) : Changes key c (.create k value) := by
  cases hlookup : c.data.lookup k with
  | some e =>
      refine .none ?_ ?_
      · rw [effect, MemoryCache.create, hlookup]
        exact if_neg fun h => by cases h.2
      · simp only [Op.apply, MemoryCache.create, hlookup]
  | none =>
      by_cases hk : k = key
      · subst hk
        refine .write value ?_ rfl ?_
        · rw [effect, MemoryCache.create, hlookup]
          exact if_pos ⟨rfl, rfl⟩
        · simp only [Op.apply, MemoryCache.create, hlookup, AList.lookup_insert, overwrite]
      · refine .none (if_neg fun h => hk h.1) ?_
        simp only [Op.apply, MemoryCache.create, hlookup, AList.lookup_insert_ne (Ne.symm hk)]

theorem changes_update (value : B) (r : Nat) : Changes key c (.update k value r) := by
  cases hlookup : c.data.lookup k with
  | none =>
      refine .none ?_ ?_
      · rw [effect, MemoryCache.update, hlookup]
        exact if_neg fun h => by cases h.2
      · simp only [Op.apply, MemoryCache.update, hlookup]
  | some e =>
      by_cases hr : e.revision = r
      · by_cases hk : k = key
        · subst hk
          refine .write value ?_ rfl ?_
          · simp only [effect, MemoryCache.update, hlookup, hr, ne_eq, not_true_eq_false, if_false]
            exact if_pos ⟨trivial, rfl⟩
          · simp only [Op.apply, MemoryCache.update, hlookup, hr, ne_eq, not_true_eq_false, if_false,
              AList.lookup_insert, overwrite]
        · refine .none (if_neg fun h => hk h.1) ?_
          simp only [Op.apply, MemoryCache.update, hlookup, hr, ne_eq, not_true_eq_false, if_false,
            AList.lookup_insert_ne (Ne.symm hk)]
      · refine .none ?_ ?_
        · simp only [effect, MemoryCache.update, hlookup, ne_eq, hr, not_false_eq_true, if_true]
          exact if_neg fun h => by cases h.2
        · simp only [Op.apply, MemoryCache.update, hlookup, ne_eq, hr, not_false_eq_true, if_true]

theorem changes_delete : Changes key c (.delete k) := by
  by_cases hk : k = key
  · subst hk
    cases hlookup : c.data.lookup k with
    | some e =>
        refine .erase ?_ ?_
        · simp only [effect, MemoryCache.get, hlookup, Option.map_some]
          exact if_pos ⟨trivial, rfl⟩
        · simp only [Op.apply, MemoryCache.delete, MemoryCache.broadcast, AList.lookup_erase]
    | none =>
        refine .none ?_ ?_
        · simp only [effect, MemoryCache.get, hlookup, Option.map_none]
          exact if_neg fun h => by cases h.2
        · simp only [Op.apply, MemoryCache.delete, MemoryCache.broadcast, AList.lookup_erase, hlookup]
  · refine .none (if_neg fun h => hk h.1) ?_
    simp only [Op.apply, MemoryCache.delete, MemoryCache.broadcast, AList.lookup_erase_ne (Ne.symm hk)]

theorem changes_deleteWithRevision (r : Nat) : Changes key c (.deleteWithRevision k r) := by
  cases hlookup : c.data.lookup k with
  | none =>
      refine .none ?_ ?_
      · rw [effect, MemoryCache.deleteWithRevision, hlookup]
        exact if_neg fun h => by cases h.2
      · simp only [Op.apply, MemoryCache.deleteWithRevision, hlookup]
  | some e =>
      by_cases hr : e.revision = r
      · by_cases hk : k = key
        · subst hk
          refine .erase ?_ ?_
          · simp only [effect, MemoryCache.deleteWithRevision, hlookup, hr, ne_eq, not_true_eq_false,
              if_false]
            exact if_pos ⟨trivial, rfl⟩
          · simp only [Op.apply, MemoryCache.deleteWithRevision, hlookup, hr, ne_eq, not_true_eq_false,
              if_false, AList.lookup_erase]
        · refine .none (if_neg fun h => hk h.1) ?_
          simp only [Op.apply, MemoryCache.deleteWithRevision, hlookup, hr, ne_eq, not_true_eq_false,
            if_false, AList.lookup_erase_ne (Ne.symm hk)]
      · refine .none ?_ ?_
        · simp only [effect, MemoryCache.deleteWithRevision, hlookup, ne_eq, hr,
            not_false_eq_true, if_true]
          exact if_neg fun h => by cases h.2
        · simp only [Op.apply, MemoryCache.deleteWithRevision, hlookup, ne_eq, hr, not_false_eq_true,
            if_true]

theorem changes (key : String) (c : MemoryCache B) (op : Op B) : Changes key c op := by
  cases op with
  | put k value => exact changes_put value
  | create k value => exact changes_create value
  | update k value r => exact changes_update value r
  | delete k => exact changes_delete
  | deleteWithRevision k r => exact changes_deleteWithRevision r

theorem history_apply (op : Op B) : (op.apply c).history = c.history := by
  cases op with
  | put k value => rfl
  | create k value =>
      simp only [Op.apply, MemoryCache.create]
      split <;> rfl
  | update k value r =>
      simp only [Op.apply, MemoryCache.update]
      split
      · split <;> rfl
      · rfl
  | delete k => rfl
  | deleteWithRevision k r =>
      simp only [Op.apply, MemoryCache.deleteWithRevision]
      split
      · split <;> rfl
      · rfl

/-- An operation leaves in the entry what has been written to the key. -/
theorem recorded_apply (h : Recorded c.history values (c.data.lookup key)) (op : Op B) :
    Recorded (op.apply c).history (op.written key c values) ((op.apply c).data.lookup key) := by
  rw [history_apply, Op.written]
  cases changes key c op with
  | none heffect hlookup =>
      rw [heffect, hlookup]
      exact h
  | write value heffect hleaves hlookup =>
      rw [heffect, hlookup, hleaves]
      exact h.overwrite value
  | erase heffect hlookup =>
      rw [heffect, hlookup]
      exact .absent

theorem recorded_recordFrom (accesses : List (Access B)) :
    ∀ {c : MemoryCache B} {values : List B}, Recorded c.history values (c.data.lookup key) →
      (recordFrom key c values accesses).1.history = c.history ∧
        Recorded c.history (recordFrom key c values accesses).2
          ((recordFrom key c values accesses).1.data.lookup key) := by
  induction accesses with
  | nil => exact fun h => ⟨rfl, h⟩
  | cons access accesses ih =>
      intro c values h
      cases access with
      | op operation =>
          have hstep := ih (recorded_apply h operation)
          rw [history_apply] at hstep
          exact hstep
      | watch keyPrefix includeHistory =>
          exact ih (c := (Access.watch keyPrefix includeHistory).apply c) h
      | hangUp watcher => exact ih (c := (Access.hangUp watcher).apply c) h

/-! ## What is replayed -/

/-- Of the entries of a map, the events of a key come from its own. -/
theorem filter_replay (entries : List (Σ _ : String, CacheEntry B)) (hnd : entries.NodupKeys) :
    (replay entries).filter (·.key = key) =
      ((entries.dlookup key).elim [] fun e => (e.history ++ [e.value]).map (.put key)) := by
  induction entries with
  | nil => rfl
  | cons entry entries ih =>
      obtain ⟨k, e⟩ := entry
      have hnd' := List.nodupKeys_cons.mp hnd
      have hcons : replay (⟨k, e⟩ :: entries) =
        (e.history ++ [e.value]).map (.put k) ++ replay entries := rfl
      rw [hcons, List.filter_append, ih hnd'.2]
      by_cases hk : k = key
      · subst hk
        rw [List.dlookup_cons_eq, List.dlookup_eq_none.mpr hnd'.1, Option.elim_none,
          List.append_nil, Option.elim_some, List.filter_eq_self]
        intro event hevent
        obtain ⟨value, _, rfl⟩ := List.mem_map.mp hevent
        exact decide_eq_true rfl
      · rw [List.dlookup_cons_ne _ _ (Ne.symm hk), List.filter_eq_nil_iff.mpr, List.nil_append]
        intro event hevent
        obtain ⟨value, _, rfl⟩ := List.mem_map.mp hevent
        exact mt of_decide_eq_true hk

/-- Whatever has been done to the cache, a watcher with history is sent, of each key below
its prefix, the last of the values written over since the key was last created, as many as
there is room for and oldest first, and then the value the key has. -/
theorem watch_replays (history : Nat) (accesses : List (Access B)) (keyPrefix key : String) :
    let cache := (record history key accesses).1
    let written := (record history key accesses).2
    ∃ watcher, (cache.watch keyPrefix true).watchers.getLast? = some watcher ∧
      watcher.sent.filter (·.key = key) =
        if key.startsWith keyPrefix then
          (written.dropLast.rtake (min history (written.length - 1)) ++
            written.getLast?.toList).map (.put key)
        else [] := by
  intro cache written
  obtain ⟨_, hrecorded⟩ := @recorded_recordFrom B key accesses (withHistory history) [] .absent
  have hsent : (replay (cache.data.entries.filter (·.1.startsWith keyPrefix))).filter
      (·.key = key) =
      if key.startsWith keyPrefix then
        (written.dropLast.rtake (min history (written.length - 1)) ++
          written.getLast?.toList).map (.put key)
      else [] := by
    rw [filter_replay _ (cache.data.nodupKeys.sublist List.filter_sublist), dlookup_filter]
    split
    · change Recorded history written (cache.data.lookup key) at hrecorded
      generalize cache.data.lookup key = entry at hrecorded
      generalize written = values at hrecorded
      cases hrecorded with
      | absent =>
          rw [Option.elim_none, List.dropLast_nil, List.rtake_nil]
          rfl
      | @entry superseded e h =>
          rw [Option.elim_some, List.dropLast_concat, List.getLast?_concat, List.length_append,
            List.length_singleton, Nat.add_sub_cancel, Ring.rtake_min_length, h]
          rfl
    · rfl
  exact ⟨_, List.getLast?_concat, hsent⟩

/-- Room for two values; the first value of the key was lost with it. -/
example :
    let accesses : List (Access Nat) :=
      [.op (.put "k" 1), .op (.delete "k"), .op (.create "k" 2), .op (.create "k" 3),
        .watch "" true, .op (.update "k" 4 1), .op (.put "other" 9), .op (.put "k" 5),
        .op (.update "k" 6 1), .op (.put "k" 7)]
    (record 2 "k" accesses).2 = [2, 4, 5, 7] ∧
      (((record 2 "k" accesses).1.watch "" true).watchers.getLast?.map fun watcher =>
          watcher.sent.filter (·.key = "k")) = some [.put "k" 4, .put "k" 5, .put "k" 7] := by
  decide +kernel

end Flowgen.Cache
