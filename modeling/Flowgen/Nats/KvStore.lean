/-
# `Flowgen.Nats.KvStore` — a list of entries mirrored to a key-value bucket

Translated from the put of entries of `nats/src/kv_store.rs`: `prepare_entries`,
`collect_keys` and `handle_put_entries`.

A pruning put makes the keys under its prefix those of its entries: it writes
the values that changed and then deletes what it has found there and not
written.  Listing, writing and deleting are separate requests, each of which
may fail and end the operation, so a failed one leaves its work half done; the
retry is a new operation that starts with a new listing.  All of them take one
lock before they list, so the bucket of an operation that holds it is its own.

`putEntries` is therefore a sequential program, proved right for a bucket that
nobody else touches (`putEntries_ends`), and the operations of a handler are a
machine whose lock makes it so.
-/
import Flowgen.Json
import Flowgen.Lib.Fallible
import Flowgen.Lib.Machine
import Flowgen.Lib.Prog
import Flowgen.Lib.SortedMap

namespace Flowgen.Nats

open Flowgen.Lib

/-- What a put of entries reads of the rendered configuration. -/
structure KvStore where
  keyPrefix : Option String
  prune : Bool
  allowEmpty : Bool

structure Entry where
  key : String
  value : Json

inductive Error
  | missingKeyPrefix
  | unsafePrunePrefix (start : String)
  | invalidEntries
  | emptyPrune (start : String)
  | invalidEntryKey (key : String)
  | kvKeys
  | kvKeyStream
  | kvEntry
  | kvPut
  | kvDelete
deriving DecidableEq

/-- `is_permanent`, for these errors. -/
def Error.isPermanent : Error → Bool
  | .missingKeyPrefix | .unsafePrunePrefix _ | .invalidEntries | .emptyPrune _
  | .invalidEntryKey _ => true
  | .kvKeys | .kvKeyStream | .kvEntry | .kvPut | .kvDelete => false

structure PreparedEntries where
  start : String
  entries : List (String × String)
deriving DecidableEq

/-- `serde_json::from_value` of an `Entry`. -/
def Entry.decode (data : Json) : Option Entry :=
  match data.structFields ["key", "value"] with
  | some [.string key, value] => some ⟨key, value⟩
  | _ => none

/-- `serde_json::from_value` of `Entries`. -/
def decodeEntries (data : Json) : Option (List Entry) :=
  match data.structFields ["entries"] with
  | some [entries] => Json.decodeVec Entry.decode entries
  | _ => none

/-- `is_valid_key`. -/
def isValidKey (key : String) : Bool :=
  !key.isEmpty && key.toList.head? != some '.' && key.toList.getLast? != some '.' &&
    key.toList.all fun c => c.isAlphanum || ['-', '/', '_', '=', '.'].contains c

/-- What is stored for a value: a string as it is, other JSON as its text. -/
def storedText (jsonText : Json → String) : Json → String
  | .string value => value
  | other => jsonText other

/-- The loop over the entries in `prepare_entries`. -/
def composeEntries (jsonText : Json → String) (start : String) :
    List Entry → Except Error (List (String × String))
  | [] => .ok []
  | entry :: entries =>
      let key := start ++ entry.key
      if isValidKey key then
        (composeEntries jsonText start entries).map fun rest =>
          (key, storedText jsonText entry.value) :: rest
      else .error (.invalidEntryKey key)

/-- `prefix.ends_with(['.', '/'])`. -/
def endsWithSeparator (start : String) : Bool :=
  start.toList.getLast? == some '.' || start.toList.getLast? == some '/'

/-- `prepare_entries`; `jsonText` is the text of a JSON value. -/
def prepareEntries (jsonText : Json → String) (config : KvStore) (data : Json) :
    Except Error PreparedEntries :=
  match config.keyPrefix with
  | none => .error .missingKeyPrefix
  | some start =>
      if config.prune && !endsWithSeparator start then .error (.unsafePrunePrefix start)
      else
        match decodeEntries data with
        | none => .error .invalidEntries
        | some entries =>
            if config.prune && entries.isEmpty && !config.allowEmpty then
              .error (.emptyPrune start)
            else (composeEntries jsonText start entries).map fun entries => ⟨start, entries⟩

/-! ## The operation -/

abbrev Bytes := List UInt8

/-- The bucket: its live keys and their values. -/
abbrev Bucket := SortedMap String Bytes

def asBytes (value : String) : Bytes := value.toUTF8.toList

/-- The requests of an operation. -/
inductive Req
  | keys
  | get (key : String)
  | put (key : String) (value : Bytes)
  | delete (key : String)
deriving DecidableEq

/-- What a request that succeeds gives: the stream of keys may still break off. -/
def Req.Reply : Req → Type
  | .keys => List (Except Unit String)
  | .get _ => Option Bytes
  | .put _ _ => Unit
  | .delete _ => Unit

/-- `PutEntriesResult`. -/
structure PutEntriesResult where
  put : List String := []
  deleted : List String := []
  unchanged : Nat := 0
deriving DecidableEq

abbrev Operation := Prog Req Req.Reply (Except Error PutEntriesResult)

def startsWith (start key : String) : Bool := start.toList.isPrefixOf key.toList

/-- `collect_keys`. -/
def collectKeys (start : String) : List (Except Unit String) → Except Error (List String)
  | [] => .ok []
  | .error () :: _ => .error .kvKeyStream
  | .ok key :: stream =>
      (collectKeys start stream).map fun keys => if startsWith start key then key :: keys else keys

/-- The loop that deletes what is stale. -/
def deleteStale : List String → PutEntriesResult → Operation
  | [], result => .ret (.ok result)
  | key :: stale, result =>
      .call (.delete key) fun _ => deleteStale stale { result with deleted := result.deleted ++ [key] }

/-- The keys found that no entry names, in order. -/
def staleKeys (existing wanted : List String) : List String :=
  (existing.dedup.filter fun key => !wanted.contains key).mergeSort

/-- The loop that writes what has changed, and what follows it. -/
def writeEntries (prune : Bool) (existing : List String) :
    List (String × String) → List String → PutEntriesResult → Operation
  | [], wanted, result =>
      if prune then deleteStale (staleKeys existing wanted) result else .ret (.ok result)
  | (key, value) :: entries, wanted, result =>
      let write : Operation :=
        .call (.put key (asBytes value)) fun _ =>
          writeEntries prune existing entries (key :: wanted) { result with put := result.put ++ [key] }
      if existing.contains key then
        .call (.get key) fun (current : Option Bytes) =>
          if current = some (asBytes value) then
            writeEntries prune existing entries (key :: wanted)
              { result with unchanged := result.unchanged + 1 }
          else write
      else write

/-- `handle_put_entries`, once the entries are prepared and the lock is taken. -/
def putEntries (prune : Bool) (prepared : PreparedEntries) : Operation :=
  .call .keys fun stream =>
    match collectKeys prepared.start stream with
    | .error e => .ret (.error e)
    | .ok existing => writeEntries prune existing prepared.entries [] {}

/-! ## The bucket -/

/-- The keys of a stream. -/
def listed (stream : List (Except Unit String)) : List String :=
  stream.filterMap Except.toOption

/-- A listing gives live keys, and all of them unless it breaks off. -/
def Lists (bucket : Bucket) (stream : List (Except Unit String)) : Prop :=
  (∀ key ∈ listed stream, key ∈ bucket.keys) ∧
    ((∃ item ∈ stream, item.isOk = false) ∨ ∀ key ∈ bucket.keys, key ∈ listed stream)

instance (bucket : Bucket) (stream : List (Except Unit String)) :
    Decidable (Lists bucket stream) :=
  inferInstanceAs (Decidable (_ ∧ _))

/-- A request that succeeds. -/
def serve (bucket : Bucket) (stream : List (Except Unit String)) :
    (r : Req) → Option (r.Reply × Bucket)
  | .keys => if Lists bucket stream then some (stream, bucket) else none
  | .get key => some (bucket.find key, bucket)
  | .put key value => some ((), bucket.insert key value)
  | .delete key => some ((), bucket.erase key)

/-- What a request that fails may yet have done. -/
def effect (bucket : Bucket) : Req → Bucket
  | .keys => bucket
  | .get _ => bucket
  | .put key value => bucket.insert key value
  | .delete key => bucket.erase key

/-- The error a failed request ends the operation with. -/
def Req.failure : Req → Error
  | .keys => .kvKeys
  | .get _ => .kvEntry
  | .put _ _ => .kvPut
  | .delete _ => .kvDelete

/-! ## The handler -/

/-- How far an attempt at a put of entries has come: it waits for the lock, it has the lock
and waits for the answer to a request, or it has ended. -/
inductive Phase
  | waiting (prepared : PreparedEntries)
  | running (prepared : PreparedEntries) (r : Req) (next : r.Reply → Operation)
  | done (result : PutEntriesResult)
  | failed (error : Error)
  | dropped

/-- One attempt, also a repeated one, at a put of entries. -/
structure Attempt where
  config : KvStore
  data : Json
  phase : Phase

structure Store where
  bucket : Bucket
  /-- Who holds `prune_lock`. -/
  holder : Option Nat
  attempts : Nat → Option Attempt

inductive Action
  /-- An event arrives, or comes back after a failure. -/
  | start (i : Nat) (config : KvStore) (data : Json)
  | lock (i : Nat)
  | serve (i : Nat) (stream : List (Except Unit String))
  /-- The request fails; a write may have happened all the same. -/
  | fail (i : Nat) (happened : Bool)
  /-- The operation is dropped before its request is answered. -/
  | drop (i : Nat) (happened : Bool)

/-- Whose attempt an action belongs to. -/
def Action.attempt : Action → Nat
  | .start i _ _ => i
  | .lock i => i
  | .serve i _ => i
  | .fail i _ => i
  | .drop i _ => i

variable (jsonText : Json → String)

def Store.set (s : Store) (i : Nat) (a : Attempt) : Store :=
  { s with attempts := Function.update s.attempts i (some a) }

/-- The operation of attempt `i` goes on; when it has ended, the lock is free. -/
def Store.goOn (s : Store) (i : Nat) (a : Attempt) (prepared : PreparedEntries) :
    Operation → Store
  | .ret (.ok result) => { s with holder := none }.set i { a with phase := .done result }
  | .ret (.error e) => { s with holder := none }.set i { a with phase := .failed e }
  | .call r next => s.set i { a with phase := .running prepared r next }

def Store.start (s : Store) (i : Nat) (config : KvStore) (data : Json) : Option Store :=
  if s.attempts i = none ∧ config.prune = true then
    match prepareEntries jsonText config data with
    | .error e => some (s.set i ⟨config, data, .failed e⟩)
    | .ok prepared => some (s.set i ⟨config, data, .waiting prepared⟩)
  else none

def Store.lock (s : Store) (i : Nat) (a : Attempt) : Option Store :=
  match a.phase with
  | .waiting prepared =>
      if s.holder = none then
        some ({ s with holder := some i }.goOn i a prepared (putEntries a.config.prune prepared))
      else none
  | _ => none

def Store.answer (s : Store) (i : Nat) (a : Attempt) (stream : List (Except Unit String)) :
    Option Store :=
  match a.phase with
  | .running prepared r next =>
      (serve s.bucket stream r).map fun reply =>
        { s with bucket := reply.2 }.goOn i a prepared (next reply.1)
  | _ => none

def Store.fail (s : Store) (i : Nat) (a : Attempt) (happened : Bool) : Option Store :=
  match a.phase with
  | .running _ r _ =>
      some ({ s with
        bucket := if happened then effect s.bucket r else s.bucket
        holder := none }.set i { a with phase := .failed r.failure })
  | _ => none

def Store.drop (s : Store) (i : Nat) (a : Attempt) (happened : Bool) : Option Store :=
  match a.phase with
  | .waiting _ => some (s.set i { a with phase := .dropped })
  | .running _ r _ =>
      some ({ s with
        bucket := if happened then effect s.bucket r else s.bucket
        holder := none }.set i { a with phase := .dropped })
  | _ => none

def Store.step (s : Store) : Action → Option Store
  | .start i config data => s.start jsonText i config data
  | .lock i => (s.attempts i).bind fun a => s.lock i a
  | .serve i stream => (s.attempts i).bind fun a => s.answer i a stream
  | .fail i happened => (s.attempts i).bind fun a => s.fail i a happened
  | .drop i happened => (s.attempts i).bind fun a => s.drop i a happened

/-- The pruning puts of one handler; nobody else writes to the bucket. -/
def pruning : Machine Store Action where
  init s := s.holder = none ∧ ∀ i, s.attempts i = none
  step := Store.step jsonText

/-! ## What a mirror is -/

/-- The value listed last for a key. -/
def lastValue (entries : List (String × String)) (key : String) : Option String :=
  entries.reverse.lookup key

/-- The keys under the prefix are those of the entries, with their last values. -/
def Mirrored (prepared : PreparedEntries) (bucket : Bucket) : Prop :=
  ∀ key, startsWith prepared.start key = true →
    bucket.find key = (lastValue prepared.entries key).map asBytes

/-- The attempt has succeeded. -/
def Store.Succeeded (s : Store) (i : Nat) : Prop :=
  ∃ a result, s.attempts i = some a ∧ a.phase = .done result

/-- What the pruning puts of a handler do to its bucket, in every step of every run. -/
structure Mirrors : Prop where
  /-- At the moment an attempt succeeds, its entries are what is under its prefix. -/
  succeeded : ∀ s act t, (pruning jsonText).Reachable s → (pruning jsonText).step s act = some t →
    ∀ i, ¬ s.Succeeded i → t.Succeeded i → ∃ a prepared, t.attempts i = some a ∧
      prepareEntries jsonText a.config a.data = .ok prepared ∧ Mirrored prepared t.bucket
  /-- No step of an attempt changes a key outside its prefix. -/
  outside : ∀ s act t, (pruning jsonText).Reachable s → (pruning jsonText).step s act = some t →
    ∀ a prepared, t.attempts act.attempt = some a →
      prepareEntries jsonText a.config a.data = .ok prepared →
      ∀ key, startsWith prepared.start key = false → t.bucket.find key = s.bucket.find key
  /-- No step of an attempt that validation rejects changes anything. -/
  rejected : ∀ s act t, (pruning jsonText).Reachable s → (pruning jsonText).step s act = some t →
    ∀ a e, t.attempts act.attempt = some a →
      prepareEntries jsonText a.config a.data = .error e → t.bucket = s.bucket
  /-- An empty list changes nothing, unless the configuration allows it. -/
  empty : ∀ s act t, (pruning jsonText).Reachable s → (pruning jsonText).step s act = some t →
    ∀ a, t.attempts act.attempt = some a → decodeEntries a.data = some [] →
      a.config.allowEmpty = false → t.bucket = s.bucket

/-! ## The program, alone with the bucket -/

variable {jsonText} {bucket : Bucket} {start : String}

/-- A request is answered. -/
def Serves (bucket : Bucket) (r : Req) (x : r.Reply) (bucket' : Bucket) : Prop :=
  ∃ stream, serve bucket stream r = some (x, bucket')

theorem deleteStale_alone (stale : List String) (result : PutEntriesResult) :
    (deleteStale stale result).Alone Serves
      (fun t _ => ∀ key, t.find key = if key ∈ stale then none else bucket.find key) bucket := by
  induction stale generalizing bucket result with
  | nil => exact fun key => rfl
  | cons key stale ih =>
      rintro x t ⟨stream, hserve⟩
      cases hserve
      refine (ih _).mono fun t _ hfind k => ?_
      rw [hfind, SortedMap.find_erase]
      by_cases hk : k = key
      · rw [if_pos hk, ite_self, if_pos (hk ▸ List.mem_cons_self)]
      · by_cases hmem : k ∈ stale
        · rw [if_pos hmem, if_pos (List.mem_cons_of_mem _ hmem)]
        · rw [if_neg hmem, if_neg hk, if_neg fun h => (List.mem_cons.mp h).elim hk hmem]

theorem mem_staleKeys {existing wanted : List String} {key : String} :
    key ∈ staleKeys existing wanted ↔ key ∈ existing ∧ key ∉ wanted := by
  rw [staleKeys, List.mem_mergeSort, List.mem_filter, List.mem_dedup, List.contains_eq_mem,
    Bool.not_eq_true', decide_eq_false_iff_not]

theorem lastValue_cons (key value k : String) (entries : List (String × String)) :
    lastValue ((key, value) :: entries) k =
      (lastValue entries k).or (if k = key then some value else none) := by
  rw [lastValue, lastValue, List.reverse_cons, List.lookup_append, List.lookup_cons]
  by_cases hk : k = key
  · rw [if_pos hk, beq_iff_eq.mpr hk]
  · rw [if_neg hk, beq_eq_false_iff_ne.mpr hk, List.lookup_nil]

/-- What a key holds after the entries are written and the stale keys deleted. -/
def final (existing : List String) (entries : List (String × String)) (wanted : List String)
    (bucket : Bucket) (key : String) : Option Bytes :=
  ((lastValue entries key).map asBytes).or
    (if key ∈ existing ∧ key ∉ wanted then none else bucket.find key)

/-- It makes no difference whether an entry is written or was there. -/
theorem final_cons {existing wanted : List String} {entries : List (String × String)}
    {bucket' : Bucket} {key value : String}
    (h : ∀ k, bucket'.find k = if k = key then some (asBytes value) else bucket.find k)
    (k : String) : final existing entries (key :: wanted) bucket' k =
      final existing ((key, value) :: entries) wanted bucket k := by
  rw [final, final, lastValue_cons, h]
  cases lastValue entries k with
  | some last => rfl
  | none =>
      by_cases hk : k = key
      · rw [if_pos hk, if_pos hk, if_neg fun hwanted => hwanted.2 (hk ▸ List.mem_cons_self)]
        rfl
      · rw [if_neg hk, if_neg hk]
        simp only [List.mem_cons, hk, false_or]
        rfl

theorem writeEntries_alone (existing : List String) (entries : List (String × String))
    (wanted : List String) (result : PutEntriesResult) :
    (writeEntries true existing entries wanted result).Alone Serves
      (fun t _ => ∀ key, t.find key = final existing entries wanted bucket key) bucket := by
  induction entries generalizing bucket wanted result with
  | nil =>
      refine (deleteStale_alone _ result).mono fun t _ hfind key => ?_
      rw [hfind]
      simp only [mem_staleKeys]
      rfl
  | cons entry entries ih =>
      obtain ⟨key, value⟩ := entry
      have hwrite : ∀ result, (Prog.call (.put key (asBytes value)) fun _ =>
          writeEntries true existing entries (key :: wanted) result : Operation).Alone Serves
            (fun t _ => ∀ k, t.find k = final existing ((key, value) :: entries) wanted bucket k)
            bucket := by
        rintro result x t ⟨stream, hserve⟩
        cases hserve
        refine (ih _ result).mono fun t _ hfind k => ?_
        rw [hfind]
        exact final_cons (fun k => SortedMap.find_insert) k
      rw [writeEntries]
      split
      · rintro x t ⟨stream, hserve⟩
        cases hserve
        dsimp only
        split
        · rename_i hcurrent
          refine (ih _ _).mono fun t _ hfind k => ?_
          rw [hfind]
          refine final_cons (fun k => ?_) k
          split
          · rename_i hk
            rw [hk]
            exact hcurrent
          · rfl
        · exact hwrite _
      · exact hwrite _

theorem collectKeys_eq_ok {stream : List (Except Unit String)} {keys : List String}
    (h : collectKeys start stream = .ok keys) :
    (∀ item ∈ stream, item.isOk = true) ∧
      ∀ key, key ∈ keys ↔ key ∈ listed stream ∧ startsWith start key = true := by
  induction stream generalizing keys with
  | nil =>
      cases h
      refine ⟨?_, fun key => by simp [listed]⟩
      intro item hitem
      cases hitem
  | cons item stream ih =>
      cases item with
      | error u => cases h
      | ok key =>
          rw [collectKeys] at h
          cases hrest : collectKeys start stream with
          | error e =>
              rw [hrest] at h
              cases h
          | ok rest =>
              rw [hrest] at h
              cases h
              obtain ⟨hok, hkeys⟩ := ih hrest
              refine ⟨List.forall_mem_cons.mpr ⟨rfl, hok⟩, fun k => ?_⟩
              have hlisted : k ∈ listed (.ok key :: stream) ↔ k = key ∨ k ∈ listed stream :=
                List.mem_cons
              rw [hlisted]
              split
              · rename_i hkey
                rw [List.mem_cons, hkeys]
                constructor
                · rintro (rfl | ⟨hmem, hstarts⟩)
                  · exact ⟨.inl rfl, hkey⟩
                  · exact ⟨.inr hmem, hstarts⟩
                · rintro ⟨rfl | hmem, hstarts⟩
                  · exact .inl rfl
                  · exact .inr ⟨hmem, hstarts⟩
              · rename_i hkey
                rw [hkeys]
                constructor
                · rintro ⟨hmem, hstarts⟩
                  exact ⟨.inr hmem, hstarts⟩
                · rintro ⟨rfl | hmem, hstarts⟩
                  · exact absurd hstarts hkey
                  · exact ⟨hmem, hstarts⟩

/-- A listing that did not break off has found every live key under the prefix. -/
theorem find_eq_none_of_not_listed {stream : List (Except Unit String)} {existing : List String}
    (hlists : Lists bucket stream) (h : collectKeys start stream = .ok existing) {key : String}
    (hstarts : startsWith start key = true) (hkey : key ∉ existing) : bucket.find key = none := by
  obtain ⟨hok, hkeys⟩ := collectKeys_eq_ok h
  have hall : ∀ k ∈ bucket.keys, k ∈ listed stream := by
    refine hlists.2.resolve_left ?_
    rintro ⟨item, hitem, hbad⟩
    rw [hok item hitem] at hbad
    cases hbad
  refine Option.not_isSome_iff_eq_none.mp fun hsome => hkey ((hkeys key).mpr ⟨?_, hstarts⟩)
  exact hall key (SortedMap.isSome_find.mp hsome)

/-- Alone with the bucket, an operation that succeeds leaves a mirror of the entries. -/
def Ends (prepared : PreparedEntries) (op : Operation) (bucket : Bucket) : Prop :=
  op.Alone Serves (fun t outcome => ∀ result, outcome = .ok result → Mirrored prepared t) bucket

theorem putEntries_ends (prepared : PreparedEntries) (bucket : Bucket) :
    Ends prepared (putEntries true prepared) bucket := by
  rintro stream t ⟨stream', hserve⟩
  obtain ⟨hlists, hreply⟩ := Option.ite_none_right_eq_some.mp hserve
  cases hreply
  dsimp only
  cases hcollect : collectKeys prepared.start stream with
  | error e =>
      intro result houtcome
      cases houtcome
  | ok existing =>
      refine (writeEntries_alone existing prepared.entries [] {}).mono ?_
      intro t outcome hfind result _ key hstarts
      rw [hfind, final]
      cases lastValue prepared.entries key with
      | some value => rfl
      | none =>
          change (if key ∈ existing ∧ key ∉ [] then none else bucket.find key) = none
          split
          · rfl
          · rename_i hkey
            have hkey' : key ∉ existing := fun hmem => hkey ⟨hmem, List.not_mem_nil⟩
            exact find_eq_none_of_not_listed hlists hcollect hstarts hkey'

/-! ## Where the requests go -/

/-- A request that writes goes to a key under the prefix. -/
def Req.Under (start : String) : Req → Prop
  | .keys => True
  | .get _ => True
  | .put key _ => startsWith start key = true
  | .delete key => startsWith start key = true

/-- The requests of an operation that write go to keys under the prefix. -/
def Confined (start : String) (op : Operation) : Prop :=
  op.Within (Req.Under start) fun _ _ _ => True

theorem confined_call {r : Req} {next : r.Reply → Operation} (hr : r.Under start)
    (h : ∀ x, Confined start (next x)) : Confined start (.call r next) :=
  ⟨hr, fun x => ⟨h x, fun _ _ => trivial⟩⟩

theorem deleteStale_confined {stale : List String} (h : ∀ key ∈ stale, startsWith start key = true)
    (result : PutEntriesResult) : Confined start (deleteStale stale result) := by
  induction stale generalizing result with
  | nil => exact trivial
  | cons key stale ih =>
      obtain ⟨hkey, hstale⟩ := List.forall_mem_cons.mp h
      exact confined_call hkey fun _ => ih hstale _

theorem writeEntries_confined {prune : Bool} {existing : List String}
    {entries : List (String × String)} (hexisting : ∀ key ∈ existing, startsWith start key = true)
    (hentries : ∀ entry ∈ entries, startsWith start entry.1 = true) (wanted : List String)
    (result : PutEntriesResult) :
    Confined start (writeEntries prune existing entries wanted result) := by
  induction entries generalizing wanted result with
  | nil =>
      rw [writeEntries]
      split
      · exact deleteStale_confined (fun key hkey => hexisting key (mem_staleKeys.mp hkey).1) result
      · exact trivial
  | cons entry entries ih =>
      obtain ⟨key, value⟩ := entry
      obtain ⟨hkey, hrest⟩ := List.forall_mem_cons.mp hentries
      have hwrite : ∀ result, Confined start (.call (.put key (asBytes value)) fun _ =>
          writeEntries prune existing entries (key :: wanted) result) :=
        fun result => confined_call hkey fun _ => ih hrest _ result
      rw [writeEntries]
      split
      · refine confined_call trivial fun current => ?_
        split
        · exact ih hrest _ _
        · exact hwrite _
      · exact hwrite _

theorem putEntries_confined {prepared : PreparedEntries} (prune : Bool)
    (h : ∀ entry ∈ prepared.entries, startsWith prepared.start entry.1 = true) :
    Confined prepared.start (putEntries prune prepared) := by
  refine confined_call trivial fun stream => ?_
  cases hcollect : collectKeys prepared.start stream with
  | error e => exact trivial
  | ok existing =>
      obtain ⟨-, hkeys⟩ := collectKeys_eq_ok hcollect
      exact writeEntries_confined (fun key hkey => ((hkeys key).mp hkey).2) h _ _

theorem startsWith_append (start key : String) : startsWith start (start ++ key) = true := by
  rw [startsWith, List.isPrefixOf_iff_prefix, String.toList_append]
  exact List.prefix_append _ _

theorem startsWith_of_composed {entries : List Entry} {composed : List (String × String)}
    (h : composeEntries jsonText start entries = .ok composed) :
    ∀ entry ∈ composed, startsWith start entry.1 = true := by
  induction entries generalizing composed with
  | nil =>
      cases h
      intro entry hentry
      cases hentry
  | cons entry entries ih =>
      rw [composeEntries] at h
      split at h
      · cases hrest : composeEntries jsonText start entries with
        | error e =>
            rw [hrest] at h
            cases h
        | ok rest =>
            rw [hrest] at h
            cases h
            exact List.forall_mem_cons.mpr ⟨startsWith_append start entry.key, ih hrest⟩
      · cases h

/-- The keys of prepared entries are under the prefix. -/
theorem startsWith_of_prepared {config : KvStore} {data : Json} {prepared : PreparedEntries}
    (h : prepareEntries jsonText config data = .ok prepared) :
    ∀ entry ∈ prepared.entries, startsWith prepared.start entry.1 = true := by
  unfold prepareEntries at h
  split at h
  · cases h
  · rename_i start hstart
    split at h
    · cases h
    · split at h
      · cases h
      · rename_i entries hentries
        split at h
        · cases h
        · cases hcomposed : composeEntries jsonText start entries with
          | error e =>
              rw [hcomposed] at h
              cases h
          | ok composed =>
              rw [hcomposed] at h
              cases h
              exact startsWith_of_composed hcomposed

/-- An empty list is rejected by a pruning put that does not allow it. -/
theorem prepareEntries_empty {config : KvStore} {data : Json} (hprune : config.prune = true)
    (hempty : decodeEntries data = some []) (hallow : config.allowEmpty = false) :
    ∃ e, prepareEntries jsonText config data = .error e := by
  rw [prepareEntries, hprune, hempty, hallow]
  cases config.keyPrefix with
  | none => exact ⟨_, rfl⟩
  | some start =>
      dsimp only
      split
      · exact ⟨_, rfl⟩
      · exact ⟨_, rfl⟩

/-! ## What a step does -/

variable {s t : Store} {act : Action} {i j : Nat} {a : Attempt}

/-- The steps of attempt `i`. -/
inductive Stepped (jsonText : Json → String) (s : Store) (i : Nat) : Store → Prop
  | rejected {config : KvStore} {data : Json} {e : Error} (hnew : s.attempts i = none)
      (hprune : config.prune = true) (hprepare : prepareEntries jsonText config data = .error e) :
      Stepped jsonText s i (s.set i ⟨config, data, .failed e⟩)
  | accepted {config : KvStore} {data : Json} {prepared : PreparedEntries}
      (hnew : s.attempts i = none) (hprune : config.prune = true)
      (hprepare : prepareEntries jsonText config data = .ok prepared) :
      Stepped jsonText s i (s.set i ⟨config, data, .waiting prepared⟩)
  | locked {a : Attempt} {prepared : PreparedEntries} (ha : s.attempts i = some a)
      (hphase : a.phase = .waiting prepared) (hfree : s.holder = none) :
      Stepped jsonText s i
        ({ s with holder := some i }.goOn i a prepared (putEntries a.config.prune prepared))
  | answered {a : Attempt} {prepared : PreparedEntries} {r : Req} {next : r.Reply → Operation}
      {x : r.Reply} {bucket : Bucket} (ha : s.attempts i = some a)
      (hphase : a.phase = .running prepared r next) (hserve : Serves s.bucket r x bucket) :
      Stepped jsonText s i ({ s with bucket := bucket }.goOn i a prepared (next x))
  | gaveUp {a : Attempt} {prepared : PreparedEntries} (ha : s.attempts i = some a)
      (hphase : a.phase = .waiting prepared) :
      Stepped jsonText s i (s.set i { a with phase := .dropped })
  | broken {a : Attempt} {prepared : PreparedEntries} {r : Req} {next : r.Reply → Operation}
      {phase : Phase} {bucket : Bucket} (ha : s.attempts i = some a)
      (hphase : a.phase = .running prepared r next)
      (hbucket : bucket = s.bucket ∨ bucket = effect s.bucket r)
      (hended : phase = .failed r.failure ∨ phase = .dropped) :
      Stepped jsonText s i
        ({ s with bucket := bucket, holder := none }.set i { a with phase := phase })

theorem stepped_of_step (h : (pruning jsonText).step s act = some t) :
    Stepped jsonText s act.attempt t := by
  have hbucket : ∀ (happened : Bool) (r : Req),
      (if happened then effect s.bucket r else s.bucket) = s.bucket ∨
        (if happened then effect s.bucket r else s.bucket) = effect s.bucket r := by
    intro happened r
    cases happened with
    | false => exact .inl rfl
    | true => exact .inr rfl
  cases act with
  | start i config data =>
      replace h : s.start jsonText i config data = some t := h
      unfold Store.start at h
      obtain ⟨⟨hnew, hprune⟩, h⟩ := Option.ite_none_right_eq_some.mp h
      cases hprepare : prepareEntries jsonText config data with
      | error e =>
          rw [hprepare] at h
          cases h
          exact .rejected hnew hprune hprepare
      | ok prepared =>
          rw [hprepare] at h
          cases h
          exact .accepted hnew hprune hprepare
  | lock i =>
      obtain ⟨a, ha, h⟩ := Option.bind_eq_some_iff.mp h
      unfold Store.lock at h
      split at h
      · rename_i prepared hphase
        obtain ⟨hfree, h⟩ := Option.ite_none_right_eq_some.mp h
        cases h
        exact .locked ha hphase hfree
      · cases h
  | serve i stream =>
      obtain ⟨a, ha, h⟩ := Option.bind_eq_some_iff.mp h
      unfold Store.answer at h
      split at h
      · rename_i prepared r next hphase
        obtain ⟨⟨x, bucket⟩, hserve, h⟩ := Option.map_eq_some_iff.mp h
        cases h
        exact .answered ha hphase ⟨stream, hserve⟩
      · cases h
  | fail i happened =>
      obtain ⟨a, ha, h⟩ := Option.bind_eq_some_iff.mp h
      unfold Store.fail at h
      split at h
      · rename_i prepared r next hphase
        cases h
        exact .broken ha hphase (hbucket happened r) (.inl rfl)
      · cases h
  | drop i happened =>
      obtain ⟨a, ha, h⟩ := Option.bind_eq_some_iff.mp h
      unfold Store.drop at h
      split at h
      · rename_i prepared hphase
        cases h
        exact .gaveUp ha hphase
      · rename_i prepared r next hphase
        cases h
        exact .broken ha hphase (hbucket happened r) (.inr rfl)
      · cases h

@[simp] theorem Store.attempts_set_self : (s.set i a).attempts i = some a :=
  Function.update_self ..

theorem Store.eq_of_set {b : Attempt} (h : (s.set i a).attempts i = some b) : b = a :=
  Option.some.inj (h.symm.trans Store.attempts_set_self)

theorem Store.attempts_set_ne (h : j ≠ i) : (s.set i a).attempts j = s.attempts j :=
  Function.update_of_ne h ..

@[simp] theorem Store.bucket_goOn (prepared : PreparedEntries) (op : Operation) :
    (s.goOn i a prepared op).bucket = s.bucket := by
  cases op with
  | ret outcome =>
      cases outcome with
      | error e => rfl
      | ok result => rfl
  | call r next => rfl

theorem Store.attempts_goOn_ne (h : j ≠ i) (prepared : PreparedEntries) (op : Operation) :
    (s.goOn i a prepared op).attempts j = s.attempts j := by
  cases op with
  | ret outcome =>
      cases outcome with
      | error e => exact Store.attempts_set_ne h
      | ok result => exact Store.attempts_set_ne h
  | call r next => exact Store.attempts_set_ne h

/-- Whoever goes on keeps its event and its configuration. -/
theorem Store.attempts_goOn_self (prepared : PreparedEntries) (op : Operation) :
    ∃ phase, (s.goOn i a prepared op).attempts i = some { a with phase := phase } := by
  cases op with
  | ret outcome =>
      cases outcome with
      | error e => exact ⟨_, Store.attempts_set_self⟩
      | ok result => exact ⟨_, Store.attempts_set_self⟩
  | call r next => exact ⟨_, Store.attempts_set_self⟩

theorem Stepped.attempts_ne (h : Stepped jsonText s i t) (hne : j ≠ i) :
    t.attempts j = s.attempts j := by
  cases h with
  | rejected => exact Store.attempts_set_ne hne
  | accepted => exact Store.attempts_set_ne hne
  | locked => exact Store.attempts_goOn_ne hne _ _
  | answered => exact Store.attempts_goOn_ne hne _ _
  | gaveUp => exact Store.attempts_set_ne hne
  | broken => exact Store.attempts_set_ne hne

/-! ## The lock -/

/-- What is known of an attempt: while it waits or runs it is one that was accepted, and
while it runs it has the lock, and the bucket to itself. -/
def Attempt.Sound (jsonText : Json → String) (s : Store) (i : Nat) (a : Attempt) : Prop :=
  a.config.prune = true ∧
    match a.phase with
    | .waiting prepared => prepareEntries jsonText a.config a.data = .ok prepared
    | .running prepared r next =>
        prepareEntries jsonText a.config a.data = .ok prepared ∧ s.holder = some i ∧
          Ends prepared (.call r next) s.bucket ∧ Confined prepared.start (.call r next)
    | .done _ => True
    | .failed _ => True
    | .dropped => True

def Store.Sound (jsonText : Json → String) (s : Store) : Prop :=
  ∀ i a, s.attempts i = some a → a.Sound jsonText s i

theorem Attempt.Sound.waiting (h : a.Sound jsonText s i) {prepared : PreparedEntries}
    (hphase : a.phase = .waiting prepared) :
    prepareEntries jsonText a.config a.data = .ok prepared := by
  have hmatch := h.2
  rw [hphase] at hmatch
  exact hmatch

theorem Attempt.Sound.running (h : a.Sound jsonText s i) {prepared : PreparedEntries} {r : Req}
    {next : r.Reply → Operation} (hphase : a.phase = .running prepared r next) :
    prepareEntries jsonText a.config a.data = .ok prepared ∧ s.holder = some i ∧
      Ends prepared (.call r next) s.bucket ∧ Confined prepared.start (.call r next) := by
  have hmatch := h.2
  rw [hphase] at hmatch
  exact hmatch

/-- Nothing changes for an attempt while another one takes or has the lock. -/
theorem Attempt.Sound.other (h : a.Sound jsonText s j) (hne : j ≠ i)
    (hlock : s.holder = none ∨ s.holder = some i ∨ (t.holder = s.holder ∧ t.bucket = s.bucket)) :
    a.Sound jsonText t j := by
  refine ⟨h.1, ?_⟩
  cases hphase : a.phase with
  | waiting prepared => exact h.waiting hphase
  | running prepared r next =>
      obtain ⟨hprepare, hholder, hends, hconfined⟩ := h.running hphase
      rcases hlock with hfree | hother | ⟨hsame, hbucket⟩
      · rw [hfree] at hholder
        cases hholder
      · rw [hother] at hholder
        cases hholder
        exact absurd rfl hne
      · exact ⟨hprepare, hsame.trans hholder, hbucket ▸ hends, hconfined⟩
  | done result => trivial
  | failed e => trivial
  | dropped => trivial

theorem Attempt.Sound.goOn (hprune : a.config.prune = true) {prepared : PreparedEntries}
    (hprepare : prepareEntries jsonText a.config a.data = .ok prepared) {op : Operation}
    (hholder : s.holder = some i) (hends : Ends prepared op s.bucket)
    (hconfined : Confined prepared.start op) :
    ∀ b, (s.goOn i a prepared op).attempts i = some b →
      b.Sound jsonText (s.goOn i a prepared op) i := by
  intro b hb
  cases op with
  | ret outcome =>
      cases outcome with
      | error e =>
          obtain rfl := Store.eq_of_set hb
          exact ⟨hprune, trivial⟩
      | ok result =>
          obtain rfl := Store.eq_of_set hb
          exact ⟨hprune, trivial⟩
  | call r next =>
      obtain rfl := Store.eq_of_set hb
      exact ⟨hprune, hprepare, hholder, hends, hconfined⟩

theorem Store.Sound.step (hs : s.Sound jsonText) (h : Stepped jsonText s i t) :
    t.Sound jsonText := by
  intro j b hb
  by_cases hj : j = i
  · subst hj
    cases h with
    | rejected hnew hprune hprepare =>
        obtain rfl := Store.eq_of_set hb
        exact ⟨hprune, trivial⟩
    | accepted hnew hprune hprepare =>
        obtain rfl := Store.eq_of_set hb
        exact ⟨hprune, hprepare⟩
    | @locked a prepared ha hphase hfree =>
        have hsound := hs _ _ ha
        have hprepare := hsound.waiting hphase
        rw [hsound.1] at hb ⊢
        exact Attempt.Sound.goOn (s := { s with holder := some j }) hsound.1 hprepare rfl
          (putEntries_ends prepared s.bucket)
          (putEntries_confined true (startsWith_of_prepared hprepare)) b hb
    | @answered a prepared r next x bucket ha hphase hserve =>
        have hsound := hs _ _ ha
        obtain ⟨hprepare, hholder, hends, hconfined⟩ := hsound.running hphase
        exact Attempt.Sound.goOn (s := { s with bucket := bucket }) hsound.1 hprepare hholder
          (hends x bucket hserve) (hconfined.2 x).1 b hb
    | gaveUp ha hphase =>
        obtain rfl := Store.eq_of_set hb
        exact ⟨(hs _ _ ha).1, trivial⟩
    | broken ha hphase hbucket hended =>
        obtain rfl := Store.eq_of_set hb
        refine ⟨(hs _ _ ha).1, ?_⟩
        rcases hended with rfl | rfl
        · trivial
        · trivial
  · rw [h.attempts_ne hj] at hb
    refine (hs j b hb).other hj ?_
    cases h with
    | rejected => exact .inr (.inr ⟨rfl, rfl⟩)
    | accepted => exact .inr (.inr ⟨rfl, rfl⟩)
    | locked ha hphase hfree => exact .inl hfree
    | answered ha hphase hserve => exact .inr (.inl ((hs _ _ ha).running hphase).2.1)
    | gaveUp => exact .inr (.inr ⟨rfl, rfl⟩)
    | broken ha hphase hbucket hended => exact .inr (.inl ((hs _ _ ha).running hphase).2.1)

theorem sound_of_reachable (h : (pruning jsonText).Reachable s) : s.Sound jsonText := by
  refine h.invariant ?_ ?_
  · rintro s ⟨-, hnone⟩ i a ha
    rw [hnone i] at ha
    cases ha
  · intro s act t hs _ hstep
    exact hs.step (stepped_of_step hstep)

/-! ## The mirror -/

theorem find_of_effect {r : Req} (hr : r.Under start) {key : String}
    (hkey : startsWith start key = false) : (effect bucket r).find key = bucket.find key := by
  have hne : ∀ k, startsWith start k = true → key ≠ k := by
    rintro k hk rfl
    rw [hkey] at hk
    cases hk
  cases r with
  | keys => rfl
  | get k => rfl
  | put k value => exact SortedMap.find_insert.trans (if_neg (hne k hr))
  | delete k => exact SortedMap.find_erase.trans (if_neg (hne k hr))

/-- A request that is answered has its effect. -/
theorem effect_of_serves {r : Req} {x : r.Reply} {bucket' : Bucket}
    (h : Serves bucket r x bucket') : bucket' = effect bucket r := by
  obtain ⟨stream, hserve⟩ := h
  cases r with
  | keys =>
      obtain ⟨-, hreply⟩ := Option.ite_none_right_eq_some.mp hserve
      cases hreply
      rfl
  | get key =>
      cases hserve
      rfl
  | put key value =>
      cases hserve
      rfl
  | delete key =>
      cases hserve
      rfl

theorem Stepped.outside (hs : s.Sound jsonText) (h : Stepped jsonText s i t) {b : Attempt}
    (hb : t.attempts i = some b) {prepared : PreparedEntries}
    (hprepare : prepareEntries jsonText b.config b.data = .ok prepared) {key : String}
    (hkey : startsWith prepared.start key = false) : t.bucket.find key = s.bucket.find key := by
  cases h with
  | rejected => rfl
  | accepted => rfl
  | locked =>
      rw [Store.bucket_goOn]
  | gaveUp => rfl
  | @answered a prepared' r next x bucket ha hphase hserve =>
      obtain ⟨hprepare', -, -, hconfined⟩ := (hs _ _ ha).running hphase
      obtain ⟨phase, hself⟩ := @Store.attempts_goOn_self { s with bucket := bucket } i a prepared'
        (next x)
      obtain rfl := Option.some.inj (hself.symm.trans hb)
      obtain rfl := Except.ok.inj (hprepare'.symm.trans hprepare)
      rw [Store.bucket_goOn, effect_of_serves hserve]
      exact find_of_effect hconfined.1 hkey
  | broken ha hphase hbucket hended =>
      obtain ⟨hprepare', -, -, hconfined⟩ := (hs _ _ ha).running hphase
      obtain rfl := Store.eq_of_set hb
      obtain rfl := Except.ok.inj (hprepare'.symm.trans hprepare)
      rcases hbucket with rfl | rfl
      · rfl
      · exact find_of_effect hconfined.1 hkey

/-- A step of an attempt that was rejected leaves the bucket as it is. -/
theorem Stepped.rejected_same (hs : s.Sound jsonText) (h : Stepped jsonText s i t) {b : Attempt}
    (hb : t.attempts i = some b) {e : Error}
    (hprepare : prepareEntries jsonText b.config b.data = .error e) : t.bucket = s.bucket := by
  cases h with
  | rejected => rfl
  | accepted => rfl
  | locked => exact Store.bucket_goOn _ _
  | gaveUp => rfl
  | @answered a prepared r next x bucket ha hphase hserve =>
      obtain ⟨hprepare', -, -, -⟩ := (hs _ _ ha).running hphase
      obtain ⟨phase, hself⟩ := @Store.attempts_goOn_self { s with bucket := bucket } i a prepared
        (next x)
      obtain rfl := Option.some.inj (hself.symm.trans hb)
      cases hprepare'.symm.trans hprepare
  | broken ha hphase hbucket hended =>
      obtain ⟨hprepare', -, -, -⟩ := (hs _ _ ha).running hphase
      obtain rfl := Store.eq_of_set hb
      cases hprepare'.symm.trans hprepare

/-- An attempt that goes on has succeeded only if its operation has returned a result. -/
theorem Attempt.returned_of_succeeded {prepared : PreparedEntries} {op : Operation}
    (h : (s.goOn i a prepared op).Succeeded i) : ∃ result, op = .ret (.ok result) := by
  obtain ⟨b, result, hb, hphase⟩ := h
  cases op with
  | ret outcome =>
      cases outcome with
      | error e =>
          obtain rfl := Store.eq_of_set hb
          cases hphase
      | ok result => exact ⟨result, rfl⟩
  | call r next =>
      obtain rfl := Store.eq_of_set hb
      cases hphase

theorem Stepped.succeeded (hs : s.Sound jsonText) (h : Stepped jsonText s i t)
    (hafter : t.Succeeded i) : ∃ a prepared, t.attempts i = some a ∧
      prepareEntries jsonText a.config a.data = .ok prepared ∧ Mirrored prepared t.bucket := by
  cases h with
  | @answered a prepared r next x bucket ha hphase hserve =>
      obtain ⟨hprepare, -, hends, -⟩ := (hs _ _ ha).running hphase
      obtain ⟨result, hreturned⟩ := Attempt.returned_of_succeeded hafter
      have hmirrored := hends x bucket hserve
      rw [hreturned] at hmirrored ⊢
      exact ⟨_, prepared, Store.attempts_set_self, hprepare, hmirrored result rfl⟩
  | locked =>
      obtain ⟨result, hreturned⟩ := Attempt.returned_of_succeeded hafter
      cases hreturned
  | rejected =>
      obtain ⟨b, result, hb, hphase⟩ := hafter
      obtain rfl := Store.eq_of_set hb
      cases hphase
  | accepted =>
      obtain ⟨b, result, hb, hphase⟩ := hafter
      obtain rfl := Store.eq_of_set hb
      cases hphase
  | gaveUp =>
      obtain ⟨b, result, hb, hphase⟩ := hafter
      obtain rfl := Store.eq_of_set hb
      cases hphase
  | broken ha _ hbucket hended =>
      obtain ⟨b, result, hb, hphase⟩ := hafter
      obtain rfl := Store.eq_of_set hb
      rcases hended with rfl | rfl
      · cases hphase
      · cases hphase

/-- A put that fails on its way to delete `p.b`, and the retry. -/
example :
    let config : KvStore := ⟨some "p.", true, false⟩
    let data : Json := .object [("entries", .array [.object [("key", .string "a"),
      ("value", .string "1")]])]
    let start : Store := ⟨SortedMap.empty.insert "p.b" [], none, fun _ => none⟩
    ((pruning fun _ => "").exec (fun _ _ => True) start
      [.start 0 config data, .lock 0, .serve 0 [.ok "p.b"], .serve 0 [], .fail 0 false,
        .start 1 config data, .lock 1, .serve 1 [.ok "p.a", .ok "p.b"], .serve 1 [],
        .serve 1 []]).map (·.bucket.entries) = some [("p.a", asBytes "1")] := by
  decide +kernel

end Flowgen.Nats
