/-
# `Flowgen.Web.Conversations` — the history of the Agents chat (`app/src/web.rs`)

The web UI keeps its conversations in the system cache, each under one key that is
made of a prefix and the id.  The id comes from the client.  The cache is shared with
leases, peers, changes and the cookie key, and without a bucket of its own even with
what the scripts of the flows keep.

`SystemCache` carries what the handlers rely on: under the prefix stand encoded
conversations, each under its own id.  Over it the handlers keep one map from ids to
conversations, and nobody else notices them (`conversations_refine`).  The list is not
read at once; what it shows while other requests are served is
`listConversations_during`.

A cache call that reports a failure may have been carried out all the same.  The codec
of a conversation is given from outside, with the round trip that `serde_json` has.
-/
import Flowgen.Cache.Agreement

namespace Flowgen.Web.Conversations

open Flowgen.Cache

/-! ## Keys -/

def conversationKeyPrefix : String := "agents.conversations."

def validConversationId (id : String) : Bool :=
  !id.toList.isEmpty && id.toList.all fun c => c.isAlphanum || c == '_' || c == '-'

def conversationKey (id : String) : String := conversationKeyPrefix ++ id

theorem conversationKey_injective : Function.Injective conversationKey := by
  intro id id' h
  have hchars := congrArg String.toList h
  simp only [conversationKey, String.toList_append] at hchars
  exact String.toList_injective (List.append_cancel_left hchars)

theorem conversationKey_startsWith (id : String) :
    (conversationKey id).startsWith conversationKeyPrefix = true := by
  rw [String.startsWith_string_iff, conversationKey, String.toList_append]
  exact List.prefix_append _ _

/-! ## Conversations -/

variable {M : Type}

structure Conversation (M : Type) where
  id : String
  title : String
  messages : List M
  model : Option String
  updatedAt : Int

structure ConversationUpsert (M : Type) where
  title : String
  messages : List M
  model : Option String

structure ConversationSummary where
  id : String
  title : String
  updatedAt : Int
  messageCount : Nat
deriving DecidableEq

def Conversation.summary (conversation : Conversation M) : ConversationSummary :=
  ⟨conversation.id, conversation.title, conversation.updatedAt, conversation.messages.length⟩

/-- The body under the id of the path, stamped by the server. -/
def ConversationUpsert.stamp (body : ConversationUpsert M) (id : String) (now : Int) :
    Conversation M :=
  ⟨id, body.title, body.messages, body.model, now⟩

/-- `serde_json` for a conversation. -/
structure Codec (M : Type) where
  encode : Conversation M → Bytes
  decode : Bytes → Option (Conversation M)
  decode_encode : ∀ conversation, decode (encode conversation) = some conversation

inductive Response (M : Type)
  | error (status : Nat) (text : String)
  | noContent
  | conversation (conversation : Conversation M)
  | conversations (summaries : List ConversationSummary)

/-- How a cache call that writes ends. -/
inductive Outcome
  | done
  | failed (applied : Bool)
deriving DecidableEq

def Outcome.applied : Outcome → Bool
  | .done => true
  | .failed applied => applied

def invalidId : Response M := .error 400 "Invalid conversation id"

def storeUnavailable : Response M := .error 503 "Conversation store unavailable"

def Outcome.response : Outcome → Response M
  | .done => .noContent
  | .failed _ => storeUnavailable

/-! ## The handlers -/

variable (codec : Codec M)

def getConversation (cache : MemoryCache Bytes) (id : String) (fails : Bool) : Response M :=
  if !validConversationId id then invalidId
  else if fails then storeUnavailable
  else
    match cache.get (conversationKey id) with
    | some bytes =>
        match codec.decode bytes with
        | some conversation => .conversation conversation
        | none => .error 500 "Corrupt conversation"
    | none => .error 404 "Conversation not found"

def putConversation (cache : MemoryCache Bytes) (id : String) (body : ConversationUpsert M)
    (now : Int) (outcome : Outcome) : Response M × MemoryCache Bytes :=
  if !validConversationId id then (invalidId, cache)
  else
    (outcome.response,
      if outcome.applied then cache.put (conversationKey id) (codec.encode (body.stamp id now))
      else cache)

def deleteConversation (cache : MemoryCache Bytes) (id : String) (outcome : Outcome) :
    Response M × MemoryCache Bytes :=
  if !validConversationId id then (invalidId, cache)
  else (outcome.response, if outcome.applied then cache.delete (conversationKey id) else cache)

/-- One round of the loop of `list_conversations`. -/
def readSummary (cache : MemoryCache Bytes) (key : String) (fails : Bool) :
    Option ConversationSummary :=
  if fails then none
  else ((cache.get key).bind codec.decode).map Conversation.summary

/-- `sort_by_key` by the reversed `updated_at`. -/
def newestFirst (summaries : List ConversationSummary) : List ConversationSummary :=
  summaries.mergeSort fun a b => decide (b.updatedAt ≤ a.updatedAt)

/-! ## The system cache -/

/-- What may happen to the system cache: requests, the expiry of a conversation, and the
calls of everybody else, which are about other keys. -/
inductive Step (M : Type)
  | put (id : String) (body : ConversationUpsert M) (now : Int) (outcome : Outcome)
  | delete (id : String) (outcome : Outcome)
  | expire (id : String)
  | other (key : String) (call : KeyCall) (foreign : key.startsWith conversationKeyPrefix = false)

def Step.isOther : Step M → Bool
  | .other .. => true
  | _ => false

def Step.onCache (cache : MemoryCache Bytes) : Step M → MemoryCache Bytes
  | .put id body now outcome => (putConversation codec cache id body now outcome).2
  | .delete id outcome => (deleteConversation (M := M) cache id outcome).2
  | .expire id => cache.delete (conversationKey id)
  | .other key call _ => (call.onMemory cache key).2

/-- The id that a step is about, and what stands under it afterwards. -/
def Step.files? : Step M → Option (String × Option (Conversation M))
  | .put id body now outcome =>
      if validConversationId id && outcome.applied then some (id, some (body.stamp id now)) else none
  | .delete id outcome =>
      if validConversationId id && outcome.applied then some (id, none) else none
  | .expire id => some (id, none)
  | .other .. => none

variable {codec} {cache : MemoryCache Bytes} {key : String}

theorem get_eq : cache.get key = (cache.getWithRevision key).map Prod.fst := by
  simp [MemoryCache.get, MemoryCache.getWithRevision, Option.map_map, Function.comp_def]

theorem get_put {key' : String} {value : Bytes} :
    (cache.put key' value).get key = if key = key' then some value else cache.get key := by
  have h : ((KeyCall.put value).onMemory cache key').2.getWithRevision key = _ := onMemory_entry
  rw [get_eq, show cache.put key' value = ((KeyCall.put value).onMemory cache key').2 from rfl, h,
    get_eq]
  split
  · rfl
  · rfl

theorem get_delete {key' : String} :
    (cache.delete key').get key = if key = key' then none else cache.get key := by
  have h : (KeyCall.delete.onMemory cache key').2.getWithRevision key = _ := onMemory_entry
  rw [get_eq, show cache.delete key' = (KeyCall.delete.onMemory cache key').2 from rfl, h, get_eq]
  split
  · rfl
  · rfl

/-- What a step does under the prefix. -/
theorem get_onCache (step : Step M) (hkey : key.startsWith conversationKeyPrefix = true) :
    (step.onCache codec cache).get key =
      match step.files? with
      | some (id, filed) =>
          if key = conversationKey id then filed.map codec.encode else cache.get key
      | none => cache.get key := by
  cases step with
  | put id body now outcome =>
      rw [Step.onCache, Step.files?, putConversation]
      cases hid : validConversationId id with
      | false => rfl
      | true =>
          cases happlied : outcome.applied with
          | false => rfl
          | true => exact get_put
  | delete id outcome =>
      rw [Step.onCache, Step.files?, deleteConversation]
      cases hid : validConversationId id with
      | false => rfl
      | true =>
          cases happlied : outcome.applied with
          | false => rfl
          | true => exact get_delete
  | expire id => exact get_delete
  | other key' call foreign =>
      have hne : key ≠ key' := by
        rintro rfl
        rw [hkey] at foreign
        cases foreign
      show (call.onMemory cache key').2.get key = cache.get key
      rw [get_eq, onMemory_entry, if_neg hne, ← get_eq]

/-- Only a valid id is given to a conversation that is filed. -/
theorem valid_of_files {step : Step M} {id : String} {conversation : Conversation M}
    (h : step.files? = some (id, some conversation)) :
    validConversationId id = true ∧ conversation.id = id := by
  cases step with
  | put id' body now outcome =>
      rw [Step.files?] at h
      split at h
      · rename_i hvalid
        cases h
        exact ⟨(Bool.and_eq_true_iff.mp hvalid).1, rfl⟩
      · cases h
  | delete id' outcome =>
      rw [Step.files?] at h
      split at h
      · cases h
      · cases h
  | expire id' => cases h
  | other key call foreign => cases h

/-- Under the prefix stand encoded conversations, each under its own id. -/
def Filed (codec : Codec M) (cache : MemoryCache Bytes) : Prop :=
  ∀ key bytes, cache.get key = some bytes → key.startsWith conversationKeyPrefix = true →
    ∃ conversation : Conversation M, validConversationId conversation.id = true ∧
      key = conversationKey conversation.id ∧ bytes = codec.encode conversation

theorem Filed.onCache (h : Filed codec cache) (step : Step M) :
    Filed codec (step.onCache codec cache) := by
  intro key bytes hget hkey
  rw [get_onCache step hkey] at hget
  cases hfiles : step.files? with
  | none =>
      rw [hfiles] at hget
      exact h key bytes hget hkey
  | some files =>
      obtain ⟨id, filed⟩ := files
      simp only [hfiles] at hget
      split at hget
      · rename_i hid
        obtain ⟨conversation, rfl, rfl⟩ := Option.map_eq_some_iff.mp hget
        obtain ⟨hvalid, rfl⟩ := valid_of_files hfiles
        exact ⟨conversation, hvalid, hid, rfl⟩
      · exact h key bytes hget hkey

structure SystemCache (codec : Codec M) where
  cache : MemoryCache Bytes
  filed : Filed codec cache

namespace SystemCache

/-- A cache that nothing has been written to. -/
def new (codec : Codec M) (history : Nat) : SystemCache codec where
  cache := .withHistory history
  filed key bytes h := by
    have hnone : (MemoryCache.withHistory history : MemoryCache Bytes).get key = none := rfl
    rw [hnone] at h
    cases h

def apply (s : SystemCache codec) (step : Step M) : SystemCache codec :=
  ⟨step.onCache codec s.cache, s.filed.onCache step⟩

def run (s : SystemCache codec) (steps : List (Step M)) : SystemCache codec :=
  steps.foldl apply s

/-- The conversation under an id. -/
def stored (s : SystemCache codec) (id : String) : Option (Conversation M) :=
  (s.cache.get (conversationKey id)).bind codec.decode

variable {s : SystemCache codec} {id : String}

/-- What is stored is what stands in the cache. -/
theorem get_eq_some {bytes : Bytes} (h : s.cache.get (conversationKey id) = some bytes) :
    ∃ conversation, validConversationId id = true ∧ conversation.id = id ∧
      codec.decode bytes = some conversation ∧ s.stored id = some conversation := by
  obtain ⟨conversation, hvalid, hkey, rfl⟩ :=
    s.filed _ bytes h (conversationKey_startsWith id)
  have hid : conversation.id = id := (conversationKey_injective hkey).symm
  refine ⟨conversation, hid ▸ hvalid, hid, codec.decode_encode conversation, ?_⟩
  rw [stored, h]
  exact codec.decode_encode conversation

theorem stored_eq_none : s.stored id = none ↔ s.cache.get (conversationKey id) = none := by
  cases hget : s.cache.get (conversationKey id) with
  | none => simp [stored, hget]
  | some bytes =>
      obtain ⟨conversation, -, -, -, hstored⟩ := get_eq_some hget
      simp [hstored]

/-- A conversation is stored under its own id. -/
theorem id_of_stored {conversation : Conversation M} (h : s.stored id = some conversation) :
    conversation.id = id := by
  cases hget : s.cache.get (conversationKey id) with
  | none =>
      rw [stored_eq_none.mpr hget] at h
      cases h
  | some bytes =>
      obtain ⟨conversation', -, hid, -, hstored⟩ := get_eq_some hget
      rw [hstored] at h
      cases h
      exact hid

end SystemCache

/-! ## The abstract store -/

/-- What the conversations are for: one map from ids to conversations. -/
abbrev Store (M : Type) := String → Option (Conversation M)

def Step.onStore (store : Store M) (step : Step M) : Store M :=
  match step.files? with
  | some (id, filed) => Function.update store id filed
  | none => store

/-- The answer to a request for a conversation; nothing stored is corrupt. -/
def Store.answer (store : Store M) (id : String) (fails : Bool) : Response M :=
  if !validConversationId id then invalidId
  else if fails then storeUnavailable
  else (store id).elim (.error 404 "Conversation not found") .conversation

theorem stored_apply (s : SystemCache codec) (step : Step M) :
    (s.apply step).stored = step.onStore s.stored := by
  funext id
  have hget := @get_onCache _ codec s.cache _ step (conversationKey_startsWith id)
  rw [SystemCache.stored, SystemCache.apply, hget, Step.onStore]
  cases step.files? with
  | none => rfl
  | some files =>
      obtain ⟨id', filed⟩ := files
      show (if conversationKey id = conversationKey id' then filed.map codec.encode
        else s.cache.get (conversationKey id)).bind codec.decode =
          Function.update s.stored id' filed id
      rcases eq_or_ne id id' with rfl | hne
      · rw [Function.update_self, if_pos rfl]
        cases filed with
        | none => rfl
        | some conversation => exact codec.decode_encode conversation
      · rw [Function.update_of_ne hne, if_neg (conversationKey_injective.ne hne)]
        rfl

theorem stored_run (s : SystemCache codec) (steps : List (Step M)) :
    (s.run steps).stored = steps.foldl Step.onStore s.stored := by
  induction steps generalizing s with
  | nil => rfl
  | cons step steps ih =>
      show ((s.apply step).run steps).stored = steps.foldl Step.onStore (step.onStore s.stored)
      rw [ih, stored_apply]

theorem getConversation_eq (s : SystemCache codec) (id : String) (fails : Bool) :
    getConversation codec s.cache id fails = Store.answer s.stored id fails := by
  rw [getConversation, Store.answer]
  cases hget : s.cache.get (conversationKey id) with
  | none =>
      rw [SystemCache.stored_eq_none.mpr hget]
      rfl
  | some bytes =>
      obtain ⟨conversation, -, -, hdecode, hstored⟩ := SystemCache.get_eq_some hget
      simp only [hdecode, hstored]
      rfl

/-! ## Everybody else -/

/-- A step that is not about the key leaves it as it is. -/
theorem getWithRevision_request {step : Step M} (hstep : step.isOther = false)
    (hkey : key.startsWith conversationKeyPrefix = false) :
    (step.onCache codec cache).getWithRevision key = cache.getWithRevision key := by
  have hne : ∀ id, key ≠ conversationKey id := by
    rintro id rfl
    rw [conversationKey_startsWith] at hkey
    cases hkey
  have hcall : ∀ (id : String) (call : KeyCall),
      (call.onMemory cache (conversationKey id)).2.getWithRevision key =
        cache.getWithRevision key := by
    intro id call
    rw [onMemory_entry, if_neg (hne id)]
  cases step with
  | put id body now outcome =>
      rw [Step.onCache, putConversation]
      cases validConversationId id with
      | false => rfl
      | true =>
          cases outcome.applied with
          | false => rfl
          | true => exact hcall id (.put _)
  | delete id outcome =>
      rw [Step.onCache, deleteConversation]
      cases validConversationId id with
      | false => rfl
      | true =>
          cases outcome.applied with
          | false => rfl
          | true => exact hcall id .delete
  | expire id => exact hcall id .delete
  | other key' call foreign => cases hstep

/-- The caches agree on what the others see. -/
def SameForOthers (cache cache' : MemoryCache Bytes) : Prop :=
  ∀ key, key.startsWith conversationKeyPrefix = false →
    cache.getWithRevision key = cache'.getWithRevision key

theorem sameForOthers_run (s s' : SystemCache codec) (steps : List (Step M))
    (h : SameForOthers s.cache s'.cache) :
    SameForOthers (s.run steps).cache (s'.run (steps.filter Step.isOther)).cache := by
  induction steps generalizing s s' with
  | nil => exact h
  | cons step steps ih =>
      cases hother : step.isOther with
      | false =>
          rw [List.filter_cons_of_neg (by simp [hother])]
          refine ih (s.apply step) s' fun key hkey => ?_
          exact (getWithRevision_request hother hkey).trans (h key hkey)
      | true =>
          rw [List.filter_cons_of_pos hother]
          refine ih (s.apply step) (s'.apply step) fun key hkey => ?_
          cases step with
          | other key' call foreign =>
              show (call.onMemory s.cache key').2.getWithRevision key =
                (call.onMemory s'.cache key').2.getWithRevision key
              rw [onMemory_entry, onMemory_entry, h key hkey, h key' foreign]
          | put id body now outcome => cases hother
          | delete id outcome => cases hother
          | expire id => cases hother

/-- **One map, and nobody notices.**  In every run in which requests, expiries and the calls
of everybody else come in any order, and in which a failing call may have been carried out,
a request for a conversation is answered from the map that the requests before it made, never
with a corrupt one; and outside the prefix the cache is, revisions included, as if there had
been no requests, whatever ids they named. -/
theorem conversations_refine (s : SystemCache codec) (steps : List (Step M)) :
    (∀ id fails, getConversation codec (s.run steps).cache id fails =
        Store.answer (steps.foldl Step.onStore s.stored) id fails) ∧
      SameForOthers (s.run steps).cache (s.run (steps.filter Step.isOther)).cache := by
  refine ⟨fun id fails => ?_, sameForOthers_run s s steps fun key _ => rfl⟩
  rw [getConversation_eq, stored_run]

/-! ## The list -/

/-- What happens before `list_conversations` reads a key, and whether the read fails. -/
structure Turn (M : Type) where
  steps : List (Step M)
  fails : Bool

/-- The loop over the keys. -/
def collect (codec : Codec M) (turn : String → Turn M) :
    MemoryCache Bytes → List String → List ConversationSummary
  | _, [] => []
  | cache, key :: keys =>
      let now := (turn key).steps.foldl (Step.onCache codec) cache
      (readSummary codec now key (turn key).fails).toList ++ collect codec turn now keys

def listConversations (codec : Codec M) (turn : String → Turn M) (cache : MemoryCache Bytes)
    (keysFail : Bool) : Response M :=
  if keysFail then storeUnavailable
  else
    .conversations
      (newestFirst (collect codec turn cache (cache.listKeys conversationKeyPrefix)))

namespace SystemCache

theorem run_cache (s : SystemCache codec) (steps : List (Step M)) :
    (s.run steps).cache = steps.foldl (Step.onCache codec) s.cache := by
  induction steps generalizing s with
  | nil => rfl
  | cons step steps ih => exact ih (s.apply step)

/-- The cache at each of the reads. -/
def reads (turn : String → Turn M) (s : SystemCache codec) : List String → List (SystemCache codec)
  | [] => []
  | key :: keys => s.run (turn key).steps :: reads turn (s.run (turn key).steps) keys

/-- The cache when the keys are listed, and at each of the reads. -/
def moments (turn : String → Turn M) (s : SystemCache codec) : List (SystemCache codec) :=
  s :: s.reads turn (s.cache.listKeys conversationKeyPrefix)

variable {turn : String → Turn M} {s : SystemCache codec} {id : String} {keys : List String}
  {summary : ConversationSummary}

/-- What is read under a key is the conversation that is stored under its id. -/
theorem readSummary_eq_some {fails : Bool} (hkey : key.startsWith conversationKeyPrefix = true)
    (h : readSummary codec s.cache key fails = some summary) :
    key = conversationKey summary.id ∧
      ∃ conversation, s.stored summary.id = some conversation ∧
        conversation.summary = summary := by
  rw [readSummary] at h
  split at h
  · cases h
  · obtain ⟨conversation, hread, rfl⟩ := Option.map_eq_some_iff.mp h
    obtain ⟨bytes, hget, hdecode⟩ := Option.bind_eq_some_iff.mp hread
    obtain ⟨stands, -, rfl, rfl⟩ := s.filed key bytes hget hkey
    rw [codec.decode_encode] at hdecode
    cases hdecode
    refine ⟨rfl, conversation, ?_, rfl⟩
    show (s.cache.get (conversationKey conversation.id)).bind codec.decode = some conversation
    rw [hget]
    exact codec.decode_encode conversation

theorem readSummary_of_stored {conversation : Conversation M}
    (h : s.stored id = some conversation) :
    readSummary codec s.cache (conversationKey id) false = some conversation.summary := by
  rw [stored] at h
  show ((s.cache.get (conversationKey id)).bind codec.decode).map Conversation.summary = _
  rw [h]
  rfl

theorem collect_cons (turn : String → Turn M) (s : SystemCache codec) (key : String)
    (keys : List String) :
    collect codec turn s.cache (key :: keys) =
      (readSummary codec (s.run (turn key).steps).cache key (turn key).fails).toList ++
        collect codec turn (s.run (turn key).steps).cache keys := by
  rw [run_cache]
  rfl

/-- The loop adds at most one summary for a key. -/
theorem collect_sublist (hkeys : ∀ key ∈ keys, key.startsWith conversationKeyPrefix = true) :
    ((collect codec turn s.cache keys).map fun summary => conversationKey summary.id).Sublist
      keys := by
  induction keys generalizing s with
  | nil => exact List.Sublist.slnil
  | cons key keys ih =>
      have hrest := ih (s := s.run (turn key).steps) fun k hk => hkeys k (List.mem_cons_of_mem _ hk)
      rw [collect_cons]
      cases hread : readSummary codec (s.run (turn key).steps).cache key (turn key).fails with
      | none => exact hrest.cons _
      | some summary =>
          obtain ⟨hkey, -⟩ := readSummary_eq_some (hkeys key List.mem_cons_self) hread
          subst hkey
          exact hrest.cons_cons _

theorem stored_of_mem_collect (hkeys : ∀ key ∈ keys, key.startsWith conversationKeyPrefix = true)
    (h : summary ∈ collect codec turn s.cache keys) :
    ∃ moment ∈ s.reads turn keys, ∃ conversation, moment.stored summary.id = some conversation ∧
      conversation.summary = summary := by
  induction keys generalizing s with
  | nil => cases h
  | cons key keys ih =>
      rw [collect_cons] at h
      rcases List.mem_append.mp h with hhere | hrest
      · have hread := Option.mem_toList.mp hhere
        obtain ⟨-, hstored⟩ := readSummary_eq_some (hkeys key List.mem_cons_self) hread
        exact ⟨s.run (turn key).steps, List.mem_cons_self, hstored⟩
      · obtain ⟨moment, hmoment, hstored⟩ :=
          ih (fun k hk => hkeys k (List.mem_cons_of_mem _ hk)) hrest
        exact ⟨moment, List.mem_cons_of_mem _ hmoment, hstored⟩

theorem mem_collect_of_stored (hid : conversationKey id ∈ keys)
    (hfails : (turn (conversationKey id)).fails = false)
    (h : ∀ moment ∈ s.reads turn keys, (moment.stored id).isSome) :
    id ∈ (collect codec turn s.cache keys).map ConversationSummary.id := by
  induction keys generalizing s with
  | nil => cases hid
  | cons key keys ih =>
      rw [collect_cons, List.map_append, List.mem_append]
      rcases List.mem_cons.mp hid with rfl | hrest
      · left
        obtain ⟨conversation, hstored⟩ := Option.isSome_iff_exists.mp (h _ List.mem_cons_self)
        rw [hfails, readSummary_of_stored hstored]
        exact List.mem_singleton.mpr (id_of_stored hstored).symm
      · right
        exact ih hrest fun moment hmoment => h moment (List.mem_cons_of_mem _ hmoment)

theorem mem_listKeys_of_stored (h : (s.stored id).isSome) :
    conversationKey id ∈ s.cache.listKeys conversationKeyPrefix := by
  have hget : s.cache.get (conversationKey id) ≠ none := by
    intro hnone
    rw [stored_eq_none.mpr hnone] at h
    cases h
  refine List.mem_filter.mpr ⟨?_, conversationKey_startsWith id⟩
  rw [← AList.mem_keys, ← AList.lookup_isSome]
  cases hlookup : s.cache.data.lookup (conversationKey id) with
  | none =>
      rw [MemoryCache.get, hlookup] at hget
      exact absurd rfl hget
  | some entry => rfl

end SystemCache

theorem newestFirst_pairwise (summaries : List ConversationSummary) :
    (newestFirst summaries).Pairwise fun a b => b.updatedAt ≤ a.updatedAt := by
  have hsorted : (newestFirst summaries).Pairwise fun a b => decide (b.updatedAt ≤ a.updatedAt) := by
    refine List.pairwise_mergeSort (fun a b c hab hbc => ?_) (fun a b => ?_) summaries
    · exact decide_eq_true ((of_decide_eq_true hbc).trans (of_decide_eq_true hab))
    · rcases Int.le_total b.updatedAt a.updatedAt with h | h
      · simp [h]
      · simp [h]
  exact hsorted.imp of_decide_eq_true

/-- **The list, while others write.**  Whatever happens between the listing of the keys and
each of the reads, the answer is sorted by the time of the last write and names no conversation
twice.  Every summary is that of a conversation stored at one of these moments, and a
conversation that is stored at all of them is in the answer unless its own read failed. -/
theorem listConversations_during (turn : String → Turn M) (s : SystemCache codec) :
    ∃ summaries, listConversations codec turn s.cache false = .conversations summaries ∧
      summaries.Pairwise (fun a b => b.updatedAt ≤ a.updatedAt) ∧
      (summaries.map ConversationSummary.id).Nodup ∧
      (∀ summary ∈ summaries, ∃ moment ∈ s.moments turn, ∃ conversation,
        moment.stored summary.id = some conversation ∧ conversation.summary = summary) ∧
      ∀ id, (∀ moment ∈ s.moments turn, (moment.stored id).isSome) →
        (turn (conversationKey id)).fails = false →
          id ∈ summaries.map ConversationSummary.id := by
  have hkeys : ∀ key ∈ s.cache.listKeys conversationKeyPrefix,
      key.startsWith conversationKeyPrefix = true := fun key hkey => (List.mem_filter.mp hkey).2
  have hperm : (newestFirst (collect codec turn s.cache
      (s.cache.listKeys conversationKeyPrefix))).Perm _ := List.mergeSort_perm _ _
  refine ⟨_, rfl, newestFirst_pairwise _, ?_, fun summary hsummary => ?_, fun id hall hfails => ?_⟩
  · have hnodup : (s.cache.listKeys conversationKeyPrefix).Nodup :=
      s.cache.data.keys_nodup.filter _
    have hcollected : ((collect codec turn s.cache (s.cache.listKeys conversationKeyPrefix)).map
        fun summary => conversationKey summary.id).Nodup :=
      hnodup.sublist (SystemCache.collect_sublist hkeys)
    rw [(hperm.map _).nodup_iff]
    refine List.Nodup.of_map conversationKey ?_
    rw [List.map_map]
    exact hcollected
  · obtain ⟨moment, hmoment, hstored⟩ :=
      SystemCache.stored_of_mem_collect hkeys (hperm.mem_iff.mp hsummary)
    exact ⟨moment, List.mem_cons_of_mem _ hmoment, hstored⟩
  · rw [(hperm.map _).mem_iff]
    refine SystemCache.mem_collect_of_stored ?_ hfails fun moment hmoment =>
      hall moment (List.mem_cons_of_mem _ hmoment)
    exact SystemCache.mem_listKeys_of_stored (hall s List.mem_cons_self)

end Flowgen.Web.Conversations
