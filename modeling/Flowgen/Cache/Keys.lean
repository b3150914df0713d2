/-
# `Flowgen.Cache.Keys` — who may use which key of the cache

All flows share one flat keyspace.  A script names a key freely and the handle
it is given puts the flow's key-safe id in front of it
(`core/src/task/script.rs`); a generate task keeps its counter and its times
under keys that begin with the word `flow` (`core/src/task/generate.rs`).  The
id is the base64url form of the flow's identity (`core/src/identity.rs`), which
is injective and has no dot in it, so that the text before the first dot of a
script's key says whose it is.

It says so unless the word `flow` is an id itself, and it is: the id of
`~Z0`.  A script of that flow reaches the counter of every other flow, and
apart from it no two flows meet (`separate_iff`).
-/
import Flowgen.Lib.Base64
import Flowgen.Text
import Flowgen.Cache.Memory

namespace Flowgen.Cache.Keys

open Flowgen.Lib

/-- `FlowIdentity`: the path of a flow. -/
structure FlowIdentity where
  path : String
deriving DecidableEq

def encodeKey (identity : String) : String :=
  String.ofList (Base64.encode Base64.urlSafe identity.toByteArray.data.toList)

def FlowIdentity.asKey (flow : FlowIdentity) : String := encodeKey flow.path

/-! ## The keys of a generate task -/

def lastRunKey (flow : FlowIdentity) (name : String) : String :=
  "flow." ++ flow.asKey ++ ".last_run." ++ name

def lastAttemptKey (flow : FlowIdentity) (name : String) : String :=
  "flow." ++ flow.asKey ++ ".last_attempt." ++ name

def counterKey (flow : FlowIdentity) (name : String) : String :=
  "flow." ++ flow.asKey ++ ".counter." ++ name

/-! ## The cache functions of a script -/

/-- What `ctx.cache` is; `flowName` is the id of the script's flow. -/
structure CacheHandle where
  flowName : String

def FlowIdentity.handle (flow : FlowIdentity) : CacheHandle := ⟨flow.asKey⟩

def CacheHandle.namespaced (h : CacheHandle) (key : String) : String := h.flowName ++ "." ++ key

/-- A call of one of the functions on `ctx.cache`; an integer is stored as its
text. -/
inductive ScriptOp
  | get (key : String)
  | put (key value : String)
  | delete (key : String)
  | listKeys (keyPrefix : String)

inductive Reply
  | value (found : Option String)
  | done
  | keys (found : List String)

def strip (ns key : String) : String :=
  match Text.stripPrefix ns.toList key.toList with
  | some rest => String.ofList rest
  | none => key

/-- What the function does to the cache, and what it returns. -/
def ScriptOp.run (h : CacheHandle) (c : MemoryCache String) :
    ScriptOp → Reply × MemoryCache String
  | .get key => (.value (c.get (h.namespaced key)), c)
  | .put key value => (.done, c.put (h.namespaced key) value)
  | .delete key => (.done, c.delete (h.namespaced key))
  | .listKeys keyPrefix =>
      (.keys ((c.listKeys (h.namespaced keyPrefix)).map (strip (h.flowName ++ "."))), c)

/-- The keys the function reads, writes, lists or deletes. -/
def ScriptOp.reaches (h : CacheHandle) (c : MemoryCache String) : ScriptOp → List String
  | .get key | .put key _ | .delete key => [h.namespaced key]
  | .listKeys keyPrefix => c.listKeys (h.namespaced keyPrefix)

/-! ## Namespaces -/

/-- The keys some script of the flow reaches. -/
def scriptKeys (flow : FlowIdentity) : Set String :=
  {k | ∃ (c : MemoryCache String) (op : ScriptOp), k ∈ op.reaches flow.handle c}

/-- The keys some generate task of the flow stores under. -/
def generateKeys (flow : FlowIdentity) : Set String :=
  {k | ∃ name, k = lastRunKey flow name ∨ k = lastAttemptKey flow name ∨ k = counterKey flow name}

/-- No script of `a` reaches a key of `b`. -/
def Separate (a b : FlowIdentity) : Prop :=
  Disjoint (scriptKeys a) (scriptKeys b ∪ generateKeys b)

/-- The flow whose id is the first word of the keys of the generate tasks. -/
def flowWord : FlowIdentity := ⟨"~Z0"⟩

theorem asKey_flowWord : flowWord.asKey = "flow" := by decide

/-! ### The ids -/

variable {a b flow : FlowIdentity} {k : String} {c : MemoryCache String} {op : ScriptOp}
  {h : CacheHandle}

theorem toList_asKey (flow : FlowIdentity) : flow.asKey.toList =
    Base64.encode Base64.urlSafe flow.path.toByteArray.data.toList :=
  String.toList_ofList

/-- Distinct identities have distinct ids. -/
theorem asKey_injective : Function.Injective FlowIdentity.asKey := by
  rintro ⟨p⟩ ⟨q⟩ h
  have hletters := congrArg String.toList h
  rw [toList_asKey, toList_asKey] at hletters
  have hbytes := Base64.encode_injective Base64.urlSafe_injective hletters
  have harray : p.toByteArray = q.toByteArray :=
    ByteArray.ext (Array.toList_inj.mp hbytes)
  rw [String.toByteArray_inj.mp harray]

theorem dot_notMem_asKey (flow : FlowIdentity) : '.' ∉ flow.asKey.toList := by
  intro hdot
  rw [toList_asKey] at hdot
  obtain ⟨digit, hdigit⟩ := Base64.mem_encode hdot
  rcases Base64.urlSafe_letters digit with hletter | hletter | hletter
  · rw [hdigit] at hletter
    cases hletter
  · cases hdigit.symm.trans hletter
  · cases hdigit.symm.trans hletter

/-! ### The keys -/

/-- Two keys with a dot-free word before the first dot are the same only if the
words are. -/
theorem word_eq {w w' rest rest' : String} (hw : '.' ∉ w.toList) (hw' : '.' ∉ w'.toList)
    (h : w ++ "." ++ rest = w' ++ "." ++ rest') : w = w' := by
  have hlist := congrArg String.toList h
  simp only [String.toList_append] at hlist
  have hsplit : w.toList ++ '.' :: rest.toList = w'.toList ++ '.' :: rest'.toList := by
    simpa using hlist
  have hfirst := congrArg (Text.splitOnce '.') hsplit
  rw [Text.splitOnce_append hw, Text.splitOnce_append hw'] at hfirst
  exact String.toList_injective (Prod.ext_iff.mp (Option.some.inj hfirst)).1

theorem reaches_namespaced (hk : k ∈ op.reaches h c) : ∃ key, k = h.namespaced key := by
  cases op with
  | get key => exact ⟨key, List.mem_singleton.mp hk⟩
  | put key value => exact ⟨key, List.mem_singleton.mp hk⟩
  | delete key => exact ⟨key, List.mem_singleton.mp hk⟩
  | listKeys keyPrefix =>
      obtain ⟨-, hstarts⟩ := List.mem_filter.mp hk
      obtain ⟨rest, hrest⟩ := String.startsWith_string_iff.mp hstarts
      refine ⟨keyPrefix ++ String.ofList rest, ?_⟩
      apply String.toList_injective
      rw [← hrest]
      simp [CacheHandle.namespaced]

/-- A script reaches the keys that begin with the id of its flow and a dot, and
no others. -/
theorem mem_scriptKeys : k ∈ scriptKeys flow ↔ ∃ key, k = flow.asKey ++ "." ++ key := by
  constructor
  · rintro ⟨c, op, hk⟩
    exact reaches_namespaced hk
  · rintro ⟨key, rfl⟩
    exact ⟨MemoryCache.withHistory 0, .get key, List.mem_singleton_self _⟩

/-- The cache functions change only what they reach. -/
theorem run_frame (hk : k ∉ op.reaches h c) : (op.run h c).2.get k = c.get k := by
  cases op with
  | get key => rfl
  | put key value =>
      have hne : k ≠ h.namespaced key := List.ne_of_not_mem_cons hk
      show ((c.data.insert (h.namespaced key) _).lookup k).map _ = _
      rw [AList.lookup_insert_ne hne]
      rfl
  | delete key =>
      have hne : k ≠ h.namespaced key := List.ne_of_not_mem_cons hk
      show ((c.data.erase (h.namespaced key)).lookup k).map _ = _
      rw [AList.lookup_erase_ne hne]
      rfl
  | listKeys keyPrefix => rfl

theorem generateKeys_flow (hk : k ∈ generateKeys flow) : ∃ rest, k = "flow" ++ "." ++ rest := by
  obtain ⟨name, rfl | rfl | rfl⟩ := hk
  · exact ⟨flow.asKey ++ ".last_run." ++ name, by simp [lastRunKey, String.append_assoc]⟩
  · exact ⟨flow.asKey ++ ".last_attempt." ++ name, by simp [lastAttemptKey, String.append_assoc]⟩
  · exact ⟨flow.asKey ++ ".counter." ++ name, by simp [counterKey, String.append_assoc]⟩

/-! ## Disjointness -/

/-- Scripts of distinct flows share no key. -/
theorem scripts_disjoint (hab : a ≠ b) : Disjoint (scriptKeys a) (scriptKeys b) := by
  rw [Set.disjoint_left]
  intro k ha hb
  obtain ⟨key, rfl⟩ := mem_scriptKeys.mp ha
  obtain ⟨key', hkey⟩ := mem_scriptKeys.mp hb
  exact hab (asKey_injective (word_eq (dot_notMem_asKey a) (dot_notMem_asKey b) hkey))

/-- The scripts of a flow whose id is not the word `flow` reach no generate
task. -/
theorem generates_disjoint (ha : a ≠ flowWord) : Disjoint (scriptKeys a) (generateKeys b) := by
  rw [Set.disjoint_left]
  intro k hscript hgenerate
  obtain ⟨key, rfl⟩ := mem_scriptKeys.mp hscript
  obtain ⟨rest, hrest⟩ := generateKeys_flow hgenerate
  have hword : a.asKey = "flow" := word_eq (dot_notMem_asKey a) (by decide) hrest
  exact ha (asKey_injective (hword.trans asKey_flowWord.symm))

/-- The scripts of the flow `~Z0` reach the counter of every generate task. -/
theorem counter_reached (name : String) : counterKey b name ∈ scriptKeys flowWord := by
  refine mem_scriptKeys.mpr ⟨b.asKey ++ ".counter." ++ name, ?_⟩
  rw [asKey_flowWord]
  simp [counterKey, String.append_assoc]

theorem separate_iff_ne (hab : a ≠ b) : Separate a b ↔ a ≠ flowWord := by
  constructor
  · rintro h rfl
    have hcounter : counterKey b "tick" ∈ scriptKeys b ∪ generateKeys b :=
      Or.inr ⟨"tick", Or.inr (Or.inr rfl)⟩
    exact Set.disjoint_left.mp h (counter_reached "tick") hcounter
  · intro ha
    exact Disjoint.union_right (scripts_disjoint hab) (generates_disjoint ha)

/-- **When the namespaces are disjoint.**  Two distinct flows keep out of each
other's keys if and only if neither of them is `~Z0`. -/
theorem separate_iff (hab : a ≠ b) :
    Separate a b ∧ Separate b a ↔ a ≠ flowWord ∧ b ≠ flowWord :=
  and_congr (separate_iff_ne hab) (separate_iff_ne hab.symm)

theorem separate_iff_orders :
    Separate ⟨"orders"⟩ ⟨"billing/daily"⟩ ∧ Separate ⟨"billing/daily"⟩ ⟨"orders"⟩ :=
  (separate_iff (by decide)).mpr (by decide)

/-- A script of `~Z0` deletes the counter of a generate task of `orders`, which
then starts again. -/
theorem counter_deleted :
    let a : FlowIdentity := ⟨"~Z0"⟩
    let b : FlowIdentity := ⟨"orders"⟩
    let c : MemoryCache String :=
      (MemoryCache.withHistory 0).put "flow.b3JkZXJz.counter.tick" "41"
    let op : ScriptOp := .delete "b3JkZXJz.counter.tick"
    a ≠ b ∧ ¬ Separate a b ∧ counterKey b "tick" ∈ op.reaches a.handle c ∧
      c.get (counterKey b "tick") = some "41" ∧
      (op.run a.handle c).2.get (counterKey b "tick") = none := by
  intro a b c op
  have hreached : counterKey b "tick" ∈ op.reaches a.handle c := by decide
  refine ⟨by decide, ?_, hreached, by decide, by decide⟩
  intro hseparate
  exact Set.disjoint_left.mp hseparate ⟨c, op, hreached⟩ (Or.inr ⟨"tick", Or.inr (Or.inr rfl)⟩)

end Flowgen.Cache.Keys
