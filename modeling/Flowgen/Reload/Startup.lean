/-
# `Flowgen.Reload.Startup` — the flows of the cache when the app starts
(`app/src/app.rs`), against the reconciler (`app/src/reconciler.rs`)

When the app starts it lists the keys under the prefix, reads and parses each
value, leaves out the flows that the filesystem has, and builds, initialises and
starts the rest.  The reconciler does the same with a key that is put.

The two part in two places.  A value that is not UTF-8 makes the start fail,
where the reconciler puts replacement characters in and leaves the entry out if
that cannot be parsed; and a flow whose tasks cannot be started is in the
registry all the same when the app starts, and not when it is reloaded.  On a
cache that meets neither, and on no other, both load the same flows from the same
texts, in whatever order the keys are put (`startup_agrees_iff`).

Parsing, the check of the names and the steps of a flow are parameters, as in
the reconciler; the calls of the cache succeed.
-/
import Flowgen.Lib.Utf8
import Flowgen.Reload.Reconciler

namespace Flowgen.Reload

open Flowgen.Lib Flowgen.Text

/-- A parsed flow with its path and its source. -/
structure FlowConfig where
  identity : String
  rawSource : String
deriving DecidableEq

inductive StartError
  | cacheFlowUtf8 (key : String)
  | duplicateFlowIdentity (identity : String)
deriving DecidableEq

/-- What the app starts with: the flows of the filesystem and the content of the
cache, in the order it is listed in. -/
structure Setup where
  keyPrefix : String
  stages : Stages String
  filesystem : List FlowConfig
  cache : List (String × List UInt8)
  filesystem_nodup : (filesystem.map FlowConfig.identity).Nodup
  cache_nodup : (cache.map Prod.fst).Nodup

namespace Setup

variable (U : Setup)

def filesystemFlowPaths : List String := U.filesystem.map FlowConfig.identity

/-- `cache.list_keys(prefix)`, with the values. -/
def listed : List (String × List UInt8) :=
  U.cache.filter fun e => (stripPrefix U.keyPrefix.toList e.1.toList).isSome

/-! ## The start -/

/-- A value that was read: parsed, named by its key and checked, or left out. -/
def parseCached (key content : String) : Option FlowConfig :=
  if !U.stages.parse key content then none
  else
    match (stripPrefix U.keyPrefix.toList key.toList).bind (stripPrefix ['.']) with
    | none => none
    | some path =>
        let identityPath := String.ofList path
        if !U.stages.fromPath identityPath content then none
        else some ⟨identityPath, content⟩

def loadFlowsFromCache : List (String × List UInt8) →
    Except StartError (List (String × FlowConfig))
  | [] => .ok []
  | (key, bytes) :: rest =>
      match Utf8.fromUtf8 bytes with
      | none => .error (.cacheFlowUtf8 key)
      | some content => do
          let flowConfigs ← loadFlowsFromCache rest
          return ((U.parseCached key content).map fun flow => (key, flow)).toList ++ flowConfigs

/-- Two flows of the filesystem under one path. -/
def duplicate : List String → List FlowConfig → Option String
  | _, [] => none
  | identities, config :: rest =>
      if config.identity ∈ identities then some config.identity
      else duplicate (config.identity :: identities) rest

/-- The flows of the cache that are not shadowed, and the keys of those that are,
which are deleted. -/
def merge (seenPaths : List String) : List (String × FlowConfig) →
    List FlowConfig × List String
  | [] => ([], [])
  | (key, flow) :: rest =>
      if flow.identity ∈ seenPaths then
        let merged := merge seenPaths rest
        (merged.1, key :: merged.2)
      else
        let merged := merge (flow.identity :: seenPaths) rest
        (flow :: merged.1, merged.2)

/-- The flow is put into the registry; that its tasks could not be started was
only logged. -/
def register (registry : Registry String) (flow : FlowConfig) : Registry String :=
  Function.update registry flow.identity
    (some ⟨flow.rawSource, decide (flow.identity ∈ U.filesystemFlowPaths), false⟩)

def startFlows (flows : List FlowConfig) : Registry String :=
  let built := flows.filter fun flow => U.stages.build flow.identity flow.rawSource
  let initialized := built.filter fun flow => U.stages.init flow.identity flow.rawSource
  initialized.foldl U.register fun _ => none

/-- `App::start`, as far as the registry. -/
def start : Except StartError (Registry String) := do
  let cacheFlows ← U.loadFlowsFromCache U.listed
  match duplicate [] U.filesystem with
  | some identity => .error (.duplicateFlowIdentity identity)
  | none => return U.startFlows (U.filesystem ++ (merge U.filesystemFlowPaths cacheFlows).1)

/-! ## The reconciler -/

def config : Config String := ⟨U.keyPrefix, U.filesystemFlowPaths, U.stages⟩

/-- A put with the bytes of its value. -/
def reconcileBytes (registry : Registry String) (e : String × List UInt8) : Registry String :=
  reconcilePut U.config registry e.1 (Utf8.fromUtf8Lossy e.2)

/-- Every key is put once. -/
def reconcileAll (puts : List (String × List UInt8)) (registry : Registry String) :
    Registry String :=
  puts.foldl U.reconcileBytes registry

end Setup

/-- The flows of a registry that are the cache's, with their texts. -/
def cacheFlows (registry : Registry String) : Set (String × String) :=
  {flow | registry flow.1 = some ⟨flow.2, false, false⟩}

/-- The app starts, with the flows the reconciler would load. -/
def Setup.Agrees (U : Setup) : Prop :=
  ∃ registry, U.start = .ok registry ∧ ∀ puts, puts.Perm U.listed →
    cacheFlows registry = cacheFlows (U.reconcileAll puts fun _ => none)

namespace Setup

/-- The entry stands for the flow, and its text leads to an initialised one. -/
structure Leads (U : Setup) (e : String × List UInt8) (flow text : String) : Prop where
  name : deriveFlowName U.keyPrefix e.1 = some flow
  parse : U.stages.parse e.1 text = true
  fromPath : U.stages.fromPath flow text = true
  unshadowed : flow ∉ U.filesystemFlowPaths
  build : U.stages.build flow text = true
  init : U.stages.init flow text = true

/-- Every value under the prefix is UTF-8, and where it leads to a flow the tasks of
that can be started. -/
structure Tame (U : Setup) : Prop where
  utf8 : ∀ e ∈ U.listed, (Utf8.fromUtf8 e.2).isSome = true
  starts : ∀ e ∈ U.listed, ∀ flow text, Utf8.fromUtf8 e.2 = some text → U.Leads e flow text →
    U.stages.startTasks flow text = true

variable {U : Setup} {e : String × List UInt8} {l puts : List (String × List UInt8)}
  {flow text key : String} {registry : Registry String} {c : FlowConfig} {flows : List FlowConfig}
  {seen : List String} {handle : FlowHandle String}

/-! ## What the start loads -/

theorem duplicate_eq_none {identities : List String} {configs : List FlowConfig}
    (hnodup : (configs.map FlowConfig.identity).Nodup)
    (hnew : ∀ c ∈ configs, c.identity ∉ identities) : duplicate identities configs = none := by
  induction configs generalizing identities with
  | nil => rfl
  | cons config rest ih =>
      obtain ⟨hconfig, hrest⟩ := List.nodup_cons.mp hnodup
      rw [duplicate, if_neg (hnew config List.mem_cons_self)]
      refine ih hrest ?_
      intro c hc hmem
      rcases List.mem_cons.mp hmem with heq | hmem
      · exact hconfig (List.mem_map.mpr ⟨c, hc, heq⟩)
      · exact hnew c (List.mem_cons_of_mem _ hc) hmem

/-- What becomes of an entry that is text. -/
def parseBytes (U : Setup) (e : String × List UInt8) : Option (String × FlowConfig) :=
  (Utf8.fromUtf8 e.2).bind fun content => (U.parseCached e.1 content).map fun flow => (e.1, flow)

theorem loadFlowsFromCache_ok (h : ∀ e ∈ l, (Utf8.fromUtf8 e.2).isSome = true) :
    U.loadFlowsFromCache l = .ok (l.filterMap U.parseBytes) := by
  induction l with
  | nil => rfl
  | cons e rest ih =>
      obtain ⟨content, hcontent⟩ := Option.isSome_iff_exists.mp (h e List.mem_cons_self)
      have hrest := ih fun e' he' => h e' (List.mem_cons_of_mem _ he')
      have hentry : U.parseBytes e = (U.parseCached e.1 content).map fun flow => (e.1, flow) := by
        rw [parseBytes, hcontent]
        rfl
      rw [loadFlowsFromCache, hcontent, hrest]
      change Except.ok _ = _
      rw [List.filterMap_cons, hentry]
      cases U.parseCached e.1 content with
      | none => rfl
      | some flow => rfl

theorem loadFlowsFromCache_error (he : e ∈ l) (h : Utf8.fromUtf8 e.2 = none) :
    ∃ error, U.loadFlowsFromCache l = .error error := by
  induction l with
  | nil => cases he
  | cons e' rest ih =>
      rw [loadFlowsFromCache]
      cases hcontent : Utf8.fromUtf8 e'.2 with
      | none => exact ⟨_, rfl⟩
      | some content =>
          rcases List.mem_cons.mp he with rfl | he
          · rw [h] at hcontent
            cases hcontent
          · obtain ⟨error, herror⟩ := ih he
            rw [herror]
            exact ⟨error, rfl⟩

theorem parseCached_eq_some : U.parseCached key text = some c ↔
    ∃ flow, deriveFlowName U.keyPrefix key = some flow ∧ U.stages.parse key text = true ∧
      U.stages.fromPath flow text = true ∧ c = ⟨flow, text⟩ := by
  rw [parseCached, deriveFlowName, stripPrefix_append]
  cases hpath : (stripPrefix U.keyPrefix.toList key.toList).bind (stripPrefix ['.']) with
  | none => simp
  | some path =>
      cases hparse : U.stages.parse key text with
      | false => simp
      | true =>
          cases hfrom : U.stages.fromPath (String.ofList path) text with
          | false => simp [hfrom]
          | true =>
              simp only [Option.map_some, Bool.not_true, Bool.false_eq_true, if_false, hfrom,
                Option.some.injEq, true_and]
              constructor
              · rintro rfl
                exact ⟨_, rfl, hfrom, rfl⟩
              · rintro ⟨flow, rfl, -, rfl⟩
                rfl

theorem parseBytes_eq_some {entry : String × FlowConfig} : U.parseBytes e = some entry ↔
    ∃ flow text, Utf8.fromUtf8 e.2 = some text ∧ deriveFlowName U.keyPrefix e.1 = some flow ∧
      U.stages.parse e.1 text = true ∧ U.stages.fromPath flow text = true ∧
        entry = (e.1, ⟨flow, text⟩) := by
  rw [parseBytes, Option.bind_eq_some_iff]
  constructor
  · rintro ⟨text, htext, hentry⟩
    obtain ⟨c, hc, rfl⟩ := Option.map_eq_some_iff.mp hentry
    obtain ⟨flow, hname, hparse, hfrom, rfl⟩ := parseCached_eq_some.mp hc
    exact ⟨flow, text, htext, hname, hparse, hfrom, rfl⟩
  · rintro ⟨flow, text, htext, hname, hparse, hfrom, rfl⟩
    refine ⟨text, htext, Option.map_eq_some_iff.mpr ⟨⟨flow, text⟩, ?_, rfl⟩⟩
    exact parseCached_eq_some.mpr ⟨flow, hname, hparse, hfrom, rfl⟩

theorem key_of_flow {key' : String} (h : deriveFlowName U.keyPrefix key = some flow)
    (h' : deriveFlowName U.keyPrefix key' = some flow) : key = key' := by
  change deriveFlowName U.config.keyPrefix _ = _ at h h'
  exact key_unique h h'

/-- Keys that are not the same stand for flows that are not. -/
theorem identities_nodup (hl : (l.map Prod.fst).Nodup) :
    ((l.filterMap U.parseBytes).map fun entry => entry.2.identity).Nodup := by
  induction l with
  | nil => exact List.nodup_nil
  | cons e rest ih =>
      obtain ⟨he, hrest⟩ := List.nodup_cons.mp hl
      rw [List.filterMap_cons]
      cases hentry : U.parseBytes e with
      | none => exact ih hrest
      | some entry =>
          refine List.nodup_cons.mpr ⟨?_, ih hrest⟩
          intro hmem
          obtain ⟨entry', hentry', heq⟩ := List.mem_map.mp hmem
          obtain ⟨e', he', hentry'⟩ := List.mem_filterMap.mp hentry'
          obtain ⟨flow, text, -, hname, -, -, rfl⟩ := parseBytes_eq_some.mp hentry
          obtain ⟨flow', text', -, hname', -, -, rfl⟩ := parseBytes_eq_some.mp hentry'
          obtain rfl : flow' = flow := heq
          have hkey := key_of_flow hname hname'
          exact he (List.mem_map.mpr ⟨e', he', hkey.symm⟩)

/-- With the keys telling the flows apart, those that the filesystem does not have
are taken. -/
theorem merge_fst (seen : List String) {entries : List (String × FlowConfig)}
    (hnodup : (entries.map fun entry => entry.2.identity).Nodup) :
    (merge seen entries).1 =
      (entries.map Prod.snd).filter fun flow => decide (flow.identity ∉ seen) := by
  induction entries generalizing seen with
  | nil => rfl
  | cons entry rest ih =>
      obtain ⟨hentry, hrest⟩ := List.nodup_cons.mp hnodup
      rw [merge, List.map_cons, List.filter_cons]
      split
      · rename_i hseen
        rw [if_neg (by simpa using hseen)]
        exact ih _ hrest
      · rename_i hseen
        rw [if_pos (by simpa using hseen)]
        change entry.2 :: (merge (entry.2.identity :: seen) rest).1 = _
        rw [ih _ hrest]
        congr 1
        refine List.filter_congr ?_
        intro flow hflow
        obtain ⟨entry', hentry', rfl⟩ := List.mem_map.mp hflow
        have hne : entry'.2.identity ≠ entry.2.identity := fun heq =>
          hentry (List.mem_map.mpr ⟨entry', hentry', heq⟩)
        simp [hne]

/-! ## What is in the registry -/

theorem foldl_register_of_ne (registry : Registry String) (h : ∀ c ∈ flows, c.identity ≠ flow) :
    flows.foldl U.register registry flow = registry flow := by
  induction flows generalizing registry with
  | nil => rfl
  | cons c rest ih =>
      rw [List.foldl_cons, ih _ fun c' hc' => h c' (List.mem_cons_of_mem _ hc')]
      exact Function.update_of_ne (Ne.symm (h c List.mem_cons_self)) ..

theorem foldl_register_of_mem (registry : Registry String) (hnodup : (flows.map FlowConfig.identity).Nodup)
    (hc : c ∈ flows) : flows.foldl U.register registry c.identity =
      some ⟨c.rawSource, decide (c.identity ∈ U.filesystemFlowPaths), false⟩ := by
  induction flows generalizing registry with
  | nil => cases hc
  | cons c' rest ih =>
      obtain ⟨hfirst, hrest⟩ := List.nodup_cons.mp hnodup
      rw [List.foldl_cons]
      rcases List.mem_cons.mp hc with rfl | hc
      · rw [foldl_register_of_ne]
        · exact Function.update_self ..
        · intro c' hc' heq
          exact hfirst (List.mem_map.mpr ⟨c', hc', heq⟩)
      · exact ih _ hrest hc

theorem mem_cacheFlows_startFlows (hnodup : (flows.map FlowConfig.identity).Nodup) :
    (flow, text) ∈ cacheFlows (U.startFlows flows) ↔ ⟨flow, text⟩ ∈ flows ∧
      U.stages.build flow text = true ∧ U.stages.init flow text = true ∧
        flow ∉ U.filesystemFlowPaths := by
  unfold startFlows
  set initialized := (flows.filter fun c => U.stages.build c.identity c.rawSource).filter
    fun c => U.stages.init c.identity c.rawSource with hinitialized
  have hsub : (initialized.map FlowConfig.identity).Nodup :=
    hnodup.sublist ((List.filter_sublist.trans List.filter_sublist).map _)
  have hmem : ∀ c, c ∈ initialized ↔ c ∈ flows ∧ U.stages.build c.identity c.rawSource = true ∧
      U.stages.init c.identity c.rawSource = true := by
    intro c
    rw [hinitialized, List.mem_filter, List.mem_filter, and_assoc]
  constructor
  · intro h
    by_cases hex : ∃ c ∈ initialized, c.identity = flow
    · obtain ⟨c, hc, rfl⟩ := hex
      have heq := (foldl_register_of_mem (U := U) (fun _ => none) hsub hc).symm.trans h
      cases c with
      | mk identity rawSource =>
          simp only [Option.some.injEq, FlowHandle.mk.injEq, decide_eq_false_iff_not] at heq
          obtain ⟨rfl, hfs, -⟩ := heq
          obtain ⟨hflows, hbuild, hinit⟩ := (hmem _).mp hc
          exact ⟨hflows, hbuild, hinit, hfs⟩
    · have hnone := foldl_register_of_ne (U := U) (fun _ => none)
        fun c hc (heq : c.identity = flow) => hex ⟨c, hc, heq⟩
      exact absurd (hnone.symm.trans h) (by simp)
  · rintro ⟨hflows, hbuild, hinit, hfs⟩
    have hc := (hmem ⟨flow, text⟩).mpr ⟨hflows, hbuild, hinit⟩
    have heq := foldl_register_of_mem (U := U) (fun _ => none) hsub hc
    refine heq.trans ?_
    rw [decide_eq_false hfs]

theorem reconcileBytes_of_leads (hleads : U.Leads e flow (Utf8.fromUtf8Lossy e.2))
    (hstart : U.stages.startTasks flow (Utf8.fromUtf8Lossy e.2) = true)
    (hnew : registry flow = none) : U.reconcileBytes registry e =
      Function.update registry flow (some ⟨Utf8.fromUtf8Lossy e.2, false, false⟩) := by
  have hname : deriveFlowName U.config.keyPrefix e.1 = some flow := hleads.name
  have hruns : runsSource registry flow (Utf8.fromUtf8Lossy e.2) = false := by
    rw [runsSource, hnew]
    rfl
  rw [reconcileBytes, reconcilePut, hname]
  simp [config, hleads.parse, hleads.fromPath, hleads.unshadowed, hleads.build, hleads.init,
    hstart, hruns]

/-- Where the flow is not there yet, a put that does not start it does nothing. -/
theorem reconcileBytes_of_not
    (hnew : ∀ flow, deriveFlowName U.keyPrefix e.1 = some flow → registry flow = none)
    (h : ∀ flow, U.Leads e flow (Utf8.fromUtf8Lossy e.2) →
      U.stages.startTasks flow (Utf8.fromUtf8Lossy e.2) = false) :
    U.reconcileBytes registry e = registry := by
  cases hname : deriveFlowName U.config.keyPrefix e.1 with
  | none => rw [reconcileBytes, reconcilePut, hname]
  | some flow =>
      rw [reconcileBytes, reconcilePut, hname]
      dsimp only
      split
      · rfl
      split
      · rfl
      split
      · rfl
      split
      · rfl
      split
      · rfl
      split
      · rfl
      rename_i hparse hfrom hfs _ hbuild hinit
      have hleads : U.Leads e flow (Utf8.fromUtf8Lossy e.2) :=
        ⟨hname, by simpa [config] using hparse, by simpa [config] using hfrom, hfs,
          by simpa [config] using hbuild, by simpa [config] using hinit⟩
      have hstart : U.config.stages.startTasks flow (Utf8.fromUtf8Lossy e.2) = false :=
        h flow hleads
      rw [hstart]
      exact Function.update_eq_self_iff.mpr (hnew flow hname).symm

/-- What a put does to a registry that has no flow of its key. -/
theorem reconcileBytes_eq_some
    (hnew : ∀ flow, deriveFlowName U.keyPrefix e.1 = some flow → registry flow = none) :
    U.reconcileBytes registry e flow = some handle ↔ registry flow = some handle ∨
      (U.Leads e flow (Utf8.fromUtf8Lossy e.2) ∧
        U.stages.startTasks flow (Utf8.fromUtf8Lossy e.2) = true ∧
          handle = ⟨Utf8.fromUtf8Lossy e.2, false, false⟩) := by
  by_cases hex : ∃ flow', U.Leads e flow' (Utf8.fromUtf8Lossy e.2) ∧
      U.stages.startTasks flow' (Utf8.fromUtf8Lossy e.2) = true
  · obtain ⟨flow', hleads, hstart⟩ := hex
    rw [reconcileBytes_of_leads hleads hstart (hnew flow' hleads.name)]
    rcases eq_or_ne flow flow' with rfl | hne
    · rw [Function.update_self, hnew flow hleads.name, Option.some.injEq]
      constructor
      · intro heq
        exact Or.inr ⟨hleads, hstart, heq.symm⟩
      · rintro (hnone | ⟨-, -, rfl⟩)
        · cases hnone
        · rfl
    · rw [Function.update_of_ne hne]
      refine ⟨Or.inl, fun h => h.resolve_right ?_⟩
      rintro ⟨hleads', -, -⟩
      exact hne (Option.some.inj (hleads'.name.symm.trans hleads.name))
  · rw [reconcileBytes_of_not hnew fun flow' hleads => by
      simpa using fun hstart => hex ⟨flow', hleads, hstart⟩]
    refine ⟨Or.inl, fun h => h.resolve_right ?_⟩
    rintro ⟨hleads, hstart, -⟩
    exact hex ⟨flow, hleads, hstart⟩

theorem reconcileAll_eq_some (hl : (puts.map Prod.fst).Nodup)
    (hnew : ∀ e ∈ puts, ∀ flow, deriveFlowName U.keyPrefix e.1 = some flow → registry flow = none) :
    U.reconcileAll puts registry flow = some handle ↔ registry flow = some handle ∨
      ∃ e ∈ puts, U.Leads e flow (Utf8.fromUtf8Lossy e.2) ∧
        U.stages.startTasks flow (Utf8.fromUtf8Lossy e.2) = true ∧
          handle = ⟨Utf8.fromUtf8Lossy e.2, false, false⟩ := by
  induction puts generalizing registry with
  | nil => simp [reconcileAll]
  | cons e rest ih =>
      obtain ⟨he, hrest⟩ := List.nodup_cons.mp hl
      have hnewe := hnew e List.mem_cons_self
      have hnew' : ∀ e' ∈ rest, ∀ flow, deriveFlowName U.keyPrefix e'.1 = some flow →
          U.reconcileBytes registry e flow = none := by
        intro e' he' flow hname
        by_contra hsome
        obtain ⟨handle, hhandle⟩ := Option.ne_none_iff_exists'.mp hsome
        rcases (reconcileBytes_eq_some hnewe).mp hhandle with hold | ⟨hleads, -, -⟩
        · rw [hnew e' (List.mem_cons_of_mem _ he') flow hname] at hold
          cases hold
        · have hkey := key_of_flow hleads.name hname
          exact he (List.mem_map.mpr ⟨e', he', hkey.symm⟩)
      change U.reconcileAll rest (U.reconcileBytes registry e) flow = some handle ↔ _
      rw [ih hrest hnew', reconcileBytes_eq_some hnewe, or_assoc, List.exists_mem_cons_iff]

theorem mem_cacheFlows_reconcileAll (hl : (puts.map Prod.fst).Nodup) :
    (flow, text) ∈ cacheFlows (U.reconcileAll puts fun _ => none) ↔
      ∃ e ∈ puts, Utf8.fromUtf8Lossy e.2 = text ∧ U.Leads e flow text ∧
        U.stages.startTasks flow text = true := by
  change U.reconcileAll puts (fun _ => none) flow = some ⟨text, false, false⟩ ↔ _
  rw [reconcileAll_eq_some hl fun _ _ _ _ => rfl]
  constructor
  · rintro (hnone | ⟨e, he, hleads, hstart, heq⟩)
    · cases hnone
    · obtain rfl : text = Utf8.fromUtf8Lossy e.2 := by injection heq
      exact ⟨e, he, rfl, hleads, hstart⟩
  · rintro ⟨e, he, rfl, hleads, hstart⟩
    exact Or.inr ⟨e, he, hleads, hstart, rfl⟩

theorem listed_nodup (U : Setup) : (U.listed.map Prod.fst).Nodup :=
  U.cache_nodup.sublist (List.filter_sublist.map _)

/-- On values that are all text, the start has every flow an entry leads to. -/
theorem start_ok (hutf8 : ∀ e ∈ U.listed, (Utf8.fromUtf8 e.2).isSome = true) :
    ∃ registry, U.start = .ok registry ∧ ∀ flow text, (flow, text) ∈ cacheFlows registry ↔
      ∃ e ∈ U.listed, Utf8.fromUtf8 e.2 = some text ∧ U.Leads e flow text := by
  set entries := U.listed.filterMap U.parseBytes with hentries
  have hids : (entries.map fun entry => entry.2.identity).Nodup := identities_nodup U.listed_nodup
  have hmerge := merge_fst U.filesystemFlowPaths hids
  set taken := (merge U.filesystemFlowPaths entries).1 with htaken
  have hstart : U.start = .ok (U.startFlows (U.filesystem ++ taken)) := by
    rw [start, loadFlowsFromCache_ok hutf8]
    change (match duplicate [] U.filesystem with
      | some identity => Except.error (StartError.duplicateFlowIdentity identity)
      | none => Except.ok (U.startFlows (U.filesystem ++ taken))) = _
    rw [duplicate_eq_none U.filesystem_nodup fun _ _ => List.not_mem_nil]
  have hmem : ∀ c, c ∈ taken ↔ c.identity ∉ U.filesystemFlowPaths ∧ ∃ e ∈ U.listed,
      U.parseBytes e = some (e.1, c) := by
    intro c
    rw [hmerge, List.mem_filter, decide_eq_true_iff, and_comm, List.mem_map]
    refine and_congr_right fun _ => ?_
    constructor
    · rintro ⟨entry, hentry, rfl⟩
      obtain ⟨e, he, hparse⟩ := List.mem_filterMap.mp hentry
      obtain ⟨flow, text, -, -, -, -, rfl⟩ := parseBytes_eq_some.mp hparse
      exact ⟨e, he, hparse⟩
    · rintro ⟨e, he, hparse⟩
      exact ⟨(e.1, c), List.mem_filterMap.mpr ⟨e, he, hparse⟩, rfl⟩
  have hnodup : ((U.filesystem ++ taken).map FlowConfig.identity).Nodup := by
    rw [List.map_append]
    refine List.Nodup.append U.filesystem_nodup ?_ ?_
    · rw [hmerge]
      have hsub : (entries.map fun entry => entry.2.identity) =
          (entries.map Prod.snd).map FlowConfig.identity := by
        rw [List.map_map]
        rfl
      rw [hsub] at hids
      exact hids.sublist (List.filter_sublist.map _)
    · intro path hpath hpath'
      obtain ⟨c, hc, rfl⟩ := List.mem_map.mp hpath'
      exact ((hmem c).mp hc).1 hpath
  refine ⟨_, hstart, ?_⟩
  intro flow text
  rw [mem_cacheFlows_startFlows hnodup, List.mem_append]
  constructor
  · rintro ⟨hflow, hbuild, hinit, hfs⟩
    rcases hflow with hflow | hflow
    · exact absurd (List.mem_map.mpr ⟨_, hflow, rfl⟩) hfs
    · obtain ⟨-, e, he, hparse⟩ := (hmem _).mp hflow
      obtain ⟨flow', text', htext, hname, hparse, hfrom, heq⟩ := parseBytes_eq_some.mp hparse
      cases heq
      exact ⟨e, he, htext, hname, hparse, hfrom, hfs, hbuild, hinit⟩
  · rintro ⟨e, he, htext, hleads⟩
    refine ⟨Or.inr ((hmem _).mpr ⟨hleads.unshadowed, e, he, ?_⟩), hleads.build, hleads.init,
      hleads.unshadowed⟩
    exact parseBytes_eq_some.mpr
      ⟨flow, text, htext, hleads.name, hleads.parse, hleads.fromPath, rfl⟩

theorem puts_nodup (hp : puts.Perm U.listed) : (puts.map Prod.fst).Nodup :=
  (hp.map _).nodup_iff.mpr U.listed_nodup

theorem Agrees.utf8 (h : U.Agrees) (he : e ∈ U.listed) : (Utf8.fromUtf8 e.2).isSome = true := by
  obtain ⟨registry, hstart, -⟩ := h
  by_contra hnone
  obtain ⟨error, herror⟩ := loadFlowsFromCache_error (U := U) he (by simpa using hnone)
  rw [start, herror] at hstart
  cases hstart

theorem Agrees.starts (h : U.Agrees) (he : e ∈ U.listed) (htext : Utf8.fromUtf8 e.2 = some text)
    (hleads : U.Leads e flow text) : U.stages.startTasks flow text = true := by
  obtain ⟨registry', hstart', hmem⟩ := start_ok fun _ => h.utf8
  obtain ⟨registry, hstart, hagree⟩ := h
  cases hstart.symm.trans hstart'
  have hloaded := (hmem flow text).mpr ⟨e, he, htext, hleads⟩
  rw [hagree U.listed (List.Perm.refl _)] at hloaded
  obtain ⟨-, -, -, -, hstart⟩ := (mem_cacheFlows_reconcileAll U.listed_nodup).mp hloaded
  exact hstart

/-- **The start agrees with hot reload** exactly when every value under the prefix is
UTF-8 and the tasks of every flow that is initialised can be started. -/
theorem startup_agrees_iff (U : Setup) : U.Agrees ↔ U.Tame := by
  constructor
  · intro h
    exact ⟨fun _ => h.utf8, fun _ he _ _ => h.starts he⟩
  · rintro ⟨hutf8, hstarts⟩
    obtain ⟨registry, hstart, hmem⟩ := start_ok hutf8
    refine ⟨registry, hstart, ?_⟩
    intro puts hp
    ext ⟨flow, text⟩
    rw [hmem, mem_cacheFlows_reconcileAll (puts_nodup hp)]
    constructor
    · rintro ⟨e, he, htext, hleads⟩
      exact ⟨e, hp.mem_iff.mpr he, Utf8.lossy_of_strict htext, hleads,
        hstarts e he flow text htext hleads⟩
    · rintro ⟨e, he, hlossy, hleads, -⟩
      have he := hp.mem_iff.mp he
      obtain ⟨text', htext⟩ := Option.isSome_iff_exists.mp (hutf8 e he)
      obtain rfl : text' = text := (Utf8.lossy_of_strict htext).symm.trans hlossy
      exact ⟨e, he, htext, hleads⟩

/-- A prefix `f` and two keys under it, of which every text can be parsed. -/
def sample (value : List UInt8) (startTasks : Bool) : Setup where
  keyPrefix := "f"
  stages := ⟨fun _ _ => true, fun _ _ => true, fun _ _ => true, fun _ _ => true,
    fun _ _ => startTasks⟩
  filesystem := []
  cache := [("f.a", [0x61]), ("f.b", value)]
  filesystem_nodup := List.nodup_nil
  cache_nodup := show ["f.a", "f.b"].Nodup by decide

/-- A value of one byte that begins no character, beside a flow that could run; and two
flows whose tasks cannot be started. -/
theorem startup_differs : ¬ (sample [0xff] true).Agrees ∧ ¬ (sample [0x62] false).Agrees := by
  constructor
  · intro h
    have hlisted : ("f.b", [0xff]) ∈ (sample [0xff] true).listed := by decide
    cases h.utf8 hlisted
  · intro h
    have hlisted : ("f.a", [0x61]) ∈ (sample [0x62] false).listed := by decide
    have hleads : (sample [0x62] false).Leads ("f.a", [0x61]) "a" "a" :=
      ⟨by decide, rfl, rfl, List.not_mem_nil, rfl, rfl⟩
    have htext : Utf8.fromUtf8 [0x61] = some "a" := by decide
    cases h.starts hlisted htext hleads

end Setup

end Flowgen.Reload
