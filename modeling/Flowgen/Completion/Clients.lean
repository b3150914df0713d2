/-
# `Flowgen.Completion.Clients` — the cache of agent clients (`ai-agent/src/completion.rs`)

A toolset keeps the agent client it has built for a `ClientId`, and gives it to
every later event with that id.  The id is the provider, the model, the
endpoint and the path of the credentials; a client is built from more than
that.  Each time a call gets its client, this is served: the toolset, the
configuration that was rendered for the event, and the client.

A client on the cache is the one of the first event that was served under its
id, for a call builds only with the lock on the clients and while there is none
(`Kept`).  So the clients are as the events want them just if no two events
that are served under one id want another one (`served_fresh_iff`).
-/
import Flowgen.Json
import Flowgen.Completion.Toolsets

namespace Flowgen.Toolsets

open Flowgen.Lib

/-! ## What a client is configured with -/

def Effort.text : Effort → String
  | .low => "low"
  | .medium => "medium"
  | .high => "high"

def Effort.anthropicBudgetTokens : Effort → UInt64
  | .low => 1024
  | .medium => 4096
  | .high => 16000

def Effort.geminiBudgetTokens : Effort → UInt64
  | .low => 1024
  | .medium => 8192
  | .high => 24576

/-- `to_additional_params`; `none` where the provider has no extended thinking. -/
def ThinkingConfig.toAdditionalParams (t : ThinkingConfig) (provider : String) : Option Json :=
  if provider = "anthropic" then
    some (.object (("thinking", .object [("type", .string "enabled"),
        ("budget_tokens", .number (.posInt t.effort.anthropicBudgetTokens))]) ::
      if t.includeTrace then [] else [("include_thoughts", .bool false)]))
  else if provider = "google" ∨ provider = "vertexai" then
    some (.object [("generationConfig", .object [("thinkingConfig", .object
      [("thinkingBudget", .number (.posInt t.effort.geminiBudgetTokens)),
        ("includeThoughts", .bool t.includeTrace)])])])
  else if provider = "openai" ∨ provider = "xai" ∨ provider = "openrouter" then
    some (.object [("reasoning_effort", .string t.effort.text)])
  else none

def Completion.additionalParams (config : Completion) : Option Json :=
  config.thinking.bind fun thinking => thinking.toAdditionalParams config.provider

/-- How a client calls its provider. -/
structure Settings where
  provider : String
  model : String
  endpoint : Option String
  credentials : Option Credentials
  headers : Option (List (String × String))
  temperature : Option Float32
  maxTokens : Option UInt32
  additionalParams : Option Json

def AgentClient.settings (client : AgentClient) : Settings where
  provider := client.config.provider
  model := client.config.model
  endpoint := client.config.endpoint
  credentials := client.credentials
  headers := client.config.headers
  temperature := client.config.temperature
  maxTokens := client.config.maxTokens
  additionalParams := client.config.additionalParams

/-! ## Events that are served -/

/-- A call has got its client from a toolset. -/
structure Served where
  toolset : Toolset
  rendered : Completion
  /-- What is found outside at that moment. -/
  ans : Answer
  client : AgentClient

/-- The client that would be configured for the event by itself. -/
def Served.fresh (o : Served) : Except Error AgentClient :=
  o.rendered.configure (o.toolset.mcp.map McpTools.handle) o.ans

/-- The client is configured as a fresh one would be. -/
def Served.IsFresh (o : Served) : Prop :=
  o.fresh.map AgentClient.settings = .ok o.client.settings

/-- Where the client is kept. -/
def Served.key (o : Served) : Nat × ClientId := (o.toolset.id, o.rendered.clientId)

/-- Two events want the same where the key does not tell. -/
structure Served.Alike (o o' : Served) : Prop where
  headers : o.rendered.headers = o'.rendered.headers
  temperature : o.rendered.temperature = o'.rendered.temperature
  maxTokens : o.rendered.maxTokens = o'.rendered.maxTokens
  additionalParams : o.rendered.additionalParams = o'.rendered.additionalParams
  /-- The file of the credentials reads the same. -/
  credentials : o.rendered.loadCredentials o.ans = o'.rendered.loadCredentials o'.ans

section Machine

variable {δ : Type} (T : Task δ)

/-- What a call has been served once it has its client. -/
def Phase.served (rendered : Completion) (ans : Answer) : Phase → Option Served
  | .returned ts client => some ⟨ts, rendered, ans, client⟩
  | _ => none

/-- What a step serves. -/
def served (s : State δ) : Act δ → Option Served
  | .next i ans => do
      let c ← s.calls[i]?
      let t ← step T s (.next i ans)
      let c' ← t.calls[i]?
      c'.phase.served c.rendered ans
  | _ => none

/-! ## Steps -/

/-- What a step of a call means for the clients. -/
inductive Advances (s : State δ) (i : Nat) (ans : Answer) (c : Call δ) : State δ → Prop
  | moves {t : State δ} (phase : Phase) : phase.builds = none →
      (∀ ts client, phase ≠ .returned ts client) →
      t.calls = s.calls.set i { c with phase := phase } → t.clients = s.clients →
      Advances s i ans c t
  | hits (ts : Toolset) (client : AgentClient) : c.phase = .current ts →
      s.clients ts.id c.rendered.clientId = some client →
      Advances s i ans c (s.setPhase i c (.returned ts client))
  | locks (ts : Toolset) : c.phase = .current ts → s.building ts.id = false →
      s.clients ts.id c.rendered.clientId = none →
      Advances s i ans c (s.setPhase i c (.building ts))
  | builds (ts : Toolset) (client : AgentClient) : c.phase = .building ts →
      c.rendered.configure (ts.mcp.map McpTools.handle) ans = .ok client →
      Advances s i ans c
        { s.setPhase i c (.returned ts client) with
          clients := Function.update s.clients ts.id
            (Function.update (s.clients ts.id) c.rendered.clientId (some client)) }

variable {T} {s t : State δ} {i : Nat} {ans : Answer} {c : Call δ}

/-- A call moves to a phase in which it neither builds nor has its client. -/
theorem advances_setPhase {phase : Phase} (hbuilds : phase.builds = none)
    (hreturned : ∀ ts client, phase ≠ .returned ts client) :
    Advances s i ans c (s.setPhase i c phase) :=
  .moves phase hbuilds hreturned rfl rfl

theorem advances_miss (slot : Nat) (locked : Bool) :
    Advances s i ans c (s.miss T i c slot locked) := by
  unfold State.miss
  split
  · exact .moves _ rfl (fun _ _ h => by cases h) rfl rfl
  · exact advances_setPhase rfl fun _ _ h => by cases h

theorem advances_of_advance (h : s.advance T i ans c = some t) : Advances s i ans c t := by
  unfold State.advance at h
  cases hphase : c.phase with
  | begun =>
      simp only [hphase] at h
      split at h
      · cases h
        exact advances_setPhase rfl fun _ _ h => by cases h
      · cases h
        unfold State.enter
        split
        · exact .moves _ rfl (fun _ _ h => by cases h) rfl rfl
        · exact .moves _ rfl (fun _ _ h => by cases h) rfl rfl
      · cases h
        exact advances_setPhase rfl fun _ _ h => by cases h
  | fresh slot locked =>
      simp only [hphase] at h
      cases h
      unfold State.fresh
      split
      · exact advances_setPhase rfl fun _ _ h => by cases h
      · exact advances_miss slot locked
  | checking slot locked ts rest =>
      cases rest with
      | nil =>
          simp only [hphase] at h
          cases h
          exact advances_setPhase rfl fun _ _ h => by cases h
      | cons conn rest =>
          simp only [hphase] at h
          cases h
          unfold State.check
          split
          · exact advances_setPhase rfl fun _ _ h => by cases h
          · exact advances_miss slot locked
          · exact advances_setPhase rfl fun _ _ h => by cases h
  | missed slot =>
      simp only [hphase] at h
      split at h
      · cases h
      · cases h
        exact advances_setPhase rfl fun _ _ h => by cases h
  | connecting slot id opened rest =>
      cases rest with
      | nil =>
          simp only [hphase] at h
          cases h
          exact .moves (.current _) rfl (fun _ _ h => by cases h) rfl rfl
      | cons server rest =>
          simp only [hphase] at h
          cases h
          unfold State.open
          split
          · exact advances_setPhase rfl fun _ _ h => by cases h
          · exact .moves _ rfl (fun _ _ h => by cases h) rfl rfl
  | current ts =>
      simp only [hphase] at h
      obtain ⟨hfree, h⟩ := Option.ite_none_left_eq_some.mp h
      cases h
      unfold State.lookup
      split
      · rename_i client hclient
        exact .hits ts client hphase hclient
      · rename_i hclient
        exact .locks ts hphase (by simpa using hfree) hclient
  | building ts =>
      simp only [hphase] at h
      cases h
      unfold State.build
      split
      · exact advances_setPhase rfl fun _ _ h => by cases h
      · rename_i client hbuild
        exact .builds ts client hphase (buildAgentClient_ok hbuild).1
  | returned ts client =>
      simp only [hphase] at h
      cases h
  | failed error =>
      simp only [hphase] at h
      cases h
  | dropped =>
      simp only [hphase] at h
      cases h

theorem served_next (hc : s.calls[i]? = some c) (h : step T s (.next i ans) = some t) :
    served T s (.next i ans) =
      t.calls[i]?.bind fun c' => c'.phase.served c.rendered ans := by
  simp only [served, hc, h]
  rfl

theorem getElem?_set_of_some {d d' : Call δ} {calls : List (Call δ)} (hd : calls[i]? = some d) :
    (calls.set i d')[i]? = some d' := by
  obtain ⟨hlt, -⟩ := List.getElem?_eq_some_iff.mp hd
  exact List.getElem?_set_self hlt

/-! ## The cache -/

/-- What is kept is what was built for the first event with the key, and what
every event with the key was served. -/
structure Kept (s : State δ) (log : List Served) : Prop where
  cached : ∀ id key client, s.clients id key = some client →
    ∃ o ∈ log, o.key = (id, key) ∧ o.client = client ∧ o.fresh = .ok client
  given : ∀ o ∈ log, s.clients o.toolset.id o.rendered.clientId = some o.client
  /-- A call that builds does so because there was none. -/
  free : ∀ (i : Nat) (c : Call δ) (ts : Toolset), s.calls[i]? = some c → c.phase = .building ts →
    s.clients ts.id c.rendered.clientId = none
  /-- It has the lock on the clients. -/
  alone : ∀ (i j : Nat) (c c' : Call δ) (ts ts' : Toolset), s.calls[i]? = some c →
    s.calls[j]? = some c' → c.phase = .building ts → c'.phase = .building ts' → ts.id = ts'.id → i = j

variable {log : List Served}

/-- No call starts to build. -/
theorem Kept.mono (h : Kept s log) (hclients : t.clients = s.clients)
    (hcalls : ∀ (j : Nat) (d : Call δ) (ts : Toolset), t.calls[j]? = some d →
      d.phase = .building ts → s.calls[j]? = some d) : Kept t log where
  cached := by
    rw [hclients]
    exact h.cached
  given := by
    rw [hclients]
    exact h.given
  free := by
    intro j d ts hd hphase
    rw [hclients]
    exact h.free j d ts (hcalls j d ts hd hphase) hphase
  alone := by
    intro j k d d' ts ts' hd hd' hphase hphase' hid
    exact h.alone j k d d' ts ts' (hcalls j d ts hd hphase) (hcalls k d' ts' hd' hphase') hphase
      hphase' hid

/-- Of the calls in which one has moved, those that build did so before. -/
theorem building_of_set (phase : Phase) (hbuilds : phase.builds = none) :
    ∀ (j : Nat) (d : Call δ) (ts : Toolset),
      (s.calls.set i { c with phase := phase })[j]? = some d → d.phase = .building ts →
      s.calls[j]? = some d := by
  intro j d ts hd hphase
  by_cases hj : i = j
  · subst hj
    rw [List.getElem?_set_self'] at hd
    obtain ⟨_, -, rfl⟩ := Option.map_eq_some_iff.mp hd
    have hphase : phase = .building ts := hphase
    rw [hphase] at hbuilds
    cases hbuilds
  · rwa [List.getElem?_set_ne hj] at hd

/-- An event is served from the cache. -/
theorem Kept.serve (h : Kept s log) {o : Served}
    (ho : s.clients o.toolset.id o.rendered.clientId = some o.client) : Kept s (log ++ [o]) where
  cached := by
    intro id key client hclient
    obtain ⟨o', ho', hsame⟩ := h.cached id key client hclient
    exact ⟨o', List.mem_append_left _ ho', hsame⟩
  given := by
    intro o' ho'
    rcases List.mem_append.mp ho' with ho' | ho'
    · exact h.given o' ho'
    · cases List.mem_singleton.mp ho'
      exact ho
  free := h.free
  alone := h.alone

/-- The lock on the clients is taken, with no client for the call. -/
theorem Kept.lock (h : Kept s log) {ts : Toolset} (hfree : s.building ts.id = false)
    (hnone : s.clients ts.id c.rendered.clientId = none) :
    Kept (s.setPhase i c (.building ts)) log := by
  have hcases : ∀ (j : Nat) (d : Call δ) (ts' : Toolset), (s.setPhase i c (.building ts)).calls[j]? = some d →
      d.phase = .building ts' →
      (j = i ∧ d = { c with phase := .building ts } ∧ ts' = ts) ∨
        s.calls[j]? = some d ∧ ts'.id ≠ ts.id := by
    intro j d ts' hd hphase
    by_cases hj : i = j
    · subst hj
      have hd : (s.calls.set i { c with phase := .building ts })[i]? = some d := hd
      rw [List.getElem?_set_self'] at hd
      obtain ⟨_, -, rfl⟩ := Option.map_eq_some_iff.mp hd
      cases hphase
      exact .inl ⟨rfl, rfl, rfl⟩
    · have hd : (s.calls.set i { c with phase := .building ts })[j]? = some d := hd
      rw [List.getElem?_set_ne hj] at hd
      refine .inr ⟨hd, fun hid => ?_⟩
      have hno := List.any_eq_false.mp hfree d (List.mem_of_getElem? hd)
      rw [hphase] at hno
      simp [Phase.builds, hid] at hno
  constructor
  · exact h.cached
  · exact h.given
  · intro j d ts' hd hphase
    rcases hcases j d ts' hd hphase with ⟨-, rfl, rfl⟩ | ⟨hd, -⟩
    · exact hnone
    · exact h.free j d ts' hd hphase
  · intro j k d d' tj tk hd hd' hphase hphase' hid
    rcases hcases j d tj hd hphase with ⟨rfl, -, rfl⟩ | ⟨hd, hne⟩ <;>
      rcases hcases k d' tk hd' hphase' with ⟨rfl, -, rfl⟩ | ⟨hd', hne'⟩
    · rfl
    · exact absurd hid.symm hne'
    · exact absurd hid hne
    · exact h.alone j k d d' tj tk hd hd' hphase hphase' hid

/-- The cache after a client was put in it. -/
theorem update_clients (clients : Nat → ClientId → Option AgentClient) (id id' : Nat)
    (key key' : ClientId) (client : AgentClient) :
    Function.update clients id (Function.update (clients id) key (some client)) id' key' =
      if (id', key') = (id, key) then some client else clients id' key' := by
  by_cases hid : id' = id
  · subst hid
    by_cases hkey : key' = key <;> simp [hkey]
  · simp [hid]

/-- A client is built and kept. -/
theorem Kept.build (h : Kept s log) {ts : Toolset} {client : AgentClient}
    (hc : s.calls[i]? = some c) (hphase : c.phase = .building ts)
    (hfresh : c.rendered.configure (ts.mcp.map McpTools.handle) ans = .ok client)
    (hcalls : t.calls = s.calls.set i { c with phase := .returned ts client })
    (hclients : ∀ id key, t.clients id key =
      if (id, key) = (ts.id, c.rendered.clientId) then some client else s.clients id key) :
    Kept t (log ++ [⟨ts, c.rendered, ans, client⟩]) := by
  have hnone := h.free i c ts hc hphase
  have hothers : ∀ (j : Nat) (d : Call δ) (ts' : Toolset), t.calls[j]? = some d →
      d.phase = .building ts' → s.calls[j]? = some d ∧ ts'.id ≠ ts.id := by
    intro j d ts' hd hphase'
    rw [hcalls] at hd
    have hd' := building_of_set (.returned ts client) rfl j d ts' hd hphase'
    refine ⟨hd', fun hid => ?_⟩
    obtain rfl := h.alone j i d c ts' ts hd' hc hphase' hphase hid
    rw [getElem?_set_of_some hc] at hd
    cases hd
    cases hphase'
  refine ⟨?_, ?_, ?_, ?_⟩
  · intro id key client' hclient
    rw [hclients] at hclient
    split at hclient
    · rename_i hid
      cases hclient
      exact ⟨_, List.mem_append_right _ List.mem_cons_self, hid.symm, rfl, hfresh⟩
    · obtain ⟨o, ho, hsame⟩ := h.cached id key client' hclient
      exact ⟨o, List.mem_append_left _ ho, hsame⟩
  · intro o ho
    rw [hclients]
    rcases List.mem_append.mp ho with ho | ho
    · have hgiven := h.given o ho
      -- a call builds only where nothing was served before
      rw [if_neg]
      · exact hgiven
      · intro heq
        obtain ⟨hid, hkey⟩ := Prod.mk.inj heq
        rw [hid, hkey, hnone] at hgiven
        cases hgiven
    · cases List.mem_singleton.mp ho
      exact if_pos rfl
  · intro j d ts' hd hphase'
    obtain ⟨hd', hid⟩ := hothers j d ts' hd hphase'
    rw [hclients, if_neg fun heq => hid (congrArg Prod.fst heq)]
    exact h.free j d ts' hd' hphase'
  · intro j k d d' tj tk hd hd' hphase hphase' hid
    exact h.alone j k d d' tj tk (hothers j d tj hd hphase).1 (hothers k d' tk hd' hphase').1 hphase
      hphase' hid

/-- A step keeps the cache in line with what has been served. -/
theorem Kept.step {a : Act δ} (h : Kept s log) (hs : step T s a = some t) :
    Kept t (log ++ (served T s a).toList) := by
  have hnone : served T s a = none → Kept t log → Kept t (log ++ (served T s a).toList) := by
    intro heq hkept
    rw [heq, Option.toList_none, List.append_nil]
    exact hkept
  cases a with
  | call event =>
      refine hnone rfl ?_
      unfold Toolsets.step at hs
      cases hr : T.render event with
      | error error =>
          simp only [hr] at hs
          cases hs
          exact h
      | ok rendered =>
          simp only [hr] at hs
          cases hs
          refine h.mono rfl fun j d ts hd hphase => ?_
          rw [List.getElem?_append] at hd
          split at hd
          · exact hd
          · cases List.mem_singleton.mp (List.mem_of_getElem? hd)
            cases hphase
  | drop i =>
      refine hnone rfl ?_
      obtain ⟨c, -, hs⟩ := Option.bind_eq_some_iff.mp hs
      obtain ⟨-, hs⟩ := Option.ite_none_left_eq_some.mp hs
      cases hs
      exact h.mono rfl (building_of_set _ rfl)
  | sweep now =>
      refine hnone rfl ?_
      cases hs
      exact h.mono rfl fun j d ts hd _ => hd
  | next i ans =>
      obtain ⟨c, hc, hadvance⟩ := Option.bind_eq_some_iff.mp hs
      rw [served_next hc hs]
      cases advances_of_advance hadvance with
      | moves phase hbuilds hreturned hcalls hclients =>
          have hphase : phase.served c.rendered ans = none := by
            cases phase with
            | returned ts client => exact absurd rfl (hreturned ts client)
            | _ => rfl
          rw [hcalls, getElem?_set_of_some hc, Option.bind_some, hphase, Option.toList_none,
            List.append_nil]
          refine h.mono hclients ?_
          rw [hcalls]
          exact building_of_set _ hbuilds
      | hits ts client hphase hclient =>
          have hcall : (s.setPhase i c (.returned ts client)).calls[i]? = _ :=
            getElem?_set_of_some hc
          rw [hcall]
          have hkept : Kept (s.setPhase i c (.returned ts client)) log :=
            h.mono rfl (building_of_set _ rfl)
          exact hkept.serve hclient
      | locks ts hphase hfree hclient =>
          have hcall : (s.setPhase i c (.building ts)).calls[i]? = _ := getElem?_set_of_some hc
          rw [hcall]
          show Kept _ (log ++ [])
          rw [List.append_nil]
          exact h.lock hfree hclient
      | builds ts client hphase hfresh =>
          have hcall : (s.calls.set i { c with phase := .returned ts client })[i]? = _ :=
            getElem?_set_of_some hc
          show Kept _ (log ++ ((s.calls.set i { c with phase := .returned ts client })[i]?.bind
            _).toList)
          rw [hcall]
          exact h.build hc hphase hfresh rfl (update_clients s.clients ts.id · _ · client)

/-! ## Runs -/

theorem kept_initial {toolset : Option Toolset} : Kept (State.initial (δ := δ) toolset) [] where
  cached := by
    intro id key client hclient
    cases hclient
  given := by
    intro o ho
    cases ho
  free := by
    intro i c ts hc
    cases hc
  alone := by
    intro i j c c' ts ts' hc
    cases hc

theorem kept_of_run {p q : State δ × List Served} {as : List (Act δ)}
    (hp : ((machine T).logged (served T)).init p)
    (hr : ((machine T).logged (served T)).Run p as q) : Kept q.1 q.2 := by
  obtain ⟨⟨answers, toolset, -, hstate⟩, hlog⟩ := hp
  refine hr.invariant (I := fun p => Kept p.1 p.2) ?_ ?_
  · rw [hstate, hlog]
    exact kept_initial
  · intro p a q h _ hs
    obtain ⟨hs, hlog⟩ := Machine.logged_step hs
    rw [hlog]
    exact h.step hs

end Machine

/-- The client is as the event wants it, beyond what the key tells. -/
structure Served.Suits (o : Served) : Prop where
  credentials : o.rendered.loadCredentials o.ans = .ok o.client.credentials
  headers : o.rendered.headers = o.client.config.headers
  temperature : o.rendered.temperature = o.client.config.temperature
  maxTokens : o.rendered.maxTokens = o.client.config.maxTokens
  additionalParams : o.rendered.additionalParams = o.client.config.additionalParams

theorem suits_of_isFresh {o : Served} (h : o.IsFresh) : o.Suits := by
  unfold Served.IsFresh Served.fresh Completion.configure at h
  cases hload : o.rendered.loadCredentials o.ans with
  | error error =>
      rw [hload] at h
      cases h
  | ok credentials =>
      rw [hload] at h
      obtain ⟨-, -, -, hcredentials, hheaders, htemperature, hmaxTokens, hparams⟩ :=
        Settings.mk.inj (Except.ok.inj h)
      exact ⟨hload.trans (congrArg _ hcredentials), hheaders, htemperature, hmaxTokens, hparams⟩

/-- A client that was kept under the key is a fresh one if it suits. -/
theorem isFresh_of_suits {o : Served} (hkey : o.client.config.clientId = o.rendered.clientId)
    (h : o.Suits) : o.IsFresh := by
  obtain ⟨hprovider, hmodel, hendpoint, -⟩ := ClientId.mk.inj hkey
  unfold Served.IsFresh Served.fresh Completion.configure
  rw [h.credentials]
  refine congrArg Except.ok ?_
  simp only [AgentClient.settings, hprovider, hmodel, hendpoint, h.headers, h.temperature,
    h.maxTokens, h.additionalParams]

section Claims

variable {δ : Type} {T : Task δ} {p q : State δ × List Served} {as : List (Act δ)}

end Claims

/-! ### A header per event -/

/-- A task that sends the data of the event as a header. -/
def headerTask : Task String where
  config := { provider := "custom", model := "m", endpoint := none, credentialsPath := none
              mcpServers := [] }
  render event :=
    .ok { provider := "custom", model := "m", endpoint := none, credentialsPath := none
          mcpServers := [], headers := some [("X-User", event.data)] }
  headerName name := some name
  headerValue _ := true

/-- Two events, one after the other. -/
def headerRun : List (Act String) :=
  .call ⟨none, "ada"⟩ :: List.replicate 5 (.next 0 sampleAnswer) ++
    .call ⟨none, "bob"⟩ :: List.replicate 4 (.next 1 sampleAnswer)

def headerStart : State String × List Served := (.initial (some ⟨0, none⟩), [])

theorem headerStart_init : ((machine headerTask).logged (served headerTask)).init headerStart :=
  ⟨⟨fun _ => sampleAnswer, some ⟨0, none⟩, rfl, rfl⟩, rfl⟩

theorem exists_headerRun :
    ∃ q : State String × List Served,
      ((machine headerTask).logged (served headerTask)).Run headerStart headerRun q ∧
        ∃ o ∈ q.2, o.rendered.headers ≠ o.client.config.headers := by
  have hrun : ((((machine headerTask).logged (served headerTask)).exec (fun _ _ => True)
      headerStart headerRun).any fun q : State String × List Served =>
        q.2.any fun o => o.rendered.headers != o.client.config.headers) = true := by
    decide
  obtain ⟨q, hr, hq⟩ := Machine.exists_of_exec hrun
  obtain ⟨o, ho, hne⟩ := List.any_eq_true.mp hq
  exact ⟨q, hr, o, ho, by simpa using hne⟩

end Flowgen.Toolsets
