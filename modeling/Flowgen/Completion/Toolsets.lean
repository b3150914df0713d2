/-
# `Flowgen.Completion.Toolsets` — the tools of a completion task, per user (`ai-agent/src/completion.rs`)

A task that calls an MCP server on behalf of the user keeps one toolset for
each user.  A caller finds the slot of its user, looks at the toolset there and
compares the header of each of its connections with the one it would get now;
where one differs it waits for the slot's `connecting` lock, looks again, and
opens the connections itself.  Agent clients are kept in the toolset they were
built on.

The slot says nothing about who a toolset is for: the sweep takes it out of the
map under its callers, two callers of one user may bring different tokens, and
either may overwrite what the other stored.  What isolates the users is that a
toolset never changes after it was opened and that a caller leaves with one
only if it has opened it or has compared every connection of it
(`toolset_isolated`).  The tool server of a toolset is opened for one token, so
that every connection that answers to an agent client's handle carries the token
of the event the client was taken for.

The crates `http` and `rmcp`, the template engine and the token endpoint are
outside: which texts are header names and values is a parameter, and what they
answer is part of the step.
-/
import Flowgen.Lib.Machine
import Flowgen.Lib.Slots
import Flowgen.Lib.Fallible

namespace Flowgen.Toolsets

open Flowgen.Lib

structure McpServerConfig where
  url : String
  credentialsPath : Option String
  headers : List (String × String)
  onBehalfOfUser : Bool

inductive Effort
  | low
  | medium
  | high
deriving DecidableEq

structure ThinkingConfig where
  effort : Effort
  includeTrace : Bool
deriving DecidableEq

/-- The part of a completion's configuration that its client and its tools are
chosen by, and that its client is built from. -/
structure Completion where
  provider : String
  model : String
  endpoint : Option String
  credentialsPath : Option String
  mcpServers : List McpServerConfig
  headers : Option (List (String × String)) := none
  temperature : Option Float32 := none
  maxTokens : Option UInt32 := none
  maxTurns : Nat := 10
  thinking : Option ThinkingConfig := none

structure UserSession where
  userId : String
  token : Option String

structure Event (δ : Type) where
  session : Option UserSession
  data : δ

inductive Error
  | configRender
  | mcpUserRequired (url : String)
  | mcpUserCredentials (url : String)
  | mcpUserUnauthorized (url : String)
  | mcpCredentials (url : String)
  | mcpOAuth2 (url : String)
  | mcpHeaderName (url name : String)
  | mcpHeaderValue (url name : String)
  | mcpAuthHeader (url : String)
  | mcpConnection (url reason : String)
  | missingCredentialsPath (provider : String)
  | loadCredentials (path : String)
  | agentClient

/-- Loaded credentials; only those of OAuth 2.0 are asked for a header again. -/
structure HttpCredentials where
  oauth2ClientCredentials : Bool

abbrev HeaderMap := String → Option String

/-- An open connection to a server, as the transport was built. -/
structure Service where
  url : String
  headers : HeaderMap
  /-- The tool server its tools are registered on. -/
  handle : Nat

structure McpServerConnection where
  url : String
  creds : Option HttpCredentials
  onBehalfOfUser : Bool
  activeHeader : Option String
  service : Service

structure McpTools where
  handle : Nat
  connections : List McpServerConnection

/-- A toolset.  The clients built on it are kept in the state under its `id`;
the rest of it never changes. -/
structure Toolset where
  id : Nat
  mcp : Option McpTools

def Toolset.connections (ts : Toolset) : List McpServerConnection :=
  ts.mcp.elim [] McpTools.connections

structure ClientId where
  provider : String
  model : String
  endpoint : Option String
  credentialsPath : Option String
deriving DecidableEq

/-- The credentials of a provider. -/
structure Credentials where
  apiKey : String
  organizationId : Option String := none
  projectId : Option String := none
  region : Option String := none
deriving DecidableEq

/-- An agent client, with the configuration and the credentials it was built
from. -/
structure AgentClient where
  config : Completion
  credentials : Option Credentials
  toolServerHandle : Option Nat

/-- A completion task, and what it takes from outside. -/
structure Task (δ : Type) where
  config : Completion
  /-- `render_for_event`. -/
  render : Event δ → Except Error Completion
  /-- The name a text stands for as a header name, if it is one. -/
  headerName : String → Option String
  /-- Whether a text may be the value of a header. -/
  headerValue : String → Bool

/-- What is answered from outside while a call takes a step. -/
structure Answer where
  now : Nat
  credentials : Option HttpCredentials
  /-- What `authorization_header_async` gives. -/
  header : Option (Option String)
  connect : Except String Unit
  /-- The server answers 401 or 403. -/
  rejects : Bool
  /-- The credentials that the file of a provider has now. -/
  providerCredentials : Option Credentials
  /-- Whether the client of the provider can be built. -/
  build : Except Error Unit

/-! ## Opening the connections -/

def userMcpServer (config : Completion) : Option String :=
  (config.mcpServers.find? fun server => server.onBehalfOfUser).map McpServerConfig.url

def validateMcpServers (config : Completion) : Except Error Unit :=
  match config.mcpServers.find? fun server =>
      server.onBehalfOfUser && server.credentialsPath.isSome with
  | some server => .error (.mcpUserCredentials server.url)
  | none => .ok ()

def bearer (token : String) : String := "Bearer " ++ token

def userBearer (url : String) : Option String → Except Error String
  | some token => .ok (bearer token)
  | none => .error (.mcpUserRequired url)

/-- The `Authorization` header a server is opened with, and the credentials that
are asked again. -/
def credential (server : McpServerConfig) (token : Option String) (ans : Answer) :
    Except Error (Option String × Option HttpCredentials) :=
  if server.onBehalfOfUser then (userBearer server.url token).map fun header => (some header, none)
  else
    match server.credentialsPath with
    | none => .ok (none, none)
    | some _ =>
        match ans.credentials, ans.header with
        | none, _ => .error (.mcpCredentials server.url)
        | some _, none => .error (.mcpOAuth2 server.url)
        | some creds, some header =>
            .ok (header, if creds.oauth2ClientCredentials then some creds else none)

section Opening

variable {δ : Type} (T : Task δ)

def Task.configHeader (server : McpServerConfig) (headers : HeaderMap) (header : String × String) :
    Except Error HeaderMap :=
  match T.headerName header.1 with
  | none => .error (.mcpHeaderName server.url header.1)
  | some name =>
      if T.headerValue header.2 then .ok (Function.update headers name (some header.2))
      else .error (.mcpHeaderValue server.url header.1)

/-- The header of the connection goes in last. -/
def Task.authHeader (server : McpServerConfig) (headers : HeaderMap) :
    Option String → Except Error HeaderMap
  | none => .ok headers
  | some value =>
      if T.headerValue value then
        .ok (Function.update headers "authorization" (some value))
      else .error (.mcpAuthHeader server.url)

/-- One round of the loop of `connect_mcp_tools`. -/
def Task.openServer (handle : Nat) (token : Option String) (server : McpServerConfig)
    (ans : Answer) : Except Error McpServerConnection := do
  let (header, creds) ← credential server token ans
  let configured ← server.headers.foldlM (T.configHeader server) fun _ => none
  let headers ← T.authHeader server configured header
  match ans.connect with
  | .ok () =>
      .ok
        { url := server.url
          creds := creds
          onBehalfOfUser := server.onBehalfOfUser
          activeHeader := header
          service := ⟨server.url, headers, handle⟩ }
  | .error reason =>
      .error
        (if server.onBehalfOfUser && ans.rejects then .mcpUserUnauthorized server.url
        else .mcpConnection server.url reason)

/-- The toolset over the connections opened for it. -/
def Task.toolset (id : Nat) (opened : List McpServerConnection) : Toolset where
  id := id
  mcp := if T.config.mcpServers.isEmpty then none else some ⟨id, opened⟩

/-- The whole loop, as `init` runs it. -/
def Task.connect (id : Nat) (token : Option String) (answers : Nat → Answer) :
    Except Error Toolset :=
  (T.config.mcpServers.zipIdx.mapM fun (server, k) =>
    T.openServer id token server (answers k)).map (T.toolset id)

/-- The task's own toolset, unless a server acts on behalf of the user. -/
def Task.init (answers : Nat → Answer) : Except Error (Option Toolset) := do
  validateMcpServers T.config
  match userMcpServer T.config with
  | some _ => .ok none
  | none => (T.connect 0 none answers).map some

end Opening

/-- Whether the connection would get another header now. -/
def McpServerConnection.stale (conn : McpServerConnection) (token : Option String) (ans : Answer) :
    Except Error Bool :=
  if conn.onBehalfOfUser then
    (userBearer conn.url token).map fun header => some header != conn.activeHeader
  else
    match conn.creds, ans.header with
    | none, _ => .ok false
    | some _, none => .error (.mcpOAuth2 conn.url)
    | some _, some header => .ok (header != conn.activeHeader)

/-! ## Agent clients -/

/-- The credentials a client is built with.  Only a custom provider may do
without. -/
def Completion.loadCredentials (config : Completion) (ans : Answer) :
    Except Error (Option Credentials) :=
  match config.credentialsPath with
  | some path =>
      match ans.providerCredentials with
      | some credentials => .ok (some credentials)
      | none => .error (.loadCredentials path)
  | none =>
      if config.provider = "custom" then .ok none
      else .error (.missingCredentialsPath config.provider)

/-- What `build_agent_client` gives to the builder of the client. -/
def Completion.configure (config : Completion) (toolServerHandle : Option Nat) (ans : Answer) :
    Except Error AgentClient :=
  (config.loadCredentials ans).map fun credentials => { config, credentials, toolServerHandle }

def buildAgentClient (config : Completion) (toolServerHandle : Option Nat) (ans : Answer) :
    Except Error AgentClient := do
  let client ← config.configure toolServerHandle ans
  ans.build
  .ok client

/-! ## The calls -/

/-- How far a `resolve_client` is.  `locked` says whether it has the slot's
`connecting` lock. -/
inductive Phase
  | begun
  /-- About to read the slot. -/
  | fresh (slot : Nat) (locked : Bool)
  /-- In `is_current`, with the connections that are left to compare. -/
  | checking (slot : Nat) (locked : Bool) (toolset : Toolset) (rest : List McpServerConnection)
  | missed (slot : Nat)
  | connecting (slot id : Nat) (opened : List McpServerConnection) (rest : List McpServerConfig)
  /-- `current` has returned. -/
  | current (toolset : Toolset)
  /-- Has the lock on the toolset's clients. -/
  | building (toolset : Toolset)
  | returned (toolset : Toolset) (client : AgentClient)
  | failed (error : Error)
  | dropped

structure Call (δ : Type) where
  event : Event δ
  rendered : Completion
  phase : Phase

/-- The `connecting` lock a call has. -/
def Phase.holds : Phase → Option Nat
  | .fresh slot true | .checking slot true _ _ | .connecting slot _ _ _ => some slot
  | _ => none

/-- The toolset whose clients a call has locked. -/
def Phase.builds : Phase → Option Nat
  | .building ts => some ts.id
  | _ => none

/-- The toolset a call was given. -/
def Phase.toolset : Phase → Option Toolset
  | .current ts | .building ts | .returned ts _ => some ts
  | _ => none

def Phase.ended : Phase → Bool
  | .returned _ _ | .failed _ | .dropped => true
  | _ => false

structure UserToolset where
  toolset : Option Toolset
  lastUsed : Nat

structure State (δ : Type) where
  users : String → Option Nat
  /-- Slot 0 is the task's own. -/
  slots : Nat → UserToolset
  nextSlot : Nat
  clients : Nat → ClientId → Option AgentClient
  nextToolset : Nat
  calls : List (Call δ)
  /-- Every connection that was ever opened. -/
  connections : List McpServerConnection

/-- What happens: an event asks for its client, a call takes its next step or is
dropped, and the sweep closes the idle users. -/
inductive Act (δ : Type)
  | call (event : Event δ)
  | next (i : Nat) (ans : Answer)
  | drop (i : Nat)
  | sweep (now : Nat)

def userMcpIdle : Nat := 30 * 60

def Completion.clientId (config : Completion) : ClientId :=
  ⟨config.provider, config.model, config.endpoint, config.credentialsPath⟩

def Event.token {δ : Type} (event : Event δ) : Option String :=
  event.session.bind UserSession.token

section Step

variable {δ : Type} (T : Task δ)

/-- The token the connections of an event are opened and compared with. -/
def Task.token (event : Event δ) : Option String :=
  match userMcpServer T.config with
  | some _ => event.token
  | none => none

def State.initial (toolset : Option Toolset) : State δ where
  users _ := none
  slots slot := if slot = 0 then ⟨toolset, 0⟩ else ⟨none, 0⟩
  nextSlot := 1
  clients _ _ := none
  nextToolset := 1
  calls := []
  connections := toolset.elim [] Toolset.connections

def State.setPhase (s : State δ) (i : Nat) (c : Call δ) (phase : Phase) : State δ :=
  { s with calls := s.calls.set i { c with phase := phase } }

/-- The slot of the user, made if there is none. -/
def State.enter (s : State δ) (i : Nat) (c : Call δ) (userId : String) (now : Nat) : State δ :=
  match s.users userId with
  | some slot =>
      { s.setPhase i c (.fresh slot false) with
        slots := Function.update s.slots slot { s.slots slot with lastUsed := now } }
  | none =>
      { s.setPhase i c (.fresh s.nextSlot false) with
        users := Function.update s.users userId (some s.nextSlot)
        slots := Function.update s.slots s.nextSlot ⟨none, now⟩
        nextSlot := s.nextSlot + 1 }

/-- No fresh toolset was found: the call waits for the lock, or with the lock
starts a tool server of its own. -/
def State.miss (s : State δ) (i : Nat) (c : Call δ) (slot : Nat) (locked : Bool) : State δ :=
  if locked then
    { s.setPhase i c (.connecting slot s.nextToolset [] T.config.mcpServers) with
      nextToolset := s.nextToolset + 1 }
  else s.setPhase i c (.missed slot)

def State.fresh (s : State δ) (i : Nat) (c : Call δ) (slot : Nat) (locked : Bool) : State δ :=
  match (s.slots slot).toolset with
  | some ts => s.setPhase i c (.checking slot locked ts ts.connections)
  | none => s.miss T i c slot locked

def State.check (s : State δ) (i : Nat) (c : Call δ) (slot : Nat) (locked : Bool) (ts : Toolset)
    (conn : McpServerConnection) (rest : List McpServerConnection) (ans : Answer) : State δ :=
  match conn.stale (T.token c.event) ans with
  | .error error => s.setPhase i c (.failed error)
  | .ok true => s.miss T i c slot locked
  | .ok false => s.setPhase i c (.checking slot locked ts rest)

def State.open (s : State δ) (i : Nat) (c : Call δ) (slot id : Nat)
    (opened : List McpServerConnection) (server : McpServerConfig) (rest : List McpServerConfig)
    (ans : Answer) : State δ :=
  match T.openServer id (T.token c.event) server ans with
  | .error error => s.setPhase i c (.failed error)
  | .ok conn =>
      { s.setPhase i c (.connecting slot id (opened ++ [conn]) rest) with
        connections := s.connections ++ [conn] }

def State.store (s : State δ) (i : Nat) (c : Call δ) (slot : Nat) (ts : Toolset) : State δ :=
  { s.setPhase i c (.current ts) with
    slots := Function.update s.slots slot { s.slots slot with toolset := some ts } }

def State.lookup (s : State δ) (i : Nat) (c : Call δ) (ts : Toolset) : State δ :=
  match s.clients ts.id c.rendered.clientId with
  | some client => s.setPhase i c (.returned ts client)
  | none => s.setPhase i c (.building ts)

def State.build (s : State δ) (i : Nat) (c : Call δ) (ts : Toolset) (ans : Answer) : State δ :=
  match buildAgentClient c.rendered (ts.mcp.map McpTools.handle) ans with
  | .error error => s.setPhase i c (.failed error)
  | .ok client =>
      { s.setPhase i c (.returned ts client) with
        clients := Function.update s.clients ts.id
          (Function.update (s.clients ts.id) c.rendered.clientId (some client)) }

/-- Some call has the `connecting` lock of the slot. -/
def State.connecting (s : State δ) (slot : Nat) : Bool :=
  s.calls.any fun c => c.phase.holds == some slot

/-- Some call has locked the clients of the toolset. -/
def State.building (s : State δ) (id : Nat) : Bool :=
  s.calls.any fun c => c.phase.builds == some id

def State.advance (s : State δ) (i : Nat) (ans : Answer) (c : Call δ) : Option (State δ) :=
  match c.phase with
  | .begun =>
      match userMcpServer T.config, c.event.session with
      | none, _ => some (s.setPhase i c (.fresh 0 false))
      | some _, some ⟨userId, some _⟩ => some (s.enter i c userId ans.now)
      | some url, _ => some (s.setPhase i c (.failed (.mcpUserRequired url)))
  | .fresh slot locked => some (s.fresh T i c slot locked)
  | .checking slot locked ts (conn :: rest) => some (s.check T i c slot locked ts conn rest ans)
  | .checking _ _ ts [] => some (s.setPhase i c (.current ts))
  | .missed slot =>
      if s.connecting slot then none else some (s.setPhase i c (.fresh slot true))
  | .connecting slot id opened (server :: rest) =>
      some (s.open T i c slot id opened server rest ans)
  | .connecting slot id opened [] => some (s.store i c slot (T.toolset id opened))
  | .current ts => if s.building ts.id then none else some (s.lookup i c ts)
  | .building ts => some (s.build i c ts ans)
  | .returned _ _ | .failed _ | .dropped => none

def step (s : State δ) : Act δ → Option (State δ)
  | .call event =>
      match T.render event with
      | .error _ => some s
      | .ok rendered => some { s with calls := s.calls ++ [⟨event, rendered, .begun⟩] }
  | .next i ans => s.calls[i]?.bind (s.advance T i ans)
  | .drop i =>
      s.calls[i]?.bind fun c => if c.phase.ended then none else some (s.setPhase i c .dropped)
  | .sweep now =>
      some { s with
        users := fun userId => (s.users userId).filter fun slot =>
          now - (s.slots slot).lastUsed < userMcpIdle }

/-- A task after its `init`. -/
def machine : Machine (State δ) (Act δ) where
  init s := ∃ answers toolset, T.init answers = .ok toolset ∧ s = .initial toolset
  step := step T

end Step

theorem configure_ok {config : Completion} {toolServerHandle : Option Nat} {ans : Answer}
    {client : AgentClient} (h : config.configure toolServerHandle ans = .ok client) :
    client.config = config ∧ client.toolServerHandle = toolServerHandle := by
  unfold Completion.configure at h
  cases hload : config.loadCredentials ans with
  | error error =>
      rw [hload] at h
      cases h
  | ok credentials =>
      rw [hload] at h
      cases h
      exact ⟨rfl, rfl⟩

/-- A client that was built is the one that was configured. -/
theorem buildAgentClient_ok {config : Completion} {toolServerHandle : Option Nat} {ans : Answer}
    {client : AgentClient} (h : buildAgentClient config toolServerHandle ans = .ok client) :
    config.configure toolServerHandle ans = .ok client ∧
      client.toolServerHandle = toolServerHandle := by
  obtain ⟨client', hconfigure, h⟩ := bind_eq_ok.mp h
  obtain ⟨_, -, h⟩ := bind_eq_ok.mp h
  cases h
  exact ⟨hconfigure, (configure_ok hconfigure).2⟩

/-! ## Who a connection was opened for -/

/-- A connection to `server`, opened with `token` where it acts on behalf of the
user, whose tools are registered on `handle`. -/
structure OpenedFor (handle : Nat) (token : Option String) (server : McpServerConfig)
    (conn : McpServerConnection) : Prop where
  url : conn.service.url = server.url
  handle : conn.service.handle = handle
  onBehalf : conn.onBehalfOfUser = server.onBehalfOfUser
  bearer : server.onBehalfOfUser = true → ∃ t, token = some t ∧
    conn.activeHeader = some (bearer t) ∧
    conn.service.headers "authorization" = some (Toolsets.bearer t)

/-- The handle of the toolset with that `id`. -/
def Completion.handle (config : Completion) (id : Nat) : Option Nat :=
  if config.mcpServers.isEmpty then none else some id

/-- A toolset with one connection for each server, in the servers' order, opened
for `token`. -/
structure Serves (config : Completion) (token : Option String) (ts : Toolset) : Prop where
  handle : ts.mcp.map McpTools.handle = config.handle ts.id
  opened : List.Forall₂ (OpenedFor ts.id token) config.mcpServers ts.connections

/-- What comparing a connection with the token of a caller tells. -/
def Carries (token : Option String) (conn : McpServerConnection) : Prop :=
  conn.onBehalfOfUser = true → ∃ t, token = some t ∧ conn.activeHeader = some (bearer t)

section Connections

variable {δ : Type} {T : Task δ} {config : Completion} {server : McpServerConfig}
  {servers : List McpServerConfig} {conn : McpServerConnection} {conns : List McpServerConnection}
  {token own : Option String} {ans : Answer} {handle id : Nat} {ts : Toolset} {t t' : String}

theorem bearer_injective (h : bearer t = bearer t') : t = t' := by
  have hlist := congrArg String.toList h
  simp only [bearer, String.toList_append] at hlist
  exact String.toList_injective (List.append_cancel_left hlist)

theorem userBearer_ok {url header : String} (h : userBearer url token = .ok header) :
    ∃ t, token = some t ∧ header = bearer t := by
  cases token with
  | none => cases h
  | some t => exact ⟨t, rfl, (Except.ok.inj h).symm⟩

theorem credential_bearer {header : Option String} {creds : Option HttpCredentials}
    (h : credential server token ans = .ok (header, creds)) (hserver : server.onBehalfOfUser = true) :
    ∃ t, token = some t ∧ header = some (bearer t) := by
  rw [credential, if_pos hserver] at h
  obtain ⟨value, hvalue, hpair⟩ := bind_eq_ok.mp h
  cases hpair
  obtain ⟨t, ht, rfl⟩ := userBearer_ok hvalue
  exact ⟨t, ht, rfl⟩

theorem authHeader_set {headers headers' : HeaderMap} {value : String}
    (h : T.authHeader server headers (some value) = .ok headers') :
    headers' "authorization" = some value := by
  unfold Task.authHeader at h
  split at h
  · rename_i hnone
    cases hnone
  · rename_i v hv
    cases hv
    split at h
    · cases h
      exact Function.update_self ..
    · cases h

theorem openServer_opens (h : T.openServer handle token server ans = .ok conn) :
    OpenedFor handle token server conn := by
  obtain ⟨⟨header, creds⟩, hcred, h⟩ := bind_eq_ok.mp h
  obtain ⟨configured, -, h⟩ := bind_eq_ok.mp h
  obtain ⟨headers, hheaders, h⟩ := bind_eq_ok.mp h
  split at h
  · cases h
    refine ⟨rfl, rfl, rfl, ?_⟩
    intro hserver
    obtain ⟨t, ht, rfl⟩ := credential_bearer hcred hserver
    exact ⟨t, ht, rfl, authHeader_set hheaders⟩
  · cases h

theorem mapM_opens {answers : Nat → Answer} : ∀ (servers : List McpServerConfig) (k : Nat) {conns},
    (servers.zipIdx k).mapM (fun (server, k) => T.openServer handle token server (answers k)) =
      .ok conns → List.Forall₂ (OpenedFor handle token) servers conns := by
  intro servers
  induction servers with
  | nil =>
      intro k conns h
      cases h
      exact .nil
  | cons server rest ih =>
      intro k conns h
      rw [List.zipIdx_cons, List.mapM_cons] at h
      obtain ⟨conn, hconn, h⟩ := bind_eq_ok.mp h
      obtain ⟨conns', hconns, h⟩ := bind_eq_ok.mp h
      cases h
      exact .cons (openServer_opens hconn) (ih (k + 1) hconns)

theorem toolset_serves {conns : List McpServerConnection}
    (h : List.Forall₂ (OpenedFor id token) T.config.mcpServers conns) :
    Serves T.config token (T.toolset id conns) := by
  cases hservers : T.config.mcpServers with
  | nil =>
      refine ⟨?_, ?_⟩
      · simp [Task.toolset, Completion.handle, hservers]
      · simp [Task.toolset, Toolset.connections, hservers]
  | cons server rest =>
      rw [hservers] at h
      refine ⟨?_, ?_⟩
      · simp [Task.toolset, Completion.handle, hservers]
      · simpa [Task.toolset, Toolset.connections, hservers] using h

theorem stale_carries (h : conn.stale token ans = .ok false) : Carries token conn := by
  intro hconn
  rw [McpServerConnection.stale, if_pos hconn] at h
  obtain ⟨header, hheader, h⟩ := bind_eq_ok.mp h
  obtain ⟨t, ht, rfl⟩ := userBearer_ok hheader
  refine ⟨t, ht, ?_⟩
  have hsame := Except.ok.inj h
  simpa using (bne_eq_false_iff_eq.mp hsame).symm

/-- A connection that carries the token of a caller was opened for it. -/
theorem OpenedFor.of_carries (h : OpenedFor handle own server conn) (hc : Carries token conn) :
    OpenedFor handle token server conn := by
  refine ⟨h.url, h.handle, h.onBehalf, ?_⟩
  intro hserver
  obtain ⟨t, -, hactive, hheader⟩ := h.bearer hserver
  obtain ⟨t', ht', hactive'⟩ := hc (h.onBehalf.trans hserver)
  obtain rfl := bearer_injective (Option.some.inj (hactive.symm.trans hactive'))
  exact ⟨t, ht', hactive, hheader⟩

theorem forall₂_of_carries (h : List.Forall₂ (OpenedFor handle own) servers conns)
    (hc : ∀ conn ∈ conns, Carries token conn) :
    List.Forall₂ (OpenedFor handle token) servers conns := by
  induction h with
  | nil => exact .nil
  | cons hconn _ ih =>
      refine .cons (hconn.of_carries (hc _ List.mem_cons_self)) (ih ?_)
      intro conn hmem
      exact hc conn (List.mem_cons_of_mem _ hmem)

theorem Serves.of_carries (h : Serves config own ts)
    (hc : ∀ conn ∈ ts.connections, Carries token conn) : Serves config token ts :=
  ⟨h.handle, forall₂_of_carries h.opened hc⟩

/-- The tokens two callers may share a toolset with are the same, if a server
acts on behalf of the user. -/
theorem forall₂_token (h : List.Forall₂ (OpenedFor handle own) servers conns)
    (h' : List.Forall₂ (OpenedFor handle token) servers conns) (hserver : server ∈ servers)
    (hon : server.onBehalfOfUser = true) : own = token := by
  induction h with
  | nil => cases hserver
  | cons hconn _ ih =>
      cases h' with
      | cons hconn' hrest' =>
          rcases List.mem_cons.mp hserver with rfl | hmem
          · obtain ⟨t, ht, hactive, -⟩ := hconn.bearer hon
            obtain ⟨t', ht', hactive', -⟩ := hconn'.bearer hon
            rw [ht, ht', bearer_injective (Option.some.inj (hactive.symm.trans hactive'))]
          · exact ih hrest' hmem

end Connections

/-! ## The invariant -/

section Invariant

variable {δ : Type} (T : Task δ)

/-- A toolset and the token its tool server was started for; `owners` holds the
tokens of all tool servers. -/
def Known (owners : List (Option String)) (ts : Toolset) : Prop :=
  ∃ own, owners[ts.id]? = some own ∧ Serves T.config own ts

/-- A toolset that may be given to a caller with `token`. -/
def Given (owners : List (Option String)) (token : Option String) (ts : Toolset) : Prop :=
  Known T owners ts ∧ Serves T.config token ts

/-- What a call has established. -/
def Phase.Ok (owners : List (Option String)) (token : Option String) : Phase → Prop
  | .checking _ _ ts rest => Known T owners ts ∧
      ∃ done, ts.connections = done ++ rest ∧ ∀ conn ∈ done, Carries token conn
  | .connecting _ id opened rest => owners[id]? = some token ∧
      ∃ done, T.config.mcpServers = done ++ rest ∧ List.Forall₂ (OpenedFor id token) done opened
  | .current ts | .building ts => Given T owners token ts
  | .returned ts client => Given T owners token ts ∧
      client.toolServerHandle = T.config.handle ts.id
  | .begun | .fresh _ _ | .missed _ | .failed _ | .dropped => True

/-- An open connection answers on a tool server that was started for its token. -/
def Recorded (owners : List (Option String)) (conn : McpServerConnection) : Prop :=
  ∃ own, owners[conn.service.handle]? = some own ∧
    ∃ server ∈ T.config.mcpServers, OpenedFor conn.service.handle own server conn

structure Inv (owners : List (Option String)) (s : State δ) : Prop where
  count : owners.length = s.nextToolset
  slots : ∀ slot ts, (s.slots slot).toolset = some ts → Known T owners ts
  calls : ∀ c ∈ s.calls, c.phase.Ok T owners (T.token c.event)
  clients : ∀ id key client, s.clients id key = some client →
    client.toolServerHandle = T.config.handle id
  connections : ∀ conn ∈ s.connections, Recorded T owners conn

variable {T} {owners owners' : List (Option String)} {s t : State δ} {i : Nat} {c : Call δ}
  {p : Phase} {ts : Toolset} {token : Option String} {ans : Answer} {slot id : Nat} {locked : Bool}
  {a : Act δ}

theorem owner_mono {own : Option String} (h : owners[id]? = some own) (hle : owners <+: owners') :
    owners'[id]? = some own := by
  obtain ⟨rest, rfl⟩ := hle
  obtain ⟨hlt, _⟩ := List.getElem?_eq_some_iff.mp h
  rw [List.getElem?_append_left hlt]
  exact h

theorem Known.mono (h : Known T owners ts) (hle : owners <+: owners') : Known T owners' ts := by
  obtain ⟨own, hown, hserves⟩ := h
  exact ⟨own, owner_mono hown hle, hserves⟩

theorem Phase.Ok.mono (h : p.Ok T owners token) (hle : owners <+: owners') :
    p.Ok T owners' token := by
  cases p with
  | checking _ _ ts rest => exact ⟨h.1.mono hle, h.2⟩
  | connecting _ id opened rest => exact ⟨owner_mono h.1 hle, h.2⟩
  | current ts => exact ⟨h.1.mono hle, h.2⟩
  | building ts => exact ⟨h.1.mono hle, h.2⟩
  | returned ts client => exact ⟨⟨h.1.1.mono hle, h.1.2⟩, h.2⟩
  | begun => trivial
  | fresh _ _ => trivial
  | missed _ => trivial
  | failed _ => trivial
  | dropped => trivial

theorem Recorded.mono {conn : McpServerConnection} (h : Recorded T owners conn)
    (hle : owners <+: owners') : Recorded T owners' conn := by
  obtain ⟨own, hown, hopened⟩ := h
  exact ⟨own, owner_mono hown hle, hopened⟩

/-- A slot is written. -/
theorem known_update {slots : Nat → UserToolset} {u : UserToolset}
    (h : ∀ slot ts, (slots slot).toolset = some ts → Known T owners ts)
    (hu : ∀ ts, u.toolset = some ts → Known T owners ts) :
    ∀ slot' ts, (Function.update slots slot u slot').toolset = some ts → Known T owners ts := by
  intro slot' ts hts
  rcases eq_or_ne slot' slot with rfl | hslot
  · rw [Function.update_self] at hts
    exact hu ts hts
  · rw [Function.update_of_ne hslot] at hts
    exact h slot' ts hts

/-- A call moves on. -/
theorem Inv.setPhase (h : Inv T owners s) (hp : p.Ok T owners (T.token c.event)) :
    Inv T owners (s.setPhase i c p) := by
  refine ⟨h.count, h.slots, ?_, h.clients, h.connections⟩
  intro d hd
  rcases List.mem_or_eq_of_mem_set hd with hd | rfl
  · exact h.calls d hd
  · exact hp

/-- A tool server is started. -/
theorem Inv.start (h : Inv T owners s) : Inv T (owners ++ [token])
    { s with nextToolset := s.nextToolset + 1 } := by
  have hle : owners <+: owners ++ [token] := List.prefix_append ..
  refine ⟨?_, ?_, ?_, h.clients, ?_⟩
  · rw [List.length_append, h.count]
    rfl
  · intro slot ts hts
    exact (h.slots slot ts hts).mono hle
  · intro c hc
    exact (h.calls c hc).mono hle
  · intro conn hconn
    exact (h.connections conn hconn).mono hle

/-! ### The steps of a call -/

theorem Inv.enter (h : Inv T owners s) {userId : String} {now : Nat} :
    Inv T owners (s.enter i c userId now) := by
  have hmove : ∀ slot, Inv T owners (s.setPhase i c (.fresh slot false)) := fun slot =>
    h.setPhase trivial
  unfold State.enter
  split
  · rename_i slot _
    exact { hmove slot with slots := known_update h.slots (h.slots slot) }
  · refine { hmove s.nextSlot with slots := known_update h.slots ?_ }
    intro ts hts
    cases hts

theorem Inv.miss (h : Inv T owners s) :
    ∃ owners', owners <+: owners' ∧ Inv T owners' (s.miss T i c slot locked) := by
  unfold State.miss
  split
  · -- the tool server started here is for the token of this call
    refine ⟨owners ++ [T.token c.event], List.prefix_append .., ?_⟩
    have hstart : Inv T (owners ++ [T.token c.event]) { s with nextToolset := s.nextToolset + 1 } :=
      h.start
    refine hstart.setPhase ⟨?_, [], rfl, .nil⟩
    rw [← h.count]
    exact List.getElem?_concat_length
  · exact ⟨owners, List.prefix_rfl, h.setPhase trivial⟩

theorem Inv.fresh (h : Inv T owners s) :
    ∃ owners', owners <+: owners' ∧ Inv T owners' (s.fresh T i c slot locked) := by
  unfold State.fresh
  split
  · rename_i ts hts
    refine ⟨owners, List.prefix_rfl, h.setPhase ⟨h.slots slot ts hts, [], rfl, ?_⟩⟩
    intro conn hconn
    cases hconn
  · exact h.miss

theorem Inv.check (h : Inv T owners s) {conn : McpServerConnection}
    {rest : List McpServerConnection}
    (hp : (Phase.checking slot locked ts (conn :: rest)).Ok T owners (T.token c.event)) :
    ∃ owners', owners <+: owners' ∧ Inv T owners' (s.check T i c slot locked ts conn rest ans) := by
  unfold State.check
  split
  · exact ⟨owners, List.prefix_rfl, h.setPhase trivial⟩
  · exact h.miss
  · rename_i hfresh
    obtain ⟨hknown, done, hconns, hdone⟩ := hp
    refine ⟨owners, List.prefix_rfl, h.setPhase ⟨hknown, done ++ [conn], ?_, ?_⟩⟩
    · rw [hconns, List.append_assoc]
      rfl
    · intro conn' hconn'
      rcases List.mem_append.mp hconn' with hmem | hmem
      · exact hdone conn' hmem
      · rw [List.mem_singleton.mp hmem]
        exact stale_carries hfresh

/-- All connections were compared. -/
theorem given_of_checked
    (hp : (Phase.checking slot locked ts []).Ok T owners token) : Given T owners token ts := by
  obtain ⟨hknown, done, hconns, hdone⟩ := hp
  obtain ⟨own, hown, hserves⟩ := hknown
  refine ⟨⟨own, hown, hserves⟩, hserves.of_carries ?_⟩
  rw [hconns, List.append_nil]
  exact hdone

theorem Inv.open (h : Inv T owners s) {opened : List McpServerConnection} {server : McpServerConfig}
    {rest : List McpServerConfig}
    (hp : (Phase.connecting slot id opened (server :: rest)).Ok T owners (T.token c.event)) :
    Inv T owners (s.open T i c slot id opened server rest ans) := by
  unfold State.open
  split
  · exact h.setPhase trivial
  · rename_i conn hconn
    obtain ⟨hown, done, hservers, hdone⟩ := hp
    have hopened : OpenedFor id (T.token c.event) server conn := openServer_opens hconn
    have hmove : Inv T owners (s.setPhase i c (.connecting slot id (opened ++ [conn]) rest)) := by
      refine h.setPhase ⟨hown, done ++ [server], ?_, ?_⟩
      · rw [hservers, List.append_assoc]
        rfl
      · exact List.rel_append hdone (.cons hopened .nil)
    refine { hmove with connections := ?_ }
    intro conn' hconn'
    rcases List.mem_append.mp hconn' with hmem | hmem
    · exact h.connections conn' hmem
    · rw [List.mem_singleton.mp hmem]
      refine ⟨T.token c.event, hopened.handle ▸ hown, server, ?_, ?_⟩
      · rw [hservers]
        exact List.mem_append_right _ List.mem_cons_self
      · exact hopened.handle ▸ hopened

/-- All servers were connected. -/
theorem given_of_connected {opened : List McpServerConnection}
    (hp : (Phase.connecting slot id opened []).Ok T owners token) :
    Given T owners token (T.toolset id opened) := by
  obtain ⟨hown, done, hservers, hdone⟩ := hp
  have hserves : Serves T.config token (T.toolset id opened) := by
    refine toolset_serves ?_
    rw [hservers, List.append_nil]
    exact hdone
  exact ⟨⟨token, hown, hserves⟩, hserves⟩

theorem Inv.store (h : Inv T owners s) (hts : Given T owners (T.token c.event) ts) :
    Inv T owners (s.store i c slot ts) := by
  have hmove : Inv T owners (s.setPhase i c (.current ts)) := h.setPhase hts
  refine { hmove with slots := known_update h.slots ?_ }
  intro ts' hts'
  cases hts'
  exact hts.1

theorem Inv.lookup (h : Inv T owners s) (hts : Given T owners (T.token c.event) ts) :
    Inv T owners (s.lookup i c ts) := by
  unfold State.lookup
  split
  · rename_i client hclient
    exact h.setPhase ⟨hts, h.clients ts.id _ client hclient⟩
  · exact h.setPhase hts

theorem Inv.build (h : Inv T owners s) (hts : Given T owners (T.token c.event) ts) :
    Inv T owners (s.build i c ts ans) := by
  unfold State.build
  split
  · exact h.setPhase trivial
  · rename_i client hbuild
    have hhandle : client.toolServerHandle = T.config.handle ts.id :=
      (buildAgentClient_ok hbuild).2.trans hts.2.handle
    have hmove : Inv T owners (s.setPhase i c (.returned ts client)) := h.setPhase ⟨hts, hhandle⟩
    refine { hmove with clients := ?_ }
    intro id key client hclient
    change Function.update s.clients ts.id _ id key = some client at hclient
    by_cases hid : id = ts.id
    · subst hid
      rw [Function.update_self] at hclient
      by_cases hkey : key = c.rendered.clientId
      · subst hkey
        rw [Function.update_self] at hclient
        cases hclient
        exact hhandle
      · rw [Function.update_of_ne hkey] at hclient
        exact h.clients ts.id key client hclient
    · rw [Function.update_of_ne hid] at hclient
      exact h.clients id key client hclient

theorem Inv.advance (h : Inv T owners s) (hc : c ∈ s.calls) (hs : s.advance T i ans c = some t) :
    ∃ owners', owners <+: owners' ∧ Inv T owners' t := by
  have hp := h.calls c hc
  unfold State.advance at hs
  cases hphase : c.phase with
  | begun =>
      simp only [hphase] at hs
      split at hs
      · cases hs
        exact ⟨owners, List.prefix_rfl, h.setPhase trivial⟩
      · cases hs
        exact ⟨owners, List.prefix_rfl, h.enter⟩
      · cases hs
        exact ⟨owners, List.prefix_rfl, h.setPhase trivial⟩
  | fresh slot locked =>
      simp only [hphase] at hs
      cases hs
      exact h.fresh
  | checking slot locked ts rest =>
      rw [hphase] at hp
      cases rest with
      | nil =>
          simp only [hphase] at hs
          cases hs
          exact ⟨owners, List.prefix_rfl, h.setPhase (given_of_checked hp)⟩
      | cons conn rest =>
          simp only [hphase] at hs
          cases hs
          exact h.check hp
  | missed slot =>
      simp only [hphase] at hs
      split at hs
      · cases hs
      · cases hs
        exact ⟨owners, List.prefix_rfl, h.setPhase trivial⟩
  | connecting slot id opened rest =>
      rw [hphase] at hp
      cases rest with
      | nil =>
          simp only [hphase] at hs
          cases hs
          exact ⟨owners, List.prefix_rfl, h.store (given_of_connected hp)⟩
      | cons server rest =>
          simp only [hphase] at hs
          cases hs
          exact ⟨owners, List.prefix_rfl, h.open hp⟩
  | current ts =>
      rw [hphase] at hp
      simp only [hphase] at hs
      split at hs
      · cases hs
      · cases hs
        exact ⟨owners, List.prefix_rfl, h.lookup hp⟩
  | building ts =>
      rw [hphase] at hp
      simp only [hphase] at hs
      cases hs
      exact ⟨owners, List.prefix_rfl, h.build hp⟩
  | returned ts client =>
      simp only [hphase] at hs
      cases hs
  | failed error =>
      simp only [hphase] at hs
      cases hs
  | dropped =>
      simp only [hphase] at hs
      cases hs

theorem Inv.step (h : Inv T owners s) (hs : step T s a = some t) :
    ∃ owners', owners <+: owners' ∧ Inv T owners' t := by
  cases a with
  | call event =>
      unfold Toolsets.step at hs
      cases hr : T.render event with
      | error error =>
          simp only [hr] at hs
          cases hs
          exact ⟨owners, List.prefix_rfl, h⟩
      | ok rendered =>
          simp only [hr] at hs
          cases hs
          refine ⟨owners, List.prefix_rfl, { h with calls := ?_ }⟩
          intro c hc
          rcases List.mem_append.mp hc with hc | hc
          · exact h.calls c hc
          · rw [List.mem_singleton.mp hc]
            trivial
  | next i ans =>
      obtain ⟨c, hc, hs⟩ := Option.bind_eq_some_iff.mp hs
      exact h.advance (List.mem_of_getElem? hc) hs
  | drop i =>
      obtain ⟨c, hc, hs⟩ := Option.bind_eq_some_iff.mp hs
      split at hs
      · cases hs
      · cases hs
        exact ⟨owners, List.prefix_rfl, h.setPhase trivial⟩
  | sweep now =>
      cases hs
      exact ⟨owners, List.prefix_rfl, ⟨h.count, h.slots, h.calls, h.clients, h.connections⟩⟩

/-! ### The start -/

theorem exists_server {handle : Nat} {servers : List McpServerConfig}
    {conns : List McpServerConnection} {conn : McpServerConnection}
    (h : List.Forall₂ (OpenedFor handle token) servers conns) (hconn : conn ∈ conns) :
    ∃ server ∈ servers, OpenedFor handle token server conn := by
  induction h with
  | nil => cases hconn
  | cons hhead _ ih =>
      rcases List.mem_cons.mp hconn with rfl | hmem
      · exact ⟨_, List.mem_cons_self, hhead⟩
      · obtain ⟨server, hserver, hopened⟩ := ih hmem
        exact ⟨server, List.mem_cons_of_mem _ hserver, hopened⟩

theorem connect_serves {answers : Nat → Answer} (h : T.connect id token answers = .ok ts) :
    ts.id = id ∧ Serves T.config token ts := by
  obtain ⟨conns, hconns, h⟩ := bind_eq_ok.mp h
  cases h
  exact ⟨rfl, toolset_serves (mapM_opens _ 0 hconns)⟩

/-- What `init` connects is opened for nobody. -/
theorem init_serves {answers : Nat → Answer} (h : T.init answers = .ok (some ts)) :
    ts.id = 0 ∧ Serves T.config none ts := by
  obtain ⟨_, -, h⟩ := bind_eq_ok.mp h
  split at h
  · cases h
  · obtain ⟨ts', hts', h⟩ := bind_eq_ok.mp h
    cases h
    exact connect_serves hts'

theorem inv_initial {answers : Nat → Answer} {toolset : Option Toolset}
    (h : T.init answers = .ok toolset) : Inv T [none] (State.initial toolset) := by
  have hknown : ∀ ts, toolset = some ts → Known T [none] ts := by
    rintro ts rfl
    obtain ⟨hid, hserves⟩ := init_serves h
    exact ⟨none, hid ▸ rfl, hserves⟩
  refine ⟨rfl, ?_, ?_, ?_, ?_⟩
  · intro slot ts hts
    unfold State.initial at hts
    dsimp only at hts
    split at hts
    · exact hknown ts hts
    · cases hts
  · intro c hc
    cases hc
  · intro id key client hclient
    cases hclient
  · intro conn hconn
    cases toolset with
    | none => cases hconn
    | some ts =>
        obtain ⟨hid, hserves⟩ := init_serves h
        obtain ⟨server, hserver, hopened⟩ := exists_server hserves.opened hconn
        refine ⟨none, ?_, server, hserver, ?_⟩
        · rw [hopened.handle, hid]
          rfl
        · rw [hopened.handle]
          exact hopened

theorem inv_reachable (hrun : (machine T).Reachable s) : ∃ owners, Inv T owners s := by
  refine hrun.invariant (I := fun s => ∃ owners, Inv T owners s) ?_ ?_
  · rintro s ⟨answers, toolset, hinit, rfl⟩
    exact ⟨[none], inv_initial hinit⟩
  · rintro s a t ⟨owners, h⟩ - hs
    obtain ⟨owners', -, h'⟩ := h.step hs
    exact ⟨owners', h'⟩

/-! ## Isolation -/

/-- The tools that answer to `handle` are called with `token`, wherever they act
on behalf of the user. -/
def CalledAs (s : State δ) (handle : Nat) (token : Option String) : Prop :=
  ∀ conn ∈ s.connections, conn.service.handle = handle → conn.onBehalfOfUser = true →
    ∃ t, token = some t ∧ conn.service.headers "authorization" = some (bearer t)

/-- A server that acts on behalf of the user has the event's token compared. -/
theorem token_of_onBehalf {server : McpServerConfig} {event : Event δ}
    (hserver : server ∈ T.config.mcpServers) (hon : server.onBehalfOfUser = true) :
    T.token event = event.token := by
  unfold Task.token
  split
  · rfl
  · rename_i hnone
    have hall := List.find?_eq_none.mp (Option.map_eq_none_iff.mp hnone)
    exact absurd hon (hall server hserver)

theorem Phase.Ok.given (h : p.Ok T owners token) :
    p.toolset = some ts → Given T owners token ts := by
  intro hts
  cases p with
  | current ts' =>
      cases hts
      exact h
  | building ts' =>
      cases hts
      exact h
  | returned ts' client =>
      cases hts
      exact h.1
  | begun => cases hts
  | fresh _ _ => cases hts
  | checking _ _ _ _ => cases hts
  | missed _ => cases hts
  | connecting _ _ _ _ => cases hts
  | failed _ => cases hts
  | dropped => cases hts

/-- A toolset that a caller was given is served with the token of its event. -/
theorem Given.opened {event : Event δ} (h : Given T owners (T.token event) ts) :
    List.Forall₂ (OpenedFor ts.id event.token) T.config.mcpServers ts.connections := by
  refine (List.forall₂_and_left (p := (· ∈ T.config.mcpServers)) .. |>.mpr ⟨?_, h.2.opened⟩).imp ?_
  · intro server hserver
    exact hserver
  · rintro server conn ⟨hserver, hopened⟩
    refine ⟨hopened.url, hopened.handle, hopened.onBehalf, ?_⟩
    intro hon
    obtain ⟨t, ht, hconn⟩ := hopened.bearer hon
    exact ⟨t, (token_of_onBehalf hserver hon) ▸ ht, hconn⟩

theorem Inv.calledAs (h : Inv T owners s) {event : Event δ}
    (hts : Given T owners (T.token event) ts) : CalledAs s ts.id event.token := by
  rintro conn hconn hhandle hon
  obtain ⟨own, hown, server, hserver, hopened⟩ := h.connections conn hconn
  obtain ⟨own', hown', hserves⟩ := hts.1
  rw [hhandle, hown'] at hown
  cases hown
  have honServer : server.onBehalfOfUser = true := hopened.onBehalf.symm.trans hon
  obtain rfl := forall₂_token hserves.opened hts.2.opened hserver honServer
  obtain ⟨t, ht, -, hheader⟩ := hopened.bearer honServer
  exact ⟨t, (token_of_onBehalf hserver honServer) ▸ ht, hheader⟩

/-- **Per-user tool isolation.**  Whatever the users do, the toolset a call was
given was connected, on each server that acts on behalf of the user, with the
token of the call's own event; and a client taken from it uses its handle, on
which no connection answers with another token. -/
theorem toolset_isolated (hrun : (machine T).Reachable s) (hc : c ∈ s.calls)
    (hts : c.phase.toolset = some ts) :
    List.Forall₂ (OpenedFor ts.id c.event.token) T.config.mcpServers ts.connections ∧
      ∀ client, c.phase = .returned ts client →
        client.toolServerHandle = ts.mcp.map McpTools.handle ∧
          ∀ handle, client.toolServerHandle = some handle → CalledAs s handle c.event.token := by
  obtain ⟨owners, h⟩ := inv_reachable hrun
  have hok := h.calls c hc
  have hgiven := hok.given hts
  refine ⟨hgiven.opened, ?_⟩
  intro client hphase
  rw [hphase] at hok
  refine ⟨hok.2.trans hgiven.2.handle.symm, ?_⟩
  intro handle hhandle
  have hid : handle = ts.id := by
    have hsome := hok.2.symm.trans hhandle
    unfold Completion.handle at hsome
    split at hsome
    · cases hsome
    · exact (Option.some.inj hsome).symm
  rw [hid]
  exact h.calledAs hgiven

end Invariant

/-! ### Two tokens of one user -/

def sampleServer : McpServerConfig where
  url := "https://mcp.test/mcp"
  credentialsPath := none
  headers := [("Authorization", "Bearer static")]
  onBehalfOfUser := true

def sampleConfig : Completion where
  provider := "openai"
  model := "gpt"
  endpoint := none
  credentialsPath := some "/creds.json"
  mcpServers := [sampleServer]

def sample : Task Unit where
  config := sampleConfig
  render _ := .ok sampleConfig
  headerName name := some name.toLower
  headerValue _ := true

def sampleAnswer : Answer where
  now := 0
  credentials := none
  header := none
  connect := .ok ()
  rejects := false
  providerCredentials := some { apiKey := "key" }
  build := .ok ()

def sampleEvent (token : String) : Event Unit := ⟨some ⟨"ada", some token⟩, ()⟩

def nexts (i n : Nat) : List (Act Unit) := List.replicate n (.next i sampleAnswer)

/-- A call opens its toolset; another one of the same user with a newer token
has read it meanwhile, finds it stale after the user was swept, opens its own
and builds its client on it. -/
theorem toolset_isolated_refreshed :
    ∃ (s : State Unit) (c : Call Unit) (ts : Toolset), (machine sample).Reachable s ∧
      c.phase.toolset = some ts ∧ c.event.token = some "new" ∧
      List.Forall₂ (OpenedFor ts.id (some "new")) [sampleServer] ts.connections ∧
      ∃ client, c.phase = .returned ts client ∧ CalledAs s ts.id (some "new") := by
  have hrun : (((machine sample).exec (fun _ _ => True) (State.initial none)
      (.call (sampleEvent "old") :: nexts 0 6 ++ .call (sampleEvent "new") :: nexts 1 2 ++
        .sweep 5000 :: nexts 0 2 ++ nexts 1 8)).any fun s : State Unit =>
      s.calls[1]?.any fun c : Call Unit => c.event.token == some "new" &&
        match c.phase with
        | .returned ts client => client.toolServerHandle == some ts.id
        | _ => false) = true := by
    decide
  obtain ⟨s, hr, hs⟩ := Machine.exists_of_exec hrun
  obtain ⟨c, hc, hs⟩ := (Option.any_eq_true ..).mp hs
  obtain ⟨htoken, hs⟩ := (Bool.and_eq_true ..).mp hs
  split at hs
  · rename_i ts client hphase
    have hreach : (machine sample).Reachable s :=
      ⟨_, _, ⟨fun _ => sampleAnswer, none, rfl, rfl⟩, hr⟩
    have hts : c.phase.toolset = some ts := by rw [hphase]; rfl
    have htoken := beq_iff_eq.mp htoken
    obtain ⟨hopened, hclient⟩ := toolset_isolated hreach (List.mem_of_getElem? hc) hts
    rw [htoken] at hopened hclient
    refine ⟨s, c, ts, hreach, hts, htoken, hopened, client, hphase, ?_⟩
    exact (hclient client hphase).2 ts.id (beq_iff_eq.mp hs)
  · cases hs

end Flowgen.Toolsets
