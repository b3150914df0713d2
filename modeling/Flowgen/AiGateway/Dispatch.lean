/-
# `Flowgen.AiGateway.Dispatch` — which proxy answers a request
(`ai-agent/src/ai_gateway/server.rs`)

All `llm_proxy` tasks of all flows share one dispatch table, keyed by the name of
the proxy.  `GET /models` offers an id for every model of a proxy;
`POST /chat/completions` and `POST /messages` take such an id apart and look the
proxy up.  A proxy can require headers, and a caller that does not present them is
to find no trace of it.

What a caller learns depends on nothing but the proxies whose headers it presents
(`answers_of_visible`).  An offered id reaches the proxy that offers it, with the
model that it was offered for, exactly when the name of the proxy is neither empty
nor holds a slash and the model is not empty (`offered_reached_iff`); a task's name
is not checked for that.

The table is iterated in the order of its entries.  What a handler does after it has
found the proxy, the user and the model is not in this module.
-/
import Flowgen.AiGateway.Adapters
import Flowgen.Lib.Unseen
import Flowgen.Text

namespace Flowgen.AiGateway.Dispatch

open Flowgen.Lib
open Flowgen.Text (splitOnce stripPrefix)

/-! ## Headers -/

/-- The bytes of a header's value need not be text. -/
inductive HeaderValue
  | text (value : String)
  | bytes
deriving DecidableEq

/-- `HeaderValue::to_str`. -/
def HeaderValue.toStr : HeaderValue → Option String
  | .text value => some value
  | .bytes => none

/-- Headers are found under their names in any case. -/
structure HeaderMap where
  get : String → Option HeaderValue
  caseless : ∀ name name', name.toLower = name'.toLower → get name = get name'

/-- `HeaderMap::insert`. -/
def HeaderMap.insert (headers : HeaderMap) (name : String) (value : HeaderValue) : HeaderMap where
  get name' := if name'.toLower = name.toLower then some value else headers.get name'
  caseless name₁ name₂ h := by
    show (if _ then _ else _) = (if _ then _ else _)
    rw [h, headers.caseless name₁ name₂ h]

/-- `headers_satisfy` (`core/src/http_server.rs`). -/
def headersSatisfy (headers : HeaderMap) (required : List (String × String)) : Bool :=
  required.all fun (name, expected) => (headers.get name).bind HeaderValue.toStr == some expected

/-- What `dispatch_messages` does with the `x-api-key` header. -/
def foldApiKey (headers : HeaderMap) : HeaderMap :=
  match headers.get "authorization", (headers.get "x-api-key").bind HeaderValue.toStr with
  | none, some key => headers.insert "authorization" (.text ("Bearer " ++ key))
  | _, _ => headers

/-- Folding the key shows more proxies, and hides none. -/
theorem headersSatisfy_foldApiKey {headers : HeaderMap} {required : List (String × String)}
    (h : headersSatisfy headers required = true) :
    headersSatisfy (foldApiKey headers) required = true := by
  rw [foldApiKey]
  split
  · rename_i key habsent hkey
    refine List.all_eq_true.mpr fun entry hentry => ?_
    have hsome := beq_iff_eq.mp (List.all_eq_true.mp h entry hentry)
    have hne : entry.1.toLower ≠ "authorization".toLower := by
      intro heq
      rw [headers.caseless _ _ heq, habsent] at hsome
      cases hsome
    show ((if _ then _ else _ : Option HeaderValue).bind _ == _) = true
    rw [if_neg hne, hsome]
    exact beq_self_eq_true _
  · exact h

/-! ## Errors -/

/-- `DispatchError`, as far as a proxy is looked up. -/
inductive DispatchError
  | missingModelField
  | missingProxyPrefix
  | modelChoiceRequired (name : String)
  | unknownProxy (name : String)
  | proxyNotVisible (name : String)
  | wrongProtocolForUrl (name : String)
  | noCredentials
  | invalidCredentials
  | malformedCredentials
  | authProviderMissing
deriving DecidableEq

/-- `DispatchError::to_string`. -/
def DispatchError.message : DispatchError → String
  | .missingModelField => "Request body is missing the required 'model' field"
  | .missingProxyPrefix =>
      "Request 'model' field must be of the form '<proxy-name>/<downstream-model>'"
  | .modelChoiceRequired name =>
      "LLM proxy '" ++ name ++ "' advertises models; the request must pick one as '" ++ name ++
        "/<model>'"
  | .unknownProxy name | .proxyNotVisible name => "Unknown LLM proxy '" ++ name ++ "'"
  | .wrongProtocolForUrl name =>
      "LLM proxy '" ++ name ++ "' does not speak the protocol expected at this URL"
  | .noCredentials => "No authorization header provided"
  | .invalidCredentials => "Invalid authorization credentials"
  | .malformedCredentials => "Malformed authorization header"
  | .authProviderMissing => "Auth provider not configured but auth.required is true"

def DispatchError.errorType : DispatchError → String
  | .missingModelField | .missingProxyPrefix | .modelChoiceRequired _ => "invalid_request_error"
  | .unknownProxy _ | .proxyNotVisible _ | .wrongProtocolForUrl _ => "not_found_error"
  | .noCredentials | .invalidCredentials | .malformedCredentials | .authProviderMissing =>
      "authentication_error"

def DispatchError.status : DispatchError → Nat
  | .missingModelField | .missingProxyPrefix | .modelChoiceRequired _ => 400
  | .unknownProxy _ | .proxyNotVisible _ | .wrongProtocolForUrl _ => 404
  | .noCredentials | .invalidCredentials | .malformedCredentials | .authProviderMissing => 401

/-- What the caller of a refused request gets. -/
inductive Response
  /-- A status without a body. -/
  | bare (status : Nat)
  | error (status : Nat) (message errorType : String)
deriving DecidableEq

def DispatchError.intoResponse (e : DispatchError) : Response :=
  .error e.status e.message e.errorType

/-! ## Registrations -/

/-- `LlmProxy`, as far as the dispatcher reads it. -/
structure LlmProxy where
  name : String
  models : List String
  headers : List (String × String)
  /-- The `required` of the `auth` section. -/
  auth : Option Bool

structure BasicAuth where
  username : String
  password : String

/-- `HttpCredentials`, as far as the dispatcher reads them. -/
structure HttpCredentials where
  bearerAuth : Option String
  basicAuth : Option BasicAuth

structure UserSession (U : Type) where
  user : U
  token : String

/-- The provider is given by the tokens it accepts. -/
structure LlmProxyRegistration (U : Type) where
  flowName : String
  displayName : Option String
  description : Option String
  protocol : Protocol
  config : LlmProxy
  credentials : Option HttpCredentials
  authProvider : Option (String → Option U)
  taskId : Nat
  cancelled : Bool

variable {U : Type}

/-- The dispatch table: a proxy stands under its own name. -/
structure Proxies (U : Type) where
  table : Table String (LlmProxyRegistration U)
  keyed : ∀ entry ∈ table.entries, entry.2.config.name = entry.1

/-- `HttpServer::register`, as `llm_proxy` calls it. -/
def Proxies.register (proxies : Proxies U) (registration : LlmProxyRegistration U) :
    Proxies U where
  table := proxies.table.insert registration.config.name registration
  keyed entry hentry := by
    rw [AList.entries_insert] at hentry
    rcases List.mem_cons.mp hentry with rfl | hold
    · rfl
    · exact proxies.keyed entry ((List.kerase_sublist _ _).subset hold)

/-- `HttpServer::deregister_flow`. -/
def Proxies.deregisterFlow (proxies : Proxies U) (flowName : String) : Proxies U where
  table :=
    ⟨proxies.table.entries.filter fun entry => entry.2.flowName != flowName,
      proxies.table.nodupKeys.sublist List.filter_sublist⟩
  keyed entry hentry := proxies.keyed entry (List.mem_of_mem_filter hentry)

/-- The proxies whose headers the request presents. -/
def Proxies.visible (proxies : Proxies U) (headers : HeaderMap) :
    List (Sigma fun _ : String => LlmProxyRegistration U) :=
  proxies.table.entries.filter fun entry => headersSatisfy headers entry.2.config.headers

/-! ## The list of models -/

def Protocol.asStr : Protocol → String
  | .openai => "openai"
  | .anthropic => "anthropic"

structure ModelEntry where
  id : String
  object : String := "model"
  created : Int
  ownedBy : String := "flowgen"
  protocol : String
  displayName : Option String
  description : Option String
deriving DecidableEq

/-- What one proxy contributes to the list. -/
def modelEntries (created : Int) (entry : Sigma fun _ : String => LlmProxyRegistration U) :
    List ModelEntry :=
  let reg := entry.2
  let item (id : String) : ModelEntry :=
    { id, created, protocol := Protocol.asStr reg.protocol, displayName := reg.displayName,
      description := reg.description }
  match reg.config.models.isEmpty with
  | true => [item entry.1]
  | false => reg.config.models.map fun m => item (entry.1 ++ "/" ++ m)

def listModels (proxies : Proxies U) (headers : HeaderMap) (created : Int) : List ModelEntry :=
  (proxies.visible headers).flatMap (modelEntries created)

/-! ## Credentials -/

/-- `extract_bearer_token` (`core/src/auth.rs`). -/
def extractBearerToken (authHeader : String) : Option String :=
  (stripPrefix "Bearer ".toList authHeader.toList).map String.ofList

section Requests

-- The decoder of the standard base64 alphabet.
variable (decode : String → Option ByteArray)

/-- The part of `validate_endpoint_auth` for basic credentials. -/
def validateBasicAuth (credentials : HttpCredentials) (authValue : String) :
    Except DispatchError Unit :=
  match credentials.basicAuth, stripPrefix "Basic ".toList authValue.toList with
  | some basicAuth, some encoded =>
      match (decode (String.ofList encoded)).bind String.fromUTF8? with
      | none => .error .malformedCredentials
      | some decoded =>
          if decoded = basicAuth.username ++ ":" ++ basicAuth.password then .ok ()
          else .error .invalidCredentials
  | _, _ => .error .invalidCredentials

def validateEndpointAuth (credentials : Option HttpCredentials) (headers : HeaderMap) :
    Except DispatchError Unit :=
  match credentials with
  | none => .ok ()
  | some credentials =>
      match headers.get "authorization" with
      | none => .error .noCredentials
      | some .bytes => .error .malformedCredentials
      | some (.text authValue) =>
          match credentials.bearerAuth, extractBearerToken authValue with
          | some expectedToken, some token =>
              if token = expectedToken then .ok () else .error .invalidCredentials
          | _, _ => validateBasicAuth decode credentials authValue

/-- The user that a bearer token belongs to. -/
def sessionOf (provider : String → Option U) (token : String) : Option (UserSession U) :=
  (provider token).map fun user => ⟨user, token⟩

def optionalUser (registration : LlmProxyRegistration U) (headers : HeaderMap) :
    Option (UserSession U) :=
  match registration.authProvider, registration.credentials with
  | some provider, none => do
      let authHeader ← (headers.get "authorization").bind HeaderValue.toStr
      sessionOf provider (← extractBearerToken authHeader)
  | _, _ => none

def validateUserAuth (registration : LlmProxyRegistration U) (headers : HeaderMap) :
    Except DispatchError (Option (UserSession U)) :=
  match registration.config.auth with
  | some true =>
      match registration.authProvider with
      | none => .error .authProviderMissing
      | some provider =>
          match (headers.get "authorization").bind HeaderValue.toStr with
          | none => .error .noCredentials
          | some authHeader =>
              match extractBearerToken authHeader with
              | none => .error .malformedCredentials
              | some token =>
                  match sessionOf provider token with
                  | some session => .ok (some session)
                  | none => .error .invalidCredentials
  | _ => .ok (optionalUser registration headers)

/-! ## Requests -/

/-- What a refusal for the headers leaves in the activity of the flow. -/
structure HeadersRejected where
  flowName : String
  task : String
  taskId : Nat
deriving DecidableEq

structure DispatchContext (U : Type) where
  registration : LlmProxyRegistration U
  session : Option (UserSession U)

/-- The result of a handler, and the activity that it records. -/
structure Handled (α : Type) where
  recorded : Option HeadersRejected := none
  result : Except Response α

/-- The checks of `resolve_registration` that follow the headers. -/
def authorize (expected : Protocol) (registration : LlmProxyRegistration U) (proxyName : String)
    (headers : HeaderMap) : Except Response (DispatchContext U) :=
  if registration.protocol ≠ expected then
    .error (DispatchError.wrongProtocolForUrl proxyName).intoResponse
  else if registration.cancelled then .error (.bare 503)
  else
    match validateEndpointAuth decode registration.credentials headers with
    | .error e => .error e.intoResponse
    | .ok () =>
        match validateUserAuth registration headers with
        | .error e => .error e.intoResponse
        | .ok session => .ok ⟨registration, session⟩

def resolveRegistration (proxies : Proxies U) (expected : Protocol) (proxyName : String)
    (headers : HeaderMap) : Handled (DispatchContext U) :=
  match proxies.table.lookup proxyName with
  | none => { result := .error (DispatchError.unknownProxy proxyName).intoResponse }
  | some registration =>
      if headersSatisfy headers registration.config.headers then
        { result := authorize decode expected registration proxyName headers }
      else
        { recorded := some ⟨registration.flowName, registration.config.name, registration.taskId⟩
          result := .error (DispatchError.proxyNotVisible proxyName).intoResponse }

def splitModel (model : String) : Except DispatchError (String × Option String) :=
  if model = "" then .error .missingModelField
  else
    match splitOnce '/' model.toList with
    | some (name, rest) =>
        if name ≠ [] ∧ rest ≠ [] then .ok (String.ofList name, some (String.ofList rest))
        else .error .missingProxyPrefix
    | none => .ok (model, none)

def requireModelChoice (registration : LlmProxyRegistration U) (downstreamModel : Option String) :
    Option Response :=
  if downstreamModel = none ∧ registration.config.models ≠ [] then
    some (DispatchError.modelChoiceRequired registration.config.name).intoResponse
  else none

/-- What the two handlers share: the proxy, the user and the model of the request. -/
def dispatchTo (proxies : Proxies U) (expected : Protocol) (model : String)
    (headers : HeaderMap) : Handled (DispatchContext U × Option String) :=
  match splitModel model with
  | .error e => { result := .error e.intoResponse }
  | .ok (proxyName, downstreamModel) =>
      let resolved := resolveRegistration decode proxies expected proxyName headers
      { recorded := resolved.recorded
        result :=
          match resolved.result with
          | .error response => .error response
          | .ok ctx =>
              match requireModelChoice ctx.registration downstreamModel with
              | some response => .error response
              | none => .ok (ctx, downstreamModel) }

def dispatchChatCompletions (proxies : Proxies U) (headers : HeaderMap) (model : Option String) :
    Handled (DispatchContext U × Option String) :=
  dispatchTo decode proxies .openai (model.getD "") headers

def dispatchMessages (proxies : Proxies U) (headers : HeaderMap) (model : String) :
    Handled (DispatchContext U × Option String) :=
  dispatchTo decode proxies .anthropic model (foldApiKey headers)

/-- The request for a model at the URL of a protocol. -/
def post (proxies : Proxies U) (headers : HeaderMap) (model : String) :
    Protocol → Handled (DispatchContext U × Option String)
  | .openai => dispatchChatCompletions decode proxies headers (some model)
  | .anthropic => dispatchMessages decode proxies headers model

end Requests

/-! ## What the caller learns -/

variable {decode : String → Option ByteArray} {proxies proxies' : Proxies U}
  {headers : HeaderMap} {proxyName : String}

theorem mem_visible {registration : LlmProxyRegistration U} :
    ⟨proxyName, registration⟩ ∈ proxies.visible headers ↔
      proxies.table.lookup proxyName = some registration ∧
        headersSatisfy headers registration.config.headers = true := by
  show _ ∈ List.filter _ _ ↔ _
  rw [List.mem_filter, ← AList.mem_lookup_iff]
  exact Iff.rfl

/-- The proxy under a name, unless it is hidden. -/
def Proxies.find (proxies : Proxies U) (headers : HeaderMap) (proxyName : String) :
    Option (LlmProxyRegistration U) :=
  (proxies.table.lookup proxyName).filter fun registration =>
    headersSatisfy headers registration.config.headers

theorem find_eq_some {registration : LlmProxyRegistration U} :
    proxies.find headers proxyName = some registration ↔
      ⟨proxyName, registration⟩ ∈ proxies.visible headers := by
  rw [Proxies.find, Option.filter_eq_some_iff, mem_visible]

/-- A hidden proxy is as unknown as a missing one. -/
theorem resolveRegistration_result {expected : Protocol} :
    (resolveRegistration decode proxies expected proxyName headers).result =
      match proxies.find headers proxyName with
      | none => .error (DispatchError.unknownProxy proxyName).intoResponse
      | some registration => authorize decode expected registration proxyName headers := by
  rw [resolveRegistration, Proxies.find]
  cases hlookup : proxies.table.lookup proxyName with
  | none => rfl
  | some registration =>
      cases hsatisfy : headersSatisfy headers registration.config.headers with
      | false =>
          simp only [Option.filter_some, hsatisfy]
          rfl
      | true => simp only [Option.filter_some, hsatisfy, if_true]

theorem find_congr (h : (proxies.visible headers).Perm (proxies'.visible headers)) :
    proxies.find headers proxyName = proxies'.find headers proxyName := by
  ext registration
  rw [find_eq_some, find_eq_some, h.mem_iff]

theorem dispatchTo_congr {expected : Protocol} {model : String}
    (h : (proxies.visible headers).Perm (proxies'.visible headers)) :
    (dispatchTo decode proxies expected model headers).result =
      (dispatchTo decode proxies' expected model headers).result := by
  rw [dispatchTo, dispatchTo]
  cases splitModel model with
  | error e => rfl
  | ok parts =>
      obtain ⟨proxyName, downstreamModel⟩ := parts
      have hresolve : (resolveRegistration decode proxies expected proxyName headers).result =
          (resolveRegistration decode proxies' expected proxyName headers).result := by
        rw [resolveRegistration_result, resolveRegistration_result, find_congr h]
      simp only [hresolve]

/-- What the headers show is among what they show with the key folded in. -/
theorem visible_of_foldApiKey (proxies : Proxies U) (headers : HeaderMap) :
    proxies.visible headers =
    (proxies.visible (foldApiKey headers)).filter fun entry =>
      headersSatisfy headers entry.2.config.headers := by
  rw [Proxies.visible, Proxies.visible, List.filter_filter]
  refine List.filter_congr fun entry _ => ?_
  cases h : headersSatisfy headers entry.2.config.headers with
  | false => simp
  | true => simp [headersSatisfy_foldApiKey h]

/-- **Hidden proxies leave no trace.**  Where two tables hold the same proxies as far as
the headers of a request show them, the request lists the same models, and every request
for a model gets the same answer at either URL, down to the text of a refusal. -/
theorem answers_of_visible
    (h : (proxies.visible (foldApiKey headers)).Perm (proxies'.visible (foldApiKey headers))) :
    (∀ created, (listModels proxies headers created).Perm (listModels proxies' headers created)) ∧
      ∀ protocol model, (post decode proxies headers model protocol).result =
        (post decode proxies' headers model protocol).result := by
  have hplain : (proxies.visible headers).Perm (proxies'.visible headers) := by
    rw [visible_of_foldApiKey proxies, visible_of_foldApiKey proxies']
    exact h.filter _
  refine ⟨fun created => hplain.flatMap_right _, fun protocol model => ?_⟩
  cases protocol with
  | openai => exact dispatchTo_congr hplain
  | anthropic => exact dispatchTo_congr h

/-- The table with one open proxy, and the same with a hidden one beside it. -/
def openProxy (name : String) (models : List String) (headers : List (String × String)) :
    LlmProxyRegistration Unit :=
  ⟨name, none, none, .openai, ⟨name, models, headers, none⟩, none, none, 0, false⟩

def noHeaders : HeaderMap := ⟨fun _ => none, fun _ _ _ => rfl⟩

def emptyProxies : Proxies Unit := ⟨∅, fun _ h => absurd h List.not_mem_nil⟩

theorem answers_of_visible_hidden :
    (post (fun _ => none) ((emptyProxies.register (openProxy "chat" ["large"] [])).register
        (openProxy "internal" [] [("x-team", "core")])) noHeaders "internal" .openai).result =
      (post (fun _ => none) (emptyProxies.register (openProxy "chat" ["large"] []))
        noHeaders "internal" .openai).result :=
  (answers_of_visible (List.Perm.of_eq rfl)).2 .openai "internal"

/-! ## What the list offers -/

/-- The models a client may pick from, or the lack of a choice. -/
def choices (registration : LlmProxyRegistration U) : List (Option String) :=
  if registration.config.models = [] then [none] else registration.config.models.map some

/-- The id under which a choice is offered. -/
def modelId (proxyName : String) : Option String → String
  | none => proxyName
  | some model => proxyName ++ "/" ++ model

theorem mem_choices {registration : LlmProxyRegistration U} {choice : Option String} :
    choice ∈ choices registration ↔
      (choice = none ∧ registration.config.models = []) ∨
        ∃ model ∈ registration.config.models, choice = some model := by
  rw [choices]
  split
  · rename_i hempty
    simp [hempty]
  · rename_i hmodels
    simp [hmodels, eq_comm]

/-- The ids in the list are those of the choices. -/
theorem mem_listModels_id {created : Int} {id : String} :
    (∃ item ∈ listModels proxies headers created, item.id = id) ↔
      ∃ entry ∈ proxies.visible headers, ∃ choice ∈ choices entry.2, modelId entry.1 choice = id := by
  have hone : ∀ entry : Sigma fun _ : String => LlmProxyRegistration U,
      (∃ item ∈ modelEntries created entry, item.id = id) ↔
        ∃ choice ∈ choices entry.2, modelId entry.1 choice = id := by
    intro entry
    cases hmodels : entry.2.config.models with
    | nil => simp [modelEntries, choices, hmodels, modelId]
    | cons model models => simp [modelEntries, choices, hmodels, modelId]
  rw [listModels]
  constructor
  · rintro ⟨item, hitem, hid⟩
    obtain ⟨entry, hentry, hmem⟩ := List.mem_flatMap.mp hitem
    exact ⟨entry, hentry, (hone entry).mp ⟨item, hmem, hid⟩⟩
  · rintro ⟨entry, hentry, hchoice⟩
    obtain ⟨item, hmem, hid⟩ := (hone entry).mpr hchoice
    exact ⟨item, List.mem_flatMap.mpr ⟨entry, hentry, hmem⟩, hid⟩

theorem splitOnce_eq_none {sep : Char} {cs : List Char} : splitOnce sep cs = none ↔ sep ∉ cs := by
  induction cs with
  | nil => simp [splitOnce]
  | cons c cs ih =>
      rw [splitOnce, List.mem_cons, not_or]
      by_cases hc : c = sep
      · simp [hc]
      · simp [hc, Ne.symm hc, ih]

/-- An id is taken apart into what it was made of exactly if the name is neither empty
nor holds a slash, and the model is not empty. -/
theorem splitModel_modelId {choice : Option String} :
    splitModel (modelId proxyName choice) = .ok (proxyName, choice) ↔
      proxyName ≠ "" ∧ '/' ∉ proxyName.toList ∧ choice ≠ some "" := by
  cases choice with
  | none =>
      rw [modelId, splitModel]
      by_cases hempty : proxyName = ""
      · simp [hempty]
      · rw [if_neg hempty]
        by_cases hslash : '/' ∈ proxyName.toList
        · cases hsplit : splitOnce '/' proxyName.toList with
          | none => exact absurd hslash (splitOnce_eq_none.mp hsplit)
          | some parts =>
              simp only [hslash, not_true, false_and, and_false, iff_false]
              split
              · intro h
                cases h
              · intro h
                cases h
        · simp [splitOnce_eq_none.mpr hslash, hempty, hslash]
  | some model =>
      have hne : proxyName ++ "/" ++ model ≠ "" := by
        intro h
        have hchars := congrArg String.toList h
        simp at hchars
      have hchars : (proxyName ++ "/" ++ model).toList =
          proxyName.toList ++ '/' :: model.toList := by simp
      rw [modelId, splitModel, if_neg hne, hchars]
      by_cases hslash : '/' ∈ proxyName.toList
      · simp only [hslash, not_true, false_and, and_false, iff_false]
        split
        · rename_i name rest hsplit
          obtain ⟨-, hbefore⟩ := Text.splitOnce_eq_some.mp hsplit
          split
          · intro h
            cases h
            exact hbefore (by simpa using hslash)
          · intro h
            cases h
        · intro h
          simp at h
      · rw [Text.splitOnce_append hslash]
        simp [hslash]

/-- The headers that the handler of a protocol works with. -/
def headersAt (headers : HeaderMap) : Protocol → HeaderMap
  | .openai => headers
  | .anthropic => foldApiKey headers

theorem post_eq {model : String} {protocol : Protocol} : post decode proxies headers model protocol =
    dispatchTo decode proxies protocol model (headersAt headers protocol) := by
  cases protocol with
  | openai => rfl
  | anthropic => rfl

theorem visible_headersAt {entry : Sigma fun _ : String => LlmProxyRegistration U}
    {protocol : Protocol} (h : entry ∈ proxies.visible headers) :
    entry ∈ proxies.visible (headersAt headers protocol) := by
  cases protocol with
  | openai => exact h
  | anthropic =>
      rw [visible_of_foldApiKey] at h
      exact List.mem_of_mem_filter h

theorem authorize_registration {expected : Protocol} {registration : LlmProxyRegistration U}
    {ctx : DispatchContext U} (h : authorize decode expected registration proxyName headers = .ok ctx) :
    ctx.registration = registration := by
  rw [authorize] at h
  split at h
  · cases h
  · split at h
    · cases h
    · split at h
      · cases h
      · split at h
        · cases h
        · cases h
          rfl

/-- What has been dispatched has been taken apart, found and admitted. -/
theorem dispatchTo_eq_ok {expected : Protocol} {model : String} {ctx : DispatchContext U}
    {choice : Option String} :
    (dispatchTo decode proxies expected model headers).result = .ok (ctx, choice) ↔
      ∃ proxyName registration, splitModel model = .ok (proxyName, choice) ∧
        ⟨proxyName, registration⟩ ∈ proxies.visible headers ∧
        authorize decode expected registration proxyName headers = .ok ctx ∧
        requireModelChoice registration choice = none := by
  rw [dispatchTo]
  cases splitModel model with
  | error e => simp
  | ok parts =>
      obtain ⟨proxyName, downstreamModel⟩ := parts
      simp only [resolveRegistration_result]
      constructor
      · intro h
        cases hfind : proxies.find headers proxyName with
        | none =>
            rw [hfind] at h
            cases h
        | some registration =>
            simp only [hfind] at h
            cases hauth : authorize decode expected registration proxyName headers with
            | error response =>
                rw [hauth] at h
                cases h
            | ok ctx' =>
                simp only [hauth] at h
                cases hrequire : requireModelChoice ctx'.registration downstreamModel with
                | some response =>
                    rw [hrequire] at h
                    cases h
                | none =>
                    rw [hrequire] at h
                    cases h
                    rw [authorize_registration hauth] at hrequire
                    exact ⟨proxyName, registration, rfl, find_eq_some.mp hfind, hauth, hrequire⟩
      · rintro ⟨proxyName', registration, hsplit, hvisible, hauth, hrequire⟩
        cases hsplit
        simp only [find_eq_some.mpr hvisible, hauth]
        rw [authorize_registration hauth, hrequire]

/-- **Offered is reached.**  Where a proxy's own checks let a request through, a request for
an id that the list offers for it reaches this proxy with the model that was offered, exactly
if the proxy's name is neither empty nor holds a slash and the model is not empty. -/
theorem offered_reached_iff {entry : Sigma fun _ : String => LlmProxyRegistration U}
    {choice : Option String} {ctx : DispatchContext U}
    (hvisible : entry ∈ proxies.visible headers) (hchoice : choice ∈ choices entry.2)
    (hauth : authorize decode entry.2.protocol entry.2 entry.1
      (headersAt headers entry.2.protocol) = .ok ctx) :
    (post decode proxies headers (modelId entry.1 choice) entry.2.protocol).result =
        .ok (ctx, choice) ↔
      entry.1 ≠ "" ∧ '/' ∉ entry.1.toList ∧ choice ≠ some "" := by
  rw [post_eq, dispatchTo_eq_ok, ← splitModel_modelId]
  constructor
  · rintro ⟨proxyName, registration, hsplit, hfound, hauth', -⟩
    -- The registration says which proxy it is.
    have hsame : registration = entry.2 :=
      (authorize_registration hauth').symm.trans (authorize_registration hauth)
    have hfoundName : registration.config.name = proxyName :=
      proxies.keyed _ (List.mem_of_mem_filter hfound)
    have hentryName : entry.2.config.name = entry.1 :=
      proxies.keyed _ (List.mem_of_mem_filter hvisible)
    have hname : proxyName = entry.1 := by rw [← hfoundName, hsame, hentryName]
    rw [hsplit, hname]
  · intro hsplit
    refine ⟨entry.1, entry.2, hsplit, visible_headersAt hvisible, hauth, ?_⟩
    rw [requireModelChoice]
    refine if_neg fun hbare => ?_
    rcases mem_choices.mp hchoice with ⟨-, hempty⟩ | ⟨model, -, hsome⟩
    · exact hbare.2 hempty
    · rw [hsome] at hbare
      cases hbare.1

theorem offered_reached_chat :
    (post (fun _ => none) (emptyProxies.register (openProxy "chat" ["large"] [])) noHeaders
        "chat/large" .openai).result =
      .ok (⟨openProxy "chat" ["large"] [], none⟩, some "large") := by
  have hvisible : (⟨"chat", openProxy "chat" ["large"] []⟩ : Sigma fun _ => _) ∈
      (emptyProxies.register (openProxy "chat" ["large"] [])).visible noHeaders :=
    List.mem_singleton.mpr rfl
  have hchoice : some "large" ∈ choices (openProxy "chat" ["large"] []) :=
    List.mem_singleton.mpr rfl
  exact (offered_reached_iff hvisible hchoice rfl).mpr ⟨by decide, by decide, by decide⟩

end Flowgen.AiGateway.Dispatch
