/-
# `Flowgen.Mcp.Server` — the requests of the MCP server (`mcp/src/server.rs`)

The server keeps what the flows have registered in four tables: tools by name,
resources by URI, resource templates by pattern, and prompts by name.  A
registration can require headers, and is meant for the callers that present
them.  Every JSON-RPC method is one handler over the tables.

A table is iterated in the order of its entries, which removing one of them
does not change.  The JSON parser of the parameters, the validators of tool
arguments, the auth provider and the template engine are given from outside; a
tool call that is accepted ends here with what is handed over to its flow.
-/
import Flowgen.Lib.Unseen
import Flowgen.Render.Template

namespace Flowgen.Mcp

open Flowgen.Lib
open Flowgen.Text (splitOnce stripPrefix)
open Flowgen.Render (Engine Source)

/-! ## Registrations -/

structure Credentials where
  apiKeys : List String

/-- The channel to the flow is left out; a call is handed over by the tool's name. -/
structure ToolRegistration where
  flowName : String
  description : String
  inputSchema : Json
  /-- The first schema violation of the arguments. -/
  inputValidator : Option (Json → Option String)
  credentials : Option Credentials
  ackTimeout : Option Nat
  authRequired : Bool
  leafCount : Nat
  headers : List (String × String)

inductive ResourceBody
  | concrete (content : String)
  | template (source : Source)

structure TemplateParameter where
  name : String
  completionValues : Option (List String)

/-- `ResourceLoader::load`. -/
abbrev ResourceLoader := String → Except String String

structure ResourceRegistration where
  flowName : String
  uri : String
  name : String
  description : String
  mimeType : String
  body : ResourceBody
  parameters : List TemplateParameter
  resourceLoader : Option ResourceLoader
  headers : List (String × String)

structure PromptArgument where
  name : String
  description : String
  required : Bool
  default : Option String
  completionValues : Option (List String)

inductive PromptRole
  | user
  | assistant

structure PromptMessage where
  role : PromptRole
  content : Source

structure PromptRegistration where
  flowName : String
  name : String
  description : String
  arguments : List PromptArgument
  messages : List PromptMessage
  resourceLoader : Option ResourceLoader
  headers : List (String × String)

/-- `UserSession`: the user as JSON, and the token. -/
structure UserSession where
  user : Json
  token : String

structure Server where
  table : Table String ToolRegistration
  resources : Table String ResourceRegistration
  resourceTemplates : Table String ResourceRegistration
  prompts : Table String PromptRegistration
  credentials : Option Credentials
  /-- `AuthProvider::validate`. -/
  authProvider : Option (String → Option Json)

/-! ## Requests and responses -/

/-- The value of a header, if it is there and is text. -/
abbrev HeaderMap := String → Option String

structure JsonRpcRequest where
  jsonrpc : Option String
  id : Option Json
  method : String
  params : Json

structure ToolCallParams where
  name : String
  arguments : Json

structure PromptsGetParams where
  name : String
  arguments : List (String × String)

inductive CompletionRef
  | prompt (name : String)
  | resource (uri : String)
deriving DecidableEq

structure CompleteParams where
  reference : CompletionRef
  argumentName : String
  argumentValue : String

/-- What the handlers take from libraries and from the process: the readers of
the parameters, which return the parser's message, the template engine and the
environment, and `str::to_lowercase`. -/
structure Runtime where
  readToolCall : Json → Except String ToolCallParams
  readResourceRead : Json → Except String String
  readPromptsGet : Json → Except String PromptsGetParams
  readComplete : Json → Except String CompleteParams
  engine : Engine
  env : List (String × String)
  toLowercase : String → String

structure ToolListEntry where
  name : String
  description : String
  inputSchema : Json

structure ResourceListEntry where
  uri : String
  name : String
  description : String
  mimeType : String

structure PromptArgumentEntry where
  name : String
  description : String
  required : Bool

structure PromptListEntry where
  name : String
  description : String
  arguments : List PromptArgumentEntry

structure PromptMessageWire where
  role : String
  text : String

/-- The `result` of a response. -/
inductive Result
  | initializeResult
  | tools (entries : List ToolListEntry)
  | toolResult (text : String) (isError : Bool)
  /-- The call goes to the flow of the tool, whose stream is the response. -/
  | invoked (tool : String) (arguments : Json) (session : Option UserSession)
      (ackTimeout : Option Nat) (leafCount : Nat)
  | resources (entries : List ResourceListEntry)
  | resourceTemplates (entries : List ResourceListEntry)
  | contents (uri mimeType text : String)
  | prompts (entries : List PromptListEntry)
  | prompt (description : String) (messages : List PromptMessageWire)
  | completion (values : List String) (total : Nat) (hasMore : Bool)

/-- A code of JSON-RPC, and the text of the error. -/
abbrev Failure := Int × String

inductive Response
  | accepted
  | result (id : Option Json) (result : Result)
  | error (id : Option Json) (failure : Failure)

/-- The texts of `Error`. -/
inductive Error
  | unsupportedJsonRpcVersion (version : String)
  | methodNotFound (method : String)
  | invalidParams (source : String)
  | unauthorized
  | unknownTool (name : String)
  | unknownResourceUri (uri : String)
  | resourceTemplateRender (source : String)
  | concreteBodyIsTemplate
  | templateBodyIsConcrete
  | unknownPrompt (name : String)
  | missingPromptArgument (name : String)
  | promptMessageRender (source : String)

def Error.message : Error → String
  | .unsupportedJsonRpcVersion version => s!"Unsupported JSON-RPC version: {version}"
  | .methodNotFound method => s!"Method not found: {method}"
  | .invalidParams source => s!"Invalid tool call parameters: {source}"
  | .unauthorized => "Authentication failed."
  | .unknownTool name => s!"Unknown tool: {name}"
  | .unknownResourceUri uri => s!"Unknown resource URI: {uri}"
  | .resourceTemplateRender source => s!"Failed to render templated resource: {source}"
  | .concreteBodyIsTemplate => "Registered concrete resource carries a template body"
  | .templateBodyIsConcrete => "Registered resource template carries a concrete body"
  | .unknownPrompt name => s!"Unknown prompt: {name}"
  | .missingPromptArgument name => s!"Missing required prompt argument: {name}"
  | .promptMessageRender source => s!"Failed to render prompt message: {source}"

def fail {α : Type} (code : Int) (e : Error) : Except Failure α := .error (code, e.message)

/-! ## Who may see what -/

/-- `headers_satisfy` (`core/src/http_server.rs`). -/
def headersSatisfy (headers : HeaderMap) (required : List (String × String)) : Bool :=
  required.all fun (name, expected) => headers name == some expected

/-- `extract_bearer_token`. -/
def extractBearerToken (authHeader : String) : Option String :=
  (stripPrefix "Bearer ".toList authHeader.toList).map String.ofList

/-- The bearer token of a request. -/
def bearer (headers : HeaderMap) : Option String :=
  (headers "authorization").bind extractBearerToken

/-- `validate_auth`: whether an API key authenticated the request. -/
def validateAuth (s : Server) (headers : HeaderMap) (toolName : Option String) :
    Except Unit Bool :=
  let toolCreds := toolName.bind fun name => (s.table.lookup name).bind (·.credentials)
  match toolCreds.orElse fun _ => s.credentials with
  | none => .ok false
  | some creds =>
      if creds.apiKeys.isEmpty then .ok false
      else
        match bearer headers with
        | none => .error ()
        | some token => if creds.apiKeys.contains token then .ok true else .error ()

/-- `validate_auth` without a tool, as the other handlers report it. -/
def requireAuth (s : Server) (headers : HeaderMap) : Except Failure Unit :=
  match validateAuth s headers none with
  | .ok _ => .ok ()
  | .error _ => .error (-32000, "401 Unauthorized")

/-- The user that a bearer token belongs to, if the provider accepts it. -/
def userOf (s : Server) (headers : HeaderMap) : Option UserSession := do
  let provider ← s.authProvider
  let token ← bearer headers
  return ⟨← provider token, token⟩

/-- `validate_user_auth`. -/
def validateUserAuth (s : Server) (headers : HeaderMap) (authRequired apiKey : Bool) :
    Except Unit (Option UserSession) :=
  match authRequired, apiKey with
  | false, true => .ok none
  | false, false => .ok (userOf s headers)
  | true, _ =>
      match userOf s headers with
      | some session => .ok (some session)
      | none => .error ()

/-- The entries of a table that the caller may see. -/
def visible {R : Type} (headers : HeaderMap) (required : R → List (String × String))
    (table : Table String R) : List (Sigma fun _ : String => R) :=
  table.entries.filter fun entry => headersSatisfy headers (required entry.2)

/-- The parameters of a request, or the parser's message. -/
def readParams {α : Type} (read : Json → Except String α) (params : Json) : Except Failure α :=
  match read params with
  | .ok params => .ok params
  | .error source => fail (-32602) (.invalidParams source)

/-! ## Tools -/

def handleToolsList (s : Server) (headers : HeaderMap) : Except Failure Result := do
  requireAuth s headers
  return .tools ((visible headers ToolRegistration.headers s.table).map fun entry =>
    ⟨entry.1, entry.2.description, entry.2.inputSchema⟩)

/-- What follows the check of the headers in `execute_tool_call`. -/
def invokeTool (s : Server) (headers : HeaderMap) (params : ToolCallParams)
    (entry : ToolRegistration) (apiKey : Bool) : Except Failure Result :=
  match validateUserAuth s headers entry.authRequired apiKey with
  | .error _ => fail (-32000) .unauthorized
  | .ok session =>
      let arguments := if params.arguments.isNull then .object [] else params.arguments
      match entry.inputValidator.bind fun validate => validate arguments with
      | some problem => .ok (.toolResult problem true)
      | none => .ok (.invoked params.name arguments session entry.ackTimeout entry.leafCount)

/-- `execute_tool_call`, with the codes of `handle_tools_call`: the credentials
of the tool come before its headers. -/
def executeToolCall (s : Server) (headers : HeaderMap) (params : ToolCallParams) :
    Except Failure Result :=
  match validateAuth s headers (some params.name) with
  | .error _ => fail (-32000) .unauthorized
  | .ok apiKey =>
      match s.table.lookup params.name with
      | none => fail (-32602) (.unknownTool params.name)
      | some entry =>
          if headersSatisfy headers entry.headers then invokeTool s headers params entry apiKey
          else fail (-32602) (.unknownTool params.name)

def handleToolsCall (rt : Runtime) (s : Server) (headers : HeaderMap) (params : Json) :
    Except Failure Result := do
  let params ← readParams rt.readToolCall params
  executeToolCall s headers params

/-! ## Resources -/

def handleResourcesList (s : Server) (headers : HeaderMap) : Except Failure Result := do
  requireAuth s headers
  return .resources ((visible headers ResourceRegistration.headers s.resources).map fun entry =>
    ⟨entry.2.uri, entry.2.name, entry.2.description, entry.2.mimeType⟩)

def handleResourceTemplatesList (s : Server) (headers : HeaderMap) : Except Failure Result := do
  requireAuth s headers
  return .resourceTemplates
    ((visible headers ResourceRegistration.headers s.resourceTemplates).map fun entry =>
      ⟨entry.1, entry.2.name, entry.2.description, entry.2.mimeType⟩)

/-- `HashMap::insert`, on a list of bindings. -/
def bind (name value : String) (bindings : List (String × String)) : List (String × String) :=
  (name, value) :: bindings.filter fun binding => binding.1 != name

/-- `str::find` of a text: what comes before it and after it. -/
def splitAtText (text : List Char) : List Char → Option (List Char × List Char)
  | [] => if text = [] then some ([], []) else none
  | c :: cs =>
      match stripPrefix text (c :: cs) with
      | some rest => some ([], rest)
      | none => (splitAtText text cs).map fun (before, after) => (c :: before, after)

/-- The loop of `match_uri_template`; `fuel` bounds the placeholders that are left. -/
def matchFrom : Nat → List Char → List Char → List (String × String) →
    Option (List (String × String))
  | 0, _, _, _ => none
  | fuel + 1, t, u, bindings =>
      if t = [] then if u = [] then some bindings else none
      else
        match splitOnce '{' t with
        | none => if t = u then some bindings else none
        | some (literal, rest) => do
            let u ← stripPrefix literal u
            let (param, t) ← splitOnce '}' rest
            if param = [] then none
            else
              -- a literal after the last placeholder is not looked at
              let (value, u, t) ←
                match splitOnce '{' t with
                | none => some (u, [], [])
                | some (nextLiteral, after) =>
                    (splitAtText nextLiteral u).map fun (value, u) => (value, u, '{' :: after)
              if value.contains '/' || value.isEmpty then none
              else matchFrom fuel t u (bind (String.ofList param) (String.ofList value) bindings)

attribute [grind =] splitAtText matchFrom

/-- `match_uri_template`. -/
def matchUriTemplate (template uri : String) : Option (List (String × String)) :=
  matchFrom (template.toList.length + 1) template.toList uri.toList []

/-- Strings as a JSON object. -/
def bindingsJson (bindings : List (String × String)) : Json :=
  .object (bindings.map fun (name, value) => (name, .string value))

/-- `Source::render` with an optional loader. -/
def renderSource (rt : Runtime) (loader : Option ResourceLoader) (data : Json) (source : Source) :
    Except String String :=
  source.render rt.engine
    (loader.getD fun _ => .error "Resource path is not configured in config.yaml") rt.env data

/-- The first template that matches the URI and that the caller may see. -/
def findTemplate (s : Server) (headers : HeaderMap) (uri : String) :
    Option (ResourceRegistration × List (String × String)) :=
  s.resourceTemplates.entries.findSome? fun entry =>
    (matchUriTemplate entry.1 uri).bind fun bindings =>
      if headersSatisfy headers entry.2.headers then some (entry.2, bindings) else none

/-- `handle_resources_read` on the templates. -/
def readTemplate (rt : Runtime) (s : Server) (headers : HeaderMap) (uri : String) :
    Except Failure Result :=
  match findTemplate s headers uri with
  | none => fail (-32602) (.unknownResourceUri uri)
  | some (reg, bindings) =>
      match reg.body with
      | .concrete _ => fail (-32603) .templateBodyIsConcrete
      | .template source =>
          match renderSource rt reg.resourceLoader (bindingsJson bindings) source with
          | .error source => fail (-32603) (.resourceTemplateRender source)
          | .ok text => .ok (.contents uri reg.mimeType text)

/-- `handle_resources_read`: a concrete resource comes before every template. -/
def readResource (rt : Runtime) (s : Server) (headers : HeaderMap) (uri : String) :
    Except Failure Result :=
  match s.resources.lookup uri with
  | none => readTemplate rt s headers uri
  | some reg =>
      if headersSatisfy headers reg.headers then
        match reg.body with
        | .concrete content => .ok (.contents reg.uri reg.mimeType content)
        | .template _ => fail (-32603) .concreteBodyIsTemplate
      else fail (-32602) (.unknownResourceUri uri)

def handleResourcesRead (rt : Runtime) (s : Server) (headers : HeaderMap) (params : Json) :
    Except Failure Result := do
  requireAuth s headers
  let uri ← readParams rt.readResourceRead params
  readResource rt s headers uri

/-! ## Prompts -/

def handlePromptsList (s : Server) (headers : HeaderMap) : Except Failure Result := do
  requireAuth s headers
  return .prompts ((visible headers PromptRegistration.headers s.prompts).map fun entry =>
    ⟨entry.2.name, entry.2.description,
      entry.2.arguments.map fun a => ⟨a.name, a.description, a.required⟩⟩)

/-- The declared arguments of a prompt, with their defaults. -/
def promptContext (given : List (String × String)) :
    List PromptArgument → List (String × String) → Except Failure (List (String × String))
  | [], context => .ok context
  | arg :: args, context =>
      match given.lookup arg.name with
      | some value => promptContext given args (bind arg.name value context)
      | none =>
          if arg.required then fail (-32602) (.missingPromptArgument arg.name)
          else promptContext given args (bind arg.name (arg.default.getD "") context)

/-- Arguments that the prompt does not declare are passed through. -/
def withUndeclared (given context : List (String × String)) : List (String × String) :=
  context ++ given.filter fun binding => (context.lookup binding.1).isNone

def PromptRole.asStr : PromptRole → String
  | .user => "user"
  | .assistant => "assistant"

def renderMessage (rt : Runtime) (loader : Option ResourceLoader) (data : Json)
    (message : PromptMessage) : Except Failure PromptMessageWire :=
  match renderSource rt loader data message.content with
  | .ok text => .ok ⟨message.role.asStr, text⟩
  | .error source => fail (-32603) (.promptMessageRender source)

/-- What follows the check of the headers in `handle_prompts_get`. -/
def renderPrompt (rt : Runtime) (params : PromptsGetParams) (reg : PromptRegistration) :
    Except Failure Result := do
  let context ← promptContext params.arguments reg.arguments []
  let data := Json.object [("arguments", bindingsJson (withUndeclared params.arguments context))]
  let messages ← reg.messages.mapM (renderMessage rt reg.resourceLoader data)
  return .prompt reg.description messages

/-- `handle_prompts_get`. -/
def getPrompt (rt : Runtime) (s : Server) (headers : HeaderMap) (params : PromptsGetParams) :
    Except Failure Result :=
  match s.prompts.lookup params.name with
  | none => fail (-32602) (.unknownPrompt params.name)
  | some reg =>
      if headersSatisfy headers reg.headers then renderPrompt rt params reg
      else fail (-32602) (.unknownPrompt params.name)

def handlePromptsGet (rt : Runtime) (s : Server) (headers : HeaderMap) (params : Json) :
    Except Failure Result := do
  requireAuth s headers
  let params ← readParams rt.readPromptsGet params
  getPrompt rt s headers params

/-! ## Completion -/

/-- `COMPLETION_MAX_VALUES`. -/
def completionMaxValues : Nat := 100

/-- The completion values of the argument that the reference names.  The headers
are not looked at. -/
def candidates (s : Server) (params : CompleteParams) : List String :=
  match params.reference with
  | .prompt name =>
      (((s.prompts.lookup name).bind fun reg =>
        reg.arguments.find? fun a => a.name == params.argumentName).bind
          (·.completionValues)).getD []
  | .resource uri =>
      (((s.resourceTemplates.lookup uri).bind fun reg =>
        reg.parameters.find? fun p => p.name == params.argumentName).bind
          (·.completionValues)).getD []

/-- The value starts with what was typed, whatever the case. -/
def completes (rt : Runtime) (params : CompleteParams) (value : String) : Bool :=
  let needle := rt.toLowercase params.argumentValue
  needle.isEmpty || needle.toList.isPrefixOf (rt.toLowercase value).toList

/-- At most `completionMaxValues` of the values that complete the argument. -/
def completion (rt : Runtime) (s : Server) (params : CompleteParams) : Result :=
  let filtered := (candidates s params).filter (completes rt params)
  let hasMore := filtered.length > completionMaxValues
  .completion (if hasMore then filtered.take completionMaxValues else filtered) filtered.length
    hasMore

def handleCompletionComplete (rt : Runtime) (s : Server) (headers : HeaderMap) (params : Json) :
    Except Failure Result := do
  requireAuth s headers
  let params ← readParams rt.readComplete params
  return completion rt s params

/-! ## The endpoint -/

def respond (id : Option Json) : Except Failure Result → Response
  | .ok result => .result id result
  | .error failure => .error id failure

/-- The handler of a method, if it has one. -/
def dispatch (rt : Runtime) (s : Server) (headers : HeaderMap) (request : JsonRpcRequest) :
    Response :=
  match request.method with
  | "initialize" => .result request.id .initializeResult
  | "tools/list" => respond request.id (handleToolsList s headers)
  | "tools/call" => respond request.id (handleToolsCall rt s headers request.params)
  | "resources/list" => respond request.id (handleResourcesList s headers)
  | "resources/templates/list" => respond request.id (handleResourceTemplatesList s headers)
  | "resources/read" => respond request.id (handleResourcesRead rt s headers request.params)
  | "prompts/list" => respond request.id (handlePromptsList s headers)
  | "prompts/get" => respond request.id (handlePromptsGet rt s headers request.params)
  | "completion/complete" =>
      respond request.id (handleCompletionComplete rt s headers request.params)
  | "notifications/initialized" => .accepted
  | method => .error request.id (-32601, (Error.methodNotFound method).message)

/-- `handle_mcp`. -/
def handleMcp (rt : Runtime) (s : Server) (headers : HeaderMap) (request : JsonRpcRequest) :
    Response :=
  match request.jsonrpc with
  | some version =>
      if version = "2.0" then dispatch rt s headers request
      else .error request.id (-32600, (Error.unsupportedJsonRpcVersion version).message)
  | none => dispatch rt s headers request

end Flowgen.Mcp
