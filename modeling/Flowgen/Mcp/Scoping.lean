/-
# `Flowgen.Mcp.Scoping` — registrations a caller is not meant to see

A registration whose headers a request does not present is hidden from it.
`hidden_iff_concealed` compares the response with that of the server without
the registration, for every method.  The lists, `prompts/get` and the search
among the templates pass over what is hidden.  Three handlers do not: the
credentials of a hidden tool decide whether the call is refused as
unauthorized or as unknown, a hidden resource stands before the templates that
match its URI, and completion does not look at the headers at all.
-/
import Flowgen.Lib.Fallible
import Flowgen.Mcp.Server

namespace Flowgen.Mcp

open Flowgen.Lib

/-! ## Hidden registrations -/

/-- The table and the key of a registration. -/
inductive Place
  | tool (name : String)
  | resource (uri : String)
  | resourceTemplate (pattern : String)
  | prompt (name : String)

/-- The headers that the registration requires, if there is one. -/
def Server.required (s : Server) : Place → Option (List (String × String))
  | .tool name => (s.table.lookup name).map (·.headers)
  | .resource uri => (s.resources.lookup uri).map (·.headers)
  | .resourceTemplate pattern => (s.resourceTemplates.lookup pattern).map (·.headers)
  | .prompt name => (s.prompts.lookup name).map (·.headers)

/-- The server without the registration. -/
def Server.remove (s : Server) : Place → Server
  | .tool name => { s with table := s.table.erase name }
  | .resource uri => { s with resources := s.resources.erase uri }
  | .resourceTemplate pattern =>
      { s with resourceTemplates := s.resourceTemplates.erase pattern }
  | .prompt name => { s with prompts := s.prompts.erase name }

/-- There is a registration, and the request does not present its headers. -/
def Hidden (s : Server) (headers : HeaderMap) (place : Place) : Prop :=
  ∃ required, s.required place = some required ∧ headersSatisfy headers required = false

/-- The request is for a method, in a version that the server speaks. -/
def JsonRpcRequest.calls (request : JsonRpcRequest) (method : String) : Prop :=
  (∀ version, request.jsonrpc = some version → version = "2.0") ∧ request.method = method

/-- The API key of the request, or the lack of one, is accepted. -/
def Authorized (s : Server) (headers : HeaderMap) (toolName : Option String) : Prop :=
  ∃ apiKey, validateAuth s headers toolName = .ok apiKey

/-- The completion values of a hidden registration have no part in the answer. -/
def NothingOffered (rt : Runtime) (s : Server) (headers : HeaderMap) (request : JsonRpcRequest)
    (reference : CompletionRef) : Prop :=
  request.calls "completion/complete" → Authorized s headers none →
    ∀ params, rt.readComplete request.params = .ok params → params.reference = reference →
      ∀ value ∈ candidates s params, completes rt params value = false

/-- The request does not meet the registration: it does not call the tool, or
the tool's credentials accept it exactly if the server's own do; it does not
read the resource, or no template for the URI is open to the caller; and it
completes no argument of the template or the prompt that has a value for it. -/
def Concealed (rt : Runtime) (s : Server) (headers : HeaderMap) (request : JsonRpcRequest) :
    Place → Prop
  | .tool name =>
      request.calls "tools/call" →
        ∀ params, rt.readToolCall request.params = .ok params → params.name = name →
          (Authorized s headers (some name) ↔ Authorized s headers none)
  | .resource uri =>
      request.calls "resources/read" → Authorized s headers none →
        rt.readResourceRead request.params = .ok uri →
          ∀ entry ∈ s.resourceTemplates.entries, (matchUriTemplate entry.1 uri).isSome →
            headersSatisfy headers entry.2.headers = false
  | .resourceTemplate pattern => NothingOffered rt s headers request (.resource pattern)
  | .prompt name => NothingOffered rt s headers request (.prompt name)

variable {rt : Runtime} {s s' : Server} {headers : HeaderMap} {request : JsonRpcRequest}

/-- A hidden entry of one of the tables. -/
theorem hidden_entry {R : Type} {required : R → List (String × String)} {table : Table String R}
    {key : String} (h : ∃ hs, (table.lookup key).map required = some hs ∧
      headersSatisfy headers hs = false) :
    ∃ reg, table.lookup key = some reg ∧ headersSatisfy headers (required reg) = false := by
  obtain ⟨hs, hrequired, hno⟩ := h
  obtain ⟨reg, hreg, rfl⟩ := Option.map_eq_some_iff.mp hrequired
  exact ⟨reg, hreg, hno⟩

/-! ## What passes over a hidden registration -/

theorem visible_erase {R : Type} {required : R → List (String × String)} {table : Table String R}
    {key : String} (h : ∃ hs, (table.lookup key).map required = some hs ∧
      headersSatisfy headers hs = false) :
    visible headers required (table.erase key) = visible headers required table := by
  obtain ⟨reg, hreg, hno⟩ := hidden_entry h
  exact Table.filter_erase hreg hno

theorem handleToolsList_remove {name : String} (h : Hidden s headers (.tool name)) :
    handleToolsList (s.remove (.tool name)) headers = handleToolsList s headers := by
  have hvisible : visible headers ToolRegistration.headers (s.remove (.tool name)).table =
      visible headers ToolRegistration.headers s.table := visible_erase h
  rw [handleToolsList, handleToolsList, hvisible]
  rfl

theorem handleResourcesList_remove {uri : String} (h : Hidden s headers (.resource uri)) :
    handleResourcesList (s.remove (.resource uri)) headers = handleResourcesList s headers := by
  have hvisible : visible headers ResourceRegistration.headers
      (s.remove (.resource uri)).resources =
        visible headers ResourceRegistration.headers s.resources := visible_erase h
  rw [handleResourcesList, handleResourcesList, hvisible]
  rfl

theorem handleResourceTemplatesList_remove {pattern : String}
    (h : Hidden s headers (.resourceTemplate pattern)) :
    handleResourceTemplatesList (s.remove (.resourceTemplate pattern)) headers =
      handleResourceTemplatesList s headers := by
  have hvisible : visible headers ResourceRegistration.headers
      (s.remove (.resourceTemplate pattern)).resourceTemplates =
        visible headers ResourceRegistration.headers s.resourceTemplates := visible_erase h
  rw [handleResourceTemplatesList, handleResourceTemplatesList, hvisible]
  rfl

theorem handlePromptsList_remove {name : String} (h : Hidden s headers (.prompt name)) :
    handlePromptsList (s.remove (.prompt name)) headers = handlePromptsList s headers := by
  have hvisible : visible headers PromptRegistration.headers (s.remove (.prompt name)).prompts =
      visible headers PromptRegistration.headers s.prompts := visible_erase h
  rw [handlePromptsList, handlePromptsList, hvisible]
  rfl

/-- A hidden prompt is as unknown as a missing one. -/
theorem getPrompt_remove {name : String} (params : PromptsGetParams)
    (h : Hidden s headers (.prompt name)) :
    getPrompt rt (s.remove (.prompt name)) headers params = getPrompt rt s headers params := by
  obtain ⟨reg, hreg, hno⟩ := hidden_entry h
  rw [getPrompt, getPrompt]
  by_cases hname : params.name = name
  · have herased : (s.remove (.prompt name)).prompts.lookup params.name = none := by
      rw [hname]
      exact AList.lookup_erase name s.prompts
    rw [herased, hname, hreg]
    simp [hno]
  · have hkept : (s.remove (.prompt name)).prompts.lookup params.name =
        s.prompts.lookup params.name := AList.lookup_erase_ne hname
    rw [hkept]

/-- A hidden template is passed over by the search. -/
theorem readTemplate_remove {pattern : String} (uri : String)
    (h : Hidden s headers (.resourceTemplate pattern)) :
    readTemplate rt (s.remove (.resourceTemplate pattern)) headers uri =
      readTemplate rt s headers uri := by
  obtain ⟨reg, hreg, hno⟩ := hidden_entry h
  have hfind : findTemplate (s.remove (.resourceTemplate pattern)) headers uri =
      findTemplate s headers uri := by
    refine Table.findSome?_erase hreg ?_
    cases matchUriTemplate pattern uri with
    | none => rfl
    | some bindings => simp [hno]
  rw [readTemplate, readTemplate, hfind]

theorem readResource_remove_template {pattern : String} (uri : String)
    (h : Hidden s headers (.resourceTemplate pattern)) :
    readResource rt (s.remove (.resourceTemplate pattern)) headers uri =
      readResource rt s headers uri := by
  rw [readResource, readResource, readTemplate_remove uri h]
  rfl

/-! ## What does not -/

/-- A call meets the credentials of a hidden tool. -/
theorem executeToolCall_remove_iff {name : String} (params : ToolCallParams)
    (h : Hidden s headers (.tool name)) :
    executeToolCall (s.remove (.tool name)) headers params = executeToolCall s headers params ↔
      (params.name = name → (Authorized s headers (some name) ↔ Authorized s headers none)) := by
  obtain ⟨reg, hreg, hno⟩ := hidden_entry h
  rw [executeToolCall, executeToolCall]
  by_cases hname : params.name = name
  · have herased : (s.remove (.tool name)).table.lookup name = none :=
      AList.lookup_erase name s.table
    have hauth : validateAuth (s.remove (.tool name)) headers (some name) =
        validateAuth s headers none := by
      rw [validateAuth, validateAuth, Option.bind_some, herased]
      rfl
    rw [hname, hauth, herased, hreg, Authorized, Authorized]
    cases validateAuth s headers (some name) with
    | ok apiKey =>
        cases validateAuth s headers none with
        | ok apiKey' => simp [hno]
        | error e => simp [hno, fail]
    | error e =>
        cases validateAuth s headers none with
        | ok apiKey' => simp [fail]
        | error e' => simp
  · have hkept : (s.remove (.tool name)).table.lookup params.name = s.table.lookup params.name :=
      AList.lookup_erase_ne hname
    have hauth : validateAuth (s.remove (.tool name)) headers (some params.name) =
        validateAuth s headers (some params.name) := by
      rw [validateAuth, validateAuth, Option.bind_some, Option.bind_some, hkept]
      rfl
    have hinvoke : ∀ entry apiKey, invokeTool (s.remove (.tool name)) headers params entry apiKey =
        invokeTool s headers params entry apiKey := fun _ _ => rfl
    rw [hauth, hkept]
    simp only [hinvoke, true_iff]
    exact fun heq => absurd heq hname

theorem findTemplate_eq_none {uri : String} :
    findTemplate s headers uri = none ↔
      ∀ entry ∈ s.resourceTemplates.entries, (matchUriTemplate entry.1 uri).isSome →
        headersSatisfy headers entry.2.headers = false := by
  rw [findTemplate, List.findSome?_eq_none_iff]
  refine forall₂_congr fun entry _ => ?_
  cases matchUriTemplate entry.1 uri with
  | none => simp
  | some bindings => simp

/-- Only a URI without an open template is unknown. -/
theorem readTemplate_eq_unknown {uri : String} :
    readTemplate rt s headers uri = fail (-32602) (.unknownResourceUri uri) ↔
      findTemplate s headers uri = none := by
  rw [readTemplate]
  cases findTemplate s headers uri with
  | none => simp
  | some found =>
      obtain ⟨reg, bindings⟩ := found
      cases hbody : reg.body with
      | concrete content => simp [hbody, fail]
      | template source =>
          cases hrender : renderSource rt reg.resourceLoader (bindingsJson bindings) source with
          | ok text => simp [hbody, hrender, fail]
          | error e => simp [hbody, hrender, fail]

/-- A hidden resource stands before the templates. -/
theorem readResource_remove_iff {uri : String} (uri' : String)
    (h : Hidden s headers (.resource uri)) :
    readResource rt (s.remove (.resource uri)) headers uri' = readResource rt s headers uri' ↔
      (uri' = uri → findTemplate s headers uri = none) := by
  obtain ⟨reg, hreg, hno⟩ := hidden_entry h
  rw [readResource, readResource]
  by_cases huri : uri' = uri
  · have herased : (s.remove (.resource uri)).resources.lookup uri = none :=
      AList.lookup_erase uri s.resources
    rw [huri, herased, hreg]
    show readTemplate rt s headers uri =
      (if headersSatisfy headers reg.headers = true then _ else _) ↔ _
    rw [hno, if_neg Bool.false_ne_true, readTemplate_eq_unknown]
    exact ⟨fun h _ => h, fun h => h rfl⟩
  · have hkept : (s.remove (.resource uri)).resources.lookup uri' = s.resources.lookup uri' :=
      AList.lookup_erase_ne huri
    rw [hkept]
    exact iff_of_true rfl (fun heq => absurd heq huri)

/-- Two servers complete an argument alike. -/
theorem completion_congr {params : CompleteParams} (h : candidates s' params = candidates s params) :
    completion rt s' params = completion rt s params := by
  rw [completion, completion, h]

/-- Without candidates there is nothing to complete with. -/
theorem completion_eq_iff {params : CompleteParams} (h : candidates s' params = []) :
    completion rt s' params = completion rt s params ↔
      ∀ value ∈ candidates s params, completes rt params value = false := by
  have hfilter : (candidates s params).filter (completes rt params) = [] ↔
      ∀ value ∈ candidates s params, completes rt params value = false := by
    simp [List.filter_eq_nil_iff]
  rw [completion, completion, h, ← hfilter]
  constructor
  · intro heq
    injection heq with _ hlength _
    exact List.length_eq_zero_iff.mp hlength.symm
  · intro hnil
    rw [hnil]
    rfl

/-- Completion looks at the registration that is named, hidden or not. -/
theorem completion_iff {params : CompleteParams} {reference : CompletionRef}
    (hself : params.reference = reference → candidates s' params = [])
    (helse : params.reference ≠ reference → candidates s' params = candidates s params) :
    completion rt s' params = completion rt s params ↔
      (params.reference = reference →
        ∀ value ∈ candidates s params, completes rt params value = false) := by
  by_cases href : params.reference = reference
  · rw [completion_eq_iff (hself href)]
    exact ⟨fun h _ => h, fun h => h href⟩
  · exact iff_of_true (completion_congr (helse href)) fun heq => absurd heq href

theorem completion_template_iff {pattern : String} (params : CompleteParams) :
    completion rt (s.remove (.resourceTemplate pattern)) params = completion rt s params ↔
      (params.reference = .resource pattern →
        ∀ value ∈ candidates s params, completes rt params value = false) := by
  refine completion_iff ?_ ?_
  · intro href
    have herased : (s.remove (.resourceTemplate pattern)).resourceTemplates.lookup pattern =
        none := AList.lookup_erase pattern s.resourceTemplates
    rw [candidates, href]
    simp [herased]
  · intro href
    rw [candidates, candidates]
    cases href' : params.reference with
    | prompt name => rfl
    | resource uri =>
        have hkept : (s.remove (.resourceTemplate pattern)).resourceTemplates.lookup uri =
            s.resourceTemplates.lookup uri := by
          refine AList.lookup_erase_ne ?_
          rintro rfl
          exact href href'
        simp [hkept]

theorem completion_prompt_iff {name : String} (params : CompleteParams) :
    completion rt (s.remove (.prompt name)) params = completion rt s params ↔
      (params.reference = .prompt name →
        ∀ value ∈ candidates s params, completes rt params value = false) := by
  refine completion_iff ?_ ?_
  · intro href
    have herased : (s.remove (.prompt name)).prompts.lookup name = none :=
      AList.lookup_erase name s.prompts
    rw [candidates, href]
    simp [herased]
  · intro href
    rw [candidates, candidates]
    cases href' : params.reference with
    | resource uri => rfl
    | prompt name' =>
        have hkept : (s.remove (.prompt name)).prompts.lookup name' = s.prompts.lookup name' := by
          refine AList.lookup_erase_ne ?_
          rintro rfl
          exact href href'
        simp [hkept]

/-! ## The handlers -/

theorem requireAuth_eq_ok {u : Unit} :
    requireAuth s headers = .ok u ↔ Authorized s headers none := by
  rw [requireAuth, Authorized]
  cases validateAuth s headers none with
  | ok apiKey => simp
  | error e => simp

theorem readParams_eq_ok {α : Type} {read : Json → Except String α} {params : Json} {p : α} :
    readParams read params = .ok p ↔ read params = .ok p := by
  rw [readParams]
  cases read params with
  | ok p' => simp
  | error e => simp [fail]

theorem handleToolsCall_eq_iff (params : Json) :
    handleToolsCall rt s' headers params = handleToolsCall rt s headers params ↔
      ∀ p, rt.readToolCall params = .ok p →
        executeToolCall s' headers p = executeToolCall s headers p := by
  rw [handleToolsCall, handleToolsCall, bind_eq_bind_iff]
  simp only [readParams_eq_ok]

theorem handleResourcesRead_eq_iff (s s' : Server) (params : Json)
    (hauth : requireAuth s' headers = requireAuth s headers) :
    handleResourcesRead rt s' headers params = handleResourcesRead rt s headers params ↔
      (Authorized s headers none → ∀ uri, rt.readResourceRead params = .ok uri →
        readResource rt s' headers uri = readResource rt s headers uri) := by
  rw [handleResourcesRead, handleResourcesRead, hauth, bind_eq_bind_iff]
  simp only [requireAuth_eq_ok, bind_eq_bind_iff, readParams_eq_ok, forall_const]

theorem handlePromptsGet_congr (params : Json)
    (hauth : requireAuth s' headers = requireAuth s headers)
    (h : ∀ p, getPrompt rt s' headers p = getPrompt rt s headers p) :
    handlePromptsGet rt s' headers params = handlePromptsGet rt s headers params := by
  rw [handlePromptsGet, handlePromptsGet, hauth]
  simp only [h]

theorem handleCompletionComplete_eq_iff (s s' : Server) (params : Json)
    (hauth : requireAuth s' headers = requireAuth s headers) :
    handleCompletionComplete rt s' headers params =
        handleCompletionComplete rt s headers params ↔
      (Authorized s headers none → ∀ p, rt.readComplete params = .ok p →
        completion rt s' p = completion rt s p) := by
  have hpure : ∀ r r' : Result, (pure r : Except Failure Result) = pure r' ↔ r = r' := by
    intro r r'
    exact Except.ok.injEq r r' ▸ Iff.rfl
  rw [handleCompletionComplete, handleCompletionComplete, hauth, bind_eq_bind_iff]
  simp only [requireAuth_eq_ok, bind_eq_bind_iff, readParams_eq_ok, forall_const, hpure]

theorem respond_inj {id : Option Json} {x y : Except Failure Result} :
    respond id x = respond id y ↔ x = y := by
  constructor
  · intro h
    cases x <;> cases y <;> cases h <;> rfl
  · intro h
    rw [h]

/-- Two servers that list alike, and know the same prompts, answer a request
alike if and only if the handlers of the other three methods do. -/
theorem dispatch_eq_iff (s s' : Server)
    (htools : handleToolsList s' headers = handleToolsList s headers)
    (hresources : handleResourcesList s' headers = handleResourcesList s headers)
    (htemplates : handleResourceTemplatesList s' headers = handleResourceTemplatesList s headers)
    (hprompts : handlePromptsList s' headers = handlePromptsList s headers)
    (hget : ∀ params, handlePromptsGet rt s' headers params = handlePromptsGet rt s headers params) :
    handleMcp rt s' headers request = handleMcp rt s headers request ↔
      (request.calls "tools/call" → handleToolsCall rt s' headers request.params =
          handleToolsCall rt s headers request.params) ∧
        (request.calls "resources/read" → handleResourcesRead rt s' headers request.params =
          handleResourcesRead rt s headers request.params) ∧
        (request.calls "completion/complete" →
          handleCompletionComplete rt s' headers request.params =
            handleCompletionComplete rt s headers request.params) := by
  by_cases hversion : ∀ version, request.jsonrpc = some version → version = "2.0"
  · have hcalls : ∀ method, request.calls method ↔ request.method = method := fun method =>
      and_iff_right hversion
    have hdispatch : ∀ s, handleMcp rt s headers request = dispatch rt s headers request := by
      intro s
      rw [handleMcp]
      split
      · rename_i version hsome
        rw [if_pos (hversion version hsome)]
      · rfl
    rw [hdispatch, hdispatch, hcalls, hcalls, hcalls, dispatch, dispatch]
    split
    case h_11 =>
      exact iff_of_true rfl ⟨fun h => absurd h (by assumption), fun h => absurd h (by assumption),
        fun h => absurd h (by assumption)⟩
    all_goals
      rename_i hmethod
      simp [hmethod, htools, hresources, htemplates, hprompts, hget, respond_inj]
  · obtain ⟨version, hsome, hne⟩ : ∃ version, request.jsonrpc = some version ∧ version ≠ "2.0" := by
      simpa using hversion
    have hrefused : ∀ s, handleMcp rt s headers request =
        .error request.id (-32600, (Error.unsupportedJsonRpcVersion version).message) := by
      intro s
      rw [handleMcp, hsome]
      exact if_neg hne
    rw [hrefused, hrefused]
    exact iff_of_true rfl ⟨fun h => absurd h.1 hversion, fun h => absurd h.1 hversion,
      fun h => absurd h.1 hversion⟩

/-- A registration that a request does not present the headers of is hidden from
it, if and only if the request does not meet the registration. -/
theorem hidden_iff_concealed (rt : Runtime) (s : Server) (headers : HeaderMap)
    (request : JsonRpcRequest) (place : Place) (h : Hidden s headers place) :
    handleMcp rt (s.remove place) headers request = handleMcp rt s headers request ↔
      Concealed rt s headers request place := by
  cases place with
  | tool name =>
      rw [dispatch_eq_iff s (s.remove (.tool name)) (handleToolsList_remove h) rfl rfl rfl
        fun _ => rfl]
      have hread : handleResourcesRead rt (s.remove (.tool name)) headers request.params =
          handleResourcesRead rt s headers request.params := rfl
      have hcomplete : handleCompletionComplete rt (s.remove (.tool name)) headers request.params =
          handleCompletionComplete rt s headers request.params := rfl
      simp only [hread, hcomplete, implies_true, and_true, handleToolsCall_eq_iff,
        executeToolCall_remove_iff _ h]
      rfl
  | resource uri =>
      rw [dispatch_eq_iff s (s.remove (.resource uri)) rfl (handleResourcesList_remove h) rfl rfl
        fun _ => rfl]
      have hcall : handleToolsCall rt (s.remove (.resource uri)) headers request.params =
          handleToolsCall rt s headers request.params := rfl
      have hcomplete : handleCompletionComplete rt (s.remove (.resource uri)) headers
          request.params = handleCompletionComplete rt s headers request.params := rfl
      simp only [hcall, hcomplete, implies_true, true_and, and_true]
      rw [handleResourcesRead_eq_iff s (s.remove (.resource uri)) request.params rfl]
      simp only [readResource_remove_iff _ h, findTemplate_eq_none]
      exact ⟨fun hc hm ha hr => hc hm ha uri hr rfl, fun hc hm ha u hr hu => hc hm ha (hu ▸ hr)⟩
  | resourceTemplate pattern =>
      rw [dispatch_eq_iff s (s.remove (.resourceTemplate pattern)) rfl rfl
        (handleResourceTemplatesList_remove h) rfl fun _ => rfl]
      have hcall : handleToolsCall rt (s.remove (.resourceTemplate pattern)) headers
          request.params = handleToolsCall rt s headers request.params := rfl
      have hread : handleResourcesRead rt (s.remove (.resourceTemplate pattern)) headers
          request.params = handleResourcesRead rt s headers request.params := by
        rw [handleResourcesRead_eq_iff s (s.remove (.resourceTemplate pattern)) request.params rfl]
        intro _ uri _
        exact readResource_remove_template uri h
      simp only [hcall, hread, implies_true, true_and]
      rw [handleCompletionComplete_eq_iff s (s.remove (.resourceTemplate pattern)) request.params rfl]
      refine forall₂_congr fun _ _ => forall₂_congr fun p _ => ?_
      exact completion_template_iff p
  | prompt name =>
      rw [dispatch_eq_iff s (s.remove (.prompt name)) rfl rfl rfl (handlePromptsList_remove h)
        fun params => handlePromptsGet_congr params rfl fun p => getPrompt_remove p h]
      have hcall : handleToolsCall rt (s.remove (.prompt name)) headers request.params =
          handleToolsCall rt s headers request.params := rfl
      have hread : handleResourcesRead rt (s.remove (.prompt name)) headers request.params =
          handleResourcesRead rt s headers request.params := rfl
      simp only [hcall, hread, implies_true, true_and]
      rw [handleCompletionComplete_eq_iff s (s.remove (.prompt name)) request.params rfl]
      refine forall₂_congr fun _ _ => forall₂_congr fun p _ => ?_
      exact completion_prompt_iff p

/-! ## A prompt for one team -/

/-- The parameters of a completion, as `serde_json` reads them. -/
def readComplete (v : Json) : Except String CompleteParams :=
  let params : Option CompleteParams := do
    let ref ← v.get? "ref"
    let argument ← v.get? "argument"
    let reference ←
      match ← (← ref.get? "type").asStr with
      | "ref/prompt" => some (CompletionRef.prompt (← (← ref.get? "name").asStr))
      | "ref/resource" => some (CompletionRef.resource (← (← ref.get? "uri").asStr))
      | _ => none
    return ⟨reference, ← (← argument.get? "name").asStr,
      ((argument.get? "value").bind Json.asStr).getD ""⟩
  match params with
  | some params => .ok params
  | none => .error "missing field"

def sampleRuntime : Runtime where
  readToolCall _ := .error "missing field"
  readResourceRead _ := .error "missing field"
  readPromptsGet _ := .error "missing field"
  readComplete := readComplete
  engine := { renderTemplate text _ := .ok text, parseJson _ := none, copies _ _ _ := rfl }
  env := []
  toLowercase s := String.ofList (s.toList.map Char.toLower)

/-- A server with one prompt, for the callers of the finance team. -/
def sampleServer : Server where
  table := ∅
  resources := ∅
  resourceTemplates := ∅
  prompts := AList.singleton "report"
    { flowName := "reports"
      name := "report"
      description := "Report of a quarter"
      arguments := [⟨"quarter", "", true, none, some ["2024-Q1", "2024-Q2"]⟩]
      messages := []
      resourceLoader := none
      headers := [("x-team", "finance")] }
  credentials := none
  authProvider := none

/-- A request to complete the prompt's argument. -/
def sampleRequest (typed : String) : JsonRpcRequest where
  jsonrpc := some "2.0"
  id := none
  method := "completion/complete"
  params := .object
    [("ref", .object [("type", .string "ref/prompt"), ("name", .string "report")]),
      ("argument", .object [("name", .string "quarter"), ("value", .string typed)])]

theorem sample_hidden : Hidden sampleServer (fun _ => none) (.prompt "report") :=
  ⟨[("x-team", "finance")], rfl, rfl⟩

theorem hidden_iff_concealed_sample :
    handleMcp sampleRuntime (sampleServer.remove (.prompt "report")) (fun _ => none)
        (sampleRequest "1999") =
      handleMcp sampleRuntime sampleServer (fun _ => none) (sampleRequest "1999") ↔
    Concealed sampleRuntime sampleServer (fun _ => none) (sampleRequest "1999")
      (.prompt "report") :=
  hidden_iff_concealed _ _ _ _ _ sample_hidden

/-- Completion shows the values of a prompt to a caller it is hidden from. -/
theorem completion_shows_hidden :
    ¬ ∀ (rt : Runtime) (s : Server) (headers : HeaderMap) (request : JsonRpcRequest)
      (place : Place), Hidden s headers place →
      handleMcp rt (s.remove place) headers request = handleMcp rt s headers request := by
  intro h
  have heq := h sampleRuntime sampleServer (fun _ => none) (sampleRequest "2024") _ sample_hidden
  have hwithout : handleMcp sampleRuntime (sampleServer.remove (.prompt "report"))
      (fun _ => none) (sampleRequest "2024") = .result none (.completion [] 0 false) := rfl
  have hwith : handleMcp sampleRuntime sampleServer (fun _ => none) (sampleRequest "2024") =
      .result none (.completion ["2024-Q1", "2024-Q2"] 2 false) := rfl
  rw [hwithout, hwith] at heq
  injection heq with _ heq
  injection heq with heq
  cases heq

end Flowgen.Mcp
