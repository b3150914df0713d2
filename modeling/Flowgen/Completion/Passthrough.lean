/-
# `Flowgen.Completion.Passthrough` — a conversation with tools on its way up
(`ai-agent/src/completion/passthrough.rs`)

With tools in play the messages of a request are handed to the provider one by
one.  An Anthropic request gets there through two translations: its blocks
become messages of OpenAI (`AiGateway.Translate`), and those become the history
of a provider request.  What the history holds is what was said
(`history_of_request`), unless an assistant said nothing at all, or nobody said
anything: then there is no request.
-/
import Flowgen.Lib.Fallible
import Flowgen.AiGateway.Translate

namespace Flowgen.Passthrough

open Flowgen.Lib Flowgen.AiGateway

/-! ## Provider requests -/

/-- A list that is not empty. -/
structure OneOrMany (α : Type) where
  items : List α
  nonempty : items ≠ []

/-- `OneOrMany::many`, which fails for an empty list. -/
def OneOrMany.many {α : Type} : List α → Option (OneOrMany α)
  | [] => none
  | item :: items => some ⟨item :: items, List.cons_ne_nil item items⟩

/-- A tool call of the provider, with its `ToolFunction` unfolded. -/
structure RigToolCall where
  id : String
  callId : Option String
  name : String
  arguments : Json

inductive AssistantContent
  | text (text : String)
  | toolCall (call : RigToolCall)

inductive UserContent
  | text (text : String)
  | toolResult (id : String) (callId : Option String) (text : String)

inductive RigMessage
  | user (content : OneOrMany UserContent)
  | assistant (content : OneOrMany AssistantContent)

structure RigToolDefinition where
  name : String
  description : String
  parameters : Json

inductive RigToolChoice
  | auto
  | none
  | required
  | specific (functionNames : List String)

structure CompletionRequest where
  model : Option String
  preamble : Option String
  chatHistory : OneOrMany RigMessage
  tools : List RigToolDefinition
  temperature : Option Float
  maxTokens : Option UInt64
  toolChoice : Option RigToolChoice

inductive Error
  | emptyHistory
  | unsupportedRole (role : String)
  | emptyAssistantMessage
  | missingToolCallId
  | missingToolContent
  | missingUserContent
  | invalidToolArguments
deriving DecidableEq

/-! ## The translation -/

/-- A message with one content. -/
def RigMessage.ofUser (content : UserContent) : RigMessage :=
  .user ⟨[content], List.cons_ne_nil content []⟩

section Build

-- `serde_json::from_str::<Value>`
variable (parse : String → Option Json)

def oaiToolCallToRig (call : ToolCall) : Except Error RigToolCall :=
  match parse call.arguments with
  | some arguments => .ok { id := call.id, callId := some call.id, name := call.name, arguments }
  | none => .error .invalidToolArguments

/-- The text of an assistant; an empty one is left out. -/
def assistantText (content : Option String) : List AssistantContent :=
  match content with
  | some text => if text = "" then [] else [.text text]
  | none => []

def oaiMessageToRig (msg : Message) : Except Error RigMessage :=
  match msg.role with
  | "assistant" => do
      let calls ← msg.toolCalls.mapM (oaiToolCallToRig parse)
      match OneOrMany.many (assistantText msg.content ++ calls.map .toolCall) with
      | some content => .ok (.assistant content)
      | none => .error .emptyAssistantMessage
  | "tool" =>
      match msg.toolCallId, msg.content with
      | none, _ => .error .missingToolCallId
      | some _, none => .error .missingToolContent
      | some id, some text => .ok (.ofUser (.toolResult id (some id) text))
  | "user" =>
      match msg.content with
      | some text => .ok (.ofUser (.text text))
      | none => .error .missingUserContent
  | other => .error (.unsupportedRole other)

def oaiToolToRig (t : ToolDefinition) : RigToolDefinition :=
  { name := t.name, description := t.description.getD "", parameters := t.parameters }

def parseToolChoice : Json → Option RigToolChoice
  | .string s =>
      match s with
      | "auto" => some .auto
      | "none" => some .none
      | "required" => some .required
      | _ => none
  | .object fields => do
      let function ← fields.lookup "function"
      let name ← (← function.get? "name").asStr
      some (.specific [name])
  | _ => none

/-- `build_request`.  Messages of the system are skipped; their text is the
`preamble`. -/
def buildRequest (model preamble : Option String) (messages : List Message)
    (tools : List ToolDefinition) (toolChoice : Option Json) (temperature : Option Float32)
    (maxTokens : Option UInt32) : Except Error CompletionRequest := do
  let history ← (messages.filter fun msg => !msg.isSystem).mapM (oaiMessageToRig parse)
  match OneOrMany.many history with
  | some chatHistory =>
      .ok
        { model, preamble, chatHistory
          tools := tools.map oaiToolToRig
          temperature := temperature.map Float32.toFloat
          maxTokens := maxTokens.map UInt32.toUInt64
          toolChoice := toolChoice.bind parseToolChoice }
  | none => .error .emptyHistory

end Build

/-! ## What was said, and what arrives -/

/-- A tool call with its arguments as a value. -/
structure Call where
  id : String
  name : String
  arguments : Json

structure Result where
  id : String
  text : String

def turnTexts : MessageContent → List String
  | .text text => [text]
  | .blocks blocks => blocks.filterMap ContentBlock.text?

def toolUse? : ContentBlock → Option Call
  | .toolUse id name input => some ⟨id, name, input⟩
  | _ => none

def toolResult? : ContentBlock → Option Result
  | .toolResult id content _ => some ⟨id, flattenToolResult content⟩
  | _ => none

/-- The blocks of a turn; a bare text has none. -/
def turnBlocks : MessageContent → List ContentBlock
  | .text _ => []
  | .blocks blocks => blocks

/-- The calls of a turn; a tool use of the user is not valid. -/
def turnCalls (input : InputMessage) : List Call :=
  if input.role = "assistant" then (turnBlocks input.content).filterMap toolUse? else []

/-- The results of a turn; a tool result of the assistant is not valid. -/
def turnResults (input : InputMessage) : List Result :=
  if input.role = "user" then (turnBlocks input.content).filterMap toolResult? else []

def AssistantContent.call? : AssistantContent → Option Call
  | .text _ => none
  | .toolCall call => some ⟨call.id, call.name, call.arguments⟩

def AssistantContent.text? : AssistantContent → Option String
  | .text content => some content
  | .toolCall _ => none

def UserContent.text? : UserContent → Option String
  | .text content => some content
  | .toolResult _ _ _ => none

def UserContent.result? : UserContent → Option Result
  | .text _ => none
  | .toolResult id _ content => some ⟨id, content⟩

namespace RigMessage

def texts : RigMessage → List String
  | user content => content.items.filterMap UserContent.text?
  | assistant content => content.items.filterMap AssistantContent.text?

def calls : RigMessage → List Call
  | user _ => []
  | assistant content => content.items.filterMap AssistantContent.call?

def results : RigMessage → List Result
  | user content => content.items.filterMap UserContent.result?
  | assistant _ => []

end RigMessage

/-- The items are the texts in their order, where neighbours may have been
joined by a line end and empty ones left out. -/
def Joined (texts items : List String) : Prop :=
  ∃ runs : List (List String), runs.flatten = texts ∧ [] ∉ runs ∧
    items.filter (· ≠ "") = (runs.map "\n".intercalate).filter (· ≠ "")

/-- The messages hold each text, each call and each result of the turn once,
and nothing else. -/
structure Carried (input : InputMessage) (group : List RigMessage) : Prop where
  texts : Joined (turnTexts input.content) (group.flatMap RigMessage.texts)
  calls : group.flatMap RigMessage.calls = turnCalls input
  results : group.flatMap RigMessage.results = turnResults input

/-- The assistant says or calls something in the turn. -/
def Speaks (input : InputMessage) : Prop :=
  "\n".intercalate (turnTexts input.content) ≠ "" ∨ turnCalls input ≠ []

/-- The turn becomes a message at all. -/
def Heard (input : InputMessage) : Prop :=
  input.role = "assistant" ∨ turnTexts input.content ≠ [] ∨ turnResults input ≠ []

theorem Joined.nil : Joined [] [] := ⟨[], rfl, List.not_mem_nil, rfl⟩

theorem Joined.append {texts texts' items items' : List String} (h : Joined texts items)
    (h' : Joined texts' items') : Joined (texts ++ texts') (items ++ items') := by
  obtain ⟨runs, hflat, hne, hitems⟩ := h
  obtain ⟨runs', hflat', hne', hitems'⟩ := h'
  refine ⟨runs ++ runs', ?_, ?_, ?_⟩
  · rw [List.flatten_append, hflat, hflat']
  · rw [List.mem_append, not_or]
    exact ⟨hne, hne'⟩
  · rw [List.filter_append, List.map_append, List.filter_append, hitems, hitems']

/-- A run that is not empty is one item. -/
theorem Joined.run {texts : List String} (h : texts ≠ []) :
    Joined texts ["\n".intercalate texts] := by
  refine ⟨[texts], by simp, ?_, rfl⟩
  rw [List.mem_singleton]
  exact Ne.symm h

/-- An empty text may be left out. -/
theorem Joined.of_empty {texts : List String} (h : "\n".intercalate texts = "") :
    Joined texts [] := by
  by_cases hnone : texts = []
  · rw [hnone]
    exact .nil
  · obtain ⟨runs, hflat, hne, hitems⟩ := Joined.run hnone
    refine ⟨runs, hflat, hne, hitems ▸ ?_⟩
    simp [h]

/-! ## Turns of the user -/

section User

variable {parse : String → Option Json}

/-- The message of a result. -/
def RigMessage.ofResult (id text : String) : RigMessage := .ofUser (.toolResult id (some id) text)

theorem rig_flushText (textBuf : List String) :
    List.Forall₂ (fun m h => oaiMessageToRig parse m = .ok h) (flushText textBuf).2
      ((flushText textBuf).1.map fun text => .ofUser (.text text)) := by
  unfold flushText
  split
  · exact .nil
  · exact .cons rfl .nil

theorem joined_flushText (textBuf : List String) : Joined textBuf (flushText textBuf).1 := by
  unfold flushText
  split
  · rename_i h
    rw [h]
    exact .nil
  · rename_i h
    exact .run h

/-- The texts of messages of the user. -/
theorem flatMap_ofUser (texts : List String) :
    (texts.map fun text => RigMessage.ofUser (.text text)).flatMap RigMessage.texts = texts ∧
      (texts.map fun text => RigMessage.ofUser (.text text)).flatMap RigMessage.calls = [] ∧
      (texts.map fun text => RigMessage.ofUser (.text text)).flatMap RigMessage.results = [] := by
  induction texts with
  | nil => exact ⟨rfl, rfl, rfl⟩
  | cons text texts ih =>
      obtain ⟨htexts, hcalls, hresults⟩ := ih
      simp only [List.map_cons, List.flatMap_cons, htexts, hcalls, hresults]
      exact ⟨rfl, rfl, rfl⟩

/-- The loop over the blocks of a user, where `textBuf` has been buffered. -/
theorem rig_userBlocks (textBuf : List String) (blocks : List ContentBlock) :
    ∃ group,
      List.Forall₂ (fun m h => oaiMessageToRig parse m = .ok h)
        (translateUserBlocks textBuf blocks).2 group ∧
      Joined (textBuf ++ blocks.filterMap ContentBlock.text?) (group.flatMap RigMessage.texts) ∧
      group.flatMap RigMessage.calls = [] ∧
      group.flatMap RigMessage.results = blocks.filterMap toolResult? ∧
      (group = [] ↔ textBuf ++ blocks.filterMap ContentBlock.text? = [] ∧
        blocks.filterMap toolResult? = []) := by
  induction blocks generalizing textBuf with
  | nil =>
      obtain ⟨htexts, hcalls, hresults⟩ := flatMap_ofUser (flushText textBuf).1
      refine ⟨_, rig_flushText textBuf, ?_, hcalls, hresults, ?_⟩
      · rw [htexts, List.filterMap_nil, List.append_nil]
        exact joined_flushText textBuf
      · simp only [List.map_eq_nil_iff, flushText, List.filterMap_nil, List.append_nil, and_true]
        split <;> simp_all
  | cons block blocks ih =>
      cases block with
      | text text =>
          obtain ⟨group, hgroup, htexts, hcalls, hresults, hnil⟩ := ih (textBuf ++ [text])
          rw [List.append_assoc] at htexts hnil
          exact ⟨group, hgroup, htexts, hcalls, hresults, hnil⟩
      | toolUse id name input => exact ih textBuf
      | toolResult id content isError =>
          obtain ⟨group, hgroup, htexts, hcalls, hresults, -⟩ := ih []
          obtain ⟨hflush, hflushCalls, hflushResults⟩ := flatMap_ofUser (flushText textBuf).1
          refine ⟨_ ++ RigMessage.ofResult id (flattenToolResult content) :: group,
            List.rel_append (rig_flushText textBuf) (.cons rfl hgroup), ?_, ?_, ?_,
            iff_of_false (by simp) (by simp [toolResult?])⟩
          · rw [List.flatMap_append, hflush]
            exact (joined_flushText textBuf).append htexts
          · rw [List.flatMap_append, hflushCalls]
            exact hcalls
          · rw [List.flatMap_append, hflushResults, List.flatMap_cons, hresults]
            rfl

/-- Every turn of a user is carried. -/
theorem rig_user {input : InputMessage} (hrole : input.role = "user") :
    ∃ group,
      List.Forall₂ (fun m h => oaiMessageToRig parse m = .ok h)
        (translateUserMessage input.content).2 group ∧
      Carried input group ∧ (group ≠ [] ↔ Heard input) := by
  have hcalls : turnCalls input = [] := if_neg (by simp [hrole])
  have hresults : turnResults input = (turnBlocks input.content).filterMap toolResult? :=
    if_pos hrole
  have hheard : Heard input ↔ turnTexts input.content ≠ [] ∨ turnResults input ≠ [] := by
    simp [Heard, hrole]
  rw [hheard]
  obtain ⟨role, content⟩ := input
  cases content with
  | text text =>
      refine ⟨[.ofUser (.text text)], .cons rfl .nil, ⟨?_, hcalls.symm, hresults.symm⟩, ?_⟩
      · have hrun := Joined.run (List.cons_ne_nil text [])
        rw [String.intercalate_singleton] at hrun
        exact hrun
      · simp [turnTexts]
  | blocks blocks =>
      obtain ⟨group, hgroup, htexts, hgroupCalls, hgroupResults, hnil⟩ :=
        @rig_userBlocks parse [] blocks
      refine ⟨group, hgroup, ⟨htexts, hgroupCalls.trans hcalls.symm, ?_⟩, ?_⟩
      · rw [hresults]
        exact hgroupResults
      · rw [hresults, ← not_and_or]
        exact not_congr hnil

end User

/-! ## Turns of the assistant -/

section Assistant

variable {parse : String → Option Json} {print : Json → String}

def Call.rig (c : Call) : RigToolCall :=
  { id := c.id, callId := some c.id, name := c.name, arguments := c.arguments }

/-- What the loop over the tool calls yields if their arguments are read back. -/
theorem rig_toolCalls {blocks : List ContentBlock}
    (hround : ∀ c ∈ blocks.filterMap toolUse?, parse (print c.arguments) = some c.arguments) :
    (blocks.filterMap (ContentBlock.toolCall? print)).mapM (oaiToolCallToRig parse) =
      .ok ((blocks.filterMap toolUse?).map Call.rig) := by
  rw [mapM_eq_ok_iff]
  induction blocks with
  | nil => exact .nil
  | cons block blocks ih =>
      cases block with
      | text text => exact ih hround
      | toolResult id content isError => exact ih hround
      | toolUse id name input =>
          have hinput := hround ⟨id, name, input⟩ List.mem_cons_self
          refine .cons ?_ (ih fun c hc => hround c (List.mem_cons_of_mem _ hc))
          simp only [oaiToolCallToRig, hinput]
          rfl

/-- The content of the provider message. -/
def assistantItems (content : MessageContent) : List AssistantContent :=
  (if "\n".intercalate (turnTexts content) = "" then []
    else [.text ("\n".intercalate (turnTexts content))]) ++
    ((turnBlocks content).filterMap toolUse?).map fun c => .toolCall c.rig

theorem texts_assistantItems (content : MessageContent) :
    (assistantItems content).filterMap AssistantContent.text? =
      if "\n".intercalate (turnTexts content) = "" then []
      else ["\n".intercalate (turnTexts content)] := by
  have hcalls : (((turnBlocks content).filterMap toolUse?).map fun c =>
      AssistantContent.toolCall c.rig).filterMap AssistantContent.text? = [] := by
    rw [List.filterMap_map]
    exact List.filterMap_eq_nil_iff.mpr fun _ _ => rfl
  rw [assistantItems, List.filterMap_append, hcalls, List.append_nil]
  split <;> rfl

theorem calls_assistantItems (content : MessageContent) :
    (assistantItems content).filterMap AssistantContent.call? =
      (turnBlocks content).filterMap toolUse? := by
  have hcalls : AssistantContent.call? ∘ (fun c : Call => .toolCall c.rig) = some := rfl
  rw [assistantItems, List.filterMap_append, List.filterMap_map, hcalls, List.filterMap_some]
  split <;> rfl

theorem rig_assistantMessage {content : MessageContent}
    (hround : ∀ c ∈ (turnBlocks content).filterMap toolUse?,
      parse (print c.arguments) = some c.arguments) :
    oaiMessageToRig parse (translateAssistantMessage print content) =
      match OneOrMany.many (assistantItems content) with
      | some items => .ok (.assistant items)
      | none => .error .emptyAssistantMessage := by
  cases content with
  | text text =>
      show (match OneOrMany.many (assistantText (some text) ++ []) with
        | some items => Except.ok (RigMessage.assistant items)
        | none => .error Error.emptyAssistantMessage) = _
      simp only [assistantText, assistantItems, turnTexts, turnBlocks, String.intercalate_singleton,
        List.filterMap_nil, List.map_nil]
  | blocks blocks =>
      have htext : assistantText (translateAssistantMessage print (.blocks blocks)).content =
          if "\n".intercalate (blocks.filterMap ContentBlock.text?) = "" then []
          else [.text ("\n".intercalate (blocks.filterMap ContentBlock.text?))] := by
        simp only [translateAssistantMessage]
        by_cases hnone : blocks.filterMap ContentBlock.text? = [] <;> simp [hnone, assistantText]
      show ((blocks.filterMap (ContentBlock.toolCall? print)).mapM (oaiToolCallToRig parse) >>=
        fun calls => match OneOrMany.many (assistantText _ ++ calls.map .toolCall) with
          | some items => Except.ok (RigMessage.assistant items)
          | none => .error Error.emptyAssistantMessage) = _
      have hcalls := rig_toolCalls (show ∀ c ∈ blocks.filterMap toolUse?, _ from hround)
      rw [hcalls, htext]
      show (match OneOrMany.many (_ ++ ((blocks.filterMap toolUse?).map Call.rig).map
            AssistantContent.toolCall) with
          | some items => Except.ok (RigMessage.assistant items)
          | none => .error Error.emptyAssistantMessage) = _
      rw [List.map_map]
      rfl

theorem OneOrMany.many_eq_some {α : Type} {items : List α} {l : OneOrMany α} :
    OneOrMany.many items = some l ↔ l.items = items := by
  cases items with
  | nil =>
      refine iff_of_false (fun h => by cases h) l.nonempty
  | cons item items =>
      constructor
      · intro h
        cases h
        rfl
      · intro h
        obtain ⟨items', hne⟩ := l
        cases h
        rfl

/-- A turn of the assistant is carried if it says anything. -/
theorem rig_assistant {input : InputMessage} (hrole : input.role = "assistant")
    (hround : ∀ c ∈ turnCalls input, parse (print c.arguments) = some c.arguments) :
    (∀ h, oaiMessageToRig parse (translateAssistantMessage print input.content) = .ok h →
      Carried input [h]) ∧
    ((∃ h, oaiMessageToRig parse (translateAssistantMessage print input.content) = .ok h) ↔
      Speaks input) := by
  have hcalls : turnCalls input = (turnBlocks input.content).filterMap toolUse? := if_pos hrole
  have hresults : turnResults input = [] := if_neg (by simp [hrole])
  rw [hcalls] at hround
  rw [rig_assistantMessage hround]
  constructor
  · intro h hok
    split at hok
    · rename_i items hitems
      cases hok
      have hlist := OneOrMany.many_eq_some.mp hitems
      refine ⟨?_, ?_, ?_⟩
      · show Joined _ (items.items.filterMap _ ++ [])
        rw [List.append_nil, hlist, texts_assistantItems]
        split
        · rename_i hempty
          exact .of_empty hempty
        · rename_i htext
          refine .run fun hnone => htext ?_
          rw [hnone, String.intercalate_nil]
      · show items.items.filterMap _ ++ [] = _
        rw [List.append_nil, hlist, calls_assistantItems, hcalls]
      · rw [hresults]
        rfl
    · cases hok
  · have hspeaks : Speaks input ↔ assistantItems input.content ≠ [] := by
      rw [Speaks, hcalls, assistantItems]
      by_cases htext : "\n".intercalate (turnTexts input.content) = "" <;> simp [htext]
    rw [hspeaks]
    constructor
    · rintro ⟨h, hok⟩ hnone
      rw [hnone] at hok
      cases hok
    · intro hne
      cases hitems : assistantItems input.content with
      | nil => exact absurd hitems hne
      | cons item items => exact ⟨_, rfl⟩

end Assistant

/-! ## Requests -/

section Requests

variable {parse : String → Option Json} {print : Json → String}

/-- A turn is of the user or of the assistant, and its arguments are read back
from what was printed. -/
structure Plain (parse : String → Option Json) (print : Json → String) (input : InputMessage) :
    Prop where
  role : input.role = "user" ∨ input.role = "assistant"
  readBack : ∀ c ∈ turnCalls input, parse (print c.arguments) = some c.arguments

/-- The provider messages of the messages. -/
abbrev Rigs (parse : String → Option Json) : List Message → List RigMessage → Prop :=
  List.Forall₂ fun m h => oaiMessageToRig parse m = .ok h

theorem Rigs.unique {messages : List Message} {group group' : List RigMessage}
    (h : Rigs parse messages group) (h' : Rigs parse messages group') : group = group' :=
  Except.ok.inj ((mapM_eq_ok_iff.mpr h).symm.trans (mapM_eq_ok_iff.mpr h'))

/-- A turn gets through unless it is one of the assistant that says nothing. -/
theorem rig_turn {input : InputMessage} (hplain : Plain parse print input) :
    ((∃ group, Rigs parse (translateMessage print input).2 group) ↔
      (input.role = "assistant" → Speaks input)) ∧
    ∀ group, Rigs parse (translateMessage print input).2 group →
      Carried input group ∧ (group ≠ [] ↔ Heard input) := by
  obtain ⟨hrole, hround⟩ := hplain
  rcases hrole with hrole | hrole
  · obtain ⟨group, hgroup, hcarried, hheard⟩ := @rig_user parse input hrole
    have htranslate : (translateMessage print input).2 = (translateUserMessage input.content).2 := by
      simp only [translateMessage, hrole]
    rw [htranslate]
    refine ⟨iff_of_true ⟨group, hgroup⟩ (by simp [hrole]), fun group' hgroup' => ?_⟩
    rw [Rigs.unique hgroup' hgroup]
    exact ⟨hcarried, hheard⟩
  · obtain ⟨hcarried, hspeaks⟩ := rig_assistant hrole hround
    have htranslate : (translateMessage print input).2 =
        [translateAssistantMessage print input.content] := by
      simp only [translateMessage, hrole]
    rw [htranslate]
    constructor
    · rw [← hspeaks]
      constructor
      · rintro ⟨group, hgroup⟩ -
        cases hgroup with
        | cons hok _ => exact ⟨_, hok⟩
      · intro h
        obtain ⟨msg, hok⟩ := h hrole
        exact ⟨[msg], .cons hok .nil⟩
    · intro group hgroup
      cases hgroup with
      | cons hok hrest =>
          cases hrest
          exact ⟨hcarried _ hok, iff_of_true (List.cons_ne_nil _ _) (.inl hrole)⟩

/-- The turns get through together if each of them does. -/
theorem rig_turns {inputs : List InputMessage}
    (hplain : ∀ input ∈ inputs, Plain parse print input) :
    ((∃ groups, List.Forall₂ (fun input group => Rigs parse (translateMessage print input).2 group)
        inputs groups) ↔ ∀ input ∈ inputs, input.role = "assistant" → Speaks input) ∧
    ∀ groups, List.Forall₂ (fun input group => Rigs parse (translateMessage print input).2 group)
        inputs groups →
      List.Forall₂ Carried inputs groups ∧ (groups.flatten ≠ [] ↔ ∃ input ∈ inputs, Heard input) := by
  induction inputs with
  | nil =>
      refine ⟨iff_of_true ⟨[], .nil⟩ (by simp), fun groups hgroups => ?_⟩
      cases hgroups
      exact ⟨.nil, by simp⟩
  | cons input inputs ih =>
      obtain ⟨hthrough, hcarried⟩ := rig_turn (hplain input List.mem_cons_self)
      obtain ⟨hthroughs, hcarrieds⟩ := ih fun i hi => hplain i (List.mem_cons_of_mem _ hi)
      constructor
      · rw [List.forall_mem_cons, ← hthrough, ← hthroughs]
        constructor
        · rintro ⟨groups, hgroups⟩
          cases hgroups with
          | cons hgroup hgroups => exact ⟨⟨_, hgroup⟩, _, hgroups⟩
        · rintro ⟨⟨group, hgroup⟩, groups, hgroups⟩
          exact ⟨group :: groups, .cons hgroup hgroups⟩
      · intro groups hgroups
        cases hgroups with
        | @cons _ group _ groups hgroup hgroups =>
            obtain ⟨hturn, hheard⟩ := hcarried group hgroup
            obtain ⟨hturns, hheards⟩ := hcarrieds groups hgroups
            refine ⟨.cons hturn hturns, ?_⟩
            rw [List.flatten_cons, List.exists_mem_cons_iff, ← hheard, ← hheards, ← not_and_or]
            exact not_congr List.append_eq_nil_iff

/-- A request that is handed on to a provider: both translations in a row. -/
def passThrough (parse : String → Option Json) (print : Json → String) (request : MessagesRequest)
    (model preamble : Option String) : Except Error CompletionRequest :=
  let translated := translateRequest print request
  buildRequest parse model preamble (translated.messages.getD []) (translated.tools.getD [])
    translated.toolChoice request.temperature (some request.maxTokens)

/-- The messages of user and assistant are not those of the system. -/
theorem isSystem_translateMessage {input : InputMessage} (hplain : Plain parse print input) :
    ∀ m ∈ (translateMessage print input).2, m.isSystem = false := by
  obtain ⟨role, content⟩ := input
  rcases hplain.role with hrole | hrole <;> cases hrole
  · have hflush : ∀ textBuf, ∀ m ∈ (flushText textBuf).2, m.isSystem = false := by
      intro textBuf m hm
      unfold flushText at hm
      split at hm
      · cases hm
      · cases List.mem_singleton.mp hm
        rfl
    have hblocks : ∀ textBuf blocks, ∀ m ∈ (translateUserBlocks textBuf blocks).2,
        m.isSystem = false := by
      intro textBuf blocks
      induction blocks generalizing textBuf with
      | nil => exact hflush textBuf
      | cons block blocks ih =>
          cases block with
          | text text => exact ih (textBuf ++ [text])
          | toolUse id name input => exact ih textBuf
          | toolResult id content isError =>
              intro m hm
              rcases List.mem_append.mp hm with hm | hm
              · exact hflush textBuf m hm
              · rcases List.mem_cons.mp hm with rfl | hm
                · rfl
                · exact ih [] m hm
    cases content with
    | text text =>
        intro m hm
        cases List.mem_singleton.mp hm
        rfl
    | blocks blocks => exact hblocks [] blocks
  · intro m hm
    cases List.mem_singleton.mp hm
    cases content <;> rfl

/-- With tools the messages are those of all turns, after the system prompt. -/
theorem translated_messages {request : MessagesRequest}
    (htools : ∃ t ts, request.tools = some (t :: ts))
    (hplain : ∀ input ∈ request.messages, Plain parse print input) :
    ((translateRequest print request).messages.getD []).filter (fun m => !m.isSystem) =
      request.messages.flatMap fun input => (translateMessage print input).2 := by
  obtain ⟨t, ts, htools⟩ := htools
  have hall : (request.messages.flatMap fun input => (translateMessage print input).2).filter
      (fun m => !m.isSystem) = request.messages.flatMap fun input =>
        (translateMessage print input).2 := by
    refine List.filter_eq_self.mpr fun m hm => ?_
    obtain ⟨input, hinput, hm⟩ := List.mem_flatMap.mp hm
    simp [isSystem_translateMessage (hplain input hinput) m hm]
  simp only [translateRequest, htools, Option.map_some, Option.any_some, List.map_cons,
    List.isEmpty_cons, Bool.not_false, Bool.true_or, if_true, Option.getD_some]
  cases request.system with
  | none => exact hall
  | some prompt => exact hall

theorem buildRequest_eq_ok {model preamble : Option String} {messages : List Message}
    {tools : List ToolDefinition} {toolChoice : Option Json} {temperature : Option Float32}
    {maxTokens : Option UInt32} {history : List RigMessage} :
    (∃ r, buildRequest parse model preamble messages tools toolChoice temperature maxTokens = .ok r ∧
      r.chatHistory.items = history) ↔
      Rigs parse (messages.filter fun m => !m.isSystem) history ∧ history ≠ [] := by
  constructor
  · rintro ⟨r, hok, rfl⟩
    obtain ⟨history, hhistory, hok⟩ := bind_eq_ok.mp hok
    split at hok
    · rename_i items hitems
      cases hok
      show Rigs parse _ items.items ∧ _
      rw [OneOrMany.many_eq_some.mp hitems]
      refine ⟨mapM_eq_ok_iff.mp hhistory, ?_⟩
      rw [← OneOrMany.many_eq_some.mp hitems]
      exact items.nonempty
    · cases hok
  · rintro ⟨hhistory, hne⟩
    have hmany : OneOrMany.many history = some ⟨history, hne⟩ := OneOrMany.many_eq_some.mpr rfl
    refine
      ⟨{ model, preamble
         chatHistory := ⟨history, hne⟩
         tools := tools.map oaiToolToRig
         temperature := temperature.map Float32.toFloat
         maxTokens := maxTokens.map UInt32.toUInt64
         toolChoice := toolChoice.bind parseToolChoice },
        bind_eq_ok.mpr ⟨history, mapM_eq_ok_iff.mpr hhistory, ?_⟩, rfl⟩
    simp only [hmany]

end Requests

/-- A request with one tool and these turns. -/
def sampleRequest (messages : List InputMessage) : MessagesRequest where
  messages := messages
  system := none
  maxTokens := 1024
  temperature := none
  stream := false
  tools := some [{ name := "save", description := none, inputSchema := .null }]
  toolChoice := none

theorem plain_of_text {parse : String → Option Json} {print : Json → String} {role text : String}
    (hrole : role = "user" ∨ role = "assistant") : Plain parse print ⟨role, .text text⟩ where
  role := hrole
  readBack := by
    intro c hc
    unfold turnCalls at hc
    split at hc <;> cases hc

end Flowgen.Passthrough
