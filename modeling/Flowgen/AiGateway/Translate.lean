/-
# `Flowgen.AiGateway.Translate` — from a request to the payload of an event
(`dispatch_chat_completions` and `dispatch_messages` in
`ai-agent/src/ai_gateway/server.rs`, and `translate_request` in
`protocol/messages.rs`)

Both protocols feed a flow the same `EventPayload`: a flat prompt and system
prompt, and, where tools are in play, the messages in the form of OpenAI.  Of
an Anthropic request, the turns of the user make the prompt, and a turn is cut
at each tool result, which becomes a message of its own.
-/
import Flowgen.AiGateway.Protocol

namespace Flowgen.AiGateway

/-! ## Requests -/

/-- `ToolDefinition`, with its `ToolFunction` unfolded. -/
structure ToolDefinition where
  kind : String
  name : String
  description : Option String
  parameters : Json

structure ChatCompletionRequest where
  messages : List Message
  temperature : Option Float32
  maxTokens : Option UInt32
  stream : Bool
  tools : Option (List ToolDefinition)
  toolChoice : Option Json

/-- The text of a `SystemTextBlock`; its type is not looked at. -/
inductive SystemPrompt
  | text (text : String)
  | blocks (texts : List String)

mutual

inductive ContentBlock
  | text (text : String)
  | toolUse (id name : String) (input : Json)
  | toolResult (toolUseId : String) (content : ToolResultContent) (isError : Option Bool)

inductive ToolResultContent
  | text (text : String)
  | blocks (blocks : List ContentBlock)

end

inductive MessageContent
  | text (text : String)
  | blocks (blocks : List ContentBlock)

structure InputMessage where
  role : String
  content : MessageContent

structure AnthropicToolDefinition where
  name : String
  description : Option String
  inputSchema : Json

structure MessagesRequest where
  messages : List InputMessage
  system : Option SystemPrompt
  maxTokens : UInt32
  temperature : Option Float32
  stream : Bool
  tools : Option (List AnthropicToolDefinition)
  toolChoice : Option Json

structure EventPayload where
  prompt : String
  systemPrompt : Option String
  model : Option String
  temperature : Option Float32
  maxTokens : Option UInt32
  stream : Bool
  messages : Option (List Message)
  tools : Option (List ToolDefinition)
  toolChoice : Option Json

/-! ## Chat Completions -/

def Message.isSystem (m : Message) : Bool := m.role == "system"

/-- The payload of `dispatch_chat_completions`.  The system prompt is that of
the first system message, and the prompt is made of all the others. -/
def chatPayload (request : ChatCompletionRequest) (downstreamModel : Option String) :
    EventPayload :=
  let clientSentTools := request.tools.any fun tools => !tools.isEmpty
  { prompt :=
      "\n".intercalate ((request.messages.filter fun m => !m.isSystem).filterMap Message.content)
    systemPrompt := (request.messages.find? Message.isSystem).bind Message.content
    model := downstreamModel
    temperature := request.temperature
    maxTokens := request.maxTokens
    stream := request.stream
    messages := if clientSentTools then some request.messages else none
    tools := if clientSentTools then request.tools else none
    toolChoice := if clientSentTools then request.toolChoice else none }

/-! ## Messages -/

structure TranslatedRequest where
  prompt : String
  systemPrompt : Option String
  messages : Option (List Message)
  tools : Option (List ToolDefinition)
  toolChoice : Option Json

def flattenSystem : SystemPrompt → String
  | .text text => text
  | .blocks texts => "\n\n".intercalate texts

/-- The text of a block of text. -/
def ContentBlock.text? : ContentBlock → Option String
  | .text content => some content
  | _ => none

def flattenTextContent : MessageContent → Option String
  | .text text => some text
  | .blocks blocks =>
      let texts := blocks.filterMap ContentBlock.text?
      if texts = [] then none else some ("\n".intercalate texts)

def flattenToolResult : ToolResultContent → String
  | .text text => text
  | .blocks blocks => "\n".intercalate (blocks.filterMap ContentBlock.text?)

/-- A message of a role with a text. -/
def Message.plain (role content : String) : Message :=
  { role, content := some content, toolCalls := [], toolCallId := none }

/-- The message of a tool result. -/
def Message.toolResult (toolUseId content : String) : Message :=
  { role := "tool", content := some content, toolCalls := [], toolCallId := some toolUseId }

/-- The buffered texts of a turn of the user are written out. -/
def flushText (textBuf : List String) : List String × List Message :=
  if textBuf = [] then ([], [])
  else (["\n".intercalate textBuf], [.plain "user" ("\n".intercalate textBuf)])

/-- The loop over the blocks of a turn of the user: what it adds to the prompt
and to the messages. -/
def translateUserBlocks (textBuf : List String) : List ContentBlock → List String × List Message
  | [] => flushText textBuf
  | .text text :: blocks => translateUserBlocks (textBuf ++ [text]) blocks
  | .toolResult toolUseId content _ :: blocks =>
      let (parts, messages) := flushText textBuf
      let (parts', messages') := translateUserBlocks [] blocks
      (parts ++ parts', messages ++ .toolResult toolUseId (flattenToolResult content) :: messages')
  -- not valid in a turn of the user
  | .toolUse _ _ _ :: blocks => translateUserBlocks textBuf blocks

def translateUserMessage : MessageContent → List String × List Message
  | .text text => ([text], [.plain "user" text])
  | .blocks blocks => translateUserBlocks [] blocks

section Translate

-- `Value::to_string`
variable (print : Json → String)

/-- The tool call of a block of an assistant. -/
def ContentBlock.toolCall? : ContentBlock → Option ToolCall
  | .toolUse id name input => some { id, kind := "function", name, arguments := print input }
  | _ => none

def translateAssistantMessage : MessageContent → Message
  | .text text => .plain "assistant" text
  | .blocks blocks =>
      let textBuf := blocks.filterMap ContentBlock.text?
      { role := "assistant"
        content := if textBuf = [] then none else some ("\n".intercalate textBuf)
        toolCalls := blocks.filterMap (ContentBlock.toolCall? print)
        toolCallId := none }

/-- What one message adds to the prompt and to the messages. -/
def translateMessage (input : InputMessage) : List String × List Message :=
  match input.role with
  | "user" => translateUserMessage input.content
  | "assistant" => ([], [translateAssistantMessage print input.content])
  | other =>
      ([], [{ role := other, content := flattenTextContent input.content, toolCalls := []
              toolCallId := none }])

def prependSystem (system : Option String) (messages : List Message) : List Message :=
  match system with
  | some text => .plain "system" text :: messages
  | none => messages

def AnthropicToolDefinition.toolDefinition (t : AnthropicToolDefinition) : ToolDefinition :=
  { kind := "function", name := t.name, description := t.description, parameters := t.inputSchema }

def translateRequest (request : MessagesRequest) : TranslatedRequest :=
  let systemPrompt := request.system.map flattenSystem
  let promptParts := request.messages.flatMap fun input => (translateMessage print input).1
  let messages := request.messages.flatMap fun input => (translateMessage print input).2
  let tools := request.tools.map fun tools => tools.map AnthropicToolDefinition.toolDefinition
  let hasTools := tools.any fun tools => !tools.isEmpty
  let hasToolTraffic := messages.any fun m => !m.toolCalls.isEmpty || m.toolCallId.isSome
  { prompt := "\n".intercalate promptParts
    systemPrompt
    messages :=
      if hasTools || hasToolTraffic then some (prependSystem systemPrompt messages) else none
    tools
    toolChoice := request.toolChoice }

/-- The payload of `dispatch_messages`. -/
def messagesPayload (request : MessagesRequest) (downstreamModel : Option String) : EventPayload :=
  let translated := translateRequest print request
  { prompt := translated.prompt
    systemPrompt := translated.systemPrompt
    model := downstreamModel
    temperature := request.temperature
    maxTokens := some request.maxTokens
    stream := request.stream
    messages := translated.messages
    tools := translated.tools
    toolChoice := translated.toolChoice }

end Translate

end Flowgen.AiGateway
