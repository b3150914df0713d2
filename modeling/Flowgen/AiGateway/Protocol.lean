/-
# `Flowgen.AiGateway.Protocol` — the wire protocols of the gateway
(`ai-agent/src/ai_gateway/protocol.rs` and its two submodules)

A `ProtocolAdapter` says how one client protocol spells a stream: the frames
that open it, those of a text delta, of tool calls and of a tool step, those
that close it, and the frame of an error.  A frame is kept as the value that is
serialised into it; its serialisation does not fail.

What the dispatcher relies on is `LawfulAdapter`: only `close` writes closing
frames, and only `errorSseFrame` writes an error.
-/
import Flowgen.Json

namespace Flowgen.AiGateway

/-! ## The data of a response -/

structure Usage where
  promptTokens : UInt64
  completionTokens : UInt64
  totalTokens : UInt64
deriving DecidableEq

/-- `ToolCall`, with its `ToolCallFunction` unfolded. -/
structure ToolCall where
  id : String
  kind : String
  name : String
  arguments : String
deriving DecidableEq

structure Message where
  role : String
  content : Option String
  toolCalls : List ToolCall
  toolCallId : Option String
deriving DecidableEq

inductive StopReason
  | endTurn
  | toolUse
deriving DecidableEq

/-- `from_value::<Usage>`. -/
def Usage.ofJson (v : Json) : Option Usage := do
  let fields ← v.structFields ["prompt_tokens", "completion_tokens", "total_tokens"]
  match ← fields.mapM Json.asU64 with
  | [prompt, completion, total] => some ⟨prompt, completion, total⟩
  | _ => none

/-- `from_value::<ToolCall>`. -/
def ToolCall.ofJson (v : Json) : Option ToolCall := do
  match ← v.structFields ["id", "type", "function"] with
  | [id, kind, function] =>
      match ← function.structFields ["name", "arguments"] with
      | [name, arguments] =>
          some ⟨← id.asStr, ← kind.asStr, ← name.asStr, ← arguments.asStr⟩
      | _ => none
  | _ => none

/-! ## Frames -/

/-- `ToolCallDelta`, with its `ToolCallDeltaFunction` unfolded. -/
structure ToolCallDelta where
  index : Nat
  id : Option String
  kind : Option String
  name : Option String
  arguments : String
deriving DecidableEq

structure Delta where
  role : Option String := none
  content : Option String := none
  toolCalls : List ToolCallDelta := []
deriving DecidableEq

structure StreamChoice where
  index : Nat := 0
  delta : Delta := {}
  finishReason : Option String := none
deriving DecidableEq

structure ChatCompletionChunk where
  id : String
  object : String := "chat.completion.chunk"
  created : Int
  model : String
  choices : List StreamChoice
  usage : Option Usage := none
deriving DecidableEq

structure AnthropicUsage where
  inputTokens : UInt64
  outputTokens : UInt64
deriving DecidableEq

/-- `AnthropicUsage::from_openai`. -/
def AnthropicUsage.fromOpenai : Option Usage → AnthropicUsage
  | some u => ⟨u.promptTokens, u.completionTokens⟩
  | none => ⟨0, 0⟩

inductive OutputContentBlock
  | text (text : String)
  /-- The `input` of an opening block is the empty object. -/
  | toolUse (id name : String)
deriving DecidableEq

inductive BlockDelta
  | textDelta (text : String)
  | inputJsonDelta (partialJson : String)
deriving DecidableEq

/-- `StreamEvent`.  The other fields of the opening envelope are constants. -/
inductive StreamEvent
  | messageStart (id model : String) (usage : AnthropicUsage)
  | contentBlockStart (index : Nat) (contentBlock : OutputContentBlock)
  | contentBlockDelta (index : Nat) (delta : BlockDelta)
  | contentBlockStop (index : Nat)
  | messageDelta (stopReason : String) (usage : AnthropicUsage)
  | messageStop
deriving DecidableEq

/-- One server-sent event. -/
inductive Frame
  | chunk (chunk : ChatCompletionChunk)
  | event (event : StreamEvent)
  | error (kind message : String)
  /-- `SSE_DONE`. -/
  | done
deriving DecidableEq

/-- The frame reports an error. -/
def Frame.isError : Frame → Bool
  | .error _ _ => true
  | _ => false

/-- The frame belongs to the end of a stream: a finish reason, the usage after
it, `[DONE]`; or `message_delta` and `message_stop`. -/
def Frame.isClosing : Frame → Bool
  | .chunk c => c.usage.isSome || c.choices.any fun choice => choice.finishReason.isSome
  | .event (.messageDelta _ _) | .event .messageStop => true
  | .event _ => false
  | .error _ _ => false
  | .done => true

/-- The frame neither reports an error nor ends the stream. -/
def Frame.isBody (f : Frame) : Bool := !f.isError && !f.isClosing

/-- The text a client appends for the frame. -/
def Frame.text : Frame → String
  | .chunk c => String.join (c.choices.map fun choice => choice.delta.content.getD "")
  | .event (.contentBlockDelta _ (.textDelta text)) => text
  | _ => ""

/-! ## Adapters -/

/-- `ProtocolAdapter`, with the methods of its `StreamWriter`. -/
structure ProtocolAdapter where
  StreamWriter : Type
  newStreamWriter (requestId model : String) (created : Int) : StreamWriter
  opening (w : StreamWriter) : StreamWriter × List Frame
  textDelta (w : StreamWriter) (text : String) : StreamWriter × List Frame
  toolCalls (w : StreamWriter) (calls : List ToolCall) : StreamWriter × List Frame
  toolStep (w : StreamWriter) (name arguments : String) : StreamWriter × List Frame
  close (w : StreamWriter) (stop : StopReason) (usage : Option Usage) (includeUsage : Bool) :
    List Frame
  errorSseFrame (message : String) : Frame
  /-- `EMIT_DONE_SENTINEL`. -/
  emitDoneSentinel : Bool

/-- What `close` and the sentinel write at the end of a stream. -/
def ProtocolAdapter.ending (A : ProtocolAdapter) (w : A.StreamWriter) (stop : StopReason)
    (usage : Option Usage) (includeUsage : Bool) : List Frame :=
  A.close w stop usage includeUsage ++ if A.emitDoneSentinel then [.done] else []

/-- The frames add just this text to what the client shows, and nothing else
that matters to it. -/
def Carries (text : String) (frames : List Frame) : Prop :=
  (∀ f ∈ frames, f.isBody) ∧ String.join (frames.map Frame.text) = text

/-- What the dispatcher relies on.  `Closing` says what one set of closing
frames is in the protocol. -/
structure LawfulAdapter (A : ProtocolAdapter) (Closing : List Frame → Prop) : Prop where
  opening_carries : ∀ w, Carries "" (A.opening w).2
  textDelta_carries : ∀ w text, Carries text (A.textDelta w text).2
  toolCalls_carries : ∀ w calls, Carries "" (A.toolCalls w calls).2
  toolStep_carries : ∀ w name arguments, Carries "" (A.toolStep w name arguments).2
  ending_closes : ∀ w stop usage includeUsage, ∃ body closing,
    A.ending w stop usage includeUsage = body ++ closing ∧ Carries "" body ∧ Closing closing
  closing_text : ∀ closing, Closing closing → String.join (closing.map Frame.text) = ""
  closing_isClosing : ∀ closing, Closing closing →
    closing ≠ [] ∧ ∀ f ∈ closing, f.isClosing ∧ f.isError = false
  errorSseFrame_isError : ∀ message, (A.errorSseFrame message).isError
  errorSseFrame_text : ∀ message, (A.errorSseFrame message).text = ""

theorem Carries.nil : Carries "" [] := ⟨by simp, rfl⟩

theorem Carries.append {text text' : String} {frames frames' : List Frame}
    (h : Carries text frames) (h' : Carries text' frames') :
    Carries (text ++ text') (frames ++ frames') := by
  constructor
  · intro f hf
    rcases List.mem_append.mp hf with hf | hf
    · exact h.1 f hf
    · exact h'.1 f hf
  · rw [List.map_append, String.join_append, h.2, h'.2]

theorem Carries.flatMap {α : Type} {l : List α} {g : α → List Frame}
    (h : ∀ a, Carries "" (g a)) : Carries "" (l.flatMap g) := by
  induction l with
  | nil => exact .nil
  | cons a l ih =>
      rw [List.flatMap_cons]
      exact (h a).append ih

end Flowgen.AiGateway
