/-
# `Flowgen.AiGateway.Adapters` — Chat Completions and Messages
(`ai-agent/src/ai_gateway/protocol/completions.rs` and `messages.rs`)

The two adapters of the gateway.  An OpenAI stream is flat: each text delta is
one chunk, and the stream ends with a finish reason, the usage if the client
asked for it, and `[DONE]`.  An Anthropic stream consists of blocks, so the
writer keeps the text block that is open and closes it before anything else;
it ends with `message_delta` and `message_stop`.
-/
import Flowgen.AiGateway.Protocol

namespace Flowgen.AiGateway

/-! ## OpenAI -/

structure OpenAiStreamWriter where
  requestId : String
  model : String
  created : Int
  emittedToolCalls : Bool := false
  toolStepIndex : Nat := 0
deriving DecidableEq

namespace OpenAiStreamWriter

/-- The constructors of `ChatCompletionChunk` fill in the writer's own values. -/
def chunk (w : OpenAiStreamWriter) (choices : List StreamChoice) (usage : Option Usage) : Frame :=
  .chunk { id := w.requestId, created := w.created, model := w.model, choices, usage }

/-- A chunk with one choice. -/
def choice (w : OpenAiStreamWriter) (delta : Delta) (finishReason : Option String) : Frame :=
  w.chunk [{ delta, finishReason }] none

/-- `ChatCompletionChunk::tool_call_open` and `tool_call_arguments`. -/
def toolCallFrames (w : OpenAiStreamWriter) (index : Nat) (id name arguments : String) :
    List Frame :=
  [w.choice
      { toolCalls :=
          [{ index, id := some id, kind := some "function", name := some name, arguments := "" }] }
      none,
    w.choice { toolCalls := [{ index, id := none, kind := none, name := none, arguments }] } none]

def opening (w : OpenAiStreamWriter) : OpenAiStreamWriter × List Frame :=
  (w, [w.choice { role := some "assistant" } none])

def textDelta (w : OpenAiStreamWriter) (text : String) : OpenAiStreamWriter × List Frame :=
  (w, [w.choice { content := some text } none])

def toolCalls (w : OpenAiStreamWriter) (calls : List ToolCall) :
    OpenAiStreamWriter × List Frame :=
  ({ w with emittedToolCalls := w.emittedToolCalls || !calls.isEmpty },
    calls.zipIdx.flatMap fun (call, idx) => w.toolCallFrames idx call.id call.name call.arguments)

/-- An informational step leaves `emittedToolCalls` unset. -/
def toolStep (w : OpenAiStreamWriter) (name arguments : String) :
    OpenAiStreamWriter × List Frame :=
  ({ w with toolStepIndex := w.toolStepIndex + 1 },
    w.toolCallFrames w.toolStepIndex s!"step_{w.toolStepIndex}" name arguments)

/-- The finish reason. -/
def finishChunk (w : OpenAiStreamWriter) (stop : StopReason) : Frame :=
  match stop, w.emittedToolCalls with
  | .toolUse, _ | _, true => w.choice {} (some "tool_calls")
  | _, _ => w.choice {} (some "stop")

def close (w : OpenAiStreamWriter) (stop : StopReason) (usage : Option Usage)
    (includeUsage : Bool) : List Frame :=
  w.finishChunk stop ::
    match includeUsage, usage with
    | true, some u => [w.chunk [] (some u)]
    | _, _ => []

end OpenAiStreamWriter

def openAiAdapter : ProtocolAdapter where
  StreamWriter := OpenAiStreamWriter
  newStreamWriter requestId model created := { requestId, model, created }
  opening := OpenAiStreamWriter.opening
  textDelta := OpenAiStreamWriter.textDelta
  toolCalls := OpenAiStreamWriter.toolCalls
  toolStep := OpenAiStreamWriter.toolStep
  close := OpenAiStreamWriter.close
  errorSseFrame message := .error "server_error" message
  emitDoneSentinel := true

/-- A finish reason, the usage if there is any, and `[DONE]`. -/
def OpenAiClosing (frames : List Frame) : Prop :=
  ∃ (w : OpenAiStreamWriter) (finishReason : String) (usage : List Usage), usage.length ≤ 1 ∧
    frames = w.choice {} (some finishReason) :: (usage.map fun u => w.chunk [] (some u)) ++ [.done]

namespace OpenAiStreamWriter

@[simp] theorem isBody_choice (w : OpenAiStreamWriter) (delta : Delta) :
    (w.choice delta none).isBody = true := rfl

@[simp] theorem text_choice (w : OpenAiStreamWriter) (delta : Delta) (reason : Option String) :
    (w.choice delta reason).text = delta.content.getD "" := by
  simp [choice, chunk, Frame.text]

/-- A chunk without a finish reason carries its content. -/
theorem choice_carries (w : OpenAiStreamWriter) (delta : Delta) :
    Carries (delta.content.getD "") [w.choice delta none] := by
  constructor
  · intro f hf
    cases List.mem_singleton.mp hf
    rfl
  · simp

theorem toolCallFrames_carries (w : OpenAiStreamWriter) (index : Nat)
    (id name arguments : String) : Carries "" (w.toolCallFrames index id name arguments) := by
  constructor
  · intro f hf
    simp only [toolCallFrames, List.mem_cons, List.not_mem_nil, or_false] at hf
    rcases hf with rfl | rfl <;> rfl
  · simp [toolCallFrames]

theorem finishChunk_eq (w : OpenAiStreamWriter) (stop : StopReason) :
    ∃ reason, w.finishChunk stop = w.choice {} (some reason) := by
  unfold finishChunk
  split
  · exact ⟨_, rfl⟩
  · exact ⟨_, rfl⟩
  · exact ⟨_, rfl⟩

/-- The end of an OpenAI stream is one set of closing frames. -/
theorem ending_closing (w : OpenAiStreamWriter) (stop : StopReason) (usage : Option Usage)
    (includeUsage : Bool) : OpenAiClosing (openAiAdapter.ending w stop usage includeUsage) := by
  obtain ⟨reason, hreason⟩ := w.finishChunk_eq stop
  show OpenAiClosing (w.close stop usage includeUsage ++ [.done])
  unfold close
  rw [hreason]
  split
  · rename_i u
    exact ⟨w, reason, [u], by simp, rfl⟩
  · exact ⟨w, reason, [], by simp, rfl⟩

end OpenAiStreamWriter

theorem openAiAdapter_lawful : LawfulAdapter openAiAdapter OpenAiClosing where
  opening_carries w := OpenAiStreamWriter.choice_carries w _
  textDelta_carries w text := OpenAiStreamWriter.choice_carries w { content := some text }
  toolCalls_carries w calls :=
    Carries.flatMap fun call => w.toolCallFrames_carries call.2 call.1.id call.1.name
      call.1.arguments
  toolStep_carries w name arguments := w.toolCallFrames_carries _ _ name arguments
  ending_closes w stop usage includeUsage :=
    ⟨[], _, rfl, .nil, OpenAiStreamWriter.ending_closing w stop usage includeUsage⟩
  closing_text := by
    rintro closing ⟨w, reason, usage, -, rfl⟩
    have husage : ∀ us : List Usage,
        String.join ((us.map fun u => w.chunk [] (some u)).map Frame.text) = "" := by
      intro us
      induction us with
      | nil => rfl
      | cons u us ih =>
          rw [List.map_cons, List.map_cons, String.join_cons, ih]
          rfl
    rw [List.map_append, String.join_append, List.map_cons, String.join_cons, husage,
      OpenAiStreamWriter.text_choice]
    rfl
  closing_isClosing := by
    rintro closing ⟨w, reason, usage, -, rfl⟩
    constructor
    · simp
    · intro f hf
      simp only [List.cons_append, List.mem_cons, List.mem_append, List.mem_map,
        List.not_mem_nil, or_false] at hf
      rcases hf with rfl | ⟨u, -, rfl⟩ | rfl <;> exact ⟨rfl, rfl⟩
  errorSseFrame_isError _ := rfl
  errorSseFrame_text _ := rfl

/-! ## Anthropic -/

structure MessagesStreamWriter where
  requestId : String
  model : String
  nextBlockIndex : Nat := 0
  textBlockOpen : Bool := false
  textBlockIndex : Nat := 0
deriving DecidableEq

namespace MessagesStreamWriter

def opening (w : MessagesStreamWriter) : MessagesStreamWriter × List Frame :=
  (w, [.event (.messageStart w.requestId w.model ⟨0, 0⟩)])

/-- The first text opens a block, which later text continues. -/
def textDelta (w : MessagesStreamWriter) (text : String) : MessagesStreamWriter × List Frame :=
  if w.textBlockOpen then
    (w, [.event (.contentBlockDelta w.textBlockIndex (.textDelta text))])
  else
    ({ w with
        textBlockIndex := w.nextBlockIndex
        nextBlockIndex := w.nextBlockIndex + 1
        textBlockOpen := true },
      [.event (.contentBlockStart w.nextBlockIndex (.text "")),
        .event (.contentBlockDelta w.nextBlockIndex (.textDelta text))])

/-- Ends the text block that is open. -/
def closeText (w : MessagesStreamWriter) : MessagesStreamWriter × List Frame :=
  if w.textBlockOpen then
    ({ w with textBlockOpen := false }, [.event (.contentBlockStop w.textBlockIndex)])
  else (w, [])

/-- The block of one tool call. -/
def toolBlock (index : Nat) (call : ToolCall) : List Frame :=
  [.event (.contentBlockStart index (.toolUse call.id call.name)),
    .event (.contentBlockDelta index (.inputJsonDelta call.arguments)),
    .event (.contentBlockStop index)]

def toolCalls (w : MessagesStreamWriter) (calls : List ToolCall) :
    MessagesStreamWriter × List Frame :=
  ({ w.closeText.1 with nextBlockIndex := w.nextBlockIndex + calls.length },
    w.closeText.2 ++ (calls.zipIdx w.nextBlockIndex).flatMap fun (call, index) =>
      toolBlock index call)

def stopReason : StopReason → String
  | .endTurn => "end_turn"
  | .toolUse => "tool_use"

/-- `include_usage` is ignored: the usage is always sent. -/
def close (w : MessagesStreamWriter) (stop : StopReason) (usage : Option Usage)
    (_includeUsage : Bool) : List Frame :=
  w.closeText.2 ++
    [.event (.messageDelta (stopReason stop) (.fromOpenai usage)), .event .messageStop]

end MessagesStreamWriter

/-- `tool_step` is the default of the trait, which writes nothing. -/
def messagesAdapter : ProtocolAdapter where
  StreamWriter := MessagesStreamWriter
  newStreamWriter requestId model _created := { requestId, model }
  opening := MessagesStreamWriter.opening
  textDelta := MessagesStreamWriter.textDelta
  toolCalls := MessagesStreamWriter.toolCalls
  toolStep w _name _arguments := (w, [])
  close := MessagesStreamWriter.close
  errorSseFrame message := .error "api_error" message
  emitDoneSentinel := false

/-- `message_delta` and `message_stop`. -/
def MessagesClosing (frames : List Frame) : Prop :=
  ∃ stopReason usage, frames = [.event (.messageDelta stopReason usage), .event .messageStop]

namespace MessagesStreamWriter

theorem closeText_carries (w : MessagesStreamWriter) : Carries "" w.closeText.2 := by
  rw [closeText]
  split
  · constructor
    · intro f hf
      cases List.mem_singleton.mp hf
      rfl
    · rfl
  · exact .nil

theorem toolBlock_carries (index : Nat) (call : ToolCall) : Carries "" (toolBlock index call) := by
  constructor
  · intro f hf
    simp only [toolBlock, List.mem_cons, List.not_mem_nil, or_false] at hf
    rcases hf with rfl | rfl | rfl <;> rfl
  · rfl

theorem textDelta_carries (w : MessagesStreamWriter) (text : String) :
    Carries text (w.textDelta text).2 := by
  rw [textDelta]
  split
  · constructor
    · intro f hf
      cases List.mem_singleton.mp hf
      rfl
    · simp [Frame.text]
  · constructor
    · intro f hf
      simp only [List.mem_cons, List.not_mem_nil, or_false] at hf
      rcases hf with rfl | rfl <;> rfl
    · simp [Frame.text]

end MessagesStreamWriter

theorem messagesAdapter_lawful : LawfulAdapter messagesAdapter MessagesClosing where
  opening_carries w := by
    constructor
    · intro f hf
      cases List.mem_singleton.mp hf
      rfl
    · rfl
  textDelta_carries := MessagesStreamWriter.textDelta_carries
  toolCalls_carries w calls := by
    have hblocks : Carries "" ((calls.zipIdx w.nextBlockIndex).flatMap fun c =>
        MessagesStreamWriter.toolBlock c.2 c.1) :=
      Carries.flatMap fun c => MessagesStreamWriter.toolBlock_carries c.2 c.1
    exact w.closeText_carries.append hblocks
  toolStep_carries _ _ _ := .nil
  ending_closes w stop usage includeUsage :=
    ⟨w.closeText.2, _, List.append_nil _, w.closeText_carries, _, _, rfl⟩
  closing_text := by
    rintro closing ⟨reason, usage, rfl⟩
    rfl
  closing_isClosing := by
    rintro closing ⟨reason, usage, rfl⟩
    constructor
    · simp
    · intro f hf
      simp only [List.mem_cons, List.not_mem_nil, or_false] at hf
      rcases hf with rfl | rfl <;> exact ⟨rfl, rfl⟩
  errorSseFrame_isError _ := rfl
  errorSseFrame_text _ := rfl

/-! ## The protocols -/

inductive Protocol
  | openai
  | anthropic
deriving DecidableEq

/-- The adapter that the dispatcher picks. -/
def Protocol.adapter : Protocol → ProtocolAdapter
  | .openai => openAiAdapter
  | .anthropic => messagesAdapter

/-- One set of closing frames. -/
def Protocol.Closing : Protocol → List Frame → Prop
  | .openai => OpenAiClosing
  | .anthropic => MessagesClosing

theorem Protocol.lawful (p : Protocol) : LawfulAdapter p.adapter p.Closing := by
  cases p with
  | openai => exact openAiAdapter_lawful
  | anthropic => exact messagesAdapter_lawful

end Flowgen.AiGateway
