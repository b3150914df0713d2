/-
# `Flowgen.AiGateway.Modes` — one completion, blocking and streamed
(`dispatch_blocking` and `dispatch_streaming` in
`ai-agent/src/ai_gateway/server.rs`, and `build_blocking_response` of both
adapters)

A completion becomes one response or a stream.  A client should read the same
text and the same tool calls from either.  It does not always: an OpenAI
response with tool calls has no text, a stream calls every tool a function, a
Messages response replaces arguments it cannot read by an empty object, and
malformed tool calls fail the response but not the stream (`modes_agree_iff`).
-/
import Flowgen.AiGateway.Blocks
import Flowgen.AiGateway.Streaming

namespace Flowgen.AiGateway

open Flowgen.Lib
open Streaming (State Act Exit Moves moves_of_step finalText finalToolCalls finalUsage)

/-! ## The blocking response -/

structure Choice where
  index : Nat := 0
  message : Message
  finishReason : String

structure ChatCompletionResponse where
  id : String
  object : String := "chat.completion"
  created : Int
  model : String
  choices : List Choice
  usage : Option Usage := none

/-- `Message::assistant`. -/
def Message.assistant (content : String) : Message :=
  { role := "assistant", content := some content, toolCalls := [], toolCallId := none }

namespace ChatCompletionResponse

/-- `ChatCompletionResponse::new`. -/
def new (id : String) (created : Int) (model content : String) : ChatCompletionResponse :=
  { id, created, model, choices := [{ message := .assistant content, finishReason := "stop" }] }

/-- The message carries the tool calls only. -/
def withToolCalls (id : String) (created : Int) (model : String) (toolCalls : List ToolCall) :
    ChatCompletionResponse :=
  { id, created, model
    choices :=
      [{ message := { role := "assistant", content := none, toolCalls, toolCallId := none }
         finishReason := "tool_calls" }] }

end ChatCompletionResponse

/-- `OutputContentBlock` of a response, where a tool use has its input. -/
inductive ResponseBlock
  | text (text : String)
  | toolUse (id name : String) (input : Json)

structure MessagesResponse where
  id : String
  kind : String := "message"
  role : String := "assistant"
  model : String
  content : List ResponseBlock
  stopReason : String
  stopSequence : Option String := none
  usage : AnthropicUsage

section Responses

-- `serde_json::from_str::<Value>`
variable (parse : String → Option Json)

/-- Arguments that are not JSON become an empty object. -/
def toolInput (arguments : String) : Json := (parse arguments).getD (.object [])

/-- `build_response`. -/
def buildResponse (requestId model text : String) (toolCalls : List ToolCall)
    (usage : Option Usage) : MessagesResponse where
  id := requestId
  model := model
  content :=
    (if text = "" then [] else [.text text]) ++
      toolCalls.map fun call => .toolUse call.id call.name (toolInput parse call.arguments)
  stopReason := if toolCalls = [] then "end_turn" else "tool_use"
  usage := .fromOpenai usage

inductive Response
  | chat (response : ChatCompletionResponse)
  | messages (response : MessagesResponse)

/-- `build_blocking_response` of the adapter; `now` is the time of an OpenAI
response. -/
def Protocol.buildBlockingResponse (now : Int) (requestId model text : String)
    (toolCalls : List ToolCall) (usage : Option Usage) : Protocol → Response
  | .openai =>
      let response :=
        if toolCalls = [] then ChatCompletionResponse.new requestId now model text
        else ChatCompletionResponse.withToolCalls requestId now model toolCalls
      .chat { response with usage }
  | .anthropic => .messages (buildResponse parse requestId model text toolCalls usage)

/-- The tool calls of a completion, unless they are malformed. -/
def unpackToolCalls (data : Option Json) : Option (List ToolCall) :=
  match data.bind fun v => v.get? "tool_calls" with
  | some v => if v.isNull then some [] else v.decodeVec ToolCall.ofJson
  | none => some []

/-- `unpack_completion`; it fails for malformed tool calls, and drops malformed
usage. -/
def unpackCompletion (data : Option Json) :
    Option (String × List ToolCall × Option Usage) := do
  let toolCalls ← unpackToolCalls data
  some (data.elim "" finalText, toolCalls, data.bind finalUsage)

/-- What `dispatch_blocking` answers once the flow has completed. -/
def blockingResponse (p : Protocol) (now : Int) (requestId model : String) (data : Option Json) :
    Option Response := do
  let (text, toolCalls, usage) ← unpackCompletion data
  some (p.buildBlockingResponse parse now requestId model text toolCalls usage)

/-! ## What a client reads -/

inductive ReplyCall
  | chat (call : ToolCall)
  /-- The input is missing where the client cannot read it. -/
  | messages (id name : String) (input : Option Json)

/-- The text and the tool calls of an answer. -/
structure Reply where
  text : String
  calls : List ReplyCall

def ResponseBlock.content : ResponseBlock → String
  | .text content => content
  | .toolUse _ _ _ => ""

def ResponseBlock.call? : ResponseBlock → Option ReplyCall
  | .text _ => none
  | .toolUse id name input => some (.messages id name (some input))

def Response.reply : Response → Reply
  | .chat response =>
      { text := String.join (response.choices.map fun choice => choice.message.content.getD "")
        calls := response.choices.flatMap fun choice => choice.message.toolCalls.map .chat }
  | .messages response =>
      { text := String.join (response.content.map ResponseBlock.content)
        calls := response.content.filterMap ResponseBlock.call? }

/-- The deltas of a tool use are its input; without any it is the empty object
that the block started with. -/
def streamedInput (partialJson : String) : Option Json :=
  if partialJson = "" then some (.object []) else parse partialJson

def Block.content : Block → String
  | .text content => content
  | .toolUse _ => ""

def Block.call? : Block → Option ReplyCall
  | .text _ => none
  | .toolUse call => some (.messages call.id call.name (streamedInput parse call.arguments))

/-- What a client puts together from a stream. -/
def Protocol.reassemble (frames : List Frame) : Protocol → Option Reply
  | .openai => some { text := contentOf frames, calls := (aggregate frames).map .chat }
  | .anthropic => do
      let blocks ← readStream frames
      some
        { text := String.join (blocks.map Block.content)
          calls := blocks.filterMap (Block.call? parse) }

/-- The response and the stream tell a client the same. -/
def ModesAgree (p : Protocol) (data : Option Json) (frames : List Frame) : Prop :=
  ∀ now requestId model, ∃ response,
    blockingResponse parse p now requestId model data = some response ∧
      p.reassemble parse frames = some response.reply

/-- The tool calls of the completion, and its text, are such that they do. -/
def Agreeable (data : Option Json) : Protocol → Prop
  | .openai => ∃ toolCalls, unpackToolCalls data = some toolCalls ∧
      (data.elim "" finalText = "" ∨ toolCalls = []) ∧ ∀ call ∈ toolCalls, call.kind = "function"
  | .anthropic => ∃ toolCalls, unpackToolCalls data = some toolCalls ∧
      ∀ call ∈ toolCalls, call.arguments = "" ∨ (parse call.arguments).isSome

end Responses

/-! ## The streamed response -/

/-- What is written for a completion that was not streamed before. -/
def answerWrites (data : Option Json) : List Write :=
  let text := data.elim "" finalText
  let calls := data.elim [] finalToolCalls
  (if text = "" then [] else [.textDelta text]) ++ if calls = [] then [] else [.toolCalls calls]

/-- Where the stream stops. -/
def answerStop (data : Option Json) : StopReason :=
  if data.elim [] finalToolCalls = [] then .endTurn else .toolUse

section Stream

variable {A : ProtocolAdapter} {includeUsage deadline : Bool}

theorem answer_eq (w : A.StreamWriter) (data : Json) :
    Streaming.answer A w false data = A.writes w (answerWrites (some data)) := by
  unfold Streaming.answer answerWrites
  by_cases htext : finalText data = "" <;> by_cases hcalls : finalToolCalls data = [] <;>
    simp [htext, hcalls, ProtocolAdapter.writes, ProtocolAdapter.write]

theorem finish_eq (w : A.StreamWriter) (data : Option Json) :
    Streaming.finish A includeUsage w false (.completed (some (.ok data))) =
      (A.writes w (answerWrites data)).2 ++
        A.ending (A.writes w (answerWrites data)).1 (answerStop data) (data.bind finalUsage)
          includeUsage := by
  cases data with
  | none => rfl
  | some data =>
      rw [← answer_eq]
      rfl

def isProgress : Act → Bool
  | .progress _ => true
  | _ => false

/-- The flow sends no progress. -/
def Quiet (_ : State A) (a : Act) : Prop := isProgress a = false

instance (s : State A) (a : Act) : Decidable (Quiet s a) :=
  inferInstanceAs (Decidable (isProgress a = false))

/-- A stream without progress has written nothing but its opening frames before
the end. -/
structure Silent (includeUsage : Bool) (w : A.StreamWriter) (s : State A) : Prop where
  progress : s.progress = []
  streamed : s.streamedProgress = false
  fresh : s.phase = .opening → s.writer = w ∧ s.frames = []
  opened : s.phase ≠ .opening → s.phase.isDone = false →
    s.writer = (A.opening w).1 ∧ s.frames = (A.opening w).2
  ended : ∀ exit, s.phase = .done exit →
    s.frames = (A.opening w).2 ++ Streaming.finish A includeUsage (A.opening w).1 false exit

theorem silent_start (requestId model : String) (created : Int) :
    Silent includeUsage (A.newStreamWriter requestId model created)
      (Streaming.start A requestId model created) where
  progress := rfl
  streamed := rfl
  fresh _ := ⟨rfl, rfl⟩
  opened h := absurd rfl h
  ended := by
    intro exit hexit
    cases hexit

variable {w : A.StreamWriter} {s t : State A}

/-- A step that leaves the writer and the frames alone. -/
theorem Silent.move {phase : Streaming.Phase} (h : Silent includeUsage w s)
    (hs : s.phase ≠ .opening) (hsdone : s.phase.isDone = false) (ht : phase ≠ .opening)
    (htdone : phase.isDone = false) (hphase : t.phase = phase) (hwriter : t.writer = s.writer)
    (hframes : t.frames = s.frames) (hprogress : t.progress = s.progress)
    (hstreamed : t.streamedProgress = s.streamedProgress) : Silent includeUsage w t where
  progress := hprogress.trans h.progress
  streamed := hstreamed.trans h.streamed
  fresh heq := absurd (hphase.symm.trans heq) ht
  opened _ _ := by
    rw [hwriter, hframes]
    exact h.opened hs hsdone
  ended := by
    intro exit hexit
    rw [hphase] at hexit
    rw [hexit] at htdone
    cases htdone

/-- A step out of the loop. -/
theorem Silent.exit (h : Silent includeUsage w s) (hs : s.phase ≠ .opening)
    (hsdone : s.phase.isDone = false) (exit : Exit) :
    Silent includeUsage w (s.exit includeUsage exit) where
  progress := h.progress
  streamed := h.streamed
  fresh heq := by cases heq
  opened _ hdone := by cases hdone
  ended := by
    intro exit' hexit
    cases hexit
    obtain ⟨hwriter, hframes⟩ := h.opened hs hsdone
    show s.frames ++ Streaming.finish A includeUsage s.writer s.streamedProgress exit = _
    rw [hwriter, hframes, h.streamed]

theorem silent_step {a : Act} (h : Silent includeUsage w s) (ha : Quiet s a)
    (hstep : Streaming.step includeUsage deadline s a = some t) : Silent includeUsage w t := by
  cases moves_of_step hstep with
  | progress evt => cases ha
  | complete outcome _ hdone =>
      exact
        { progress := h.progress
          streamed := h.streamed
          fresh := h.fresh
          opened := h.opened
          ended := h.ended }
  | unregister =>
      exact
        { progress := h.progress
          streamed := h.streamed
          fresh := h.fresh
          opened := h.opened
          ended := h.ended }
  | opening hp =>
      obtain ⟨hwriter, hframes⟩ := h.fresh hp
      refine
        { progress := h.progress
          streamed := h.streamed
          fresh := fun heq => by cases heq
          opened := fun _ _ => ?_
          ended := fun exit hexit => by cases hexit }
      show (A.opening s.writer).1 = _ ∧ s.frames ++ (A.opening s.writer).2 = _
      rw [hwriter, hframes]
      exact ⟨rfl, rfl⟩
  | recv evt rest _ hq =>
      rw [h.progress] at hq
      cases hq
  | closed hp =>
      refine h.exit ?_ (Streaming.Phase.not_done_of_selects hp) _
      intro heq
      rw [heq] at hp
      cases hp
  | receive outcome hp _ =>
      exact h.move (by simp [hp]) (by simp [hp, Streaming.Phase.isDone]) (by simp) rfl rfl rfl rfl
        rfl rfl
  | timeOut hp _ =>
      exact h.move (by simp [hp]) (by simp [hp, Streaming.Phase.isDone]) (by simp) rfl rfl rfl rfl
        rfl rfl
  | expired hp =>
      exact h.move (by simp [hp]) (by simp [hp, Streaming.Phase.isDone]) (by simp) rfl rfl rfl rfl
        rfl rfl
  | removed completion hp =>
      exact h.move (by simp [hp]) (by simp [hp, Streaming.Phase.isDone]) (by simp) rfl rfl rfl rfl
        rfl rfl
  | drain completion evt rest _ hq =>
      rw [h.progress] at hq
      cases hq
  | answered outcome hp _ =>
      exact h.exit (by simp [hp]) (by simp [hp, Streaming.Phase.isDone]) _
  | late hp _ => exact h.exit (by simp [hp]) (by simp [hp, Streaming.Phase.isDone]) _

/-- The stream of a completion without progress is one session. -/
theorem frames_of_run {as : List Act} {data : Option Json} {requestId model : String}
    {created : Int}
    (hr : (Streaming.machine A includeUsage deadline).RunOf Quiet
      (Streaming.start A requestId model created) as t)
    (hend : t.phase = .done (.completed (some (.ok data)))) :
    t.frames =
      A.session requestId model created (answerWrites data) (answerStop data)
        (data.bind finalUsage) includeUsage ++ if A.emitDoneSentinel then [.done] else [] := by
  have hsilent : Silent includeUsage (A.newStreamWriter requestId model created) t :=
    hr.invariant (silent_start requestId model created) fun _ _ _ hI hok h => silent_step hI hok h
  rw [hsilent.ended _ hend, finish_eq]
  simp only [ProtocolAdapter.session, ProtocolAdapter.ending, List.append_assoc]

end Stream

/-! ## Agreement -/

section Agreement

variable {parse : String → Option Json} {data : Option Json} {toolCalls : List ToolCall}

/-- Malformed tool calls are no tool calls for a stream. -/
theorem finalToolCalls_eq (data : Option Json) :
    data.elim [] finalToolCalls = (unpackToolCalls data).getD [] := by
  cases data with
  | none => rfl
  | some v =>
      cases hcalls : v.get? "tool_calls" with
      | none => simp [finalToolCalls, unpackToolCalls, hcalls]
      | some calls =>
          by_cases hnull : calls.isNull = true <;>
            simp [finalToolCalls, unpackToolCalls, hcalls, hnull]

/-- The reply of the response of one protocol. -/
def blockingReply (parse : String → Option Json) (text : String) (toolCalls : List ToolCall) :
    Protocol → Reply
  | .openai => { text := if toolCalls = [] then text else "", calls := toolCalls.map .chat }
  | .anthropic =>
      { text
        calls := toolCalls.map fun call =>
          .messages call.id call.name (some (toolInput parse call.arguments)) }

/-- The reply of the stream of one protocol. -/
def streamedReply (parse : String → Option Json) (text : String) (toolCalls : List ToolCall) :
    Protocol → Reply
  | .openai => { text, calls := toolCalls.map fun call => .chat call.called.toolCall }
  | .anthropic =>
      { text
        calls := toolCalls.map fun call =>
          .messages call.id call.name (streamedInput parse call.arguments) }

theorem join_empty (n : Nat) : String.join (List.replicate n "") = "" := by
  induction n with
  | zero => rfl
  | succ n ih => rw [List.replicate_succ, String.join_cons, ih, String.append_empty]

theorem reply_buildBlockingResponse (p : Protocol) (now : Int) (requestId model text : String)
    (usage : Option Usage) :
    (p.buildBlockingResponse parse now requestId model text toolCalls usage).reply =
      blockingReply parse text toolCalls p := by
  cases p with
  | openai =>
      by_cases hcalls : toolCalls = [] <;>
        simp [Protocol.buildBlockingResponse, Response.reply, blockingReply, hcalls,
          ChatCompletionResponse.new, ChatCompletionResponse.withToolCalls, Message.assistant]
  | anthropic =>
      by_cases htext : text = "" <;>
        simp [Protocol.buildBlockingResponse, Response.reply, blockingReply, buildResponse, htext,
          List.filterMap_map, Function.comp_def, join_empty, ResponseBlock.content,
          ResponseBlock.call?, List.filterMap_cons]

theorem text_answerWrites (data : Option Json) :
    String.join ((answerWrites data).map Write.text) = data.elim "" finalText := by
  unfold answerWrites
  by_cases htext : data.elim "" finalText = "" <;>
    by_cases hcalls : data.elim [] finalToolCalls = [] <;> simp [htext, hcalls, Write.text]

theorem written_answerWrites (data : Option Json) :
    written 0 (answerWrites data) = (data.elim [] finalToolCalls).map ToolCall.called := by
  unfold answerWrites
  by_cases htext : data.elim "" finalText = "" <;>
    by_cases hcalls : data.elim [] finalToolCalls = [] <;> simp [htext, hcalls, written]

theorem numberings_answerWrites (data : Option Json) :
    (numberings (answerWrites data)).countP (0 < ·) ≤ 1 := by
  unfold answerWrites numberings
  by_cases htext : data.elim "" finalText = "" <;>
    by_cases hcalls : data.elim [] finalToolCalls = [] <;>
    simp [htext, hcalls, Write.isStep, Write.callCount?, List.filterMap_cons,
      List.length_pos_iff]

theorem contents_answerWrites (data : Option Json) :
    contents none (answerWrites data) =
      (if data.elim "" finalText = "" then [] else [.text (data.elim "" finalText)]) ++
        (data.elim [] finalToolCalls).map fun call => .toolUse call.called := by
  unfold answerWrites
  by_cases htext : data.elim "" finalText = "" <;>
    by_cases hcalls : data.elim [] finalToolCalls = [] <;> simp [htext, hcalls, contents]

/-- What a client puts together from the stream of a completion. -/
theorem reassemble_session (p : Protocol) (requestId model : String) (created : Int)
    (stop : StopReason) (usage : Option Usage) (includeUsage : Bool) :
    p.reassemble parse (p.adapter.session requestId model created (answerWrites data) stop usage
        includeUsage ++ if p.adapter.emitDoneSentinel then [.done] else []) =
      some (streamedReply parse (data.elim "" finalText) ((unpackToolCalls data).getD []) p) := by
  rw [← finalToolCalls_eq]
  cases p with
  | openai =>
      have htext : contentOf (Protocol.openai.adapter.session requestId model created
          (answerWrites data) stop usage includeUsage) = _ :=
        contentOf_session requestId model created (answerWrites data) stop usage includeUsage
      have hcalls : aggregate (Protocol.openai.adapter.session requestId model created
          (answerWrites data) stop usage includeUsage) = _ :=
        aggregate_session requestId model created (answerWrites data) stop usage includeUsage
          (numberings_answerWrites data)
      have hdone : ∀ frames, aggregate (frames ++ [.done]) = aggregate frames := by
        intro frames
        simp [aggregate, Frame.toolCallDeltas]
      show some ({ text := contentOf (_ ++ [.done]), calls := (aggregate (_ ++ [.done])).map _ } :
        Reply) = _
      rw [hdone, contentOf_append, htext, hcalls, text_answerWrites, written_answerWrites,
        List.map_map, List.map_map]
      show some ({ text := _ ++ "", calls := _ } : Reply) = _
      rw [String.append_empty]
      rfl
  | anthropic =>
      have hread : readStream (Protocol.anthropic.adapter.session requestId model created
          (answerWrites data) stop usage includeUsage) = _ :=
        readStream_of_wellFormed (MessagesStreamWriter.session_wellFormed requestId model created
          (answerWrites data) stop usage includeUsage)
      show (do
        let blocks ← readStream (_ ++ [])
        some ({ text := _, calls := _ } : Reply)) = _
      rw [List.append_nil, hread, contents_answerWrites]
      have htools : ∀ calls : List ToolCall,
          String.join ((calls.map fun call => Block.toolUse call.called).map Block.content) = "" ∧
            (calls.map fun call => Block.toolUse call.called).filterMap (Block.call? parse) =
              calls.map fun call =>
                .messages call.id call.name (streamedInput parse call.arguments) := by
        intro calls
        constructor
        · simp [Function.comp_def, Block.content, join_empty]
        · rw [List.filterMap_map]
          exact congrFun List.filterMap_eq_map' calls
      obtain ⟨hsilent, hcalls⟩ := htools (data.elim [] finalToolCalls)
      show some ({ text := _, calls := _ } : Reply) = some _
      rw [List.map_append, String.join_append, hsilent, String.append_empty, List.filterMap_append,
        hcalls]
      by_cases htext : data.elim "" finalText = "" <;>
        simp [streamedReply, htext, Block.content, Block.call?]

/-- Both modes agree on the text and on each call. -/
theorem replies_eq_iff (hparse : parse "" = none) (p : Protocol) (text : String)
    (toolCalls : List ToolCall) :
    streamedReply parse text toolCalls p = blockingReply parse text toolCalls p ↔
      match p with
      | .openai => (text = "" ∨ toolCalls = []) ∧ ∀ call ∈ toolCalls, call.kind = "function"
      | .anthropic => ∀ call ∈ toolCalls, call.arguments = "" ∨ (parse call.arguments).isSome := by
  cases p with
  | openai =>
      have hkind : ∀ call : ToolCall,
          ReplyCall.chat call.called.toolCall = .chat call ↔ call.kind = "function" := by
        intro call
        cases call
        simp [ToolCall.called, Called.toolCall, eq_comm]
      simp only [streamedReply, blockingReply, Reply.mk.injEq, List.map_inj_left, hkind]
      by_cases hcalls : toolCalls = [] <;> simp [hcalls]
  | anthropic =>
      have hinput : ∀ call : ToolCall,
          streamedInput parse call.arguments = some (toolInput parse call.arguments) ↔
            call.arguments = "" ∨ (parse call.arguments).isSome := by
        intro call
        by_cases hempty : call.arguments = ""
        · simp [streamedInput, toolInput, hempty, hparse]
        · cases hread : parse call.arguments <;>
            simp [streamedInput, toolInput, hempty, hread]
      simp [streamedReply, blockingReply, List.map_inj_left, hinput]

end Agreement

section Claims

variable {parse : String → Option Json} {includeUsage deadline : Bool} {p : Protocol}
  {s t : State p.adapter} {as : List Act} {data : Option Json}

/-- The response and the stream of a completion agree just if the completion is
agreeable. -/
theorem modes_agree_iff (hparse : parse "" = none)
    (hs : (Streaming.machine p.adapter includeUsage deadline).init s)
    (hr : (Streaming.machine p.adapter includeUsage deadline).RunOf Quiet s as t)
    (hend : t.phase = .done (.completed (some (.ok data)))) :
    ModesAgree parse p data t.frames ↔ Agreeable parse data p := by
  obtain ⟨requestId, model, created, rfl⟩ := hs
  rw [frames_of_run hr hend]
  unfold ModesAgree
  rw [reassemble_session]
  cases hcalls : unpackToolCalls data with
  | none =>
      have hfail : ∀ now requestId model,
          blockingResponse parse p now requestId model data = none := by
        intro now requestId model
        simp [blockingResponse, unpackCompletion, hcalls]
      cases p <;> simp [Agreeable, hcalls, hfail]
  | some toolCalls =>
      have hreply : ∀ now requestId model, ∃ response,
          blockingResponse parse p now requestId model data = some response ∧
            response.reply = blockingReply parse (data.elim "" finalText) toolCalls p := by
        intro now requestId model
        refine ⟨_, ?_, reply_buildBlockingResponse p now requestId model _ (data.bind finalUsage)⟩
        simp [blockingResponse, unpackCompletion, hcalls]
      have hiff := replies_eq_iff hparse p (data.elim "" finalText) toolCalls
      have hagree : Agreeable parse data p ↔
          streamedReply parse (data.elim "" finalText) toolCalls p =
            blockingReply parse (data.elim "" finalText) toolCalls p := by
        rw [hiff]
        cases p <;> simp [Agreeable, hcalls]
      rw [hagree, Option.getD_some]
      constructor
      · intro h
        obtain ⟨response, hresponse, heq⟩ := h 0 "" ""
        obtain ⟨response', hresponse', heq'⟩ := hreply 0 "" ""
        cases hresponse.symm.trans hresponse'
        exact (Option.some.inj heq).trans heq'
      · intro h now requestId model
        obtain ⟨response, hresponse, heq⟩ := hreply now requestId model
        exact ⟨response, hresponse, congrArg some (h.trans heq.symm)⟩

end Claims

/-- A completion with a text and a tool call. -/
def textAndCall : Json :=
  .object [("text", .string "hi"), ("tool_calls", .array [.object [("id", .string "call_1"),
    ("type", .string "function"), ("function", .object [("name", .string "save"),
      ("arguments", .string "{}")])]])]

theorem exists_textAndCall :
    ∃ t : State openAiAdapter, (Streaming.machine openAiAdapter false false).RunOf Quiet
        (Streaming.start openAiAdapter "id" "m" 0)
        [.opening, .complete (some (.ok (some textAndCall))), .receive, .removed, .finish] t ∧
      t.phase = .done (.completed (some (.ok (some textAndCall)))) ∧ contentOf t.frames = "hi" := by
  refine ⟨_, Machine.run_of_exec rfl, rfl, ?_⟩
  decide

theorem modes_agree_iff_textAndCall :
    ∃ t : State openAiAdapter,
      ModesAgree (fun _ => none) .openai (some textAndCall) t.frames ↔
        Agreeable (fun _ => none) (some textAndCall) .openai := by
  obtain ⟨t, hr, hend, -⟩ := exists_textAndCall
  exact ⟨t, modes_agree_iff (p := .openai) rfl ⟨_, _, _, rfl⟩ hr hend⟩

/-- An OpenAI response with a tool call has lost the text that the stream has. -/
theorem response_loses_text :
    ¬∀ (parse : String → Option Json) (includeUsage deadline : Bool) (p : Protocol)
      (s t : State p.adapter) (as : List Act) (data : Option Json), parse "" = none →
      (Streaming.machine p.adapter includeUsage deadline).init s →
      (Streaming.machine p.adapter includeUsage deadline).RunOf Quiet s as t →
      t.phase = .done (.completed (some (.ok data))) → ModesAgree parse p data t.frames := by
  intro h
  obtain ⟨t, hr, hend, htext⟩ := exists_textAndCall
  obtain ⟨response, hresponse, hreply⟩ :=
    h (fun _ => none) false false .openai _ t _ _ rfl ⟨_, _, _, rfl⟩ hr hend 0 "" ""
  have hlost : response.reply.text = "" := by
    cases hresponse
    rfl
  have hkept := congrArg Reply.text (Option.some.inj hreply)
  rw [hlost] at hkept
  change contentOf t.frames = "" at hkept
  exact absurd (htext.symm.trans hkept) (by decide)

end Flowgen.AiGateway
