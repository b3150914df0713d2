/-
# `Flowgen.AiGateway.Aggregate` — what an OpenAI client puts together

The client appends the content of the chunks, and keeps one tool call for each
`index` of the deltas.  It gets back the calls that were written as long as
they have different indices.  The tool steps of a turn count theirs through,
but each `tool_calls` starts from zero again: so the calls come back if and
only if at most one of them hands out an index (`aggregate_session_iff`).
-/
import Flowgen.AiGateway.Session

namespace Flowgen.AiGateway

open Flowgen.Lib

/-! ## The client -/

def Frame.toolCallDeltas : Frame → List ToolCallDelta
  | .chunk c => c.choices.flatMap fun choice => choice.delta.toolCalls
  | _ => []

/-- The first delta of an index starts a call. -/
def ToolCallDelta.start (d : ToolCallDelta) : ToolCall where
  id := d.id.getD ""
  kind := d.kind.getD ""
  name := d.name.getD ""
  arguments := d.arguments

/-- A later one adds to its arguments. -/
def ToolCall.extend (call : ToolCall) (d : ToolCallDelta) : ToolCall where
  id := d.id.getD call.id
  kind := d.kind.getD call.kind
  name := d.name.getD call.name
  arguments := call.arguments ++ d.arguments

/-- The tool calls of a client. -/
def aggregate (frames : List Frame) : List ToolCall :=
  (gather ToolCallDelta.start ToolCall.extend []
    ((frames.flatMap Frame.toolCallDeltas).map fun d => (d.index, d))).map Prod.snd

/-- The text of a client. -/
def contentOf (frames : List Frame) : String := String.join (frames.map Frame.text)

/-! ## What was written -/

/-- A tool step or a tool call, as its author gave it. -/
structure Called where
  id : String
  name : String
  arguments : String
deriving DecidableEq

def ToolCall.called (call : ToolCall) : Called := ⟨call.id, call.name, call.arguments⟩

/-- As the client has it: the deltas say `function` whatever the kind was. -/
def Called.toolCall (c : Called) : ToolCall := ⟨c.id, "function", c.name, c.arguments⟩

@[simp] theorem Called.called_toolCall (c : Called) : c.toolCall.called = c := rfl

/-- The tool steps, the first of which is step `n`, and the tool calls. -/
def written (n : Nat) : List Write → List Called
  | [] => []
  | .textDelta _ :: xs => written n xs
  | .toolStep name arguments :: xs => ⟨s!"step_{n}", name, arguments⟩ :: written (n + 1) xs
  | .toolCalls calls :: xs => calls.map ToolCall.called ++ written n xs

def Write.isStep : Write → Bool
  | .toolStep _ _ => true
  | _ => false

def Write.callCount? : Write → Option Nat
  | .toolCalls calls => some calls.length
  | _ => none

/-- How many indices are handed out by each counter: by the one of the tool
steps, and by each `tool_calls`. -/
def numberings (xs : List Write) : List Nat :=
  xs.countP Write.isStep :: xs.filterMap Write.callCount?

/-! ## The deltas of a session -/

/-- The two deltas of a call. -/
def callItem (index : Nat) (c : Called) : Item Nat ToolCallDelta where
  key := index
  first := { index, id := some c.id, kind := some "function", name := some c.name, arguments := "" }
  more := [{ index, id := none, kind := none, name := none, arguments := c.arguments }]

/-- The calls with the indices that the writer gives them. -/
def items (n : Nat) : List Write → List (Item Nat ToolCallDelta)
  | [] => []
  | .textDelta _ :: xs => items n xs
  | .toolStep name arguments :: xs =>
      callItem n ⟨s!"step_{n}", name, arguments⟩ :: items (n + 1) xs
  | .toolCalls calls :: xs =>
      (calls.zipIdx.map fun (call, idx) => callItem idx call.called) ++ items n xs

/-- The deltas of the frames, under their indices. -/
def deltas (frames : List Frame) : List (Nat × ToolCallDelta) :=
  (frames.flatMap Frame.toolCallDeltas).map fun d => (d.index, d)

theorem deltas_append (frames frames' : List Frame) :
    deltas (frames ++ frames') = deltas frames ++ deltas frames' := by
  simp [deltas]

namespace OpenAiStreamWriter

theorem deltas_toolCallFrames (w : OpenAiStreamWriter) (index : Nat) (c : Called) :
    deltas (w.toolCallFrames index c.id c.name c.arguments) = (callItem index c).parts := rfl

theorem deltas_toolCalls (w : OpenAiStreamWriter) (calls : List (ToolCall × Nat)) :
    deltas (calls.flatMap fun (call, idx) =>
        w.toolCallFrames idx call.id call.name call.arguments) =
      (calls.map fun (call, idx) => callItem idx call.called).flatMap Item.parts := by
  induction calls with
  | nil => rfl
  | cons c calls ih =>
      rw [List.flatMap_cons, deltas_append, ih]
      exact congrArg (· ++ _) (w.deltas_toolCallFrames c.2 c.1.called)

theorem deltas_writes (w : OpenAiStreamWriter) (xs : List Write) :
    deltas (openAiAdapter.writes w xs).2 = (items w.toolStepIndex xs).flatMap Item.parts := by
  induction xs generalizing w with
  | nil => rfl
  | cons x xs ih =>
      show deltas (_ ++ (openAiAdapter.writes (openAiAdapter.write w x).1 xs).2) = _
      rw [deltas_append]
      cases x with
      | textDelta text => exact ih w
      | toolStep name arguments =>
          show _ = (callItem _ _).parts ++ (items (w.toolStepIndex + 1) xs).flatMap Item.parts
          rw [← ih { w with toolStepIndex := w.toolStepIndex + 1 }]
          rfl
      | toolCalls calls =>
          show _ = (_ ++ items w.toolStepIndex xs).flatMap Item.parts
          rw [List.flatMap_append, ← deltas_toolCalls w]
          exact congrArg (_ ++ ·) (ih (w.toolCalls calls).1)

theorem deltas_close (w : OpenAiStreamWriter) (stop : StopReason) (usage : Option Usage)
    (includeUsage : Bool) : deltas (w.close stop usage includeUsage) = [] := by
  obtain ⟨reason, hreason⟩ := w.finishChunk_eq stop
  unfold close
  rw [hreason]
  split <;> rfl

theorem contentOf_close (w : OpenAiStreamWriter) (stop : StopReason) (usage : Option Usage)
    (includeUsage : Bool) : contentOf (w.close stop usage includeUsage) = "" := by
  obtain ⟨reason, hreason⟩ := w.finishChunk_eq stop
  unfold close
  rw [hreason]
  split <;> rfl

end OpenAiStreamWriter

/-! ## Sessions -/

section Session

variable (requestId model : String) (created : Int) (xs : List Write) (stop : StopReason)
  (usage : Option Usage) (includeUsage : Bool)

theorem session_eq : ∃ w : OpenAiStreamWriter,
    openAiAdapter.session requestId model created xs stop usage includeUsage =
      (OpenAiStreamWriter.opening { requestId, model, created }).2 ++
        (openAiAdapter.writes { requestId, model, created : OpenAiStreamWriter } xs).2 ++
        w.close stop usage includeUsage :=
  ⟨_, rfl⟩

theorem deltas_session :
    deltas (openAiAdapter.session requestId model created xs stop usage includeUsage) =
      (items 0 xs).flatMap Item.parts := by
  obtain ⟨w, heq⟩ := session_eq requestId model created xs stop usage includeUsage
  rw [heq, deltas_append, deltas_append, w.deltas_close, List.append_nil,
    OpenAiStreamWriter.deltas_writes]
  rfl

theorem contentOf_append (frames frames' : List Frame) :
    contentOf (frames ++ frames') = contentOf frames ++ contentOf frames' := by
  simp [contentOf, String.join_append]

/-- The text always comes back. -/
theorem contentOf_session :
    contentOf (openAiAdapter.session requestId model created xs stop usage includeUsage) =
      String.join (xs.map Write.text) := by
  obtain ⟨w, heq⟩ := session_eq requestId model created xs stop usage includeUsage
  rw [heq, contentOf_append, contentOf_append, w.contentOf_close, String.append_empty]
  show "" ++ _ = _
  rw [String.empty_append]
  exact (writes_carries openAiAdapter_lawful _ xs).2

end Session

/-! ## Indices -/

theorem calls_items (n : Nat) (xs : List Write) :
    ((items n xs).map fun i => i.more.foldl ToolCall.extend i.first.start) =
      (written n xs).map Called.toolCall := by
  have hitem : ∀ index c,
      (callItem index c).more.foldl ToolCall.extend (callItem index c).first.start = c.toolCall := by
    intro index c
    simp [callItem, ToolCallDelta.start, ToolCall.extend, Called.toolCall]
  induction xs generalizing n with
  | nil => rfl
  | cons x xs ih =>
      cases x with
      | textDelta text => exact ih n
      | toolStep name arguments => rw [items, List.map_cons, hitem, ih, written, List.map_cons]
      | toolCalls calls =>
          rw [items, List.map_append, ih, List.map_map, written, List.map_append, List.map_map]
          refine congrArg (· ++ _) ?_
          rw [← List.zipIdx_map_fst 0 calls, List.map_map, List.zipIdx_map_fst]
          exact List.map_congr_left fun c _ => hitem c.2 c.1.called

/-- The tool steps count on, and each `tool_calls` starts from zero. -/
theorem keys_items (n : Nat) (xs : List Write) :
    ((items n xs).map Item.key).Perm
      (List.range' n (xs.countP Write.isStep) ++
        (xs.filterMap Write.callCount?).flatMap List.range) := by
  induction xs generalizing n with
  | nil => exact .refl _
  | cons x xs ih =>
      cases x with
      | textDelta text => exact ih n
      | toolStep name arguments =>
          rw [List.countP_cons_of_pos rfl, List.range'_succ]
          exact (ih (n + 1)).cons n
      | toolCalls calls =>
          have hkeys : (calls.zipIdx.map fun c => callItem c.2 c.1.called).map Item.key =
              List.range calls.length := by
            rw [List.map_map, List.range_eq_range', ← List.zipIdx_map_snd]
            rfl
          show ((_ ++ items n xs).map Item.key).Perm
            (_ ++ (List.range calls.length ++ _))
          rw [List.map_append, hkeys]
          exact ((ih n).append_left _).trans (by
            rw [← List.append_assoc, ← List.append_assoc]
            exact List.perm_append_comm.append_right _)

theorem nodup_items (xs : List Write) :
    ((items 0 xs).map Item.key).Nodup ↔ (numberings xs).countP (0 < ·) ≤ 1 := by
  rw [(keys_items 0 xs).nodup_iff, ← nodup_flatMap_range, numberings, List.flatMap_cons,
    List.range_eq_range']

section Recover

variable (requestId model : String) (created : Int) (xs : List Write) (stop : StopReason)
  (usage : Option Usage) (includeUsage : Bool)

theorem aggregate_session (hone : (numberings xs).countP (0 < ·) ≤ 1) :
    aggregate (openAiAdapter.session requestId model created xs stop usage includeUsage) =
      (written 0 xs).map Called.toolCall := by
  show (gather _ _ [] (deltas _)).map Prod.snd = _
  rw [deltas_session, gather_items _ ((nodup_items xs).mpr hone), List.map_map, ← calls_items]
  rfl

/-- Calls under one index become one. -/
theorem length_aggregate_session (hmany : ¬(numberings xs).countP (0 < ·) ≤ 1) :
    (aggregate (openAiAdapter.session requestId model created xs stop usage includeUsage)).length <
      (written 0 xs).length := by
  show ((gather _ _ [] (deltas _)).map Prod.snd).length < _
  have hlen := congrArg List.length (calls_items 0 xs)
  rw [List.length_map, List.length_map] at hlen
  rw [deltas_session, List.length_map, ← hlen]
  exact length_gather_lt (items 0 xs) (mt (nodup_items xs).mp hmany)

/-- The client recovers the tool steps and the tool calls, and the text, just
if at most one counter has handed out indices. -/
theorem aggregate_session_iff :
    ((aggregate (openAiAdapter.session requestId model created xs stop usage includeUsage)).map
        ToolCall.called = written 0 xs ∧
      contentOf (openAiAdapter.session requestId model created xs stop usage includeUsage) =
        String.join (xs.map Write.text)) ↔
      (numberings xs).countP (0 < ·) ≤ 1 := by
  rw [and_iff_left (contentOf_session requestId model created xs stop usage includeUsage)]
  constructor
  · intro heq
    by_contra hmany
    have hlt := length_aggregate_session requestId model created xs stop usage includeUsage hmany
    rw [← heq, List.length_map] at hlt
    exact lt_irrefl _ hlt
  · intro hone
    rw [aggregate_session requestId model created xs stop usage includeUsage hone, List.map_map]
    exact List.map_id _

end Recover

/-- A tool step and a tool call share index zero. -/
theorem step_then_call_merged :
    ¬∀ (requestId model : String) (created : Int) (xs : List Write) (stop : StopReason)
      (usage : Option Usage) (includeUsage : Bool),
      (aggregate (openAiAdapter.session requestId model created xs stop usage includeUsage)).map
          ToolCall.called = written 0 xs ∧
        contentOf (openAiAdapter.session requestId model created xs stop usage includeUsage) =
          String.join (xs.map Write.text) := by
  intro h
  have hcalls := (h "id" "m" 0
    [.toolStep "lookup" "{}", .toolCalls [⟨"call_1", "function", "save", "\x7b\"k\":1\x7d"⟩]]
    .toolUse none false).1
  revert hcalls
  decide

end Flowgen.AiGateway
