/-
# `Flowgen.AiGateway.Streaming` — a streamed response of the gateway
(`dispatch_streaming` in `ai-agent/src/ai_gateway/server.rs`)

The task that is spawned for a streamed request opens the stream, then waits
in a `select!` for progress of the flow and for its completion until the
deadline, and at last writes what is left of the answer and the closing
frames.  The client keeps reading, so a frame that is sent is a frame it has.

The loop has these ways out: the completion, with a value or an error; a
completion whose sender was dropped; the deadline; and a progress channel
without a sender.  Only the first two tell the client the truth
(`Truthful`): the deadline leaves without closing frames, and the others close
the stream as if the flow had completed.
-/
import Flowgen.Lib.Machine
import Flowgen.Response.Progress
import Flowgen.AiGateway.Adapters

namespace Flowgen.AiGateway.Streaming

open Flowgen.Lib
open Flowgen.Response (ProgressEvent capacity)

/-! ## The end of a stream -/

/-- What the receiver of the completion gets; `none` if the sender was dropped. -/
abbrev Outcome := Option (CompletionResult Json)

/-- How the loop is left. -/
inductive Exit
  | completed (outcome : Outcome)
  /-- The progress channel has no sender any more. -/
  | closed
  | deadline

/-- The text of the final event, in its new or its legacy field. -/
def finalText (data : Json) : String :=
  match (data.get? "text").orElse fun _ => data.get? "content" with
  | some c => c.asStr.getD ""
  | none => ""

/-- Malformed tool calls are logged and dropped. -/
def finalToolCalls (data : Json) : List ToolCall :=
  match data.get? "tool_calls" with
  | some v => if v.isNull then [] else (v.decodeVec ToolCall.ofJson).getD []
  | none => []

/-- Malformed usage is logged and dropped. -/
def finalUsage (data : Json) : Option Usage :=
  match (data.get? "usage").filter fun v => !v.isNull with
  | some v => Usage.ofJson v
  | none => none

variable {A : ProtocolAdapter} {Closing : List Frame → Prop} {includeUsage deadline : Bool}

/-- The frames for the data of a completion: its text unless it was streamed,
and its tool calls. -/
def answer (A : ProtocolAdapter) (w : A.StreamWriter) (streamedProgress : Bool) (data : Json) :
    A.StreamWriter × List Frame :=
  let text := finalText data
  let (w, textFrames) :=
    if text ≠ "" ∧ streamedProgress = false then A.textDelta w text else (w, [])
  let calls := finalToolCalls data
  let (w, callFrames) := if calls = [] then (w, []) else A.toolCalls w calls
  (w, textFrames ++ callFrames)

/-- What is sent after the loop. -/
def finish (A : ProtocolAdapter) (includeUsage : Bool) (w : A.StreamWriter)
    (streamedProgress : Bool) : Exit → List Frame
  | .completed (some (.ok (some data))) =>
      let (w, frames) := answer A w streamedProgress data
      let stop := if finalToolCalls data = [] then .endTurn else .toolUse
      frames ++ A.ending w stop (finalUsage data) includeUsage
  | .completed (some (.error e)) => A.errorSseFrame e :: A.ending w .endTurn none includeUsage
  | .completed (some (.ok none)) | .completed none | .closed =>
      A.ending w .endTurn none includeUsage
  | .deadline => []

/-! ## States -/

/-- Where the task is.  The completion that is carried along is missing if the
branch was left by the deadline. -/
inductive Phase
  | opening
  /-- In the `select!` of the loop. -/
  | selecting
  /-- Waits for the lock of the registry after the deadline, in the `select!`. -/
  | expiring
  /-- Waits for the lock of the registry after the branch was taken. -/
  | removing (completion : Option Outcome)
  | draining (completion : Option Outcome)
  | done (exit : Exit)

def Phase.isDone : Phase → Bool
  | .done _ => true
  | _ => false

/-- The `select!` waits for progress. -/
def Phase.selects : Phase → Bool
  | .selecting | .expiring => true
  | _ => false

structure State (A : ProtocolAdapter) where
  writer : A.StreamWriter
  /-- What the client has read. -/
  frames : List Frame := []
  progress : List ProgressEvent := []
  /-- The registry has the entry of the stream. -/
  registered : Bool := true
  completion : Option Outcome := none
  streamedProgress : Bool := false
  phase : Phase := .opening

inductive Act
  /-- A task of the flow sends progress through the registry. -/
  | progress (evt : ProgressEvent)
  /-- The completion is signalled, or its last sender is dropped. -/
  | complete (outcome : Outcome)
  /-- The entry of the stream, and with it the last sender of progress, is gone. -/
  | unregister
  | opening
  | recv
  | closed
  | receive
  | timeOut
  /-- The lock is granted, and the entry removed. -/
  | removed
  | drain
  | finish

/-! ## Steps -/

/-- A progress event is forwarded. -/
def State.forward (s : State A) (evt : ProgressEvent) (rest : List ProgressEvent) : State A :=
  match evt.tool with
  | some step =>
      let (w, frames) := A.toolStep s.writer step.name step.arguments
      { s with writer := w, frames := s.frames ++ frames, progress := rest }
  | none =>
      let (w, frames) := A.textDelta s.writer evt.status
      { s with
        writer := w
        frames := s.frames ++ frames
        progress := rest
        streamedProgress := true }

/-- The task ends. -/
def State.exit (s : State A) (includeUsage : Bool) (exit : Exit) : State A :=
  { s with
    frames := s.frames ++ Streaming.finish A includeUsage s.writer s.streamedProgress exit
    phase := .done exit }

/-- `deadline` says whether the task has an `ack_timeout`. -/
def step (includeUsage deadline : Bool) (s : State A) : Act → Option (State A)
  | .progress evt =>
      if s.registered && !s.phase.isDone && s.progress.length < capacity then
        some { s with progress := s.progress ++ [evt] }
      else none
  | .complete outcome =>
      if s.completion.isNone && !s.phase.isDone then
        some { s with completion := some outcome }
      else none
  | .unregister => some { s with registered := false }
  | .opening =>
      match s.phase with
      | .opening =>
          let (w, frames) := A.opening s.writer
          some { s with writer := w, frames := s.frames ++ frames, phase := .selecting }
      | _ => none
  | .recv =>
      match s.phase.selects, s.progress with
      | true, evt :: rest => some { s.forward evt rest with phase := .selecting }
      | _, _ => none
  | .closed =>
      if s.phase.selects && s.progress.isEmpty && !s.registered then
        some (s.exit includeUsage .closed)
      else none
  | .receive =>
      match s.phase, s.completion with
      | .selecting, some outcome => some { s with phase := .removing (some outcome) }
      | _, _ => none
  | .timeOut =>
      -- the completion is looked at before the deadline
      match s.phase, s.completion with
      | .selecting, none => if deadline then some { s with phase := .expiring } else none
      | _, _ => none
  | .removed =>
      match s.phase with
      | .expiring => some { s with registered := false, phase := .removing none }
      | .removing completion =>
          some { s with registered := false, phase := .draining completion }
      | _ => none
  | .drain =>
      match s.phase, s.progress with
      | .draining _, evt :: rest => some (s.forward evt rest)
      | _, _ => none
  | .finish =>
      match s.phase, s.progress with
      | .draining (some outcome), [] => some (s.exit includeUsage (.completed outcome))
      | .draining none, [] => some (s.exit includeUsage .deadline)
      | _, _ => none

/-- A stream starts with a fresh writer. -/
def start (A : ProtocolAdapter) (requestId model : String) (created : Int) : State A where
  writer := A.newStreamWriter requestId model created

def machine (A : ProtocolAdapter) (includeUsage deadline : Bool) : Machine (State A) Act where
  init s := ∃ requestId model created, s = start A requestId model created
  step := step includeUsage deadline

/-! ## What a stream tells its client -/

/-- The completion of the flow was delivered, and is not an error. -/
def Delivered (completion : Option Outcome) : Prop := ∃ payload, completion = some (some (.ok payload))

/-- The stream ends with one set of closing frames, and it reports an error
unless the completion of the flow was delivered successfully. -/
structure Truthful (Closing : List Frame → Prop) (s : State A) : Prop where
  closes : ∃ body closing, s.frames = body ++ closing ∧ Closing closing ∧
    ∀ f ∈ body, f.isClosing = false
  honest : (∀ f ∈ s.frames, f.isError = false) → Delivered s.completion

/-- The steps that leave the loop with the truth in hand. -/
def Honest (s : State A) : Act → Prop
  | .receive => s.completion ≠ some none
  | .removed => s.phase.selects = false
  | .closed => Delivered s.completion
  | _ => True

/-! ## One step -/

/-- The text a progress event adds to the answer. -/
def delta (evt : ProgressEvent) : String :=
  match evt.tool with
  | some _ => ""
  | none => evt.status

section Forward

variable (s : State A) (evt : ProgressEvent) (rest : List ProgressEvent)

@[simp] theorem forward_phase : (s.forward evt rest).phase = s.phase := by
  unfold State.forward
  split <;> rfl

@[simp] theorem forward_completion : (s.forward evt rest).completion = s.completion := by
  unfold State.forward
  split <;> rfl

@[simp] theorem forward_progress : (s.forward evt rest).progress = rest := by
  unfold State.forward
  split <;> rfl

@[simp] theorem forward_registered : (s.forward evt rest).registered = s.registered := by
  unfold State.forward
  split <;> rfl

@[simp] theorem forward_streamedProgress :
    (s.forward evt rest).streamedProgress = (s.streamedProgress || evt.tool.isNone) := by
  unfold State.forward
  split <;> rename_i h <;> simp [h]

theorem forward_frames (hA : LawfulAdapter A Closing) :
    ∃ fs, Carries (delta evt) fs ∧ (s.forward evt rest).frames = s.frames ++ fs := by
  unfold State.forward delta
  split
  · exact ⟨_, hA.toolStep_carries _ _ _, rfl⟩
  · exact ⟨_, hA.textDelta_carries _ _, rfl⟩

end Forward

/-- Everything a step can be. -/
inductive Moves (includeUsage deadline : Bool) (s : State A) : Act → State A → Prop
  | progress (evt : ProgressEvent) :
      Moves includeUsage deadline s (.progress evt) { s with progress := s.progress ++ [evt] }
  | complete (outcome : Outcome) : s.completion = none → s.phase.isDone = false →
      Moves includeUsage deadline s (.complete outcome) { s with completion := some outcome }
  | unregister : Moves includeUsage deadline s .unregister { s with registered := false }
  | opening : s.phase = .opening →
      Moves includeUsage deadline s .opening
        { s with
          writer := (A.opening s.writer).1
          frames := s.frames ++ (A.opening s.writer).2
          phase := .selecting }
  | recv (evt : ProgressEvent) (rest : List ProgressEvent) : s.phase.selects = true →
      s.progress = evt :: rest →
      Moves includeUsage deadline s .recv { s.forward evt rest with phase := .selecting }
  | closed : s.phase.selects = true →
      Moves includeUsage deadline s .closed (s.exit includeUsage .closed)
  | receive (outcome : Outcome) : s.phase = .selecting → s.completion = some outcome →
      Moves includeUsage deadline s .receive { s with phase := .removing (some outcome) }
  | timeOut : s.phase = .selecting → s.completion = none →
      Moves includeUsage deadline s .timeOut { s with phase := .expiring }
  | expired : s.phase = .expiring →
      Moves includeUsage deadline s .removed { s with registered := false, phase := .removing none }
  | removed (completion : Option Outcome) : s.phase = .removing completion →
      Moves includeUsage deadline s .removed
        { s with registered := false, phase := .draining completion }
  | drain (completion : Option Outcome) (evt : ProgressEvent) (rest : List ProgressEvent) :
      s.phase = .draining completion → s.progress = evt :: rest →
      Moves includeUsage deadline s .drain (s.forward evt rest)
  | answered (outcome : Outcome) : s.phase = .draining (some outcome) → s.progress = [] →
      Moves includeUsage deadline s .finish (s.exit includeUsage (.completed outcome))
  | late : s.phase = .draining none → s.progress = [] →
      Moves includeUsage deadline s .finish (s.exit includeUsage .deadline)

theorem moves_of_step {s t : State A} {a : Act} (h : step includeUsage deadline s a = some t) :
    Moves includeUsage deadline s a t := by
  cases a with
  | progress evt =>
      obtain ⟨-, heq⟩ := Option.ite_none_right_eq_some.mp h
      cases heq
      exact .progress evt
  | complete outcome =>
      obtain ⟨hopen, heq⟩ := Option.ite_none_right_eq_some.mp h
      rw [Bool.and_eq_true, Option.isNone_iff_eq_none, Bool.not_eq_true'] at hopen
      cases heq
      exact .complete outcome hopen.1 hopen.2
  | unregister =>
      cases h
      exact .unregister
  | opening =>
      simp only [step] at h
      split at h
      · rename_i hp
        cases h
        exact .opening hp
      · cases h
  | recv =>
      simp only [step] at h
      split at h
      · rename_i evt rest hp hq
        cases h
        exact .recv evt rest hp hq
      · cases h
  | closed =>
      obtain ⟨hclosed, heq⟩ := Option.ite_none_right_eq_some.mp h
      rw [Bool.and_eq_true, Bool.and_eq_true] at hclosed
      cases heq
      exact .closed hclosed.1.1
  | receive =>
      simp only [step] at h
      split at h
      · rename_i outcome hp hc
        cases h
        exact .receive outcome hp hc
      · cases h
  | timeOut =>
      simp only [step] at h
      split at h
      · rename_i hp hc
        obtain ⟨-, heq⟩ := Option.ite_none_right_eq_some.mp h
        cases heq
        exact .timeOut hp hc
      · cases h
  | removed =>
      simp only [step] at h
      split at h
      · rename_i hp
        cases h
        exact .expired hp
      · rename_i completion hp
        cases h
        exact .removed completion hp
      · cases h
  | drain =>
      simp only [step] at h
      split at h
      · rename_i completion evt rest hp hq
        cases h
        exact .drain completion evt rest hp hq
      · cases h
  | finish =>
      simp only [step] at h
      split at h
      · rename_i outcome hp hq
        cases h
        exact .answered outcome hp hq
      · rename_i hp hq
        cases h
        exact .late hp hq
      · cases h

theorem Phase.not_done_of_selects {phase : Phase} (h : phase.selects = true) :
    phase.isDone = false := by
  cases phase with
  | selecting => rfl
  | expiring => rfl
  | opening => cases h
  | removing completion => cases h
  | draining completion => cases h
  | done exit => cases h

/-- The completion that the task carries along. -/
def Phase.taken : Phase → Option Outcome
  | .removing completion | .draining completion => completion
  | .done (.completed outcome) => some outcome
  | _ => none

/-- The frames before the end are text and tool steps, and the task ends with
what it was told. -/
structure Inv (includeUsage : Bool) (s : State A) : Prop where
  body : s.phase.isDone = false → ∀ f ∈ s.frames, f.isBody
  taken : ∀ outcome, s.phase.taken = some outcome → s.completion = some outcome
  ended : ∀ exit, s.phase = .done exit → ∃ fs w streamed, (∀ f ∈ fs, f.isBody) ∧
    s.frames = fs ++ finish A includeUsage w streamed exit

theorem inv_start {s : State A} (h : (machine A includeUsage deadline).init s) :
    Inv includeUsage s := by
  obtain ⟨requestId, model, created, rfl⟩ := h
  exact
    { body := by simp [start]
      taken := by simp [start, Phase.taken]
      ended := by simp [start] }

/-- A step that goes on writing keeps the invariant. -/
theorem Inv.write {s t : State A} (fs : List Frame) (hI : Inv includeUsage s)
    (hs : s.phase.isDone = false) (ht : t.phase.isDone = false) (hfs : ∀ f ∈ fs, f.isBody)
    (hframes : t.frames = s.frames ++ fs)
    (htaken : ∀ outcome, t.phase.taken = some outcome → t.completion = some outcome) :
    Inv includeUsage t where
  body := by
    intro _ f hf
    rw [hframes] at hf
    rcases List.mem_append.mp hf with hf | hf
    · exact hI.body hs f hf
    · exact hfs f hf
  taken := htaken
  ended := by
    intro exit hexit
    rw [hexit] at ht
    cases ht

/-- So does one that leaves. -/
theorem Inv.exit {s : State A} {exit : Exit} (hI : Inv includeUsage s)
    (hs : s.phase.isDone = false)
    (htaken : ∀ outcome, exit = .completed outcome → s.completion = some outcome) :
    Inv includeUsage (s.exit includeUsage exit) where
  body h := by cases h
  taken := by
    intro outcome h
    cases exit with
    | completed outcome' =>
        cases h
        exact htaken _ rfl
    | closed => cases h
    | deadline => cases h
  ended := by
    intro exit' h
    cases h
    exact ⟨s.frames, _, _, hI.body hs, rfl⟩

theorem inv_step (hA : LawfulAdapter A Closing) {s t : State A} {a : Act}
    (hI : Inv includeUsage s) (h : step includeUsage deadline s a = some t) :
    Inv includeUsage t := by
  cases moves_of_step h with
  | progress evt => exact ⟨hI.body, hI.taken, hI.ended⟩
  | complete outcome hnone _ =>
      refine ⟨hI.body, ?_, hI.ended⟩
      intro outcome' htaken
      have := hI.taken outcome' htaken
      rw [hnone] at this
      cases this
  | unregister => exact ⟨hI.body, hI.taken, hI.ended⟩
  | opening hp =>
      exact hI.write _ (by rw [hp]; rfl) rfl (hA.opening_carries _).1 rfl (by simp [Phase.taken])
  | recv evt rest hp _ =>
      obtain ⟨fs, hfs, hframes⟩ := forward_frames s evt rest hA
      exact hI.write _ (Phase.not_done_of_selects hp) rfl hfs.1 hframes (by simp [Phase.taken])
  | closed hp => exact hI.exit (Phase.not_done_of_selects hp) (by simp)
  | receive outcome hp hc =>
      refine hI.write [] (by rw [hp]; rfl) rfl (by simp) (by simp) ?_
      intro outcome' htaken
      cases htaken
      exact hc
  | timeOut hp _ =>
      exact hI.write [] (by rw [hp]; rfl) rfl (by simp) (by simp) (by simp [Phase.taken])
  | expired hp =>
      exact hI.write [] (by rw [hp]; rfl) rfl (by simp) (by simp) (by simp [Phase.taken])
  | removed completion hp =>
      refine hI.write [] (by rw [hp]; rfl) rfl (by simp) (by simp) ?_
      intro outcome htaken
      exact hI.taken outcome (by rw [hp]; exact htaken)
  | drain completion evt rest hp _ =>
      obtain ⟨fs, hfs, hframes⟩ := forward_frames s evt rest hA
      refine hI.write _ (by rw [hp]; rfl) (by rw [forward_phase, hp]; rfl) hfs.1 hframes ?_
      intro outcome htaken
      rw [forward_phase] at htaken
      rw [forward_completion]
      exact hI.taken outcome htaken
  | answered outcome hp _ =>
      refine hI.exit (by rw [hp]; rfl) ?_
      intro outcome' houtcome
      cases houtcome
      exact hI.taken outcome (by rw [hp]; rfl)
  | late hp _ => exact hI.exit (by rw [hp]; rfl) (by simp)

/-! ## The frames after the loop -/

/-- The answer adds the final text, unless progress was streamed. -/
theorem answer_carries (hA : LawfulAdapter A Closing) (w : A.StreamWriter) (streamed : Bool)
    (data : Json) :
    Carries (if streamed then "" else finalText data) (answer A w streamed data).2 := by
  have htext : Carries (if streamed then "" else finalText data)
      (if finalText data ≠ "" ∧ streamed = false then A.textDelta w (finalText data)
        else (w, [])).2 := by
    cases streamed with
    | true =>
        rw [if_pos rfl, if_neg (by simp)]
        exact .nil
    | false =>
        rw [if_neg Bool.false_ne_true]
        by_cases hempty : finalText data = ""
        · rw [if_neg (fun h => h.1 hempty), hempty]
          exact .nil
        · rw [if_pos ⟨hempty, rfl⟩]
          exact hA.textDelta_carries w _
  have hcalls : ∀ w : A.StreamWriter, Carries ""
      (if finalToolCalls data = [] then (w, []) else A.toolCalls w (finalToolCalls data)).2 := by
    intro w
    split
    · exact .nil
    · exact hA.toolCalls_carries w _
  rw [← String.append_empty (s := if streamed then "" else finalText data)]
  exact htext.append (hcalls _)

theorem Frame.isClosing_of_isError {f : Frame} (h : f.isError) : f.isClosing = false := by
  cases f with
  | error kind message => rfl
  | chunk c => cases h
  | event e => cases h
  | done => cases h

/-- The text of what is sent after the loop. -/
def Exit.text (streamed : Bool) : Exit → String
  | .completed (some (.ok (some data))) => if streamed then "" else finalText data
  | _ => ""

theorem ending_text (hA : LawfulAdapter A Closing) (w : A.StreamWriter) (stop : StopReason)
    (usage : Option Usage) :
    String.join ((A.ending w stop usage includeUsage).map Frame.text) = "" := by
  obtain ⟨body, closing, heq, hbody, hclosing⟩ := hA.ending_closes w stop usage includeUsage
  rw [heq, List.map_append, String.join_append, hbody.2, hA.closing_text closing hclosing]
  rfl

theorem finish_text (hA : LawfulAdapter A Closing) (w : A.StreamWriter) (streamed : Bool)
    (exit : Exit) :
    String.join ((finish A includeUsage w streamed exit).map Frame.text) = exit.text streamed := by
  match exit with
  | .deadline => rfl
  | .closed | .completed none | .completed (some (.ok none)) => exact ending_text hA w _ _
  | .completed (some (.error e)) =>
      show String.join ((A.errorSseFrame e :: A.ending w .endTurn none includeUsage).map
        Frame.text) = ""
      rw [List.map_cons, String.join_cons, hA.errorSseFrame_text, ending_text hA]
      rfl
  | .completed (some (.ok (some data))) =>
      show String.join (((answer A w streamed data).2 ++ A.ending (answer A w streamed data).1 _
        (finalUsage data) includeUsage).map Frame.text) = _
      rw [List.map_append, String.join_append, (answer_carries hA w streamed data).2,
        ending_text hA, String.append_empty]
      rfl

/-- Every way out but the deadline ends the stream with one set of closing
frames, with an error before it if and only if the flow failed. -/
theorem finish_closes (hA : LawfulAdapter A Closing) (includeUsage : Bool) (w : A.StreamWriter)
    (streamed : Bool) {exit : Exit} (hexit : exit ≠ .deadline) :
    ∃ body closing, finish A includeUsage w streamed exit = body ++ closing ∧
      Closing closing ∧ (∀ f ∈ body, f.isClosing = false) ∧
      ((∃ f ∈ body, f.isError) ↔ ∃ e, exit = .completed (some (.error e))) := by
  have hplain : ∀ (w : A.StreamWriter) stop usage (fs : List Frame), (∀ f ∈ fs, f.isBody) →
      ∃ body closing, fs ++ A.ending w stop usage includeUsage = body ++ closing ∧
        Closing closing ∧ (∀ f ∈ body, f.isClosing = false) ∧ ¬ ∃ f ∈ body, f.isError := by
    intro w stop usage fs hfs
    obtain ⟨body, closing, heq, hbody, hclosing⟩ := hA.ending_closes w stop usage includeUsage
    have hall : ∀ f ∈ fs ++ body, f.isError = false ∧ f.isClosing = false := by
      intro f hf
      have hf : f.isBody := by
        rcases List.mem_append.mp hf with hf | hf
        · exact hfs f hf
        · exact hbody.1 f hf
      simpa [Frame.isBody] using hf
    refine ⟨fs ++ body, closing, by rw [heq, List.append_assoc], hclosing,
      fun f hf => (hall f hf).2, ?_⟩
    rintro ⟨f, hf, herror⟩
    rw [(hall f hf).1] at herror
    cases herror
  cases exit with
  | deadline => exact absurd rfl hexit
  | closed =>
      obtain ⟨body, closing, heq, hclosing, hbody, hno⟩ := hplain w .endTurn none [] (by simp)
      exact ⟨body, closing, heq, hclosing, hbody, iff_of_false hno (by simp)⟩
  | completed outcome =>
      match outcome with
      | none | some (.ok none) =>
          obtain ⟨body, closing, heq, hclosing, hbody, hno⟩ := hplain w .endTurn none [] (by simp)
          exact ⟨body, closing, heq, hclosing, hbody, iff_of_false hno (by simp)⟩
      | some (.ok (some data)) =>
          obtain ⟨body, closing, heq, hclosing, hbody, hno⟩ :=
            hplain (answer A w streamed data).1
              (if finalToolCalls data = [] then .endTurn else .toolUse) (finalUsage data) _
              (answer_carries hA w streamed data).1
          exact ⟨body, closing, heq, hclosing, hbody, iff_of_false hno (by simp)⟩
      | some (.error e) =>
          obtain ⟨body, closing, heq, hclosing, hbody, -⟩ := hplain w .endTurn none [] (by simp)
          refine ⟨A.errorSseFrame e :: body, closing, congrArg _ heq, hclosing, ?_, ?_⟩
          · intro f hf
            rcases List.mem_cons.mp hf with rfl | hf
            · exact Frame.isClosing_of_isError (hA.errorSseFrame_isError e)
            · exact hbody f hf
          · exact iff_of_true ⟨_, List.mem_cons_self, hA.errorSseFrame_isError e⟩ ⟨e, rfl⟩

/-! ## Which streams end truthfully -/

/-- The way the task took, or is taking, is a truthful one. -/
def Phase.Sound (completion : Option Outcome) : Phase → Prop
  | .removing carried | .draining carried => ∃ result, carried = some (some result)
  | .done (.completed outcome) => ∃ result, outcome = some result
  | .done .closed => Delivered completion
  | .done .deadline => False
  | _ => True

/-- Without closing frames nothing ends truthfully. -/
theorem not_truthful_of_body (hA : LawfulAdapter A Closing) {s : State A}
    (h : ∀ f ∈ s.frames, f.isBody) : ¬ Truthful Closing s := by
  rintro ⟨⟨body, closing, hframes, hclosing, -⟩, -⟩
  obtain ⟨hne, hall⟩ := hA.closing_isClosing closing hclosing
  obtain ⟨f, hf⟩ := List.exists_mem_of_ne_nil closing hne
  have hbody : f.isBody := h f (by rw [hframes]; exact List.mem_append_right _ hf)
  simp [Frame.isBody, (hall f hf).1] at hbody

/-- A stream that has ended is truthful if its way out was. -/
theorem truthful_iff_sound (hA : LawfulAdapter A Closing) {s : State A} {exit : Exit}
    (hI : Inv includeUsage s) (hp : s.phase = .done exit) :
    Truthful Closing s ↔ s.phase.Sound s.completion := by
  obtain ⟨fs, w, streamed, hfs, hframes⟩ := hI.ended exit hp
  by_cases hexit : exit = .deadline
  · subst hexit
    rw [hp]
    refine iff_of_false (not_truthful_of_body hA ?_) id
    rw [hframes]
    simpa [finish] using hfs
  · obtain ⟨body, closing, hfinish, hclosing, hbody, herror⟩ :=
      finish_closes hA includeUsage w streamed hexit
    have hcloses : ∃ body closing, s.frames = body ++ closing ∧ Closing closing ∧
        ∀ f ∈ body, f.isClosing = false := by
      refine ⟨fs ++ body, closing, by rw [hframes, hfinish, List.append_assoc], hclosing, ?_⟩
      intro f hf
      rcases List.mem_append.mp hf with hf | hf
      · have := hfs f hf
        simp only [Frame.isBody, Bool.and_eq_true, Bool.not_eq_true'] at this
        exact this.2
      · exact hbody f hf
    have hsilent : (∀ f ∈ s.frames, f.isError = false) ↔
        ¬ ∃ e, exit = .completed (some (.error e)) := by
      rw [← herror, hframes, hfinish]
      constructor
      · rintro h ⟨f, hf, hferror⟩
        rw [h f (List.mem_append_right _ (List.mem_append_left _ hf))] at hferror
        cases hferror
      · intro h f hf
        rcases List.mem_append.mp hf with hf | hf
        · have := hfs f hf
          simp only [Frame.isBody, Bool.and_eq_true, Bool.not_eq_true'] at this
          exact this.1
        · rcases List.mem_append.mp hf with hf | hf
          · exact Bool.eq_false_iff.mpr fun hferror => h ⟨f, hf, hferror⟩
          · exact ((hA.closing_isClosing closing hclosing).2 f hf).2
    have htruthful : Truthful Closing s ↔
        ((¬ ∃ e, exit = .completed (some (.error e))) → Delivered s.completion) :=
      ⟨fun h he => h.honest (hsilent.mpr he), fun h => ⟨hcloses, fun he => h (hsilent.mp he)⟩⟩
    rw [htruthful, hp]
    cases exit with
    | deadline => exact absurd rfl hexit
    | closed => exact ⟨fun h => h (by simp), fun h _ => h⟩
    | completed outcome =>
        have hc : s.completion = some outcome := hI.taken outcome (by rw [hp]; rfl)
        rw [hc]
        match outcome with
        | none => simp [Delivered, Phase.Sound]
        | some (.ok payload) => simp [Delivered, Phase.Sound]
        | some (.error e) => simp [Phase.Sound]

/-- A step keeps to a truthful way if and only if it is an honest one. -/
theorem sound_step {s t : State A} {a : Act} (h : step includeUsage deadline s a = some t) :
    t.phase.Sound t.completion ↔ s.phase.Sound s.completion ∧ Honest s a := by
  cases moves_of_step h with
  | progress evt => exact (and_true _).symm.to_iff
  | complete outcome _ hdone =>
      show s.phase.Sound (some outcome) ↔ s.phase.Sound s.completion ∧ True
      cases hp : s.phase with
      | done exit =>
          rw [hp] at hdone
          cases hdone
      | _ => simp [Phase.Sound]
  | unregister => exact (and_true _).symm.to_iff
  | opening hp => simp [hp, Phase.Sound, Honest]
  | recv evt rest hp _ =>
      cases hphase : s.phase <;> simp_all [Phase.selects, Phase.Sound, Honest]
  | closed hp =>
      show Delivered s.completion ↔ s.phase.Sound s.completion ∧ Delivered s.completion
      cases hphase : s.phase <;> simp_all [Phase.selects, Phase.Sound]
  | receive outcome hp hc => cases outcome <;> simp [hp, hc, Phase.Sound, Honest]
  | timeOut hp _ => simp [hp, Phase.Sound, Honest]
  | expired hp => simp [hp, Phase.Sound, Honest, Phase.selects]
  | removed completion hp => simp [hp, Phase.Sound, Honest, Phase.selects]
  | drain completion evt rest _ _ =>
      rw [forward_phase, forward_completion]
      exact (and_true _).symm.to_iff
  | answered outcome hp _ =>
      show (∃ result, outcome = some result) ↔ s.phase.Sound s.completion ∧ True
      simp [hp, Phase.Sound]
  | late hp _ =>
      show False ↔ s.phase.Sound s.completion ∧ True
      simp [hp, Phase.Sound]

/-! ## Streams -/

variable {s t : State A} {as : List Act}

theorem inv_of_run (hA : LawfulAdapter A Closing) {ok : State A → Act → Prop}
    (hs : (machine A includeUsage deadline).init s)
    (hr : (machine A includeUsage deadline).RunOf ok s as t) : Inv includeUsage t :=
  hr.invariant (inv_start hs) fun _ _ _ hI _ h => inv_step hA hI h

theorem sound_iff_honest (hA : LawfulAdapter A Closing)
    (hs : (machine A includeUsage deadline).init s)
    (hr : (machine A includeUsage deadline).Run s as t) :
    t.phase.Sound t.completion ↔ (machine A includeUsage deadline).RunOf Honest s as t := by
  refine hr.iff_steps (I := Inv includeUsage) (P := fun s => s.phase.Sound s.completion)
    (inv_start hs) ?_ (fun _ _ _ hI h => inv_step hA hI h) (fun _ _ _ _ h => sound_step h)
  obtain ⟨requestId, model, created, rfl⟩ := hs
  trivial

/-- A stream that has ended is truthful if and only if the task did not leave
its loop by the deadline, with a completion whose sender was dropped, or on a
progress channel without a sender while no success had been delivered. -/
theorem stream_truthful_iff (p : Protocol) {s t : State p.adapter}
    (hs : (machine p.adapter includeUsage deadline).init s)
    (hr : (machine p.adapter includeUsage deadline).Run s as t) (hend : t.phase.isDone = true) :
    Truthful p.Closing t ↔ (machine p.adapter includeUsage deadline).RunOf Honest s as t := by
  rw [← sound_iff_honest p.lawful hs hr]
  cases hp : t.phase with
  | done exit =>
      rw [← hp]
      exact truthful_iff_sound p.lawful (inv_of_run p.lawful hs hr) hp
  | _ =>
      rw [hp] at hend
      cases hend

/-- The start of a stream of one protocol. -/
def sample (p : Protocol) : State p.adapter := start p.adapter "id" "model" 0

theorem stream_truthful_iff_answered :
    ∃ t : State Protocol.openai.adapter, t.phase.isDone = true ∧
      (Truthful OpenAiClosing t ↔ (machine openAiAdapter true true).RunOf Honest (sample .openai)
        [.opening, .progress ⟨"llm", "hi", none⟩, .complete (some (.ok none)), .receive, .removed,
          .drain, .finish] t) := by
  have hrun : (((machine openAiAdapter true true).exec (fun _ _ => True) (sample .openai)
      [.opening, .progress ⟨"llm", "hi", none⟩, .complete (some (.ok none)), .receive, .removed,
        .drain, .finish]).any fun t : State openAiAdapter => t.phase.isDone) = true := by decide
  obtain ⟨t, hr, hend⟩ := Machine.exists_of_exec hrun
  exact ⟨t, hend, stream_truthful_iff .openai ⟨_, _, _, rfl⟩ hr hend⟩

/-- After the deadline the client gets neither closing frames nor an error. -/
theorem stream_cut_at_deadline :
    ¬ ∀ (p : Protocol) (includeUsage deadline : Bool) (s : State p.adapter) (as : List Act)
      (t : State p.adapter), (machine p.adapter includeUsage deadline).init s →
      (machine p.adapter includeUsage deadline).Run s as t → t.phase.isDone = true →
      Truthful p.Closing t := by
  intro h
  have hrun : (((machine openAiAdapter true true).exec (fun _ _ => True) (sample .openai)
      [.opening, .progress ⟨"llm", "hi", none⟩, .recv, .timeOut, .removed, .removed,
        .finish]).any fun t : State openAiAdapter =>
          t.phase.isDone && t.frames.all Frame.isBody) = true := by decide
  obtain ⟨t, hr, ht⟩ := Machine.exists_of_exec hrun
  rw [Bool.and_eq_true, List.all_eq_true] at ht
  exact not_truthful_of_body openAiAdapter_lawful ht.2
    (h .openai true true _ _ t ⟨_, _, _, rfl⟩ hr ht.1)

end Flowgen.AiGateway.Streaming
