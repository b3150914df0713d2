/-
# `Flowgen.Completion.Streaming` — a streaming completion task behind the gateway
(`handle_streaming` in `ai-agent/src/completion.rs`, `handle_with_retry` in
`core/src/task/runner.rs`)

One request of a gateway client is handled by a streaming completion task that
is the leaf of its flow.  Each attempt reads chunks of the provider; a text
chunk goes to the client at once, as progress, and the end of the attempt
signals the final text as the completion.  An attempt that fails is repeated
by the runner, and what it has sent stays with the client.

The stream of the gateway is the one of `AiGateway.Streaming`: a step of the
task sends progress and the completion to it by the steps that module has for
them.  The passthrough branch sends no progress and is not modelled.
-/
import Flowgen.AiGateway.Streaming

namespace Flowgen.Completion

open Flowgen.Lib Flowgen.AiGateway
open Flowgen.Response (ProgressEvent)

/-! ## The task -/

/-- `agent::CompletionChunk`: what the provider streams. -/
inductive AgentChunk
  | text (text : String)
  | reasoning (text : String)
  | toolCall (name arguments : String)
  | final (text : String) (usage : Usage)
  | error (error : String)

/-- The local variables of one attempt. -/
structure Attempt where
  index : Nat := 0
  accumulatedText : String := ""
  finalUsage : Option Usage := none
  /-- The text sent as progress so far. -/
  streamed : List String := []

/-- What a task and its event fix. -/
structure Config where
  name : String
  /-- The event has a correlation id, and the flow a response registry. -/
  correlated : Bool
  maxAttempts : Option Nat
  isRetryable : String → Bool
  failureMessage : String → String

inductive TaskPhase
  | handling (attempt : Attempt)
  /-- The attempt returned an error. -/
  | failed (error : String)
  /-- The attempt returned `Ok`, or the event was forwarded as failed. -/
  | returned (attempt : Attempt)

/-- `CompletionUsage` as JSON. -/
def usageJson (u : Usage) : Json :=
  .object [("prompt_tokens", .number (.posInt u.promptTokens)),
    ("completion_tokens", .number (.posInt u.completionTokens)),
    ("total_tokens", .number (.posInt u.totalTokens))]

/-- The final `CompletionChunk` of an attempt. -/
def Attempt.finalChunk (attempt : Attempt) : Json :=
  .object ([("text", .string attempt.accumulatedText), ("is_final", .bool true),
      ("index", .number (.posInt (UInt64.ofNat attempt.index)))] ++
    match attempt.finalUsage with
    | some u => [("usage", usageJson u)]
    | none => [])

/-- `delays.next()`: what is left after one more retry. -/
def nextDelay : Option Nat → Option (Option Nat)
  | none => some none
  | some 0 => none
  | some (n + 1) => some (some n)

/-! ## The machine -/

structure State (A : ProtocolAdapter) where
  stream : Streaming.State A
  task : TaskPhase := .handling {}
  /-- The retries that are left; `none` for any number. -/
  delays : Option Nat
  cancelled : Bool := false
  /-- The text that failed attempts have sent. -/
  abandoned : List String := []

inductive Act
  /-- A step of the gateway's own task. -/
  | gateway (a : Streaming.Act)
  /-- The provider streams a chunk. -/
  | chunk (chunk : AgentChunk)
  /-- The stream of the provider ends. -/
  | endOfStream
  /-- The attempt fails anywhere else. -/
  | fail (error : String)
  | cancel
  | retry
  | giveUp

variable {A : ProtocolAdapter} {cfg : Config} {includeUsage deadline : Bool}

/-- The steps that are the gateway's own, and not those of its surroundings. -/
def ownStep : Streaming.Act → Bool
  | .progress _ | .complete _ | .unregister => false
  | _ => true

/-- `ResponseRegistry::send_progress`: waits for room, and does nothing without
an entry or a receiver. -/
def sendProgress (includeUsage deadline : Bool) (cfg : Config) (stream : Streaming.State A)
    (status : String) (tool : Option Response.ToolStep) : Option (Streaming.State A) :=
  if cfg.correlated && stream.registered && !stream.phase.isDone then
    Streaming.step includeUsage deadline stream (.progress ⟨cfg.name, status, tool⟩)
  else some stream

/-- The completion is signalled, or its sender dropped; nothing happens if the
receiver is gone. -/
def signal (includeUsage deadline : Bool) (stream : Streaming.State A)
    (outcome : Streaming.Outcome) : Streaming.State A :=
  (Streaming.step includeUsage deadline stream (.complete outcome)).getD stream

/-- The attempt returns an error. -/
def State.failWith (s : State A) (attempt : Attempt) (error : String) : State A :=
  { s with task := .failed error, abandoned := s.abandoned ++ attempt.streamed }

/-- One chunk of the provider. -/
def State.handleChunk (includeUsage deadline : Bool) (cfg : Config) (s : State A)
    (attempt : Attempt) : AgentChunk → Option (State A)
  | .text text =>
      (sendProgress includeUsage deadline cfg s.stream text none).map fun stream =>
        { s with
          stream
          task := .handling
            { attempt with
              index := attempt.index + 1
              accumulatedText := attempt.accumulatedText ++ text
              streamed := attempt.streamed ++ if cfg.correlated then [text] else [] } }
  | .reasoning _ =>
      some { s with task := .handling { attempt with index := attempt.index + 1 } }
  | .toolCall name arguments =>
      (sendProgress includeUsage deadline cfg s.stream "" (some ⟨name, arguments⟩)).map
        fun stream => { s with stream }
  | .final text usage =>
      some
        { s with
          task := .handling { attempt with accumulatedText := text, finalUsage := some usage } }
  | .error error => some (s.failWith attempt error)

def step (includeUsage deadline : Bool) (cfg : Config) (s : State A) : Act → Option (State A)
  | .gateway a =>
      if ownStep a then
        (Streaming.step includeUsage deadline s.stream a).map fun stream => { s with stream }
      else none
  | .chunk chunk =>
      match s.task with
      | .handling attempt =>
          if s.cancelled then
            some
              { s with
                stream := signal includeUsage deadline s.stream none
                task := .returned attempt }
          else s.handleChunk includeUsage deadline cfg attempt chunk
      | _ => none
  | .endOfStream =>
      match s.task with
      | .handling attempt =>
          some
            { s with
              stream := signal includeUsage deadline s.stream (some (.ok (some attempt.finalChunk)))
              task := .returned attempt }
      | _ => none
  | .fail error =>
      match s.task with
      | .handling attempt => some (s.failWith attempt error)
      | _ => none
  | .cancel => some { s with cancelled := true }
  | .retry =>
      match s.task, nextDelay s.delays with
      | .failed error, some delays =>
          if cfg.isRetryable error && !s.cancelled then
            some { s with task := .handling {}, delays }
          else none
      | _, _ => none
  | .giveUp =>
      match s.task with
      | .failed error =>
          if cfg.isRetryable error && !s.cancelled && (nextDelay s.delays).isSome then none
          else
            some
              { s with
                stream := signal includeUsage deadline s.stream
                  (some (.error (cfg.failureMessage error)))
                task := .returned {} }
      | _ => none

/-- A request starts with a fresh stream and the first attempt. -/
def machine (A : ProtocolAdapter) (includeUsage deadline : Bool) (cfg : Config) :
    Machine (State A) Act where
  init s := ∃ requestId model created,
    s = { stream := Streaming.start A requestId model created
          delays := cfg.maxAttempts.map fun max => max - 1 }
  step := step includeUsage deadline cfg

/-- What the client has put together from its frames. -/
def deliveredText (st : Streaming.State A) : String := String.join (st.frames.map Frame.text)

/-! ## What the client has been told -/

/-- The text of the progress that waits in the channel. -/
def pending (st : Streaming.State A) : List String :=
  st.progress.filterMap fun evt => if evt.tool.isNone then some evt.status else none

/-- The text that the attempts have sent. -/
def State.sent (s : State A) : List String :=
  s.abandoned ++
    match s.task with
    | .handling attempt | .returned attempt => attempt.streamed
    | .failed _ => []

/-- The client has been told what was sent, but for what waits. -/
def Heard (sent : List String) (st : Streaming.State A) : Prop :=
  ∃ forwarded, sent = forwarded ++ pending st ∧
    deliveredText st = String.join forwarded ∧ (st.streamedProgress = true ↔ forwarded ≠ [])

/-- The task of the gateway still listens, or will end with a completion. -/
def listening : Streaming.Phase → Bool
  | .opening | .selecting | .expiring => true
  | .removing completion | .draining completion => completion.isSome
  | .done _ => false

variable {Closing : List Frame → Prop} {sent : List String} {st st' : Streaming.State A}

theorem heard_forward (hA : LawfulAdapter A Closing) {evt : ProgressEvent}
    {rest : List ProgressEvent} (h : Heard sent st) (hp : st.progress = evt :: rest) :
    Heard sent (st.forward evt rest) := by
  obtain ⟨forwarded, hsent, htext, hstreamed⟩ := h
  obtain ⟨fs, hfs, hframes⟩ := Streaming.forward_frames st evt rest hA
  have hpending : pending st = (if evt.tool.isNone then [evt.status] else []) ++
      pending (st.forward evt rest) := by
    rw [pending, pending, hp, Streaming.forward_progress, List.filterMap_cons]
    split <;> rename_i hnone <;> split at hnone <;> simp_all
  have hdelta : Streaming.delta evt = String.join (if evt.tool.isNone then [evt.status] else []) := by
    rw [Streaming.delta]
    split <;> rename_i htool <;> simp [htool]
  refine ⟨forwarded ++ if evt.tool.isNone then [evt.status] else [], ?_, ?_, ?_⟩
  · rw [hsent, hpending, List.append_assoc]
  · rw [deliveredText, hframes, List.map_append, String.join_append, String.join_append, ← deliveredText,
      htext, hfs.2, hdelta]
  · rw [Streaming.forward_streamedProgress, Bool.or_eq_true, hstreamed]
    cases hnone : evt.tool.isNone <;> simp

theorem heard_write {fs : List Frame} (h : Heard sent st) (hfs : Carries "" fs)
    (hframes : st'.frames = st.frames ++ fs) (hprogress : st'.progress = st.progress)
    (hstreamed : st'.streamedProgress = st.streamedProgress) : Heard sent st' := by
  obtain ⟨forwarded, hsent, htext, hne⟩ := h
  refine ⟨forwarded, ?_, ?_, ?_⟩
  · rw [hsent, pending, pending, hprogress]
  · rw [deliveredText, hframes, List.map_append, String.join_append, ← deliveredText, htext, hfs.2,
      String.append_empty]
  · rw [hstreamed, hne]

/-- Where the stream stands between the task and the client. -/
structure Telling (includeUsage : Bool) (sent : List String) (st : Streaming.State A) : Prop where
  inv : Streaming.Inv includeUsage st
  registered : st.completion = none → listening st.phase = true → st.registered = true
  heard : listening st.phase = true → Heard sent st
  ended : ∀ outcome, st.phase = .done (.completed outcome) →
    deliveredText st = String.join sent ++ Streaming.Exit.text (!sent.isEmpty) (.completed outcome)

theorem telling_start (requestId model : String) (created : Int) :
    Telling includeUsage [] (Streaming.start A requestId model created) where
  inv := Streaming.inv_start (show (Streaming.machine A includeUsage false).init _ from
    ⟨requestId, model, created, rfl⟩)
  registered _ _ := rfl
  heard _ := ⟨[], rfl, rfl, by simp [Streaming.start]⟩
  ended _ h := by cases h

/-- A gateway that is gone without a completion has nothing more to tell. -/
theorem telling_over (hinv : Streaming.Inv includeUsage st) (hl : listening st.phase = false)
    (hended : ∀ outcome, st.phase ≠ .done (.completed outcome)) :
    Telling includeUsage sent st where
  inv := hinv
  registered _ hl' := absurd (hl.symm.trans hl') Bool.false_ne_true
  heard hl' := absurd (hl.symm.trans hl') Bool.false_ne_true
  ended outcome hphase := absurd hphase (hended outcome)

/-- With nothing left in the queue, the frames say what was sent and what the
outcome adds. -/
theorem finish_tells (hA : LawfulAdapter A Closing) (exit : Streaming.Exit) (h : Heard sent st)
    (hq : st.progress = []) :
    String.join ((st.frames ++
      Streaming.finish A includeUsage st.writer st.streamedProgress exit).map Frame.text) =
        String.join sent ++ exit.text (!sent.isEmpty) := by
  obtain ⟨forwarded, hsent, htext, hstreamed⟩ := h
  have hforwarded : sent = forwarded := by rw [hsent, pending, hq]; simp
  have hflag : st.streamedProgress = !sent.isEmpty := by
    rw [Bool.eq_iff_iff, hstreamed, hforwarded]
    simp
  rw [List.map_append, String.join_append, ← deliveredText, htext, Streaming.finish_text hA, hflag,
    hforwarded]

theorem listening_of_selects {phase : Streaming.Phase} (h : phase.selects = true) :
    listening phase = true := by
  cases phase with
  | selecting => rfl
  | expiring => rfl
  | opening => cases h
  | removing completion => cases h
  | draining completion => cases h
  | done exit => cases h

/-- A step of the gateway's own task passes on what was sent. -/
theorem telling_own (hA : LawfulAdapter A Closing) {a : Streaming.Act}
    (h : Telling includeUsage sent st) (ha : ownStep a = true)
    (hs : Streaming.step includeUsage deadline st a = some st') :
    Telling includeUsage sent st' := by
  have hinv : Streaming.Inv includeUsage st' := Streaming.inv_step hA h.inv hs
  cases Streaming.moves_of_step hs with
  | progress evt => cases ha
  | complete outcome _ _ => cases ha
  | unregister => cases ha
  | opening hp =>
      refine ⟨hinv, fun hc _ => h.registered hc (by rw [hp]; rfl), fun _ => ?_, fun _ h => by cases h⟩
      exact heard_write (h.heard (by rw [hp]; rfl)) (hA.opening_carries _) rfl rfl rfl
  | recv evt rest hp hq =>
      have hlisten := listening_of_selects hp
      refine ⟨hinv, ?_, fun _ => ?_, fun _ h => by cases h⟩
      · intro hc _
        rw [Streaming.forward_registered]
        exact h.registered (by rwa [Streaming.forward_completion] at hc) hlisten
      · exact heard_forward hA (h.heard hlisten) hq
  | closed _ => exact telling_over hinv rfl fun outcome h => by cases h
  | receive outcome hp hc =>
      refine ⟨hinv, ?_, fun _ => h.heard (by rw [hp]; rfl), fun _ h => by cases h⟩
      intro hnone
      rw [hc] at hnone
      cases hnone
  | timeOut hp hc =>
      have hlisten : listening st.phase = true := by rw [hp]; rfl
      exact ⟨hinv, fun _ _ => h.registered hc hlisten, fun _ => h.heard hlisten,
        fun _ h => by cases h⟩
  | expired _ => exact telling_over hinv rfl fun outcome h => by cases h
  | removed completion hp =>
      refine ⟨hinv, ?_, fun hl => h.heard (by rw [hp]; exact hl), fun _ h => by cases h⟩
      intro hc hl
      obtain ⟨outcome, rfl⟩ := Option.isSome_iff_exists.mp hl
      have := h.inv.taken outcome (by rw [hp]; rfl)
      rw [hc] at this
      cases this
  | drain completion evt rest hp hq =>
      refine ⟨hinv, ?_, ?_, ?_⟩
      · intro hc hl
        rw [Streaming.forward_completion] at hc
        rw [Streaming.forward_phase] at hl
        rw [Streaming.forward_registered]
        exact h.registered hc hl
      · intro hl
        rw [Streaming.forward_phase] at hl
        exact heard_forward hA (h.heard hl) hq
      · intro outcome hdone
        rw [Streaming.forward_phase, hp] at hdone
        cases hdone
  | answered outcome hp hq =>
      refine ⟨hinv, fun _ h => by (cases h), fun h => by (cases h), ?_⟩
      intro outcome' hdone
      cases hdone
      exact finish_tells hA _ (h.heard (by rw [hp]; rfl)) hq
  | late _ _ => exact telling_over hinv rfl fun outcome h => by cases h

/-- Progress is queued while the gateway listens, and lost afterwards. -/
theorem sendProgress_cases {status : String} {tool : Option Response.ToolStep}
    (hs : sendProgress includeUsage deadline cfg st status tool = some st') :
    (cfg.correlated = true ∧ st' = { st with progress := st.progress ++ [⟨cfg.name, status, tool⟩] } ∧
        Streaming.step includeUsage deadline st (.progress ⟨cfg.name, status, tool⟩) = some st') ∨
      (st' = st ∧ (cfg.correlated = true → st.registered = true → st.phase.isDone = true)) := by
  rw [sendProgress] at hs
  split at hs
  · rename_i hopen
    simp only [Bool.and_eq_true, Bool.not_eq_true'] at hopen
    refine Or.inl ⟨hopen.1.1, ?_, hs⟩
    simp only [Streaming.step] at hs
    split at hs
    · cases hs
      rfl
    · cases hs
  · rename_i hclosed
    cases hs
    refine Or.inr ⟨rfl, ?_⟩
    intro hc hreg
    cases hdone : st.phase.isDone
    · exact absurd (by rw [hc, hreg, hdone]; rfl) hclosed
    · rfl

/-- A text chunk, or a tool step, is told like what was sent before it, as long
as the flow has not completed. -/
theorem telling_send (hA : LawfulAdapter A Closing) {status : String}
    {tool : Option Response.ToolStep} (h : Telling includeUsage sent st) (hc : st.completion = none)
    (hs : sendProgress includeUsage deadline cfg st status tool = some st') :
    Telling includeUsage
      (sent ++ if cfg.correlated && tool.isNone then [status] else []) st' := by
  rcases sendProgress_cases hs with ⟨hcorr, rfl, hstep⟩ | ⟨rfl, hdeaf⟩
  · refine ⟨Streaming.inv_step hA h.inv hstep, h.registered, ?_, ?_⟩
    · intro hl
      obtain ⟨forwarded, hsent, htext, hstreamed⟩ := h.heard hl
      refine ⟨forwarded, ?_, htext, hstreamed⟩
      rw [hsent, hcorr, List.append_assoc]
      cases tool <;> simp [pending]
    · intro outcome hdone
      have := h.inv.taken outcome (by rw [hdone]; rfl)
      rw [hc] at this
      cases this
  · have hgone : cfg.correlated = true → listening st'.phase = false := by
      intro hcorr
      by_contra hl
      rw [Bool.not_eq_false] at hl
      have hdone := hdeaf hcorr (h.registered hc hl)
      cases hp : st'.phase <;> simp_all [listening, Streaming.Phase.isDone]
    refine ⟨h.inv, h.registered, ?_, ?_⟩
    · intro hl
      cases hcorr : cfg.correlated with
      | false => simpa using h.heard hl
      | true =>
          rw [hgone hcorr] at hl
          cases hl
    · intro outcome hdone
      have := h.inv.taken outcome (by rw [hdone]; rfl)
      rw [hc] at this
      cases this

/-- A signal reaches the gateway, or finds nobody. -/
theorem signal_cases (includeUsage deadline : Bool) (st : Streaming.State A)
    (outcome : Streaming.Outcome) :
    (st.completion = none ∧ signal includeUsage deadline st outcome =
        { st with completion := some outcome } ∧
        Streaming.step includeUsage deadline st (.complete outcome) =
          some { st with completion := some outcome }) ∨
      signal includeUsage deadline st outcome = st := by
  rw [signal, Streaming.step]
  split
  · rename_i hopen
    rw [Bool.and_eq_true, Option.isNone_iff_eq_none] at hopen
    exact Or.inl ⟨hopen.1, rfl, rfl⟩
  · exact Or.inr rfl

theorem telling_signal (hA : LawfulAdapter A Closing) {outcome : Streaming.Outcome}
    (h : Telling includeUsage sent st) :
    Telling includeUsage sent (signal includeUsage deadline st outcome) := by
  rcases signal_cases includeUsage deadline st outcome with ⟨hc, heq, hstep⟩ | heq
  · rw [heq]
    refine ⟨Streaming.inv_step hA h.inv hstep, fun h => by (cases h), h.heard, h.ended⟩
  · rw [heq]
    exact h

theorem own_completion {a : Streaming.Act} (ha : ownStep a = true)
    (hs : Streaming.step includeUsage deadline st a = some st') :
    st'.completion = st.completion := by
  cases Streaming.moves_of_step hs with
  | complete outcome _ _ => cases ha
  | recv evt rest _ _ => exact Streaming.forward_completion _ _ _
  | drain completion evt rest _ _ => exact Streaming.forward_completion _ _ _
  | _ => rfl

theorem sendProgress_completion {status : String} {tool : Option Response.ToolStep}
    (hs : sendProgress includeUsage deadline cfg st status tool = some st') :
    st'.completion = st.completion := by
  rcases sendProgress_cases hs with ⟨-, rfl, -⟩ | ⟨rfl, -⟩ <;> rfl

/-! ## Runs -/

/-- The task has come to its end. -/
def TaskPhase.over : TaskPhase → Bool
  | .returned _ => true
  | _ => false

/-- Nothing but the task completes the request, and it does so once. -/
structure Inv (includeUsage : Bool) (s : State A) : Prop where
  telling : Telling includeUsage s.sent s.stream
  waiting : s.task.over = false → s.stream.completion = none
  answered : ∀ data, s.stream.completion = some (some (.ok (some data))) →
    ∃ attempt, s.task = .returned attempt ∧ data = attempt.finalChunk

variable {s t : State A} {as : List Act}

theorem inv_start (hs : (machine A includeUsage deadline cfg).init s) : Inv includeUsage s := by
  obtain ⟨requestId, model, created, rfl⟩ := hs
  exact
    { telling := telling_start requestId model created
      waiting := fun _ => rfl
      answered := by
        intro data h
        cases h }

/-- The attempt goes on, with another stream and more text sent. -/
theorem Inv.attempt {attempt attempt' : Attempt} {stream : Streaming.State A}
    (hI : Inv includeUsage s) (htask : s.task = .handling attempt)
    (htelling : Telling includeUsage (s.abandoned ++ attempt'.streamed) stream)
    (hc : stream.completion = s.stream.completion) :
    Inv includeUsage { s with stream, task := .handling attempt' } where
  telling := htelling
  waiting _ := by
    show stream.completion = none
    rw [hc]
    exact hI.waiting (by rw [htask]; rfl)
  answered := by
    intro data h
    rw [hc, hI.waiting (by rw [htask]; rfl)] at h
    cases h

/-- The attempt has failed, and its text stays with the client. -/
theorem Inv.fail {attempt : Attempt} {error : String} (hI : Inv includeUsage s)
    (htask : s.task = .handling attempt) : Inv includeUsage (s.failWith attempt error) where
  telling := by
    have hsent : (s.failWith attempt error).sent = s.sent := by
      simp [State.failWith, State.sent, htask]
    rw [hsent]
    exact hI.telling
  waiting _ := hI.waiting (by rw [htask]; rfl)
  answered := by
    intro data h
    rw [show (s.failWith attempt error).stream = s.stream from rfl,
      hI.waiting (by rw [htask]; rfl)] at h
    cases h

/-- The task ends with a signal. -/
theorem Inv.over (hA : LawfulAdapter A Closing) {attempt : Attempt} {outcome : Streaming.Outcome}
    (hI : Inv includeUsage s) (htask : s.task.over = false)
    (hsent : s.sent = s.abandoned ++ attempt.streamed)
    (hok : ∀ data, outcome = some (.ok (some data)) → data = attempt.finalChunk) :
    Inv includeUsage
      { s with
        stream := signal includeUsage deadline s.stream outcome
        task := .returned attempt } where
  telling := by
    have htelling : Telling includeUsage s.sent (signal includeUsage deadline s.stream outcome) :=
      telling_signal hA hI.telling
    rw [hsent] at htelling
    exact htelling
  waiting h := by cases h
  answered := by
    intro data h
    rcases signal_cases includeUsage deadline s.stream outcome with ⟨-, heq, -⟩ | heq
    · rw [heq] at h
      exact ⟨attempt, rfl, hok data (Option.some.inj h)⟩
    · rw [heq, hI.waiting htask] at h
      cases h

theorem inv_step (hA : LawfulAdapter A Closing) {a : Act} (hI : Inv includeUsage s)
    (h : step includeUsage deadline cfg s a = some t) : Inv includeUsage t := by
  cases a with
  | gateway a =>
      simp only [step] at h
      split at h
      · rename_i ha
        obtain ⟨stream, hs, rfl⟩ := Option.map_eq_some_iff.mp h
        have hc := own_completion ha hs
        refine ⟨telling_own hA hI.telling ha hs, ?_, ?_⟩
        · intro hover
          exact hc.trans (hI.waiting hover)
        · intro data hdata
          exact hI.answered data (hc.symm.trans hdata)
      · cases h
  | chunk chunk =>
      simp only [step] at h
      split at h
      · rename_i attempt htask
        have hsent : s.sent = s.abandoned ++ attempt.streamed := by rw [State.sent, htask]
        have hnone : s.stream.completion = none := hI.waiting (by rw [htask]; rfl)
        split at h
        · cases h
          exact hI.over hA (by rw [htask]; rfl) hsent (by simp)
        · cases chunk with
          | text text =>
              obtain ⟨stream, hs, rfl⟩ := Option.map_eq_some_iff.mp h
              refine hI.attempt htask ?_ (sendProgress_completion hs)
              have htelling := telling_send hA hI.telling hnone hs
              rw [hsent, List.append_assoc] at htelling
              simpa using htelling
          | reasoning text =>
              cases h
              exact hI.attempt htask (hsent ▸ hI.telling) rfl
          | toolCall name arguments =>
              obtain ⟨stream, hs, rfl⟩ := Option.map_eq_some_iff.mp h
              have htelling := telling_send hA hI.telling hnone hs
              rw [hsent] at htelling
              have := hI.attempt htask (by simpa using htelling)
                (sendProgress_completion hs)
              rw [← htask] at this
              exact this
          | final text usage =>
              cases h
              exact hI.attempt htask (hsent ▸ hI.telling) rfl
          | error error =>
              cases h
              exact hI.fail htask
      · cases h
  | endOfStream =>
      simp only [step] at h
      split at h
      · rename_i attempt htask
        cases h
        refine hI.over hA (by rw [htask]; rfl) (by rw [State.sent, htask]) ?_
        intro data hdata
        exact (Option.some.inj (Except.ok.inj (Option.some.inj hdata))).symm
      · cases h
  | fail error =>
      simp only [step] at h
      split at h
      · rename_i attempt htask
        cases h
        exact hI.fail htask
      · cases h
  | cancel =>
      cases h
      exact ⟨hI.telling, hI.waiting, hI.answered⟩
  | retry =>
      simp only [step] at h
      split at h
      · rename_i error delays htask hnext
        split at h
        · cases h
          have hnone : s.stream.completion = none := hI.waiting (by rw [htask]; rfl)
          refine ⟨?_, fun _ => hnone, ?_⟩
          · have htelling := hI.telling
            rw [State.sent, htask] at htelling
            exact htelling
          · intro data hdata
            rw [hnone] at hdata
            cases hdata
        · cases h
      · cases h
  | giveUp =>
      simp only [step] at h
      split at h
      · rename_i error htask
        split at h
        · cases h
        · cases h
          exact hI.over hA (by rw [htask]; rfl) (by rw [State.sent, htask]) (by simp)
      · cases h

@[simp] theorem finalText_finalChunk (attempt : Attempt) :
    Streaming.finalText attempt.finalChunk = attempt.accumulatedText := rfl

/-- The data with which the stream has ended, if it ended with any. -/
def answer? (st : Streaming.State A) : Option Json :=
  match st.phase with
  | .done (.completed (some (.ok (some data)))) => some data
  | _ => none

theorem phase_of_answer? {data : Json} (h : answer? st = some data) :
    st.phase = .done (.completed (some (.ok (some data)))) := by
  rw [answer?] at h
  split at h
  · rename_i hp
    cases h
    exact hp
  · cases h

/-- What the client has in the end is what all attempts have sent, or the final
text if they sent none.  So it is the final text exactly if the attempts sent
nothing, or just that text together; and for a provider whose final text
repeats what it streamed, exactly if the failed attempts sent no text. -/
theorem delivered_text_iff (p : Protocol) {s t : State p.adapter} {data : Json}
    (hs : (machine p.adapter includeUsage deadline cfg).init s)
    (hr : (machine p.adapter includeUsage deadline cfg).Run s as t)
    (hend : answer? t.stream = some data) :
    ∃ attempt, t.task = .returned attempt ∧ Streaming.finalText data = attempt.accumulatedText ∧
      (deliveredText t.stream = Streaming.finalText data ↔
        t.sent = [] ∨ String.join t.sent = attempt.accumulatedText) ∧
      (attempt.accumulatedText = String.join attempt.streamed →
        (deliveredText t.stream = Streaming.finalText data ↔ String.join t.abandoned = "")) := by
  have hI : Inv includeUsage t :=
    hr.invariant (inv_start hs) fun _ _ _ hI _ h => inv_step p.lawful hI h
  replace hend := phase_of_answer? hend
  obtain ⟨attempt, htask, rfl⟩ :=
    hI.answered data (hI.telling.inv.taken _ (by rw [hend]; rfl))
  have htext := hI.telling.ended _ hend
  have hsent : t.sent = t.abandoned ++ attempt.streamed := by rw [State.sent, htask]
  have hiff : deliveredText t.stream = attempt.accumulatedText ↔
      t.sent = [] ∨ String.join t.sent = attempt.accumulatedText := by
    rw [htext]
    cases hcase : t.sent with
    | nil => simp [Streaming.Exit.text]
    | cons text rest => simp [Streaming.Exit.text]
  refine ⟨attempt, htask, rfl, hiff, ?_⟩
  intro hrepeats
  rw [finalText_finalChunk, hiff, hsent, hrepeats, String.join_append]
  constructor
  · rintro (hnil | heq)
    · rw [(List.append_eq_nil_iff.mp hnil).1]
      rfl
    · exact String.append_eq_right_iff.mp heq
  · intro hempty
    rw [hempty]
    exact Or.inr String.empty_append

/-- A task of two attempts, and a request for it. -/
def sampleConfig : Config where
  name := "llm"
  correlated := true
  maxAttempts := some 2
  isRetryable _ := true
  failureMessage error := error

def sample : State Protocol.openai.adapter where
  stream := Streaming.sample .openai
  delays := some 1

/-- A provider that streams its answer in two parts. -/
def answered : List Act :=
  [.gateway .opening, .chunk (.text "Hel"), .chunk (.text "lo"), .chunk (.final "Hello" ⟨1, 1, 2⟩),
    .endOfStream, .gateway .receive, .gateway .removed, .gateway .drain, .gateway .drain,
    .gateway .finish]

/-- The same after an attempt that failed in the middle. -/
def retried : List Act :=
  [.gateway .opening, .chunk (.text "Hel"), .chunk (.error "connection reset"), .retry,
    .chunk (.text "Hello"), .chunk (.final "Hello" ⟨1, 1, 2⟩), .endOfStream, .gateway .recv,
    .gateway .receive, .gateway .removed, .gateway .drain, .gateway .finish]

theorem delivered_text_iff_answered :
    ∃ (t : State Protocol.openai.adapter) (data : Json) (attempt : Attempt),
      answer? t.stream = some data ∧ t.task = .returned attempt ∧
        (deliveredText t.stream = Streaming.finalText data ↔
          t.sent = [] ∨ String.join t.sent = attempt.accumulatedText) := by
  have hrun : (((machine openAiAdapter true true sampleConfig).exec (fun _ _ => True) sample
      answered).any fun t : State openAiAdapter => (answer? t.stream).isSome) = true := by decide
  obtain ⟨t, hr, hend⟩ := Machine.exists_of_exec hrun
  obtain ⟨data, hdata⟩ := Option.isSome_iff_exists.mp hend
  obtain ⟨attempt, htask, -, hiff, -⟩ :=
    delivered_text_iff .openai ⟨_, _, _, rfl⟩ hr hdata
  exact ⟨t, data, attempt, hdata, htask, hiff⟩

/-- The client of a retried completion gets the failed attempt as well. -/
theorem delivered_text_repeated :
    ¬ ∀ (p : Protocol) (includeUsage deadline : Bool) (cfg : Config) (s : State p.adapter)
      (as : List Act) (t : State p.adapter) (data : Json),
      (machine p.adapter includeUsage deadline cfg).init s →
      (machine p.adapter includeUsage deadline cfg).Run s as t →
      answer? t.stream = some data → deliveredText t.stream = Streaming.finalText data := by
  intro h
  have hrun : (((machine openAiAdapter true true sampleConfig).exec (fun _ _ => True) sample
      retried).any fun t : State openAiAdapter => (answer? t.stream).any fun data =>
        deliveredText t.stream != Streaming.finalText data) = true := by decide
  obtain ⟨t, hr, ht⟩ := Machine.exists_of_exec hrun
  obtain ⟨data, hdata, hne⟩ := (Option.any_eq_true _ _).mp ht
  exact bne_iff_ne.mp hne (h .openai true true sampleConfig _ _ t data ⟨_, _, _, rfl⟩ hr hdata)

end Flowgen.Completion
