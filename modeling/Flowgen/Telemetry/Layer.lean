/-
# `Flowgen.Telemetry.Layer` — from log events to activity (`core/src/flow/activity_layer.rs`)

A layer on the tracing subscriber turns log events into the activity of the flows.  It keeps
on the spans which flow and task they belong to and when a handle was started; for every
event it walks the spans around it from the root.  It also writes the time a handle took so
far onto the handle's span, for the log lines.

A formatter repeats a field that is recorded again, so the time is to be recorded once for
each handle; a mark on the span says that it has been.  The mark goes to the innermost handle
without one, the time to the span that the event was logged in.  Every handle is recorded at
most once, by its first event, exactly as long as no handle runs inside another
(`recorded_once_iff`).

A span's parent never changes, so the spans around it are kept with it, from the root to the
span itself.  Only `task.handle` declares the field `duration_ms`; on other spans recording it
does nothing.
-/
import Flowgen.Telemetry.Activity

namespace Flowgen.Telemetry.Layer

/-! ## Spans -/

def taskHandleSpan : String := "task.handle"

def flowRunSpan : String := "flow.run"

def taskRunSpan : String := "task.run"

/-- What a span is created with; of the fields those that `FieldCapture` takes. -/
structure Attributes where
  name : String
  parent : Option Nat
  flow : Option String := none
  task : Option String := none
  taskType : Option String := none
deriving DecidableEq

/-- A span with its extensions, and the values of `duration_ms` recorded onto it. -/
structure Span where
  name : String
  scope : List Nat
  flow : Option String := none
  task : Option String := none
  taskType : Option String := none
  start : Option Nat := none
  durationRecorded : Bool := false
  durations : List Nat := []
deriving DecidableEq

/-- `on_new_span`; `id` is the span's, and `scope` that of its parent. -/
def newSpan (attrs : Attributes) (scope : List Nat) (id now : Nat) : Span :=
  let span : Span := { name := attrs.name, scope := scope ++ [id] }
  if attrs.name = taskHandleSpan then { span with start := some now }
  else if attrs.name = flowRunSpan then { span with flow := attrs.flow }
  else if attrs.name = taskRunSpan then
    { span with task := attrs.task, taskType := attrs.taskType, flow := attrs.flow }
  else span

/-! ## Events -/

inductive Level
  | error
  | warn
  | info
  | debug
  | trace
deriving DecidableEq

def classify : Level → Option ActivityLevel
  | .error => some .error
  | .warn => some .warning
  | .info => some .info
  | .debug | .trace => none

structure Event where
  level : Level
  /-- The span that the event is logged in. -/
  span : Option Nat
  /-- The fields, `message` among them, as text. -/
  fields : List (String × String)
  now : Nat
deriving DecidableEq

structure MessageCapture where
  message : Option String := none
  fields : List (String × String) := []
  hasEventSubject : Bool := false
  eventId : Option String := none

def MessageCapture.recordField (msg : MessageCapture) (field : String × String) : MessageCapture :=
  match field.1 with
  | "message" => { msg with message := some field.2 }
  | "event.subject" => { msg with hasEventSubject := true }
  | "event.id" => { msg with eventId := some field.2 }
  | "flow" | "task" | "task_id" | "task_type" => msg
  | _ => { msg with fields := msg.fields ++ [field] }

def MessageCapture.intoMessage (msg : MessageCapture) : String :=
  msg.fields.foldl (fun out (k, v) => (if out = "" then out else out ++ " ") ++ k ++ "=" ++ v)
    (msg.message.getD "")

structure RecordedEvent where
  flow : String
  task : Option String
  taskType : Option String
  level : ActivityLevel
  message : String
  durationMs : Option Nat
  eventId : Option String
deriving DecidableEq

/-- The spans, by id, and what the metrics store was given. -/
structure State where
  spans : List Span := []
  metrics : List RecordedEvent := []

/-- What the walk from the root has seen. -/
structure Seen where
  inTaskHandle : Bool := false
  flow : Option String := none
  task : Option String := none
  taskType : Option String := none
  durationMs : Option Nat := none
  unrecordedHandle : Option Nat := none

/-- One span of the walk. -/
def Seen.look (now : Nat) (seen : Seen) (entry : Nat × Span) : Seen :=
  let (id, span) := entry
  let handle := span.name = taskHandleSpan
  { inTaskHandle := seen.inTaskHandle || decide handle
    flow := span.flow.or seen.flow
    task := span.task.or seen.task
    taskType := span.taskType.or seen.taskType
    durationMs :=
      if handle then (span.start.map (now - ·)).or seen.durationMs else seen.durationMs
    unrecordedHandle :=
      if handle ∧ span.durationRecorded = false then some id else seen.unrecordedHandle }

/-- The spans around a span and the span itself, from the root. -/
def State.scopeOf (s : State) (span : Span) : List (Nat × Span) :=
  span.scope.filterMap fun id => (s.spans[id]?).map (id, ·)

/-- `Span::record` of `duration_ms`. -/
def Span.record (span : Span) (ms : Nat) : Span :=
  if span.name = taskHandleSpan then { span with durations := span.durations ++ [ms] } else span

/-- The mark on the handle, and the field on the span of the event. -/
def recordDuration (spans : List Span) (seen : Seen) (current : Nat) : List Span :=
  match seen.durationMs, seen.unrecordedHandle with
  | some ms, some handle =>
      (spans.modify handle fun span => { span with durationRecorded := true }).modify current
        (Span.record · ms)
  | _, _ => spans

def onEvent (s : State) (e : Event) : State :=
  match classify e.level, e.span.bind fun current => (s.spans[current]?).map (current, ·) with
  | some level, some (current, span) =>
      let seen := (s.scopeOf span).foldl (Seen.look e.now) {}
      let msg := e.fields.foldl MessageCapture.recordField {}
      { spans := recordDuration s.spans seen current
        metrics :=
          match seen.flow with
          | none => s.metrics
          | some flow =>
              if level = .info ∧ seen.inTaskHandle = false ∧ msg.hasEventSubject = false then
                s.metrics
              else
                s.metrics ++
                  [⟨flow, seen.task, seen.taskType, level, msg.intoMessage, seen.durationMs,
                    msg.eventId⟩] }
  | _, _ => s

/-! ## Runs -/

inductive Step
  | create (attrs : Attributes) (now : Nat)
  | log (event : Event)
deriving DecidableEq

/-- The spans around a new one. -/
def State.parentScope (s : State) (attrs : Attributes) : List Nat :=
  ((attrs.parent.bind (s.spans[·]?)).map (·.scope)).getD []

def State.apply (s : State) : Step → State
  | .create attrs now =>
      { s with spans := s.spans ++ [newSpan attrs (s.parentScope attrs) s.spans.length now] }
  | .log event => onEvent s event

def State.run (s : State) (steps : List Step) : State := steps.foldl State.apply s

/-! ## The walk -/

variable {s : State} {id h current now ms : Nat} {span : Span} {e : Event} {steps : List Step}

/-- A handle that has not been marked. -/
def unrecorded (entry : Nat × Span) : Bool :=
  decide (entry.2.name = taskHandleSpan) && !entry.2.durationRecorded

theorem unrecordedHandle_foldl (l : List (Nat × Span)) (seen : Seen) :
    (l.foldl (Seen.look now) seen).unrecordedHandle =
      ((l.filter unrecorded).getLast?.map Prod.fst).or seen.unrecordedHandle := by
  induction l generalizing seen with
  | nil => rfl
  | cons entry l ih =>
      rw [List.foldl_cons, ih]
      by_cases hopen : unrecorded entry = true
      · have hboth : entry.2.name = taskHandleSpan ∧ entry.2.durationRecorded = false := by
          simpa [unrecorded] using hopen
        rw [List.filter_cons_of_pos hopen, List.getLast?_cons]
        cases hlast : (l.filter unrecorded).getLast? with
        | none => simp [Seen.look, hboth]
        | some last => simp
      · have hnot : ¬(entry.2.name = taskHandleSpan ∧ entry.2.durationRecorded = false) := by
          simpa [unrecorded] using hopen
        rw [List.filter_cons_of_neg hopen]
        simp [Seen.look, hnot]

/-- The time since the start of a handle. -/
def elapsed (now : Nat) (entry : Nat × Span) : Option Nat :=
  if entry.2.name = taskHandleSpan then entry.2.start.map (now - ·) else none

theorem durationMs_foldl (l : List (Nat × Span)) (seen : Seen) :
    (l.foldl (Seen.look now) seen).durationMs =
      (l.filterMap (elapsed now)).getLast?.or seen.durationMs := by
  induction l generalizing seen with
  | nil => rfl
  | cons entry l ih =>
      rw [List.foldl_cons, ih]
      have hlook : (seen.look now entry).durationMs = (elapsed now entry).or seen.durationMs := by
        rw [elapsed]
        show (if _ then _ else _) = _
        split
        · rfl
        · rfl
      rw [hlook]
      cases helapsed : elapsed now entry with
      | none => rw [List.filterMap_cons_none helapsed, Option.none_or]
      | some ms =>
          rw [List.filterMap_cons_some helapsed, List.getLast?_cons]
          cases (l.filterMap (elapsed now)).getLast? with
          | none => rfl
          | some last => rfl

/-! ## What one event does -/

/-- What an event leaves on the spans: the handle that it marks, the span it is logged in,
and the time. -/
structure Hit where
  handle : Nat
  current : Nat
  ms : Nat

def Seen.hit (seen : Seen) (current : Nat) : Option Hit :=
  match seen.durationMs, seen.unrecordedHandle with
  | some ms, some handle => some ⟨handle, current, ms⟩
  | _, _ => none

def hit (s : State) (e : Event) : Option Hit :=
  match classify e.level, e.span.bind fun current => (s.spans[current]?).map (current, ·) with
  | some _, some (current, span) => ((s.scopeOf span).foldl (Seen.look e.now) {}).hit current
  | _, _ => none

/-- A span after a hit. -/
def Span.after (id : Nat) (hit : Hit) (span : Span) : Span :=
  { span with
    durationRecorded := span.durationRecorded || decide (id = hit.handle)
    durations :=
      if id = hit.current ∧ span.name = taskHandleSpan then span.durations ++ [hit.ms]
      else span.durations }

theorem getElem?_recordDuration (spans : List Span) (seen : Seen) (current id : Nat) :
    (recordDuration spans seen current)[id]? =
      (spans[id]?).map fun span => (seen.hit current).elim span (span.after id) := by
  rw [recordDuration, Seen.hit]
  split
  · rename_i ms handle hms hhandle
    rw [List.getElem?_modify, List.getElem?_modify, Option.map_eq_map, Option.map_eq_map,
      Option.map_map]
    refine congrArg (Option.map · _) (funext fun span => ?_)
    show (if current = id then Span.record (if handle = id then _ else span) ms else
      if handle = id then _ else span) = span.after id ⟨handle, current, ms⟩
    rw [Span.after]
    by_cases hcurrent : current = id
    · by_cases hname : span.name = taskHandleSpan
      · by_cases hhandle : handle = id
        · simp [hcurrent, hhandle, hname, Span.record]
        · simp [hcurrent, hhandle, hname, Ne.symm hhandle, Span.record]
      · by_cases hhandle : handle = id
        · simp [hcurrent, hhandle, hname, Span.record]
        · simp [hcurrent, hhandle, hname, Ne.symm hhandle, Span.record]
    · by_cases hhandle : handle = id
      · simp [hcurrent, Ne.symm hcurrent, hhandle]
      · simp [hcurrent, Ne.symm hcurrent, hhandle, Ne.symm hhandle]
  · simp

theorem getElem?_onEvent (s : State) (e : Event) (id : Nat) :
    (onEvent s e).spans[id]? =
      (s.spans[id]?).map fun span => (hit s e).elim span (span.after id) := by
  rw [onEvent, hit]
  split
  · exact getElem?_recordDuration _ _ _ _
  · simp

/-! ## The tree of spans -/

/-- The spans around a span end with it, each stands where its own scope says, and a handle
has a start. -/
structure Tree (s : State) : Prop where
  own : ∀ (id : Nat) (span : Span), s.spans[id]? = some span → ∃ before, span.scope = before ++ [id]
  within : ∀ (id : Nat) (span : Span), s.spans[id]? = some span → ∀ before inner after,
    span.scope = before ++ inner :: after →
      ∃ span' : Span, s.spans[inner]? = some span' ∧ span'.scope = before ++ [inner]
  started : ∀ (id : Nat) (span : Span), s.spans[id]? = some span → span.name = taskHandleSpan →
    span.start.isSome = true

/-- What an event never changes of a span. -/
structure SameFrame (span span' : Span) : Prop where
  name : span'.name = span.name
  scope : span'.scope = span.scope
  start : span'.start = span.start

theorem sameFrame_onEvent (s : State) (e : Event) (id : Nat) (h : s.spans[id]? = some span) :
    ∃ span', (onEvent s e).spans[id]? = some span' ∧ SameFrame span span' := by
  refine ⟨(hit s e).elim span (span.after id), ?_, ?_⟩
  · rw [getElem?_onEvent, h]
    rfl
  · cases hit s e with
    | none => exact ⟨rfl, rfl, rfl⟩
    | some hit => exact ⟨rfl, rfl, rfl⟩

theorem of_getElem?_onEvent {span' : Span} (h : (onEvent s e).spans[id]? = some span') :
    ∃ span, s.spans[id]? = some span ∧ SameFrame span span' := by
  rw [getElem?_onEvent] at h
  obtain ⟨span, hspan, -⟩ := Option.map_eq_some_iff.mp h
  obtain ⟨span'', hspan'', hsame⟩ := sameFrame_onEvent s e id hspan
  rw [getElem?_onEvent, h] at hspan''
  cases hspan''
  exact ⟨span, hspan, hsame⟩

/-- A new span has the name and the place it is given, and nothing is recorded. -/
theorem newSpan_kept (attrs : Attributes) (scope : List Nat) (id now : Nat) :
    (newSpan attrs scope id now).name = attrs.name ∧
      (newSpan attrs scope id now).scope = scope ++ [id] ∧
      (newSpan attrs scope id now).durationRecorded = false ∧
      (newSpan attrs scope id now).durations = [] := by
  rw [newSpan]
  split
  · exact ⟨rfl, rfl, rfl, rfl⟩
  · split
    · exact ⟨rfl, rfl, rfl, rfl⟩
    · split
      · exact ⟨rfl, rfl, rfl, rfl⟩
      · exact ⟨rfl, rfl, rfl, rfl⟩

theorem newSpan_start {attrs : Attributes} {scope : List Nat}
    (h : (newSpan attrs scope id now).name = taskHandleSpan) :
    (newSpan attrs scope id now).start = some now := by
  rw [(newSpan_kept ..).1] at h
  rw [newSpan, if_pos h]

/-- A new span, or one of the old. -/
theorem getElem?_create {attrs : Attributes} :
    (s.apply (.create attrs now)).spans[id]? = some span ↔
      s.spans[id]? = some span ∨
        (id = s.spans.length ∧
          span = newSpan attrs (s.parentScope attrs) s.spans.length now) := by
  show (s.spans ++ [_])[id]? = some span ↔ _
  rcases lt_trichotomy id s.spans.length with hlt | rfl | hgt
  · rw [List.getElem?_append_left hlt]
    simp [hlt.ne]
  · rw [List.getElem?_concat_length, List.getElem?_eq_none le_rfl, Option.some.injEq, eq_comm]
    simp
  · rw [List.getElem?_eq_none (by simpa using hgt), List.getElem?_eq_none hgt.le]
    simp [hgt.ne']

theorem Tree.onEvent (h : Tree s) (e : Event) : Tree (onEvent s e) where
  own id span' hspan' := by
    obtain ⟨span, hspan, hsame⟩ := of_getElem?_onEvent hspan'
    rw [hsame.scope]
    exact h.own id span hspan
  within id span' hspan' before inner after hscope := by
    obtain ⟨span, hspan, hsame⟩ := of_getElem?_onEvent hspan'
    rw [hsame.scope] at hscope
    obtain ⟨found, hfound, hbefore⟩ := h.within id span hspan before inner after hscope
    obtain ⟨found', hfound', hsame'⟩ := sameFrame_onEvent s e inner hfound
    exact ⟨found', hfound', hsame'.scope.trans hbefore⟩
  started id span' hspan' hname := by
    obtain ⟨span, hspan, hsame⟩ := of_getElem?_onEvent hspan'
    rw [hsame.start]
    exact h.started id span hspan (hsame.name.symm.trans hname)

/-- The scope of a parent is that of a span. -/
theorem parentScope_cases (s : State) (attrs : Attributes) :
    s.parentScope attrs = [] ∨
      ∃ (id : Nat) (span : Span), s.spans[id]? = some span ∧ s.parentScope attrs = span.scope := by
  rw [State.parentScope]
  cases hparent : attrs.parent.bind (s.spans[·]?) with
  | none => exact .inl rfl
  | some span =>
      obtain ⟨id, -, hid⟩ := Option.bind_eq_some_iff.mp hparent
      exact .inr ⟨id, span, hid, rfl⟩

theorem Tree.create (h : Tree s) (attrs : Attributes) (now : Nat) :
    Tree (s.apply (.create attrs now)) where
  own id span hspan := by
    rcases getElem?_create.mp hspan with hold | ⟨rfl, rfl⟩
    · exact h.own id span hold
    · exact ⟨_, (newSpan_kept ..).2.1⟩
  within id span hspan before inner after hscope := by
    have hold : ∀ {id : Nat} {span : Span} {after : List Nat}, s.spans[id]? = some span →
        span.scope = before ++ inner :: after →
          ∃ span' : Span, (s.apply (.create attrs now)).spans[inner]? = some span' ∧
            span'.scope = before ++ [inner] := by
      intro id span after hspan hscope
      obtain ⟨span', hspan', hbefore⟩ := h.within id span hspan before inner after hscope
      exact ⟨span', getElem?_create.mpr (.inl hspan'), hbefore⟩
    rcases getElem?_create.mp hspan with hspan | ⟨rfl, rfl⟩
    · exact hold hspan hscope
    · rw [(newSpan_kept ..).2.1] at hscope
      rcases List.eq_nil_or_concat after with rfl | ⟨after', last, rfl⟩
      · obtain ⟨rfl, hlast⟩ := List.append_inj' hscope rfl
        cases hlast
        exact ⟨_, getElem?_create.mpr (.inr ⟨rfl, rfl⟩), (newSpan_kept ..).2.1⟩
      · -- The split lies within the scope of the parent.
        have hsplit : s.parentScope attrs = before ++ inner :: after' := by
          rw [List.concat_eq_append, ← List.cons_append, ← List.append_assoc] at hscope
          exact (List.append_inj' hscope rfl).1
        rcases parentScope_cases s attrs with hnil | ⟨parent, parentSpan, hparent, heq⟩
        · rw [hnil] at hsplit
          simp at hsplit
        · exact hold hparent (heq.symm.trans hsplit)
  started id span hspan hname := by
    rcases getElem?_create.mp hspan with hold | ⟨rfl, rfl⟩
    · exact h.started id span hold hname
    · rw [newSpan_start hname]
      rfl

theorem tree_run (h : Tree s) (steps : List Step) : Tree (s.run steps) := by
  induction steps generalizing s with
  | nil => exact h
  | cons step steps ih =>
      cases step with
      | create attrs now => exact ih (h.create attrs now)
      | log e => exact ih (h.onEvent e)

theorem tree_nil : Tree {} := by
  refine ⟨?_, ?_, ?_⟩
  · intro id span h
    cases h
  · intro id span h
    cases h
  · intro id span h
    cases h

/-! ## The tree alone -/

/-- The name of a span and the spans around it. -/
abbrev Frame := String × List Nat

def State.frames (s : State) : List Frame := s.spans.map fun span => (span.name, span.scope)

def addFrame (frames : List Frame) (attrs : Attributes) : List Frame :=
  frames ++ [(attrs.name,
    ((attrs.parent.bind (frames[·]?)).map Prod.snd).getD [] ++ [frames.length])]

/-- The tree that spans make which are created in this order. -/
def tree (spans : List Attributes) : List Frame := spans.foldl addFrame []

/-- No handle runs inside another. -/
def Flat (frames : List Frame) : Prop :=
  ∀ (id : Nat) (scope : List Nat), frames[id]? = some (taskHandleSpan, scope) → ∀ inner ∈ scope,
    ∀ scope' : List Nat, frames[inner]? = some (taskHandleSpan, scope') → inner = id

/-- The spans that a run creates. -/
def created (steps : List Step) : List Attributes :=
  steps.filterMap fun
    | .create attrs _ => some attrs
    | .log _ => none

theorem frames_create (s : State) (attrs : Attributes) (now : Nat) :
    (s.apply (.create attrs now)).frames = addFrame s.frames attrs := by
  have hparent : ((attrs.parent.bind (s.frames[·]?)).map Prod.snd) =
      (attrs.parent.bind (s.spans[·]?)).map (·.scope) := by
    cases attrs.parent with
    | none => rfl
    | some parent =>
        show (s.frames[parent]?).map Prod.snd = (s.spans[parent]?).map (·.scope)
        rw [State.frames, List.getElem?_map, Option.map_map]
        rfl
  show List.map _ (s.spans ++ [_]) = _
  rw [List.map_append, addFrame, hparent, List.map_singleton, (newSpan_kept ..).1,
    (newSpan_kept ..).2.1, State.frames, List.length_map]
  rfl

theorem frames_onEvent (s : State) (e : Event) : (onEvent s e).frames = s.frames := by
  refine List.ext_getElem? fun id => ?_
  rw [State.frames, State.frames, List.getElem?_map, List.getElem?_map, getElem?_onEvent,
    Option.map_map]
  refine congrArg (Option.map · _) (funext fun span => ?_)
  show (((hit s e).elim span (span.after id)).name, ((hit s e).elim span (span.after id)).scope) = _
  cases hit s e with
  | none => rfl
  | some hit => rfl

theorem frames_run (s : State) (steps : List Step) :
    (s.run steps).frames = (created steps).foldl addFrame s.frames := by
  induction steps generalizing s with
  | nil => rfl
  | cons step steps ih =>
      cases step with
      | create attrs now =>
          show ((s.apply (.create attrs now)).run steps).frames =
            (created steps).foldl addFrame (addFrame s.frames attrs)
          rw [ih, frames_create]
      | log e =>
          show ((onEvent s e).run steps).frames = (created steps).foldl addFrame s.frames
          rw [ih, frames_onEvent]

theorem flat_of_addFrame {frames : List Frame} {attrs : Attributes}
    (h : Flat (addFrame frames attrs)) : Flat frames := by
  intro id scope hid inner hinner scope' hframe
  have hkept : ∀ {id : Nat} {frame : Frame}, frames[id]? = some frame →
      (addFrame frames attrs)[id]? = some frame := by
    intro id frame hframe
    obtain ⟨hlt, -⟩ := List.getElem?_eq_some_iff.mp hframe
    rw [addFrame, List.getElem?_append_left hlt, hframe]
  exact h id scope (hkept hid) inner hinner scope' (hkept hframe)

theorem flat_of_foldl {frames : List Frame} {spans : List Attributes}
    (h : Flat (spans.foldl addFrame frames)) : Flat frames := by
  induction spans generalizing frames with
  | nil => exact h
  | cons attrs spans ih => exact flat_of_addFrame (ih h)

theorem getElem?_frames (h : s.spans[id]? = some span) :
    s.frames[id]? = some (span.name, span.scope) := by
  rw [State.frames, List.getElem?_map, h]
  rfl

/-- Around a handle there is no other. -/
theorem eq_of_flat {span' : Span} {inner : Nat} (hflat : Flat s.frames)
    (hspan : s.spans[id]? = some span) (hname : span.name = taskHandleSpan)
    (hinner : inner ∈ span.scope) (hspan' : s.spans[inner]? = some span')
    (hname' : span'.name = taskHandleSpan) : inner = id := by
  have hframe := getElem?_frames hspan
  have hframe' := getElem?_frames hspan'
  rw [hname] at hframe
  rw [hname'] at hframe'
  exact hflat id span.scope hframe inner hinner span'.scope hframe'

/-! ## What is marked -/

/-- A handle that has not been marked. -/
def State.Open (s : State) (id : Nat) : Prop :=
  ∃ span, s.spans[id]? = some span ∧ span.name = taskHandleSpan ∧ span.durationRecorded = false

theorem mem_scopeOf {entry : Nat × Span} :
    entry ∈ s.scopeOf span ↔ entry.1 ∈ span.scope ∧ s.spans[entry.1]? = some entry.2 := by
  rw [State.scopeOf, List.mem_filterMap]
  constructor
  · rintro ⟨id, hid, hentry⟩
    obtain ⟨span', hspan', rfl⟩ := Option.map_eq_some_iff.mp hentry
    exact ⟨hid, hspan'⟩
  · rintro ⟨hid, hspan⟩
    exact ⟨entry.1, hid, by rw [hspan]; rfl⟩

/-- A hit marks a handle around its span that has not been marked, and takes the time of one. -/
theorem hit_handle {x : Hit} (h : hit s e = some x) :
    e.span = some x.current ∧ (classify e.level).isSome = true ∧
      ∃ currentSpan, s.spans[x.current]? = some currentSpan ∧ x.handle ∈ currentSpan.scope ∧
        s.Open x.handle ∧ ∃ entry ∈ s.scopeOf currentSpan, elapsed e.now entry = some x.ms := by
  rw [hit] at h
  split at h
  · rename_i level current span hlevel hcurrent
    obtain ⟨current', hcurrent', hspan⟩ := Option.bind_eq_some_iff.mp hcurrent
    obtain ⟨span', hspan', heq⟩ := Option.map_eq_some_iff.mp hspan
    cases heq
    rw [Seen.hit] at h
    split at h
    · rename_i ms handle hms hhandle
      cases h
      rw [unrecordedHandle_foldl, Option.or_none] at hhandle
      obtain ⟨entry, hentry, rfl⟩ := Option.map_eq_some_iff.mp hhandle
      obtain ⟨hscope, hopen⟩ := List.mem_filter.mp (List.mem_of_getLast? hentry)
      obtain ⟨hmem, hthere⟩ := mem_scopeOf.mp hscope
      obtain ⟨hname, hfresh⟩ : entry.2.name = taskHandleSpan ∧ entry.2.durationRecorded = false := by
        simpa [unrecorded] using hopen
      rw [durationMs_foldl, Option.or_none] at hms
      obtain ⟨timed, htimed, helapsed⟩ := List.mem_filterMap.mp (List.mem_of_getLast? hms)
      exact ⟨hcurrent', by rw [hlevel]; rfl, span, hspan', hmem, ⟨entry.2, hthere, hname, hfresh⟩,
        timed, htimed, helapsed⟩
    · cases h
  · cases h

/-- An event with an unmarked handle around it hits. -/
theorem hit_of_unrecorded (htree : Tree s) {currentSpan : Span}
    (hlevel : (classify e.level).isSome = true) (hcurrent : e.span = some current)
    (hcurrentSpan : s.spans[current]? = some currentSpan) (hin : h ∈ currentSpan.scope)
    (hopen : s.Open h) : ∃ x, hit s e = some x ∧ x.current = current := by
  obtain ⟨level, hlevel⟩ := Option.isSome_iff_exists.mp hlevel
  obtain ⟨span, hspan, hname, hfresh⟩ := hopen
  have hthere : (h, span) ∈ s.scopeOf currentSpan := mem_scopeOf.mpr ⟨hin, hspan⟩
  have hopen : (s.scopeOf currentSpan).filter unrecorded ≠ [] := by
    refine List.ne_nil_of_mem (List.mem_filter.mpr ⟨hthere, ?_⟩)
    simp [unrecorded, hname, hfresh]
  have htimes : (s.scopeOf currentSpan).filterMap (elapsed e.now) ≠ [] := by
    obtain ⟨start, hstart⟩ := Option.isSome_iff_exists.mp (htree.started h span hspan hname)
    have helapsed : elapsed e.now (h, span) = some (e.now - start) := by
      show (if span.name = taskHandleSpan then span.start.map (e.now - ·) else none) = _
      rw [if_pos hname, hstart]
      rfl
    exact List.ne_nil_of_mem (List.mem_filterMap.mpr ⟨_, hthere, helapsed⟩)
  rw [hit, hlevel, hcurrent]
  simp only [Option.bind_some, hcurrentSpan, Option.map_some, Seen.hit, unrecordedHandle_foldl,
    durationMs_foldl, Option.or_none, List.getLast?_eq_some_getLast hopen,
    List.getLast?_eq_some_getLast htimes]
  exact ⟨_, rfl, rfl⟩

/-! ## Once for each handle -/

/-- A span that is not marked has no time, and one that is has at most one. -/
def Once (s : State) : Prop :=
  ∀ (id : Nat) (span : Span), s.spans[id]? = some span →
    span.durations.length ≤ if span.durationRecorded then 1 else 0

theorem Once.onEvent (h : Once s) (hflat : Flat s.frames) (e : Event) : Once (onEvent s e) := by
  intro id span' hspan'
  rw [getElem?_onEvent] at hspan'
  obtain ⟨span, hspan, rfl⟩ := Option.map_eq_some_iff.mp hspan'
  have hbound := h id span hspan
  cases hhit : hit s e with
  | none => exact hbound
  | some x =>
      obtain ⟨-, -, currentSpan, hcurrent, hin, ⟨handle, hhandle, hname, hfresh⟩, -⟩ :=
        hit_handle hhit
      show (if _ then _ else _ : List Nat).length ≤
        if (span.durationRecorded || decide (id = x.handle)) then 1 else 0
      split
      · rename_i hhere
        obtain ⟨rfl, hspanName⟩ := hhere
        rw [hspan] at hcurrent
        cases hcurrent
        -- The handle that is marked is the one that the event is logged in.
        have hsame : x.handle = x.current := eq_of_flat hflat hspan hspanName hin hhandle hname
        rw [hsame, hspan] at hhandle
        cases hhandle
        rw [hfresh] at hbound
        have hnil : span.durations = [] := List.eq_nil_of_length_eq_zero (Nat.le_zero.mp hbound)
        simp [hnil, hsame]
      · cases hrecorded : span.durationRecorded with
        | true =>
            rw [hrecorded] at hbound
            exact hbound
        | false =>
            rw [hrecorded] at hbound
            exact (Nat.le_zero.mp hbound).le.trans (Nat.zero_le _)

theorem Once.create (h : Once s) (attrs : Attributes) (now : Nat) :
    Once (s.apply (.create attrs now)) := by
  intro id span hspan
  rcases getElem?_create.mp hspan with hold | ⟨rfl, rfl⟩
  · exact h id span hold
  · rw [(newSpan_kept ..).2.2.2]
    exact Nat.zero_le _

theorem once_run (h : Once s) (hflat : Flat (s.run steps).frames) : Once (s.run steps) := by
  induction steps generalizing s with
  | nil => exact h
  | cons step steps ih =>
      cases step with
      | create attrs now => exact ih (h.create attrs now) hflat
      | log e =>
          have hnow : Flat s.frames := by
            rw [frames_run] at hflat
            exact flat_of_foldl hflat
          exact ih (h.onEvent hnow e) hflat

/-- Before any event nothing is marked or recorded. -/
theorem fresh_creates (spans : List Attributes) (hs : ∀ (id : Nat) (span : Span),
      s.spans[id]? = some span → span.durationRecorded = false ∧ span.durations = [])
    (hspan : (s.run (spans.map (.create · 0))).spans[id]? = some span) :
    span.durationRecorded = false ∧ span.durations = [] := by
  induction spans generalizing s with
  | nil => exact hs id span hspan
  | cons attrs spans ih =>
      refine ih (s := s.apply (.create attrs 0)) (fun id span h => ?_) hspan
      rcases getElem?_create.mp h with hold | ⟨rfl, rfl⟩
      · exact hs id span hold
      · exact (newSpan_kept ..).2.2

theorem created_creates (spans : List Attributes) (events : List Event) :
    created (spans.map (.create · 0) ++ events.map .log) = spans := by
  have hlogs : (events.map Step.log).filterMap (fun
      | .create attrs _ => some attrs
      | .log _ => none) = [] := by
    rw [List.filterMap_eq_nil_iff]
    intro step hstep
    obtain ⟨e, -, rfl⟩ := List.mem_map.mp hstep
    rfl
  rw [created, List.filterMap_append, hlogs, List.append_nil, List.filterMap_map]
  exact List.filterMap_some

theorem frames_creates (spans : List Attributes) :
    (State.run {} (spans.map (.create · 0))).frames = tree spans := by
  have hcreated := created_creates spans []
  rw [List.map_nil, List.append_nil] at hcreated
  rw [frames_run, hcreated]
  rfl

/-- Before any event all handles are open. -/
theorem open_creates {spans : List Attributes} {scope : List Nat}
    (h : (tree spans)[id]? = some (taskHandleSpan, scope)) :
    (State.run {} (spans.map (.create · 0))).Open id := by
  rw [← frames_creates, State.frames, List.getElem?_map] at h
  obtain ⟨span, hspan, heq⟩ := Option.map_eq_some_iff.mp h
  refine ⟨span, hspan, (Prod.mk.inj heq).1, (fresh_creates spans (fun id span h => ?_) hspan).1⟩
  cases h

theorem State.Open.onEvent {x : Hit} (h : s.Open id) (hhit : hit s e = some x)
    (hne : id ≠ x.handle) : (onEvent s e).Open id := by
  obtain ⟨span, hspan, hname, hfresh⟩ := h
  refine ⟨span.after id x, ?_, hname, ?_⟩
  · rw [getElem?_onEvent, hspan, hhit]
    rfl
  · show (span.durationRecorded || decide (id = x.handle)) = false
    rw [hfresh, decide_eq_false hne]
    rfl

/-- An event in a handle with an open handle around it adds a time. -/
theorem durations_onEvent (htree : Tree s) {inner : Nat}
    (hlevel : (classify e.level).isSome = true) (hcurrent : e.span = some id)
    (hspan : s.spans[id]? = some span) (hname : span.name = taskHandleSpan)
    (hin : inner ∈ span.scope) (hopen : s.Open inner) :
    ∃ x, hit s e = some x ∧ (onEvent s e).spans[id]? = some (span.after id x) ∧
      (span.after id x).durations.length = span.durations.length + 1 := by
  obtain ⟨x, hhit, rfl⟩ := hit_of_unrecorded htree hlevel hcurrent hspan hin hopen
  refine ⟨x, hhit, ?_, ?_⟩
  · rw [getElem?_onEvent, hspan, hhit]
    rfl
  · show (if _ then _ else _ : List Nat).length = _
    rw [if_pos ⟨rfl, hname⟩, List.length_append]
    rfl

/-- Two errors in a handle inside another record its time twice. -/
theorem twice_of_nested {spans : List Attributes} {scope scope' : List Nat} {inner : Nat}
    (hid : (tree spans)[id]? = some (taskHandleSpan, scope)) (hinner : inner ∈ scope)
    (hframe : (tree spans)[inner]? = some (taskHandleSpan, scope')) (hne : inner ≠ id) :
    ∃ steps, created steps = spans ∧
      ∃ span ∈ (State.run {} steps).spans, 2 ≤ span.durations.length := by
  let s : State := State.run {} (spans.map (.create · 0))
  let e : Event := ⟨.error, some id, [], 0⟩
  have htree : Tree s := tree_run tree_nil _
  obtain ⟨span, hspan, hname, -⟩ := open_creates hid
  have hframe' := getElem?_frames hspan
  rw [frames_creates, hid] at hframe'
  obtain ⟨-, rfl⟩ := Prod.mk.inj (Option.some.inj hframe')
  have hown : id ∈ span.scope := by
    obtain ⟨before, hbefore⟩ := htree.own id span hspan
    rw [hbefore]
    exact List.mem_append_right _ (List.mem_singleton_self id)
  obtain ⟨x, hhit, hafter, hlength⟩ :=
    durations_onEvent (e := e) htree rfl rfl hspan hname hown (open_creates hid)
  -- One of the two handles is still open.
  have hopen : ∃ other ∈ span.scope, (onEvent s e).Open other := by
    rcases eq_or_ne id x.handle with heq | hidNe
    · exact ⟨inner, hinner, (open_creates hframe).onEvent hhit (heq ▸ hne)⟩
    · exact ⟨id, hown, (open_creates hid).onEvent hhit hidNe⟩
  obtain ⟨other, hother, hotherOpen⟩ := hopen
  obtain ⟨y, -, hafter', hlength'⟩ :=
    durations_onEvent (e := e) (htree.onEvent e) rfl rfl hafter hname hother hotherOpen
  refine ⟨_, created_creates spans [e, e], (span.after id x).after id y, ?_, ?_⟩
  · rw [State.run, List.foldl_append]
    exact List.mem_of_getElem? hafter'
  · rw [hlength', hlength]
    exact Nat.le_add_left 2 _

/-- **Once, as long as handles do not nest.**  For every tree of spans: in every run in which
these spans are created and events are logged in them, in any order, each span's time is
recorded at most once, exactly if no handle of the tree runs inside another. -/
theorem recorded_once_iff (spans : List Attributes) :
    (∀ steps, created steps = spans → ∀ span ∈ (State.run {} steps).spans,
        span.durations.length ≤ 1) ↔ Flat (tree spans) := by
  constructor
  · intro hall id scope hid inner hinner scope' hframe
    by_contra hne
    obtain ⟨steps, hsteps, span, hspan, htwice⟩ := twice_of_nested hid hinner hframe hne
    exact absurd (htwice.trans (hall steps hsteps span hspan)) (by decide)
  · intro hflat steps hsteps span hspan
    obtain ⟨id, hid⟩ := List.mem_iff_getElem?.mp hspan
    have honce : Once (State.run {} steps) := by
      refine once_run (fun id span h => ?_) ?_
      · cases h
      · rw [frames_run, hsteps]
        exact hflat
    refine (honce id span hid).trans ?_
    split
    · exact le_rfl
    · exact Nat.zero_le 1

/-! ## Which event it is -/

/-- The event, if the step logs one that counts in a span below `h`, or in `h` itself. -/
def Step.touching (s : State) (h : Nat) : Step → Option Event
  | .create _ _ => none
  | .log e =>
      match e.span.bind (s.spans[·]?) with
      | some span => if (classify e.level).isSome ∧ h ∈ span.scope then some e else none
      | none => none

/-- The first such event of a run. -/
def firstIn (h : Nat) : State → List Step → Option Event
  | _, [] => none
  | s, step :: steps => (step.touching s h).or (firstIn h (s.apply step) steps)

/-- What the first event leaves on a handle: nothing, if it was logged further in. -/
def timeOf (h : Nat) (span : Span) : Option Event → List Nat
  | some e => if e.span = some h then [e.now - span.start.getD 0] else []
  | none => []

theorem touching_eq_some {e' : Event} : (Step.log e).touching s h = some e' ↔
    e' = e ∧ ∃ current span, e.span = some current ∧ s.spans[current]? = some span ∧
      (classify e.level).isSome = true ∧ h ∈ span.scope := by
  rw [Step.touching]
  constructor
  · intro htouch
    split at htouch
    · rename_i span hspan
      obtain ⟨current, hcurrent, hspan⟩ := Option.bind_eq_some_iff.mp hspan
      split at htouch
      · rename_i hboth
        cases htouch
        exact ⟨rfl, current, span, hcurrent, hspan, hboth⟩
      · cases htouch
    · cases htouch
  · rintro ⟨rfl, current, span, hcurrent, hspan, hboth⟩
    rw [hcurrent, Option.bind_some, hspan]
    exact if_pos hboth

/-- Handles that are around one span are the same. -/
theorem handle_unique (htree : Tree s) (hflat : Flat s.frames) {inner inner' : Nat}
    {innerSpan innerSpan' : Span} (hspan : s.spans[id]? = some span) (hin : inner ∈ span.scope)
    (hin' : inner' ∈ span.scope) (hinner : s.spans[inner]? = some innerSpan)
    (hinner' : s.spans[inner']? = some innerSpan') (hname : innerSpan.name = taskHandleSpan)
    (hname' : innerSpan'.name = taskHandleSpan) : inner = inner' := by
  obtain ⟨before, after, hsplit⟩ := List.append_of_mem hin
  rw [hsplit] at hin'
  rcases List.mem_append.mp hin' with hbefore | hafter
  · obtain ⟨found, hfound, hscope⟩ := htree.within id span hspan before inner after hsplit
    rw [hinner] at hfound
    cases hfound
    have hmem : inner' ∈ innerSpan.scope := by
      rw [hscope]
      exact List.mem_append_left _ hbefore
    exact (eq_of_flat hflat hinner hname hmem hinner' hname').symm
  · rcases List.mem_cons.mp hafter with heq | hafter
    · exact heq.symm
    · obtain ⟨middle, rest, hrest⟩ := List.append_of_mem hafter
      have hsplit' : span.scope = (before ++ inner :: middle) ++ inner' :: rest := by
        rw [hsplit, hrest, List.append_assoc, List.cons_append]
      obtain ⟨found, hfound, hscope⟩ := htree.within id span hspan _ inner' rest hsplit'
      rw [hinner'] at hfound
      cases hfound
      have hmem : inner ∈ innerSpan'.scope := by
        rw [hscope]
        exact List.mem_append_left _ (List.mem_append_right _ List.mem_cons_self)
      exact eq_of_flat hflat hinner' hname' hmem hinner hname

/-- An event that is not logged below a span does nothing to it. -/
theorem getElem?_of_not_touching (htree : Tree s) (hspan : s.spans[h]? = some span)
    (hnone : (Step.log e).touching s h = none) : (onEvent s e).spans[h]? = some span := by
  rw [getElem?_onEvent, hspan]
  cases hhit : hit s e with
  | none => rfl
  | some x =>
      obtain ⟨hcurrent, hlevel, currentSpan, hcurrentSpan, hin, -, -⟩ := hit_handle hhit
      have hnot : h ∉ currentSpan.scope := by
        intro hmem
        rw [touching_eq_some.mpr ⟨rfl, _, _, hcurrent, hcurrentSpan, hlevel, hmem⟩] at hnone
        cases hnone
      have hhandle : h ≠ x.handle := fun heq => hnot (heq ▸ hin)
      have hcurrentNe : h ≠ x.current := by
        rintro rfl
        obtain ⟨before, hbefore⟩ := htree.own x.current currentSpan hcurrentSpan
        exact hnot (hbefore ▸ List.mem_append_right _ (List.mem_singleton_self _))
      show some (span.after h x) = some span
      rw [Span.after, decide_eq_false hhandle, Bool.or_false, if_neg fun hboth => hcurrentNe hboth.1]

/-- A handle that is marked keeps its times. -/
theorem getElem?_of_recorded (htree : Tree s) (hflat : Flat s.frames)
    (hspan : s.spans[h]? = some span) (hname : span.name = taskHandleSpan)
    (hrecorded : span.durationRecorded = true) : (onEvent s e).spans[h]? = some span := by
  cases htouch : (Step.log e).touching s h with
  | none => exact getElem?_of_not_touching htree hspan htouch
  | some e' =>
      obtain ⟨rfl, current, currentSpan, hcurrent, hcurrentSpan, -, hin⟩ :=
        touching_eq_some.mp htouch
      rw [getElem?_onEvent, hspan]
      cases hhit : hit s e' with
      | none => rfl
      | some x =>
          obtain ⟨hcurrent', -, currentSpan', hcurrentSpan', hin', ⟨handle, hhandle, hname', hfresh⟩,
            -⟩ := hit_handle hhit
          rw [hcurrent] at hcurrent'
          cases hcurrent'
          rw [hcurrentSpan] at hcurrentSpan'
          cases hcurrentSpan'
          have hsame : h = x.handle :=
            handle_unique htree hflat hcurrentSpan hin hin' hspan hhandle hname hname'
          rw [← hsame, hspan] at hhandle
          cases hhandle
          rw [hrecorded] at hfresh
          cases hfresh

/-- The first event marks the handle, and records the time if it was logged in the handle. -/
theorem getElem?_of_touching (htree : Tree s) (hflat : Flat s.frames)
    (hspan : s.spans[h]? = some span) (hname : span.name = taskHandleSpan)
    (hfresh : span.durationRecorded = false) {e' : Event}
    (htouch : (Step.log e).touching s h = some e') :
    ∃ span', (onEvent s e).spans[h]? = some span' ∧ span'.name = taskHandleSpan ∧
      span'.durationRecorded = true ∧ span'.durations = span.durations ++ timeOf h span (some e') := by
  obtain ⟨rfl, current, currentSpan, hcurrent, hcurrentSpan, hlevel, hin⟩ :=
    touching_eq_some.mp htouch
  obtain ⟨x, hhit, rfl⟩ :=
    hit_of_unrecorded htree hlevel hcurrent hcurrentSpan hin ⟨span, hspan, hname, hfresh⟩
  obtain ⟨hcurrent', -, currentSpan', hcurrentSpan', hin', ⟨handle, hhandle, hname', -⟩, timed,
    htimed, helapsed⟩ := hit_handle hhit
  rw [hcurrentSpan] at hcurrentSpan'
  cases hcurrentSpan'
  have hsame : h = x.handle :=
    handle_unique htree hflat hcurrentSpan hin hin' hspan hhandle hname hname'
  -- The time is that of the only handle around the span.
  have htime : x.ms = e'.now - span.start.getD 0 := by
    obtain ⟨htimedIn, htimedSpan⟩ := mem_scopeOf.mp htimed
    rw [elapsed] at helapsed
    split at helapsed
    · rename_i htimedName
      have hid : timed.1 = h :=
        handle_unique htree hflat hcurrentSpan htimedIn hin htimedSpan hspan htimedName hname
      rw [hid, hspan] at htimedSpan
      cases htimedSpan
      obtain ⟨start, hstart, heq⟩ := Option.map_eq_some_iff.mp helapsed
      rw [hstart, ← heq]
      rfl
    · cases helapsed
  refine ⟨span.after h x, ?_, hname, ?_, ?_⟩
  · rw [getElem?_onEvent, hspan, hhit]
    rfl
  · show (span.durationRecorded || decide (h = x.handle)) = true
    rw [decide_eq_true hsame, Bool.or_true]
  · show (if h = x.current ∧ span.name = taskHandleSpan then span.durations ++ [x.ms]
      else span.durations) = span.durations ++ if e'.span = some h then _ else _
    rw [hcurrent]
    by_cases hhere : h = x.current
    · rw [if_pos ⟨hhere, hname⟩, if_pos (congrArg some hhere.symm), htime]
    · rw [if_neg fun hboth => hhere hboth.1, if_neg fun heq => hhere (Option.some.inj heq).symm,
        List.append_nil]

theorem durations_run (htree : Tree s) (hflat : Flat (s.run steps).frames)
    (hspan : s.spans[h]? = some span) (hname : span.name = taskHandleSpan) :
    ((s.run steps).spans[h]?).map Span.durations =
      some (span.durations ++
        if span.durationRecorded then [] else timeOf h span (firstIn h s steps)) := by
  induction steps generalizing s span with
  | nil =>
      show (s.spans[h]?).map Span.durations = _
      rw [hspan]
      cases span.durationRecorded <;> simp [firstIn, timeOf]
  | cons step steps ih =>
      cases step with
      | create attrs now =>
          exact ih (htree.create attrs now) hflat (getElem?_create.mpr (.inl hspan)) hname
      | log e =>
          have hnow : Flat s.frames := by
            rw [frames_run] at hflat
            exact flat_of_foldl hflat
          have hnext : ∀ {span' : Span}, (onEvent s e).spans[h]? = some span' →
              span'.name = taskHandleSpan → _ := ih (htree.onEvent e) hflat
          cases hrecorded : span.durationRecorded with
          | true =>
              have hthere := getElem?_of_recorded (e := e) htree hnow hspan hname hrecorded
              have hrest := hnext hthere hname
              rw [hrecorded] at hrest
              exact hrest
          | false =>
              cases htouch : (Step.log e).touching s h with
              | none =>
                  have hrest := hnext (getElem?_of_not_touching htree hspan htouch) hname
                  rw [hrecorded] at hrest
                  rw [firstIn, htouch, Option.none_or]
                  exact hrest
              | some e' =>
                  obtain ⟨span', hthere, hname', hmarked, htimes⟩ :=
                    getElem?_of_touching htree hnow hspan hname hrecorded htouch
                  have hrest := hnext hthere hname'
                  rw [hmarked, htimes] at hrest
                  rw [firstIn, htouch, Option.some_or]
                  refine hrest.trans ?_
                  rw [if_pos rfl, List.append_nil]
                  rfl

/-- **The first event decides.**  Where no handle runs inside another, what is recorded for a
handle is the time of the first error, warning or info logged below it if that was logged in
the handle's own span, and nothing ever if it was logged in a span further in. -/
theorem durations_of_first (before after : List Step)
    (hflat : Flat (tree (created (before ++ after))))
    (hspan : (State.run {} before).spans[h]? = some span) (hname : span.name = taskHandleSpan) :
    ((State.run {} (before ++ after)).spans[h]?).map Span.durations =
      some (span.durations ++
        if span.durationRecorded then []
        else timeOf h span (firstIn h (State.run {} before) after)) := by
  have hframes : (State.run {} (before ++ after)).frames = tree (created (before ++ after)) :=
    frames_run {} _
  have hrun : State.run {} (before ++ after) = (State.run {} before).run after :=
    List.foldl_append
  rw [hrun] at hframes ⊢
  exact durations_run (tree_run tree_nil before) (hframes ▸ hflat) hspan hname

/-- A handle that first logs in a span of a library, and then itself. -/
def libraryFirst : List Step :=
  [.create ⟨"request", some 0, none, none, none⟩ 6, .log ⟨.warn, some 1, [], 7⟩,
    .log ⟨.error, some 0, [], 9⟩]

theorem durations_of_first_library :
    ((State.run {} (.create ⟨"task.handle", none, none, none, none⟩ 5 :: libraryFirst)).spans[0]?).map
      Span.durations = some [] := by
  have hflat : Flat (tree (created
      ([.create ⟨"task.handle", none, none, none, none⟩ 5] ++ libraryFirst))) := by
    show Flat [("task.handle", [0]), ("request", [0, 1])]
    rintro (_ | _ | id) scope hid inner hinner scope' hframe
    · cases hid
      exact List.mem_singleton.mp hinner
    · simp [taskHandleSpan] at hid
    · cases hid
  have hspan : (State.run {} [.create ⟨"task.handle", none, none, none, none⟩ 5]).spans[0]? =
      some { name := "task.handle", scope := [0], start := some 5 } := rfl
  exact durations_of_first _ libraryFirst hflat hspan rfl

end Flowgen.Telemetry.Layer
