/-
# `Flowgen.Response.Progress` — progress streamed through the registry (`core/src/registry.rs`)

A streamed request has an entry in the `ResponseRegistry`, by which flow tasks
send progress events into a bounded channel.  The loop that reads the channel
(`dispatch_streaming` of the AI gateway, `execute_tool_call` of the MCP server)
forwards them to its client through a second bounded channel, and removes the
entry when the completion arrives, the deadline passes or the client is gone.

`insert`, `remove` and `send_progress` take one lock, which is granted in the
order of the requests.  The first two are done at once; `send_progress` keeps
the lock until the channel has room.  An action is one step of one party:
`grant` is the lock being handed to the next one, `send` and `advance` are the
loop of a stream, `read` and `disconnect` its client.

The loop does not read while it waits for the lock.  So a full channel freezes
the registry if its loop leaves at that moment (`deadlock_on_disconnect`), and
it makes everyone wait for a slow client.  `progress_unblocked` says that
neither happens if no progress is sent beyond the room there is (`Roomy`).
-/
import Flowgen.Lib.Machine
import Flowgen.Lib.Slots
import Flowgen.Event

namespace Flowgen.Response

open Flowgen.Lib

/-! ## What is sent -/

structure ToolStep where
  name : String
  arguments : String

/-- Progress of a flow: a text delta, or a tool step. -/
structure ProgressEvent where
  task : String
  status : String
  tool : Option ToolStep := none

/-- What the receiver of a completion gets; `none` if the sender was dropped. -/
abbrev Completion := Option (CompletionResult String)

/-- What a loop writes to its client. -/
structure Protocol where
  opening : List String
  frames : ProgressEvent → List String
  /-- Sent after the remove in the branch of the deadline. -/
  timedOut : List String
  /-- The end of the stream: whether text was streamed, and the completion
  unless the progress channel was closed before. -/
  closing : Bool → Option Completion → List String

/-- The `StreamWriter` of an adapter of the gateway. -/
structure StreamWriter where
  opening : List String
  textDelta : String → List String
  toolStep : ToolStep → List String
  /-- The final text if none was streamed, tool calls, errors and the close. -/
  finish : Bool → Option Completion → List String

/-- The loop of `dispatch_streaming`. -/
def gateway (writer : StreamWriter) : Protocol where
  opening := writer.opening
  frames evt :=
    match evt.tool with
    | some step => writer.toolStep step
    | none => writer.textDelta evt.status
  timedOut := []
  closing := writer.finish

/-- The loop of `execute_tool_call`. -/
def mcp (formatProgress : ProgressEvent → Option String) (toolTimeout : Option String)
    (completionToResultEvent : Completion → Option String) : Protocol where
  opening := []
  frames evt := (formatProgress evt).toList
  timedOut := toolTimeout.toList
  closing _ result := (result.bind completionToResultEvent).toList

/-! ## States -/

/-- Where the task of a stream is. -/
inductive Phase
  /-- Waits for the lock, to insert its entry. -/
  | inserting
  /-- Hands the event over to the flow. -/
  | dispatching
  /-- Waits for the lock, to remove its entry and refuse the request. -/
  | rejecting
  | opening (frames : List String)
  /-- In the `select!` of the loop. -/
  | selecting
  /-- Forwards a progress event. -/
  | forwarding (frames : List String)
  /-- Waits for the lock, to remove its entry after the client is gone. -/
  | leaving
  /-- Waits for the lock in the branch of the deadline, and for progress. -/
  | expiring
  /-- In the rest of that branch. -/
  | notifying (frames : List String)
  /-- Waits for the lock, to remove its entry after the branch. -/
  | removing (completion : Option Completion)
  | draining (completion : Option Completion) (frames : List String)
  | closing (frames : List String)
  | done
deriving DecidableEq

/-- The task waits for the lock to remove its entry. -/
def Phase.removes : Phase → Bool
  | .rejecting | .leaving | .expiring | .removing _ => true
  | _ => false

/-- The task waits for nothing but the lock. -/
def Phase.locking : Phase → Bool
  | .inserting | .rejecting | .leaving | .removing _ => true
  | _ => false

/-- The task is in its `select!`, or in a branch of it, and takes progress. -/
def Phase.receives : Phase → Bool
  | .selecting | .expiring | .notifying _ => true
  | _ => false

/-- A stream: its loop, the progress channel it reads, and the channel its
client reads. -/
structure Stream where
  protocol : Protocol
  phase : Phase := .inserting
  progress : List ProgressEvent := []
  streamed : Bool := false
  sse : List String := []
  connected : Bool := true

/-- The receiver of the progress channel has not been dropped. -/
def Stream.receiving (st : Stream) : Bool := st.phase != .done

/-- A call of `send_progress`.  A correlation id is the stream it was made
for; `none` is one that belongs to no stream. -/
structure Call where
  id : Nat
  correlationId : Option Nat
  progress : ProgressEvent

/-- Who waits for the lock. -/
inductive Party
  | send (call : Call)
  | stream (i : Nat)

structure State where
  entries : List Nat := []
  /-- The call that holds the lock while it waits for room. -/
  lock : Option Call := none
  waiting : List Party := []
  calls : Nat := 0
  returned : List (Nat × Bool) := []
  streams : List Stream := []

inductive Act
  | accept (protocol : Protocol)
  | grant
  | resume
  | sendProgress (correlationId : Option Nat) (progress : ProgressEvent)
  | dispatched (i : Nat) (ok : Bool)
  | send (i : Nat)
  | advance (i : Nat)
  | recv (i : Nat)
  | complete (i : Nat) (completion : Completion)
  | expire (i : Nat)
  | read (i : Nat)
  | disconnect (i : Nat)

/-- `mpsc::channel(32)`, for progress and for frames. -/
def capacity : Nat := 32

/-! ## Steps -/

def State.setStream (s : State) (i : Nat) (st : Stream) : State :=
  { s with streams := s.streams.set i st }

/-- The task of the stream asks for the lock. -/
def State.request (s : State) (i : Nat) (st : Stream) (phase : Phase) : State :=
  { s.setStream i { st with phase := phase } with waiting := s.waiting ++ [.stream i] }

/-- The lock request of the stream is dropped. -/
def State.withdraw (s : State) (i : Nat) : State :=
  { s with
    waiting := s.waiting.filter fun
      | .stream k => k != i
      | .send _ => true }

def State.reply (s : State) (call : Call) (ok : Bool) : State :=
  { s with returned := s.returned ++ [(call.id, ok)] }

/-- The task of the stream ends, and drops its channels. -/
def Stream.finish (st : Stream) : Stream := { st with phase := .done, progress := [] }

/-- `send_progress` under the lock. -/
def State.deliver (s : State) (call : Call) : State :=
  match call.correlationId with
  | none => s.reply call false
  | some i =>
      if i ∈ s.entries then
        match s.streams[i]? with
        | none => s.reply call false
        | some st =>
            if st.receiving then
              if st.progress.length < capacity then
                (s.setStream i { st with progress := st.progress ++ [call.progress] }).reply
                  call true
              else { s with lock := some call }
            else s.reply call false
      else s.reply call false

/-- `insert` or `remove` under the lock, and where the task goes on. -/
def State.serve (s : State) (i : Nat) (st : Stream) : State :=
  let removed := { s with entries := s.entries.filter (· != i) }
  match st.phase with
  | .inserting =>
      { s with entries := i :: s.entries }.setStream i { st with phase := .dispatching }
  | .rejecting | .leaving => removed.setStream i st.finish
  | .expiring => removed.setStream i { st with phase := .notifying st.protocol.timedOut }
  | .removing completion => removed.setStream i { st with phase := .draining completion [] }
  | _ => s

/-- A progress event is received, and the frames for it are to be sent. -/
def Stream.took (st : Stream) (evt : ProgressEvent) (rest : List ProgressEvent)
    (phase : List String → Phase) : Stream :=
  { st with
    phase := phase (st.protocol.frames evt)
    progress := rest
    streamed := st.streamed || evt.tool.isNone }

/-- The frames a task is sending, and where it is with the rest of them. -/
def Phase.sending : Phase → Option (String × Phase)
  | .opening (f :: fs) => some (f, .opening fs)
  | .forwarding (f :: fs) => some (f, .forwarding fs)
  | .notifying (f :: fs) => some (f, .notifying fs)
  | .draining completion (f :: fs) => some (f, .draining completion fs)
  | .closing (f :: fs) => some (f, .closing fs)
  | _ => none

def step (s : State) : Act → Option State
  | .accept protocol =>
      some
        { s with
          streams := s.streams ++ [{ protocol := protocol }]
          waiting := s.waiting ++ [.stream s.streams.length] }
  | .grant =>
      match s.lock, s.waiting with
      | none, .send call :: rest => some ({ s with waiting := rest }.deliver call)
      | none, .stream i :: rest =>
          (s.streams[i]?).map fun st => { s with waiting := rest }.serve i st
      | _, _ => none
  | .resume =>
      (s.lock).bind fun call => (call.correlationId).bind fun i => (s.streams[i]?).bind fun st =>
        if st.receiving ∧ capacity ≤ st.progress.length then none
        else some ({ s with lock := none }.deliver call)
  | .sendProgress correlationId progress =>
      -- a flow knows a correlation id once the request is dispatched
      if correlationId.all fun i => s.streams[i]?.any (·.phase != .inserting) then
        some
          { s with
            calls := s.calls + 1
            waiting := s.waiting ++ [.send ⟨s.calls, correlationId, progress⟩] }
      else none
  | .dispatched i ok =>
      (s.streams[i]?).bind fun st =>
        if st.phase = .dispatching then
          if ok then some (s.setStream i { st with phase := .opening st.protocol.opening })
          else some (s.request i st .rejecting)
        else none
  | .send i =>
      (s.streams[i]?).bind fun st => (st.phase.sending).bind fun (frame, phase) =>
        if st.connected then
          if st.sse.length < capacity then
            some (s.setStream i { st with phase := phase, sse := st.sse ++ [frame] })
          else none
        else
          match st.phase with
          | .opening _ => some (s.setStream i st.finish)
          | .forwarding _ => some (s.request i st .leaving)
          | _ => some (s.setStream i { st with phase := phase })
  | .advance i =>
      (s.streams[i]?).bind fun st =>
        match st.phase with
        | .opening [] | .forwarding [] => some (s.setStream i { st with phase := .selecting })
        | .notifying [] => some (s.request i st (.removing none))
        | .draining completion [] =>
            match st.progress, completion with
            | evt :: rest, _ => some (s.setStream i (st.took evt rest (.draining completion)))
            | [], some result =>
                let frames := st.protocol.closing st.streamed (some result)
                some (s.setStream i { st with phase := .closing frames })
            | [], none => some (s.setStream i st.finish)
        | .closing [] => some (s.setStream i st.finish)
        | _ => none
  | .recv i =>
      (s.streams[i]?).bind fun st =>
        if st.phase.receives then
          match st.progress with
          | evt :: rest => some ((s.withdraw i).setStream i (st.took evt rest .forwarding))
          | [] =>
              -- the channel is closed once its sender is gone with the entry
              if i ∈ s.entries then none
              else
                let frames := st.protocol.closing st.streamed none
                some ((s.withdraw i).setStream i { st with phase := .closing frames })
        else none
  | .complete i completion =>
      (s.streams[i]?).bind fun st =>
        if st.phase = .selecting then some (s.request i st (.removing (some completion))) else none
  | .expire i =>
      (s.streams[i]?).bind fun st =>
        if st.phase = .selecting then some (s.request i st .expiring) else none
  | .read i =>
      (s.streams[i]?).map fun st => s.setStream i { st with sse := st.sse.tail }
  | .disconnect i =>
      (s.streams[i]?).map fun st => s.setStream i { st with connected := false, sse := [] }

def machine : Machine State Act where
  init s := s = {}
  step := step

/-! ## What is claimed of it -/

/-- A call holds the lock and waits for room in a channel whose reader waits
for the lock. -/
def Deadlocked (s : State) : Prop :=
  ∃ call i st, s.lock = some call ∧ call.correlationId = some i ∧ s.streams[i]? = some st ∧
    capacity ≤ st.progress.length ∧ st.phase.locking = true

/-- The stream a party's operation is about. -/
def Party.correlationId : Party → Option Nat
  | .send call => call.correlationId
  | .stream i => some i

/-- A call of `send_progress`, or a `remove`, that has not been completed. -/
def State.Pending (s : State) : Party → Prop
  | .send call => .send call ∈ s.waiting ∨ s.lock = some call
  | .stream i => ∃ st, s.streams[i]? = some st ∧ st.phase.removes = true

def State.Completed (s : State) : Party → Prop
  | .send call => ∃ ok, (call.id, ok) ∈ s.returned
  | .stream i => i ∉ s.entries ∧ ∃ st, s.streams[i]? = some st ∧ st.phase.removes = false

def Act.byClient (i : Nat) : Act → Bool
  | .read k | .disconnect k => k == i
  | _ => false

/-- There is no deadlock, and whatever is pending for other streams can be
completed without the client of a stream doing anything. -/
structure Unblocked (s : State) : Prop where
  noDeadlock : ¬ Deadlocked s
  others : ∀ i p, s.Pending p → p.correlationId ≠ some i →
    ∃ as t, machine.Run s as t ∧ (∀ a ∈ as, a.byClient i = false) ∧ t.Completed p

/-! ## Room in the channels -/

def Party.sendsTo (i : Nat) : Party → Bool
  | .send call => call.correlationId == some i
  | .stream _ => false

/-- The calls for a stream that wait for the lock. -/
def State.pendingSends (s : State) (i : Nat) : Nat := s.waiting.countP (Party.sendsTo i)

/-- Progress is sent only while its channel has room for it and for the calls
that are still waiting. -/
def Roomy (s : State) : Act → Prop
  | .sendProgress correlationId _ =>
      ∀ i ∈ correlationId, i ∈ s.entries → ∀ st ∈ s.streams[i]?, st.receiving = true →
        st.progress.length + s.pendingSends i < capacity
  | _ => True

structure Inv (s : State) : Prop where
  lock : s.lock = none
  room : ∀ i ∈ s.entries, ∀ st, s.streams[i]? = some st → st.receiving = true →
    st.progress.length + s.pendingSends i ≤ capacity
  /-- Nothing has been sent for a stream that has not been inserted. -/
  inserting : ∀ i st, s.streams[i]? = some st → st.phase = .inserting →
    i ∉ s.entries ∧ st.progress = [] ∧ s.pendingSends i = 0
  entries : ∀ i ∈ s.entries, i < s.streams.length
  sends : ∀ i, 0 < s.pendingSends i → i < s.streams.length
  queued : ∀ i st, s.streams[i]? = some st → st.phase.removes = true → .stream i ∈ s.waiting
  tasks : ∀ i, .stream i ∈ s.waiting → i < s.streams.length

variable {s t : State} {st st' : Stream} {i k : Nat} {call : Call} {w rest : List Party}

theorem Inv.init : Inv {} := by
  refine ⟨rfl, ?_, ?_, ?_, ?_, ?_, ?_⟩
  · intro i hi
    cases hi
  · intro i st hst
    cases hst
  · intro i hi
    cases hi
  · intro i hi
    cases hi
  · intro i st hst
    cases hst
  · intro i hi
    cases hi

theorem Stream.receiving_of_phase {phase : Phase} (h : st.phase = phase) (hne : phase ≠ .done) :
    st.receiving = true := by
  rw [Stream.receiving, h]
  exact bne_iff_ne.mpr hne

/-- A task moves on: its channel is not fuller, and who waited still waits. -/
theorem Inv.update (h : Inv s) (hst : s.streams[i]? = some st)
    (hlen : st'.progress.length ≤ st.progress.length)
    (hrecv : st'.receiving = true → st.receiving = true)
    (hins : st'.phase = .inserting → st.phase = .inserting)
    (hcount : ∀ k, w.countP (Party.sendsTo k) = s.pendingSends k)
    (hw : ∀ k ≠ i, .stream k ∈ s.waiting ↔ .stream k ∈ w)
    (hq : st'.phase.removes = true → .stream i ∈ w) :
    Inv { s with streams := s.streams.set i st', waiting := w } := by
  refine ⟨h.lock, ?_, ?_, ?_, ?_, ?_, ?_⟩
  · intro k hk x hx hrx
    show x.progress.length + w.countP _ ≤ capacity
    rw [hcount]
    rcases get_set hx with ⟨rfl, rfl⟩ | ⟨_, hx⟩
    · have := h.room k hk st hst (hrecv hrx)
      omega
    · exact h.room k hk x hx hrx
  · intro k x hx hphase
    show k ∉ s.entries ∧ x.progress = [] ∧ w.countP _ = 0
    rw [hcount]
    rcases get_set hx with ⟨rfl, rfl⟩ | ⟨_, hx⟩
    · obtain ⟨hent, hprog, hzero⟩ := h.inserting k st hst (hins hphase)
      refine ⟨hent, List.eq_nil_of_length_eq_zero (Nat.le_zero.mp ?_), hzero⟩
      rw [hprog] at hlen
      exact hlen
    · exact h.inserting k x hx hphase
  · intro k hk
    show k < (s.streams.set i st').length
    rw [List.length_set]
    exact h.entries k hk
  · intro k hk
    show k < (s.streams.set i st').length
    rw [List.length_set]
    exact h.sends k (hcount k ▸ hk)
  · intro k x hx hremoves
    rcases get_set hx with ⟨rfl, rfl⟩ | ⟨hne, hx⟩
    · exact hq hremoves
    · exact (hw k hne).mp (h.queued k x hx hremoves)
  · intro k hk
    show k < (s.streams.set i st').length
    rw [List.length_set]
    by_cases hki : k = i
    · exact hki ▸ (List.getElem?_eq_some_iff.mp hst).1
    · exact h.tasks k ((hw k hki).mpr hk)

theorem Inv.setStream (h : Inv s) (hst : s.streams[i]? = some st)
    (hlen : st'.progress.length ≤ st.progress.length)
    (hrecv : st'.receiving = true → st.receiving = true)
    (hins : st'.phase = .inserting → st.phase = .inserting)
    (hq : st'.phase.removes = true → .stream i ∈ s.waiting) : Inv (s.setStream i st') :=
  h.update hst hlen hrecv hins (fun _ => rfl) (fun _ _ => Iff.rfl) hq

theorem Inv.request (h : Inv s) (hst : s.streams[i]? = some st) {phase : Phase}
    (hrecv : phase ≠ .done → st.receiving = true) (hins : phase ≠ .inserting) :
    Inv (s.request i st phase) := by
  refine h.update hst (Nat.le_refl _) ?_ (fun heq => absurd heq hins) ?_ ?_ ?_
  · intro hr
    exact hrecv (bne_iff_ne.mp hr)
  · intro k
    rw [List.countP_append]
    rfl
  · intro k hk
    rw [List.mem_append, List.mem_singleton]
    constructor
    · exact Or.inl
    · rintro (hmem | heq)
      · exact hmem
      · exact absurd (Party.stream.inj heq) hk
  · intro _
    exact List.mem_append_right _ (List.mem_singleton_self _)

theorem countP_withdraw (w : List Party) (k : Nat) :
    (w.filter fun | .stream k => k != i | .send _ => true).countP (Party.sendsTo k) =
      w.countP (Party.sendsTo k) := by
  rw [List.countP_filter]
  congr 1
  funext p
  cases p with
  | send call => simp
  | stream j => simp [Party.sendsTo]

/-- A task gets progress while it waits for the lock. -/
theorem Inv.withdraw (h : Inv s) (hst : s.streams[i]? = some st)
    (hlen : st'.progress.length ≤ st.progress.length)
    (hrecv : st'.receiving = true → st.receiving = true)
    (hins : st'.phase = .inserting → st.phase = .inserting)
    (hremoves : st'.phase.removes = false) : Inv ((s.withdraw i).setStream i st') := by
  refine h.update hst hlen hrecv hins (countP_withdraw s.waiting) ?_ ?_
  · intro k hk
    constructor
    · intro hmem
      exact List.mem_filter.mpr ⟨hmem, bne_iff_ne.mpr hk⟩
    · intro hmem
      exact (List.mem_filter.mp hmem).1
  · intro hr
    rw [hremoves] at hr
    cases hr

/-! ## The lock -/

/-- The head of the queue is gone, and was not a task that removes its entry. -/
theorem Inv.pop (h : Inv s) {p : Party} (hwait : s.waiting = p :: rest)
    (hp : ∀ i st, p = .stream i → s.streams[i]? = some st → st.phase.removes = false) :
    Inv { s with waiting := rest } := by
  have hcount : ∀ k, rest.countP (Party.sendsTo k) ≤ s.pendingSends k := by
    intro k
    rw [State.pendingSends, hwait]
    exact List.Sublist.countP_le (List.sublist_cons_self p rest)
  refine ⟨h.lock, ?_, ?_, h.entries, ?_, ?_, ?_⟩
  · intro k hk x hx hrx
    show x.progress.length + rest.countP _ ≤ capacity
    have := h.room k hk x hx hrx
    have := hcount k
    omega
  · intro k x hx hphase
    obtain ⟨hent, hprog, hzero⟩ := h.inserting k x hx hphase
    exact ⟨hent, hprog, Nat.le_zero.mp (hzero ▸ hcount k)⟩
  · intro k hk
    exact h.sends k (Nat.lt_of_lt_of_le hk (hcount k))
  · intro k x hx hremoves
    have hmem := h.queued k x hx hremoves
    rw [hwait] at hmem
    rcases List.mem_cons.mp hmem with heq | hmem
    · rw [hp k x heq.symm hx] at hremoves
      cases hremoves
    · exact hmem
  · intro k hk
    exact h.tasks k (hwait ▸ List.mem_cons_of_mem p hk)

/-- Progress gets into a channel that has room for it. -/
theorem Inv.push (h : Inv s) (hst : s.streams[i]? = some st) (hent : i ∈ s.entries)
    (hlt : st.progress.length + s.pendingSends i < capacity) (evt : ProgressEvent) :
    Inv (s.setStream i { st with progress := st.progress ++ [evt] }) := by
  have hlen : (s.setStream i { st with progress := st.progress ++ [evt] }).streams.length =
      s.streams.length := List.length_set
  refine ⟨h.lock, ?_, ?_, ?_, ?_, ?_, ?_⟩
  · intro k hk x hx hrx
    show x.progress.length + s.pendingSends k ≤ capacity
    rcases get_set hx with ⟨rfl, rfl⟩ | ⟨_, hx⟩
    · rw [List.length_append, List.length_singleton]
      omega
    · exact h.room k hk x hx hrx
  · intro k x hx hphase
    rcases get_set hx with ⟨rfl, rfl⟩ | ⟨_, hx⟩
    · exact absurd hent (h.inserting k st hst hphase).1
    · exact h.inserting k x hx hphase
  · intro k hk
    exact hlen ▸ h.entries k hk
  · intro k hk
    exact hlen ▸ h.sends k hk
  · intro k x hx hremoves
    rcases get_set hx with ⟨rfl, rfl⟩ | ⟨_, hx⟩
    · exact h.queued k st hst hremoves
    · exact h.queued k x hx hremoves
  · intro k hk
    exact hlen ▸ h.tasks k hk

theorem Inv.reply (h : Inv s) (call : Call) (ok : Bool) :
    Inv (s.reply call ok) ∧ ∃ ok', (call.id, ok') ∈ (s.reply call ok).returned := by
  refine ⟨⟨h.lock, h.room, h.inserting, h.entries, h.sends, h.queued, h.tasks⟩, ok, ?_⟩
  exact List.mem_append_right _ (List.mem_singleton_self _)

/-- All that `send_progress` does under the lock: it returns, pushes its event,
or keeps the lock. -/
theorem deliver_cases (s : State) (call : Call) :
    (∃ ok, s.deliver call = s.reply call ok) ∨
      ∃ i st, call.correlationId = some i ∧ i ∈ s.entries ∧ s.streams[i]? = some st ∧
        st.receiving = true ∧
        (s.deliver call =
            (s.setStream i { st with progress := st.progress ++ [call.progress] }).reply call true ∨
          capacity ≤ st.progress.length ∧ s.deliver call = { s with lock := some call }) := by
  rw [State.deliver]
  split
  · exact Or.inl ⟨false, rfl⟩
  · rename_i i hc
    split
    · rename_i hent
      split
      · exact Or.inl ⟨false, rfl⟩
      · rename_i st hst
        split
        · rename_i hrecv
          refine Or.inr ⟨i, st, hc, hent, hst, hrecv, ?_⟩
          split
          · exact Or.inl rfl
          · rename_i hfull
            exact Or.inr ⟨Nat.le_of_not_lt hfull, rfl⟩
        · exact Or.inl ⟨false, rfl⟩
    · exact Or.inl ⟨false, rfl⟩

/-- A call that finds room, or nobody to send to, returns. -/
theorem Inv.deliver (h : Inv s)
    (hroom : ∀ i, call.correlationId = some i → i ∈ s.entries → ∀ st, s.streams[i]? = some st →
      st.receiving = true → st.progress.length + s.pendingSends i < capacity) :
    Inv (s.deliver call) ∧ ∃ ok, (call.id, ok) ∈ (s.deliver call).returned := by
  rcases deliver_cases s call with ⟨ok, heq⟩ | ⟨i, st, hc, hent, hst, hrecv, heq | ⟨hfull, _⟩⟩
  · rw [heq]
    exact h.reply call ok
  · rw [heq]
    exact (h.push hst hent (hroom i hc hent st hst hrecv) call.progress).reply call true
  · have := hroom i hc hent st hst hrecv
    omega

/-- The entry of a stream is inserted. -/
theorem Inv.enter (h : Inv s) (hst : s.streams[i]? = some st) (hphase : st.phase ≠ .inserting)
    (hprogress : st.progress = []) (hsends : s.pendingSends i = 0) :
    Inv { s with entries := i :: s.entries } := by
  refine ⟨h.lock, ?_, ?_, ?_, h.sends, h.queued, h.tasks⟩
  · intro k hk x hx hrx
    rcases List.mem_cons.mp hk with rfl | hk
    · obtain rfl := Option.some.inj (hst.symm.trans hx)
      show st.progress.length + s.pendingSends k ≤ capacity
      rw [hprogress, hsends]
      exact Nat.zero_le _
    · exact h.room k hk x hx hrx
  · intro k x hx hins
    obtain ⟨hent, hrest⟩ := h.inserting k x hx hins
    refine ⟨?_, hrest⟩
    intro hk
    rcases List.mem_cons.mp hk with rfl | hk
    · obtain rfl := Option.some.inj (hst.symm.trans hx)
      exact hphase hins
    · exact hent hk
  · intro k hk
    rcases List.mem_cons.mp hk with rfl | hk
    · exact (List.getElem?_eq_some_iff.mp hst).1
    · exact h.entries k hk

theorem Inv.remove (h : Inv s) (i : Nat) :
    Inv { s with entries := s.entries.filter (· != i) } := by
  refine ⟨h.lock, ?_, ?_, ?_, h.sends, h.queued, h.tasks⟩
  · intro k hk
    exact h.room k (List.mem_filter.mp hk).1
  · intro k x hx hins
    obtain ⟨hent, hrest⟩ := h.inserting k x hx hins
    exact ⟨fun hk => hent (List.mem_filter.mp hk).1, hrest⟩
  · intro k hk
    exact h.entries k (List.mem_filter.mp hk).1

/-- The task that gets the lock does its operation; a remove is completed. -/
theorem Inv.serve (h : Inv s) (hwait : s.waiting = .stream i :: rest)
    (hst : s.streams[i]? = some st) :
    Inv ({ s with waiting := rest }.serve i st) ∧
      (st.phase.removes = true → ({ s with waiting := rest }.serve i st).Completed (.stream i)) := by
  have hcount : ∀ k, rest.countP (Party.sendsTo k) = s.pendingSends k := by
    intro k
    rw [State.pendingSends, hwait, List.countP_cons]
    rfl
  have hw : ∀ k ≠ i, Party.stream k ∈ s.waiting ↔ Party.stream k ∈ rest := by
    intro k hk
    rw [hwait, List.mem_cons, Party.stream.injEq]
    exact or_iff_right hk
  have hlt : i < s.streams.length := (List.getElem?_eq_some_iff.mp hst).1
  -- a remove, after which the task is at a phase that is not one of the lock
  have hremoved : ∀ st' : Stream, st'.progress.length ≤ st.progress.length →
      (st'.receiving = true → st.receiving = true) →
      (st'.phase = .inserting → st.phase = .inserting) →
      st'.phase.removes = false →
      let t := State.setStream
        { s with waiting := rest, entries := s.entries.filter (· != i) } i st'
      Inv t ∧ t.Completed (.stream i) := by
    intro st' hlen hrecv hins hremoves
    refine ⟨(h.remove i).update hst hlen hrecv hins hcount hw ?_, ?_, st', ?_, hremoves⟩
    · intro hr
      rw [hremoves] at hr
      cases hr
    · intro hmem
      exact bne_iff_ne.mp (List.mem_filter.mp hmem).2 rfl
    · exact List.getElem?_set_self hlt
  rw [State.serve]
  cases hphase : st.phase with
  | inserting =>
      obtain ⟨_, hprog, hsends⟩ := h.inserting i st hst hphase
      refine ⟨?_, fun hr => Bool.noConfusion hr⟩
      have hinv : Inv
          { s with
            streams := s.streams.set i { st with phase := .dispatching }
            waiting := rest } := by
        refine h.update hst (Nat.le_refl _) ?_ ?_ hcount hw ?_
        · intro _
          exact Stream.receiving_of_phase hphase Phase.noConfusion
        · exact Phase.noConfusion
        · exact Bool.noConfusion
      refine hinv.enter (List.getElem?_set_self hlt) Phase.noConfusion hprog ?_
      exact (hcount i).trans hsends
  | rejecting | leaving =>
      obtain ⟨hinv, hdone⟩ := hremoved st.finish (Nat.zero_le _) Bool.noConfusion Phase.noConfusion rfl
      exact ⟨hinv, fun _ => hdone⟩
  | expiring =>
      have hrecv : st.receiving = true := Stream.receiving_of_phase hphase Phase.noConfusion
      obtain ⟨hinv, hdone⟩ := hremoved { st with phase := .notifying st.protocol.timedOut }
        (Nat.le_refl _) (fun _ => hrecv) Phase.noConfusion rfl
      exact ⟨hinv, fun _ => hdone⟩
  | removing completion =>
      have hrecv : st.receiving = true := Stream.receiving_of_phase hphase Phase.noConfusion
      obtain ⟨hinv, hdone⟩ := hremoved { st with phase := .draining completion [] }
        (Nat.le_refl _) (fun _ => hrecv) Phase.noConfusion rfl
      exact ⟨hinv, fun _ => hdone⟩
  | dispatching | opening | selecting | forwarding | notifying | draining | closing | done =>
      refine ⟨h.pop hwait ?_, fun hr => Bool.noConfusion hr⟩
      intro k x hk hx
      obtain rfl := Party.stream.inj hk
      obtain rfl := Option.some.inj (hst.symm.trans hx)
      rw [hphase]
      rfl

theorem waiting_deliver : (s.deliver call).waiting = s.waiting := by
  rcases deliver_cases s call with ⟨ok, heq⟩ | ⟨i, st, _, _, _, _, heq | ⟨_, heq⟩⟩
  all_goals exact heq ▸ rfl

/-- Progress does not move the task that will read it. -/
theorem phase_deliver (call : Call) (h : s.streams[k]? = some st) :
    ∃ st', (s.deliver call).streams[k]? = some st' ∧ st'.phase = st.phase := by
  rcases deliver_cases s call with ⟨ok, heq⟩ | ⟨i, x, _, _, hx, _, heq | ⟨_, heq⟩⟩
  · rw [heq]
    exact ⟨st, h, rfl⟩
  · rw [heq]
    by_cases hk : k = i
    · subst hk
      obtain rfl := Option.some.inj (h.symm.trans hx)
      exact ⟨_, List.getElem?_set_self (List.getElem?_eq_some_iff.mp h).1, rfl⟩
    · exact ⟨st, (List.getElem?_set_ne (Ne.symm hk)).trans h, rfl⟩
  · rw [heq]
    exact ⟨st, h, rfl⟩

theorem waiting_serve : (s.serve i st).waiting = s.waiting := by
  unfold State.serve
  dsimp only
  split <;> rfl

theorem streams_serve (hk : k ≠ i) : (s.serve i st).streams[k]? = s.streams[k]? := by
  unfold State.serve
  dsimp only
  split
  all_goals first
    | exact List.getElem?_set_ne (Ne.symm hk)
    | rfl

/-- What the lock being granted to the head of the queue does. -/
structure Granted (s : State) (p : Party) (rest : List Party) (t : State) : Prop where
  inv : Inv t
  waiting : t.waiting = rest
  completed : s.Pending p → t.Completed p
  pending : ∀ k, p ≠ .stream k → s.Pending (.stream k) → t.Pending (.stream k)

theorem Inv.grant (h : Inv s) {p : Party} (hwait : s.waiting = p :: rest) :
    ∃ t, step s .grant = some t ∧ Granted s p rest t := by
  cases p with
  | send call =>
      have hpop : Inv { s with waiting := rest } := h.pop hwait (by intro i st hp; cases hp)
      have hroom : ∀ i, call.correlationId = some i → i ∈ s.entries → ∀ st,
          s.streams[i]? = some st → st.receiving = true →
          st.progress.length + rest.countP (Party.sendsTo i) < capacity := by
        intro i hc hent st hst hrecv
        have hle := h.room i hent st hst hrecv
        have hsends : Party.sendsTo i (.send call) = true := beq_iff_eq.mpr hc
        rw [State.pendingSends, hwait, List.countP_cons_of_pos hsends] at hle
        omega
      obtain ⟨hinv, hreturned⟩ := hpop.deliver hroom
      refine ⟨{ s with waiting := rest }.deliver call, ?_, hinv, waiting_deliver, ?_, ?_⟩
      · simp only [step, h.lock, hwait]
      · intro _
        exact hreturned
      · rintro k - ⟨st, hst, hremoves⟩
        have hst₀ : ({ s with waiting := rest } : State).streams[k]? = some st := hst
        obtain ⟨st', hst', hphase⟩ := phase_deliver call hst₀
        exact ⟨st', hst', hphase ▸ hremoves⟩
  | stream i =>
      have hlt : i < s.streams.length := h.tasks i (hwait ▸ List.mem_cons_self)
      have hst : s.streams[i]? = some s.streams[i] := List.getElem?_eq_getElem hlt
      obtain ⟨hinv, hcompleted⟩ := h.serve hwait hst
      refine ⟨{ s with waiting := rest }.serve i s.streams[i], ?_, hinv, waiting_serve, ?_, ?_⟩
      · simp only [step, h.lock, hwait, hst, Option.map_some]
      · rintro ⟨st, hst', hremoves⟩
        obtain rfl := Option.some.inj (hst.symm.trans hst')
        exact hcompleted hremoves
      · rintro k hne ⟨st, hst', hremoves⟩
        have hk : k ≠ i := fun heq => hne (heq ▸ rfl)
        exact ⟨st, (streams_serve hk).trans hst', hremoves⟩

/-! ## Steps -/

theorem Phase.sending_ne {phase phase' : Phase} {frame : String}
    (h : phase.sending = some (frame, phase')) :
    phase ≠ .done ∧ phase' ≠ .inserting ∧ phase'.removes = false := by
  unfold Phase.sending at h
  split at h
  all_goals cases h
  all_goals exact ⟨Phase.noConfusion, Phase.noConfusion, rfl⟩

theorem Inv.sendFrame (h : Inv s) (hs : step s (.send i) = some t) : Inv t := by
  obtain ⟨st, hst, hs⟩ := Option.bind_eq_some_iff.mp hs
  obtain ⟨⟨frame, phase⟩, hsending, hs⟩ := Option.bind_eq_some_iff.mp hs
  obtain ⟨hdone, hins, hremoves⟩ := Phase.sending_ne hsending
  have hrecv : st.receiving = true := bne_iff_ne.mpr hdone
  have hnot : ¬ phase.removes = true := by
    rw [hremoves]
    exact Bool.false_ne_true
  dsimp only at hs
  split at hs
  · split at hs
    · cases hs
      exact h.setStream hst (Nat.le_refl _) (fun _ => hrecv) (fun heq => absurd heq hins)
        fun hr => absurd hr hnot
    · cases hs
  · split at hs
    · cases hs
      exact h.setStream hst (Nat.zero_le _) Bool.noConfusion Phase.noConfusion Bool.noConfusion
    · cases hs
      exact h.request hst (fun _ => hrecv) Phase.noConfusion
    · cases hs
      exact h.setStream hst (Nat.le_refl _) (fun _ => hrecv) (fun heq => absurd heq hins)
        fun hr => absurd hr hnot

theorem Inv.advance (h : Inv s) (hs : step s (.advance i) = some t) : Inv t := by
  obtain ⟨st, hst, hs⟩ := Option.bind_eq_some_iff.mp hs
  have hrecv : st.phase ≠ .done → st.receiving = true := bne_iff_ne.mpr
  cases hphase : st.phase with
  | opening frames | forwarding frames =>
      simp only [hphase] at hs hrecv
      cases frames with
      | nil =>
          cases hs
          exact h.setStream hst (Nat.le_refl _) (fun _ => hrecv Phase.noConfusion)
            Phase.noConfusion Bool.noConfusion
      | cons f fs => cases hs
  | notifying frames =>
      simp only [hphase] at hs hrecv
      cases frames with
      | nil =>
          cases hs
          exact h.request hst (fun _ => hrecv Phase.noConfusion) Phase.noConfusion
      | cons f fs => cases hs
  | draining completion frames =>
      simp only [hphase] at hs hrecv
      cases frames with
      | nil =>
          cases hprog : st.progress with
          | cons evt rest =>
              simp only [hprog] at hs
              cases hs
              refine h.setStream hst ?_ (fun _ => hrecv Phase.noConfusion) Phase.noConfusion
                Bool.noConfusion
              rw [hprog]
              exact Nat.le_succ _
          | nil =>
              simp only [hprog] at hs
              cases completion with
              | some result =>
                  cases hs
                  exact h.setStream hst (Nat.zero_le _) (fun _ => hrecv Phase.noConfusion)
                    Phase.noConfusion Bool.noConfusion
              | none =>
                  cases hs
                  exact h.setStream hst (Nat.zero_le _) Bool.noConfusion Phase.noConfusion
                    Bool.noConfusion
      | cons f fs => cases hs
  | closing frames =>
      simp only [hphase] at hs
      cases frames with
      | nil =>
          cases hs
          exact h.setStream hst (Nat.zero_le _) Bool.noConfusion Phase.noConfusion
            Bool.noConfusion
      | cons f fs => cases hs
  | inserting | dispatching | rejecting | selecting | leaving | expiring | removing | done =>
      simp only [hphase] at hs
      cases hs

theorem Inv.recv (h : Inv s) (hs : step s (.recv i) = some t) : Inv t := by
  obtain ⟨st, hst, hs⟩ := Option.bind_eq_some_iff.mp hs
  split at hs
  · rename_i hphase
    have hrecv : st.receiving = true := by
      refine bne_iff_ne.mpr ?_
      intro hdone
      rw [hdone] at hphase
      cases hphase
    cases hprog : st.progress with
    | cons evt rest =>
        simp only [hprog] at hs
        cases hs
        refine h.withdraw hst ?_ (fun _ => hrecv) Phase.noConfusion rfl
        rw [hprog]
        exact Nat.le_succ _
    | nil =>
        simp only [hprog] at hs
        split at hs
        · cases hs
        · cases hs
          exact h.withdraw hst (Nat.zero_le _) (fun _ => hrecv) Phase.noConfusion rfl
  · cases hs

/-- A request arrives. -/
theorem Inv.accept (h : Inv s) (protocol : Protocol) :
    Inv { s with
      streams := s.streams ++ [{ protocol := protocol }]
      waiting := s.waiting ++ [.stream s.streams.length] } := by
  have hcount : ∀ k, List.countP (Party.sendsTo k) (s.waiting ++ [Party.stream s.streams.length]) =
      s.pendingSends k := by
    intro k
    rw [List.countP_append]
    rfl
  have hlen : (s.streams ++ [({ protocol := protocol } : Stream)]).length = s.streams.length + 1 := by
    rw [List.length_append, List.length_singleton]
  refine ⟨h.lock, ?_, ?_, ?_, ?_, ?_, ?_⟩
  · intro k hk x hx hrx
    show x.progress.length + List.countP _ _ ≤ capacity
    rw [hcount]
    rcases get_concat hx with hx | ⟨rfl, rfl⟩
    · exact h.room k hk x hx hrx
    · exact absurd (h.entries _ hk) (Nat.lt_irrefl _)
  · intro k x hx hphase
    show k ∉ s.entries ∧ x.progress = [] ∧ List.countP _ _ = 0
    rw [hcount]
    rcases get_concat hx with hx | ⟨rfl, rfl⟩
    · exact h.inserting k x hx hphase
    · refine ⟨fun hk => absurd (h.entries _ hk) (Nat.lt_irrefl _), rfl, ?_⟩
      exact Nat.eq_zero_of_not_pos fun hpos => Nat.lt_irrefl _ (h.sends _ hpos)
  · intro k hk
    show k < (s.streams ++ _).length
    have := h.entries k hk
    omega
  · intro k hk
    show k < (s.streams ++ _).length
    have := h.sends k (hcount k ▸ hk)
    omega
  · intro k x hx hremoves
    rcases get_concat hx with hx | ⟨rfl, rfl⟩
    · exact List.mem_append_left _ (h.queued k x hx hremoves)
    · cases hremoves
  · intro k hk
    show k < (s.streams ++ _).length
    rcases List.mem_append.mp hk with hk | hk
    · have := h.tasks k hk
      omega
    · obtain rfl := Party.stream.inj (List.mem_singleton.mp hk)
      omega

/-- A call that is made while there is room for it. -/
theorem Inv.sendProgress (h : Inv s) (call : Call)
    (hknown : (call.correlationId.all fun i => s.streams[i]?.any (·.phase != .inserting)) = true)
    (hroom : ∀ i ∈ call.correlationId, i ∈ s.entries → ∀ st ∈ s.streams[i]?,
      st.receiving = true → st.progress.length + s.pendingSends i < capacity) (n : Nat) :
    Inv { s with calls := n, waiting := s.waiting ++ [.send call] } := by
  have hcount : ∀ k, List.countP (Party.sendsTo k) (s.waiting ++ [Party.send call]) =
      s.pendingSends k + if call.correlationId = some k then 1 else 0 := by
    intro k
    rw [List.countP_append, List.countP_singleton]
    simp [State.pendingSends, Party.sendsTo]
  refine ⟨h.lock, ?_, ?_, h.entries, ?_, ?_, ?_⟩
  · intro k hk x hx hrx
    show x.progress.length + List.countP _ _ ≤ capacity
    rw [hcount]
    split
    · rename_i hc
      have := hroom k hc hk x hx hrx
      omega
    · exact h.room k hk x hx hrx
  · intro k x hx hphase
    show k ∉ s.entries ∧ x.progress = [] ∧ List.countP _ _ = 0
    obtain ⟨hent, hprog, hzero⟩ := h.inserting k x hx hphase
    refine ⟨hent, hprog, ?_⟩
    rw [hcount, hzero]
    split
    · rename_i hc
      rw [hc, Option.all_some, hx, Option.any_some, hphase] at hknown
      cases hknown
    · rfl
  · intro k hk
    show k < s.streams.length
    have hk' : 0 < List.countP _ _ := hk
    rw [hcount] at hk'
    split at hk'
    · rename_i hc
      rw [hc, Option.all_some] at hknown
      obtain ⟨x, hx, _⟩ := (Option.any_eq_true ..).mp hknown
      exact (List.getElem?_eq_some_iff.mp hx).1
    · exact h.sends k hk'
  · intro k x hx hremoves
    exact List.mem_append_left _ (h.queued k x hx hremoves)
  · intro k hk
    rcases List.mem_append.mp hk with hk | hk
    · exact h.tasks k hk
    · cases List.mem_singleton.mp hk

theorem Inv.step {a : Act} (h : Inv s) (hok : Roomy s a) (hs : step s a = some t) : Inv t := by
  cases a with
  | accept protocol =>
      cases hs
      exact h.accept protocol
  | grant =>
      cases hwait : s.waiting with
      | nil =>
          simp only [Response.step, h.lock, hwait] at hs
          cases hs
      | cons p rest =>
          obtain ⟨u, hu, hgranted⟩ := h.grant hwait
          obtain rfl := Option.some.inj (hs.symm.trans hu)
          exact hgranted.inv
  | resume =>
      simp only [Response.step, h.lock] at hs
      cases hs
  | sendProgress correlationId progress =>
      simp only [Response.step] at hs
      split at hs
      · rename_i hknown
        cases hs
        exact h.sendProgress ⟨s.calls, correlationId, progress⟩ hknown hok _
      · cases hs
  | dispatched i ok =>
      obtain ⟨st, hst, hs⟩ := Option.bind_eq_some_iff.mp hs
      split at hs
      · rename_i hphase
        have hrecv : st.receiving = true := Stream.receiving_of_phase hphase Phase.noConfusion
        split at hs
        · cases hs
          exact h.setStream hst (Nat.le_refl _) (fun _ => hrecv) Phase.noConfusion Bool.noConfusion
        · cases hs
          exact h.request hst (fun _ => hrecv) Phase.noConfusion
      · cases hs
  | send i => exact h.sendFrame hs
  | advance i => exact h.advance hs
  | recv i => exact h.recv hs
  | complete i completion =>
      obtain ⟨st, hst, hs⟩ := Option.bind_eq_some_iff.mp hs
      split at hs
      · rename_i hphase
        cases hs
        refine h.request hst ?_ Phase.noConfusion
        intro _
        exact Stream.receiving_of_phase hphase Phase.noConfusion
      · cases hs
  | expire i =>
      obtain ⟨st, hst, hs⟩ := Option.bind_eq_some_iff.mp hs
      split at hs
      · rename_i hphase
        cases hs
        refine h.request hst ?_ Phase.noConfusion
        intro _
        exact Stream.receiving_of_phase hphase Phase.noConfusion
      · cases hs
  | read i | disconnect i =>
      obtain ⟨st, hst, rfl⟩ := Option.map_eq_some_iff.mp hs
      -- the client moves only its own end
      exact h.setStream hst (Nat.le_refl _) id id (h.queued i st hst)

/-! ## Nobody is blocked -/

/-- Granting the lock, again and again, completes whatever is pending. -/
theorem Inv.completes (h : Inv s) {p : Party} (hp : s.Pending p) :
    ∃ as t, machine.Run s as t ∧ (∀ a ∈ as, a = .grant) ∧ t.Completed p := by
  have hserve : ∀ s q rest, (Inv s ∧ s.Pending p) → s.waiting = q :: rest →
      ∃ t, True ∧ machine.step s .grant = some t ∧ t.waiting = rest ∧
        (q = p → t.Completed p) ∧ (q ≠ p → Inv t ∧ t.Pending p) := by
    rintro s q rest ⟨hs, hpend⟩ hwait
    obtain ⟨t, ht, hg⟩ := hs.grant hwait
    refine ⟨t, trivial, ht, hg.waiting, ?_, ?_⟩
    · rintro rfl
      exact hg.completed hpend
    · intro hne
      refine ⟨hg.inv, ?_⟩
      cases p with
      | stream k => exact hg.pending k hne hpend
      | send call =>
          rcases hpend with hmem | hlock
          · rw [hwait] at hmem
            refine Or.inl ?_
            rw [hg.waiting]
            exact (List.mem_cons.mp hmem).resolve_left (Ne.symm hne)
          · rw [hs.lock] at hlock
            cases hlock
  have hmem : p ∈ s.waiting := by
    cases p with
    | stream k =>
        obtain ⟨st, hst, hremoves⟩ := hp
        exact h.queued k st hst hremoves
    | send call =>
        rcases hp with hmem | hlock
        · exact hmem
        · rw [h.lock] at hlock
          cases hlock
  exact Machine.exists_run_served (Q := State.waiting) hserve s ⟨h, hp⟩ hmem

theorem Inv.unblocked (h : Inv s) : Unblocked s := by
  refine ⟨?_, ?_⟩
  · rintro ⟨call, i, st, hlock, _⟩
    rw [h.lock] at hlock
    cases hlock
  · intro i p hp _
    obtain ⟨as, t, hr, has, ht⟩ := h.completes hp
    refine ⟨as, t, hr, ?_, ht⟩
    intro a ha
    obtain rfl := has a ha
    rfl

/-- As long as progress is sent only where there is room for it, no call holds
the lock while it waits, and the calls and removes of all streams can be
completed whatever the clients do. -/
theorem progress_unblocked (h : machine.ReachableBy Roomy s) : Unblocked s := by
  refine Inv.unblocked (h.invariant ?_ ?_)
  · rintro s rfl
    exact Inv.init
  · intro s a t hs hok hstep
    exact hs.step hok hstep

instance : ∀ (s : State) (a : Act), Decidable (Roomy s a)
  | s, .sendProgress correlationId _ =>
      inferInstanceAs (Decidable (∀ i ∈ correlationId, i ∈ s.entries → ∀ st ∈ s.streams[i]?,
        st.receiving = true → st.progress.length + s.pendingSends i < capacity))
  | _, .accept .. | _, .grant | _, .resume | _, .dispatched .. | _, .send .. | _, .advance ..
  | _, .recv .. | _, .complete .. | _, .expire .. | _, .read .. | _, .disconnect .. =>
      inferInstanceAs (Decidable True)

/-- A gateway stream that writes one frame for each event. -/
def chat : Protocol :=
  gateway
    { opening := ["open"]
      textDelta := fun text => [text]
      toolStep := fun step => [step.name]
      finish := fun _ _ => ["done"] }

def token : ProgressEvent := { task := "agent", status := "t" }

/-- A request is accepted, and the loop is in its `select!`. -/
def opened (i : Nat) : List Act :=
  [.accept chat, .grant, .dispatched i true, .send i, .advance i]

/-- The client of one stream reads nothing; calls wait for the lock, and the
remove of another stream behind them is completed. -/
theorem progress_unblocked_two_streams :
    ∃ s, machine.ReachableBy Roomy s ∧ s.waiting.length = 3 ∧
      ∃ as t, machine.Run s as t ∧ (∀ a ∈ as, a.byClient 0 = false) ∧
        t.Completed (.stream 1) := by
  have hrun : ((machine.exec Roomy {}
      (opened 0 ++ opened 1 ++
        [Act.sendProgress (some 0) token, .grant, .sendProgress (some 0) token,
          .sendProgress (some 1) token, .complete 1 none])).any fun s : State =>
      s.waiting.length == 3 && s.streams[1]?.any fun st : Stream => st.phase.removes) = true := by
    decide
  obtain ⟨s, hr, hs⟩ := Machine.exists_of_exec hrun
  have hreach : machine.ReachableBy Roomy s := ⟨_, _, rfl, hr⟩
  rw [Bool.and_eq_true, beq_iff_eq] at hs
  obtain ⟨st, hst, hremoves⟩ := (Option.any_eq_true ..).mp hs.2
  obtain ⟨as, t, hrt, has, ht⟩ :=
    (progress_unblocked hreach).others 0 (.stream 1) ⟨st, hst, hremoves⟩ (by decide)
  exact ⟨s, hreach, hs.1, as, t, hrt, has, ht⟩

/-- The channel is full, one more call waits for room under the lock, and the
client goes away: the loop waits for the lock to remove its entry. -/
theorem deadlock_on_disconnect : ∃ s, machine.Reachable s ∧ Deadlocked s := by
  have hrun : ((machine.exec (fun _ _ => True) {}
      (opened 0 ++
        [Act.sendProgress (some 0) token, .grant, .recv 0] ++
        (List.replicate 33 [Act.sendProgress (some 0) token, .grant]).flatten ++
        [Act.disconnect 0, .send 0])).any fun s : State =>
      s.lock.any (fun call : Call => call.correlationId == some 0) &&
        s.streams[0]?.any fun st : Stream => decide (capacity ≤ st.progress.length) && st.phase.locking) =
      true := by
    decide
  obtain ⟨s, hr, hs⟩ := Machine.exists_of_exec hrun
  rw [Bool.and_eq_true] at hs
  obtain ⟨call, hcall, hid⟩ := (Option.any_eq_true ..).mp hs.1
  obtain ⟨st, hst, hfull⟩ := (Option.any_eq_true ..).mp hs.2
  rw [Bool.and_eq_true, decide_eq_true_eq] at hfull
  exact ⟨s, ⟨_, _, rfl, hr⟩, call, 0, st, hcall, beq_iff_eq.mp hid, hst, hfull.1, hfull.2⟩

end Flowgen.Response
