/-
# `Flowgen.AiGateway.Blocks` — the grammar of an Anthropic stream

A stream is `message_start`, then blocks numbered `0, 1, 2, …`, then
`message_delta` and `message_stop`.  A block is started, filled by at least one
delta, and stopped before the next one starts (`WellFormed`).  The writer keeps
to this whatever it is called with (`session_wellFormed`): consecutive texts
fill one block, and each tool call has a block of its own.
-/
import Flowgen.AiGateway.Aggregate

namespace Flowgen.AiGateway

/-! ## The grammar -/

/-- What a client has of a block when it is stopped. -/
inductive Block
  | text (text : String)
  | toolUse (call : Called)
deriving DecidableEq

/-- A block with the fragments that fill it. -/
inductive Piece
  | text (fragments : List String)
  | toolUse (id name : String) (fragments : List String)

namespace Piece

def fragments : Piece → List String
  | text fragments | toolUse _ _ fragments => fragments

/-- The block as it starts. -/
def contentBlock : Piece → OutputContentBlock
  | text _ => .text ""
  | toolUse id name _ => .toolUse id name

/-- The delta of a fragment. -/
def delta : Piece → String → BlockDelta
  | text _, fragment => .textDelta fragment
  | toolUse _ _ _, fragment => .inputJsonDelta fragment

/-- The frames of block number `index`. -/
def frames (index : Nat) (p : Piece) : List Frame :=
  .event (.contentBlockStart index p.contentBlock) ::
    (p.fragments.map fun fragment => .event (.contentBlockDelta index (p.delta fragment))) ++
    [.event (.contentBlockStop index)]

def block : Piece → Block
  | text fragments => .text (String.join fragments)
  | toolUse id name fragments => .toolUse ⟨id, name, String.join fragments⟩

end Piece

/-- The frames of pieces that are numbered from `n` on. -/
def numbered (n : Nat) (pieces : List Piece) : List Frame :=
  (pieces.zipIdx n).flatMap fun (p, index) => p.frames index

/-- A stream with these blocks. -/
def WellFormed (frames : List Frame) (blocks : List Block) : Prop :=
  ∃ (requestId model : String) (usage : AnthropicUsage) (pieces : List Piece)
    (stopReason : String) (usage' : AnthropicUsage),
    frames = .event (.messageStart requestId model usage) :: numbered 0 pieces ++
      [.event (.messageDelta stopReason usage'), .event .messageStop] ∧
    (∀ p ∈ pieces, p.fragments ≠ []) ∧ pieces.map Piece.block = blocks

theorem numbered_append (n : Nat) (pieces pieces' : List Piece) :
    numbered n (pieces ++ pieces') = numbered n pieces ++ numbered (n + pieces.length) pieces' := by
  simp [numbered, List.zipIdx_append]

theorem numbered_cons (n : Nat) (p : Piece) (pieces : List Piece) :
    numbered n (p :: pieces) = p.frames n ++ numbered (n + 1) pieces := rfl

/-! ## The client -/

/-- What a client has read. -/
inductive Reader
  | fresh
  | between (blocks : List Block)
  /-- In the block after `blocks`. -/
  | inside (blocks : List Block) (piece : Piece)
  | ending (blocks : List Block)
  | done (blocks : List Block)

/-- A block that starts. -/
def OutputContentBlock.piece : OutputContentBlock → Piece
  | .text content => .text (if content = "" then [] else [content])
  | .toolUse id name => .toolUse id name []

/-- A delta is of the kind of its block. -/
def Piece.add : Piece → BlockDelta → Option Piece
  | text fragments, .textDelta fragment => some (text (fragments ++ [fragment]))
  | toolUse id name fragments, .inputJsonDelta fragment =>
      some (toolUse id name (fragments ++ [fragment]))
  | _, _ => none

/-- A client takes only what is next in a well-formed stream. -/
def Reader.feed : Reader → Frame → Option Reader
  | .fresh, .event (.messageStart _ _ _) => some (.between [])
  | .between blocks, .event (.contentBlockStart index block) =>
      if index = blocks.length then some (.inside blocks block.piece) else none
  | .between blocks, .event (.messageDelta _ _) => some (.ending blocks)
  | .inside blocks piece, .event (.contentBlockDelta index delta) =>
      if index = blocks.length then (piece.add delta).map (.inside blocks) else none
  | .inside blocks piece, .event (.contentBlockStop index) =>
      if index = blocks.length ∧ piece.fragments ≠ [] then
        some (.between (blocks ++ [piece.block]))
      else none
  | .ending blocks, .event .messageStop => some (.done blocks)
  | _, _ => none

/-- The blocks of a whole stream. -/
def readStream (frames : List Frame) : Option (List Block) :=
  match frames.foldlM Reader.feed .fresh with
  | some (.done blocks) => some blocks
  | _ => none

/-- The same block with other fragments. -/
def Piece.withFragments : Piece → List String → Piece
  | text _, fragments => text fragments
  | toolUse id name _, fragments => toolUse id name fragments

theorem Piece.foldlM_deltas (p : Piece) (blocks : List Block) (read fragments : List String) :
    (fragments.map fun fragment =>
        Frame.event (.contentBlockDelta blocks.length (p.delta fragment))).foldlM Reader.feed
      (.inside blocks (p.withFragments read)) =
      some (.inside blocks (p.withFragments (read ++ fragments))) := by
  induction fragments generalizing read with
  | nil => simp
  | cons fragment fragments ih =>
      have hfeed : Reader.feed (.inside blocks (p.withFragments read))
          (.event (.contentBlockDelta blocks.length (p.delta fragment))) =
          some (.inside blocks (p.withFragments (read ++ [fragment]))) := by
        cases p <;> simp [Reader.feed, Piece.add, Piece.withFragments, Piece.delta]
      rw [List.map_cons, List.foldlM_cons, hfeed]
      show List.foldlM _ _ _ = _
      rw [ih, List.append_assoc, List.singleton_append]

/-- A client that has read `blocks` reads the next piece. -/
theorem Piece.foldlM_frames (p : Piece) (blocks : List Block) (hfilled : p.fragments ≠ []) :
    (p.frames blocks.length).foldlM Reader.feed (.between blocks) =
      some (.between (blocks ++ [p.block])) := by
  have hstart : Reader.feed (.between blocks)
      (.event (.contentBlockStart blocks.length p.contentBlock)) =
      some (.inside blocks (p.withFragments [])) := by
    cases p <;> simp [Reader.feed, Piece.contentBlock, OutputContentBlock.piece,
      Piece.withFragments]
  have hsame : p.withFragments p.fragments = p := by cases p <;> rfl
  have hstop : Reader.feed (.inside blocks p) (.event (.contentBlockStop blocks.length)) =
      some (.between (blocks ++ [p.block])) := by
    simp [Reader.feed, hfilled]
  rw [Piece.frames, List.cons_append, List.foldlM_cons, hstart]
  show List.foldlM _ _ _ = _
  rw [List.foldlM_append, p.foldlM_deltas, List.nil_append, hsame]
  show List.foldlM _ _ _ = _
  rw [List.foldlM_cons, hstop]
  rfl

theorem foldlM_numbered (blocks : List Block) (pieces : List Piece)
    (hfilled : ∀ p ∈ pieces, p.fragments ≠ []) :
    (numbered blocks.length pieces).foldlM Reader.feed (.between blocks) =
      some (.between (blocks ++ pieces.map Piece.block)) := by
  induction pieces generalizing blocks with
  | nil => simp [numbered]
  | cons p pieces ih =>
      have hrest := ih (blocks ++ [p.block]) fun q hq => hfilled q (List.mem_cons_of_mem _ hq)
      rw [List.length_append, List.length_singleton] at hrest
      rw [numbered_cons, List.foldlM_append, p.foldlM_frames _ (hfilled p List.mem_cons_self)]
      show List.foldlM _ _ _ = _
      rw [hrest, List.map_cons, List.append_assoc, List.singleton_append]

/-- A client gets the blocks of a well-formed stream. -/
theorem readStream_of_wellFormed {frames : List Frame} {blocks : List Block}
    (h : WellFormed frames blocks) : readStream frames = some blocks := by
  obtain ⟨requestId, model, usage, pieces, stopReason, usage', rfl, hfilled, rfl⟩ := h
  have hread := foldlM_numbered [] pieces hfilled
  rw [readStream, List.cons_append, List.foldlM_cons]
  show (match (List.foldlM Reader.feed (.between []) (numbered 0 pieces ++ _)) with
    | some (.done blocks) => some blocks
    | _ => none) = _
  rw [List.foldlM_append]
  rw [List.length_nil] at hread
  rw [hread]
  rfl

/-! ## What was written -/

/-- The blocks for the calls, where `run` is the text that was written last
with nothing after it.  A `tool_calls` ends the run, also without a call. -/
def contents (run : Option String) : List Write → List Block
  | [] => run.toList.map .text
  | .textDelta text :: xs => contents (some (run.getD "" ++ text)) xs
  | .toolStep _ _ :: xs => contents run xs
  | .toolCalls calls :: xs =>
      run.toList.map .text ++ (calls.map fun call => .toolUse call.called) ++ contents none xs

/-- The same with the fragments kept apart. -/
def pieces (run : Option (List String)) : List Write → List Piece
  | [] => run.toList.map .text
  | .textDelta text :: xs => pieces (some (run.getD [] ++ [text])) xs
  | .toolStep _ _ :: xs => pieces run xs
  | .toolCalls calls :: xs =>
      run.toList.map .text ++ (calls.map fun call => .toolUse call.id call.name [call.arguments]) ++
        pieces none xs

theorem block_pieces (run : Option (List String)) (xs : List Write) :
    (pieces run xs).map Piece.block = contents (run.map String.join) xs := by
  have hrun : ∀ run : Option (List String),
      (run.toList.map Piece.text).map Piece.block = (run.map String.join).toList.map .text := by
    intro run
    cases run <;> rfl
  have hcall : ∀ call : ToolCall,
      (Piece.toolUse call.id call.name [call.arguments]).block = .toolUse call.called := by
    intro call
    simp [Piece.block, ToolCall.called]
  induction xs generalizing run with
  | nil => exact hrun run
  | cons x xs ih =>
      cases x with
      | textDelta text =>
          show (pieces _ xs).map _ = contents _ xs
          rw [ih]
          cases run <;> simp [String.join_append]
      | toolStep name arguments => exact ih run
      | toolCalls calls =>
          simp only [pieces, contents, List.map_append, hrun, ih, List.map_map, Option.map_none,
            Function.comp_def, hcall]

theorem filled_pieces (run : Option (List String)) (xs : List Write) (hrun : run ≠ some []) :
    ∀ p ∈ pieces run xs, p.fragments ≠ [] := by
  have hlast : ∀ p ∈ run.toList.map Piece.text, p.fragments ≠ [] := by
    rintro p hp rfl'
    obtain ⟨fragments, hfragments, rfl⟩ := List.mem_map.mp hp
    rw [Option.mem_toList] at hfragments
    exact hrun (hfragments.trans (congrArg some rfl'))
  induction xs generalizing run with
  | nil => exact hlast
  | cons x xs ih =>
      cases x with
      | textDelta text =>
          have hsome : some (run.getD [] ++ [text]) ≠ some [] := by simp
          refine ih _ hsome fun p hp => ?_
          simp only [Option.toList_some, List.map_cons, List.map_nil, List.mem_singleton] at hp
          simp [hp, Piece.fragments]
      | toolStep name arguments => exact ih run hrun hlast
      | toolCalls calls =>
          intro p hp
          rcases List.mem_append.mp hp with hp | hp
          · rcases List.mem_append.mp hp with hp | hp
            · exact hlast p hp
            · obtain ⟨call, -, rfl⟩ := List.mem_map.mp hp
              simp [Piece.fragments]
          · exact ih none (by simp) (by simp) p hp

/-! ## The writer -/

namespace MessagesStreamWriter

/-- The text block that is open has these fragments. -/
def Running (w : MessagesStreamWriter) : Option (List String) → Prop
  | none => w.textBlockOpen = false
  | some _ => w.textBlockOpen = true ∧ w.nextBlockIndex = w.textBlockIndex + 1

/-- The frames of the open block so far. -/
def begun (w : MessagesStreamWriter) : Option (List String) → List Frame
  | none => []
  | some fragments =>
      .event (.contentBlockStart w.textBlockIndex (.text "")) ::
        fragments.map fun fragment => .event (.contentBlockDelta w.textBlockIndex
          (.textDelta fragment))

/-- The number of the block that is open, or of the next one. -/
def current (w : MessagesStreamWriter) : Option (List String) → Nat
  | none => w.nextBlockIndex
  | some _ => w.textBlockIndex

variable {w : MessagesStreamWriter} {run : Option (List String)}

/-- Closing the text completes its block, and no block is open then. -/
theorem begun_closeText (hrun : w.Running run) :
    w.begun run ++ w.closeText.2 = numbered (w.current run) (run.toList.map .text) ∧
      w.closeText.1.textBlockOpen = false ∧
      w.closeText.1.nextBlockIndex = w.current run + run.toList.length := by
  cases run with
  | none =>
      have hopen : w.textBlockOpen = false := hrun
      simp [closeText, hopen, begun, numbered, current]
  | some fragments =>
      obtain ⟨hopen, hnext⟩ := hrun
      simp [closeText, hopen, begun, numbered, current, hnext, Piece.frames, Piece.contentBlock,
        Piece.fragments, Piece.delta]

theorem closeText_nextBlockIndex (w : MessagesStreamWriter) :
    w.closeText.1.nextBlockIndex = w.nextBlockIndex := by
  unfold closeText
  split <;> rfl

/-- A text continues the block that is open, or opens one. -/
theorem begun_textDelta (hrun : w.Running run) (text : String) :
    (w.textDelta text).1.Running (some (run.getD [] ++ [text])) ∧
      (w.textDelta text).1.begun (some (run.getD [] ++ [text])) =
        w.begun run ++ (w.textDelta text).2 ∧
      (w.textDelta text).1.textBlockIndex = w.current run := by
  cases run with
  | none =>
      have hopen : w.textBlockOpen = false := hrun
      simp [textDelta, hopen, Running, begun, current]
  | some fragments =>
      obtain ⟨hopen, hnext⟩ := hrun
      simp [textDelta, hopen, Running, begun, current, hnext]

theorem toolBlocks (n : Nat) (calls : List ToolCall) :
    ((calls.zipIdx n).flatMap fun (call, index) => toolBlock index call) =
      numbered n (calls.map fun call => .toolUse call.id call.name [call.arguments]) := by
  induction calls generalizing n with
  | nil => rfl
  | cons call calls ih =>
      rw [List.map_cons, numbered_cons, ← ih]
      rfl

/-- Whatever is written, with the block that was open before and the end of the
one that is open after, is a list of numbered blocks. -/
theorem begun_writes (hrun : w.Running run) (xs : List Write) :
    w.begun run ++ (messagesAdapter.writes w xs).2 ++ (closeText (messagesAdapter.writes w xs).1).2 =
      numbered (w.current run) (pieces run xs) := by
  induction xs generalizing w run with
  | nil =>
      show w.begun run ++ [] ++ w.closeText.2 = _
      rw [List.append_nil]
      exact (begun_closeText hrun).1
  | cons x xs ih =>
      cases x with
      | textDelta text =>
          obtain ⟨hrun', hbegun, hcurrent⟩ := begun_textDelta hrun text
          show w.begun run ++ ((w.textDelta text).2 ++ (messagesAdapter.writes _ xs).2) ++ _ =
            numbered _ (pieces (some _) xs)
          rw [← List.append_assoc (w.begun run), ← hbegun, ← hcurrent]
          exact ih hrun'
      | toolStep name arguments => exact ih hrun
      | toolCalls calls =>
          obtain ⟨hclosed, hopen, hnext⟩ := begun_closeText hrun
          have hrest := @ih (w.toolCalls calls).1 none hopen
          have hnumber : w.current run + (run.toList.map Piece.text).length = w.nextBlockIndex := by
            rw [List.length_map, ← hnext, closeText_nextBlockIndex]
          have hafter : (w.toolCalls calls).1.current none =
              w.current run + (run.toList.map Piece.text ++
                calls.map fun call => Piece.toolUse call.id call.name [call.arguments]).length := by
            rw [List.length_append, ← add_assoc, hnumber, List.length_map]
            rfl
          show w.begun run ++ ((w.closeText.2 ++ _) ++
            (messagesAdapter.writes (w.toolCalls calls).1 xs).2) ++ _ = _
          rw [pieces, numbered_append, ← hafter, ← hrest, numbered_append, hnumber, ← hclosed,
            ← toolBlocks]
          simp only [begun, List.nil_append, List.append_assoc]
          rfl

/-- Every session is a well-formed stream with what was written. -/
theorem session_wellFormed (requestId model : String) (created : Int) (xs : List Write)
    (stop : StopReason) (usage : Option Usage) (includeUsage : Bool) :
    WellFormed (messagesAdapter.session requestId model created xs stop usage includeUsage)
      (contents none xs) := by
  let w : MessagesStreamWriter := { requestId, model }
  have hrun : w.Running none := rfl
  have hwrites : _ = numbered 0 (pieces none xs) := MessagesStreamWriter.begun_writes hrun xs
  refine ⟨requestId, model, ⟨0, 0⟩, pieces none xs, MessagesStreamWriter.stopReason stop,
    .fromOpenai usage, ?_, filled_pieces none xs (by simp), block_pieces none xs⟩
  have hsession : messagesAdapter.session requestId model created xs stop usage includeUsage =
      [.event (.messageStart requestId model ⟨0, 0⟩)] ++ (messagesAdapter.writes w xs).2 ++
        ((MessagesStreamWriter.closeText (messagesAdapter.writes w xs).1).2 ++
          [.event (.messageDelta (MessagesStreamWriter.stopReason stop) (.fromOpenai usage)),
            .event .messageStop]) := rfl
  rw [hsession, ← hwrites]
  simp [MessagesStreamWriter.begun]

end MessagesStreamWriter

/-- Every session is a well-formed stream with the texts and the tool calls
that were written, and this is what its client gets. -/
theorem messages_session_read (requestId model : String) (created : Int) (xs : List Write)
    (stop : StopReason) (usage : Option Usage) (includeUsage : Bool) :
    WellFormed (messagesAdapter.session requestId model created xs stop usage includeUsage)
        (contents none xs) ∧
      readStream (messagesAdapter.session requestId model created xs stop usage includeUsage) =
        some (contents none xs) := by
  have hwf := MessagesStreamWriter.session_wellFormed requestId model created xs stop usage
    includeUsage
  exact ⟨hwf, readStream_of_wellFormed hwf⟩

end Flowgen.AiGateway
