/-
# `Flowgen.Telemetry.Ndjson` — items as lines (`core/src/telemetry/cluster.rs`)

A peer streams its items as newline-delimited JSON, each on a line of its own,
and on an idle stream an empty line from time to time.  The client gets the
bytes in chunks that are cut anywhere.  It keeps the beginning of a line until
the rest of it comes, and leaves empty lines out (`forward`).

The JSON library is given.  Of it the model assumes what is documented: an item
is read again as it was written, the compact form has no raw newline, and an
empty text is not JSON (`Codec.Documented`).
-/
import Flowgen.Lib.Lines

namespace Flowgen.Telemetry.Ndjson

open Flowgen.Lib

abbrev Bytes := List UInt8

def newline : UInt8 := 10

/-- `serde_json::to_vec` and `from_slice` for the items of a stream. -/
structure Codec (T : Type) where
  toVec : T → Except String Bytes
  fromSlice : Bytes → Except String T

structure Codec.Documented {T : Type} (codec : Codec T) : Prop where
  roundTrip : ∀ item, ∃ line, codec.toVec item = .ok line ∧ codec.fromSlice line = .ok item ∧
    newline ∉ line
  /-- The end of the input where a value is expected. -/
  eof : ∀ item, codec.fromSlice [] ≠ .ok item

/-- What the peer has for the stream: an item, or that nothing has come for a while. -/
inductive Frame (T : Type)
  | item (item : T)
  | heartbeat

def Frame.item? {T : Type} : Frame T → Option T
  | .item t => some t
  | .heartbeat => none

/-- An update from a peer. -/
structure PeerItem (T : Type) where
  peer : String
  item : T
deriving DecidableEq

section Stream

variable {T : Type} (codec : Codec T)

/-- An item that cannot be encoded is left out. -/
def Frame.encode : Frame T → Bytes
  | .item t =>
      match codec.toVec t with
      | .ok line => line ++ [newline]
      | .error _ => []
  | .heartbeat => [newline]

/-- The body of the response, for items and heartbeats as they come. -/
def ndjson (frames : List (Frame T)) : Bytes := frames.flatMap (Frame.encode codec)

variable (peer : String) (reads : Nat → Bool)

/-- The lines of a chunk.  `reads` tells, by what has been sent before, whether the
subscriber is still there; without it the rest is not handled. -/
def forwardLines (sent : List (PeerItem T)) : List Bytes → List (PeerItem T) × Bool
  | [] => (sent, true)
  | line :: lines =>
      if line.isEmpty then forwardLines sent lines
      else
        match codec.fromSlice line with
        | .ok item =>
            if reads sent.length then forwardLines (sent ++ [⟨peer, item⟩]) lines
            else (sent, false)
        | .error _ => forwardLines sent lines

attribute [grind =] forwardLines

/-- The loop of `forward`, over the chunks of the body. -/
def forwardFrom {E : Type} (buffer : Bytes) (sent : List (PeerItem T)) :
    List (Except E Bytes) → List (PeerItem T) × Except E Unit
  | [] => (sent, .ok ())
  | .error e :: _ => (sent, .error e)
  | .ok chunk :: chunks =>
      let (lines, rest) := Lines.split newline (buffer ++ chunk)
      match forwardLines codec peer reads sent lines with
      | (sent, true) => forwardFrom rest sent chunks
      | (sent, false) => (sent, .ok ())

def forward {E : Type} (body : List (Except E Bytes)) : List (PeerItem T) × Except E Unit :=
  forwardFrom codec peer reads [] [] body

end Stream

variable {T E : Type} {codec : Codec T} {peer : String} {frames : List (Frame T)}
  {sent : List (PeerItem T)} {lines : List Bytes}

/-- The line of a frame. -/
def Frame.line (codec : Codec T) : Frame T → Bytes
  | .item t => (codec.toVec t).toOption.getD []
  | .heartbeat => []

theorem newline_not_mem_line (h : codec.Documented) (frame : Frame T) :
    newline ∉ frame.line codec := by
  cases frame with
  | item item =>
      obtain ⟨line, hline, -, hnew⟩ := h.roundTrip item
      rw [Frame.line, hline]
      exact hnew
  | heartbeat => exact List.not_mem_nil

theorem ndjson_eq (h : codec.Documented) :
    ndjson codec frames = (frames.map (Frame.line codec)).flatMap fun line => line ++ [newline] := by
  rw [ndjson, List.flatMap_map]
  refine List.flatMap_congr fun frame _ => ?_
  cases frame with
  | item item =>
      obtain ⟨line, hline, -, -⟩ := h.roundTrip item
      simp [Frame.encode, Frame.line, hline, Except.toOption]
  | heartbeat => rfl

theorem forwardLines_append (lines' : List Bytes) :
    forwardLines codec peer (fun _ => true) sent (lines ++ lines') =
      forwardLines codec peer (fun _ => true)
        (forwardLines codec peer (fun _ => true) sent lines).1 lines' := by
  induction lines generalizing sent with
  | nil => rfl
  | cons line lines ih =>
      rw [List.cons_append, forwardLines, forwardLines]
      split
      · exact ih
      · split
        · exact ih
        · exact ih

theorem forwardLines_snd : (forwardLines codec peer (fun _ => true) sent lines).2 = true := by
  induction lines generalizing sent with
  | nil => rfl
  | cons line lines ih =>
      rw [forwardLines]
      split
      · exact ih
      · split
        · exact ih
        · exact ih

/-- A subscriber that stays gets what is in the lines, whichever chunk completed them. -/
theorem forwardFrom_eq {buffer : Bytes} {chunks : List Bytes} :
    forwardFrom codec peer (fun _ => true) buffer sent
        (chunks.map (Except.ok : Bytes → Except E Bytes)) =
      ((forwardLines codec peer (fun _ => true) sent (Lines.feed newline buffer chunks).1).1,
        .ok ()) := by
  induction chunks generalizing buffer sent with
  | nil => rfl
  | cons chunk chunks ih =>
      rw [List.map_cons, forwardFrom, Lines.feed]
      dsimp only
      rw [forwardLines_append, ← ih]
      have hstays : (forwardLines codec peer (fun _ => true) sent
          (Lines.split newline (buffer ++ chunk)).1).2 = true := forwardLines_snd
      rw [← Prod.eta (forwardLines codec peer _ sent _), hstays]

/-- Empty lines apart, a line that was written for an item is read as this item. -/
theorem forwardLines_frames (h : codec.Documented) :
    forwardLines codec peer (fun _ => true) sent (frames.map (Frame.line codec)) =
      (sent ++ (frames.filterMap Frame.item?).map (⟨peer, ·⟩), true) := by
  induction frames generalizing sent with
  | nil => simp [forwardLines]
  | cons frame frames ih =>
      rw [List.map_cons, forwardLines]
      cases frame with
      | heartbeat => exact ih
      | item item =>
          obtain ⟨line, hline, hread, -⟩ := h.roundTrip item
          have hcons : line ≠ [] := by
            rintro rfl
            exact h.eof item hread
          have hframe : Frame.line codec (.item item) = line := by
            rw [Frame.line, hline]
            rfl
          rw [hframe, if_neg (List.isEmpty_iff.not.mpr hcons), hread]
          dsimp only
          rw [if_pos rfl, ih, List.append_assoc]
          rfl

/-- However the body is cut into chunks, the client gets the items the peer wrote, in
their order, and nothing of the heartbeats between them. -/
theorem ndjson_roundtrip (h : codec.Documented) (peer : String) (frames : List (Frame T))
    (chunks : List Bytes) (hchunks : chunks.flatten = ndjson codec frames) :
    forward codec peer (fun _ => true) (chunks.map (Except.ok : Bytes → Except E Bytes)) =
      ((frames.filterMap Frame.item?).map (⟨peer, ·⟩), .ok ()) := by
  have hlines : ∀ line ∈ frames.map (Frame.line codec), newline ∉ line := by
    intro line hline
    obtain ⟨frame, -, rfl⟩ := List.mem_map.mp hline
    exact newline_not_mem_line h frame
  rw [forward, forwardFrom_eq, Lines.feed_eq List.not_mem_nil, List.nil_append, hchunks,
    ndjson_eq h, Lines.split_lines hlines, forwardLines_frames h, List.nil_append]

/-- JSON for a truth value. -/
def boolCodec : Codec Bool where
  toVec
    | true => .ok [116, 114, 117, 101]
    | false => .ok [102, 97, 108, 115, 101]
  fromSlice line :=
    if line = [116, 114, 117, 101] then .ok true
    else if line = [102, 97, 108, 115, 101] then .ok false
    else .error "expected value"

theorem boolCodec_documented : boolCodec.Documented where
  roundTrip item := by
    cases item with
    | true => exact ⟨_, rfl, rfl, by decide⟩
    | false => exact ⟨_, rfl, rfl, by decide⟩
  eof item h := by cases h

/-- `true`, a heartbeat and `false`, cut inside the first word and before its newline. -/
theorem ndjson_roundtrip_bools :
    forward boolCodec "flowgen-1" (fun _ => true)
        ([[116, 114], [117, 101], [10, 10, 102, 97], [108, 115, 101, 10]].map
          (Except.ok : Bytes → Except String Bytes)) =
      ([⟨"flowgen-1", true⟩, ⟨"flowgen-1", false⟩], .ok ()) :=
  ndjson_roundtrip boolCodec_documented "flowgen-1" [.item true, .heartbeat, .item false]
    [[116, 114], [117, 101], [10, 10, 102, 97], [108, 115, 101, 10]] rfl

end Flowgen.Telemetry.Ndjson
