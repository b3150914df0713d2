/-
# `Flowgen.AiGateway.Session` — the calls on one stream writer

A stream writer is opened, then called any number of times, then closed.  What
it has been asked to write is a list of `Write`s; a session is the frames of
all the calls.
-/
import Flowgen.Lib.Gather
import Flowgen.AiGateway.Adapters

namespace Flowgen.AiGateway

open Flowgen.Lib

/-- A call between `open` and `close`.  The arguments of a tool step are given
as they are printed; printing them does not fail. -/
inductive Write
  | textDelta (text : String)
  | toolStep (name arguments : String)
  | toolCalls (calls : List ToolCall)
deriving DecidableEq

namespace ProtocolAdapter

variable (A : ProtocolAdapter)

def write (w : A.StreamWriter) : Write → A.StreamWriter × List Frame
  | .textDelta text => A.textDelta w text
  | .toolStep name arguments => A.toolStep w name arguments
  | .toolCalls calls => A.toolCalls w calls

def writes (w : A.StreamWriter) : List Write → A.StreamWriter × List Frame
  | [] => (w, [])
  | x :: xs =>
      let (w, frames) := A.write w x
      let (w, rest) := writes w xs
      (w, frames ++ rest)

/-- All that a fresh writer emits from `open` to `close`. -/
def session (requestId model : String) (created : Int) (xs : List Write) (stop : StopReason)
    (usage : Option Usage) (includeUsage : Bool) : List Frame :=
  let (w, frames) := A.opening (A.newStreamWriter requestId model created)
  let (w, written) := A.writes w xs
  frames ++ written ++ A.close w stop usage includeUsage

end ProtocolAdapter

/-- The text that a call writes. -/
def Write.text : Write → String
  | .textDelta text => text
  | .toolStep _ _ | .toolCalls _ => ""

variable {A : ProtocolAdapter} {Closing : List Frame → Prop}

theorem writes_cons (w : A.StreamWriter) (x : Write) (xs : List Write) :
    A.writes w (x :: xs) =
      ((A.writes (A.write w x).1 xs).1, (A.write w x).2 ++ (A.writes (A.write w x).1 xs).2) := rfl

theorem write_carries (hA : LawfulAdapter A Closing) (w : A.StreamWriter) (x : Write) :
    Carries x.text (A.write w x).2 := by
  cases x with
  | textDelta text => exact hA.textDelta_carries w text
  | toolStep name arguments => exact hA.toolStep_carries w name arguments
  | toolCalls calls => exact hA.toolCalls_carries w calls

theorem writes_carries (hA : LawfulAdapter A Closing) (w : A.StreamWriter) (xs : List Write) :
    Carries (String.join (xs.map Write.text)) (A.writes w xs).2 := by
  induction xs generalizing w with
  | nil => exact .nil
  | cons x xs ih =>
      rw [List.map_cons, String.join_cons, writes_cons]
      exact (write_carries hA w x).append (ih _)

end Flowgen.AiGateway
