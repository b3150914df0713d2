/-
# `Flowgen.Kafka.Records` — events of records (`kafka/src/subscribe.rs`)

Translated from `record_data`, `record_meta` and `build_event`.  The id of an
event is the topic, the partition and the offset of its record, with dashes
between them: of the shape that scripts give to what they make of an event.

Within a topic that does no harm: no record has an id that another's can
become.  Between topics it may.
-/
import Flowgen.Lib.Utf8
import Flowgen.Task.Scripts

namespace Flowgen.Kafka.Records

open Flowgen.Lib Branches
open Flowgen.Task.Scripts

/-- `RecordAndOffset`; a broker counts its offsets from zero. -/
structure RecordAndOffset where
  offset : Nat
  timestamp : Int64
  key : Option (List UInt8)
  value : Option (List UInt8)
  headers : List (String × List UInt8)

/-- `record_data`.  `parse` is `serde_json::from_slice`. -/
def recordData (parse : List UInt8 → Option Json) : Option (List UInt8) → EventData (List UInt8)
  | none => .json .null
  | some value =>
      match parse value with
      | some json => .json json
      | none => .binary value

/-- `record_meta`, as JSON. -/
def recordMeta (partition : Nat) (record : RecordAndOffset) : Meta :=
  [("partition", .number (.posInt (.ofNat partition))),
    ("offset", .number (.posInt (.ofNat record.offset))),
    ("key", record.key.elim .null fun key => .string (Utf8.fromUtf8Lossy key)),
    ("headers", .object (record.headers.map fun header =>
      (header.1, .string (Utf8.fromUtf8Lossy header.2))))]

/-- `build_event`. -/
def buildEvent (env : Env (List UInt8)) (parse : List UInt8 → Option Json) (taskId : UInt64)
    (taskType topic : String) (partition : Nat) (record : RecordAndOffset) :
    Render.Event (EventData (List UInt8)) where
  data := recordData parse record.value
  subject := topic
  id := some (topic ++ "-" ++ toString partition ++ "-" ++ toString record.offset)
  timestamp := record.timestamp
  taskId := taskId
  taskType := taskType
  metaMap := some (metaMerge (env.builderMeta none) (recordMeta partition record))

variable {env : Env (List UInt8)} {parse : List UInt8 → Option Json} {taskId : UInt64}
  {taskType topic : String} {records : List (Nat × RecordAndOffset)}

theorem name_buildEvent (partition : Nat) (record : RecordAndOffset) :
    name (buildEvent env parse taskId taskType topic partition record) =
      some (topic.toList ++ tail [partition, record.offset]) := by
  have hid : (buildEvent env parse taskId taskType topic partition record).id =
      some (branch (branch topic partition) record.offset) := rfl
  rw [name, hid, Option.map_some, toList_branch, toList_branch, List.append_assoc, ← tail_append]
  rfl

def plainRecord (offset : Nat) : RecordAndOffset := ⟨offset, 0, none, none, []⟩

def bytesEnv : Env (List UInt8) := ⟨fun _ => .error "not JSON", 0, "c1"⟩

/-- What a script makes of a record of the one topic has the id of a record of the other. -/
example :
    ids (pipeline bytesEnv [splitter "a-1-2" 0]
      [buildEvent bytesEnv (fun _ => none) 0 "kafka_subscribe" "a" 1 (plainRecord 2),
        buildEvent bytesEnv (fun _ => none) 0 "kafka_subscribe" "a-1" 2 (plainRecord 0)]) =
      ["a-1-2-0", "a-1-2-0"] := by
  decide

end Flowgen.Kafka.Records
