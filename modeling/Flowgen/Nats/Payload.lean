/-
# `Flowgen.Nats.Payload` — an event through a stream (`nats/src/jetstream/message.rs`)

Translated from `to_publish`, `headers_meta` and `to_event`.  A message does not say what
its payload is: Avro and Arrow go as bytes with lengths in front, JSON as its text, raw
bytes as they are.  The reader tries Avro, then JSON, then Arrow.

That no format is taken for another has a reason each time.  The text of a JSON value has
no zero byte, and the length of a payload that a server takes has one; an Arrow stream
begins with a byte that begins no text.  So

    the data that was published is the data that is read
      ↔ it is not raw bytes

(`toEvent_toPublish_iff`).  Raw bytes come back as what they look like, or the message
cannot be read.
-/
import Flowgen.Lib.Bincode
import Flowgen.Task.Scripts

namespace Flowgen.Nats.Payload

open Flowgen.Lib Bincode
open Flowgen.Task.Scripts (Env Meta metaMerge)

/-! ## The source -/

structure AvroData where
  schema : String
  rawBytes : List UInt8
deriving DecidableEq

/-- `EventData`, over the JSON values and the record batches. -/
inductive EventData (V B : Type)
  | arrowRecordBatch (batch : B)
  | avro (data : AvroData)
  | json (value : V)
  | bytes (raw : List UInt8)
deriving DecidableEq

/-- What writes and reads JSON and Arrow streams.  A stream is read batch by batch, and a batch
may be spoilt. -/
structure Codecs (V B : Type) where
  toVec : V → List UInt8
  fromSlice : List UInt8 → Option V
  writeStream : B → Option (List UInt8)
  readStream : List UInt8 → Option (List (Option B))

inductive Error
  | arrow
  | serdeJson
  | bincode
  | noRecordBatch
deriving DecidableEq

/-- `HeaderMap`: the values of each name. -/
abbrev HeaderMap := List (String × List String)

structure PublishMessage where
  headers : Option HeaderMap := none
  payload : List UInt8 := []

structure Message where
  subject : String
  headers : Option HeaderMap
  payload : List UInt8

def natsMessageId : String := "Nats-Msg-Id"

/-- `PublishMessage::message_id`. -/
def PublishMessage.messageId (message : PublishMessage) (id : String) : PublishMessage :=
  let others := (message.headers.getD []).filter fun header => header.1 != natsMessageId
  { message with headers := some (others ++ [(natsMessageId, [id])]) }

/-- `serialize` of `AvroData`: its fields one after the other. -/
def serializeAvro (data : AvroData) : List UInt8 :=
  encodeString data.schema ++ encodeBytes data.rawBytes

/-- `deserialize` of `AvroData`; what follows is not looked at. -/
def deserializeAvro (payload : List UInt8) : Option AvroData :=
  match decodeString payload with
  | none => none
  | some (schema, rest) => (decodeBytes rest).map fun (rawBytes, _) => ⟨schema, rawBytes⟩

section Conversions

variable {V B : Type} (C : Codecs V B)

def toPublish (event : Render.Event (EventData V B)) : Except Error PublishMessage :=
  let built : PublishMessage :=
    match event.id with
    | some id => PublishMessage.messageId {} id
    | none => {}
  match event.data with
  | .arrowRecordBatch batch =>
      match C.writeStream batch with
      | some buffer => .ok { built with payload := encodeBytes buffer }
      | none => .error .arrow
  | .avro data => .ok { built with payload := serializeAvro data }
  | .json value => .ok { built with payload := C.toVec value }
  | .bytes raw => .ok { built with payload := raw }

/-- The message headers as event meta, with the first value of a repeated header. -/
def headersMeta (headers : HeaderMap) : Meta :=
  [("headers", .object (headers.filterMap fun (name, values) =>
    values.head?.map fun value => (name, .string value)))]

def readData (payload : List UInt8) : Except Error (EventData V B) :=
  match deserializeAvro payload with
  | some data => .ok (.avro data)
  | none =>
      match C.fromSlice payload with
      | some value => .ok (.json value)
      | none =>
          match decodeBytes payload with
          | none => .error .bincode
          | some (arrowBytes, _) =>
              match C.readStream arrowBytes with
              | none => .error .arrow
              | some [] => .error .noRecordBatch
              | some (none :: _) => .error .arrow
              | some (some batch :: _) => .ok (.arrowRecordBatch batch)

def toEvent {Raw : Type} (env : Env Raw) (taskType : String) (taskId : UInt64)
    (message : Message) : Except Error (Render.Event (EventData V B)) := do
  let data ← readData C message.payload
  let builderMeta := env.builderMeta none
  .ok
    { data := data
      subject := message.subject
      id := message.headers.bind fun headers =>
        (headers.lookup natsMessageId).bind List.head?
      timestamp := env.now
      taskId := taskId
      taskType := taskType
      metaMap := some <|
        match message.headers with
        | some headers => metaMerge builderMeta (headersMeta headers)
        | none => builderMeta }

end Conversions

/-! ## What the formats are told apart by -/

variable {V B : Type} {C : Codecs V B}

/-- What is known of the formats: JSON text escapes control characters and has none outside of
strings, and an Arrow stream begins with a continuation marker. -/
structure Codecs.Documented (C : Codecs V B) : Prop where
  toVec_dense : ∀ value, 0 ∉ C.toVec value
  fromSlice_zero : ∀ payload, 0 ∈ payload → C.fromSlice payload = none
  writeStream_marker : ∀ batch buffer, C.writeStream batch = some buffer →
    buffer.head? = some 0xff

/-- Each format reads what it has written of this. -/
def Codecs.ReadsBack (C : Codecs V B) : EventData V B → Prop
  | .arrowRecordBatch batch =>
      ∀ buffer, C.writeStream batch = some buffer → C.readStream buffer = some [some batch]
  | .json value => C.fromSlice (C.toVec value) = some value
  | .avro _ | .bytes _ => True

def EventData.IsBytes : EventData V B → Prop
  | .bytes _ => True
  | _ => False

theorem length_encodeBytes (raw : List UInt8) : (encodeBytes raw).length = 8 + raw.length := by
  rw [encodeBytes, encodeU64, List.length_append, length_leBytes]

/-- No text begins with the marker of a stream. -/
theorem fromUtf8_marker {buffer : List UInt8} (h : buffer.head? = some 0xff) :
    Utf8.fromUtf8 buffer = none := by
  obtain ⟨rest, rfl⟩ := List.head?_eq_some_iff.mp h
  rfl

theorem deserializeAvro_serializeAvro {data : AvroData}
    (h : (serializeAvro data).length < 2 ^ 56) :
    deserializeAvro (serializeAvro data) = some data := by
  rw [serializeAvro, encodeString, List.length_append, length_encodeBytes,
    length_encodeBytes] at h
  have hraw := @decodeBytes_encodeBytes data.rawBytes [] (by omega)
  rw [List.append_nil] at hraw
  rw [deserializeAvro, serializeAvro, decodeString_encodeString (by omega)]
  show (decodeBytes (encodeBytes data.rawBytes)).map _ = _
  rw [hraw]
  rfl

theorem deserializeAvro_of_dense {payload : List UInt8} (h : 0 ∉ payload)
    (hsize : payload.length < 2 ^ 56) : deserializeAvro payload = none := by
  rw [deserializeAvro, decodeString, decodeBytes_of_dense h hsize]

theorem deserializeAvro_stream {buffer : List UInt8} (h : buffer.head? = some 0xff)
    (hsize : buffer.length < 2 ^ 64) : deserializeAvro (encodeBytes buffer) = none := by
  have hbytes := @decodeBytes_encodeBytes buffer [] hsize
  rw [List.append_nil] at hbytes
  have hstring : decodeString (encodeBytes buffer) = none := by
    rw [decodeString, hbytes]
    show (Utf8.fromUtf8 buffer).map _ = none
    rw [fromUtf8_marker h]
    rfl
  rw [deserializeAvro, hstring]

/-- What is read is never raw bytes. -/
theorem not_isBytes_of_readData {payload : List UInt8} {data : EventData V B}
    (h : readData C payload = .ok data) : ¬ data.IsBytes := by
  intro hbytes
  cases data with
  | bytes raw =>
      rw [readData] at h
      repeat' split at h
      all_goals cases h
  | arrowRecordBatch batch => exact hbytes
  | avro data => exact hbytes
  | json value => exact hbytes

/-- Whatever is not raw bytes is read as what it was. -/
theorem readData_of_toPublish (hC : C.Documented) {event : Render.Event (EventData V B)}
    {published : PublishMessage} (h : toPublish C event = .ok published)
    (hsize : published.payload.length < 2 ^ 31) (hback : C.ReadsBack event.data)
    (hbytes : ¬ event.data.IsBytes) : readData C published.payload = .ok event.data := by
  rw [toPublish] at h
  cases hdata : event.data with
  | bytes raw =>
      rw [hdata] at hbytes
      exact absurd trivial hbytes
  | avro data =>
      rw [hdata] at h
      cases h
      rw [readData, deserializeAvro_serializeAvro (Nat.lt_trans hsize (by decide))]
  | json value =>
      rw [hdata] at h hback
      cases h
      rw [readData, deserializeAvro_of_dense (hC.toVec_dense value)
        (Nat.lt_trans hsize (by decide))]
      show (match C.fromSlice (C.toVec value) with
        | some value => _
        | none => _) = _
      rw [hback]
  | arrowRecordBatch batch =>
      rw [hdata] at h hback
      cases hbuffer : C.writeStream batch with
      | none =>
          simp only [hbuffer] at h
          cases h
      | some buffer =>
          simp only [hbuffer] at h
          cases h
          have hlength : buffer.length < 2 ^ 31 := by
            have hsize : (encodeBytes buffer).length < 2 ^ 31 := hsize
            rw [length_encodeBytes] at hsize
            omega
          have hread := @decodeBytes_encodeBytes buffer [] (Nat.lt_trans hlength (by decide))
          rw [List.append_nil] at hread
          have hzero := zero_mem_encodeBytes (Nat.lt_trans hlength (by decide : 2 ^ 31 < 2 ^ 56))
          rw [readData, deserializeAvro_stream (hC.writeStream_marker _ _ hbuffer)
            (Nat.lt_trans hlength (by decide))]
          simp only [hC.fromSlice_zero _ hzero, hread, hback buffer hbuffer]

/-- **Through a stream and back.**  The data of an event is read from its message as what it was
published as exactly if it is not raw bytes, whatever the subject and the headers are when the
message comes, if the server takes the payload. -/
theorem toEvent_toPublish_iff {Raw : Type} (hC : C.Documented) {event : Render.Event (EventData V B)}
    {published : PublishMessage} (h : toPublish C event = .ok published)
    (hsize : published.payload.length < 2 ^ 31) (hback : C.ReadsBack event.data)
    (env : Env Raw) (taskType : String) (taskId : UInt64) (subject : String)
    (headers : Option HeaderMap) :
    (∃ received, toEvent C env taskType taskId ⟨subject, headers, published.payload⟩ =
        .ok received ∧ received.data = event.data) ↔ ¬ event.data.IsBytes := by
  constructor
  · rintro ⟨received, hreceived, hdata⟩
    rw [← hdata]
    rw [toEvent] at hreceived
    cases hread : readData C published.payload with
    | error e =>
        rw [hread] at hreceived
        cases hreceived
    | ok data =>
        rw [hread] at hreceived
        cases hreceived
        exact not_isBytes_of_readData hread
  · intro hbytes
    rw [toEvent, readData_of_toPublish hC h hsize hback hbytes]
    exact ⟨_, rfl, rfl⟩

/-- The JSON texts of the two truth values, and no Arrow. -/
def truthCodecs : Codecs Bool Empty where
  toVec b := Utf8.asBytes (if b then "true" else "false")
  fromSlice payload :=
    if payload = Utf8.asBytes "true" then some true
    else if payload = Utf8.asBytes "false" then some false
    else none
  writeStream := Empty.elim
  readStream _ := none

theorem truthCodecs_documented : truthCodecs.Documented where
  toVec_dense := by decide
  fromSlice_zero payload h := by
    have htrue : payload ≠ Utf8.asBytes "true" := by
      rintro rfl
      revert h
      decide
    have hfalse : payload ≠ Utf8.asBytes "false" := by
      rintro rfl
      revert h
      decide
    show (if payload = Utf8.asBytes "true" then some true
      else if payload = Utf8.asBytes "false" then some false else none) = none
    rw [if_neg htrue, if_neg hfalse]
  writeStream_marker batch := batch.elim

def eventOf (data : EventData Bool Empty) : Render.Event (EventData Bool Empty) where
  data := data
  subject := "orders"
  id := some "7"
  timestamp := 0
  taskId := 0
  taskType := "nats_jetstream_publisher"

def stillEnv : Env Unit := ⟨fun _ => .error "not JSON", 0, "c1"⟩

/-- The value `true` is read as it was, and its text as raw bytes is not. -/
theorem toEvent_toPublish_true :
    (∃ received, toEvent truthCodecs stillEnv "nats_jetstream_subscriber" 1
        ⟨"orders", some [(natsMessageId, ["7"])], Utf8.asBytes "true"⟩ = .ok received ∧
      received.data = .json true) ∧
    ¬ ∃ received, toEvent truthCodecs stillEnv "nats_jetstream_subscriber" 1
        ⟨"orders", some [(natsMessageId, ["7"])], Utf8.asBytes "true"⟩ = .ok received ∧
      received.data = .bytes (Utf8.asBytes "true") := by
  have hjson : toPublish truthCodecs (eventOf (.json true)) =
      .ok ⟨some [(natsMessageId, ["7"])], Utf8.asBytes "true"⟩ := rfl
  have hraw : toPublish truthCodecs (eventOf (.bytes (Utf8.asBytes "true"))) =
      .ok ⟨some [(natsMessageId, ["7"])], Utf8.asBytes "true"⟩ := rfl
  have hback : truthCodecs.ReadsBack (eventOf (.json true)).data := by
    show truthCodecs.fromSlice (truthCodecs.toVec true) = some true
    decide
  constructor
  · exact (toEvent_toPublish_iff truthCodecs_documented hjson (by decide) hback _ _ _ _ _).mpr id
  · intro h
    exact (toEvent_toPublish_iff truthCodecs_documented hraw (by decide) trivial _ _ _ _ _).mp h
      trivial

end Flowgen.Nats.Payload
