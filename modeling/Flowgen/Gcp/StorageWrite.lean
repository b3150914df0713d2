/-
# `Flowgen.Gcp.StorageWrite` — the answers to an append
(`gcp/src/bigquery/storage_write.rs`)

After the rows of an event have been sent, `handle` reads the responses one after
the other.  A transport error or a response with row errors ends it with an error.
A response without row errors counts if it has an `AppendResult`; one that has the
error of the whole request instead is passed over, and so is one that has neither.
If the stream ends without an error, the event is answered for.

So rows are acknowledged that were not accepted if the stream is empty, or if
BigQuery rejects a whole request (`rejection_acknowledged`).  Otherwise the event
fails if any response is not an accepting one (`acknowledges_accepted_iff`).
-/
import Flowgen.Lib.Fallible
import Flowgen.Task.Emit

namespace Flowgen.Gcp.StorageWrite

open Flowgen.Lib Flowgen.Task

structure RowError where
  index : Int
  code : Int
  message : String
deriving DecidableEq

/-- `google.rpc.Status`. -/
structure Status where
  code : Int
  message : String
deriving DecidableEq

/-- The `response` of an `AppendRowsResponse`. -/
inductive Response
  | appendResult (offset : Option Int)
  | error (status : Status)
deriving DecidableEq

structure AppendRowsResponse where
  rowErrors : List RowError := []
  response : Option Response := none
deriving DecidableEq

inductive Error
  | storageWrite (source : Status)
  | rowWriteError
  | sendMessage
deriving DecidableEq

/-- What the stream of responses yields. -/
abbrev Received := Except Status AppendRowsResponse

structure Config where
  name : String
  projectId : String
  datasetId : String
  tableId : String
  streamName : Option String

/-- The data of the result event. -/
structure WriteResult where
  rowsWritten : Nat
  offset : Option Int
  streamName : String
deriving DecidableEq

/-! ## The source -/

/-- The loop over the responses. -/
def readResponses : List Received → (rowsWritten : Nat) → (offset : Option Int) →
    Except Error (Nat × Option Int)
  | [], rowsWritten, offset => .ok (rowsWritten, offset)
  | .error source :: _, _, _ => .error (.storageWrite source)
  | .ok response :: responses, rowsWritten, offset =>
      if response.rowErrors ≠ [] then .error .rowWriteError
      else
        match response.response with
        | some (.appendResult offset) => readResponses responses (rowsWritten + 1) offset
        | some (.error _) => readResponses responses rowsWritten offset
        | none => readResponses responses rowsWritten offset

def Config.stream (config : Config) : String :=
  config.streamName.getD
    ("projects/" ++ config.projectId ++ "/datasets/" ++ config.datasetId ++ "/tables/" ++
      config.tableId ++ "/streams/_default")

variable {V : Type}

/-- What `handle` does once the request has been sent, and what it returns.  The event
is not taken if the task downstream has stopped. -/
def answer (config : Config) (ctx : Context WriteResult V) (taken : Bool)
    (completionTx : Option Handle) (responses : List Received) :
    List (Out WriteResult V) × Except Error Unit :=
  match readResponses responses 0 none with
  | .error error => ([], .error error)
  | .ok (rowsWritten, offset) =>
      let result : WriteResult := { rowsWritten, offset, streamName := config.stream }
      if ctx.tx then
        if taken then ([.send { built := { data := result }, completionTx }], .ok ())
        else ([], .error .sendMessage)
      else
        match completionTx with
        | some handle => ([.signal handle (ctx.dataAsJson result)], .ok ())
        | none => ([], .ok ())

/-! ## Accepted rows -/

/-- The response says that the rows of its request were appended. -/
def Accepts : Received → Prop
  | .ok response => response.rowErrors = [] ∧ ∃ offset, response.response = some (.appendResult offset)
  | .error _ => False

/-- Every response says so, and there is one. -/
def Accepted (responses : List Received) : Prop :=
  responses ≠ [] ∧ ∀ received ∈ responses, Accepts received

/-- The response ends the loop with an error. -/
def Fails : Received → Prop
  | .ok response => response.rowErrors ≠ []
  | .error _ => True

/-- Only accepted rows are acknowledged, and otherwise the event fails. -/
structure AcknowledgesAccepted (config : Config) (ctx : Context WriteResult V) (taken : Bool)
    (completionTx : Option Handle) (responses : List Received) : Prop where
  returned : (answer config ctx taken completionTx responses).2 = .ok () → Accepted responses
  done : (answer config ctx taken completionTx responses).1 ≠ [] → Accepted responses
  fails : ¬ Accepted responses → ∃ error, (answer config ctx taken completionTx responses).2 = .error error

variable {responses : List Received} {rowsWritten : Nat} {offset : Option Int}

/-- The loop comes to its end if no response fails. -/
theorem readResponses_isOk_iff :
    (∃ read, readResponses responses rowsWritten offset = .ok read) ↔
      ∀ received ∈ responses, ¬ Fails received := by
  induction responses generalizing rowsWritten offset with
  | nil => exact ⟨fun _ _ h => absurd h List.not_mem_nil, fun _ => ⟨_, rfl⟩⟩
  | cons received responses ih =>
      rw [List.forall_mem_cons]
      cases received with
      | error source =>
          constructor
          · rintro ⟨read, h⟩
            cases h
          · rintro ⟨h, -⟩
            exact absurd trivial h
      | ok response =>
          rw [readResponses]
          by_cases hrows : response.rowErrors = []
          · rw [if_neg (not_not_intro hrows)]
            have hfirst : ¬ Fails (.ok response) := not_not_intro hrows
            rcases response.response with _ | ⟨offset | status⟩
            · exact ih.trans (and_iff_right hfirst).symm
            · exact ih.trans (and_iff_right hfirst).symm
            · exact ih.trans (and_iff_right hfirst).symm
          · rw [if_pos hrows]
            constructor
            · rintro ⟨read, h⟩
              cases h
            · rintro ⟨h, -⟩
              exact absurd hrows h

/-- As many rows are said to be written as responses accept. -/
theorem readResponses_rows {total : Nat} {last : Option Int}
    (h : readResponses responses rowsWritten offset = .ok (total, last)) :
    total = rowsWritten + responses.countP fun received =>
      received.toOption.any fun response =>
        response.response.any fun r => r matches .appendResult _ := by
  induction responses generalizing rowsWritten offset with
  | nil =>
      cases h
      rfl
  | cons received responses ih =>
      cases received with
      | error source => cases h
      | ok response =>
          rw [readResponses] at h
          split at h
          · cases h
          · rw [List.countP_cons]
            split at h
            · rename_i heq
              rw [ih h]
              simp [heq, Except.toOption]
              omega
            · rename_i heq
              rw [ih h]
              simp [heq, Except.toOption]
            · rename_i heq
              rw [ih h]
              simp [heq, Except.toOption]

section Answer

variable {config : Config} {ctx : Context WriteResult V} {taken : Bool}
  {completionTx : Option Handle}

/-- If a response fails, nothing is done. -/
theorem answer_fails (h : ∃ received ∈ responses, Fails received) :
    ∃ error, answer config ctx taken completionTx responses = ([], .error error) := by
  rw [answer]
  cases hread : readResponses responses 0 none with
  | error error => exact ⟨error, rfl⟩
  | ok read =>
      obtain ⟨received, hmem, hfails⟩ := h
      exact absurd hfails (readResponses_isOk_iff.mp ⟨read, hread⟩ received hmem)

/-- If no response fails, the event is answered for, unless the task downstream has
stopped. -/
theorem answer_returns (h : ∀ received ∈ responses, ¬ Fails received) :
    (answer config ctx taken completionTx responses).2 = .ok () ↔ ctx.tx = false ∨ taken = true := by
  obtain ⟨⟨rowsWritten, offset⟩, hread⟩ : ∃ read, readResponses responses 0 none = .ok read :=
    readResponses_isOk_iff.mpr h
  rw [answer, hread]
  cases htx : ctx.tx with
  | false => cases completionTx <;> simp
  | true => cases taken <;> simp

/-- Only accepted rows are acknowledged if and only if every response of a stream that is
not empty accepts, or one of them fails, or the event finds no one to be sent to. -/
theorem acknowledges_accepted_iff :
    AcknowledgesAccepted config ctx taken completionTx responses ↔
      Accepted responses ∨ (∃ received ∈ responses, Fails received) ∨
        (ctx.tx = true ∧ taken = false) := by
  by_cases hfails : ∃ received ∈ responses, Fails received
  · refine iff_of_true ?_ (.inr (.inl hfails))
    obtain ⟨error, hanswer⟩ : ∃ error, answer config ctx taken completionTx responses =
      ([], .error error) := answer_fails hfails
    refine ⟨fun h => ?_, fun h => ?_, fun _ => ⟨error, by rw [hanswer]⟩⟩
    · rw [hanswer] at h
      cases h
    · rw [hanswer] at h
      exact absurd rfl h
  · have hnone : ∀ received ∈ responses, ¬ Fails received := by
      intro received hmem hfail
      exact hfails ⟨received, hmem, hfail⟩
    have hreturns : (answer config ctx taken completionTx responses).2 = .ok () ↔
        ctx.tx = false ∨ taken = true := answer_returns hnone
    constructor
    · intro h
      by_cases hopen : ctx.tx = false ∨ taken = true
      · exact .inl (h.returned (hreturns.mpr hopen))
      · rw [not_or, Bool.not_eq_false, Bool.not_eq_true] at hopen
        exact .inr (.inr hopen)
    · rintro (haccepted | h | hclosed)
      · exact ⟨fun _ => haccepted, fun _ => haccepted, fun h => absurd haccepted h⟩
      · exact absurd h hfails
      · obtain ⟨⟨rowsWritten, offset⟩, hread⟩ := readResponses_isOk_iff.mpr hnone
        have hanswer : answer config ctx taken completionTx responses = ([], .error .sendMessage) := by
          rw [answer, hread]
          simp [hclosed.1, hclosed.2]
        refine ⟨fun h => ?_, fun h => ?_, fun _ => ⟨.sendMessage, by rw [hanswer]⟩⟩
        · rw [hanswer] at h
          cases h
        · rw [hanswer] at h
          exact absurd rfl h

end Answer

/-- The whole request is rejected, and the source is told that its rows are written. -/
theorem rejection_acknowledged :
    let config : Config :=
      { name := "write", projectId := "p", datasetId := "d", tableId := "t", streamName := none }
    let ctx : Context WriteResult Nat := ⟨false, 1, fun result => some result.rowsWritten⟩
    let responses : List Received := [.ok { response := some (.error ⟨3, "schema mismatch"⟩) }]
    answer config ctx true (some .source) responses = ([.signal .source (some 0)], .ok ()) ∧
      ¬ AcknowledgesAccepted config ctx true (some .source) responses := by
  intro config ctx responses
  have hanswer : answer config ctx true (some .source) responses =
      ([.signal .source (some 0)], .ok ()) := rfl
  refine ⟨hanswer, fun h => ?_⟩
  obtain ⟨-, hall⟩ := h.returned (by rw [hanswer])
  obtain ⟨-, offset, hoffset⟩ := hall _ List.mem_cons_self
  cases hoffset

end Flowgen.Gcp.StorageWrite
