/-
# `Flowgen.Mssql.Rows` — rows of SQL Server as record batches (`mssql/src/query.rs`)

The type of an Arrow column comes from the type that the driver reports for the column, and
a cell is converted by what the cell holds.  Where the two do not go together, the cell
becomes null; where the value is too wide for the column, it wraps.

A table is decoded faithfully if and only if it has none of these cells, or has a column of
no type or of `datetimeoffset`, with which no batch is made (`rows_decoded_iff`).  Of the
dates and times only a `smalldatetime` is kept, and a `datetime` whose 300ths of a second are
a number of microseconds.
-/
import Flowgen.Lib.Fallible
import Flowgen.Lib.Table

namespace Flowgen.Mssql

open Flowgen.Lib

/-! ## Rows -/

/-- The types of a column that the driver reports. -/
inductive ColumnType
  | null
  | bit
  | int1
  | int2
  | int4
  | int8
  | datetime4
  | float4
  | float8
  | money
  | datetime
  | money4
  | guid
  | intn
  | bitn
  | decimaln
  | numericn
  | floatn
  | datetimen
  | daten
  | timen
  | datetime2
  | datetimeOffsetn
  | bigVarBin
  | bigVarChar
  | bigBinary
  | bigChar
  | nVarchar
  | nChar
  | xml
  | udt
  | text
  | image
  | nText
  | ssVariant
deriving DecidableEq

structure Column where
  name : String
  columnType : ColumnType

/-- A `datetime`: days since 1900, and parts of a second of which there are 300. -/
structure DateTime where
  days : Int
  secondsFragments : Nat
  /-- From 1753 to 9999. -/
  years : -53690 ≤ days ∧ days ≤ 2958463
  day : secondsFragments < 24 * 60 * 60 * 300
deriving DecidableEq

/-- A `smalldatetime`: days since 1900, and minutes. -/
structure SmallDateTime where
  days : Nat
  secondsFragments : Nat
  years : days < 2 ^ 16
  day : secondsFragments < 24 * 60
deriving DecidableEq

/-- Days since the year 1. -/
structure Date where
  days : Nat
deriving DecidableEq

/-- Parts of a second, of which there are `10 ^ scale`. -/
structure Time where
  increments : Nat
  scale : Nat
deriving DecidableEq

structure DateTime2 where
  date : Date
  time : Time
deriving DecidableEq

/-- An instant, and the minutes that the local time was ahead. -/
structure DateTimeOffset where
  datetime2 : DateTime2
  offset : Int
deriving DecidableEq

structure Numeric where
  value : Int
  scale : Nat
deriving DecidableEq

inductive Value
  | u8 (val : UInt8)
  | i16 (val : Int16)
  | i32 (val : Int32)
  | i64 (val : Int64)
  | f32 (val : BitVec 32)
  | f64 (val : BitVec 64)
  | bit (val : Bool)
  | string (val : String)
  | guid (val : BitVec 128)
  | binary (val : List UInt8)
  | numeric (val : Numeric)
  | xml (val : String)
  | dateTime (val : DateTime)
  | smallDateTime (val : SmallDateTime)
  | time (val : Time)
  | date (val : Date)
  | dateTime2 (val : DateTime2)
  | dateTimeOffset (val : DateTimeOffset)
deriving DecidableEq

/-- A cell; nothing looks at the type that a null has. -/
abbrev ColumnData := Option Value

structure Row where
  columns : List Column
  cells : List ColumnData
  width : cells.length = columns.length

/-- The rows of one result have the same columns. -/
structure ResultSet where
  columns : List Column
  rows : List Row
  same : ∀ row ∈ rows, row.columns = columns

/-! ## Record batches -/

inductive DataType
  | null
  | boolean
  | int8
  | int16
  | int32
  | int64
  | float32
  | float64
  | utf8
  /-- In microseconds. -/
  | timestamp (timezone : Option String)
deriving DecidableEq

structure Field where
  name : String
  dataType : DataType
  nullable : Bool
deriving DecidableEq

abbrev Schema := List Field

inductive Cell
  | null
  | boolean (value : Bool)
  | int8 (value : Int8)
  | int16 (value : Int16)
  | int32 (value : Int32)
  | int64 (value : Int64)
  | float32 (value : BitVec 32)
  | float64 (value : BitVec 64)
  | utf8 (value : String)
  /-- Microseconds since 1970. -/
  | timestamp (value : Int)
deriving DecidableEq

structure Array where
  dataType : DataType
  cells : List Cell
deriving DecidableEq

structure RecordBatch where
  schema : Schema
  columns : List Array
deriving DecidableEq

def RecordBatch.rows (batch : RecordBatch) : List (List Cell) :=
  rowsOf (batch.columns.map Array.cells)

/-- What is used of the libraries. -/
structure Libraries where
  f32AsF64 : BitVec 32 → BitVec 64
  f64AsF32 : BitVec 64 → BitVec 32
  numericToF64 : Numeric → BitVec 64
  f32ToString : BitVec 32 → String
  f64ToString : BitVec 64 → String
  guidToString : BitVec 128 → String
  /-- A `NaiveDateTime`, as nanoseconds since 1970. -/
  dateTime : DateTime → Int
  smallDateTime : SmallDateTime → Int
  /-- `RecordBatch::try_new`. -/
  tryNew : Schema → List Array → Except String RecordBatch

/-! ## Decoding -/

def ColumnType.dataType : ColumnType → DataType
  | .null => .null
  | .bit | .bitn => .boolean
  | .int1 => .int8
  | .int2 => .int16
  | .int4 | .intn => .int32
  | .int8 => .int64
  | .float4 | .floatn => .float32
  | .float8 => .float64
  | .money | .money4 => .float64
  | .numericn | .decimaln => .float64
  | .datetime | .datetime4 | .datetimen | .datetime2 => .timestamp none
  | .datetimeOffsetn => .timestamp (some "UTC")
  | .daten => .utf8
  | .timen => .utf8
  | .bigVarBin | .bigBinary | .image => .utf8
  | .guid => .utf8
  | _ => .utf8

def inferSchemaFromRows (rows : List Row) : Except String Schema :=
  match rows with
  | [] => .ok []
  | firstRow :: _ => .ok (firstRow.columns.map fun column =>
      ⟨column.name, column.columnType.dataType, true⟩)

section Build

variable (lib : Libraries)

def int8Cell : ColumnData → Cell
  | some (.u8 val) => .int8 (Int8.ofInt val.toNat)
  | some (.i16 val) => .int8 (Int8.ofInt val.toInt)
  | some (.i32 val) => .int8 (Int8.ofInt val.toInt)
  | _ => .null

def int16Cell : ColumnData → Cell
  | some (.u8 val) => .int16 (Int16.ofInt val.toNat)
  | some (.i16 val) => .int16 val
  | some (.i32 val) => .int16 (Int16.ofInt val.toInt)
  | _ => .null

def int32Cell : ColumnData → Cell
  | some (.u8 val) => .int32 (Int32.ofInt val.toNat)
  | some (.i16 val) => .int32 (Int32.ofInt val.toInt)
  | some (.i32 val) => .int32 val
  | some (.i64 val) => .int32 (Int32.ofInt val.toInt)
  | _ => .null

def int64Cell : ColumnData → Cell
  | some (.u8 val) => .int64 (Int64.ofInt val.toNat)
  | some (.i16 val) => .int64 (Int64.ofInt val.toInt)
  | some (.i32 val) => .int64 (Int64.ofInt val.toInt)
  | some (.i64 val) => .int64 val
  | _ => .null

def float32Cell : ColumnData → Cell
  | some (.f32 val) => .float32 val
  | some (.f64 val) => .float32 (lib.f64AsF32 val)
  | _ => .null

def float64Cell : ColumnData → Cell
  | some (.f32 val) => .float64 (lib.f32AsF64 val)
  | some (.f64 val) => .float64 val
  | some (.numeric val) => .float64 (lib.numericToF64 val)
  | _ => .null

def booleanCell : ColumnData → Cell
  | some (.bit val) => .boolean val
  | _ => .null

def utf8Cell : ColumnData → Cell
  | some (.string val) => .utf8 val
  | some (.guid val) => .utf8 (lib.guidToString val)
  | some (.xml val) => .utf8 val
  | some (.numeric val) => .utf8 (lib.f64ToString (lib.numericToF64 val))
  | _ => .null

/-- The nanoseconds are cut off. -/
def timestampCell : ColumnData → Cell
  | some (.dateTime val) => .timestamp (lib.dateTime val / 1000)
  | some (.smallDateTime val) => .timestamp (lib.smallDateTime val / 1000)
  | _ => .null

/-- The data types that are not mapped. -/
def fallbackCell : ColumnData → Cell
  | some (.string val) => .utf8 val
  | some (.guid val) => .utf8 (lib.guidToString val)
  | some (.xml val) => .utf8 val
  | some (.numeric val) => .utf8 (lib.f64ToString (lib.numericToF64 val))
  | some (.u8 val) => .utf8 (toString val.toNat)
  | some (.i16 val) => .utf8 (toString val.toInt)
  | some (.i32 val) => .utf8 (toString val.toInt)
  | some (.i64 val) => .utf8 (toString val.toInt)
  | some (.f32 val) => .utf8 (lib.f32ToString val)
  | some (.f64 val) => .utf8 (lib.f64ToString val)
  | some (.bit val) => .utf8 (toString val)
  | _ => .null

/-- What the builder of a column is of, and what it is given of a cell. -/
def builder : DataType → DataType × (ColumnData → Cell)
  | .int8 => (.int8, int8Cell)
  | .int16 => (.int16, int16Cell)
  | .int32 => (.int32, int32Cell)
  | .int64 => (.int64, int64Cell)
  | .float32 => (.float32, float32Cell lib)
  | .float64 => (.float64, float64Cell lib)
  | .boolean => (.boolean, booleanCell)
  | .utf8 => (.utf8, utf8Cell lib)
  | .timestamp _ => (.timestamp none, timestampCell lib)
  | .null => (.utf8, fallbackCell lib)

/-- The cell of a row in a column. -/
def builtCell (dataType : DataType) (colIdx : Nat) (row : Row) : Cell :=
  match row.cells[colIdx]? with
  | some colData => (builder lib dataType).2 colData
  | none => .null

def buildColumns (rows : List Row) (schema : Schema) : Except String (List Array) :=
  .ok (schema.zipIdx.map fun (field, colIdx) =>
    ⟨(builder lib field.dataType).1, rows.map (builtCell lib field.dataType colIdx)⟩)

def rowsToRecordBatches (rows : List Row) (batchSize : ℕ+) : Except String (List RecordBatch) :=
  if rows.isEmpty then .ok []
  else do
    let schema ← inferSchemaFromRows rows
    (chunks batchSize rows).mapM fun chunk => do
      let columns ← buildColumns lib chunk schema
      lib.tryNew schema columns

end Build

/-! ## What a cell says -/

/-- What an integer, a bit, a date or a time is; an instant is in seconds since 1970. -/
inductive Denoted
  | integer (value : Int)
  | bit (value : Bool)
  | instant (seconds : ℚ)
  | instantAt (seconds : ℚ) (offset : Int)
  | date (days : Nat)
  | time (seconds : ℚ)
deriving DecidableEq

/-- The parts of a second since 1970, of which there are 300. -/
def DateTime.ticks (dateTime : DateTime) : Int :=
  (dateTime.days - 25567) * (24 * 60 * 60 * 300) + dateTime.secondsFragments

/-- The minutes since 1970. -/
def SmallDateTime.minutes (dateTime : SmallDateTime) : Int :=
  (dateTime.days - 25567) * (24 * 60) + dateTime.secondsFragments

def Time.seconds (time : Time) : ℚ := time.increments / 10 ^ time.scale

def DateTime2.seconds (dateTime : DateTime2) : ℚ :=
  (dateTime.date.days - 719162) * (24 * 60 * 60) + dateTime.time.seconds

def Value.denotes : Value → Option Denoted
  | .u8 val => some (.integer val.toNat)
  | .i16 val => some (.integer val.toInt)
  | .i32 val => some (.integer val.toInt)
  | .i64 val => some (.integer val.toInt)
  | .bit val => some (.bit val)
  | .dateTime val => some (.instant (val.ticks / 300))
  | .smallDateTime val => some (.instant (val.minutes * 60))
  | .time val => some (.time val.seconds)
  | .date val => some (.date val.days)
  | .dateTime2 val => some (.instant val.seconds)
  | .dateTimeOffset val => some (.instantAt val.datetime2.seconds val.offset)
  | _ => none

def Cell.denotes : Cell → Option Denoted
  | .boolean value => some (.bit value)
  | .int8 value => some (.integer value.toInt)
  | .int16 value => some (.integer value.toInt)
  | .int32 value => some (.integer value.toInt)
  | .int64 value => some (.integer value.toInt)
  | .timestamp value => some (.instant (value / 10 ^ 6))
  | _ => none

/-- The cell of a batch is null exactly if that of the table is, and is the same integer, bit,
date or time if that is one. -/
def Decodes (cell : ColumnData) (value : Cell) : Prop :=
  (value = .null ↔ cell = none) ∧
    ∀ val denoted, cell = some val → val.denotes = some denoted → value.denotes = some denoted

/-- The batches have every row once and in order, and each of its cells. -/
def DecodesAll (rows : List Row) (batches : List RecordBatch) : Prop :=
  List.Forall₂ (fun row cells => List.Forall₂ Decodes row.cells cells) rows
    (batches.flatMap RecordBatch.rows)

/-- The cells that a column of a type keeps. -/
def Kept (dataType : DataType) : ColumnData → Prop
  | none => True
  | some val =>
      match dataType, val with
      | .int8, .u8 val => val.toNat < 2 ^ 7
      | .int8, .i16 val => -2 ^ 7 ≤ val.toInt ∧ val.toInt < 2 ^ 7
      | .int8, .i32 val => -2 ^ 7 ≤ val.toInt ∧ val.toInt < 2 ^ 7
      | .int16, .u8 _ | .int16, .i16 _ => True
      | .int16, .i32 val => -2 ^ 15 ≤ val.toInt ∧ val.toInt < 2 ^ 15
      | .int32, .u8 _ | .int32, .i16 _ | .int32, .i32 _ => True
      | .int32, .i64 val => -2 ^ 31 ≤ val.toInt ∧ val.toInt < 2 ^ 31
      | .int64, .u8 _ | .int64, .i16 _ | .int64, .i32 _ | .int64, .i64 _ => True
      | .float32, .f32 _ | .float32, .f64 _ => True
      | .float64, .f32 _ | .float64, .f64 _ | .float64, .numeric _ => True
      | .boolean, .bit _ => True
      | .utf8, .string _ | .utf8, .guid _ | .utf8, .xml _ | .utf8, .numeric _ => True
      | .timestamp _, .dateTime val => 3 ∣ val.secondsFragments
      | .timestamp _, .smallDateTime _ => True
      | _, _ => False

/-- What is promised of the libraries. -/
structure Libraries.Documented (lib : Libraries) : Prop where
  dateTime : ∀ dateTime, lib.dateTime dateTime = dateTime.ticks * 10 ^ 9 / 300
  smallDateTime : ∀ dateTime, lib.smallDateTime dateTime = dateTime.minutes * 60 * 10 ^ 9
  batch : ∀ schema columns batch, lib.tryNew schema columns = .ok batch →
    batch.columns = columns ∧ columns ≠ [] ∧
      columns.map Array.dataType = schema.map Field.dataType
  accepts : ∀ (schema : Schema) columns, columns ≠ [] →
    columns.map Array.dataType = schema.map Field.dataType → (∀ field ∈ schema, field.nullable) →
    (∀ length, (∃ column ∈ columns, column.cells.length = length) →
      ∀ column ∈ columns, column.cells.length = length) →
    ∃ batch, lib.tryNew schema columns = .ok batch

section Proofs

variable {lib : Libraries}

theorem decodes_null : Decodes none .null := by
  refine ⟨iff_of_true rfl rfl, ?_⟩
  intro val denoted h
  cases h

theorem not_decodes_null (val : Value) : ¬ Decodes (some val) .null := by
  intro h
  cases h.1.mp rfl

/-- A value of which nothing is asked is only not to become null. -/
theorem decodes_of_none {val : Value} {value : Cell} (hval : val.denotes = none)
    (hvalue : value ≠ .null) : Decodes (some val) value := by
  refine ⟨iff_of_false hvalue nofun, ?_⟩
  intro val denoted heq hdenoted
  obtain rfl := Option.some.inj heq
  cases hval.symm.trans hdenoted

/-- Another value is kept if and only if it is the same. -/
theorem decodes_iff {val : Value} {value : Cell} {denoted : Denoted}
    (hval : val.denotes = some denoted) (hvalue : value ≠ .null) :
    Decodes (some val) value ↔ value.denotes = some denoted := by
  constructor
  · intro h
    exact h.2 val denoted rfl hval
  · intro h
    refine ⟨iff_of_false hvalue nofun, ?_⟩
    intro val denoted' heq hdenoted'
    obtain rfl := Option.some.inj heq
    exact h.trans (hval.symm.trans hdenoted')

theorem integer_iff {val : Value} {value : Cell} {n m : Int}
    (hval : val.denotes = some (.integer n)) (hvalue : value.denotes = some (.integer m)) : Decodes (some val) value ↔ m = n := by
  rw [decodes_iff hval, hvalue]
  · constructor
    · intro h
      cases h
      rfl
    · rintro rfl
      rfl
  · rintro rfl
    cases hvalue

/-- A cast to a width keeps what fits into it. -/
theorem bmod_eq_self_iff {n : Int} (w : Nat) :
    n.bmod (2 ^ (w + 1)) = n ↔ -2 ^ w ≤ n ∧ n < 2 ^ w := by
  have hpow : ((2 ^ (w + 1) : Nat) : Int) = 2 * 2 ^ w := by
    rw [Nat.pow_succ']
    push_cast
    rfl
  constructor
  · intro h
    have hle := Int.le_bmod (x := n) (m := 2 ^ (w + 1)) (by positivity)
    have hlt := Int.bmod_lt (x := n) (m := 2 ^ (w + 1)) (by positivity)
    rw [h, hpow] at hle hlt
    omega
  · intro h
    exact Int.bmod_eq_of_le (by omega) (by omega)

theorem int8_decodes_iff (val : Value) :
    Decodes (some val) (int8Cell (some val)) ↔ Kept .int8 (some val) := by
  cases val with
  | u8 val =>
      rw [int8Cell, integer_iff rfl rfl, Int8.toInt_ofInt]
      refine (bmod_eq_self_iff 7).trans ?_
      have hle := Int.natCast_nonneg val.toNat
      constructor
      · rintro ⟨-, hlt⟩
        exact_mod_cast hlt
      · intro hlt
        refine ⟨by omega, ?_⟩
        exact_mod_cast (show val.toNat < 2 ^ 7 from hlt)
  | i16 val =>
      rw [int8Cell, integer_iff rfl rfl, Int8.toInt_ofInt]
      exact bmod_eq_self_iff 7
  | i32 val =>
      rw [int8Cell, integer_iff rfl rfl, Int8.toInt_ofInt]
      exact bmod_eq_self_iff 7
  | _ => exact iff_of_false (not_decodes_null _) not_false

theorem int16_decodes_iff (val : Value) :
    Decodes (some val) (int16Cell (some val)) ↔ Kept .int16 (some val) := by
  cases val with
  | u8 val =>
      rw [int16Cell, integer_iff rfl rfl, Int16.toInt_ofInt]
      refine (bmod_eq_self_iff 15).trans (iff_of_true ?_ trivial)
      have hlt := val.toNat_lt
      omega
  | i16 val => exact (integer_iff rfl rfl).trans (iff_of_true rfl trivial)
  | i32 val =>
      rw [int16Cell, integer_iff rfl rfl, Int16.toInt_ofInt]
      exact bmod_eq_self_iff 15
  | _ => exact iff_of_false (not_decodes_null _) not_false

theorem int32_decodes_iff (val : Value) :
    Decodes (some val) (int32Cell (some val)) ↔ Kept .int32 (some val) := by
  cases val with
  | u8 val =>
      rw [int32Cell, integer_iff rfl rfl, Int32.toInt_ofInt]
      refine (bmod_eq_self_iff 31).trans (iff_of_true ?_ trivial)
      have hlt := val.toNat_lt
      omega
  | i16 val =>
      rw [int32Cell, integer_iff rfl rfl, Int32.toInt_ofInt]
      refine (bmod_eq_self_iff 31).trans (iff_of_true ?_ trivial)
      have hle := val.le_toInt
      have hlt := val.toInt_lt
      omega
  | i32 val => exact (integer_iff rfl rfl).trans (iff_of_true rfl trivial)
  | i64 val =>
      rw [int32Cell, integer_iff rfl rfl, Int32.toInt_ofInt]
      exact bmod_eq_self_iff 31
  | _ => exact iff_of_false (not_decodes_null _) not_false

theorem int64_decodes_iff (val : Value) :
    Decodes (some val) (int64Cell (some val)) ↔ Kept .int64 (some val) := by
  cases val with
  | u8 val =>
      rw [int64Cell, integer_iff rfl rfl, Int64.toInt_ofInt]
      refine (bmod_eq_self_iff 63).trans (iff_of_true ?_ trivial)
      have hlt := val.toNat_lt
      omega
  | i16 val =>
      rw [int64Cell, integer_iff rfl rfl, Int64.toInt_ofInt]
      refine (bmod_eq_self_iff 63).trans (iff_of_true ?_ trivial)
      have hle := val.le_toInt
      have hlt := val.toInt_lt
      omega
  | i32 val =>
      rw [int64Cell, integer_iff rfl rfl, Int64.toInt_ofInt]
      refine (bmod_eq_self_iff 63).trans (iff_of_true ?_ trivial)
      have hle := val.le_toInt
      have hlt := val.toInt_lt
      omega
  | i64 val => exact (integer_iff rfl rfl).trans (iff_of_true rfl trivial)
  | _ => exact iff_of_false (not_decodes_null _) not_false

theorem float32_decodes_iff (val : Value) :
    Decodes (some val) (float32Cell lib (some val)) ↔ Kept .float32 (some val) := by
  cases val with
  | f32 val => exact iff_of_true (decodes_of_none rfl nofun) trivial
  | f64 val => exact iff_of_true (decodes_of_none rfl nofun) trivial
  | _ => exact iff_of_false (not_decodes_null _) not_false

theorem float64_decodes_iff (val : Value) :
    Decodes (some val) (float64Cell lib (some val)) ↔ Kept .float64 (some val) := by
  cases val with
  | f32 val => exact iff_of_true (decodes_of_none rfl nofun) trivial
  | f64 val => exact iff_of_true (decodes_of_none rfl nofun) trivial
  | numeric val => exact iff_of_true (decodes_of_none rfl nofun) trivial
  | _ => exact iff_of_false (not_decodes_null _) not_false

theorem boolean_decodes_iff (val : Value) :
    Decodes (some val) (booleanCell (some val)) ↔ Kept .boolean (some val) := by
  cases val with
  | bit val =>
      refine iff_of_true ⟨iff_of_false nofun nofun, ?_⟩ trivial
      intro val' denoted h hdenoted
      cases h
      exact hdenoted
  | _ => exact iff_of_false (not_decodes_null _) not_false

theorem utf8_decodes_iff (val : Value) :
    Decodes (some val) (utf8Cell lib (some val)) ↔ Kept .utf8 (some val) := by
  cases val with
  | string val => exact iff_of_true (decodes_of_none rfl nofun) trivial
  | guid val => exact iff_of_true (decodes_of_none rfl nofun) trivial
  | xml val => exact iff_of_true (decodes_of_none rfl nofun) trivial
  | numeric val => exact iff_of_true (decodes_of_none rfl nofun) trivial
  | _ => exact iff_of_false (not_decodes_null _) not_false

/-- A number of microseconds is an instant in 300ths of a second only where three of these
come together. -/
theorem micros_iff (ticks : Int) :
    ((ticks * 10 ^ 9 / 300 / 1000 : Int) : ℚ) / 10 ^ 6 = ticks / 300 ↔ 3 ∣ ticks := by
  rw [div_eq_div_iff (by norm_num) (by norm_num)]
  constructor
  · intro h
    have h : ticks * 10 ^ 9 / 300 / 1000 * 300 = ticks * 10 ^ 6 := by exact_mod_cast h
    omega
  · intro h
    have h : ticks * 10 ^ 9 / 300 / 1000 * 300 = ticks * 10 ^ 6 := by omega
    exact_mod_cast h

theorem instant_iff {val : Value} {t : ℚ} {micros : Int} (hval : val.denotes = some (.instant t)) :
    Decodes (some val) (.timestamp micros) ↔ (micros : ℚ) / 10 ^ 6 = t := by
  rw [decodes_iff hval (fun h : Cell.timestamp micros = .null => by cases h)]
  constructor
  · intro h
    cases h
    rfl
  · rintro rfl
    rfl

theorem timestamp_decodes_iff (hlib : lib.Documented) (timezone : Option String) (val : Value) :
    Decodes (some val) (timestampCell lib (some val)) ↔ Kept (.timestamp timezone) (some val) := by
  cases val with
  | dateTime val =>
      rw [timestampCell, instant_iff rfl, hlib.dateTime, micros_iff]
      change 3 ∣ (val.days - 25567) * (24 * 60 * 60 * 300) + (val.secondsFragments : Int) ↔
        3 ∣ val.secondsFragments
      omega
  | smallDateTime val =>
      rw [timestampCell, instant_iff rfl, hlib.smallDateTime]
      refine iff_of_true ?_ trivial
      have h : val.minutes * 60 * 10 ^ 9 / 1000 = val.minutes * 60 * 10 ^ 6 := by omega
      rw [h]
      push_cast
      exact mul_div_cancel_right₀ _ (by norm_num)
  | _ => exact iff_of_false (not_decodes_null _) not_false

/-- What a column of a type keeps is decoded, and nothing else. -/
theorem builder_decodes_iff (hlib : lib.Documented) {dataType : DataType} (hnull : dataType ≠ .null)
    (cell : ColumnData) : Decodes cell ((builder lib dataType).2 cell) ↔ Kept dataType cell := by
  cases cell with
  | none =>
      refine iff_of_true ?_ trivial
      cases dataType <;> exact decodes_null
  | some val =>
      cases dataType with
      | null => exact absurd rfl hnull
      | boolean => exact boolean_decodes_iff val
      | int8 => exact int8_decodes_iff val
      | int16 => exact int16_decodes_iff val
      | int32 => exact int32_decodes_iff val
      | int64 => exact int64_decodes_iff val
      | float32 => exact float32_decodes_iff val
      | float64 => exact float64_decodes_iff val
      | utf8 => exact utf8_decodes_iff val
      | timestamp timezone => exact timestamp_decodes_iff hlib timezone val

/-! ## Tables -/

variable (lib) in
/-- The cells of a row in a batch. -/
def builtRow (schema : Schema) (row : Row) : List Cell :=
  schema.zipIdx.map fun p => builtCell lib p.1.dataType p.2 row

def fields (columns : List Column) : Schema :=
  columns.map fun column => ⟨column.name, column.columnType.dataType, true⟩

theorem builtRow_eq (row : Row) : builtRow lib (fields row.columns) row =
    List.zipWith (fun column cell => (builder lib column.columnType.dataType).2 cell) row.columns
      row.cells := by
  refine List.ext_getElem ?_ fun i hi hi' => ?_
  · rw [builtRow, List.length_map, List.length_zipIdx, fields, List.length_map,
      List.length_zipWith, row.width, Nat.min_self]
  · have hcells : i < row.cells.length := by
      rw [List.length_zipWith] at hi'
      omega
    rw [List.getElem_zipWith]
    simp only [builtRow, fields, builtCell, List.getElem_map, List.getElem_zipIdx, Nat.zero_add,
      List.getElem?_eq_getElem hcells]

theorem forall₂_zipWith {α β γ : Type*} {R : β → γ → Prop} {f : α → β → γ} {xs : List α}
    {ys : List β} (hlength : ys.length = xs.length) :
    List.Forall₂ R ys (List.zipWith f xs ys) ↔ List.Forall₂ (fun x y => R y (f x y)) xs ys := by
  induction xs generalizing ys with
  | nil =>
      obtain rfl := List.length_eq_zero_iff.mp hlength
      exact iff_of_true .nil .nil
  | cons x xs ih =>
      cases ys with
      | nil => cases hlength
      | cons y ys =>
          rw [List.zipWith_cons_cons, List.forall₂_cons, List.forall₂_cons,
            ih (Nat.succ.inj hlength)]

/-- A row is decoded if and only if each of its cells is kept. -/
theorem row_decodes_iff (hlib : lib.Documented) (row : Row)
    (hnull : ∀ column ∈ row.columns, column.columnType ≠ .null) :
    List.Forall₂ Decodes row.cells (builtRow lib (fields row.columns) row) ↔
      List.Forall₂ (fun column cell => Kept column.columnType.dataType cell) row.columns
        row.cells := by
  rw [builtRow_eq, forall₂_zipWith row.width]
  have hcolumn : ∀ column ∈ row.columns, column.columnType.dataType ≠ .null := by
    intro column hmem hdata
    refine hnull column hmem ?_
    generalize column.columnType = columnType at hdata
    cases columnType <;> first | rfl | cases hdata
  rw [List.forall₂_iff_zip, List.forall₂_iff_zip]
  refine and_congr_right fun _ => ⟨fun h column cell hmem => ?_, fun h column cell hmem => ?_⟩
  · exact (builder_decodes_iff hlib (hcolumn column (List.of_mem_zip hmem).1) cell).mp (h hmem)
  · exact (builder_decodes_iff hlib (hcolumn column (List.of_mem_zip hmem).1) cell).mpr (h hmem)

/-- The columns of a chunk. -/
def chunkColumns (lib : Libraries) (schema : Schema) (chunk : List Row) : List Array :=
  schema.zipIdx.map fun p =>
    ⟨(builder lib p.1.dataType).1, chunk.map (builtCell lib p.1.dataType p.2)⟩

theorem rows_chunkColumns {schema : Schema} (hschema : schema ≠ []) (chunk : List Row)
    {batch : RecordBatch} (hbatch : batch.columns = chunkColumns lib schema chunk) :
    batch.rows = chunk.map (builtRow lib schema) := by
  have hindex : schema.zipIdx ≠ [] := by
    rw [ne_eq, List.zipIdx_eq_nil_iff]
    exact hschema
  rw [RecordBatch.rows, hbatch, chunkColumns, List.map_map]
  exact rowsOf_map (fun p : Field × Nat => builtCell lib p.1.dataType p.2) chunk hindex

theorem flatMap_rows {schema : Schema} {groups : List (List Row)} {batches : List RecordBatch}
    (h : List.Forall₂ (fun chunk batch => batch.rows = chunk.map (builtRow lib schema)) groups
      batches) :
    batches.flatMap RecordBatch.rows = groups.flatten.map (builtRow lib schema) := by
  induction h with
  | nil => rfl
  | cons hhead _ ih => rw [List.flatMap_cons, List.flatten_cons, List.map_append, hhead, ih]

theorem builder_fst_iff (columnType : ColumnType) :
    (builder lib columnType.dataType).1 = columnType.dataType ↔
      columnType ≠ .null ∧ columnType ≠ .datetimeOffsetn := by
  cases columnType <;> simp [ColumnType.dataType, builder]

/-- The columns of a chunk have the types of the schema unless one of them is of no type or of
`datetimeoffset`. -/
theorem dataTypes_iff (columns : List Column) (chunk : List Row) :
    (chunkColumns lib (fields columns) chunk).map Array.dataType =
        (fields columns).map Field.dataType ↔
      ∀ column ∈ columns, column.columnType ≠ .null ∧ column.columnType ≠ .datetimeOffsetn := by
  have hbuilt : (chunkColumns lib (fields columns) chunk).map Array.dataType =
      columns.map fun column => (builder lib column.columnType.dataType).1 := by
    have hfst : ((fields columns).zipIdx.map Prod.fst).map
          (fun field => (builder lib field.dataType).1) =
        (fields columns).map fun field => (builder lib field.dataType).1 :=
      congrArg _ (List.zipIdx_map_fst 0 _)
    rw [chunkColumns, List.map_map]
    rw [List.map_map, fields, List.map_map] at hfst
    exact hfst
  rw [hbuilt, fields, List.map_map, List.map_inj_left]
  exact forall₂_congr fun column _ => builder_fst_iff column.columnType

/-- What the batches of a table are. -/
theorem rowsToRecordBatches_eq_ok_iff {set : ResultSet} {batchSize : ℕ+}
    {batches : List RecordBatch} (hrows : set.rows ≠ []) :
    rowsToRecordBatches lib set.rows batchSize = .ok batches ↔
      List.Forall₂ (fun chunk batch => lib.tryNew (fields set.columns)
        (chunkColumns lib (fields set.columns) chunk) = .ok batch) (chunks batchSize set.rows)
        batches := by
  have hschema : inferSchemaFromRows set.rows = .ok (fields set.columns) := by
    cases hset : set.rows with
    | nil => exact absurd hset hrows
    | cons row rows =>
        have hcolumns : row.columns = set.columns :=
          set.same row (hset ▸ List.mem_cons_self)
        rw [inferSchemaFromRows, hcolumns]
        rfl
  have hempty : ¬ set.rows.isEmpty = true := fun h => hrows (List.isEmpty_iff.mp h)
  rw [rowsToRecordBatches, if_neg hempty, hschema]
  exact mapM_eq_ok_iff

/-- If batches are made, they have the cells that were built. -/
theorem rows_of_ok (hlib : lib.Documented) {set : ResultSet} {batchSize : ℕ+}
    {batches : List RecordBatch} (hrows : set.rows ≠ [])
    (hok : rowsToRecordBatches lib set.rows batchSize = .ok batches) :
    batches.flatMap RecordBatch.rows = set.rows.map (builtRow lib (fields set.columns)) ∧
      ∀ column ∈ set.columns, column.columnType ≠ .null ∧ column.columnType ≠ .datetimeOffsetn := by
  rw [rowsToRecordBatches_eq_ok_iff hrows] at hok
  have hbuilt : ∀ chunk batch, lib.tryNew (fields set.columns)
      (chunkColumns lib (fields set.columns) chunk) = .ok batch →
      batch.rows = chunk.map (builtRow lib (fields set.columns)) ∧
        ∀ column ∈ set.columns, column.columnType ≠ .null ∧
          column.columnType ≠ .datetimeOffsetn := by
    intro chunk batch hbatch
    obtain ⟨hcolumns, hne, htypes⟩ := hlib.batch _ _ _ hbatch
    refine ⟨rows_chunkColumns ?_ chunk hcolumns, (dataTypes_iff _ chunk).mp htypes⟩
    intro hschema
    rw [hschema] at hne
    exact hne rfl
  constructor
  · rw [flatMap_rows (hok.imp fun chunk batch hbatch => (hbuilt chunk batch hbatch).1),
      flatten_chunks]
  · have hchunks : chunks batchSize set.rows ≠ [] := by
      intro hnil
      refine hrows ?_
      rw [← flatten_chunks batchSize set.rows, hnil]
      rfl
    generalize chunks batchSize set.rows = groups at hok hchunks
    cases hok with
    | nil => exact absurd rfl hchunks
    | cons hbatch _ => exact (hbuilt _ _ hbatch).2

/-- Where all columns are of the types of the schema, batches are made. -/
theorem exists_batches (hlib : lib.Documented) {set : ResultSet} (batchSize : ℕ+)
    (hrows : set.rows ≠ []) (hcolumns : set.columns ≠ [])
    (htypes : ∀ column ∈ set.columns, column.columnType ≠ .null ∧
      column.columnType ≠ .datetimeOffsetn) :
    ∃ batches, rowsToRecordBatches lib set.rows batchSize = .ok batches := by
  have hbatch : ∀ chunk : List Row, ∃ batch, lib.tryNew (fields set.columns)
      (chunkColumns lib (fields set.columns) chunk) = .ok batch := by
    intro chunk
    refine hlib.accepts _ _ ?_ ((dataTypes_iff _ chunk).mpr htypes) ?_ ?_
    · rw [chunkColumns, ne_eq, List.map_eq_nil_iff, List.zipIdx_eq_nil_iff, fields,
        List.map_eq_nil_iff]
      exact hcolumns
    · intro field hfield
      obtain ⟨column, -, rfl⟩ := List.mem_map.mp hfield
      rfl
    · have hlength : ∀ column ∈ chunkColumns lib (fields set.columns) chunk,
          column.cells.length = chunk.length := by
        intro column hcolumn
        obtain ⟨p, -, rfl⟩ := List.mem_map.mp hcolumn
        exact List.length_map _
      rintro length ⟨column, hcolumn, rfl⟩ column' hcolumn'
      exact (hlength column' hcolumn').trans (hlength column hcolumn).symm
  choose batch hbatch using hbatch
  refine ⟨(chunks batchSize set.rows).map batch, ?_⟩
  rw [rowsToRecordBatches_eq_ok_iff hrows, List.forall₂_map_right_iff]
  exact List.forall₂_same.mpr fun chunk _ => hbatch chunk

theorem decodesAll_iff (hlib : lib.Documented) {set : ResultSet} {batches : List RecordBatch}
    (hbatches : batches.flatMap RecordBatch.rows =
      set.rows.map (builtRow lib (fields set.columns)))
    (htypes : ∀ column ∈ set.columns, column.columnType ≠ .null) :
    DecodesAll set.rows batches ↔ ∀ row ∈ set.rows,
      List.Forall₂ (fun column cell => Kept column.columnType.dataType cell) set.columns
        row.cells := by
  rw [DecodesAll, hbatches, List.forall₂_map_right_iff, List.forall₂_same]
  refine forall₂_congr fun row hrow => ?_
  rw [← set.same row hrow] at htypes ⊢
  exact row_decodes_iff hlib row htypes

end Proofs

/-- Whatever the result is and however large the batches are: if batches are made, they have
every row once and in order and all of its values, exactly if one of the columns is of no type
or of `datetimeoffset` (and no batch is made), or every cell is one that its column keeps. -/
theorem rows_decoded_iff {lib : Libraries} (hlib : lib.Documented) (set : ResultSet)
    (batchSize : ℕ+) :
    (∀ batches, rowsToRecordBatches lib set.rows batchSize = .ok batches →
        DecodesAll set.rows batches) ↔
      (∃ column ∈ set.columns, column.columnType = .null ∨
        column.columnType = .datetimeOffsetn) ∨
      ∀ row ∈ set.rows,
        List.Forall₂ (fun column cell => Kept column.columnType.dataType cell) set.columns
          row.cells := by
  by_cases hrows : set.rows = []
  · refine iff_of_true ?_ (Or.inr ?_)
    · intro batches hok
      rw [hrows] at hok ⊢
      cases hok
      exact .nil
    · rw [hrows]
      nofun
  by_cases htypes : ∀ column ∈ set.columns, column.columnType ≠ .null ∧
      column.columnType ≠ .datetimeOffsetn
  · have hnull : ∀ column ∈ set.columns, column.columnType ≠ .null :=
      fun column hmem => (htypes column hmem).1
    have hnone : ¬ ∃ column ∈ set.columns, column.columnType = .null ∨
        column.columnType = .datetimeOffsetn := by
      rintro ⟨column, hmem, h | h⟩
      · exact (htypes column hmem).1 h
      · exact (htypes column hmem).2 h
    rw [or_iff_right hnone]
    constructor
    · intro h row hrow
      by_cases hcolumns : set.columns = []
      · have hcells : row.cells = [] := by
          rw [← List.length_eq_zero_iff, row.width, set.same row hrow, hcolumns]
          rfl
        rw [hcells, hcolumns]
        exact .nil
      · obtain ⟨batches, hok⟩ := exists_batches hlib batchSize hrows hcolumns htypes
        exact (decodesAll_iff hlib (rows_of_ok hlib hrows hok).1 hnull).mp (h batches hok) row hrow
    · intro h batches hok
      exact (decodesAll_iff hlib (rows_of_ok hlib hrows hok).1 hnull).mpr h
  · refine iff_of_true ?_ (Or.inl ?_)
    · intro batches hok
      exact absurd (rows_of_ok hlib hrows hok).2 htypes
    · by_contra hnone
      refine htypes fun column hmem => ⟨fun h => hnone ?_, fun h => hnone ?_⟩
      · exact ⟨column, hmem, Or.inl h⟩
      · exact ⟨column, hmem, Or.inr h⟩

/-- Libraries for tables without floats and decimals. -/
def exactLibraries : Libraries where
  f32AsF64 _ := 0
  f64AsF32 _ := 0
  numericToF64 _ := 0
  f32ToString _ := ""
  f64ToString _ := ""
  guidToString _ := ""
  dateTime dateTime := dateTime.ticks * 10 ^ 9 / 300
  smallDateTime dateTime := dateTime.minutes * 60 * 10 ^ 9
  tryNew schema columns :=
    match columns with
    | [] => .error "must either specify a row count or at least one column"
    | first :: rest =>
        if (first :: rest).map Array.dataType = schema.map Field.dataType then
          if rest.all fun column => column.cells.length = first.cells.length then
            .ok ⟨schema, first :: rest⟩
          else .error "all columns in a record batch must have the same length"
        else .error "column types must match schema types"

theorem exactLibraries_documented : exactLibraries.Documented where
  dateTime _ := rfl
  smallDateTime _ := rfl
  batch schema columns batch h := by
    cases columns with
    | nil => cases h
    | cons first rest =>
        change (if _ then if _ then _ else _ else _) = _ at h
        split at h
        · rename_i htypes
          split at h
          · cases h
            exact ⟨rfl, nofun, htypes⟩
          · cases h
        · cases h
  accepts schema columns hne htypes hnullable hlength := by
    cases columns with
    | nil => exact absurd rfl hne
    | cons first rest =>
        refine ⟨⟨schema, first :: rest⟩, ?_⟩
        have hrest : (rest.all fun column => column.cells.length = first.cells.length) = true := by
          rw [List.all_eq_true]
          intro column hmem
          exact decide_eq_true (hlength _ ⟨first, List.mem_cons_self, rfl⟩ column
            (List.mem_cons_of_mem _ hmem))
        change (if _ then _ else _) = _
        rw [if_pos htypes, if_pos hrest]

def table (columns : List Column)
    (rows : List {cells : List ColumnData // cells.length = columns.length}) : ResultSet where
  columns := columns
  rows := rows.map fun cells => ⟨columns, cells.1, cells.2⟩
  same row hrow := by
    obtain ⟨cells, -, rfl⟩ := List.mem_map.mp hrow
    rfl

/-- A `bigint`, a `bit` and a `smalldatetime` that may be null, in two batches. -/
theorem rows_decoded_table :
    let set := table [⟨"id", .intn⟩, ⟨"done", .bitn⟩, ⟨"at", .datetimen⟩]
      [⟨[some (.i64 7), some (.bit true),
        some (.smallDateTime ⟨40000, 90, by decide, by decide⟩)], rfl⟩, ⟨[none, none, none], rfl⟩]
    ∀ batches, rowsToRecordBatches exactLibraries set.rows 1 = .ok batches →
      DecodesAll set.rows batches := by
  intro set
  refine (rows_decoded_iff exactLibraries_documented set 1).mpr (Or.inr ?_)
  intro row hrow
  rcases List.mem_cons.mp hrow with rfl | hrow
  · exact .cons ⟨by decide, by decide⟩ (.cons trivial (.cons trivial .nil))
  · obtain rfl := List.mem_singleton.mp hrow
    exact .cons trivial (.cons trivial (.cons trivial .nil))

/-- A `bigint` that may be null and is 2 ^ 31. -/
theorem nullable_bigint_wraps :
    let set := table [⟨"id", .intn⟩] [⟨[some (.i64 2147483648)], rfl⟩]
    ∃ batches, rowsToRecordBatches exactLibraries set.rows 100 = .ok batches ∧
      ¬ DecodesAll set.rows batches := by
  refine ⟨[⟨[⟨"id", .int32, true⟩], [⟨.int32, [.int32 (-2147483648)]⟩]⟩], rfl, ?_⟩
  intro h
  cases h with
  | cons hrow _ =>
      cases hrow with
      | cons hcell _ => exact absurd ((integer_iff rfl rfl).mp hcell) (by decide)

end Flowgen.Mssql
