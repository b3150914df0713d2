/-
# `Flowgen.Json` — JSON values

`serde_json::Value`, with its three kinds of numbers, and the part of
`serde_json::from_value` that a derived `Deserialize` of a plain structure
relies on: a structure is read from an object that has all its fields, or from
an array of as many items.
-/
import Mathlib

namespace Flowgen

/-- `serde_json::Number`.  A float is kept as its text. -/
inductive JsonNumber
  | posInt (n : UInt64)
  | negInt (n : Int64)
  | float (text : String)
deriving DecidableEq

/-- `serde_json::Value`. -/
inductive Json
  | null
  | bool (b : Bool)
  | number (n : JsonNumber)
  | string (s : String)
  | array (items : List Json)
  | object (fields : List (String × Json))

namespace Json

/-- `Value::get` with a key. -/
def get? (v : Json) (key : String) : Option Json :=
  match v with
  | .object fields => fields.lookup key
  | _ => none

/-- `Value::as_str`. -/
def asStr : Json → Option String
  | .string s => some s
  | _ => none

/-- `Value::as_u64`. -/
def asU64 : Json → Option UInt64
  | .number (.posInt n) => some n
  | _ => none

/-- `Value::is_null`. -/
def isNull : Json → Bool
  | .null => true
  | _ => false

/-- `serde_json::from_value` of a sequence. -/
def decodeVec {α : Type} (decode : Json → Option α) : Json → Option (List α)
  | .array items => items.mapM decode
  | _ => none

/-- The values of the fields a derived structure requires. -/
def structFields (names : List String) : Json → Option (List Json)
  | .object fields => names.mapM fun name => fields.lookup name
  | .array items => if items.length = names.length then some items else none
  | _ => none

end Json

end Flowgen
