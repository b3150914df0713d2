/-
# `Flowgen.Render.Template` — templates in configurations and resources
(`core/src/config.rs`, `core/src/resource.rs`)

A task renders its configuration against an event: every string of it that has
a `{{` is replaced.  A template that is just a path takes the value at that
path, so that its type is kept; any other template is given to the engine, and
what comes out is used as JSON if it parses as something else than a string.

A `Source` of such a configuration is then rendered once more, at its use: the
text of a resource has to be, and an inline text is as well, although
`config.render` has been there already.

The engine is the Handlebars library, with escaping turned off.  Of its
language the model assumes that text outside of an expression is copied.
-/
import Flowgen.Json
import Flowgen.Text

namespace Flowgen.Render

open Flowgen.Text

/-! ## Texts with expressions -/

/-- How often `{{` occurs, counted from the left without overlap. -/
def countOpen : List Char → Nat
  | '{' :: '{' :: cs => countOpen cs + 1
  | _ :: cs => countOpen cs
  | [] => 0

/-- `s.contains("{{")`. -/
def hasExpr (s : String) : Bool := 0 < countOpen s.toList

/-- `str::split` at a character. -/
def splitAll (sep : Char) : List Char → List (List Char)
  | [] => [[]]
  | c :: cs =>
      if c = sep then [] :: splitAll sep cs
      else
        match splitAll sep cs with
        | part :: parts => (c :: part) :: parts
        | [] => [[c]]

/-- `extract_simple_path`: the path of a template that is one bare expression. -/
def extractSimplePath (template : String) : Option String :=
  let trimmed := (trim template).toList
  if trimmed.take 2 = ['{', '{'] ∧ trimmed.reverse.take 2 = ['}', '}'] ∧ countOpen trimmed = 1 then
    let inner := trim (String.ofList ((trimmed.drop 2).take (trimmed.length - 4)))
    if inner.toList.any fun c => c = ' ' ∨ c = '(' ∨ c = ')' then none else some inner
  else none

/-- `get_value_by_path`, on the parts of the path. -/
def getValueByParts (data : Json) : List String → Option Json
  | [] => some data
  | part :: parts =>
      match data with
      | .object fields => (fields.lookup part).bind fun v => getValueByParts v parts
      | _ => none

def getValueByPath (data : Json) (path : String) : Option Json :=
  getValueByParts data ((splitAll '.' path.toList).map String.ofList)

/-- The template engine, and the JSON parser that reads what it returns. -/
structure Engine where
  /-- `Handlebars::render_template`. -/
  renderTemplate : String → Json → Except String String
  /-- `serde_json::from_str`. -/
  parseJson : String → Option Json
  /-- Text without an expression is copied. -/
  copies : ∀ text data, hasExpr text = false → renderTemplate text data = .ok text

variable (engine : Engine)

/-! ## Rendering a configuration -/

/-- The environment of the process is added under `env`. -/
def withEnv (env : List (String × String)) : Json → Json
  | .object fields =>
      .object (("env", .object (env.map fun (name, value) => (name, .string value))) ::
        fields.filter fun field => field.1 != "env")
  | data => data

/-- `render_json_value` on a string. -/
def renderString (data : Json) (s : String) : Except String Json :=
  if hasExpr s then
    match (extractSimplePath s).bind (getValueByPath data) with
    | some directValue => .ok directValue
    | none => do
        let rendered ← engine.renderTemplate s data
        match engine.parseJson rendered with
        | some (.string _) | none => .ok (.string rendered)
        | some parsed => .ok parsed
  else .ok (.string s)

mutual

/-- `render_json_value`. -/
def renderJsonValue (data : Json) : Json → Except String Json
  | .string s => renderString engine data s
  | .object fields => return .object (← renderFields data fields)
  | .array items => return .array (← renderItems data items)
  | value => .ok value

def renderItems (data : Json) : List Json → Except String (List Json)
  | [] => .ok []
  | item :: items => return (← renderJsonValue data item) :: (← renderItems data items)

def renderFields (data : Json) : List (String × Json) → Except String (List (String × Json))
  | [] => .ok []
  | (key, value) :: fields =>
      return (key, ← renderJsonValue data value) :: (← renderFields data fields)

end

/-- `render_template`. -/
def renderTemplate (env : List (String × String)) (data : Json) (template : String) :
    Except String String :=
  engine.renderTemplate template (withEnv env data)

/-! ## Sources -/

/-- `Source`: content that is inline or in a resource. -/
inductive Source
  | resource (key : String)
  | inline (content : String)
deriving DecidableEq

namespace Source

def toJson : Source → Json
  | .resource key => .object [("resource", .string key)]
  | .inline content => .string content

/-- The untagged variants, which deny unknown fields. -/
def ofJson : Json → Except String Source
  | .string content => .ok (.inline content)
  | .object [("resource", .string key)] => .ok (.resource key)
  | _ => .error "expected inline content as a string, or a resource"

/-- `Source::render`. -/
def render (load : String → Except String String) (env : List (String × String)) (data : Json) :
    Source → Except String String
  | .inline content => renderTemplate engine env data content
  | .resource key => do
      let template ← load key
      renderTemplate engine env data template

end Source

end Flowgen.Render
