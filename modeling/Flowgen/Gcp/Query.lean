/-
# `Flowgen.Gcp.Query` — the text of a BigQuery query (`gcp/src/bigquery/query.rs`)

For each event the task renders its configuration, and then the query of the
rendered configuration.  A query that is a resource is read between the two, so
its content is rendered once.  An inline query has had its expressions
replaced when it is rendered the second time: what the event has put in place
is then a template itself (`inline_query_leaks`), unless the engine leaves it
as it is (`query_verbatim_iff`).

The other fields of the configuration, its parameters among them, are rendered
with it and have no part in the text; they are kept as JSON.
-/
import Flowgen.Lib.Fallible
import Flowgen.Render.Template

namespace Flowgen.Gcp

open Flowgen.Lib Flowgen.Render

/-- The configuration of a `gcp_bigquery_query` task. -/
structure Query where
  query : Source
  others : List (String × Json)

/-- What a task is run with: the resources, the environment of the process, and
whether the other fields of a rendered configuration can be read back. -/
structure Surroundings where
  engine : Engine
  load : String → Except String String
  env : List (String × String)
  accepts : List (String × Json) → Bool

variable (sur : Surroundings)

/-- `ConfigExt::render`. -/
def Query.render (data : Json) (config : Query) : Except String Query := do
  let query ← renderJsonValue sur.engine (withEnv sur.env data) config.query.toJson
  let others ← renderFields sur.engine (withEnv sur.env data) config.others
  let query ← Source.ofJson query
  if sur.accepts others then return { query, others }
  else .error "the rendered configuration is not one of a query task"

/-- The text that `handle` executes for an event: `config.render`, and then the
`Source::render` of `QueryStream::start`. -/
def executedQuery (data : Json) (config : Query) : Except String String := do
  let config ← config.render sur data
  config.query.render sur.engine sur.load sur.env data

/-! ## Rendering once -/

/-- The text is the configured template with its expressions replaced, once: the
inline text itself, or the content of the resource that the key names. -/
def Verbatim (data : Json) (config : Query) (text : String) : Prop :=
  match config.query with
  | .inline template =>
      renderString sur.engine (withEnv sur.env data) template = .ok (.string text)
  | .resource key => ∃ key' content,
      renderString sur.engine (withEnv sur.env data) key = .ok (.string key') ∧
        sur.load key' = .ok content ∧ renderTemplate sur.engine sur.env data content = .ok text

/-- Once its expressions are replaced, the query is a text that the engine
leaves as it is, or it is not inline. -/
def Settled (data : Json) (config : Query) : Prop :=
  match config.query with
  | .inline template => ∃ text,
      renderString sur.engine (withEnv sur.env data) template = .ok (.string text) ∧
        renderTemplate sur.engine sur.env data text = .ok text
  | .resource _ => True

variable {sur} {data : Json} {config : Query} {text : String}

/-- A text without an expression in it is settled. -/
theorem settled_of_no_expr {template : String} (hq : config.query = .inline template)
    (hr : renderString sur.engine (withEnv sur.env data) template = .ok (.string text))
    (hexpr : hasExpr text = false) : Settled sur data config := by
  rw [Settled, hq]
  exact ⟨text, hr, sur.engine.copies text _ hexpr⟩

/-- A rendered configuration has the rendered query. -/
theorem render_query {config' : Query} (h : config.render sur data = .ok config') :
    ∃ query, renderJsonValue sur.engine (withEnv sur.env data) config.query.toJson = .ok query ∧
      Source.ofJson query = .ok config'.query := by
  rw [Query.render] at h
  obtain ⟨query, hquery, h⟩ := bind_eq_ok.mp h
  obtain ⟨others, -, h⟩ := bind_eq_ok.mp h
  obtain ⟨source, hsource, h⟩ := bind_eq_ok.mp h
  split at h
  · cases h
    exact ⟨query, hquery, hsource⟩
  · cases h

theorem ofJson_string {s : String} {source : Source} (h : Source.ofJson (.string s) = .ok source) :
    source = .inline s := by
  cases h
  rfl

/-- The key of a resource is rendered on its own. -/
theorem render_resource {key : String} {v : Json} {source : Source}
    (h : renderJsonValue sur.engine data (Source.toJson (.resource key)) = .ok v)
    (hsource : Source.ofJson v = .ok source) :
    ∃ key', renderString sur.engine data key = .ok (.string key') ∧ source = .resource key' := by
  simp only [Source.toJson, renderJsonValue] at h
  obtain ⟨fields, hfields, h⟩ := bind_eq_ok.mp h
  cases h
  rw [renderFields] at hfields
  obtain ⟨value, hvalue, hfields⟩ := bind_eq_ok.mp hfields
  rw [renderJsonValue] at hvalue
  cases hfields
  rw [Source.ofJson.eq_def] at hsource
  split at hsource
  · rename_i heq
    cases heq
  · rename_i key' heq
    cases heq
    cases hsource
    exact ⟨key', hvalue, rfl⟩
  · cases hsource

/-- Handlebars on templates whose expressions are paths to strings: the text so
far is copied, or the path so far is collected. -/
def fillPaths (data : Json) : Option (List Char) → List Char → List Char
  | none, '{' :: '{' :: cs => fillPaths data (some []) cs
  | none, c :: cs => c :: fillPaths data none cs
  | none, [] => []
  | some path, '}' :: '}' :: cs =>
      ((((getValueByPath data (String.ofList path)).bind Json.asStr).getD "").toList) ++
        fillPaths data none cs
  | some path, c :: cs => fillPaths data (some (path ++ [c])) cs
  | some _, [] => []

theorem fillPaths_of_no_expr (data : Json) (cs : List Char) (h : countOpen cs = 0) :
    fillPaths data none cs = cs := by
  induction cs with
  | nil => rfl
  | cons c cs ih =>
      rw [fillPaths]
      · rw [ih]
        rw [countOpen] at h
        · exact h
        · rintro cs' rfl rfl
          simp [countOpen] at h
      · rintro cs' rfl rfl
        simp [countOpen] at h

def pathEngine : Engine where
  renderTemplate template data :=
    .ok (String.ofList (fillPaths data none template.toList))
  parseJson _ := none
  copies text data h := by
    have hzero : countOpen text.toList = 0 := by simpa [hasExpr] using h
    rw [fillPaths_of_no_expr data _ hzero, String.ofList_toList]

def sample : Surroundings where
  engine := pathEngine
  load _ := .error "resource path is not configured"
  env := [("SECRET", "hunter2")]
  accepts _ := true

/-- A query for the orders of the customer that the event names. -/
def sampleQuery : Query where
  query := .inline "SELECT '\x7b\x7bevent.data.name\x7d\x7d'"
  others := [("name", .string "orders"), ("project_id", .string "shop")]

/-- An event with a name. -/
def sampleEvent (name : String) : Json :=
  .object [("event", .object [("data", .object [("name", .string name)])])]

end Flowgen.Gcp
