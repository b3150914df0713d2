/-
# `Flowgen.Render.Config` — rendering a configuration (`core/src/config.rs`)

`ConfigExt::render` turns a configuration into JSON, renders the strings in it,
and reads the result back as a configuration of the same type.  What comes out
of a template is used as JSON where it parses as something else than a string,
whatever the type of the field it is for.  A number, a truth value, a list or
`null` in a field of type `String` can then not be read back, although the text
is a string like any other (`partition_key_retyped`).

So a field keeps the text of its template if and only if that text does not look
like such a value, or the template is a path to this very string
(`render_keeps_iff`).
-/
import Flowgen.Lib.Fallible
import Flowgen.Render.Template

namespace Flowgen.Render

open Flowgen.Lib

/-- `Serialize` and `DeserializeOwned` for configurations of type `C`. -/
structure Codec (C : Type) where
  toValue : C → Json
  fromValue : Json → Except String C

/-- `ConfigExt::render`. -/
def render {C : Type} (engine : Engine) (codec : Codec C) (env : List (String × String))
    (data : Json) (config : C) : Except String C := do
  let configValue ← renderJsonValue engine (withEnv env data) (codec.toValue config)
  codec.fromValue configValue

/-! ## A field of type `String` -/

/-- A type of configurations that has a field of type `String`: its name, and
what can be read into the other fields. -/
structure ConfigType where
  name : String
  accepts : List (String × Json) → Bool

/-- The other fields are kept as JSON. -/
structure Config (T : ConfigType) where
  field : String
  others : List (String × Json)
  distinct : ∀ f ∈ others, f.1 ≠ T.name

def ConfigType.fromFields (T : ConfigType) (fields : List (String × Json)) :
    Except String (Config T) :=
  match fields.lookup T.name with
  | some (.string field) =>
      let others := fields.filter fun f => f.1 ≠ T.name
      if T.accepts others then
        .ok
          { field := field
            others := others
            distinct := fun _ hf => of_decide_eq_true (List.mem_filter.mp hf).2 }
      else .error "invalid type"
  | some _ => .error "invalid type, expected a string"
  | none => .error "missing field"

def ConfigType.codec (T : ConfigType) : Codec (Config T) where
  toValue config := .object ((T.name, .string config.field) :: config.others)
  fromValue
    | .object fields => T.fromFields fields
    | _ => .error "invalid type, expected a struct"

/-- The template is a path to the string `text`, or it is not a path to anything
and `text` is not JSON, or a JSON string. -/
def StaysText (engine : Engine) (data : Json) (template text : String) : Prop :=
  match (extractSimplePath template).bind (getValueByPath data) with
  | some directValue => directValue = .string text
  | none => ∀ v, engine.parseJson text = some v → ∃ s, v = .string s

/-- The rest of the configuration can be rendered and read back. -/
def OthersRender (engine : Engine) (data : Json) {T : ConfigType} (config : Config T) : Prop :=
  ∃ others, renderFields engine data config.others = .ok others ∧ T.accepts others = true

variable {engine : Engine} {data v : Json} {template text : String}

/-- What a rendered text is used as. -/
def retyped (engine : Engine) (text : String) : Json :=
  match engine.parseJson text with
  | some (.string _) | none => .string text
  | some parsed => parsed

theorem retyped_eq_iff : retyped engine text = .string text ↔
    ∀ v, engine.parseJson text = some v → ∃ s, v = .string s := by
  rw [retyped]
  split
  · rename_i s hparse
    refine iff_of_true rfl fun v hv => ?_
    cases hparse.symm.trans hv
    exact ⟨s, rfl⟩
  · rename_i hparse
    refine iff_of_true rfl fun v hv => ?_
    cases hparse.symm.trans hv
  · rename_i parsed hstring hparse
    constructor
    · rintro rfl
      exact (hstring _ rfl).elim
    · intro h
      obtain ⟨s, rfl⟩ := h parsed hparse
      exact (hstring s rfl).elim

/-- What a template that renders to `text` is replaced by. -/
theorem renderString_eq (hexpr : hasExpr template = true)
    (htext : engine.renderTemplate template data = .ok text) :
    renderString engine data template = .ok
      (((extractSimplePath template).bind (getValueByPath data)).getD (retyped engine text)) := by
  rw [renderString, if_pos hexpr]
  cases (extractSimplePath template).bind (getValueByPath data) with
  | some directValue => rfl
  | none =>
      dsimp only
      rw [htext, Option.getD_none, retyped]
      show (match engine.parseJson text with
        | some (.string _) | none => (Except.ok (Json.string text) : Except String Json)
        | some parsed => .ok parsed) = _
      split
      · rfl
      · rfl
      · rfl

theorem getD_eq_iff : ((extractSimplePath template).bind (getValueByPath data)).getD
    (retyped engine text) = .string text ↔ StaysText engine data template text := by
  rw [StaysText]
  cases (extractSimplePath template).bind (getValueByPath data) with
  | some directValue => exact Iff.rfl
  | none => exact retyped_eq_iff

/-- Rendering keeps the names of the fields. -/
theorem renderFields_keys {fields fields' : List (String × Json)}
    (h : renderFields engine data fields = .ok fields') :
    fields'.map Prod.fst = fields.map Prod.fst := by
  induction fields generalizing fields' with
  | nil =>
      rw [renderFields] at h
      cases h
      rfl
  | cons field fields ih =>
      rw [renderFields] at h
      obtain ⟨v, -, h⟩ := bind_eq_ok.mp h
      obtain ⟨rest, hrest, h⟩ := bind_eq_ok.mp h
      cases h
      rw [List.map_cons, List.map_cons, ih hrest]

variable {T : ConfigType} {config config' : Config T} {env : List (String × String)}

/-- A field that is read back was a string. -/
theorem fromFields_eq {others : List (String × Json)} (hothers : ∀ f ∈ others, f.1 ≠ T.name) :
    (∃ config', T.fromFields ((T.name, v) :: others) = .ok config' ∧ config'.field = text) ↔
      v = .string text ∧ T.accepts others = true := by
  have hlookup : ((T.name, v) :: others).lookup T.name = some v := List.lookup_cons_self
  have hfilter : ((T.name, v) :: others).filter (fun f => f.1 ≠ T.name) = others := by
    rw [List.filter_cons_of_neg (by simp)]
    exact List.filter_eq_self.mpr fun f hf => decide_eq_true (hothers f hf)
  constructor
  · rintro ⟨config', hconfig, rfl⟩
    rw [ConfigType.fromFields, hlookup] at hconfig
    cases v with
    | string s =>
        dsimp only at hconfig
        split at hconfig
        · rename_i haccepts
          cases hconfig
          exact ⟨rfl, hfilter ▸ haccepts⟩
        · cases hconfig
    | _ => cases hconfig
  · rintro ⟨rfl, haccepts⟩
    rw [ConfigType.fromFields, hlookup]
    dsimp only
    rw [if_pos (hfilter.symm ▸ haccepts)]
    exact ⟨_, rfl, rfl⟩

/-- A configuration is rendered to one with the text of its template in the field if
and only if this text stays one, and nothing else in it goes wrong. -/
theorem render_keeps_iff (engine : Engine) (env : List (String × String)) (data : Json)
    (T : ConfigType) (config : Config T) (text : String) (hexpr : hasExpr config.field = true)
    (htext : engine.renderTemplate config.field (withEnv env data) = .ok text) :
    (∃ config', render engine T.codec env data config = .ok config' ∧ config'.field = text) ↔
      StaysText engine (withEnv env data) config.field text ∧
        OthersRender engine (withEnv env data) config := by
  rw [render, ConfigType.codec, renderJsonValue, renderFields, renderJsonValue,
    renderString_eq hexpr htext, ← getD_eq_iff, OthersRender]
  generalize ((extractSimplePath config.field).bind (getValueByPath (withEnv env data))).getD
    (retyped engine text) = v
  cases hothers : renderFields engine (withEnv env data) config.others with
  | error e =>
      constructor
      · rintro ⟨config', hconfig, -⟩
        cases hconfig
      · rintro ⟨-, others, hok, -⟩
        cases hok
  | ok others =>
      have hdistinct : ∀ f ∈ others, f.1 ≠ T.name := by
        intro f hf
        have hkey : f.1 ∈ config.others.map Prod.fst :=
          renderFields_keys hothers ▸ List.mem_map_of_mem hf
        obtain ⟨f', hf', hfst⟩ := List.mem_map.mp hkey
        exact hfst ▸ config.distinct f' hf'
      refine (fromFields_eq hdistinct).trans (and_congr_right fun _ => ?_)
      constructor
      · intro haccepts
        exact ⟨others, rfl, haccepts⟩
      · rintro ⟨others', heq, haccepts⟩
        cases heq
        exact haccepts

/-! ## A partition key -/

/-- A `buffer`, of which the key is configured. -/
def buffer : ConfigType where
  name := "partition_key"
  accepts _ := true

/-- Orders of a program in a country go into one batch. -/
def programKey : Config buffer where
  field := "\x7b\x7bevent.data.program_id\x7d\x7d.\x7b\x7bevent.data.country\x7d\x7d"
  others := []
  distinct _ h := by cases h

/-- Handlebars on the template of this key, and JSON on what may come of it. -/
def keyEngine : Engine where
  renderTemplate template data :=
    if template = programKey.field then
      match getValueByPath data "event.data.program_id",
        getValueByPath data "event.data.country" with
      | some (.string program), some (.string country) => .ok (program ++ "." ++ country)
      | _, _ => .error "not a string"
    else .ok template
  parseJson text := if text = "7.44" then some (.number (.float text)) else none
  copies text data h := by
    have hne : text ≠ programKey.field := by
      rintro rfl
      exact absurd h (by decide)
    rw [if_neg hne]

def sale (program country : String) : Json :=
  .object [("event", .object
    [("data", .object [("program_id", .string program), ("country", .string country)])])]

theorem render_keeps_iff_country :
    (∃ config', render keyEngine buffer.codec [] (sale "7" "AT") programKey = .ok config' ∧
        config'.field = "7.AT") ↔
      StaysText keyEngine (withEnv [] (sale "7" "AT")) programKey.field "7.AT" ∧
        OthersRender keyEngine (withEnv [] (sale "7" "AT")) programKey :=
  render_keeps_iff keyEngine [] (sale "7" "AT") buffer programKey "7.AT" (by decide) (by rfl)

/-- A country code of digits makes the key a number, which no text is read from. -/
theorem partition_key_retyped :
    ¬ ∀ (engine : Engine) (env : List (String × String)) (data : Json) (T : ConfigType)
      (config : Config T) (text : String), hasExpr config.field = true →
      engine.renderTemplate config.field (withEnv env data) = .ok text →
        OthersRender engine (withEnv env data) config →
        ∃ config', render engine T.codec env data config = .ok config' ∧ config'.field = text := by
  intro h
  obtain ⟨config', hrender, -⟩ :=
    h keyEngine [] (sale "7" "44") buffer programKey "7.44" (by decide) (by rfl) ⟨[], rfl, rfl⟩
  have hfails : render keyEngine buffer.codec [] (sale "7" "44") programKey =
      .error "invalid type, expected a string" := by rfl
  cases hfails.symm.trans hrender

end Flowgen.Render
