/-
# `Flowgen.Render.ForEvent` — rendering without the data of an event
(`core/src/config.rs`, `core/src/event.rs`)

`render_for_event` converts the event only if the configuration has templates, and
puts `null` for its data unless one of them names `data`, or has `event` without a
field after it.  That misses the ways to the data that name neither: an `each` over
`this` or `@root`, and another over the items (`dump_differs`).

Where the scan finds a use, or no template looks into the event or the root as a
whole, the result is that of rendering against the complete event
(`renderForEvent_faithful`).
-/
import Flowgen.Render.Config
import Flowgen.Render.Handlebars

namespace Flowgen.Render

open Flowgen.Lib Flowgen.Text

/-! ## The scan -/

mutual

/-- `templates`: the strings that contain a template. -/
def templates : Json → List String
  | .string text => if hasExpr text then [text] else []
  | .array items => itemTemplates items
  | .object fields => fieldTemplates fields
  | _ => []

def itemTemplates : List Json → List String
  | [] => []
  | item :: items => templates item ++ itemTemplates items

def fieldTemplates : List (String × Json) → List String
  | [] => []
  | (_, value) :: fields => templates value ++ fieldTemplates fields

end

/-- `template.contains("data")`. -/
def mentionsData (template : String) : Bool := decide ("data".toList <:+: template.toList)

/-- An `event` without a dot after it. -/
def usesWholeEvent (template : String) : Bool :=
  template.toList.tails.any fun rest =>
    "event".toList.isPrefixOf rest && (rest.drop 5).head? != some '.'

/-- `reads_event_data`. -/
def readsEventData (template : String) : Bool := mentionsData template || usesWholeEvent template

/-! ## The event -/

/-- `Event`, as far as templates see it.  `metaMap` is the field `meta`. -/
structure Event (D : Type) where
  data : D
  subject : String
  id : Option String := none
  timestamp : Int64
  taskId : UInt64
  taskType : String
  metaMap : Option (List (String × Json)) := none
  error : Option String := none

/-- `Value::from` of an `i64`. -/
def ofInt64 (n : Int64) : Json :=
  .number (if 0 ≤ n then .posInt n.toUInt64 else .negInt n)

/-- `template_value`.  `toJson` is `Value::try_from` on the data. -/
def templateValue {D : Type} (toJson : D → Except String Json) (event : Event D)
    (withData : Bool) : Except String Json := do
  let eventData ← if withData then toJson event.data else .ok .null
  return .object [("event", .object
    [("subject", .string event.subject),
      ("data", eventData),
      ("id", event.id.elim .null .string),
      ("timestamp", ofInt64 event.timestamp),
      ("task_id", .number (.posInt event.taskId)),
      ("task_type", .string event.taskType),
      ("meta", event.metaMap.elim .null .object),
      ("error", event.error.elim .null .string)])]

/-- `ConfigExt::render_for_event`. -/
def renderForEvent {C D : Type} (engine : Engine) (codec : Codec C) (env : List (String × String))
    (toJson : D → Except String Json) (event : Event D) (config : C) : Except String C := do
  let configValue := codec.toValue config
  let found := templates configValue
  if found.isEmpty then codec.fromValue configValue
  else
    let eventValue ← templateValue toJson event (found.any readsEventData)
    render engine codec env eventValue config

/-! ## Handlebars -/

/-- The library: its parser, the helpers, and the JSON parser for what comes out.  A name of
a path stands in the text of the template as it is. -/
structure Handlebars where
  parse : String → Except String Handlebars.Template
  helpers : Handlebars.Helpers
  parseJson : String → Option Json
  copies : ∀ text, hasExpr text = false → parse text = .ok (.text text .done)
  verbatim : ∀ text ast, parse text = .ok ast →
    ∀ name ∈ ast.names, name.toList <:+: text.toList

def Handlebars.toEngine (hb : Handlebars) : Engine where
  renderTemplate text data := do
    let ast ← hb.parse text
    Handlebars.eval hb.helpers ast (Handlebars.Scope.of data)
  parseJson := hb.parseJson
  copies text data h := by
    rw [hb.copies text h]
    show Except.ok (text ++ "") = _
    rw [String.append_empty]

/-- Rendering for an event is rendering against the complete event. -/
def Faithful {C D : Type} (hb : Handlebars) (codec : Codec C) (env : List (String × String))
    (toJson : D → Except String Json) (event : Event D) (config : C) : Prop :=
  ∀ context, templateValue toJson event true = .ok context →
    renderForEvent hb.toEngine codec env toJson event config =
      render hb.toEngine codec env context config

/-- The scan finds a use of the data, the data is `null` anyway, or no template looks into the
event or the root as a whole. -/
def Covered {D : Type} (hb : Handlebars) (toJson : D → Except String Json) (event : Event D)
    (configValue : Json) : Prop :=
  (∃ t ∈ templates configValue, readsEventData t = true) ∨ toJson event.data = .ok .null ∨
    ∀ t ∈ templates configValue, ∀ ast, hb.parse t = .ok ast →
      ast.blind [{ context := .root }] = true

/-! ## Where a path stands in its template -/

theorem trim_eq (s : String) : ∃ before after,
    s.toList = before ++ (trim s).toList ++ after ∧ ∀ c ∈ after, isWhitespace c = true := by
  refine ⟨s.toList.takeWhile isWhitespace,
    (s.toList.dropWhile isWhitespace).rtakeWhile isWhitespace, ?_, ?_⟩
  · rw [trim, String.toList_ofList, List.append_assoc, List.rdropWhile_append_rtakeWhile,
      List.takeWhile_append_dropWhile]
  · intro c hc
    exact List.mem_rtakeWhile_imp hc

/-- Two characters at the start, two others at the end, and what is between. -/
theorem braces_eq {cs : List Char} (hopen : cs.take 2 = ['{', '{'])
    (hclose : cs.reverse.take 2 = ['}', '}']) :
    cs = '{' :: '{' :: ((cs.drop 2).take (cs.length - 4) ++ ['}', '}']) := by
  obtain ⟨rest, hrest⟩ : ∃ rest, cs = '{' :: '{' :: rest :=
    ⟨cs.drop 2, by rw [← List.take_append_drop 2 cs, hopen]; rfl⟩
  obtain ⟨front, hfront⟩ : ∃ front, cs = front ++ ['}', '}'] := by
    refine ⟨(cs.reverse.drop 2).reverse, ?_⟩
    have h := congrArg List.reverse (List.take_append_drop 2 cs.reverse)
    rw [hclose, List.reverse_append, List.reverse_reverse] at h
    exact h.symm
  cases front with
  | nil => cases hrest.symm.trans hfront
  | cons c front =>
      cases front with
      | nil => cases hrest.symm.trans hfront
      | cons c' mid =>
          cases hrest.symm.trans hfront
          subst hrest
          simp

/-- The path of a template has white space or a brace after it. -/
theorem extractSimplePath_eq_some {template path : String}
    (h : extractSimplePath template = some path) : ∃ before after,
      template.toList = before ++ path.toList ++ after ∧ after.head? ≠ some '.' := by
  rw [extractSimplePath] at h
  obtain ⟨⟨hopen, hclose, -⟩, h⟩ := Option.ite_none_right_eq_some.mp h
  obtain ⟨-, h⟩ := Option.ite_none_left_eq_some.mp h
  obtain ⟨before, after, htemplate, -⟩ := trim_eq template
  obtain ⟨before', after', hinner, hspace⟩ := trim_eq
    (String.ofList (((trim template).toList.drop 2).take ((trim template).toList.length - 4)))
  rw [String.toList_ofList, Option.some.inj h] at hinner
  rw [braces_eq hopen hclose, hinner] at htemplate
  refine ⟨before ++ '{' :: '{' :: before', after' ++ '}' :: '}' :: after, ?_, ?_⟩
  · rw [htemplate]
    simp
  · intro hdot
    cases after' with
    | nil => cases hdot
    | cons c after' =>
        cases hdot
        exact absurd (hspace '.' List.mem_cons_self) (by decide)

/-- `str::split` is the library's. -/
theorem splitAll_eq (sep : Char) (cs : List Char) : splitAll sep cs = cs.splitOn sep := by
  induction cs with
  | nil => rfl
  | cons c cs ih =>
      rw [splitAll, List.splitOn_cons_eq_if_modifyHead, ih]
      by_cases hc : c = sep
      · rw [if_pos hc, if_pos (beq_iff_eq.mpr hc)]
      · rw [if_neg hc, if_neg (beq_iff_eq.not.mpr hc)]
        cases hparts : cs.splitOn sep with
        | nil => exact (List.splitOn_ne_nil sep cs hparts).elim
        | cons part parts => rfl

theorem intercalate_splitAll (sep : Char) (cs : List Char) :
    [sep].intercalate (splitAll sep cs) = cs := by
  rw [splitAll_eq, List.intercalate_splitOn]

theorem mem_splitAll {sep : Char} {cs part : List Char} (h : part ∈ splitAll sep cs) :
    part <:+: cs := by
  have hjoin : part <:+: [sep].intercalate (splitAll sep cs) := Text.infix_intercalate h
  rw [intercalate_splitAll] at hjoin
  exact hjoin

/-- A path of one part is that part. -/
theorem splitAll_singleton {sep : Char} {cs part : List Char} (h : splitAll sep cs = [part]) :
    part = cs := by
  have hjoin := intercalate_splitAll sep cs
  rw [h, List.intercalate_singleton] at hjoin
  exact hjoin

/-! ## A path that the scan lets pass -/

variable {template path : String} {data data' : Json}

theorem getValueByParts_cons (data : Json) (part : String) (parts : List String) :
    getValueByParts data (part :: parts) =
      (data.get? part).bind fun v => getValueByParts v parts := by
  cases data <;> rfl

/-- The contexts of an event with and without its data. -/
abbrev SameButData (data data' : Json) : Prop :=
  Handlebars.SameBut "event" (Handlebars.SameBut "data" fun _ _ => True) data data'

theorem getValueByParts_same {part : String} {parts : List String} (h : SameButData data data')
    (hevent : parts = [] → part ≠ "event") (hdata : "data" ∉ parts) :
    getValueByParts data (part :: parts) = getValueByParts data' (part :: parts) := by
  rw [getValueByParts_cons, getValueByParts_cons]
  by_cases hpart : part = "event"
  · subst hpart
    cases parts with
    | nil => exact (hevent rfl rfl).elim
    | cons name parts =>
        obtain ⟨hv, hv'⟩ | ⟨v, v', hv, hv', hsame⟩ := h.get?_self
        · rw [hv, hv']
        · rw [hv, hv', Option.bind_some, Option.bind_some, getValueByParts_cons,
            getValueByParts_cons, hsame.get?_ne fun hname => hdata (hname ▸ List.mem_cons_self)]
  · rw [h.get?_ne hpart]

theorem readsEventData_eq_false : readsEventData template = false ↔
    ¬ "data".toList <:+: template.toList ∧ usesWholeEvent template = false := by
  rw [readsEventData, Bool.or_eq_false_iff, mentionsData, decide_eq_false_iff_not]

/-- A path that is the whole event is seen. -/
theorem usesWholeEvent_of_path {before after : List Char}
    (htemplate : template.toList = before ++ "event".toList ++ after)
    (hafter : after.head? ≠ some '.') : usesWholeEvent template = true := by
  rw [usesWholeEvent, List.any_eq_true]
  refine ⟨"event".toList ++ after, ?_, ?_⟩
  · rw [List.mem_tails, htemplate, List.append_assoc]
    exact List.suffix_append before _
  · rw [Bool.and_eq_true, bne_iff_ne]
    exact ⟨List.isPrefixOf_iff_prefix.mpr (List.prefix_append _ _), hafter⟩

/-- A path is taken to the same value in both contexts, unless the scan sees it. -/
theorem getValueByPath_same (h : SameButData data data')
    (hpath : extractSimplePath template = some path) (hscan : readsEventData template = false) :
    getValueByPath data path = getValueByPath data' path := by
  obtain ⟨hdata, hevent⟩ := readsEventData_eq_false.mp hscan
  obtain ⟨before, after, htemplate, hafter⟩ := extractSimplePath_eq_some hpath
  have hinfix : path.toList <:+: template.toList := ⟨before, after, htemplate.symm⟩
  rw [getValueByPath, getValueByPath]
  cases hparts : splitAll '.' path.toList with
  | nil => exact (List.splitOn_ne_nil '.' path.toList (splitAll_eq _ _ ▸ hparts)).elim
  | cons part parts =>
      rw [List.map_cons]
      refine getValueByParts_same h (fun hnil hpart => ?_) fun hmem => ?_
      · rw [List.map_eq_nil_iff.mp hnil] at hparts
        have hpath : path.toList = "event".toList := by
          rw [← splitAll_singleton hparts, ← hpart, String.toList_ofList]
        rw [hpath] at htemplate
        exact Bool.false_ne_true (hevent.symm.trans (usesWholeEvent_of_path htemplate hafter))
      · obtain ⟨name, hname, heq⟩ := List.mem_map.mp hmem
        have hnameIn : name ∈ splitAll '.' path.toList := hparts ▸ List.mem_cons_of_mem _ hname
        rw [← heq, String.toList_ofList] at hdata
        exact hdata ((mem_splitAll hnameIn).trans hinfix)

/-! ## Only the templates are rendered -/

section
variable {engine : Engine}

mutual

theorem renderJsonValue_congr : ∀ value : Json,
    (∀ t ∈ templates value, renderString engine data t = renderString engine data' t) →
      renderJsonValue engine data value = renderJsonValue engine data' value
  | .null, _ => rfl
  | .bool _, _ => rfl
  | .number _, _ => rfl
  | .string text, h => by
      rw [renderJsonValue, renderJsonValue]
      by_cases hexpr : hasExpr text = true
      · exact h text (by rw [templates, if_pos hexpr]; exact List.mem_singleton_self text)
      · rw [renderString, renderString, if_neg hexpr, if_neg hexpr]
  | .array items, h => by
      rw [renderJsonValue, renderJsonValue, renderItems_congr items h]
  | .object fields, h => by
      rw [renderJsonValue, renderJsonValue, renderFields_congr fields h]

theorem renderItems_congr : ∀ items : List Json,
    (∀ t ∈ itemTemplates items, renderString engine data t = renderString engine data' t) →
      renderItems engine data items = renderItems engine data' items
  | [], _ => rfl
  | item :: items, h => by
      rw [itemTemplates] at h
      rw [renderItems, renderItems,
        renderJsonValue_congr item fun t ht => h t (List.mem_append_left _ ht),
        renderItems_congr items fun t ht => h t (List.mem_append_right _ ht)]

theorem renderFields_congr : ∀ fields : List (String × Json),
    (∀ t ∈ fieldTemplates fields, renderString engine data t = renderString engine data' t) →
      renderFields engine data fields = renderFields engine data' fields
  | [], _ => rfl
  | (key, value) :: fields, h => by
      rw [fieldTemplates] at h
      rw [renderFields, renderFields,
        renderJsonValue_congr value fun t ht => h t (List.mem_append_left _ ht),
        renderFields_congr fields fun t ht => h t (List.mem_append_right _ ht)]

end

mutual

/-- Nothing is rendered where there is no template. -/
theorem renderJsonValue_nil : ∀ value : Json, templates value = [] →
    renderJsonValue engine data value = .ok value
  | .null, _ => rfl
  | .bool _, _ => rfl
  | .number _, _ => rfl
  | .string text, h => by
      rw [templates] at h
      rw [renderJsonValue, renderString]
      by_cases hexpr : hasExpr text = true
      · rw [if_pos hexpr] at h
        cases h
      · rw [if_neg hexpr]
  | .array items, h => by
      rw [renderJsonValue, renderItems_nil items h]
      rfl
  | .object fields, h => by
      rw [renderJsonValue, renderFields_nil fields h]
      rfl

theorem renderItems_nil : ∀ items : List Json, itemTemplates items = [] →
    renderItems engine data items = .ok items
  | [], _ => rfl
  | item :: items, h => by
      obtain ⟨hitem, hitems⟩ := List.append_eq_nil_iff.mp h
      rw [renderItems, renderJsonValue_nil item hitem, renderItems_nil items hitems]
      rfl

theorem renderFields_nil : ∀ fields : List (String × Json), fieldTemplates fields = [] →
    renderFields engine data fields = .ok fields
  | [], _ => rfl
  | (key, value) :: fields, h => by
      obtain ⟨hvalue, hfields⟩ := List.append_eq_nil_iff.mp h
      rw [renderFields, renderJsonValue_nil value hvalue, renderFields_nil fields hfields]
      rfl

end

end

/-! ## The two renderings -/

variable {C D : Type} {hb : Handlebars} {codec : Codec C} {env : List (String × String)}
  {toJson : D → Except String Json} {event : Event D} {config : C} {context : Json}

theorem templateValue_same {context' : Json} (h : templateValue toJson event true = .ok context)
    (h' : templateValue toJson event false = .ok context') :
    SameButData (withEnv env context') (withEnv env context) := by
  rw [templateValue] at h h'
  obtain ⟨eventData, -, h⟩ := bind_eq_ok.mp h
  obtain ⟨eventData', -, h'⟩ := bind_eq_ok.mp h'
  cases h
  cases h'
  have henv : ∀ value, withEnv env (.object [("event", value)]) = .object
      [("env", .object (env.map fun v => (v.1, .string v.2))), ("event", value)] := fun _ => rfl
  rw [henv, henv]
  refine ⟨_, _, rfl, rfl, .cons ⟨rfl, rfl⟩ (.cons ⟨rfl, ?_⟩ .nil)⟩
  rw [if_pos rfl]
  exact ⟨_, _, rfl, rfl, .cons ⟨rfl, rfl⟩ (.cons ⟨rfl, trivial⟩ (.cons ⟨rfl, rfl⟩
    (.cons ⟨rfl, rfl⟩ (.cons ⟨rfl, rfl⟩ (.cons ⟨rfl, rfl⟩ (.cons ⟨rfl, rfl⟩
      (.cons ⟨rfl, rfl⟩ .nil)))))))⟩

theorem renderString_same (h : SameButData data data') (hscan : readsEventData template = false)
    (hblind : ∀ ast, hb.parse template = .ok ast → ast.blind [{ context := .root }] = true) :
    renderString hb.toEngine data template = renderString hb.toEngine data' template := by
  have hrender : hb.toEngine.renderTemplate template data =
      hb.toEngine.renderTemplate template data' := by
    show hb.parse template >>= _ = hb.parse template >>= _
    refine bind_eq_bind_iff.mpr fun ast hast => ?_
    refine Handlebars.eval_agree (.of (.inr ?_)) (hblind ast hast) fun hname => ?_
    · exact h.mono fun _ _ hevent => .inr hevent
    · exact (readsEventData_eq_false.mp hscan).1 (hb.verbatim template ast hast "data" hname)
  have hdirect : (extractSimplePath template).bind (getValueByPath data) =
      (extractSimplePath template).bind (getValueByPath data') := by
    cases hpath : extractSimplePath template with
    | none => rfl
    | some path => exact getValueByPath_same h hpath hscan
  rw [renderString, renderString, hrender, hdirect]

/-- Without templates the configuration is read back as it was written. -/
theorem render_of_templates_nil (h : templates (codec.toValue config) = []) :
    renderForEvent hb.toEngine codec env toJson event config =
      render hb.toEngine codec env context config := by
  rw [renderForEvent, render, h, renderJsonValue_nil _ h]
  rfl

/-- With templates it is rendered against what the scan leaves of the event. -/
theorem renderForEvent_of_templates {withData : Bool} {context' : Json}
    (h : templates (codec.toValue config) ≠ [])
    (hscan : (templates (codec.toValue config)).any readsEventData = withData)
    (hcontext' : templateValue toJson event withData = .ok context') :
    renderForEvent hb.toEngine codec env toJson event config =
      render hb.toEngine codec env context' config := by
  rw [renderForEvent, if_neg (List.isEmpty_iff.not.mpr h), hscan, hcontext']
  rfl

/-- A configuration is rendered for an event as it is against the complete event, if the scan
finds a use of the data, the data is `null`, or no template looks into the event or the root
as a whole. -/
theorem renderForEvent_faithful (hb : Handlebars) (codec : Codec C) (env : List (String × String))
    (toJson : D → Except String Json) (event : Event D) (config : C)
    (hcovered : Covered hb toJson event (codec.toValue config)) :
    Faithful hb codec env toJson event config := by
  intro context hcontext
  by_cases hnil : templates (codec.toValue config) = []
  · exact render_of_templates_nil hnil
  · cases hscan : (templates (codec.toValue config)).any readsEventData with
    | true => exact renderForEvent_of_templates hnil hscan hcontext
    | false =>
        have hunseen : ∀ t ∈ templates (codec.toValue config), readsEventData t = false :=
          fun t ht => Bool.eq_false_iff.mpr (List.any_eq_false.mp hscan t ht)
        obtain ⟨context', hcontext'⟩ :
            ∃ context', templateValue toJson event false = .ok context' := ⟨_, rfl⟩
        rw [renderForEvent_of_templates hnil hscan hcontext']
        rcases hcovered with ⟨t, ht, hreads⟩ | hnull | hblind
        · exact (Bool.false_ne_true ((hunseen t ht).symm.trans hreads)).elim
        · rw [templateValue, if_pos rfl, hnull] at hcontext
          cases hcontext.symm.trans hcontext'
          rfl
        · rw [render, render, renderJsonValue_congr _ fun t ht =>
            renderString_same (templateValue_same hcontext hcontext') (hunseen t ht) (hblind t ht)]

/-! ## A template that prints the event -/

/-- Every field of everything in the context. -/
def dump : String := "\x7b\x7b#each this\x7d\x7d\x7b\x7b#each this\x7d\x7d\x7b\x7bthis\x7d\x7d" ++
  "\x7b\x7b/each\x7d\x7d\x7b\x7b/each\x7d\x7d"

def dumpAst : Handlebars.Template :=
  .eachBlock (.path {}) none none
    (.eachBlock (.path {}) none none (.output (.path {}) .done) .done .done) .done .done

def subject : String := "orders.\x7b\x7bevent.subject\x7d\x7d"

def subjectAst : Handlebars.Template :=
  .text "orders." (.output (.path { names := ["event", "subject"] }) .done)

/-- Handlebars on these two templates, without helpers. -/
def sample : Handlebars where
  parse text :=
    if text = dump then .ok dumpAst
    else if text = subject then .ok subjectAst
    else if hasExpr text then .error "not parsed here"
    else .ok (.text text .done)
  helpers name _ := .error name
  parseJson _ := none
  copies text h := by
    have hdump : text ≠ dump := by
      rintro rfl
      exact absurd h (by decide)
    have hsubject : text ≠ subject := by
      rintro rfl
      exact absurd h (by decide)
    rw [if_neg hdump, if_neg hsubject, if_neg (Bool.eq_false_iff.mp h)]
  verbatim text ast h name hname := by
    split at h
    · cases h
      cases hname
    · split at h
      · rename_i htext
        cases h
        subst htext
        fin_cases hname
        · decide
        · decide
      · split at h
        · cases h
        · cases h
          cases hname

/-- A configuration that is JSON itself. -/
def jsonCodec : Codec Json where
  toValue := id
  fromValue := .ok

def order : Event Json where
  data := .string "secret"
  subject := "new"
  timestamp := 7
  taskId := 1
  taskType := "script"

theorem renderForEvent_faithful_subject :
    Faithful sample jsonCodec [] .ok order (.string subject) := by
  refine renderForEvent_faithful sample jsonCodec [] .ok order (.string subject) (.inr (.inr ?_))
  intro t ht ast hast
  obtain rfl : t = subject := List.mem_singleton.mp ht
  cases hast
  rfl

/-- The scan finds no use of the data in a template that prints all of the event. -/
theorem dump_differs :
    ¬ ∀ (hb : Handlebars) (codec : Codec Json) (env : List (String × String))
      (toJson : Json → Except String Json) (event : Event Json) (config : Json),
      Faithful hb codec env toJson event config := by
  intro h
  have hfast : renderForEvent sample.toEngine jsonCodec [] .ok order (.string dump) =
      .ok (.string "new71script") := by rfl
  obtain ⟨context, hcontext⟩ : ∃ context, templateValue .ok order true = .ok context := ⟨_, rfl⟩
  have hfull : render sample.toEngine jsonCodec [] context (.string dump) =
      .ok (.string "newsecret71script") := by
    cases hcontext
    rfl
  have heq := h sample jsonCodec [] .ok order (.string dump) context hcontext
  rw [hfast, hfull] at heq
  injection heq with heq
  injection heq with heq
  exact absurd heq (by decide)

end Flowgen.Render
