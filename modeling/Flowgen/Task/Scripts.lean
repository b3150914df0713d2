/-
# `Flowgen.Task.Scripts` — scripts that make many events of one (`core/src/task/script.rs`)

Translated from `handle` and `generate_script_event`, with what the runner does
to a failed event (`core/src/task/runner.rs`).  The script itself is a function
from the event to its result and the metadata it leaves.

A script that returns an array makes an event of each item.  An item that gives
no id of its own gets that of the event, a dash and its place in the array, for
a stream that drops messages with an id it knows would otherwise keep only one
of them.  Scripts follow on scripts, so ids grow, and what one array makes of an
id another may have made, or a source may have given:

    the ids are distinct, whatever the scripts
      ↔ no source has an id that another source's can become

if no script gives ids of its own.
-/
import Flowgen.Lib.Branches
import Flowgen.Lib.Fallible
import Flowgen.Render.ForEvent

namespace Flowgen.Task.Scripts

open Flowgen.Lib Branches
open Flowgen.Render (templateValue)

/-! ## Events -/

mutual

/-- `Value::eq`. -/
def eqv : Json → Json → Bool
  | .null, .null => true
  | .bool b, .bool b' => b == b'
  | .number n, .number n' => n == n'
  | .string s, .string s' => s == s'
  | .array items, .array items' => eqvItems items items'
  | .object fields, .object fields' => eqvFields fields fields'
  | _, _ => false

def eqvItems : List Json → List Json → Bool
  | [], [] => true
  | item :: items, item' :: items' => eqv item item' && eqvItems items items'
  | _, _ => false

def eqvFields : List (String × Json) → List (String × Json) → Bool
  | [], [] => true
  | (key, value) :: fields, (key', value') :: fields' =>
      key == key' && eqv value value' && eqvFields fields fields'
  | _, _ => false

end

/-- `EventData`: JSON, or one of the binary formats. -/
inductive EventData (B : Type)
  | json (value : Json)
  | binary (data : B)

/-- What the events of a flow rest on: how binary data is read, the clock and the next id of a
chain of events. -/
structure Env (B : Type) where
  decode : B → Except String Json
  now : Int64
  correlationId : String

/-- `Value::try_from` of the data of an event. -/
def Env.toJson {B : Type} (env : Env B) : EventData B → Except String Json
  | .json value => .ok value
  | .binary data => env.decode data

abbrev Meta := List (String × Json)

/-- The metadata a builder starts with: that of the event at hand, with a correlation id. -/
def Env.builderMeta {B : Type} (env : Env B) (metaMap : Option Meta) : Meta :=
  let known := metaMap.getD []
  if (known.lookup "correlation_id").isSome then known
  else known ++ [("correlation_id", .string env.correlationId)]

/-- `EventBuilder::meta_merge`: the new fields over those that are there. -/
def metaMerge (known extra : Meta) : Meta :=
  known.filter (fun field => (extra.lookup field.1).isNone) ++ extra

/-- A task `script`. -/
structure Script (B : Type) where
  taskId : UInt64
  taskType : String
  handlesFailed : Bool
  /-- The result as JSON, and `ctx.meta`. -/
  eval : Render.Event (EventData B) → Except String (Json × Option Json)

variable {B : Type}

/-- `generate_script_event`. -/
def generateScriptEvent (env : Env B) (script : Script B) (result : Json)
    (original : Render.Event (EventData B)) (ctxMeta : Option Json) :
    Except String (Render.Event (EventData B)) := do
  let originalJson ← env.toJson original.data
  let (subject, data, id) :=
    match result with
    | .object fields =>
        let subject := ((fields.lookup "subject").bind Json.asStr).getD original.subject
        let dataJson := (fields.lookup "data").getD result
        let data :=
          if eqv dataJson originalJson then original.data
          else if (fields.lookup "data").isSome then .json dataJson
          else .json result
        (subject, data, ((fields.lookup "id").bind Json.asStr).or original.id)
    | value =>
        (original.subject, if eqv value originalJson then original.data else .json value,
          original.id)
  let metaMap :=
    match ctxMeta with
    | some (.object m) => some m
    | some .null => none
    | _ => original.metaMap
  .ok
    { data := data
      subject := subject
      id := id
      timestamp := env.now
      taskId := script.taskId
      taskType := script.taskType
      metaMap := some (metaMap.getD (env.builderMeta original.metaMap))
      error := none }

/-- The id that an item of an array gives, if it is an object with one. -/
def explicitId (value : Json) : Option String := (value.get? "id").bind Json.asStr

/-- The id of an item that gives none. -/
def branch (id : String) (idx : Nat) : String := id ++ "-" ++ toString idx

/-- The event of an item of an array. -/
def itemEvent (env : Env B) (script : Script B) (original : Render.Event (EventData B))
    (ctxMeta : Option Json) (item : Json × Nat) : Except String (Render.Event (EventData B)) := do
  let event ← generateScriptEvent env script item.1 original ctxMeta
  if (explicitId item.1).isSome then .ok event
  else
    match original.id with
    | some id => .ok { event with id := some (branch id item.2) }
    | none => .ok event

/-- `handle`: the events that are sent on. -/
def handle (env : Env B) (script : Script B) (original : Render.Event (EventData B)) :
    Except String (List (Render.Event (EventData B))) := do
  let _ ← templateValue env.toJson original true
  let (result, ctxMeta) ← script.eval original
  match result with
  | .null => .ok []
  | .array items => items.zipIdx.mapM (itemEvent env script original ctxMeta)
  | value => do
      let event ← generateScriptEvent env script value original ctxMeta
      .ok [event]

/-- What comes of an event at a task: a failed one passes on, and so does one that fails here. -/
def turn (env : Env B) (script : Script B) (event : Render.Event (EventData B)) :
    List (Render.Event (EventData B)) :=
  if event.error.isSome && !script.handlesFailed then [event]
  else
    match handle env script event with
    | .ok events => events
    | .error message => [{ event with error := some message }]

/-- Scripts that follow on each other. -/
def pipeline (env : Env B) : List (Script B) → List (Render.Event (EventData B)) →
    List (Render.Event (EventData B))
  | [], events => events
  | script :: scripts, events => pipeline env scripts (events.flatMap (turn env script))

def ids (events : List (Render.Event (EventData B))) : List String := events.filterMap (·.id)

/-! ## Ids -/

variable {env : Env B} {script : Script B} {original event : Render.Event (EventData B)}
  {result value : Json} {ctxMeta : Option Json} {events : List (Render.Event (EventData B))}
  {scripts : List (Script B)} {id : String} {idx : Nat}

def name (event : Render.Event (EventData B)) : Option (List Char) := event.id.map String.toList

/-- What a result is made into events of. -/
def items : Json → List Json
  | .array values => values
  | value => [value]

/-- The script gives no ids of its own. -/
def NoExplicitIds (script : Script B) : Prop :=
  ∀ event result ctxMeta, script.eval event = .ok (result, ctxMeta) →
    ∀ item ∈ items result, explicitId item = none

theorem toList_branch : (branch id idx).toList = id.toList ++ tail [idx] := by
  rw [branch, String.toList_append, String.toList_append, List.append_assoc]
  show _ ++ ('-' :: digits idx) = _ ++ ('-' :: digits idx ++ [])
  rw [List.append_nil]

/-- The id of an event that is made of a result. -/
theorem id_generate (h : generateScriptEvent env script result original ctxMeta = .ok event) :
    event.id = (explicitId result).or original.id := by
  obtain ⟨originalJson, -, h⟩ := bind_eq_ok.mp h
  cases result with
  | object fields =>
      cases h
      rfl
  | null =>
      cases h
      rfl
  | bool b =>
      cases h
      rfl
  | number n =>
      cases h
      rfl
  | string s =>
      cases h
      rfl
  | array values =>
      cases h
      rfl

/-- An item that gives no id has its place in the id of its event. -/
theorem id_itemEvent {item : Json × Nat} (hnone : explicitId item.1 = none)
    (h : itemEvent env script original ctxMeta item = .ok event) :
    event.id = original.id.map fun id => branch id item.2 := by
  obtain ⟨generated, hgenerated, h⟩ := bind_eq_ok.mp h
  have hid := id_generate hgenerated
  rw [hnone, Option.none_or] at hid
  rw [hnone, if_neg (by simp)] at h
  cases horiginal : original.id with
  | none =>
      rw [horiginal] at h hid
      cases h
      exact hid
  | some id =>
      rw [horiginal] at h
      cases h
      rfl

/-- The events of an array have the id of its event, each with another branch. -/
theorem apart_items {values : List Json} (hnone : ∀ value ∈ values, explicitId value = none)
    (h : values.zipIdx.mapM (itemEvent env script original ctxMeta) = .ok events) :
    (∀ event ∈ events, ∃ idx, event.id = original.id.map fun id => branch id idx) ∧
      events.Pairwise (ApartBy name) := by
  have hforall := mapM_eq_ok_iff.mp h
  have hid : ∀ i item event, values.zipIdx[i]? = some item → events[i]? = some event →
      event.id = original.id.map fun id => branch id i := by
    intro i item event hitem hevent
    have hitemEvent : itemEvent env script original ctxMeta item = .ok event := by
      obtain ⟨hlt, rfl⟩ := List.getElem?_eq_some_iff.mp hitem
      obtain ⟨hlt', rfl⟩ := List.getElem?_eq_some_iff.mp hevent
      exact List.Forall₂.get hforall hlt hlt'
    obtain ⟨value, idx⟩ := item
    have hzip : values[i]? = some value ∧ idx = i := by
      rw [List.getElem?_zipIdx, Option.map_eq_some_iff] at hitem
      obtain ⟨value', hvalue, heq⟩ := hitem
      cases heq
      exact ⟨hvalue, Nat.zero_add i⟩
    rw [id_itemEvent (hnone value (List.mem_of_getElem? hzip.1)) hitemEvent, hzip.2]
  have hlen := hforall.length_eq
  have hget : ∀ i event, events[i]? = some event →
      event.id = original.id.map fun id => branch id i := by
    intro i event hevent
    obtain ⟨hlt, -⟩ := List.getElem?_eq_some_iff.mp hevent
    exact hid i _ event (List.getElem?_eq_getElem (hlen ▸ hlt)) hevent
  constructor
  · intro event hevent
    obtain ⟨i, hi⟩ := List.getElem?_of_mem hevent
    exact ⟨i, hget i event hi⟩
  · rw [List.pairwise_iff_getElem]
    intro i j hi hj hij x y hx hy
    have hxi := hget i _ (List.getElem?_eq_getElem hi)
    have hyj := hget j _ (List.getElem?_eq_getElem hj)
    rw [name, hxi] at hx
    rw [name, hyj] at hy
    cases horiginal : original.id with
    | none =>
        rw [horiginal] at hx
        cases hx
    | some id =>
        rw [horiginal] at hx hy
        cases hx
        cases hy
        rw [toList_branch, toList_branch]
        exact apart_of_ne (Nat.ne_of_lt hij)

/-- What comes of an event at a task carries on its id. -/
theorem branching_turn (hscript : NoExplicitIds script) (original : Render.Event (EventData B)) :
    Branching name (turn env script) original := by
  have hsame : ∀ event : Render.Event (EventData B), event.id = original.id →
      (∀ b ∈ [event], ∀ y, name b = some y → ∃ x is, name original = some x ∧ y = x ++ tail is) ∧
        [event].Pairwise (ApartBy name) := by
    intro event hid
    refine ⟨?_, List.pairwise_singleton _ _⟩
    intro b hb y hy
    rw [List.mem_singleton.mp hb, name, hid] at hy
    exact ⟨y, [], hy, (List.append_nil y).symm⟩
  suffices hall : (∀ b ∈ turn env script original, ∀ y, name b = some y →
      ∃ x is, name original = some x ∧ y = x ++ tail is) ∧
        (turn env script original).Pairwise (ApartBy name) from ⟨hall.1, hall.2⟩
  rw [turn]
  split
  · exact hsame original rfl
  · cases hhandle : handle env script original with
    | error message => exact hsame { original with error := some message } rfl
    | ok events =>
        obtain ⟨-, -, h⟩ := bind_eq_ok.mp hhandle
        obtain ⟨⟨result, ctxMeta⟩, heval, h⟩ := bind_eq_ok.mp h
        have hnone := hscript original result ctxMeta heval
        have hone : ∀ value, (∀ item ∈ items result, explicitId item = none) →
            items result = [value] → ∀ event,
              generateScriptEvent env script value original ctxMeta = .ok event →
                event.id = original.id := by
          intro value hnone hitems event hevent
          rw [id_generate hevent, hnone value (by rw [hitems]; exact List.mem_singleton_self _),
            Option.none_or]
        cases result with
        | null =>
            cases h
            exact ⟨fun b hb => absurd hb List.not_mem_nil, .nil⟩
        | array values =>
            obtain ⟨hids, hapart⟩ := apart_items hnone h
            refine ⟨?_, hapart⟩
            intro b hb y hy
            obtain ⟨idx, hidx⟩ := hids b hb
            rw [name, hidx] at hy
            cases hid : original.id with
            | none =>
                rw [hid] at hy
                cases hy
            | some id =>
                rw [hid] at hy
                cases hy
                exact ⟨id.toList, [idx], by rw [name, hid]; rfl, toList_branch⟩
        | bool b =>
            obtain ⟨event, hevent, h⟩ := bind_eq_ok.mp h
            cases h
            exact hsame event (hone _ hnone rfl event hevent)
        | number n =>
            obtain ⟨event, hevent, h⟩ := bind_eq_ok.mp h
            cases h
            exact hsame event (hone _ hnone rfl event hevent)
        | string s =>
            obtain ⟨event, hevent, h⟩ := bind_eq_ok.mp h
            cases h
            exact hsame event (hone _ hnone rfl event hevent)
        | object fields =>
            obtain ⟨event, hevent, h⟩ := bind_eq_ok.mp h
            cases h
            exact hsame event (hone _ hnone rfl event hevent)

/-- Ids that are apart stay apart through any scripts. -/
theorem apart_pipeline (hscripts : ∀ script ∈ scripts, NoExplicitIds script)
    (h : events.Pairwise (ApartBy name)) : (pipeline env scripts events).Pairwise (ApartBy name) := by
  induction scripts generalizing events with
  | nil => exact h
  | cons script scripts ih =>
      obtain ⟨hscript, hscripts⟩ := List.forall_mem_cons.mp hscripts
      exact ih hscripts (apart_flatMap h fun event _ => branching_turn hscript event)

theorem nodup_ids (h : events.Pairwise (ApartBy name)) : (ids events).Nodup := by
  have hnodup := nodup_of_apart h
  have hmap : events.filterMap name = (ids events).map String.toList := by
    rw [ids, List.map_filterMap]
    rfl
  rw [hmap] at hnodup
  exact hnodup.of_map

/-! ## Scripts that split one id -/

/-- A script that makes `n + 1` events of the one with an id, and leaves the others alone. -/
def splitter (id : String) (n : Nat) : Script B where
  taskId := 0
  taskType := "script"
  handlesFailed := false
  eval event :=
    if event.id = some id then .ok (.array (List.replicate (n + 1) .null), none)
    else .ok (.bool true, none)

/-- Scripts that split an id along its branches. -/
def splitters (id : String) : List Nat → List (Script B)
  | [] => []
  | i :: is => splitter id i :: splitters (branch id i) is

theorem splitter_noExplicitIds {n : Nat} : NoExplicitIds (splitter id n : Script B) := by
  intro event result ctxMeta heval item hitem
  change (if event.id = some id then _ else _) = _ at heval
  split at heval
  · cases heval
    rw [List.eq_of_mem_replicate hitem]
    rfl
  · cases heval
    rw [List.mem_singleton.mp hitem]
    rfl

theorem splitters_noExplicitIds {is : List Nat} :
    ∀ script ∈ (splitters id is : List (Script B)), NoExplicitIds script := by
  induction is generalizing id with
  | nil => exact fun _ hmem => absurd hmem List.not_mem_nil
  | cons i is ih => exact List.forall_mem_cons.mpr ⟨splitter_noExplicitIds, ih⟩

/-- An event that has not failed, and whose data can be read. -/
def Readable (env : Env B) (event : Render.Event (EventData B)) : Prop :=
  event.error = none ∧ ∃ value, env.toJson event.data = .ok value

theorem templateValue_of_readable (h : Readable env event) :
    ∃ value, templateValue env.toJson event true = .ok value := by
  obtain ⟨-, value, hvalue⟩ := h
  rw [templateValue, if_pos rfl, hvalue]
  exact ⟨_, rfl⟩

/-- A plain result of a script makes an event with the id of the one before. -/
theorem generate_plain (h : Readable env original) (hplain : value = .null ∨ ∃ b, value = .bool b) :
    ∃ event, generateScriptEvent env script value original none = .ok event ∧
      event.id = original.id ∧ Readable env event := by
  obtain ⟨-, originalJson, hjson⟩ := h
  have hdata : ∀ value, ∃ json, env.toJson
      (if eqv value originalJson then original.data else .json value) = .ok json := by
    intro value
    split
    · exact ⟨originalJson, hjson⟩
    · exact ⟨value, rfl⟩
  unfold generateScriptEvent
  rw [hjson]
  rcases hplain with rfl | ⟨b, rfl⟩
  · exact ⟨_, rfl, rfl, rfl, hdata .null⟩
  · exact ⟨_, rfl, rfl, rfl, hdata (.bool b)⟩

theorem mem_turn_of_handle (h : Readable env original)
    (hhandle : handle env script original = .ok events) :
    turn env script original = events := by
  rw [turn, h.1, if_neg (by simp), hhandle]

/-- The splitter makes the branch it is for. -/
theorem mem_turn_splitter {n : Nat} (h : Readable env original) (hid : original.id = some id) :
    ∃ event ∈ turn env (splitter id n) original, event.id = some (branch id n) ∧
      Readable env event := by
  obtain ⟨value, hvalue⟩ := templateValue_of_readable h
  have hitem : ∀ idx, ∃ event,
      itemEvent env (splitter id n) original none (.null, idx) = .ok event ∧
        event.id = some (branch id idx) ∧ Readable env event := by
    intro idx
    obtain ⟨event, hevent, -, hreadable⟩ :
        ∃ event, generateScriptEvent env (splitter id n) .null original none = .ok event ∧
          event.id = original.id ∧ Readable env event := generate_plain h (.inl rfl)
    refine ⟨{ event with id := some (branch id idx) }, ?_, rfl, hreadable⟩
    rw [itemEvent, hevent, hid]
    rfl
  choose made hmade hmadeId hmadeReadable using hitem
  have hall : (List.replicate (n + 1) Json.null).zipIdx.mapM
      (itemEvent env (splitter id n) original none) =
        .ok ((List.replicate (n + 1) Json.null).zipIdx.map fun item => made item.2) := by
    refine mapM_eq_ok_iff.mpr (List.forall₂_map_right_iff.mpr (List.forall₂_same.mpr ?_))
    rintro ⟨value, idx⟩ hitem
    have hnull : value = .null :=
      List.eq_of_mem_replicate (List.fst_mem_of_mem_zipIdx hitem)
    rw [hnull]
    exact hmade idx
  have hhandle : handle env (splitter id n) original =
      .ok ((List.replicate (n + 1) Json.null).zipIdx.map fun item => made item.2) := by
    have heval : (splitter id n).eval original =
        .ok (.array (List.replicate (n + 1) .null), none) := if_pos hid
    rw [handle, hvalue, heval]
    exact hall
  rw [mem_turn_of_handle h hhandle]
  refine ⟨made n, ?_, hmadeId n, hmadeReadable n⟩
  refine List.mem_map.mpr ⟨(.null, n), ?_, rfl⟩
  rw [List.mem_zipIdx_iff_getElem?]
  exact List.getElem?_replicate_of_lt (Nat.lt_succ_self n)

/-- The splitter leaves another id as it is. -/
theorem mem_turn_splitter_of_ne {n : Nat} {other : String} (h : Readable env original)
    (hid : original.id = some other) (hne : other ≠ id) :
    ∃ event ∈ turn env (splitter id n) original, event.id = some other ∧ Readable env event := by
  obtain ⟨value, hvalue⟩ := templateValue_of_readable h
  obtain ⟨event, hevent, heventId, hreadable⟩ :
      ∃ event, generateScriptEvent env (splitter id n) (.bool true) original none = .ok event ∧
        event.id = original.id ∧ Readable env event := generate_plain h (.inr ⟨true, rfl⟩)
  have hhandle : handle env (splitter id n) original = .ok [event] := by
    have heval : (splitter id n).eval original = .ok (.bool true, none) :=
      if_neg fun heq => hne (Option.some.inj (hid.symm.trans heq))
    rw [handle, hvalue, heval]
    show (generateScriptEvent env (splitter id n) (.bool true) original none).bind _ = _
    rw [hevent]
    rfl
  rw [mem_turn_of_handle h hhandle]
  exact ⟨event, List.mem_singleton_self _, heventId.trans hid, hreadable⟩

theorem pipeline_append {events' : List (Render.Event (EventData B))} :
    pipeline env scripts (events ++ events') =
      pipeline env scripts events ++ pipeline env scripts events' := by
  induction scripts generalizing events events' with
  | nil => rfl
  | cons script scripts ih => rw [pipeline, List.flatMap_append, ih, pipeline, pipeline]

theorem pipeline_sublist {events' : List (Render.Event (EventData B))} (h : events.Sublist events') :
    (pipeline env scripts events).Sublist (pipeline env scripts events') := by
  induction scripts generalizing events events' with
  | nil => exact h
  | cons script scripts ih => exact ih (h.flatMap _)

/-- What comes of an event in a list comes of the list. -/
theorem mem_pipeline_of_mem (h : event ∈ events) {last : Render.Event (EventData B)}
    (hlast : last ∈ pipeline env scripts [event]) : last ∈ pipeline env scripts events :=
  (pipeline_sublist (List.singleton_sublist.mpr h)).subset hlast

/-- The splitters take the id to its branches. -/
theorem mem_pipeline_splitters {is : List Nat} (h : Readable env original)
    (hid : original.id = some id) :
    ∃ event ∈ pipeline env (splitters id is) [original], ∃ id', event.id = some id' ∧
      id'.toList = id.toList ++ tail is := by
  induction is generalizing id original with
  | nil => exact ⟨original, List.mem_singleton_self _, id, hid, (List.append_nil _).symm⟩
  | cons i is ih =>
      obtain ⟨next, hnext, hnextId, hreadable⟩ := mem_turn_splitter (n := i) h hid
      obtain ⟨event, hevent, id', hid', hname⟩ := ih hreadable hnextId
      refine ⟨event, ?_, id', hid', ?_⟩
      · rw [splitters, pipeline, List.flatMap_cons, List.flatMap_nil, List.append_nil]
        exact mem_pipeline_of_mem hnext hevent
      · rw [hname, toList_branch, List.append_assoc, ← tail_append]
        rfl

/-- They leave alone what already has the name of those branches. -/
theorem mem_pipeline_splitters_of_tail {is : List Nat} {other : String}
    (h : Readable env original) (hid : original.id = some other)
    (hname : other.toList = id.toList ++ tail is) :
    ∃ event ∈ pipeline env (splitters id is) [original], event.id = some other := by
  induction is generalizing id original with
  | nil => exact ⟨original, List.mem_singleton_self _, hid⟩
  | cons i is ih =>
      have hne : other ≠ id := by
        rintro rfl
        have hnil : tail (i :: is) = [] := List.append_cancel_left (hname.symm.trans
          (List.append_nil _).symm)
        rw [tail_cons] at hnil
        cases hnil
      obtain ⟨next, hnext, hnextId, hreadable⟩ := mem_turn_splitter_of_ne (n := i) h hid hne
      have hrest : other.toList = (branch id i).toList ++ tail is := by
        rw [hname, toList_branch, List.append_assoc, ← tail_append]
        rfl
      obtain ⟨event, hevent, hevent'⟩ := ih hreadable hnextId hrest
      refine ⟨event, ?_, hevent'⟩
      rw [splitters, pipeline, List.flatMap_cons, List.flatMap_nil, List.append_nil]
      exact mem_pipeline_of_mem hnext hevent

/-- If one source has an id that another's can become, some scripts give both the same. -/
theorem exists_duplicate {a b : Render.Event (EventData B)} {idA idB : String} {is : List Nat}
    (ha : Readable env a) (hb : Readable env b) (hidA : a.id = some idA) (hidB : b.id = some idB)
    (hname : idB.toList = idA.toList ++ tail is) :
    idB ∈ ids (pipeline env (splitters idA is) [a]) ∧
      idB ∈ ids (pipeline env (splitters idA is) [b]) := by
  obtain ⟨event, hevent, id', hid', hname'⟩ :
      ∃ event ∈ pipeline env (splitters idA is) [a], ∃ id', event.id = some id' ∧
        id'.toList = idA.toList ++ tail is := mem_pipeline_splitters ha hidA
  obtain ⟨event', hevent', hid''⟩ := mem_pipeline_splitters_of_tail hb hidB hname
  have hsame : id' = idB := String.toList_injective (hname'.trans hname.symm)
  rw [hsame] at hid'
  exact ⟨List.mem_filterMap.mpr ⟨event, hevent, hid'⟩,
    List.mem_filterMap.mpr ⟨event', hevent', hid''⟩⟩

/-! ## Ids through scripts -/

/-- An event of a source, with an id and nothing to speak of. -/
def sourceEvent (id : String) : Render.Event (EventData B) where
  data := .json .null
  subject := "orders"
  id := some id
  timestamp := 0
  taskId := 0
  taskType := "kafka_subscribe"

def plainEnv : Env Empty where
  decode data := data.elim
  now := 0
  correlationId := "c1"

theorem sourceEvent_readable (id : String) : Readable env (sourceEvent id) := ⟨rfl, .null, rfl⟩

/-- A script that gives one item of an array the id that another gets by its place. -/
example :
    (handle plainEnv
      { taskId := 0
        taskType := "script"
        handlesFailed := false
        eval := fun _ => .ok (.array [.object [("id", .string "e-1")], .null], none) }
      (sourceEvent "e")).map ids = .ok ["e-1", "e-1"] := by
  rfl

end Flowgen.Task.Scripts
