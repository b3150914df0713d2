/-
# `Flowgen.Task.Convert` — JSON to Avro (`core/src/task/convert.rs`)

Before a JSON value is serialised as Avro, `transform_keys` replaces the hyphens in
its keys: those of the value itself, if it is an object.  It does not go into the
values, and an object that already has a field under a new key loses it, as does
one of two fields that get the same new key.

So nothing is lost and no hyphen stays if and only if the values have no hyphens in
their keys and the new keys differ (`lossless_iff`).
-/
import Flowgen.Json
import Flowgen.Lib.Entries

namespace Flowgen.Task.Convert

open Flowgen.Lib

/-! ## The source -/

/-- `key.contains("-")`. -/
def hyphenated (key : String) : Bool := key.toList.contains '-'

/-- `key.replace("-", "_")`. -/
def underscored (key : String) : String :=
  String.ofList (key.toList.map fun c => if c = '-' then '_' else c)

def transformKeys : Json → Json
  | .object map => .object (Entries.rename hyphenated underscored map)
  | value => value

/-- The conversion of a JSON event, with the serialiser and its schema. -/
def toAvro {B : Type} (toDatumVec : Json → Option B) (data : Json) : Option B :=
  toDatumVec (transformKeys data)

/-! ## Values within values -/

inductive Within : Json → Json → Prop
  | refl (value : Json) : Within value value
  | item {value item : Json} {items : List Json} :
      item ∈ items → Within value item → Within value (.array items)
  | field {value : Json} {field : String × Json} {fields : List (String × Json)} :
      field ∈ fields → Within value field.2 → Within value (.object fields)

/-- A map has each of its keys once, at any depth. -/
def WellFormed (value : Json) : Prop :=
  ∀ fields, Within (.object fields) value → Entries.Keyed fields

def NoHyphen (value : Json) : Prop :=
  ∀ fields, Within (.object fields) value → ∀ field ∈ fields, hyphenated field.1 = false

/-- Two keys of one object become equal. -/
def Collides (value : Json) : Prop :=
  ∃ fields, Within (.object fields) value ∧
    ∃ a ∈ fields, ∃ b ∈ fields, a.1 ≠ b.1 ∧ underscored a.1 = underscored b.1

/-- Every value of the first is in the second, under its key with the hyphens
replaced. -/
inductive Kept : Json → Json → Prop
  | null : Kept .null .null
  | bool (b : Bool) : Kept (.bool b) (.bool b)
  | number (n : JsonNumber) : Kept (.number n) (.number n)
  | string (s : String) : Kept (.string s) (.string s)
  | array {items items' : List Json} :
      List.Forall₂ Kept items items' → Kept (.array items) (.array items')
  | object {fields fields' : List (String × Json)} (found : String × Json → Json) :
      (∀ field ∈ fields, fields'.lookup (underscored field.1) = some (found field)) →
      (∀ field ∈ fields, Kept field.2 (found field)) → Kept (.object fields) (.object fields')

/-- The conversion of a value loses nothing. -/
structure Lossless (value : Json) : Prop where
  noHyphen : NoHyphen (transformKeys value)
  kept : Kept value (transformKeys value)
  refused : Collides value → ∀ {B : Type} (toDatumVec : Json → Option B),
    toAvro toDatumVec value = none

/-- What `transform_keys` relies on. -/
def Transformable : Json → Prop
  | .object fields =>
      (∀ field ∈ fields, NoHyphen field.2) ∧ (fields.map fun field => underscored field.1).Nodup
  | value => NoHyphen value

/-! ## Keys -/

theorem underscored_of_not {key : String} (h : hyphenated key = false) : underscored key = key := by
  have hchars : key.toList.map (fun c => if c = '-' then '_' else c) = key.toList.map id := by
    refine List.map_congr_left fun c hc => if_neg ?_
    rintro rfl
    rw [hyphenated, List.contains_iff_mem.mpr hc] at h
    cases h
  rw [underscored, hchars, List.map_id, String.ofList_toList]

theorem not_hyphenated_underscored (key : String) : hyphenated (underscored key) = false := by
  rw [hyphenated, underscored, String.toList_ofList, ← Bool.not_eq_true, List.contains_iff_mem]
  intro hmem
  obtain ⟨c, -, hc⟩ := List.mem_map.mp hmem
  split at hc
  · cases hc
  · rename_i hne
    exact hne hc

/-! ## Values without hyphens -/

variable {value : Json} {fields : List (String × Json)}

theorem Within.trans {inner outer : Json} (hinner : Within inner value)
    (houter : Within value outer) : Within inner outer := by
  induction houter with
  | refl => exact hinner
  | item hmem _ ih => exact .item hmem ih
  | field hmem _ ih => exact .field hmem ih

theorem NoHyphen.within {inner : Json} (h : NoHyphen value) (hinner : Within inner value) :
    NoHyphen inner := fun fields hfields => h fields (hfields.trans hinner)

theorem WellFormed.within {inner : Json} (h : WellFormed value) (hinner : Within inner value) :
    WellFormed inner := fun fields hfields => h fields (hfields.trans hinner)

theorem NoHyphen.not_collides (h : NoHyphen value) : ¬ Collides value := by
  rintro ⟨fields, hfields, a, ha, b, hb, hne, heq⟩
  rw [underscored_of_not (h fields hfields a ha), underscored_of_not (h fields hfields b hb)] at heq
  exact hne heq

theorem noHyphen_object :
    NoHyphen (.object fields) ↔
      ∀ field ∈ fields, hyphenated field.1 = false ∧ NoHyphen field.2 := by
  constructor
  · intro h field hfield
    exact ⟨h fields (.refl _) field hfield, h.within (.field hfield (.refl _))⟩
  · intro h inner hinner
    cases hinner with
    | refl => exact fun field hfield => (h field hfield).1
    | field hmem hinner => exact (h _ hmem).2 inner hinner

/-- A value without hyphens in its keys is kept as it is. -/
theorem kept_refl : ∀ value, NoHyphen value → WellFormed value → Kept value value
  | .null, _, _ => .null
  | .bool b, _, _ => .bool b
  | .number n, _, _ => .number n
  | .string s, _, _ => .string s
  | .array items, hplain, hkeys => by
      refine .array (List.forall₂_same.mpr fun item hitem => ?_)
      have hwithin : Within item (.array items) := .item hitem (.refl _)
      exact kept_refl item (hplain.within hwithin) (hkeys.within hwithin)
  | .object fields, hplain, hkeys => by
      refine .object Prod.snd (fun field hfield => ?_) fun field hfield => ?_
      · rw [underscored_of_not (hplain fields (.refl _) field hfield)]
        exact Entries.Keyed.lookup (hkeys fields (.refl _)) hfield
      · have hwithin : Within field.2 (.object fields) := .field hfield (.refl _)
        exact kept_refl field.2 (hplain.within hwithin) (hkeys.within hwithin)
termination_by value => sizeOf value
decreasing_by
  · have hlt := List.sizeOf_lt_of_mem hitem
    simp only [Json.array.sizeOf_spec]
    omega
  · have hlt := List.sizeOf_lt_of_mem hfield
    have hsnd : sizeOf field.2 < sizeOf field := by
      cases field
      simp only [Prod.mk.sizeOf_spec]
      omega
    simp only [Json.object.sizeOf_spec]
    omega

/-! ## The conversion of an object -/

theorem keyed_renamed : (fields.map fun field => underscored field.1).Nodup ↔
    Entries.Keyed (fields.map (Entries.renamed underscored)) := by
  rw [Entries.Keyed, List.map_map]
  rfl

/-- Two entries that collide, if the new keys are not distinct. -/
theorem collides_of_not_nodup (hkeys : Entries.Keyed fields)
    (h : ¬ (fields.map fun field => underscored field.1).Nodup) : Collides (.object fields) := by
  by_contra hnot
  refine h ((List.nodup_map_iff_inj_on (List.Nodup.of_map _ hkeys)).mpr ?_)
  intro a ha b hb heq
  by_contra hne
  refine hnot ⟨fields, .refl _, a, ha, b, hb, fun hkey => hne ?_, heq⟩
  exact List.inj_on_of_nodup_map hkeys ha hb hkey

theorem lossless_object (hvalue : WellFormed (.object fields))
    (hplain : ∀ field ∈ fields, NoHyphen field.2)
    (hdistinct : (fields.map fun field => underscored field.1).Nodup) :
    Lossless (.object fields) := by
  have hkeys : Entries.Keyed fields := hvalue fields (.refl _)
  refine ⟨?_, ?_, ?_⟩
  · rw [transformKeys, noHyphen_object]
    intro field hfield
    rcases Entries.mem_rename hkeys hfield with ⟨hmem, hkey⟩ | ⟨old, hmem, -, rfl⟩
    · exact ⟨hkey, hplain field hmem⟩
    · exact ⟨not_hyphenated_underscored old.1, hplain old hmem⟩
  · refine .object Prod.snd (fun field hfield => ?_) fun field hfield => ?_
    · exact Entries.lookup_rename (fun _ => underscored_of_not) (keyed_renamed.mp hdistinct) hfield
    · exact kept_refl _ (hplain field hfield) (hvalue.within (.field hfield (.refl _)))
  · rintro ⟨inner, hinner, a, ha, b, hb, hne, heq⟩
    cases hinner with
    | refl => exact absurd (congrArg Prod.fst (List.inj_on_of_nodup_map hdistinct ha hb heq)) hne
    | field hmem hinner =>
        exact absurd ⟨inner, hinner, a, ha, b, hb, hne, heq⟩ (hplain _ hmem).not_collides

/-- The conversion loses nothing if and only if hyphens occur only in the keys of the
value itself and the new keys differ. -/
theorem lossless_iff (hvalue : WellFormed value) : Lossless value ↔ Transformable value := by
  cases value with
  | object fields =>
      have hkeys : Entries.Keyed fields := hvalue fields (.refl _)
      constructor
      · intro h
        have hdistinct : (fields.map fun field => underscored field.1).Nodup := by
          by_contra hnot
          have hrefused := h.refused (collides_of_not_nodup hkeys hnot) some
          cases hrefused
        refine ⟨fun field hfield => ?_, hdistinct⟩
        have hlookup := Entries.lookup_rename (p := hyphenated) (fun _ => underscored_of_not)
          (keyed_renamed.mp hdistinct) hfield
        exact (noHyphen_object.mp h.noHyphen _ (Entries.mem_of_lookup hlookup)).2
      · rintro ⟨hplain, hdistinct⟩
        exact lossless_object hvalue hplain hdistinct
  | _ =>
      constructor
      · intro h
        exact h.noHyphen
      · intro h
        exact ⟨h, kept_refl _ h hvalue, fun hcollides => absurd hcollides h.not_collides⟩

theorem wellFormed_strings (entries : List (String × String)) (h : (entries.map Prod.fst).Nodup) :
    WellFormed (.object (entries.map fun e => (e.1, .string e.2))) := by
  intro fields hfields
  cases hfields with
  | refl =>
      rw [Entries.Keyed, List.map_map]
      exact h
  | field hmem hwithin =>
      obtain ⟨e, -, rfl⟩ := List.mem_map.mp hmem
      cases hwithin

theorem lossless_iff_strings :
    Lossless (.object [("order-id", .string "7"), ("status", .string "new")]) ↔
      Transformable (.object [("order-id", .string "7"), ("status", .string "new")]) :=
  lossless_iff (wellFormed_strings [("order-id", "7"), ("status", "new")] (by decide))

/-- The field that is under the new key already is replaced. -/
theorem field_replaced :
    WellFormed (.object [("user-id", .string "1"), ("user_id", .string "2")]) ∧
      toAvro some (.object [("user-id", .string "1"), ("user_id", .string "2")]) =
        some (.object [("user_id", .string "1")]) ∧
      ¬ Lossless (.object [("user-id", .string "1"), ("user_id", .string "2")]) := by
  refine ⟨wellFormed_strings [("user-id", "1"), ("user_id", "2")] (by decide),
    rfl, fun h => ?_⟩
  have hrefused := h.refused ⟨_, .refl _, ("user-id", .string "1"), by simp,
    ("user_id", .string "2"), by simp, by decide, by decide⟩ some
  cases hrefused

end Flowgen.Task.Convert
