/-
# `Flowgen.Mcp.UriTemplate` — what a URI template matches (`mcp/src/server.rs`)

A template is text with placeholders in it.  It should match the URIs that come from
it when every placeholder is replaced by a value, which is not empty and has no `/`
in it, and then bind these values.

`match_uri_template` looks for the first occurrence of the text that follows a
placeholder, and takes what comes before it.  Between two placeholders that is the
right one as long as this text has a `/`, as no value has one.  Otherwise the value
may begin with it, and nothing is left for the placeholder.  The text after the last
placeholder is not looked at.  So a template is matched correctly if and only if it
has no placeholder, or ends with one and has a `/` between any two
(`correct_iff`).
-/
import Flowgen.Mcp.Server

namespace Flowgen.Mcp

open Flowgen.Text

/-- A placeholder, with the text that follows it. -/
structure Hole where
  name : List Char
  literal : List Char

structure UriTemplate where
  head : List Char
  holes : List Hole
  head_literal : '{' ∉ head
  literals : ∀ hole ∈ holes, '{' ∉ hole.literal
  names : ∀ hole ∈ holes, hole.name ≠ [] ∧ '}' ∉ hole.name
  distinct : (holes.map Hole.name).Nodup

/-- The text from the first placeholder on. -/
def tail : List Hole → List Char
  | [] => []
  | hole :: holes => '{' :: (hole.name ++ '}' :: (hole.literal ++ tail holes))

def UriTemplate.text (template : UriTemplate) : String :=
  String.ofList (template.head ++ tail template.holes)

/-- A value for a placeholder. -/
def Allowed (value : List Char) : Prop := value ≠ [] ∧ '/' ∉ value

/-- The text from the first placeholder on, with values in place. -/
def fill : List Hole → List (List Char) → List Char
  | hole :: holes, value :: values => value ++ (hole.literal ++ fill holes values)
  | _, _ => []

/-- The values can be put in place of the placeholders. -/
structure Fits (holes : List Hole) (values : List (List Char)) (u : List Char) : Prop where
  length : values.length = holes.length
  allowed : ∀ value ∈ values, Allowed value
  fill_eq : fill holes values = u

/-- What the placeholders are bound to. -/
def pairs (holes : List Hole) (values : List (List Char)) : List (String × String) :=
  (holes.zip values).map fun (hole, value) => (String.ofList hole.name, String.ofList value)

/-- The template is matched if and only if there are values that give the URI, and
bound to such values. -/
structure Correct (template : UriTemplate) (uri : String) : Prop where
  matched : (matchUriTemplate template.text uri).isSome = true ↔
    ∃ values u, uri.toList = template.head ++ u ∧ Fits template.holes values u
  bound : ∀ bindings, matchUriTemplate template.text uri = some bindings →
    ∃ values u, uri.toList = template.head ++ u ∧ Fits template.holes values u ∧
      bindings.Perm (pairs template.holes values)

/-- The last placeholder is at the end, and there is a `/` between any two. -/
def Separated : List Hole → Prop
  | [] => True
  | [hole] => hole.literal = []
  | hole :: holes => '/' ∈ hole.literal ∧ Separated holes

/-! ## The search for a text -/

variable {c sep : Char} {literal value rest u : List Char} {hole : Hole} {holes : List Hole}
  {values : List (List Char)} {bindings bindings' : List (String × String)}

theorem splitOnce_eq_none (h : sep ∉ value) : splitOnce sep value = none := by
  induction value with
  | nil => rfl
  | cons c cs ih =>
      obtain ⟨hc, hcs⟩ := not_or.mp (List.mem_cons.not.mp h)
      rw [splitOnce, if_neg (Ne.symm hc), ih hcs]
      rfl

theorem stripPrefix_append (literal rest : List Char) :
    stripPrefix literal (literal ++ rest) = some rest :=
  stripPrefix_eq_some.mpr rfl

/-- What is found is there. -/
theorem splitAtText_eq (h : splitAtText literal u = some (value, rest)) :
    u = value ++ (literal ++ rest) := by
  induction u generalizing value with
  | nil =>
      obtain ⟨rfl, heq⟩ := Option.ite_none_right_eq_some.mp h
      cases heq
      rfl
  | cons c cs ih =>
      rw [splitAtText] at h
      split at h
      · rename_i rest' hstrip
        cases h
        rw [List.nil_append]
        exact stripPrefix_eq_some.mp hstrip
      · obtain ⟨⟨before, after⟩, hsplit, heq⟩ := Option.map_eq_some_iff.mp h
        cases heq
        rw [ih hsplit, List.cons_append]

/-- Where the text begins with it, nothing comes before it. -/
theorem splitAtText_self : splitAtText literal (literal ++ rest) = some ([], rest) := by
  cases h : literal ++ rest with
  | nil =>
      obtain ⟨rfl, rfl⟩ := List.append_eq_nil_iff.mp h
      rfl
  | cons c cs => rw [splitAtText, ← h, stripPrefix_append]

/-- A text with a `/` in it does not begin before its place, after a value. -/
theorem splitAtText_value (hvalue : '/' ∉ value) (hliteral : '/' ∈ literal) :
    splitAtText literal (value ++ (literal ++ rest)) = some (value, rest) := by
  induction value with
  | nil => exact splitAtText_self
  | cons c cs ih =>
      have hcs : '/' ∉ cs := fun hmem => hvalue (List.mem_cons_of_mem c hmem)
      have hnone : stripPrefix literal (c :: cs ++ (literal ++ rest)) = none := by
        by_contra hsome
        obtain ⟨rest', hrest'⟩ := Option.ne_none_iff_exists'.mp hsome
        obtain ⟨before, after, rfl, hbefore⟩ := List.eq_append_cons_of_mem hliteral
        -- the first `/` would be at two places
        have hleft : c :: cs ++ ((before ++ '/' :: after) ++ rest) =
            (c :: cs ++ before) ++ '/' :: (after ++ rest) := by simp
        have hright : (before ++ '/' :: after) ++ rest' = before ++ '/' :: (after ++ rest') := by
          simp
        have hsame := stripPrefix_eq_some.mp hrest'
        rw [hleft, hright] at hsame
        have hfirst := congrArg (splitOnce '/') hsame
        rw [splitOnce_append (List.mem_append.not.mpr (not_or.mpr ⟨hvalue, hbefore⟩)),
          splitOnce_append hbefore] at hfirst
        have hlength := congrArg (fun p => p.1.length) (Option.some.inj hfirst)
        simp only [List.length_append, List.length_cons] at hlength
        omega
      rw [List.cons_append, splitAtText]
      rw [List.cons_append] at hnone
      rw [hnone, ih hcs]
      rfl

/-! ## The loop, placeholder by placeholder -/

/-- `match_uri_template` on a template whose parts are known. -/
def matchHoles : List Hole → List Char → List (String × String) → Option (List (String × String))
  | [], u, bindings => if u = [] then some bindings else none
  | hole :: holes, u, bindings =>
      (if holes = [] then some (u, []) else splitAtText hole.literal u).bind fun (value, u) =>
        if value.contains '/' || value.isEmpty then none
        else matchHoles holes u (bind (String.ofList hole.name) (String.ofList value) bindings)

/-- A template whose placeholders can be told from its text. -/
structure Plain (holes : List Hole) : Prop where
  literals : ∀ hole ∈ holes, '{' ∉ hole.literal
  names : ∀ hole ∈ holes, hole.name ≠ [] ∧ '}' ∉ hole.name

theorem Plain.tail (h : Plain (hole :: holes)) : Plain holes :=
  ⟨fun _ hmem => h.literals _ (List.mem_cons_of_mem _ hmem),
    fun _ hmem => h.names _ (List.mem_cons_of_mem _ hmem)⟩

/-- The loop takes one placeholder after the other. -/
theorem matchFrom_tail {fuel : Nat} (h : Plain holes) (hfuel : holes.length < fuel) :
    matchFrom fuel (tail holes) u bindings = matchHoles holes u bindings := by
  induction holes generalizing fuel u bindings with
  | nil =>
      obtain ⟨fuel, rfl⟩ := Nat.exists_eq_succ_of_ne_zero (Nat.ne_of_gt hfuel)
      rfl
  | cons hole holes ih =>
      obtain ⟨fuel, rfl⟩ := Nat.exists_eq_succ_of_ne_zero (Nat.ne_of_gt (Nat.zero_lt_of_lt hfuel))
      have hrest : holes.length < fuel := Nat.lt_of_succ_lt_succ hfuel
      obtain ⟨hname, hclose⟩ := h.names hole List.mem_cons_self
      have hliteral := h.literals hole List.mem_cons_self
      have hopen : splitOnce '{' (tail (hole :: holes)) =
          some ([], hole.name ++ '}' :: (hole.literal ++ tail holes)) := by
        rw [tail, splitOnce, if_pos rfl]
      have hshut : splitOnce '}' (hole.name ++ '}' :: (hole.literal ++ tail holes)) =
          some (hole.name, hole.literal ++ tail holes) := splitOnce_append hclose
      have hne : tail (hole :: holes) ≠ [] := List.cons_ne_nil _ _
      rw [matchFrom, if_neg hne, matchHoles]
      simp only [hopen, hshut, stripPrefix, Option.bind_eq_bind, Option.bind_some, if_neg hname]
      cases holes with
      | nil =>
          have hlast : splitOnce '{' (hole.literal ++ tail []) = none := by
            rw [tail, List.append_nil]
            exact splitOnce_eq_none hliteral
          have hdone : ∀ bindings, matchFrom fuel [] [] bindings = matchHoles [] [] bindings :=
            fun _ => ih h.tail hrest
          rw [hlast, if_pos rfl, Option.bind_some]
          dsimp only
          rw [hdone]
      | cons hole' holes' =>
          have hnext : splitOnce '{' (hole.literal ++ tail (hole' :: holes')) = some (hole.literal,
              hole'.name ++ '}' :: (hole'.literal ++ tail holes')) := splitOnce_append hliteral
          rw [hnext, if_neg (List.cons_ne_nil _ _)]
          dsimp only
          rw [Option.bind_map]
          refine Option.bind_congr fun split _ => ?_
          show (if _ then none else matchFrom fuel (tail (hole' :: holes')) _ _) = _
          rw [ih h.tail hrest]

theorem UriTemplate.plain (template : UriTemplate) : Plain template.holes :=
  ⟨template.literals, template.names⟩

theorem length_le_tail (holes : List Hole) : holes.length ≤ (tail holes).length := by
  induction holes with
  | nil => exact le_rfl
  | cons hole holes ih =>
      rw [tail]
      simp only [List.length_cons, List.length_append]
      omega

/-- The text before the first placeholder comes first. -/
theorem matchFrom_head {fuel : Nat} {head : List Char} (h : '{' ∉ head) :
    matchFrom (fuel + 1) (head ++ '{' :: rest) u bindings =
      (stripPrefix head u).bind fun u => matchFrom (fuel + 1) ('{' :: rest) u bindings := by
  have hne : head ++ '{' :: rest ≠ [] := List.append_ne_nil_of_right_ne_nil _ (List.cons_ne_nil _ _)
  have hopen : splitOnce '{' ('{' :: rest) = some ([], rest) := by
    rw [splitOnce, if_pos rfl]
  simp only [matchFrom, if_neg hne, if_neg (List.cons_ne_nil '{' rest), splitOnce_append h, hopen,
    stripPrefix, Option.bind_eq_bind, Option.bind_some]

/-- A text without placeholders is compared. -/
theorem bind_stripPrefix_eq : ((stripPrefix literal u).bind fun rest =>
    if rest = [] then some bindings else none) = if literal = u then some bindings else none := by
  cases hstrip : stripPrefix literal u with
  | none =>
      have hne : literal ≠ u := by
        rintro rfl
        have hsome := stripPrefix_append literal []
        rw [List.append_nil, hstrip] at hsome
        cases hsome
      rw [if_neg hne]
      rfl
  | some rest =>
      rw [stripPrefix_eq_some.mp hstrip, Option.bind_some]
      exact if_congr (by simp) rfl rfl

theorem matchUriTemplate_eq (template : UriTemplate) (uri : String) :
    matchUriTemplate template.text uri =
      (stripPrefix template.head uri.toList).bind fun u => matchHoles template.holes u [] := by
  have hfuel : template.holes.length < (template.head ++ tail template.holes).length + 1 := by
    have hle := length_le_tail template.holes
    rw [List.length_append]
    omega
  have hplain := template.plain
  rw [matchUriTemplate, UriTemplate.text, String.toList_ofList]
  cases hholes : template.holes with
  | nil =>
      rw [tail, List.append_nil, matchFrom, splitOnce_eq_none template.head_literal]
      dsimp only [matchHoles]
      rw [bind_stripPrefix_eq]
      split
      · rename_i hnil
        rw [hnil]
        exact if_congr eq_comm rfl rfl
      · rfl
  | cons hole holes =>
      rw [hholes] at hfuel hplain
      rw [show tail (hole :: holes) = '{' :: (hole.name ++ '}' :: (hole.literal ++ tail holes)) from
        rfl, matchFrom_head template.head_literal]
      refine Option.bind_congr fun u _ => ?_
      exact matchFrom_tail hplain hfuel

/-! ## The values -/

theorem allowed_iff : (value.contains '/' || value.isEmpty) = false ↔ Allowed value := by
  rw [Bool.or_eq_false_iff, Allowed, and_comm]
  refine and_congr ?_ ?_
  · rw [← Bool.not_eq_true, List.isEmpty_iff]
  · rw [← Bool.not_eq_true, List.contains_iff_mem]

theorem Fits.cons (h : Fits holes values rest) (hole : Hole) (hvalue : Allowed value) :
    Fits (hole :: holes) (value :: values) (value ++ (hole.literal ++ rest)) where
  length := by rw [List.length_cons, List.length_cons, h.length]
  allowed := List.forall_mem_cons.mpr ⟨hvalue, h.allowed⟩
  fill_eq := by rw [fill, h.fill_eq]

/-- The first value, and the others. -/
theorem Fits.uncons (h : Fits (hole :: holes) values u) : ∃ value values' rest,
    values = value :: values' ∧ Allowed value ∧ u = value ++ (hole.literal ++ rest) ∧
      Fits holes values' rest := by
  cases values with
  | nil => cases h.length
  | cons value values =>
      obtain ⟨hvalue, hvalues⟩ := List.forall_mem_cons.mp h.allowed
      exact ⟨value, values, fill holes values, rfl, hvalue, h.fill_eq.symm,
        ⟨Nat.succ.inj h.length, hvalues, rfl⟩⟩

theorem fits_nil (h : Fits [] values u) : values = [] ∧ u = [] := by
  obtain rfl := List.length_eq_zero_iff.mp h.length
  exact ⟨rfl, h.fill_eq.symm⟩

/-- Some values fit anywhere. -/
theorem exists_fits (holes : List Hole) : ∃ values u, Fits holes values u := by
  induction holes with
  | nil => exact ⟨[], [], rfl, fun _ h => (by cases h), rfl⟩
  | cons hole holes ih =>
      obtain ⟨values, u, h⟩ := ih
      have hsample : Allowed ['a'] := ⟨List.cons_ne_nil _ _, by decide⟩
      exact ⟨_, _, h.cons hole hsample⟩

/-- What the placeholders are bound to, one after the other. -/
def bound (bindings : List (String × String)) : List Hole → List (List Char) →
    List (String × String)
  | hole :: holes, value :: values =>
      bound (bind (String.ofList hole.name) (String.ofList value) bindings) holes values
  | _, _ => bindings

/-- Names that differ are all bound. -/
theorem bound_perm (values : List (List Char)) (hnodup : (holes.map Hole.name).Nodup)
    (hnew : ∀ hole ∈ holes, ∀ binding ∈ bindings, binding.1 ≠ String.ofList hole.name) :
    (bound bindings holes values).Perm (pairs holes values ++ bindings) := by
  induction holes generalizing bindings values with
  | nil => exact .refl _
  | cons hole holes ih =>
      cases values with
      | nil => exact .refl _
      | cons value values =>
          obtain ⟨hname, hnodup⟩ := List.nodup_cons.mp hnodup
          have hkeep : bindings.filter (fun binding => binding.1 != String.ofList hole.name) =
              bindings := by
            refine List.filter_eq_self.mpr fun binding hmem => ?_
            exact bne_iff_ne.mpr (hnew hole List.mem_cons_self binding hmem)
          rw [bound, bind, hkeep]
          refine (ih values hnodup ?_).trans List.perm_middle
          intro hole' hmem binding hbinding
          rcases List.mem_cons.mp hbinding with rfl | hbinding
          · intro heq
            have hsame : hole.name = hole'.name := String.ofList_injective heq
            exact hname (hsame ▸ List.mem_map_of_mem hmem)
          · exact hnew hole' (List.mem_cons_of_mem _ hmem) binding hbinding

/-! ## Templates that are matched correctly -/

/-- What fits is found. -/
theorem matchHoles_of_fits (h : Separated holes) (hfits : Fits holes values u) :
    matchHoles holes u bindings = some (bound bindings holes values) := by
  induction holes generalizing values u bindings with
  | nil =>
      obtain ⟨rfl, rfl⟩ := fits_nil hfits
      rfl
  | cons hole holes ih =>
      obtain ⟨value, values, rest, rfl, hvalue, rfl, hrest⟩ := hfits.uncons
      have hallowed := allowed_iff.mpr hvalue
      cases holes with
      | nil =>
          obtain ⟨rfl, rfl⟩ := fits_nil hrest
          have hempty : hole.literal = [] := h
          rw [matchHoles, if_pos rfl, hempty, List.append_nil, List.append_nil, Option.bind_some]
          dsimp only
          rw [hallowed]
          rfl
      | cons hole' holes =>
          rw [matchHoles, if_neg (List.cons_ne_nil _ _), splitAtText_value hvalue.2 h.1,
            Option.bind_some]
          dsimp only
          rw [hallowed, if_neg Bool.false_ne_true, ih h.2 hrest, bound]

/-- What is found fits. -/
theorem fits_of_matchHoles (h : Separated holes)
    (hmatch : matchHoles holes u bindings = some bindings') : ∃ values, Fits holes values u := by
  induction holes generalizing u bindings with
  | nil =>
      obtain ⟨rfl, -⟩ := Option.ite_none_right_eq_some.mp hmatch
      exact ⟨[], rfl, fun _ h => (by cases h), rfl⟩
  | cons hole holes ih =>
      obtain ⟨⟨value, rest⟩, hsplit, hloop⟩ := Option.bind_eq_some_iff.mp hmatch
      obtain ⟨hallowed, hloop⟩ := Option.ite_none_left_eq_some.mp hloop
      have hvalue := allowed_iff.mp (Bool.eq_false_of_not_eq_true hallowed)
      cases holes with
      | nil =>
          rw [if_pos rfl] at hsplit
          cases hsplit
          have hempty : hole.literal = [] := h
          have hnil : Fits [] [] [] := ⟨rfl, fun _ h => (by cases h), rfl⟩
          have hfits := hnil.cons hole hvalue
          rw [hempty, List.append_nil, List.append_nil] at hfits
          exact ⟨_, hfits⟩
      | cons hole' holes =>
          rw [if_neg (List.cons_ne_nil _ _)] at hsplit
          obtain ⟨values, hvalues⟩ := ih h.2 hloop
          exact ⟨_, splitAtText_eq hsplit ▸ hvalues.cons hole hvalue⟩

/-! ## Templates that are not -/

/-- Where a text with a `/` follows a placeholder, its value is known. -/
theorem exists_fits_cons_iff (hvalue : Allowed value) (hliteral : '/' ∈ hole.literal) :
    (∃ values, Fits (hole :: holes) values (value ++ (hole.literal ++ rest))) ↔
      ∃ values, Fits holes values rest := by
  constructor
  · rintro ⟨values, h⟩
    obtain ⟨value', values', rest', rfl, hvalue', heq, hfits⟩ := h.uncons
    have hsplit := congrArg (splitAtText hole.literal) heq
    rw [splitAtText_value hvalue.2 hliteral, splitAtText_value hvalue'.2 hliteral] at hsplit
    cases hsplit
    exact ⟨values', hfits⟩
  · rintro ⟨values, h⟩
    exact ⟨_, h.cons hole hvalue⟩

/-- A placeholder whose value begins with the text that follows it gets nothing. -/
theorem matchHoles_of_literal (hholes : holes ≠ []) (hole : Hole) (rest : List Char)
    (bindings : List (String × String)) :
    matchHoles (hole :: holes) (hole.literal ++ rest) bindings = none := by
  rw [matchHoles, if_neg hholes, splitAtText_self, Option.bind_some]
  rfl

/-- For every other template there is a URI that is matched where it should not be, or
not where it should. -/
theorem exists_wrong (h : ¬ Separated holes) : ∃ u, ∀ bindings,
    ((matchHoles holes u bindings).isSome = true ↔ ¬ ∃ values, Fits holes values u) := by
  induction holes with
  | nil => exact (h trivial).elim
  | cons hole holes ih =>
      have hsample : Allowed ['a'] := ⟨List.cons_ne_nil _ _, by decide⟩
      cases holes with
      | nil =>
          -- the text after the last placeholder is missing, and not missed
          have hliteral : hole.literal ≠ [] := h
          refine ⟨['a'], fun bindings => iff_of_true rfl ?_⟩
          rintro ⟨values, hfits⟩
          obtain ⟨value, values, rest, rfl, hvalue, heq, -⟩ := hfits.uncons
          have hlength := congrArg List.length heq
          have hvalue := List.length_pos_iff.mpr hvalue.1
          have hliteral := List.length_pos_iff.mpr hliteral
          simp only [List.length_append, List.length_singleton] at hlength
          omega
      | cons hole' holes =>
          have hne : hole' :: holes ≠ [] := List.cons_ne_nil _ _
          by_cases hslash : '/' ∈ hole.literal
          · obtain ⟨u, hu⟩ := ih fun hsep => h ⟨hslash, hsep⟩
            refine ⟨['a'] ++ (hole.literal ++ u), fun bindings => ?_⟩
            rw [exists_fits_cons_iff hsample hslash, matchHoles, if_neg hne,
              splitAtText_value hsample.2 hslash, Option.bind_some]
            exact hu _
          · -- the value is the text that follows, or there is no such text
            obtain ⟨values, rest, hrest⟩ := exists_fits (hole' :: holes)
            by_cases hempty : hole.literal = []
            · have hfits := hrest.cons hole hsample
              rw [hempty, List.nil_append] at hfits
              refine ⟨['a'] ++ rest, fun bindings => ?_⟩
              have hnone := matchHoles_of_literal hne hole (['a'] ++ rest) bindings
              rw [hempty, List.nil_append] at hnone
              rw [hnone]
              exact iff_of_false Bool.false_ne_true (not_not.mpr ⟨_, hfits⟩)
            · have hfits := hrest.cons hole ⟨hempty, hslash⟩
              refine ⟨hole.literal ++ (hole.literal ++ rest), fun bindings => ?_⟩
              rw [matchHoles_of_literal hne]
              exact iff_of_false Bool.false_ne_true (not_not.mpr ⟨_, hfits⟩)

theorem isSome_matchUriTemplate {template : UriTemplate} {uri : String}
    (h : uri.toList = template.head ++ u) :
    matchUriTemplate template.text uri = matchHoles template.holes u [] := by
  rw [matchUriTemplate_eq, h, stripPrefix_append, Option.bind_some]

/-- A template is matched correctly, whatever the URI, if and only if it has no
placeholder, or ends with one and has a `/` between any two. -/
theorem correct_iff (template : UriTemplate) :
    (∀ uri, Correct template uri) ↔ Separated template.holes := by
  constructor
  · intro hcorrect
    by_contra hsep
    obtain ⟨u, hu⟩ := exists_wrong hsep
    have huri : (String.ofList (template.head ++ u)).toList = template.head ++ u :=
      String.toList_ofList
    have hmatched := (hcorrect (String.ofList (template.head ++ u))).matched
    rw [isSome_matchUriTemplate huri, hu []] at hmatched
    have hfits : (∃ values u', (String.ofList (template.head ++ u)).toList = template.head ++ u' ∧
        Fits template.holes values u') ↔ ∃ values, Fits template.holes values u := by
      constructor
      · rintro ⟨values, u', heq, h⟩
        rw [huri] at heq
        exact ⟨values, List.append_cancel_left heq ▸ h⟩
      · rintro ⟨values, h⟩
        exact ⟨values, u, huri, h⟩
    exact iff_not_self (hmatched.trans hfits).symm
  · intro hsep uri
    refine ⟨⟨fun hmatch => ?_, ?_⟩, fun bindings hmatch => ?_⟩
    · obtain ⟨bindings, hbindings⟩ := Option.isSome_iff_exists.mp hmatch
      rw [matchUriTemplate_eq] at hbindings
      obtain ⟨u, hhead, hholes⟩ := Option.bind_eq_some_iff.mp hbindings
      obtain ⟨values, h⟩ := fits_of_matchHoles hsep hholes
      exact ⟨values, u, stripPrefix_eq_some.mp hhead, h⟩
    · rintro ⟨values, u, hhead, h⟩
      rw [isSome_matchUriTemplate hhead, matchHoles_of_fits hsep h]
      rfl
    · rw [matchUriTemplate_eq] at hmatch
      obtain ⟨u, hhead, hholes⟩ := Option.bind_eq_some_iff.mp hmatch
      obtain ⟨values, h⟩ := fits_of_matchHoles hsep hholes
      rw [matchHoles_of_fits hsep h] at hholes
      cases hholes
      refine ⟨values, u, stripPrefix_eq_some.mp hhead, h, ?_⟩
      have hnew : ∀ hole ∈ template.holes, ∀ binding ∈ ([] : List (String × String)),
          binding.1 ≠ String.ofList hole.name := fun _ _ _ hmem => by cases hmem
      have hperm := bound_perm values template.distinct hnew
      rwa [List.append_nil] at hperm

/-- `a/{id}.json`. -/
def jsonTemplate : UriTemplate where
  head := ['a', '/']
  holes := [⟨['i', 'd'], ['.', 'j', 's', 'o', 'n']⟩]
  head_literal := by decide
  literals := by decide
  names := by decide
  distinct := by decide

/-- The URI `a/x` matches, without the end of the template. -/
theorem suffix_ignored : ¬ Correct jsonTemplate "a/x" := by
  intro h
  obtain ⟨values, u, hhead, hfits⟩ := h.matched.mp (by decide)
  obtain ⟨value, values, rest, rfl, -, rfl, -⟩ := hfits.uncons
  have hlength := congrArg List.length hhead
  simp only [jsonTemplate, List.length_append, List.length_cons, List.length_nil] at hlength
  have hthree : "a/x".toList.length = 3 := by decide
  omega

end Flowgen.Mcp
