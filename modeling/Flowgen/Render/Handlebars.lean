/-
# `Flowgen.Render.Handlebars` — what a template reads

The template language, as far as it is documented: paths from the current context,
a parent or the root; helpers in subexpressions; the blocks `if`, `unless`, `with`
and `each`, with block parameters.  A name of a path may be written in brackets, and
`this` and `.` add no name to it.  Whatever else a template has (partials and
decorators) is a step that may do anything with its scope.

The context of an event is an object with the event in it, and the event an object
with the data in it.  `Agree` relates two contexts that differ in the data only.  A
template that does not name the data, and does not look into the event or the root
as a whole (`Template.blind`), is rendered to the same text in both
(`eval_agree`).
-/
import Flowgen.Json

namespace Flowgen.Render.Handlebars

/-! ## The language -/

/-- Where a path starts, and the names after that. -/
structure Path where
  root : Bool := false
  ups : Nat := 0
  names : List String := []

inductive Expr
  | literal (value : Json)
  | path (path : Path)
  /-- `@index`, `@key`, `@first`, `@last`. -/
  | data (ups : Nat) (name : String)
  | call (helper : String) (params : List Expr)

/-- What a block adds to the scope. -/
structure Frame where
  context : Json
  /-- The key or the index in an iteration. -/
  key : Json := .null
  locals : List (String × Json) := []
  /-- The block parameters: a name for the context, and one for the key. -/
  itemName : Option String := none
  keyName : Option String := none

structure Scope where
  root : Json
  /-- Innermost first. -/
  frames : List Frame

inductive Template
  | done
  | text (text : String) (rest : Template)
  | output (expr : Expr) (rest : Template)
  | cond (negated : Bool) (expr : Expr) (body inverse rest : Template)
  | withBlock (expr : Expr) (itemName : Option String) (body inverse rest : Template)
  | eachBlock (expr : Expr) (itemName keyName : Option String) (body inverse rest : Template)
  | other (run : Scope → Except String String) (rest : Template)

/-! ## Values -/

/-- One name of a path.  What is not there is `null`. -/
def field (v : Json) (name : String) : Json :=
  match v with
  | .object fields => (fields.lookup name).getD .null
  | .array items => (name.toNat?.bind fun i => items[i]?).getD .null
  | _ => .null

/-- What `each` iterates over, with the keys of an object. -/
def entries : Json → List (Option String × Json)
  | .object fields => fields.map fun f => (some f.1, f.2)
  | .array items => items.map fun item => (none, item)
  | _ => []

def numberText : JsonNumber → String
  | .posInt n => toString n.toNat
  | .negInt n => toString n.toInt
  | .float text => text

mutual

/-- The text of a value. -/
def display : Json → String
  | .null => ""
  | .bool b => if b then "true" else "false"
  | .number n => numberText n
  | .string s => s
  | .array items => "[" ++ ", ".intercalate (displayItems items) ++ "]"
  | .object _ => "[object]"

def displayItems : List Json → List String
  | [] => []
  | item :: items => display item :: displayItems items

end

def truthy : Json → Bool
  | .null => false
  | .bool b => b
  | .number (.posInt n) => n != 0
  | .number (.negInt _) => true
  | .number (.float text) => text != "0.0" && text != "-0.0"
  | .string s => s != ""
  | .array items => !items.isEmpty
  | .object fields => !fields.isEmpty

/-! ## Rendering -/

def Frame.param (f : Frame) (name : String) : Option Json :=
  if f.itemName = some name then some f.context
  else if f.keyName = some name then some f.key
  else none

def Scope.context (s : Scope) (ups : Nat) : Json := (s.frames[ups]?).elim .null Frame.context

/-- A block parameter hides the field of the context with its name. -/
def Scope.first (s : Scope) (ups : Nat) (name : String) : Json :=
  ((if ups = 0 then s.frames.findSome? fun f => f.param name else none)).getD
    (field (s.context ups) name)

def Scope.resolve (s : Scope) (p : Path) : Json :=
  if p.root then p.names.foldl field s.root
  else
    match p.names with
    | [] => s.context p.ups
    | name :: names => names.foldl field (s.first p.ups name)

def Scope.data (s : Scope) (ups : Nat) (name : String) : Json :=
  ((s.frames[ups]?).bind fun f => f.locals.lookup name).getD .null

def Scope.push (s : Scope) (f : Frame) : Scope := { s with frames := f :: s.frames }

/-- The helpers that are registered, as functions of their parameters. -/
abbrev Helpers := String → List Json → Except String Json

mutual

def evalExpr (helpers : Helpers) (s : Scope) : Expr → Except String Json
  | .literal v => .ok v
  | .path p => .ok (s.resolve p)
  | .data ups name => .ok (s.data ups name)
  | .call helper params => do helpers helper (← evalParams helpers s params)

def evalParams (helpers : Helpers) (s : Scope) : List Expr → Except String (List Json)
  | [] => .ok []
  | e :: es => return (← evalExpr helpers s e) :: (← evalParams helpers s es)

end

/-- The frame of the `i`-th of `n` items. -/
def itemFrame (itemName keyName : Option String) (n i : Nat) (entry : Option String × Json) :
    Frame where
  context := entry.2
  key := entry.1.elim (.number (.posInt (UInt64.ofNat i))) .string
  locals := entry.1.toList.map (fun key => ("key", .string key)) ++
    [("index", .number (.posInt (UInt64.ofNat i))), ("first", .bool (i == 0)),
      ("last", .bool (i + 1 == n))]
  itemName := itemName
  keyName := keyName

/-- Texts one after the other, up to the first error. -/
def concat : List (Except String String) → Except String String
  | [] => .ok ""
  | x :: xs => return (← x) ++ (← concat xs)

def eval (helpers : Helpers) : Template → Scope → Except String String
  | .done, _ => .ok ""
  | .text text rest, s => return text ++ (← eval helpers rest s)
  | .output expr rest, s => do
      let v ← evalExpr helpers s expr
      return display v ++ (← eval helpers rest s)
  | .cond negated expr body inverse rest, s => do
      let v ← evalExpr helpers s expr
      let out ← if truthy v != negated then eval helpers body s else eval helpers inverse s
      return out ++ (← eval helpers rest s)
  | .withBlock expr itemName body inverse rest, s => do
      let v ← evalExpr helpers s expr
      let out ←
        if truthy v then eval helpers body (s.push { context := v, itemName := itemName })
        else eval helpers inverse s
      return out ++ (← eval helpers rest s)
  | .eachBlock expr itemName keyName body inverse rest, s => do
      let v ← evalExpr helpers s expr
      let out ←
        if (entries v).isEmpty then eval helpers inverse s
        else
          concat ((entries v).mapIdx fun i entry =>
            eval helpers body (s.push (itemFrame itemName keyName (entries v).length i entry)))
      return out ++ (← eval helpers rest s)
  | .other run rest, s => return (← run s) ++ (← eval helpers rest s)

/-- A context to begin with. -/
def Scope.of (context : Json) : Scope where
  root := context
  frames := [{ context := context }]

/-! ## What a template can reach -/

/-- What is known of a value: it has no data in it, or it may be the root, the event, or
some of the data. -/
inductive Label
  | clear
  | root
  | event
  | data
deriving DecidableEq

/-- The field of a name that is not `data`. -/
def Label.field : Label → String → Label
  | .root, name => if name = "event" then .event else .clear
  | .data, _ => .data
  | _, _ => .clear

/-- Any of the fields. -/
def Label.item : Label → Label
  | .root => .event
  | .event => .data
  | l => l

/-- What is known of a frame. -/
structure Shape where
  context : Label
  itemName : Option String := none
  keyName : Option String := none

def Shape.param (f : Shape) (name : String) : Option Label :=
  if f.itemName = some name then some f.context
  else if f.keyName = some name then some .clear
  else none

def contextLabel (fs : List Shape) (ups : Nat) : Label := (fs[ups]?).elim .clear Shape.context

def firstLabel (fs : List Shape) (ups : Nat) (name : String) : Label :=
  ((if ups = 0 then fs.findSome? fun f => f.param name else none)).getD
    ((contextLabel fs ups).field name)

def Path.label (fs : List Shape) (p : Path) : Label :=
  if p.root then p.names.foldl Label.field .root
  else
    match p.names with
    | [] => contextLabel fs p.ups
    | name :: names => names.foldl Label.field (firstLabel fs p.ups name)

def Expr.label (fs : List Shape) : Expr → Label
  | .path p => p.label fs
  | _ => .clear

mutual

/-- No helper is given the root, the event or the data. -/
def Expr.blind (fs : List Shape) : Expr → Bool
  | .call _ params => blindParams fs params
  | _ => true

def blindParams (fs : List Shape) : List Expr → Bool
  | [] => true
  | e :: es => e.blind fs && e.label fs == .clear && blindParams fs es

end

/-- The value may be printed, tested or entered. -/
def Expr.usable (fs : List Shape) (e : Expr) : Bool := e.blind fs && e.label fs != .data

/-- The template does not look into the root or the event as a whole: none of them is
given to a helper, nothing is made of their items in an `each`, and there is no
partial or decorator, which could. -/
def Template.blind (fs : List Shape) : Template → Bool
  | .done => true
  | .text _ rest => rest.blind fs
  | .output e rest => e.usable fs && rest.blind fs
  | .cond _ e body inverse rest =>
      e.usable fs && body.blind fs && inverse.blind fs && rest.blind fs
  | .withBlock e itemName body inverse rest =>
      e.usable fs && body.blind ({ context := e.label fs, itemName := itemName } :: fs) &&
        inverse.blind fs && rest.blind fs
  | .eachBlock e itemName keyName body inverse rest =>
      e.usable fs &&
        body.blind
          ({ context := (e.label fs).item, itemName := itemName, keyName := keyName } :: fs) &&
        inverse.blind fs && rest.blind fs
  | .other _ _ => false

mutual

/-- The names in the paths. -/
def Expr.names : Expr → List String
  | .path p => p.names
  | .call _ params => paramNames params
  | _ => []

def paramNames : List Expr → List String
  | [] => []
  | e :: es => e.names ++ paramNames es

end

def Template.names : Template → List String
  | .done => []
  | .text _ rest => rest.names
  | .output e rest => e.names ++ rest.names
  | .cond _ e body inverse rest => e.names ++ body.names ++ inverse.names ++ rest.names
  | .withBlock e _ body inverse rest => e.names ++ body.names ++ inverse.names ++ rest.names
  | .eachBlock e _ _ body inverse rest => e.names ++ body.names ++ inverse.names ++ rest.names
  | .other _ rest => rest.names

/-! ## Contexts that differ in the data -/

/-- Objects with the same fields, but for those of one name, which `Q` relates. -/
def SameBut (k : String) (Q : Json → Json → Prop) (v v' : Json) : Prop :=
  ∃ fields fields', v = .object fields ∧ v' = .object fields' ∧
    List.Forall₂ (fun f f' => f.1 = f'.1 ∧ if f.1 = k then Q f.2 f'.2 else f.2 = f'.2)
      fields fields'

def Agree : Label → Json → Json → Prop
  | .clear, v, v' => v = v'
  | .root, v, v' => v = v' ∨
      SameBut "event" (fun w w' => w = w' ∨ SameBut "data" (fun _ _ => True) w w') v v'
  | .event, v, v' => v = v' ∨ SameBut "data" (fun _ _ => True) v v'
  | .data, _, _ => True

variable {k name : String} {Q : Json → Json → Prop} {v v' : Json} {l : Label}

theorem Agree.refl (l : Label) (v : Json) : Agree l v v := by
  cases l with
  | clear => exact rfl
  | root => exact .inl rfl
  | event => exact .inl rfl
  | data => exact trivial

theorem SameBut.mono {Q' : Json → Json → Prop} (h : SameBut k Q v v')
    (hQ : ∀ w w', Q w w' → Q' w w') : SameBut k Q' v v' := by
  obtain ⟨fields, fields', rfl, rfl, hfields⟩ := h
  refine ⟨fields, fields', rfl, rfl, hfields.imp fun f f' hf => ⟨hf.1, ?_⟩⟩
  have hvalue := hf.2
  split
  · rename_i hkey
    rw [if_pos hkey] at hvalue
    exact hQ _ _ hvalue
  · rename_i hkey
    rw [if_neg hkey] at hvalue
    exact hvalue

theorem SameBut.get?_ne (h : SameBut k Q v v') (hname : name ≠ k) :
    v.get? name = v'.get? name := by
  obtain ⟨fields, fields', rfl, rfl, hfields⟩ := h
  rw [Json.get?, Json.get?]
  induction hfields with
  | nil => rfl
  | @cons f f' fields fields' hf _ ih =>
      obtain ⟨key, value⟩ := f
      obtain ⟨key', value'⟩ := f'
      obtain ⟨rfl, hvalue⟩ := hf
      rw [List.lookup_cons, List.lookup_cons, ih]
      by_cases hkey : name = key
      · subst hkey
        rw [if_neg hname] at hvalue
        rw [show value = value' from hvalue]
      · rw [show (name == key) = false from beq_false_of_ne hkey]

theorem SameBut.get?_self (h : SameBut k Q v v') :
    (v.get? k = none ∧ v'.get? k = none) ∨
      ∃ w w', v.get? k = some w ∧ v'.get? k = some w' ∧ Q w w' := by
  obtain ⟨fields, fields', rfl, rfl, hfields⟩ := h
  rw [Json.get?, Json.get?]
  induction hfields with
  | nil => exact .inl ⟨rfl, rfl⟩
  | @cons f f' fields fields' hf _ ih =>
      obtain ⟨key, value⟩ := f
      obtain ⟨key', value'⟩ := f'
      obtain ⟨rfl, hvalue⟩ := hf
      rw [List.lookup_cons, List.lookup_cons]
      by_cases hkey : key = k
      · subst hkey
        rw [if_pos rfl] at hvalue
        rw [show (key == key) = true from beq_self_eq_true key]
        exact .inr ⟨value, value', rfl, rfl, hvalue⟩
      · rw [show (k == key) = false from beq_false_of_ne (Ne.symm hkey)]
        exact ih

/-- The field of an object is what is under its name. -/
theorem SameBut.field_eq (h : SameBut k Q v v') (name : String) :
    field v name = (v.get? name).getD .null ∧ field v' name = (v'.get? name).getD .null := by
  obtain ⟨fields, fields', rfl, rfl, -⟩ := h
  exact ⟨rfl, rfl⟩

theorem SameBut.field_ne (h : SameBut k Q v v') (hname : name ≠ k) :
    field v name = field v' name := by
  rw [(h.field_eq name).1, (h.field_eq name).2, h.get?_ne hname]

theorem SameBut.field_self (h : SameBut k Q v v') (hQ : ∀ w, Q w w) :
    Q (field v k) (field v' k) := by
  rw [(h.field_eq k).1, (h.field_eq k).2]
  obtain ⟨hv, hv'⟩ | ⟨w, w', hv, hv', hw⟩ := h.get?_self
  · rw [hv, hv']
    exact hQ _
  · rw [hv, hv']
    exact hw

theorem SameBut.entries (h : SameBut k Q v v') (hQ : ∀ w, Q w w) :
    List.Forall₂ (fun e e' => e.1 = e'.1 ∧ Q e.2 e'.2) (entries v) (entries v') := by
  obtain ⟨fields, fields', rfl, rfl, hfields⟩ := h
  rw [Handlebars.entries, Handlebars.entries]
  induction hfields with
  | nil => exact .nil
  | @cons f f' fields fields' hf _ ih =>
      refine .cons ⟨congrArg some hf.1, ?_⟩ ih
      have hvalue := hf.2
      split at hvalue
      · exact hvalue
      · show Q f.2 f'.2
        rw [show f.2 = f'.2 from hvalue]
        exact hQ _

theorem SameBut.truthy (h : SameBut k Q v v') : truthy v = truthy v' := by
  obtain ⟨fields, fields', rfl, rfl, hfields⟩ := h
  cases hfields with
  | nil => rfl
  | cons _ _ => rfl

theorem SameBut.display (h : SameBut k Q v v') : display v = display v' := by
  obtain ⟨fields, fields', rfl, rfl, -⟩ := h
  rw [Handlebars.display, Handlebars.display]

theorem Agree.field (h : Agree l v v') (hname : name ≠ "data") :
    Agree (l.field name) (field v name) (field v' name) := by
  cases l with
  | clear =>
      obtain rfl : v = v' := h
      exact rfl
  | root =>
      rcases h with rfl | h
      · exact .refl _ _
      · rw [Label.field]
        split
        · rename_i hevent
          subst hevent
          exact h.field_self fun _ => .inl rfl
        · rename_i hevent
          exact h.field_ne hevent
  | event =>
      rcases h with rfl | h
      · exact .refl _ _
      · exact h.field_ne hname
  | data => exact trivial

theorem Agree.fields {names : List String} (h : Agree l v v') (hnames : "data" ∉ names) :
    Agree (names.foldl Label.field l) (names.foldl Handlebars.field v)
      (names.foldl Handlebars.field v') := by
  induction names generalizing l v v' with
  | nil => exact h
  | cons name names ih =>
      obtain ⟨hname, hnames⟩ := not_or.mp (List.mem_cons.not.mp hnames)
      exact ih (h.field (Ne.symm hname)) hnames

theorem Agree.entries (h : Agree l v v') (hl : l ≠ .data) :
    List.Forall₂ (fun e e' => e.1 = e'.1 ∧ Agree l.item e.2 e'.2) (entries v) (entries v') := by
  have hsame : ∀ v, List.Forall₂ (fun e e' => e.1 = e'.1 ∧ Agree l.item e.2 e'.2)
      (Handlebars.entries v) (Handlebars.entries v) :=
    fun v => List.forall₂_same.mpr fun e _ => ⟨rfl, .refl _ _⟩
  cases l with
  | clear =>
      obtain rfl : v = v' := h
      exact hsame v
  | root =>
      rcases h with rfl | h
      · exact hsame v
      · exact h.entries fun _ => .inl rfl
  | event =>
      rcases h with rfl | h
      · exact hsame v
      · exact h.entries fun _ => trivial
  | data => exact (hl rfl).elim

theorem Agree.eq_or_sameBut (h : Agree l v v') (hl : l ≠ .data) :
    v = v' ∨ ∃ k Q, SameBut k Q v v' := by
  cases l with
  | clear => exact .inl h
  | root => exact h.imp_right fun h => ⟨_, _, h⟩
  | event => exact h.imp_right fun h => ⟨_, _, h⟩
  | data => exact (hl rfl).elim

theorem Agree.truthy (h : Agree l v v') (hl : l ≠ .data) : truthy v = truthy v' := by
  obtain rfl | ⟨k, Q, h⟩ := h.eq_or_sameBut hl
  · rfl
  · exact h.truthy

theorem Agree.display (h : Agree l v v') (hl : l ≠ .data) : display v = display v' := by
  obtain rfl | ⟨k, Q, h⟩ := h.eq_or_sameBut hl
  · rfl
  · exact h.display

/-! ## Scopes that do -/

structure FrameAgree (sh : Shape) (f f' : Frame) : Prop where
  context : Agree sh.context f.context f'.context
  key : f.key = f'.key
  locals : f.locals = f'.locals
  itemName : f.itemName = sh.itemName ∧ f'.itemName = sh.itemName
  keyName : f.keyName = sh.keyName ∧ f'.keyName = sh.keyName

inductive FramesAgree : List Shape → List Frame → List Frame → Prop
  | nil : FramesAgree [] [] []
  | cons {sh : Shape} {f f' : Frame} {shs : List Shape} {fs fs' : List Frame} :
      FrameAgree sh f f' → FramesAgree shs fs fs' → FramesAgree (sh :: shs) (f :: fs) (f' :: fs')

structure ScopeAgree (shs : List Shape) (s s' : Scope) : Prop where
  root : Agree .root s.root s'.root
  frames : FramesAgree shs s.frames s'.frames

/-- Both have the block parameter, with values of its label, or neither has. -/
def ParamAgree : Option Label → Option Json → Option Json → Prop
  | some l, some v, some v' => Agree l v v'
  | none, none, none => True
  | _, _, _ => False

variable {shs : List Shape} {fs fs' : List Frame} {s s' : Scope}

theorem FrameAgree.param {sh : Shape} {f f' : Frame} (h : FrameAgree sh f f') (name : String) :
    ParamAgree (sh.param name) (f.param name) (f'.param name) := by
  rw [Shape.param, Frame.param, Frame.param, h.itemName.1, h.itemName.2, h.keyName.1, h.keyName.2]
  split
  · exact h.context
  · split
    · exact h.key
    · exact trivial

theorem FramesAgree.param (h : FramesAgree shs fs fs') (name : String) :
    ParamAgree (shs.findSome? fun f => f.param name) (fs.findSome? fun f => f.param name)
      (fs'.findSome? fun f => f.param name) := by
  induction h with
  | nil => exact trivial
  | @cons sh f f' shs fs fs' hf _ ih =>
      have hparam := hf.param name
      rw [List.findSome?_cons, List.findSome?_cons, List.findSome?_cons]
      cases hsh : sh.param name with
      | none =>
          cases hv : f.param name with
          | none =>
              cases hv' : f'.param name with
              | none => exact ih
              | some _ => rw [hsh, hv, hv'] at hparam; exact hparam.elim
          | some _ => rw [hsh, hv] at hparam; exact hparam.elim
      | some l =>
          cases hv : f.param name with
          | none => rw [hsh, hv] at hparam; exact hparam.elim
          | some v =>
              cases hv' : f'.param name with
              | none => rw [hsh, hv, hv'] at hparam; exact hparam.elim
              | some v' => rw [hsh, hv, hv'] at hparam; exact hparam

theorem FramesAgree.get (h : FramesAgree shs fs fs') (n : Nat) :
    (shs[n]? = none ∧ fs[n]? = none ∧ fs'[n]? = none) ∨
      ∃ sh f f', shs[n]? = some sh ∧ fs[n]? = some f ∧ fs'[n]? = some f' ∧ FrameAgree sh f f' := by
  induction h generalizing n with
  | nil => exact .inl ⟨rfl, rfl, rfl⟩
  | @cons sh f f' shs fs fs' hf _ ih =>
      cases n with
      | zero => exact .inr ⟨sh, f, f', rfl, rfl, rfl, hf⟩
      | succ n => exact ih n

theorem ScopeAgree.context (h : ScopeAgree shs s s') (ups : Nat) :
    Agree (contextLabel shs ups) (s.context ups) (s'.context ups) := by
  rw [contextLabel, Scope.context, Scope.context]
  obtain ⟨hsh, hf, hf'⟩ | ⟨sh, f, f', hsh, hf, hf', hagree⟩ := h.frames.get ups
  · rw [hsh, hf, hf']
    exact rfl
  · rw [hsh, hf, hf']
    exact hagree.context

theorem ScopeAgree.data (h : ScopeAgree shs s s') (ups : Nat) (name : String) :
    s.data ups name = s'.data ups name := by
  rw [Scope.data, Scope.data]
  obtain ⟨-, hf, hf'⟩ | ⟨sh, f, f', -, hf, hf', hagree⟩ := h.frames.get ups
  · rw [hf, hf']
  · rw [hf, hf', Option.bind_some, Option.bind_some, hagree.locals]

theorem ScopeAgree.first (h : ScopeAgree shs s s') (ups : Nat) (hname : name ≠ "data") :
    Agree (firstLabel shs ups name) (s.first ups name) (s'.first ups name) := by
  rw [firstLabel, Scope.first, Scope.first]
  have hfield := (h.context ups).field hname
  split
  · have hparam := h.frames.param name
    revert hparam
    cases shs.findSome? fun f => f.param name with
    | none =>
        cases s.frames.findSome? fun f => f.param name with
        | none =>
            cases s'.frames.findSome? fun f => f.param name with
            | none => exact fun _ => hfield
            | some _ => exact False.elim
        | some _ => exact False.elim
    | some l =>
        cases s.frames.findSome? fun f => f.param name with
        | none => exact False.elim
        | some v =>
            cases s'.frames.findSome? fun f => f.param name with
            | none => exact False.elim
            | some v' => exact id
  · exact hfield

theorem ScopeAgree.resolve {p : Path} (h : ScopeAgree shs s s') (hnames : "data" ∉ p.names) :
    Agree (p.label shs) (s.resolve p) (s'.resolve p) := by
  rw [Path.label, Scope.resolve, Scope.resolve]
  split
  · exact h.root.fields hnames
  · cases hp : p.names with
    | nil => exact h.context p.ups
    | cons name names =>
        rw [hp] at hnames
        obtain ⟨hname, hnames⟩ := not_or.mp (List.mem_cons.not.mp hnames)
        exact (h.first p.ups (Ne.symm hname)).fields hnames

theorem ScopeAgree.push {sh : Shape} {f f' : Frame} (h : ScopeAgree shs s s')
    (hf : FrameAgree sh f f') : ScopeAgree (sh :: shs) (s.push f) (s'.push f') where
  root := h.root
  frames := .cons hf h.frames

/-! ## Rendering does not see the data -/

/-- The same error, or values with the same label. -/
inductive ResultAgree (l : Label) : Except String Json → Except String Json → Prop
  | ok {v v' : Json} : Agree l v v' → ResultAgree l (.ok v) (.ok v')
  | error (msg : String) : ResultAgree l (.error msg) (.error msg)

theorem ResultAgree.refl (x : Except String Json) : ResultAgree l x x := by
  cases x with
  | error msg => exact .error msg
  | ok v => exact .ok (.refl l v)

theorem ResultAgree.eq_of_clear {x x' : Except String Json} (h : ResultAgree .clear x x') :
    x = x' := by
  cases h with
  | ok hv => exact congrArg Except.ok hv
  | error msg => rfl

theorem ResultAgree.bind {x x' : Except String Json} {f f' : Json → Except String String}
    (h : ResultAgree l x x') (hf : ∀ v v', Agree l v v' → f v = f' v') :
    x >>= f = x' >>= f' := by
  cases h with
  | ok hv => exact hf _ _ hv
  | error msg => rfl

variable {helpers : Helpers}

mutual

theorem evalExpr_agree (h : ScopeAgree shs s s') :
    ∀ e : Expr, e.blind shs = true → "data" ∉ e.names →
      ResultAgree (e.label shs) (evalExpr helpers s e) (evalExpr helpers s' e)
  | .literal v, _, _ => .refl (.ok v)
  | .path p, _, hnames => by
      rw [evalExpr, evalExpr]
      exact .ok (h.resolve hnames)
  | .data ups name, _, _ => by
      rw [evalExpr, evalExpr, h.data ups name]
      exact .refl _
  | .call helper params, hblind, hnames => by
      rw [evalExpr, evalExpr, evalParams_agree h params hblind hnames]
      exact .refl _

theorem evalParams_agree (h : ScopeAgree shs s s') :
    ∀ es : List Expr, blindParams shs es = true → "data" ∉ paramNames es →
      evalParams helpers s es = evalParams helpers s' es
  | [], _, _ => by rw [evalParams, evalParams]
  | e :: es, hblind, hnames => by
      rw [blindParams, Bool.and_eq_true, Bool.and_eq_true, beq_iff_eq] at hblind
      obtain ⟨⟨he, hclear⟩, hes⟩ := hblind
      rw [paramNames, List.mem_append, not_or] at hnames
      have hvalue := evalExpr_agree h e he hnames.1
      rw [hclear] at hvalue
      rw [evalParams, evalParams, hvalue.eq_of_clear, evalParams_agree h es hes hnames.2]

end

theorem Expr.usable_iff {e : Expr} :
    e.usable shs = true ↔ e.blind shs = true ∧ e.label shs ≠ .data := by
  rw [Expr.usable, Bool.and_eq_true, bne_iff_ne]

/-- The iterations of an `each` are in scopes that agree. -/
theorem ScopeAgree.item {itemName keyName : Option String} {n i : Nat}
    {entry entry' : Option String × Json} (h : ScopeAgree shs s s')
    (hentry : entry.1 = entry'.1 ∧ Agree l entry.2 entry'.2) :
    ScopeAgree ({ context := l, itemName := itemName, keyName := keyName } :: shs)
      (s.push (itemFrame itemName keyName n i entry))
      (s'.push (itemFrame itemName keyName n i entry')) :=
  h.push
    { context := hentry.2
      key := by rw [itemFrame, itemFrame, hentry.1]
      locals := by rw [itemFrame, itemFrame, hentry.1]
      itemName := ⟨rfl, rfl⟩
      keyName := ⟨rfl, rfl⟩ }

theorem mapIdx_congr {α β γ : Type} {R : α → β → Prop} {f : Nat → α → γ} {g : Nat → β → γ}
    {as : List α} {bs : List β} (h : List.Forall₂ R as bs)
    (hfg : ∀ i a b, R a b → f i a = g i b) : as.mapIdx f = bs.mapIdx g := by
  induction h generalizing f g with
  | nil => rfl
  | cons hab _ ih =>
      rw [List.mapIdx_cons, List.mapIdx_cons, hfg 0 _ _ hab]
      congr 1
      exact ih fun i a b => hfg (i + 1) a b

/-- A blind template that does not name the data is rendered to the same text, or the
same error, in scopes that agree. -/
theorem eval_agree {t : Template} (h : ScopeAgree shs s s') (hblind : t.blind shs = true)
    (hnames : "data" ∉ t.names) : eval helpers t s = eval helpers t s' := by
  induction t generalizing shs s s' with
  | done => rfl
  | text text rest ih => rw [eval, eval, ih h hblind hnames]
  | output e rest ih =>
      rw [Template.blind, Bool.and_eq_true, Expr.usable_iff] at hblind
      rw [Template.names, List.mem_append, not_or] at hnames
      obtain ⟨⟨he, hl⟩, hrest⟩ := hblind
      rw [eval, eval, ih h hrest hnames.2]
      refine (evalExpr_agree h e he hnames.1).bind fun v v' hv => ?_
      rw [hv.display hl]
  | cond negated e body inverse rest ihbody ihinverse ihrest =>
      rw [Template.blind, Bool.and_eq_true, Bool.and_eq_true, Bool.and_eq_true,
        Expr.usable_iff] at hblind
      obtain ⟨⟨⟨⟨he, hl⟩, hbody⟩, hinverse⟩, hrest⟩ := hblind
      simp only [Template.names, List.mem_append, not_or] at hnames
      obtain ⟨⟨⟨hne, hnbody⟩, hninverse⟩, hnrest⟩ := hnames
      rw [eval, eval, ihbody h hbody hnbody, ihinverse h hinverse hninverse, ihrest h hrest hnrest]
      refine (evalExpr_agree h e he hne).bind fun v v' hv => ?_
      rw [hv.truthy hl]
  | withBlock e itemName body inverse rest ihbody ihinverse ihrest =>
      rw [Template.blind, Bool.and_eq_true, Bool.and_eq_true, Bool.and_eq_true,
        Expr.usable_iff] at hblind
      obtain ⟨⟨⟨⟨he, hl⟩, hbody⟩, hinverse⟩, hrest⟩ := hblind
      simp only [Template.names, List.mem_append, not_or] at hnames
      obtain ⟨⟨⟨hne, hnbody⟩, hninverse⟩, hnrest⟩ := hnames
      rw [eval, eval, ihinverse h hinverse hninverse, ihrest h hrest hnrest]
      refine (evalExpr_agree h e he hne).bind fun v v' hv => ?_
      have hpush : ScopeAgree ({ context := e.label shs, itemName := itemName } :: shs)
          (s.push { context := v, itemName := itemName })
          (s'.push { context := v', itemName := itemName }) :=
        h.push
          { context := hv
            key := rfl
            locals := rfl
            itemName := ⟨rfl, rfl⟩
            keyName := ⟨rfl, rfl⟩ }
      rw [hv.truthy hl, ihbody hpush hbody hnbody]
  | eachBlock e itemName keyName body inverse rest ihbody ihinverse ihrest =>
      rw [Template.blind, Bool.and_eq_true, Bool.and_eq_true, Bool.and_eq_true,
        Expr.usable_iff] at hblind
      obtain ⟨⟨⟨⟨he, hl⟩, hbody⟩, hinverse⟩, hrest⟩ := hblind
      simp only [Template.names, List.mem_append, not_or] at hnames
      obtain ⟨⟨⟨hne, hnbody⟩, hninverse⟩, hnrest⟩ := hnames
      rw [eval, eval, ihinverse h hinverse hninverse, ihrest h hrest hnrest]
      refine (evalExpr_agree h e he hne).bind fun v v' hv => ?_
      have hentries := hv.entries hl
      have hlength : (entries v).length = (entries v').length := hentries.length_eq
      have hitems := mapIdx_congr
        (f := fun i entry => eval helpers body
          (s.push (itemFrame itemName keyName (entries v).length i entry)))
        (g := fun i entry => eval helpers body
          (s'.push (itemFrame itemName keyName (entries v').length i entry)))
        hentries fun i entry entry' hentry => by
          rw [hlength]
          exact ihbody (h.item hentry) hbody hnbody
      have hempty : (entries v).isEmpty = (entries v').isEmpty := by
        rw [Bool.eq_iff_iff, List.isEmpty_iff_length_eq_zero, List.isEmpty_iff_length_eq_zero,
          hlength]
      rw [hempty, hitems]
  | other run rest _ => cases hblind

/-- At the start the context is the root. -/
theorem ScopeAgree.of {context context' : Json} (h : Agree .root context context') :
    ScopeAgree [{ context := .root }] (Scope.of context) (Scope.of context') where
  root := h
  frames :=
    .cons { context := h, key := rfl, locals := rfl, itemName := ⟨rfl, rfl⟩, keyName := ⟨rfl, rfl⟩ }
      .nil

end Flowgen.Render.Handlebars
