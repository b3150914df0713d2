/-
# `Flowgen.Salesforce.Soql` — binding parameters into a query
(`salesforce/src/soql.rs`)

`bind` reads a query from left to right and puts a literal in the place of every
`:name` outside the query's own string literals.  The literals are made by
`salesforce_core`; `Lawful` is what it promises of them.

Read as tokens, the bound query is the query with one value for each parameter
(`bind_tokens`).  The scan is followed state by state: within a literal of the
query, it and `scan` have read the same text and wait for the same quote, and
what is put in outside ends outside (`Closed`), so the two go on together.
-/
import Flowgen.Json
import Flowgen.Lib.Fallible
import Flowgen.Lib.Quoted

namespace Flowgen.Salesforce.Soql

open Flowgen.Lib Flowgen.Lib.Quoted

inductive Error
  | unknownParameter (name : String)
  | invalidDate (name : String)
  | invalidDatetime (name : String)
  | emptyList (name : String)
  | unsupportedValue (name : String)
deriving DecidableEq

/-- A value bound to `:name` in a query. -/
inductive Parameter
  | date (date : String)
  | datetime (datetime : String)
  | contains (contains : String)
  | startsWith (startsWith : String)
  | endsWith (endsWith : String)
  | value (value : Json)

/-- The literals of `salesforce_core`, the dates of `chrono` and the numbers of
`serde_json`, as texts. -/
structure Core where
  quote : String → List Char
  likeContains : String → List Char
  likeStartsWith : String → List Char
  likeEndsWith : String → List Char
  /-- `NaiveDate::parse_from_str`, then `soql::date`. -/
  date : String → Option (List Char)
  /-- `DateTime::parse_from_rfc3339`, then `soql::datetime` in UTC. -/
  datetime : String → Option (List Char)
  number : JsonNumber → List Char

variable (core : Core) (parameters : String → Option Parameter)

/-! ## The source -/

def nameChar (c : Char) : Bool := c.isAlphanum || c == '_'

def nameStart (c : Char) : Bool := c.isAlpha || c == '_'

/-- The parameter name at the start of `rest`. -/
def identifier (rest : List Char) : Option (List Char) :=
  let name := rest.takeWhile nameChar
  match name.head? with
  | some first => if nameStart first then some name else none
  | none => none

def scalar (name : String) : Json → Except Error (List Char)
  | .string text => .ok (core.quote text)
  | .number number => .ok (core.number number)
  | .bool flag => .ok (toString flag).toList
  | .null => .ok "null".toList
  | .array _ | .object _ => .error (.unsupportedValue name)

def literal (name : String) : Parameter → Except Error (List Char)
  | .date date => (core.date date).elim (.error (.invalidDate name)) .ok
  | .datetime datetime => (core.datetime datetime).elim (.error (.invalidDatetime name)) .ok
  | .contains contains => .ok (core.likeContains contains)
  | .startsWith startsWith => .ok (core.likeStartsWith startsWith)
  | .endsWith endsWith => .ok (core.likeEndsWith endsWith)
  | .value (.array []) => .error (.emptyList name)
  | .value (.array items) => do
      let items ← items.mapM (scalar core name)
      return '(' :: [',', ' '].intercalate items ++ [')']
  | .value value => scalar core name value

def parameterLiteral (name : String) : Except Error (List Char) :=
  (parameters name).elim (.error (.unknownParameter name)) (literal core name)

/-- The text bound from a point of the query on.  The characters of a name that
has been bound are passed over one by one, as `chars.nth` does. -/
def bindFrom : (inLiteral : Bool) → (skip : Nat) → List Char → Except Error (List Char)
  | _, _, [] => .ok []
  | inLiteral, skip + 1, _ :: cs => bindFrom inLiteral skip cs
  | true, 0, ['\\'] => .ok ['\\']
  | true, 0, '\\' :: escaped :: cs => do
      let bound ← bindFrom true 0 cs
      return '\\' :: escaped :: bound
  | inLiteral, 0, c :: cs =>
      if c = '\'' then do
        let bound ← bindFrom (!inLiteral) 0 cs
        return c :: bound
      else
        match if !inLiteral && c == ':' then identifier cs else none with
        | some name => do
            let text ← parameterLiteral core parameters (String.ofList name)
            let bound ← bindFrom inLiteral name.length cs
            return text ++ bound
        | none => do
            let bound ← bindFrom inLiteral 0 cs
            return c :: bound

def bind (query : String) : Except Error String := do
  let bound ← bindFrom core parameters false 0 query.toList
  return String.ofList bound

/-! ## What a bound query is -/

def wordChar (c : Char) : Bool := c.isAlphanum || ['-', '+', '.', ':'].contains c

/-- A literal without quotes: a number, `true`, `false`, `null`, a date or a
datetime. -/
def Word (cs : List Char) : Prop := cs ≠ [] ∧ cs.all wordChar

/-- One literal. -/
inductive Scalar : List Token → Prop
  | quoted (raw : List Char) : Scalar [.literal raw]
  | word {cs : List Char} : Word cs → Scalar (cs.map .outside)

/-- One literal, or a list of them in parentheses. -/
inductive Value : List Token → Prop
  | one {tokens : List Token} : Scalar tokens → Value tokens
  | list {items : List (List Token)} : items ≠ [] → (∀ item ∈ items, Scalar item) →
      Value ([.outside '('] ++ [.outside ',', .outside ' '].intercalate items ++ [.outside ')'])

/-- Outside a literal, a colon and the name next to it stand for a parameter. -/
def NameNext (tokens : List Token) : Prop :=
  ∃ c, tokens.head? = some (.outside c) ∧ nameStart c

/-- The tokens of a query, and those of it with its parameters bound. -/
inductive Binds : List Token → List Token → Prop
  | nil : Binds [] []
  | literal (raw : List Char) {query bound : List Token} :
      Binds query bound → Binds (.literal raw :: query) (.literal raw :: bound)
  | unfinished (raw : List Char) : Binds [.unfinished raw] [.unfinished raw]
  | outside {c : Char} {query bound : List Token} :
      (c = ':' → ¬ NameNext query) → Binds query bound →
      Binds (.outside c :: query) (.outside c :: bound)
  | parameter {name text : List Char} {query bound : List Token} :
      NameNext (name.map .outside) → (∀ c ∈ name, nameChar c) →
      (∀ c, query.head? = some (.outside c) → ¬ nameChar c) →
      parameterLiteral core parameters (String.ofList name) = .ok text →
      Value (tokens text) → Binds query bound →
      Binds (.outside ':' :: name.map .outside ++ query) (tokens text ++ bound)

/-- One well-formed quoted literal. -/
def Quoted (text : List Char) : Prop :=
  ∃ raw, Escaped raw ∧ text = '\'' :: raw ++ ['\'']

/-- What the libraries promise: strings and patterns are quoted and escaped, and
dates and numbers are words. -/
structure Core.Lawful : Prop where
  quote : ∀ text, Quoted (core.quote text)
  likeContains : ∀ text, Quoted (core.likeContains text)
  likeStartsWith : ∀ text, Quoted (core.likeStartsWith text)
  likeEndsWith : ∀ text, Quoted (core.likeEndsWith text)
  date : ∀ date text, core.date date = some text → Word text
  datetime : ∀ datetime text, core.datetime datetime = some text → Word text
  number : ∀ number, Word (core.number number)

/-! ## Values -/

section Values

variable {core parameters}

theorem Word.not_mem {cs : List Char} (h : Word cs) : '\'' ∉ cs := by
  intro hmem
  have hquote := List.all_eq_true.mp h.2 '\'' hmem
  revert hquote
  decide

theorem Word.scalar {cs : List Char} (h : Word cs) : Scalar (tokens cs) := by
  rw [tokens_plain h.not_mem]
  exact .word h

theorem Quoted.scalar {cs : List Char} (h : Quoted cs) : Scalar (tokens cs) := by
  obtain ⟨raw, hraw, rfl⟩ := h
  rw [tokens_quoted hraw]
  exact .quoted raw

theorem Quoted.closed {cs : List Char} (h : Quoted cs) : Closed cs := by
  obtain ⟨raw, hraw, rfl⟩ := h
  exact closed_quoted hraw

/-- The text of one literal. -/
def ScalarText (cs : List Char) : Prop := Quoted cs ∨ Word cs

theorem ScalarText.scalar {cs : List Char} (h : ScalarText cs) : Scalar (tokens cs) :=
  h.elim Quoted.scalar Word.scalar

theorem ScalarText.closed {cs : List Char} (h : ScalarText cs) : Closed cs :=
  h.elim Quoted.closed fun hword => closed_plain hword.not_mem

theorem scalar_text (hcore : core.Lawful) {name : String} {value : Json} {text : List Char}
    (h : scalar core name value = .ok text) : ScalarText text := by
  cases value with
  | null =>
      cases h
      exact .inr ⟨by decide, by decide⟩
  | bool flag =>
      cases h
      cases flag
      · exact .inr ⟨by decide, by decide⟩
      · exact .inr ⟨by decide, by decide⟩
  | number number =>
      cases h
      exact .inr (hcore.number number)
  | string content =>
      cases h
      exact .inl (hcore.quote content)
  | array items => cases h
  | object fields => cases h

/-- What is put in for a parameter is a value, and the query goes on outside. -/
def ValueText (cs : List Char) : Prop := Value (tokens cs) ∧ Closed cs

theorem ScalarText.value {cs : List Char} (h : ScalarText cs) : ValueText cs :=
  ⟨.one h.scalar, h.closed⟩

theorem list_text {items : List (List Char)} (hne : items ≠ [])
    (h : ∀ item ∈ items, ScalarText item) :
    ValueText ('(' :: [',', ' '].intercalate items ++ [')']) := by
  have hopen : Closed ['('] := closed_plain (by decide)
  have hsep : Closed [',', ' '] := closed_plain (by decide)
  have hclose : Closed [')'] := closed_plain (by decide)
  have hitems : ∀ item ∈ items, Closed item := fun item hitem => (h item hitem).closed
  have hjoined := closed_intercalate hsep hitems
  refine ⟨?_, (hopen.append hjoined).append hclose⟩
  have htokens : tokens (['('] ++ [',', ' '].intercalate items ++ [')']) =
      [.outside '('] ++ [.outside ',', .outside ' '].intercalate (items.map tokens) ++
        [.outside ')'] := by
    rw [hopen.append hjoined, hopen, tokens_intercalate hsep hitems]
    rfl
  rw [show '(' :: [',', ' '].intercalate items ++ [')'] =
    ['('] ++ [',', ' '].intercalate items ++ [')'] from rfl, htokens]
  refine .list (by simpa using hne) ?_
  intro item hitem
  obtain ⟨cs, hcs, rfl⟩ := List.mem_map.mp hitem
  exact (h cs hcs).scalar

theorem literal_text (hcore : core.Lawful) {name : String} {parameter : Parameter}
    {text : List Char} (h : literal core name parameter = .ok text) : ValueText text := by
  unfold literal at h
  split at h
  · rename_i date
    exact ScalarText.value (.inr (hcore.date date text (elim_eq_ok.mp h)))
  · rename_i datetime
    exact ScalarText.value (.inr (hcore.datetime datetime text (elim_eq_ok.mp h)))
  · rename_i content
    cases h
    exact ScalarText.value (.inl (hcore.likeContains content))
  · rename_i content
    cases h
    exact ScalarText.value (.inl (hcore.likeStartsWith content))
  · rename_i content
    cases h
    exact ScalarText.value (.inl (hcore.likeEndsWith content))
  · cases h
  · rename_i items hne
    obtain ⟨texts, htexts, h⟩ := bind_eq_ok.mp h
    cases h
    have hall := mapM_eq_ok_iff.mp htexts
    refine list_text ?_ ?_
    · rintro rfl
      exact hne (by rw [List.forall₂_nil_right_iff.mp hall])
    · have hscalars := hall.flip.imp fun text item hitem =>
        And.intro (scalar_text hcore hitem) hitem
      exact ((List.forall₂_and_left _ _).mp hscalars).1
  · exact ScalarText.value (scalar_text hcore h)

theorem parameterLiteral_text (hcore : core.Lawful) {name : String} {text : List Char}
    (h : parameterLiteral core parameters name = .ok text) : ValueText text := by
  rw [parameterLiteral] at h
  cases hparameter : parameters name with
  | none =>
      rw [hparameter] at h
      cases h
  | some parameter =>
      rw [hparameter] at h
      exact literal_text hcore h

end Values

/-! ## Names -/

theorem nameChar_of_nameStart {c : Char} (h : nameStart c) : nameChar c := by
  rw [nameStart, Bool.or_eq_true] at h
  rw [nameChar, Bool.or_eq_true, Char.isAlphanum, Bool.or_eq_true]
  exact h.imp_left .inl

theorem nameChar_ne_quote {c : Char} (h : nameChar c) : c ≠ '\'' := by
  rintro rfl
  revert h
  decide

/-- A name is read as far as it goes. -/
theorem identifier_eq_some {cs name : List Char} (h : identifier cs = some name) :
    name = cs.takeWhile nameChar ∧ ∃ first ∈ name.head?, nameStart first := by
  rw [identifier] at h
  split at h
  · rename_i first hfirst
    split at h
    · rename_i hstart
      cases h
      exact ⟨rfl, first, hfirst, hstart⟩
    · cases h
  · cases h

theorem identifier_eq_none {cs : List Char} {c : Char} (h : identifier cs = none)
    (hc : cs.head? = some c) : ¬ nameStart c := by
  intro hstart
  cases cs with
  | nil => cases hc
  | cons d cs =>
      cases hc
      rw [identifier, List.takeWhile_cons, if_pos (nameChar_of_nameStart hstart)] at h
      simp [hstart] at h

theorem dropWhile_head? {cs : List Char} {c : Char}
    (h : (cs.dropWhile nameChar).head? = some c) : ¬ nameChar c := by
  intro hc
  have hhead := List.head?_dropWhile_not nameChar cs
  rw [h] at hhead
  simp [hc] at hhead

theorem drop_length_takeWhile (cs : List Char) :
    cs.drop (cs.takeWhile nameChar).length = cs.dropWhile nameChar := by
  conv_lhs => arg 2; rw [← List.takeWhile_append_dropWhile (p := nameChar) (l := cs)]
  exact List.drop_left

/-! ## The scan -/

section Scan

variable {core parameters}

theorem binds_parameter (hcore : core.Lawful) {cs name text bound : List Char}
    (hname : identifier cs = some name)
    (htext : parameterLiteral core parameters (String.ofList name) = .ok text)
    (hbound : Binds core parameters (tokens (cs.drop name.length)) (tokens bound)) :
    Binds core parameters (tokens (':' :: cs)) (tokens (text ++ bound)) := by
  obtain ⟨rfl, first, hfirst, hstart⟩ := identifier_eq_some hname
  obtain ⟨hvalue, hclosed⟩ := parameterLiteral_text hcore htext
  have hchars : ∀ c ∈ cs.takeWhile nameChar, nameChar c := fun c hc => List.mem_takeWhile_imp hc
  have hplain : '\'' ∉ cs.takeWhile nameChar := fun hmem => nameChar_ne_quote (hchars _ hmem) rfl
  rw [drop_length_takeWhile] at hbound
  have hquery : tokens (':' :: cs) = .outside ':' :: (cs.takeWhile nameChar).map .outside ++
      tokens (cs.dropWhile nameChar) := by
    conv_lhs => rw [← List.takeWhile_append_dropWhile (p := nameChar) (l := cs)]
    rw [tokens_char (by decide), tokens_plain_append hplain]
    rfl
  rw [hquery, hclosed]
  refine .parameter ⟨first, ?_, hstart⟩ hchars ?_ htext hvalue hbound
  · rw [List.head?_map, Option.mem_def.mp hfirst]
    rfl
  · intro c hc
    exact dropWhile_head? (head?_tokens hc)

/-- The scan and the tokens of the query keep to one state. -/
theorem bindFrom_binds (hcore : core.Lawful) {inLiteral : Bool} {skip : Nat}
    {cs out : List Char} (h : bindFrom core parameters inLiteral skip cs = .ok out)
    (state : Option (List Char)) (hstate : state.isSome = inLiteral) :
    Binds core parameters (scan state (cs.drop skip)) (scan state out) := by
  fun_induction bindFrom core parameters inLiteral skip cs generalizing state out with
  | case1 inLiteral skip =>
      cases h
      rw [List.drop_nil]
      cases state with
      | none => exact .nil
      | some raw => exact .unfinished raw
  | case2 inLiteral skip c cs ih => exact ih h state hstate
  | case3 =>
      cases h
      obtain ⟨raw, rfl⟩ := Option.isSome_iff_exists.mp hstate
      exact .unfinished _
  | case4 escaped cs ih =>
      obtain ⟨bound, hbound, h⟩ := bind_eq_ok.mp h
      cases h
      obtain ⟨raw, rfl⟩ := Option.isSome_iff_exists.mp hstate
      rw [List.drop_zero, scan_escape, scan_escape]
      exact ih hbound _ rfl
  | case5 inLiteral cs _ _ ih =>
      obtain ⟨bound, hbound, h⟩ := bind_eq_ok.mp h
      cases h
      cases state with
      | none =>
          cases hstate
          exact ih hbound (some []) rfl
      | some raw =>
          cases hstate
          rw [List.drop_zero, scan_quote, scan_quote]
          exact .literal raw (ih hbound none rfl)
  | case6 inLiteral c cs hlast hescape hquote name hname ih =>
      obtain ⟨text, htext, h⟩ := bind_eq_ok.mp h
      obtain ⟨bound, hbound, h⟩ := bind_eq_ok.mp h
      cases h
      obtain ⟨hcond, hname⟩ := Option.ite_none_right_eq_some.mp hname
      obtain ⟨hinLiteral, hcolon⟩ := (Bool.and_eq_true _ _).mp hcond
      cases inLiteral with
      | true => cases hinLiteral
      | false =>
          obtain rfl : c = ':' := eq_of_beq hcolon
          obtain rfl := Option.isNone_iff_eq_none.mp (Option.isSome_eq_false_iff.mp hstate)
          exact binds_parameter hcore hname htext (ih hbound none rfl)
  | case7 inLiteral c cs hlast hescape hquote hname ih =>
      obtain ⟨bound, hbound, h⟩ := bind_eq_ok.mp h
      cases h
      rw [List.drop_zero]
      cases state with
      | none =>
          cases hstate
          rw [← tokens, ← tokens, tokens_char hquote, tokens_char hquote]
          refine .outside ?_ (ih hbound none rfl)
          rintro rfl ⟨c, hc, hstart⟩
          exact identifier_eq_none hname (head?_tokens hc) hstart
      | some raw =>
          cases hstate
          have hbackslash : c ≠ '\\' := by
            rintro rfl
            cases cs with
            | nil => exact hlast rfl rfl rfl
            | cons escaped cs => exact hescape escaped cs rfl rfl rfl
          rw [scan_char hbackslash hquote, scan_char hbackslash hquote]
          exact ih hbound _ rfl

end Scan

section Bound

variable {core parameters}

/-- Whatever the query and the parameters are, what is bound is the query with one
value in the place of each parameter outside its literals. -/
theorem bind_tokens (hcore : core.Lawful) {query out : String}
    (h : bind core parameters query = .ok out) :
    Binds core parameters (tokens query.toList) (tokens out.toList) := by
  obtain ⟨bound, hbound, h⟩ := bind_eq_ok.mp h
  cases h
  rw [String.toList_ofList]
  exact bindFrom_binds hcore hbound none rfl

end Bound

/-- The literals of `salesforce_core`, with one day and one number. -/
def exampleCore : Core where
  quote text := '\'' :: escape ['\\', '\''] text.toList ++ ['\'']
  likeContains text :=
    '\'' :: ('%' :: escape ['\\', '\'', '%', '_'] text.toList ++ ['%']) ++ ['\'']
  likeStartsWith text := '\'' :: (escape ['\\', '\'', '%', '_'] text.toList ++ ['%']) ++ ['\'']
  likeEndsWith text := '\'' :: ('%' :: escape ['\\', '\'', '%', '_'] text.toList) ++ ['\'']
  date date := if date = "2024-01-15" then some date.toList else none
  datetime _ := none
  number _ := ['7']

theorem exampleCore_lawful : exampleCore.Lawful where
  quote text := ⟨_, escaped_escape (by decide) (by decide) text.toList, rfl⟩
  likeContains text :=
    have hlast : Escaped ['%'] := .char (by decide) (by decide) .nil
    ⟨_, .char (by decide) (by decide)
      ((escaped_escape (by decide) (by decide) text.toList).append hlast), rfl⟩
  likeStartsWith text :=
    have hlast : Escaped ['%'] := .char (by decide) (by decide) .nil
    ⟨_, (escaped_escape (by decide) (by decide) text.toList).append hlast, rfl⟩
  likeEndsWith text :=
    ⟨_, .char (by decide) (by decide)
      (escaped_escape (by decide) (by decide) text.toList), rfl⟩
  date date text h := by
    obtain ⟨rfl, htext⟩ := Option.ite_none_right_eq_some.mp h
    cases htext
    exact ⟨by decide, by decide⟩
  datetime _ _ h := by cases h
  number _ := show Word ['7'] from ⟨by decide, by decide⟩

def exampleParameters (name : String) : Option Parameter :=
  match name with
  | "email" => some (.value (.string "x' OR Email != '"))
  | "amounts" => some (.value (.array [.number (.posInt 7), .null]))
  | "day" => some (.date "2024-01-15")
  | _ => none

def exampleQuery : String :=
  "Email = :email AND Day = :day AND Amount IN :amounts AND Note = 'it\\'s :email'"

def exampleBound : String :=
  "Email = 'x\\' OR Email != \\'' AND Day = 2024-01-15 AND Amount IN (7, null) " ++
    "AND Note = 'it\\'s :email'"

/-- A value that looks like the end of its literal does not end it. -/
theorem bind_tokens_email :
    bind exampleCore exampleParameters exampleQuery = .ok exampleBound ∧
      Binds exampleCore exampleParameters (tokens exampleQuery.toList)
        (tokens exampleBound.toList) := by
  have hbind : bind exampleCore exampleParameters exampleQuery = .ok exampleBound := by
    decide +kernel
  exact ⟨hbind, bind_tokens exampleCore_lawful hbind⟩

end Flowgen.Salesforce.Soql
