/-
# `Flowgen.Web.Router` — the routes of the web API (`app/src/web.rs`)

With `web.auth` every route of the API is behind one middleware: a request is let in
with a session, or else with a machine key that may call the route.  Which handler
runs is decided by the router, on the segments of the path; what a key may call is
decided beside it, by `key_may_call` on the text of the path.

The two agree: what a key may call is never the route of a handler that decides a
change, or that serves what keys are kept from (`not_reserved_of_keyMayCall`).
-/
import Flowgen.Authoring.Change

namespace Flowgen.Web

open Flowgen.Text Flowgen.Authoring

/-! ## Routes -/

inductive Method
  | get
  | head
  | post
  | put
  | patch
  | delete
  | other (name : String)
deriving DecidableEq

inductive Handler
  | listFlows
  | streamFlows
  | getFlow
  | listLogs
  | streamLogs
  | listConnections
  | getConnection
  | listConnectors
  | connectorIcon
  | getClusterStatus
  | regenerateClusterToken
  | getVersion
  | getConfig
  | proxyChat
  | proxyModels
  | listConversations
  | getConversation
  | putConversation
  | deleteConversation
  | validateWorkspace
  | workspaceFile
  | listChanges
  | proposeChange
  | getChange
  | editChange
  | addChangeFiles
  | approveChange
  | rejectChange
  | getOpenapi
  | listResources
  | getResource
deriving DecidableEq

/-- A segment of a route: as it stands, `{name}`, or `{*name}`. -/
inductive Segment
  | literal (text : String)
  | param
  | rest
deriving DecidableEq

structure Route where
  pattern : List Segment
  methods : List (Method × Handler)
deriving DecidableEq

/-- The routes of `router`, after its `api_prefix`.  Where two of them match, the
router prefers the one that stands first here.  `require_agents`, which may still
refuse what reaches the agents, is left out. -/
def routes : List Route :=
  [ ⟨[.literal "flows"], [(.get, .listFlows)]⟩,
    ⟨[.literal "flows", .literal "stream"], [(.get, .streamFlows)]⟩,
    ⟨[.literal "flows", .rest], [(.get, .getFlow)]⟩,
    ⟨[.literal "logs"], [(.get, .listLogs)]⟩,
    ⟨[.literal "logs", .literal "stream"], [(.get, .streamLogs)]⟩,
    ⟨[.literal "connections"], [(.get, .listConnections)]⟩,
    ⟨[.literal "connections", .param], [(.get, .getConnection)]⟩,
    ⟨[.literal "connectors"], [(.get, .listConnectors)]⟩,
    ⟨[.literal "connectors", .param, .literal "icon"], [(.get, .connectorIcon)]⟩,
    ⟨[.literal "cluster"], [(.get, .getClusterStatus)]⟩,
    ⟨[.literal "cluster", .literal "token"], [(.post, .regenerateClusterToken)]⟩,
    ⟨[.literal "version"], [(.get, .getVersion)]⟩,
    ⟨[.literal "config"], [(.get, .getConfig)]⟩,
    ⟨[.literal "agents", .literal "chat"], [(.post, .proxyChat)]⟩,
    ⟨[.literal "agents", .literal "models"], [(.get, .proxyModels)]⟩,
    ⟨[.literal "agents", .literal "conversations"], [(.get, .listConversations)]⟩,
    ⟨[.literal "agents", .literal "conversations", .param],
      [(.get, .getConversation), (.put, .putConversation), (.delete, .deleteConversation)]⟩,
    ⟨[.literal "workspace", .literal "validate"], [(.post, .validateWorkspace)]⟩,
    ⟨[.literal "workspace", .literal "file"], [(.get, .workspaceFile)]⟩,
    ⟨[.literal "changes"], [(.get, .listChanges), (.post, .proposeChange)]⟩,
    ⟨[.literal "changes", .param], [(.get, .getChange), (.patch, .editChange)]⟩,
    ⟨[.literal "changes", .param, .literal "files"], [(.post, .addChangeFiles)]⟩,
    ⟨[.literal "changes", .param, .literal "approve"], [(.post, .approveChange)]⟩,
    ⟨[.literal "changes", .param, .literal "reject"], [(.post, .rejectChange)]⟩,
    ⟨[.literal "openapi.yaml"], [(.get, .getOpenapi)]⟩,
    ⟨[.literal "resources"], [(.get, .listResources)]⟩,
    ⟨[.literal "resources", .rest], [(.get, .getResource)]⟩ ]

/-- What the parameters of a pattern stand for; they are not empty. -/
def matchPattern : List Segment → List String → Option (List String)
  | [], [] => some []
  | [.rest], segments =>
      let text := "/".intercalate segments
      if text = "" then none else some [text]
  | .literal text :: pattern, segment :: segments =>
      if segment = text then matchPattern pattern segments else none
  | .param :: pattern, segment :: segments =>
      if segment = "" then none else (matchPattern pattern segments).map (segment :: ·)
  | _, _ => none

/-- The segments of a path below the API. -/
def segmentsOf (apiPrefix path : String) : Option (List String) :=
  match stripPrefix apiPrefix.toList path.toList with
  | none => none
  | some route =>
      match route.splitOn '/' with
      | [] :: segments => some (segments.map String.ofList)
      | _ => none

def findRoute (segments : List String) : Option (Route × List String) :=
  routes.findSome? fun route => (matchPattern route.pattern segments).map (route, ·)

/-- The handler of a method: a `get` route also answers `HEAD`. -/
def Route.serves (route : Route) (method : Method) : Option Handler :=
  match route.methods.lookup method with
  | some handler => some handler
  | none => if method = .head then route.methods.lookup .get else none

/-! ## What a machine key may call -/

/-- What a key may read. -/
def keyBases : List String :=
  ["/flows", "/resources", "/logs", "/changes", "/version", "/workspace/file"]

/-- Routes a machine key may call. -/
def keyMayCall (apiPrefix : String) (method : Method) (path : String) : Bool :=
  match stripPrefix apiPrefix.toList path.toList with
  | none => false
  | some route =>
      let under (base : String) : Bool :=
        route == base.toList || (stripPrefix (base.toList ++ ['/']) route).isSome
      let change := stripPrefix "/changes/".toList route
      let single (id : List Char) : Bool := !id.isEmpty && !id.contains '/'
      match method with
      | .get => keyBases.any under
      | .post => route == "/changes".toList || route == "/workspace/validate".toList ||
          (change.bind (stripSuffix "/files".toList)).any single
      | .patch => change.any single
      | _ => false

/-- What keys are kept from: deciding and publishing changes, the cluster token, the
config, the connections and the agents. -/
def Handler.reserved : Handler → Bool
  | .approveChange | .rejectChange | .regenerateClusterToken | .getConfig
  | .listConnections | .getConnection | .listConnectors | .connectorIcon
  | .proxyChat | .proxyModels | .listConversations | .getConversation | .putConversation
  | .deleteConversation => true
  | _ => false

/-! ## The two agree -/

/-- A text that ends here or goes on with the next segment. -/
def AtSlash (tail : List Char) : Prop := tail = [] ∨ ∃ more, tail = '/' :: more

/-- A text that starts with a word splits into the word and what is after it. -/
theorem splitOn_word {word tail : List Char} (hword : '/' ∉ word) (htail : AtSlash tail) :
    ∃ more, (word ++ tail).splitOn '/' = word :: more ∧ (tail = [] → more = []) ∧
      ∀ rest, tail = '/' :: rest → more = rest.splitOn '/' := by
  rcases htail with rfl | ⟨rest, rfl⟩
  · rw [List.append_nil, List.splitOn_eq_singleton hword]
    exact ⟨[], rfl, fun _ => rfl, fun rest h => by cases h⟩
  · rw [List.splitOn_append_cons_self_of_not_mem hword]
    refine ⟨rest.splitOn '/', rfl, ?_, ?_⟩
    · intro h
      cases h
    · intro rest' h
      cases h
      rfl

/-- A route that starts with a word has the word as its first segment. -/
theorem segmentsOf_head {apiPrefix path : String} {word tail : List Char}
    {segments : List String} (hword : '/' ∉ word) (htail : AtSlash tail)
    (hstrip : stripPrefix apiPrefix.toList path.toList = some ('/' :: (word ++ tail)))
    (hsegments : segmentsOf apiPrefix path = some segments) :
    ∃ more, segments = String.ofList word :: more ∧
      (tail = [] → more = []) ∧
      ∀ rest, tail = '/' :: rest → more = (rest.splitOn '/').map String.ofList := by
  have hsplit : ('/' :: (word ++ tail)).splitOn '/' = [] :: (word ++ tail).splitOn '/' :=
    List.splitOn_append_cons_self_of_not_mem List.not_mem_nil _
  rw [segmentsOf, hstrip] at hsegments
  obtain ⟨more, hmore, hnil, hcons⟩ := splitOn_word hword htail
  simp only [hsplit, hmore] at hsegments
  cases hsegments
  refine ⟨more.map String.ofList, rfl, ?_, ?_⟩
  · intro h
    rw [hnil h, List.map_nil]
  · intro rest h
    rw [hcons rest h]

/-- What a key may call, on the segments of the path. -/
inductive KeyRoute : Method → List String → Prop
  | read {base : String} {more : List String} :
      base ∈ ["flows", "resources", "logs", "changes", "version", "workspace"] →
      KeyRoute .get (base :: more)
  | propose : KeyRoute .post ["changes"]
  | validate : KeyRoute .post ["workspace", "validate"]
  | addFiles {id : String} : KeyRoute .post ["changes", id, "files"]
  | edit {id : String} : KeyRoute .patch ["changes", id]

/-- A route under one of the bases starts with the word of the base. -/
theorem word_of_under {base : String} {tail : List Char} (hbase : base ∈ keyBases)
    (htail : AtSlash tail) : ∃ word rest, base.toList ++ tail = '/' :: (word ++ rest) ∧
      '/' ∉ word ∧ AtSlash rest ∧ String.ofList word ∈
        ["flows", "resources", "logs", "changes", "version", "workspace"] := by
  simp only [keyBases, List.mem_cons, List.not_mem_nil, or_false] at hbase
  rcases hbase with rfl | rfl | rfl | rfl | rfl | rfl
  · exact ⟨"flows".toList, tail, rfl, by decide, htail, by decide⟩
  · exact ⟨"resources".toList, tail, rfl, by decide, htail, by decide⟩
  · exact ⟨"logs".toList, tail, rfl, by decide, htail, by decide⟩
  · exact ⟨"changes".toList, tail, rfl, by decide, htail, by decide⟩
  · exact ⟨"version".toList, tail, rfl, by decide, htail, by decide⟩
  · exact ⟨"workspace".toList, '/' :: ("file".toList ++ tail), rfl, by decide,
      .inr ⟨_, rfl⟩, by decide⟩

/-- The route of a single change, or what is below it. -/
theorem segmentsOf_change {apiPrefix path : String} {id tail : List Char}
    {segments : List String} (hid : '/' ∉ id) (htail : AtSlash tail)
    (hstrip : stripPrefix apiPrefix.toList path.toList =
      some ("/changes/".toList ++ (id ++ tail)))
    (hsegments : segmentsOf apiPrefix path = some segments) :
    ∃ more, segments = "changes" :: String.ofList id :: more ∧
      (tail = [] → more = []) ∧
      ∀ rest, tail = '/' :: rest → more = (rest.splitOn '/').map String.ofList := by
  obtain ⟨more, rfl, _, hmore⟩ := @segmentsOf_head _ _ "changes".toList ('/' :: (id ++ tail)) _
    (by decide) (.inr ⟨_, rfl⟩) hstrip hsegments
  rw [hmore _ rfl]
  obtain ⟨more, heq, hnil, hcons⟩ := splitOn_word hid htail
  rw [heq]
  refine ⟨more.map String.ofList, rfl, ?_, ?_⟩
  · intro h
    rw [hnil h, List.map_nil]
  · intro rest h
    rw [hcons rest h]

theorem keyRoute_of_keyMayCall {apiPrefix path : String} {method : Method}
    {segments : List String} (h : keyMayCall apiPrefix method path = true)
    (hsegments : segmentsOf apiPrefix path = some segments) : KeyRoute method segments := by
  rw [keyMayCall] at h
  split at h
  · cases h
  · rename_i route hstrip
    simp only at h
    split at h
    · obtain ⟨base, hbase, hunder⟩ := List.any_eq_true.mp h
      obtain ⟨tail, htail, hroute⟩ : ∃ tail, AtSlash tail ∧ route = base.toList ++ tail := by
        rcases Bool.or_eq_true_iff.mp hunder with heq | hbelow
        · exact ⟨[], .inl rfl, by rw [List.append_nil]; exact beq_iff_eq.mp heq⟩
        · obtain ⟨rest, hrest⟩ := Option.isSome_iff_exists.mp hbelow
          refine ⟨'/' :: rest, .inr ⟨rest, rfl⟩, ?_⟩
          rw [stripPrefix_eq_some.mp hrest, List.append_assoc, List.singleton_append]
      obtain ⟨word, rest, hword, hslash, hrest, hmem⟩ := word_of_under hbase htail
      rw [hroute, hword] at hstrip
      obtain ⟨more, rfl, _⟩ := segmentsOf_head hslash hrest hstrip hsegments
      exact .read hmem
    · rcases Bool.or_eq_true_iff.mp h with h | hfiles
      · rcases Bool.or_eq_true_iff.mp h with hchanges | hvalidate
        · rw [beq_iff_eq.mp hchanges] at hstrip
          obtain ⟨more, rfl, hnil, _⟩ := @segmentsOf_head _ _ "changes".toList [] _
            (by decide) (.inl rfl) hstrip hsegments
          rw [hnil rfl]
          exact .propose
        · rw [beq_iff_eq.mp hvalidate] at hstrip
          obtain ⟨more, rfl, _, hmore⟩ := @segmentsOf_head _ _ "workspace".toList
            "/validate".toList _ (by decide) (.inr ⟨_, rfl⟩) hstrip hsegments
          rw [hmore "validate".toList rfl]
          exact .validate
      · obtain ⟨id, hid, hsingle⟩ := (Option.any_eq_true _ _).mp hfiles
        obtain ⟨change, hchange, hsuffix⟩ := Option.bind_eq_some_iff.mp hid
        have hslash : '/' ∉ id := by
          simpa using (Bool.and_eq_true_iff.mp hsingle).2
        rw [stripPrefix_eq_some.mp hchange, stripSuffix_eq_some.mp hsuffix] at hstrip
        obtain ⟨more, rfl, _, hmore⟩ := segmentsOf_change hslash (.inr ⟨_, rfl⟩) hstrip hsegments
        rw [hmore "files".toList rfl]
        exact .addFiles
    · obtain ⟨id, hid, hsingle⟩ := (Option.any_eq_true _ _).mp h
      have hslash : '/' ∉ id := by
        simpa using (Bool.and_eq_true_iff.mp hsingle).2
      have hstrip' : stripPrefix apiPrefix.toList path.toList =
          some ("/changes/".toList ++ (id ++ [])) := by
        rw [hstrip, stripPrefix_eq_some.mp hid, List.append_nil]
      obtain ⟨more, rfl, hnil, _⟩ := segmentsOf_change hslash (.inl rfl) hstrip' hsegments
      rw [hnil rfl]
      exact .edit
    · cases h

theorem literal_of_matchPattern {text segment : String} {pattern : List Segment}
    {segments params : List String}
    (h : matchPattern (.literal text :: pattern) (segment :: segments) = some params) :
    segment = text := by
  rw [matchPattern] at h
  exact (Option.ite_none_right_eq_some.mp h).1

/-- Where the handlers stand that keys are kept from: by their first words for `GET`,
in full for `POST`, and nowhere for `PATCH`. -/
theorem reserved_get : ∀ route ∈ routes, (route.serves .get).any Handler.reserved = true →
    route.pattern.head? ∈ ["connections", "connectors", "config", "agents"].map
      (fun text => some (Segment.literal text)) := by
  decide

theorem reserved_post : ∀ route ∈ routes, (route.serves .post).any Handler.reserved = true →
    route.pattern ∈ [[.literal "cluster", .literal "token"], [.literal "agents", .literal "chat"],
      [.literal "changes", .param, .literal "approve"],
      [.literal "changes", .param, .literal "reject"]] := by
  decide

theorem reserved_patch : ∀ route ∈ routes,
    (route.serves .patch).any Handler.reserved = false := by
  decide

theorem findRoute_eq_some {segments params : List String} {route : Route}
    (h : findRoute segments = some (route, params)) :
    route ∈ routes ∧ matchPattern route.pattern segments = some params := by
  obtain ⟨found, hfound, hmatch⟩ := List.exists_of_findSome?_eq_some h
  obtain ⟨params', hparams, heq⟩ := Option.map_eq_some_iff.mp hmatch
  cases heq
  exact ⟨hfound, hparams⟩

/-- What a key may call is not the route of a handler that keys are kept from. -/
theorem KeyRoute.not_reserved {method : Method} {segments params : List String} {route : Route}
    {handler : Handler} (h : KeyRoute method segments)
    (hroute : findRoute segments = some (route, params))
    (hserves : route.serves method = some handler) : handler.reserved = false := by
  obtain ⟨hmem, hmatch⟩ := findRoute_eq_some hroute
  by_contra hreserved
  have hany : (route.serves method).any Handler.reserved = true := by
    rw [hserves]
    simpa using hreserved
  cases h with
  | @read base more hbase =>
      obtain ⟨text, htext, hhead⟩ := List.mem_map.mp (reserved_get route hmem hany)
      cases hpattern : route.pattern with
      | nil =>
          rw [hpattern] at hhead
          cases hhead
      | cons segment pattern =>
          rw [hpattern] at hhead hmatch
          cases hhead
          rw [literal_of_matchPattern hmatch] at hbase
          have hapart : ∀ text ∈ ["flows", "resources", "logs", "changes", "version", "workspace"],
              text ∉ ["connections", "connectors", "config", "agents"] := by
            decide
          exact hapart text hbase htext
  | propose =>
      have hfound : findRoute ["changes"] =
          some (⟨[.literal "changes"], [(.get, .listChanges), (.post, .proposeChange)]⟩, []) := by
        decide
      rw [hfound] at hroute
      cases hroute
      revert hany
      decide
  | validate =>
      have hfound : findRoute ["workspace", "validate"] =
          some (⟨[.literal "workspace", .literal "validate"], [(.post, .validateWorkspace)]⟩,
            []) := by
        decide
      rw [hfound] at hroute
      cases hroute
      revert hany
      decide
  | addFiles =>
      have hpattern := reserved_post route hmem hany
      simp only [List.mem_cons, List.not_mem_nil, or_false] at hpattern
      rcases hpattern with h | h | h | h <;> simp [h, matchPattern] at hmatch
  | edit =>
      rw [reserved_patch route hmem] at hany
      cases hany

/-- The router gives no handler that keys are kept from to what a key may call. -/
theorem not_reserved_of_keyMayCall {apiPrefix path : String} {method : Method}
    {segments params : List String} {route : Route} {handler : Handler}
    (h : keyMayCall apiPrefix method path = true)
    (hsegments : segmentsOf apiPrefix path = some segments)
    (hroute : findRoute segments = some (route, params))
    (hserves : route.serves method = some handler) : handler.reserved = false :=
  (keyRoute_of_keyMayCall h hsegments).not_reserved hroute hserves

end Flowgen.Web
