/-
# `Flowgen.Web.Editing` — who edits a change (`app/src/web.rs`, `app/src/authoring.rs`)

With `web.auth` a request comes from a signed-in user or with a machine key.  The
middleware hands the caller on to the handlers; a proposal keeps the caller's label,
and an edit is let through if the editor's label is the same.  The label is a text for
audit fields: a user's email, or the user id, or `key:` and the name of a key.

So an edit is by the proposer as long as callers with the same label are the same
caller.  Two users with the same email are not, nor a user whose email is that of a
key's label; then one of them edits what the other has proposed
(`edits_by_proposer_iff`).

Each change is the machine of `Flowgen.Authoring.Review`: handlers that load it, and
write it later over what they have loaded.
-/
import Flowgen.Web.Router
import Flowgen.Authoring.Review
import Flowgen.Mcp.Server

namespace Flowgen.Web

open Flowgen.Lib Flowgen.Text Flowgen.Authoring

/-! ## Callers -/

/-- A named machine key. -/
structure ApiKey where
  name : String
  key : String
deriving DecidableEq

/-- Who stands behind a request. -/
inductive Principal
  | user (context : UserContext)
  | key (apiKey : ApiKey)

/-- What the handlers are told of it. -/
def Principal.caller : Principal → Caller
  | .user context => .user context
  | .key apiKey => .key apiKey.name

/-- The same user id, or the same key. -/
def Principal.Same : Principal → Principal → Prop
  | .user context, .user context' => context.userId = context'.userId
  | .key apiKey, .key apiKey' => apiKey = apiKey'
  | _, _ => False

/-- What a request authenticates with: what `resolve_session` makes of its cookie, and
its `Authorization` header. -/
structure Credentials where
  session : Option UserContext
  authorization : Option String

/-- Shortest machine key that is accepted, in bytes. -/
def minApiKeyLen : Nat := 32

def matchingKey (keys : List ApiKey) (authorization : Option String) : Option ApiKey :=
  (authorization.bind Mcp.extractBearerToken).bind fun token =>
    keys.find? fun key =>
      minApiKeyLen ≤ (key.key.toList.map Char.utf8Size).sum && key.key == token

def validId (id : String) : Bool :=
  !id.toList.isEmpty &&
    id.toList.all fun c => ('0' ≤ c && c ≤ '9') || ('a' ≤ c && c ≤ 'f')

/-- The configuration of the web server, with `web.auth`.  What the router makes of a
path parameter is given from outside. -/
structure Deployment where
  path : String
  apiKeys : List ApiKey
  authoring : Option AuthoringOptions
  decode : String → Option String
  /-- Percent-decoding leaves an id as it is. -/
  decode_id : ∀ id, validId id = true → decode id = some id
  names_nodup : (apiKeys.map (·.name)).Nodup

namespace Deployment

variable (d : Deployment)

/-- `WebState::prefix`. -/
def statePrefix : String := String.ofList (d.path.toList.rdropWhile (· == '/'))

/-- The API's path in `router`. -/
def apiPrefix : String :=
  if d.statePrefix = "" then "/api" else d.statePrefix ++ "/api"

def authenticate (credentials : Credentials) : Option Principal :=
  match credentials.session with
  | some context => some (.user context)
  | none => (matchingKey d.apiKeys credentials.authorization).map .key

end Deployment

/-- What the handler's extractor makes of the body of a request. -/
inductive Body
  | proposal (title : String) (description : Option String) (files : List WorkspaceFile)
  | edit (title description : Option String)
  | files (files : List WorkspaceFile)
  | other

structure HttpRequest where
  credentials : Credentials
  method : Method
  path : String
  /-- `updatedAt` of the query. -/
  updatedAt : Option Int
  body : Body

inductive Outcome
  /-- Not of the API. -/
  | fallback
  | unauthorized
  | forbidden
  | methodNotAllowed
  | reached (principal : Principal) (handler : Handler) (params : List String)

/-- A key that may not call the route. -/
def Deployment.refuses (d : Deployment) (request : HttpRequest) : Principal → Bool
  | .user _ => false
  | .key _ => !keyMayCall (d.statePrefix ++ "/api") request.method request.path

/-- `router` with `auth_middleware`, which stands around the routes of the API. -/
def Deployment.dispatch (d : Deployment) (request : HttpRequest) : Outcome :=
  match (segmentsOf d.apiPrefix request.path).bind findRoute with
  | none => .fallback
  | some (route, params) =>
      match d.authenticate request.credentials with
      | none => .unauthorized
      | some principal =>
          if d.refuses request principal then .forbidden
          else
            match route.serves request.method with
            | none => .methodNotAllowed
            | some handler => .reached principal handler params

/-! ## Proposals (`app/src/authoring.rs`) -/

def checkProposal (title : String) (files : List WorkspaceFile) : Except Error (List Location) :=
  if isBlank title then .error .missingTitle else checkPaths files

def proposeChange (env : Env) (authoring : AuthoringOptions) (caller : Option Caller) (id : String)
    (title : String) (description : Option String) (files : List WorkspaceFile) :
    Except Error Change :=
  match checkProposal title files with
  | .error error => .error error
  | .ok _ =>
      match targetFor authoring (files.map (·.path)) with
      | .error error => .error error
      | .ok target =>
          .ok {
            id := id
            target := target.name
            title := title
            description := description
            status := .pending
            proposedBy := callerLabel caller
            createdAt := env.now
            updatedAt := some env.now
            decidedBy := none
            decidedAt := none
            issues := env.validate files
            files := files.map fun file => ⟨file.path, file.content, env.base file.path⟩
            result := []
            error := none }

/-! ## The machine -/

/-- A request that has loaded a change: which of the calls on the change it is. -/
structure InFlight where
  principal : Principal
  id : String
  index : Nat

structure State where
  reviews : String → Option Authoring.State
  inFlight : List InFlight
  /-- Whose `propose_change` created a change, what was reached by whom, and who has
  edited which change with success.  The program does not keep this. -/
  proposers : String → Option Principal
  reached : List (Principal × Handler)
  edits : List (Principal × String)

/-- No change has been proposed. -/
def State.initial : State := ⟨fun _ => none, [], fun _ => none, [], []⟩

inductive Action
  /-- A request is routed and handled up to its write; a proposal also writes.  A new
  change has this id, and its record this revision. -/
  | request (request : HttpRequest) (env : Env) (id : String) (revision : Nat)
  /-- The request writes what it has made of the change it has loaded. -/
  | write (call : Nat) (env : Env) (revision : Nat)
  /-- The request fails on the way, or is dropped. -/
  | fail (call : Nat)
  /-- The publish attempts of the approvals go on. -/
  | attempt (id : String) (i : Nat) (event : Event)
  | record (id : String) (i : Nat) (revision : Nat) (replied : Bool)

/-- What is asked of a change that exists. -/
def Handler.asks (handler : Handler) (request : HttpRequest) : Option Authoring.Request :=
  match handler with
  | .editChange =>
      match request.body with
      | .edit title description => some (.edit title description)
      | _ => none
  | .addChangeFiles =>
      match request.body with
      | .files files => some (.addFiles files)
      | _ => none
  | .approveChange => some (.approve request.updatedAt)
  | .rejectChange => some .reject
  | _ => none

/-- The change is loaded by a request of the caller. -/
def State.load (s : State) (principal : Principal) (id : String) (asked : Authoring.Request) :
    State :=
  match s.reviews id with
  | none => s
  | some review =>
      match Authoring.step review (.load asked) with
      | none => s
      | some review' =>
          { s with
            reviews := Function.update s.reviews id (some review')
            inFlight := s.inFlight ++ [⟨principal, id, review.calls.length⟩] }

/-- A proposal is stored; ids are UUIDs, and never drawn twice. -/
def State.propose (s : State) (principal : Principal) (change : Change) (revision : Nat) :
    Option State :=
  if validId change.id ∧ s.reviews change.id = none then
    some { s with
      reviews := Function.update s.reviews change.id (some (.start change revision))
      proposers := Function.update s.proposers change.id (some principal) }
  else none

/-- A handler that was reached, up to its write. -/
def Deployment.handle (d : Deployment) (s : State) (principal : Principal) (handler : Handler)
    (params : List String) (request : HttpRequest) (env : Env) (id : String) (revision : Nat) :
    Option State :=
  match d.authoring with
  | none => some s
  | some authoring =>
      match handler with
      | .proposeChange =>
          match request.body with
          | .proposal title description files =>
              match
                proposeChange env authoring (some principal.caller) id title description files with
              | .error _ => some s
              | .ok change => s.propose principal change revision
          | _ => some s
      | handler =>
          match handler.asks request with
          | none => some s
          | some asked =>
              match params.head?.bind d.decode with
              | none => some s
              | some id => some (if validId id then s.load principal id asked else s)

/-- The call has edited the change. -/
def edited (call : Authoring.Call) : Bool :=
  match call.phase, call.request with
  | .written, .edit _ _ => true
  | .written, .addFiles _ => true
  | _, _ => false

/-- A review goes on. -/
def State.review (s : State) (id : String) (act : Authoring.Act) :
    Option (Authoring.State × State) :=
  match s.reviews id with
  | none => none
  | some review =>
      (Authoring.step review act).map fun review' =>
        (review', { s with reviews := Function.update s.reviews id (some review') })

def Deployment.step (d : Deployment) (s : State) : Action → Option State
  | .request request env id revision =>
      match d.dispatch request with
      | .reached principal handler params =>
          d.handle { s with reached := (principal, handler) :: s.reached } principal handler params
            request env id revision
      | _ => some s
  | .write call env revision =>
      match s.inFlight[call]? with
      | none => none
      | some c =>
          match d.authoring with
          | none => none
          | some authoring =>
              let env := { env with authoring := authoring, caller := some c.principal.caller }
              (s.review c.id (.write c.index env revision)).map fun (review, s) =>
                if review.calls[c.index]?.any edited then
                  { s with edits := (c.principal, c.id) :: s.edits }
                else s
  | .fail call =>
      match s.inFlight[call]? with
      | none => none
      | some c => (s.review c.id (.fail c.index)).map (·.2)
  | .attempt id i event => (s.review id (.attempt i event)).map (·.2)
  | .record id i revision replied => (s.review id (.record i revision replied)).map (·.2)

attribute [grind =] Deployment.step

def Deployment.api (d : Deployment) : Machine State Action where
  init s := s = State.initial
  step := d.step

/-- The sessions are those of these users. -/
def SignedIn (users : UserContext → Prop) (_ : State) : Action → Prop
  | .request request _ _ _ => ∀ context, request.credentials.session = some context → users context
  | _ => True

/-! ## Who may edit, and what keys reach -/

/-- Every edit is by the proposer of the change, and no key has reached a handler that
keys are kept from. -/
structure Guarded (s : State) : Prop where
  edits : ∀ principal id, (principal, id) ∈ s.edits →
    ∃ proposer, s.proposers id = some proposer ∧ principal.Same proposer
  reached : ∀ key handler, (.key key, handler) ∈ s.reached → handler.reserved = false

/-- The users and the keys that can authenticate. -/
def Deployment.Calls (d : Deployment) (users : UserContext → Prop) (principal : Principal) : Prop :=
  ∃ credentials, (∀ context, credentials.session = some context → users context) ∧
    d.authenticate credentials = some principal

/-- Callers with the same label are the same caller. -/
def Deployment.Distinguished (d : Deployment) (users : UserContext → Prop) : Prop :=
  ∀ p q, d.Calls users p → d.Calls users q → p.caller.label = q.caller.label → p.Same q

/-- Some proposal passes its checks. -/
def Deployment.Proposable (d : Deployment) : Prop :=
  ∃ authoring title files locations target, d.authoring = some authoring ∧
    checkProposal title files = .ok locations ∧
    targetFor authoring (files.map (·.path)) = .ok target

/-! ## What a request reaches -/

theorem apiPrefix_eq (d : Deployment) : d.apiPrefix = d.statePrefix ++ "/api" := by
  rw [Deployment.apiPrefix]
  split
  · rename_i hempty
    rw [hempty]
    rfl
  · rfl

/-- Who reaches a handler has authenticated, and a key reaches none that keys are kept
from. -/
theorem dispatch_reached {d : Deployment} {request : HttpRequest} {principal : Principal}
    {handler : Handler} {params : List String}
    (h : d.dispatch request = .reached principal handler params) :
    d.authenticate request.credentials = some principal ∧
      ∀ apiKey, principal = .key apiKey → handler.reserved = false := by
  rw [Deployment.dispatch] at h
  split at h
  · cases h
  · rename_i route params' hroute
    split at h
    · cases h
    · rename_i principal' hprincipal
      split at h
      · cases h
      · rename_i hrefuses
        split at h
        · cases h
        · rename_i handler' hserves
          cases h
          refine ⟨hprincipal, ?_⟩
          rintro apiKey rfl
          obtain ⟨segments, hsegments, hfound⟩ := Option.bind_eq_some_iff.mp hroute
          have hmay : keyMayCall d.apiPrefix request.method request.path = true := by
            rw [apiPrefix_eq]
            simpa [Deployment.refuses] using hrefuses
          exact not_reserved_of_keyMayCall hmay hsegments hfound hserves

/-! ## What is kept -/

/-- Entries after one was added. -/
theorem update_eq_some {α : Type} {f : String → Option α} {key key' : String} {x y : α} :
    Function.update f key (some x) key' = some y ↔
      key' = key ∧ x = y ∨ key' ≠ key ∧ f key' = some y := by
  by_cases h : key' = key
  · subst h
    simp
  · simp [h]

theorem update_eq_none {α : Type} {f : String → Option α} {key key' : String} {x : α} :
    Function.update f key (some x) key' = none ↔ key' ≠ key ∧ f key' = none := by
  by_cases h : key' = key
  · subst h
    simp
  · simp [h]

/-- A call that has edited the change was let through. -/
theorem editable_of_edited {review review' : Authoring.State} {i revision : Nat} {env : Env}
    (h : Authoring.step review (.write i env revision) = some review')
    (he : review'.calls[i]?.any edited = true) :
    ∃ call ∈ review.calls, editable env.caller call.change = .ok () := by
  obtain ⟨c, hi, hwrite⟩ := Option.bind_eq_some_iff.mp h
  have hset : ∀ phase, (review.calls.set i { c with phase := phase })[i]? =
      some { c with phase := phase } := by
    intro phase
    exact List.getElem?_set_self (List.getElem?_eq_some_iff.mp hi).1
  refine ⟨c, List.mem_of_getElem? hi, ?_⟩
  rw [Authoring.State.write] at hwrite
  split at hwrite
  · cases hwrite
    rw [Authoring.State.setCall, hset] at he
    cases he
  · rename_i new data hphase happly
    split at hwrite
    · obtain ⟨record, _, rfl⟩ := Option.map_eq_some_iff.mp hwrite
      simp only [Authoring.State.setCall, hset, Option.any_some] at he
      cases hrequest : c.request with
      | edit title description =>
          rw [hrequest] at happly
          obtain ⟨_, hok, _⟩ := map_eq_ok happly
          exact (editChange_proposedBy hok).2
      | addFiles files =>
          rw [hrequest] at happly
          obtain ⟨_, hok, _⟩ := map_eq_ok happly
          exact (addChangeFiles_proposedBy hok).2
      | approve reviewed =>
          rw [edited, hrequest] at he
          cases he
      | reject =>
          rw [edited, hrequest] at he
          cases he
    · cases hwrite
      rw [Authoring.State.setCall, hset] at he
      cases he
  · cases hwrite

section Kept

variable {d : Deployment} {users : UserContext → Prop} {s t : State}

/-- Every change passed the checks of a proposal, and has one proposer, a caller, whose
label all its versions name. -/
structure Inv (d : Deployment) (users : UserContext → Prop) (s : State) : Prop where
  guarded : Guarded s
  unproposed : ∀ id, s.reviews id = none → s.proposers id = none
  reviews : ∀ id review, s.reviews id = some review → d.Proposable ∧ Orderly review ∧
    ∃ proposer, s.proposers id = some proposer ∧ d.Calls users proposer ∧
      ProposedBy proposer.caller.label review
  inFlight : ∀ c ∈ s.inFlight, d.Calls users c.principal

theorem Inv.initial : Inv d users State.initial where
  guarded := by
    constructor
    · intro principal id h
      cases h
    · intro apiKey handler h
      cases h
  unproposed := fun _ _ => rfl
  reviews := by
    intro id review h
    cases h
  inFlight := List.forall_mem_nil _

theorem State.review_eq_some {id : String} {act : Authoring.Act} {review' : Authoring.State}
    (h : s.review id act = some (review', t)) :
    ∃ review, s.reviews id = some review ∧ Authoring.step review act = some review' ∧
      t = { s with reviews := Function.update s.reviews id (some review') } := by
  rw [State.review] at h
  split at h
  · cases h
  · rename_i review hreview
    obtain ⟨_, hstep, heq⟩ := Option.map_eq_some_iff.mp h
    cases heq
    exact ⟨review, hreview, hstep, rfl⟩

/-- A review that goes on keeps its proposer. -/
theorem Inv.step_review (hs : Inv d users s) {id : String} {act : Authoring.Act}
    {review review' : Authoring.State} (hreview : s.reviews id = some review)
    (hstep : Authoring.step review act = some review') :
    Inv d users { s with reviews := Function.update s.reviews id (some review') } where
  guarded := ⟨hs.guarded.edits, hs.guarded.reached⟩
  unproposed := by
    intro id' h
    exact hs.unproposed id' (update_eq_none.mp h).2
  reviews := by
    intro id' other h
    rcases update_eq_some.mp h with ⟨rfl, rfl⟩ | ⟨_, h⟩
    · obtain ⟨hprop, horderly, proposer, hproposer, hcalls, hlabel⟩ :=
        hs.reviews id' review hreview
      have hspec := step_spec hstep
      exact ⟨hprop, horderly.step hspec, proposer, hproposer, hcalls, hlabel.step horderly hspec⟩
    · exact hs.reviews id' other h
  inFlight := hs.inFlight

theorem Inv.review (hs : Inv d users s) {id : String} {act : Authoring.Act}
    {review' : Authoring.State} (h : s.review id act = some (review', t)) : Inv d users t := by
  obtain ⟨review, hreview, hstep, rfl⟩ := State.review_eq_some h
  exact hs.step_review hreview hstep

theorem Inv.reach (hs : Inv d users s) {principal : Principal} {handler : Handler}
    (h : ∀ apiKey, principal = .key apiKey → handler.reserved = false) :
    Inv d users { s with reached := (principal, handler) :: s.reached } where
  guarded := by
    refine ⟨hs.guarded.edits, ?_⟩
    intro apiKey handler' hmem
    rcases List.mem_cons.mp hmem with heq | hmem
    · cases heq
      exact h apiKey rfl
    · exact hs.guarded.reached apiKey handler' hmem
  unproposed := hs.unproposed
  reviews := hs.reviews
  inFlight := hs.inFlight

/-- An edit by the proposer is recorded. -/
theorem Inv.edit (hs : Inv d users s) {principal proposer : Principal} {id : String}
    (hproposer : s.proposers id = some proposer) (hsame : principal.Same proposer) :
    Inv d users { s with edits := (principal, id) :: s.edits } where
  guarded := by
    refine ⟨?_, hs.guarded.reached⟩
    intro principal' id' hmem
    rcases List.mem_cons.mp hmem with heq | hmem
    · cases heq
      exact ⟨proposer, hproposer, hsame⟩
    · exact hs.guarded.edits principal' id' hmem
  unproposed := hs.unproposed
  reviews := hs.reviews
  inFlight := hs.inFlight

theorem Inv.load (hs : Inv d users s) {principal : Principal} (hp : d.Calls users principal)
    (id : String) (asked : Authoring.Request) : Inv d users (s.load principal id asked) := by
  rw [State.load]
  split
  · exact hs
  · rename_i review hreview
    split
    · exact hs
    · rename_i review' hstep
      have hkept := hs.step_review hreview hstep
      refine ⟨⟨hkept.guarded.edits, hkept.guarded.reached⟩, hkept.unproposed, hkept.reviews, ?_⟩
      intro c hc
      rcases List.mem_append.mp hc with hc | hc
      · exact hs.inFlight c hc
      · rw [List.mem_singleton.mp hc]
        exact hp

/-- A new change is of the caller who proposes it; the others keep their proposers. -/
theorem Inv.propose (hs : Inv d users s) {principal : Principal} (hp : d.Calls users principal)
    (hprop : d.Proposable) {change : Change} {revision : Nat} (hlabel : change.proposedBy = principal.caller.label)
    (h : s.propose principal change revision = some t) : Inv d users t := by
  obtain ⟨⟨_, hnew⟩, ht⟩ := Option.ite_none_right_eq_some.mp h
  cases ht
  have hkept : ∀ id proposer, s.proposers id = some proposer →
      Function.update s.proposers change.id (some principal) id = some proposer := by
    intro id proposer hproposer
    refine update_eq_some.mpr (.inr ⟨?_, hproposer⟩)
    rintro rfl
    rw [hs.unproposed _ hnew] at hproposer
    cases hproposer
  constructor
  · refine ⟨?_, hs.guarded.reached⟩
    intro editor id hmem
    obtain ⟨proposer, hproposer, hsame⟩ := hs.guarded.edits editor id hmem
    exact ⟨proposer, hkept id proposer hproposer, hsame⟩
  · intro id hid
    obtain ⟨hne, hnone⟩ := update_eq_none.mp hid
    exact update_eq_none.mpr ⟨hne, hs.unproposed id hnone⟩
  · intro id review hreview
    rcases update_eq_some.mp hreview with ⟨rfl, rfl⟩ | ⟨_, hreview⟩
    · exact ⟨hprop, orderly_start change revision, principal, Function.update_self .., hp,
        hlabel ▸ proposedBy_start change revision⟩
    · obtain ⟨hold, horderly, proposer, hproposer, hcalls, hversions⟩ :=
        hs.reviews id review hreview
      exact ⟨hold, horderly, proposer, hkept id proposer hproposer, hcalls, hversions⟩
  · exact hs.inFlight

/-- A proposal that succeeds has passed its checks. -/
theorem proposeChange_eq_ok {env : Env} {authoring : AuthoringOptions} {caller : Caller}
    {id title : String} {description : Option String} {files : List WorkspaceFile} {change : Change}
    (h : proposeChange env authoring (some caller) id title description files = .ok change) :
    change.proposedBy = caller.label ∧ ∃ locations target,
      checkProposal title files = .ok locations ∧
      targetFor authoring (files.map (·.path)) = .ok target := by
  rw [proposeChange] at h
  split at h
  · cases h
  · rename_i locations hlocations
    split at h
    · cases h
    · rename_i target htarget
      cases h
      exact ⟨rfl, locations, target, hlocations, htarget⟩

theorem Inv.handle (hs : Inv d users s) {principal : Principal} (hp : d.Calls users principal)
    {handler : Handler} {params : List String} {request : HttpRequest} {env : Env} {id : String}
    {revision : Nat}
    (h : d.handle s principal handler params request env id revision = some t) :
    Inv d users t := by
  unfold Deployment.handle at h
  split at h
  · cases h
    exact hs
  · rename_i authoring hauthoring
    split at h
    · split at h
      · split at h
        · cases h
          exact hs
        · rename_i title description files _ _ change hchange
          obtain ⟨hlabel, locations, target, hlocations, htarget⟩ := proposeChange_eq_ok hchange
          have hprop : d.Proposable :=
            ⟨authoring, title, files, locations, target, hauthoring, hlocations, htarget⟩
          exact hs.propose hp hprop hlabel h
      · cases h
        exact hs
    · split at h
      · cases h
        exact hs
      · rename_i asked _
        split at h
        · cases h
          exact hs
        · cases h
          split
          · exact hs.load hp _ asked
          · exact hs

/-- A write that edits the change is by a caller with the label of its proposer. -/
theorem Inv.write (hs : Inv d users s) (hlabels : d.Proposable → d.Distinguished users) {c : InFlight}
    (hc : c ∈ s.inFlight) {env : Env} {revision : Nat} {review' : Authoring.State} {u : State}
    (hcaller : env.caller = some c.principal.caller)
    (h : s.review c.id (.write c.index env revision) = some (review', u)) :
    Inv d users (if review'.calls[c.index]?.any edited then
      { u with edits := (c.principal, c.id) :: u.edits } else u) := by
  have hu : Inv d users u := hs.review h
  split
  · rename_i hedited
    obtain ⟨review, hreview, hstep, rfl⟩ := State.review_eq_some h
    obtain ⟨hprop, horderly, proposer, hproposer, hcalls, hlabel⟩ :=
      hs.reviews c.id review hreview
    obtain ⟨call, hcall, heditable⟩ := editable_of_edited hstep hedited
    rw [hcaller] at heditable
    have hsame : c.principal.Same proposer := by
      apply hlabels hprop _ _ (hs.inFlight c hc) hcalls
      rw [label_of_editable heditable]
      exact hlabel _ (horderly.calls call hcall).mem_versions
    exact hu.edit hproposer hsame
  · exact hu

theorem Inv.step (hs : Inv d users s) (hlabels : d.Proposable → d.Distinguished users) {a : Action}
    (ha : SignedIn users s a) (h : d.step s a = some t) : Inv d users t := by
  cases a with
  | request request env id revision =>
      simp only [Deployment.step] at h
      split at h
      · rename_i principal handler params hreached
        obtain ⟨hprincipal, hreserved⟩ := dispatch_reached hreached
        exact (hs.reach hreserved).handle ⟨request.credentials, ha, hprincipal⟩ h
      · cases h
        exact hs
  | write call env revision =>
      simp only [Deployment.step] at h
      split at h
      · cases h
      · rename_i c hc
        split at h
        · cases h
        · obtain ⟨⟨review', u⟩, hreview, rfl⟩ := Option.map_eq_some_iff.mp h
          exact hs.write hlabels (List.mem_of_getElem? hc) rfl hreview
  | fail call =>
      simp only [Deployment.step] at h
      split at h
      · cases h
      · obtain ⟨⟨review', u⟩, hreview, rfl⟩ := Option.map_eq_some_iff.mp h
        exact hs.review hreview
  | attempt id i event =>
      obtain ⟨⟨review', u⟩, hreview, rfl⟩ := Option.map_eq_some_iff.mp h
      exact hs.review hreview
  | record id i revision replied =>
      obtain ⟨⟨review', u⟩, hreview, rfl⟩ := Option.map_eq_some_iff.mp h
      exact hs.review hreview

end Kept

/-! ## An edit with the same label -/

theorem segmentsOf_append (apiPrefix route : String) :
    segmentsOf apiPrefix (apiPrefix ++ route) = segmentsOf "" route := by
  have hempty : stripPrefix "".toList route.toList = some route.toList :=
    stripPrefix_eq_some.mpr rfl
  rw [segmentsOf, segmentsOf, String.toList_append, stripPrefix_eq_some.mpr rfl, hempty]

/-- What keys may call on a single change, under any path of the API. -/
theorem keyMayCall_append {apiPrefix route : String} {method : Method}
    (h : keyMayCall "" method route = true) :
    keyMayCall apiPrefix method (apiPrefix ++ route) = true := by
  rw [keyMayCall] at h ⊢
  rw [String.toList_append, stripPrefix_eq_some.mpr rfl]
  exact h

/-- A request that a key may make reaches the handler of its route. -/
theorem dispatch_eq {d : Deployment} {request : HttpRequest} {segments params : List String}
    {route : Route} {handler : Handler} {principal : Principal}
    (hsegments : segmentsOf d.apiPrefix request.path = some segments)
    (hroute : findRoute segments = some (route, params))
    (hmay : keyMayCall d.apiPrefix request.method request.path = true)
    (hserves : route.serves request.method = some handler)
    (hprincipal : d.authenticate request.credentials = some principal) :
    d.dispatch request = .reached principal handler params := by
  have hrefuses : d.refuses request principal = false := by
    rw [apiPrefix_eq] at hmay
    cases principal with
    | user context => rfl
    | key apiKey => simp [Deployment.refuses, hmay]
  simp [Deployment.dispatch, hsegments, hroute, hprincipal, hrefuses, hserves]

/-- An edit that changes nothing but the stamp, of a change that was just proposed. -/
theorem edit_start {change : Change} {env : Env} {caller : Caller}
    (hstatus : change.status = .pending) (hcaller : env.caller = some caller)
    (hlabel : caller.label = change.proposedBy) :
    ∃ review review', Authoring.step (.start change 0) (.load (.edit none none)) = some review ∧
      Authoring.step review (.write 0 env 1) = some review' ∧
      review'.calls[0]?.any edited = true := by
  have heditable : editable env.caller change = .ok () := by
    simp [editable, hstatus, hcaller, hlabel]
  obtain ⟨new, happly⟩ : ∃ new, Authoring.Request.apply env (.edit none none) change =
      .ok (new, none) := by
    simp [Authoring.Request.apply, editChange, heditable, Except.map]
  obtain ⟨record, hpush⟩ : ∃ record, (Authoring.State.start change 0).record.push
      ⟨1, some (.request 0), some new⟩ true = some record := by
    simp [Register.push, Authoring.State.start]
  have haccepts : (Authoring.State.start change 0).record.accepts 0 = true := rfl
  refine ⟨{ Authoring.State.start change 0 with calls := [⟨.edit none none, change, 0, .loaded⟩] },
    ⟨record, [⟨.edit none none, change, 0, .written⟩], []⟩, rfl, ?_, rfl⟩
  simp [Authoring.step, Authoring.State.write, happly, haccepts, hpush, Authoring.State.setCall]
  rfl

section Labels

variable {d : Deployment} {users : UserContext → Prop} {s : State} {credentials : Credentials}

/-- `POST /changes` by whoever has authenticated. -/
theorem dispatch_changes {proposer : Principal} {updatedAt : Option Int} {body : Body}
    (hproposer : d.authenticate credentials = some proposer) :
    d.dispatch ⟨credentials, .post, d.apiPrefix ++ "/changes", updatedAt, body⟩ =
      .reached proposer .proposeChange [] := by
  have hsegments : segmentsOf d.apiPrefix (d.apiPrefix ++ "/changes") = some ["changes"] := by
    rw [segmentsOf_append]
    decide
  have hroute : findRoute ["changes"] =
      some (⟨[.literal "changes"], [(.get, .listChanges), (.post, .proposeChange)]⟩, []) := by
    decide
  have hmay : keyMayCall "" .post "/changes" = true := by decide
  exact dispatch_eq hsegments hroute (keyMayCall_append hmay) rfl hproposer

/-- `PATCH /changes/0`. -/
theorem dispatch_change {editor : Principal} {updatedAt : Option Int} {body : Body}
    (heditor : d.authenticate credentials = some editor) :
    d.dispatch ⟨credentials, .patch, d.apiPrefix ++ "/changes/0", updatedAt, body⟩ =
      .reached editor .editChange ["0"] := by
  have hsegments : segmentsOf d.apiPrefix (d.apiPrefix ++ "/changes/0") =
      some ["changes", "0"] := by
    rw [segmentsOf_append]
    decide
  have hroute : findRoute ["changes", "0"] =
      some (⟨[.literal "changes", .param], [(.get, .getChange), (.patch, .editChange)]⟩,
        ["0"]) := by
    decide
  have hmay : keyMayCall "" .patch "/changes/0" = true := by decide
  exact dispatch_eq hsegments hroute (keyMayCall_append hmay) rfl heditor

theorem validId_zero : validId "0" = true := by decide

/-- A caller proposes a change. -/
theorem step_propose {proposer : Principal} {env : Env} {authoring : AuthoringOptions}
    {title : String} {files : List WorkspaceFile} {locations : List Location}
    {target : AuthoringTarget} (hauthoring : d.authoring = some authoring)
    (hproposer : d.authenticate credentials = some proposer)
    (hlocations : checkProposal title files = .ok locations)
    (htarget : targetFor authoring (files.map (·.path)) = .ok target) :
    ∃ change t, d.step State.initial (.request ⟨credentials, .post, d.apiPrefix ++ "/changes",
        none, .proposal title none files⟩ env "0" 0) = some t ∧
      change.status = .pending ∧ change.proposedBy = proposer.caller.label ∧
      t.reviews "0" = some (.start change 0) ∧ t.proposers "0" = some proposer ∧
      t.inFlight = [] := by
  obtain ⟨change, hchange, hid, hstatus, hlabel⟩ : ∃ change,
      proposeChange env authoring (some proposer.caller) "0" title none files = .ok change ∧
        change.id = "0" ∧ change.status = .pending ∧
        change.proposedBy = proposer.caller.label := by
    rw [proposeChange, hlocations, htarget]
    exact ⟨_, rfl, rfl, rfl, rfl⟩
  let t : State :=
    { State.initial with
      reviews := Function.update State.initial.reviews "0" (some (.start change 0))
      proposers := Function.update State.initial.proposers "0" (some proposer)
      reached := [(proposer, .proposeChange)] }
  refine ⟨change, t, ?_, hstatus, hlabel, ?_, ?_, rfl⟩
  · rw [Deployment.step, dispatch_changes hproposer]
    simp only [Deployment.handle, hauthoring, hchange, State.propose, hid, validId_zero]
    rfl
  · simp [t]
  · simp [t]

/-- A caller with the proposer's label edits it. -/
theorem step_edit {editor : Principal} {env : Env} {authoring : AuthoringOptions}
    {change : Change} (hauthoring : d.authoring = some authoring)
    (heditor : d.authenticate credentials = some editor)
    (hreview : s.reviews "0" = some (.start change 0)) (hinFlight : s.inFlight = [])
    (hstatus : change.status = .pending) (hlabel : editor.caller.label = change.proposedBy) :
    ∃ t u, d.step s (.request ⟨credentials, .patch, d.apiPrefix ++ "/changes/0", none,
        .edit none none⟩ env "" 0) = some t ∧ d.step t (.write 0 env 1) = some u ∧
      u.proposers = s.proposers ∧ (editor, "0") ∈ u.edits := by
  let asCaller : Env := { env with authoring := authoring, caller := some editor.caller }
  obtain ⟨review, review', hload, hwrite, hedited⟩ :=
    @edit_start change asCaller _ hstatus rfl hlabel
  let t : State :=
    { s with
      reviews := Function.update s.reviews "0" (some review)
      inFlight := [⟨editor, "0", 0⟩]
      reached := (editor, .editChange) :: s.reached }
  let u : State :=
    { t with
      reviews := Function.update t.reviews "0" (some review')
      edits := (editor, "0") :: t.edits }
  refine ⟨t, u, ?_, ?_, rfl, List.mem_cons_self⟩
  · rw [Deployment.step, dispatch_change heditor]
    simp only [Deployment.handle, hauthoring, Handler.asks, List.head?_cons, Option.bind_some,
      d.decode_id "0" validId_zero, validId_zero, State.load, hreview, hload, hinFlight, if_true]
    rfl
  · have hnow : t.review "0" (.write 0 asCaller 1) =
        some (review', { t with reviews := Function.update t.reviews "0" (some review') }) := by
      simp [State.review, t, hwrite]
    simp only [Deployment.step, t, List.getElem?_cons_zero, hauthoring]
    rw [hnow, Option.map_some]
    simp only [hedited, if_true]
    rfl

theorem run_of_three {ok : State → Action → Prop} {a b c : Action} {r t u v : State}
    (hr : d.step r a = some t) (ht : d.step t b = some u) (hu : d.step u c = some v)
    (ha : ok r a) (hb : ok t b) (hc : ok u c) : d.api.RunOf ok r [a, b, c] v :=
  .snoc (.snoc (.snoc .nil ha hr) hb ht) hc hu

/-- Two callers with one label: one of them edits what the other has proposed. -/
theorem exists_edit (hprop : d.Proposable) {p q : Principal} (hp : d.Calls users p)
    (hq : d.Calls users q) (hlabel : p.caller.label = q.caller.label) :
    ∃ s, d.api.ReachableBy (SignedIn users) s ∧ (p, "0") ∈ s.edits ∧ s.proposers "0" = some q := by
  obtain ⟨credentials, hcredentials, hp⟩ := hp
  obtain ⟨credentials', hcredentials', hq⟩ := hq
  obtain ⟨authoring, title, files, locations, target, hauthoring, hlocations, htarget⟩ := hprop
  let env : Env := ⟨authoring, none, 0, 0, none, fun _ => none, fun _ => []⟩
  obtain ⟨change, t, hpropose, hstatus, hproposedBy, hreview, hproposer, hinFlight⟩ :=
    @step_propose d credentials' q env _ _ _ _ _ hauthoring hq hlocations htarget
  obtain ⟨u, v, hedit, hwrite, hproposers, hedits⟩ :=
    @step_edit d t credentials p env _ _ hauthoring hp hreview hinFlight hstatus
      (hlabel.trans hproposedBy.symm)
  have hrun : d.api.RunOf (SignedIn users) State.initial _ v :=
    run_of_three hpropose hedit hwrite hcredentials' hcredentials trivial
  exact ⟨v, ⟨_, _, rfl, hrun⟩, hedits, hproposers ▸ hproposer⟩

theorem distinguished_of_guarded (h : ∀ s, d.api.ReachableBy (SignedIn users) s → Guarded s)
    (hprop : d.Proposable) : d.Distinguished users := by
  intro p q hp hq hlabel
  obtain ⟨s, hs, hedit, hproposer⟩ := exists_edit hprop hp hq hlabel
  obtain ⟨proposer, hfound, hsame⟩ := (h s hs).edits p "0" hedit
  rw [hproposer] at hfound
  cases hfound
  exact hsame

/-- In every run of requests by distinguished callers each edit is by the proposer of
the change, and no key reaches what keys are kept from; and only there, if anything can
be proposed at all. -/
theorem edits_by_proposer_iff (d : Deployment) (users : UserContext → Prop) :
    (∀ s, d.api.ReachableBy (SignedIn users) s → Guarded s) ↔
      (d.Proposable → d.Distinguished users) := by
  constructor
  · exact distinguished_of_guarded
  · intro hlabels s hs
    have hinv : Inv d users s := by
      refine hs.invariant ?_ fun s a t hs ha hstep => hs.step hlabels ha hstep
      rintro s rfl
      exact .initial
    exact hinv.guarded

theorem calls_user {c : UserContext} (hc : users c) : d.Calls users (.user c) := by
  refine ⟨⟨some c, none⟩, ?_, rfl⟩
  rintro c' h
  cases h
  exact hc

theorem user_of_calls {c : UserContext} (h : d.Calls users (.user c)) : users c := by
  obtain ⟨credentials, hcredentials, hc⟩ := h
  rw [Deployment.authenticate] at hc
  split at hc
  · rename_i context hsession
    cases hc
    exact hcredentials _ hsession
  · obtain ⟨_, _, heq⟩ := Option.map_eq_some_iff.mp hc
    cases heq

theorem mem_of_calls {apiKey : ApiKey} (h : d.Calls users (.key apiKey)) : apiKey ∈ d.apiKeys := by
  obtain ⟨credentials, _, hkey⟩ := h
  rw [Deployment.authenticate] at hkey
  split at hkey
  · cases hkey
  · obtain ⟨found, hfound, heq⟩ := Option.map_eq_some_iff.mp hkey
    cases heq
    obtain ⟨token, _, hfind⟩ := Option.bind_eq_some_iff.mp hfound
    exact List.mem_of_find?_eq_some hfind

/-- What distinguishes the callers.  Keys are told apart by their names. -/
theorem distinguished_iff (d : Deployment) (users : UserContext → Prop) :
    d.Distinguished users ↔
      (∀ c c', users c → users c' → (Caller.user c).label = (Caller.user c').label →
        c.userId = c'.userId) ∧
      ∀ c apiKey, users c → d.Calls users (.key apiKey) →
        (Caller.user c).label ≠ "key:" ++ apiKey.name := by
  constructor
  · intro h
    constructor
    · intro c c' hc hc' hlabel
      exact h (.user c) (.user c') (calls_user hc) (calls_user hc') hlabel
    · intro c apiKey hc hkey hlabel
      exact h (.user c) (.key apiKey) (calls_user hc) hkey hlabel
  · rintro ⟨husers, hkeys⟩ p q hp hq hlabel
    cases p with
    | user c =>
        cases q with
        | user c' => exact husers c c' (user_of_calls hp) (user_of_calls hq) hlabel
        | key apiKey => exact absurd hlabel (hkeys c apiKey (user_of_calls hp) hq)
    | key apiKey =>
        cases q with
        | user c' => exact absurd hlabel.symm (hkeys c' apiKey (user_of_calls hq) hp)
        | key apiKey' =>
            have hname : apiKey.name = apiKey'.name := (String.append_right_inj "key:").mp hlabel
            exact List.inj_on_of_nodup_map d.names_nodup (mem_of_calls hp) (mem_of_calls hq) hname

end Labels

/-! ## Two users with one email -/

/-- A deployment with one target. -/
def workspace : Deployment where
  path := "/flowgen"
  apiKeys := []
  authoring := some ⟨[⟨"workspace", ["flows/"], "system/publish_workspace", []⟩], "groups"⟩
  decode := some
  decode_id _ _ := rfl
  names_nodup := List.nodup_nil

def jane (userId : String) : UserContext := ⟨userId, [("email", .string "jane@example.com")]⟩

/-- The first user edits what the second has proposed. -/
theorem edited_by_another : ∃ s, workspace.api.ReachableBy
      (SignedIn fun context => context = jane "u1" ∨ context = jane "u2") s ∧
    (.user (jane "u1"), "0") ∈ s.edits ∧ s.proposers "0" = some (.user (jane "u2")) ∧
    ¬ Guarded s := by
  have hprop : workspace.Proposable := by
    refine ⟨_, "Add a", [⟨"flows/a.yaml", some "flow: {}"⟩], [.flow "a.yaml"],
      ⟨"workspace", ["flows/"], "system/publish_workspace", []⟩, rfl, ?_, ?_⟩
    · rfl
    · rfl
  let janes (context : UserContext) : Prop := context = jane "u1" ∨ context = jane "u2"
  have hfirst : workspace.Calls janes (.user (jane "u1")) := calls_user (.inl rfl)
  have hsecond : workspace.Calls janes (.user (jane "u2")) := calls_user (.inr rfl)
  obtain ⟨s, hs, hedit, hproposer⟩ := exists_edit hprop hfirst hsecond rfl
  refine ⟨s, hs, hedit, hproposer, ?_⟩
  intro hguarded
  obtain ⟨proposer, hfound, hsame⟩ := hguarded.edits _ "0" hedit
  rw [hproposer] at hfound
  cases hfound
  have hid : "u1" = "u2" := hsame
  revert hid
  decide

end Flowgen.Web
