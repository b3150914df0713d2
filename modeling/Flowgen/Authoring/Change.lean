/-
# `Flowgen.Authoring.Change` — what a request does to a change (`app/src/authoring.rs`)

A change is one record of the cache.  Every request that rewrites it loads the
record, checks what it loaded and writes what it makes of it; the functions
here are the part between the two, as functions of the loaded change and of
what the pod reads on the way: its configuration, its clock, what is deployed
and what the validation of the files says.

Whatever a request does, the new version is a `Successor` of the loaded one:
the loaded one was not yet published or rejected, and the new one has its files
unless it is an edit, whose stamp is later (`touch`).
-/
import Flowgen.Text

namespace Flowgen.Authoring

open Flowgen.Text

/-! ## The data -/

inductive ChangeStatus
  | pending
  | rejected
  | publishing
  | published
  | failed
deriving DecidableEq

/-- A file of a request; without content it is deleted. -/
structure WorkspaceFile where
  path : String
  content : Option String
deriving DecidableEq

structure ChangeFile where
  path : String
  content : Option String
  /-- What was deployed when the file was added. -/
  previous : Option String
deriving DecidableEq

structure ValidationIssue where
  path : String
  location : Option String
  message : String
deriving DecidableEq

/-- `serde_json::Value`. -/
inductive Value
  | null
  | bool (b : Bool)
  | number (text : String)
  | string (text : String)
  | array (items : List Value)
  | object (fields : List (String × Value))

/-- `Value::as_str`. -/
def Value.asStr : Value → Option String
  | .string text => some text
  | _ => none

structure Change where
  id : String
  target : String
  title : String
  description : Option String
  status : ChangeStatus
  proposedBy : String
  createdAt : Int
  updatedAt : Option Int
  decidedBy : Option String
  decidedAt : Option Int
  issues : List ValidationIssue
  files : List ChangeFile
  result : List (String × Value)
  error : Option String

structure UserContext where
  userId : String
  claims : List (String × Value)

/-- Who a request authenticated as. -/
inductive Caller
  | user (context : UserContext)
  | key (name : String)

/-- `Caller::label`: a user by their email, unless it is blank. -/
def Caller.label : Caller → String
  | .user context =>
      match context.claims.lookup "email" with
      | some (.string email) => if isBlank email then context.userId else trim email
      | _ => context.userId
  | .key name => "key:" ++ name

def callerLabel : Option Caller → String
  | some caller => caller.label
  | none => "anonymous"

structure AuthoringTarget where
  name : String
  paths : List String
  publishFlow : String
  approverGroups : List String

structure AuthoringOptions where
  targets : List AuthoringTarget
  groupsClaim : String

inductive PathError
  | root
  | noFileName
  | emptySegment
  | relative
  | characters
deriving DecidableEq

inductive Error
  | invalidPath (path : String) (reason : PathError)
  | duplicatePath (path : String)
  | missingTitle
  | notPending (status : ChangeStatus)
  | invalid
  | noFiles
  | noTarget (path : String)
  | mixedTargets (first second : String)
  | targetGone (target : String)
  | targetChanged (stored current : String)
  | userRequired
  | notProposer
  | editedSinceReview
  | notApprover (user : String)
deriving DecidableEq

/-! ## Paths and targets -/

/-- Where a workspace file lives once deployed. -/
inductive Location
  | flow (file : String)
  | resource (key : String)
deriving DecidableEq

/-- What is wrong with a segment of a path. -/
def segmentError (segment : List Char) : Option PathError :=
  if segment.isEmpty then some .emptySegment
  else if segment = ['.'] ∨ segment = ['.', '.'] then some .relative
  else if segment.all fun c => c.isAlphanum || c == '.' || c == '_' || c == '-' then none
  else some .characters

def locate (path : String) : Except PathError Location :=
  match splitOnce '/' path.toList with
  | none => .error .root
  | some (root, rest) =>
      if root ≠ "flows".toList ∧ root ≠ "resources".toList then .error .root
      else if rest.isEmpty || rest.getLast? == some '/' then .error .noFileName
      else match (rest.splitOn '/').findSome? segmentError with
        | some reason => .error reason
        | none =>
            if root = "flows".toList then .ok (.flow (String.ofList rest))
            else .ok (.resource (String.ofList rest))

/-- The loop of `check_paths`: each path may appear once. -/
def checkPathsFrom (seen : List String) : List WorkspaceFile → Except Error (List Location)
  | [] => .ok []
  | file :: files =>
      match locate file.path with
      | .error reason => .error (.invalidPath file.path reason)
      | .ok location =>
          if file.path ∈ seen then .error (.duplicatePath file.path)
          else (checkPathsFrom (file.path :: seen) files).map (location :: ·)

def checkPaths (files : List WorkspaceFile) : Except Error (List Location) :=
  checkPathsFrom [] files

/-- Length, in bytes, of the longest of its paths that `path` falls under. -/
def AuthoringTarget.matchedLen (target : AuthoringTarget) (path : String) : Option Nat :=
  ((target.paths.map fun folder => folder.toList.rdropWhile (· == '/')).filter fun folder =>
    within path (String.ofList folder)).map (fun folder => (folder.map Char.utf8Size).sum) |>.max?

/-- The last of the longest: `Iterator::max_by_key`. -/
def longest (best : Option (Nat × AuthoringTarget)) (next : Nat × AuthoringTarget) :
    Option (Nat × AuthoringTarget) :=
  match best with
  | some best => if best.1 ≤ next.1 then some next else some best
  | none => some next

/-- The target owning the workspace `path`: the one with the most specific path. -/
def AuthoringOptions.targetOf (authoring : AuthoringOptions) (path : String) :
    Option AuthoringTarget :=
  ((authoring.targets.filterMap fun target =>
    (target.matchedLen path).map fun len => (len, target)).foldl longest none).map (·.2)

/-- The loop of `target_for`. -/
def targetFrom (authoring : AuthoringOptions) (found : Option AuthoringTarget) :
    List String → Except Error AuthoringTarget
  | [] =>
      match found with
      | some target => .ok target
      | none => .error .noFiles
  | path :: paths =>
      match authoring.targetOf path with
      | none => .error (.noTarget path)
      | some target =>
          match found with
          | some first =>
              if first.name ≠ target.name then .error (.mixedTargets first.name target.name)
              else targetFrom authoring (some target) paths
          | none => targetFrom authoring (some target) paths

/-- The one target every path falls in. -/
def targetFor (authoring : AuthoringOptions) (paths : List String) :
    Except Error AuthoringTarget :=
  targetFrom authoring none paths

/-- The target a stored change still belongs to. -/
def storedTarget (authoring : AuthoringOptions) (change : Change) :
    Except Error AuthoringTarget :=
  match targetFor authoring (change.files.map (·.path)) with
  | .ok current =>
      if current.name = change.target then .ok current
      else .error (.targetChanged change.target current.name)
  | .error _ => .error (.targetGone change.target)

/-! ## Who may do what -/

/-- Who decides: a user, in one of the target's `approver_groups` when it has
some; without `web.auth` everyone. -/
def decider (caller : Option Caller) (authoring : AuthoringOptions) (target : AuthoringTarget) :
    Except Error (Option UserContext) :=
  match caller with
  | none => .ok none
  | some (.key _) => .error .userRequired
  | some (.user user) =>
      let groups := match user.claims.lookup authoring.groupsClaim with
        | some (.array groups) => groups.filterMap Value.asStr
        | some (.string group) => [group]
        | _ => []
      if target.approverGroups.isEmpty || target.approverGroups.any (groups.contains ·) then
        .ok (some user)
      else .error (.notApprover user.userId)

/-- The check of `load_editable`: a pending change may be edited by its proposer. -/
def editable (caller : Option Caller) (change : Change) : Except Error Unit :=
  if change.status ≠ .pending then .error (.notPending change.status)
  else match caller with
    | some caller => if caller.label ≠ change.proposedBy then .error .notProposer else .ok ()
    | none => .ok ()

/-- Whether a change may be published: pending, failed, or stuck in
`publishing` for longer than `timeout` (in milliseconds). -/
def canPublish (change : Change) (timeout : Option Nat) (now : Int) : Bool :=
  match change.status with
  | .pending | .failed => true
  | .publishing =>
      match change.decidedAt, timeout with
      | some decidedAt, some timeout => timeout < 2 ^ 63 && now - decidedAt > timeout
      | some _, none => false
      | none, _ => true
  | .rejected | .published => false

/-! ## The requests -/

/-- Marks the change edited, always later than its last edit. -/
def touch (change : Change) (now : Int) : Change :=
  { change with updatedAt := some (max now (change.updatedAt.getD change.createdAt + 1)) }

inductive Request
  | edit (title description : Option String)
  | addFiles (files : List WorkspaceFile)
  | approve (reviewed : Option Int)
  | reject
deriving DecidableEq

/-- What a pod reads while it handles a request. -/
structure Env where
  authoring : AuthoringOptions
  caller : Option Caller
  /-- The clock, when `can_publish` looks at it and when the change is stamped. -/
  checkedAt : Int
  now : Int
  /-- `publish_wait`, in milliseconds. -/
  timeout : Option Nat
  /-- `base_content` of a path. -/
  base : String → Option String
  /-- `validate_files`. -/
  validate : List WorkspaceFile → List ValidationIssue

def editChange (env : Env) (title description : Option String) (change : Change) :
    Except Error Change :=
  match editable env.caller change with
  | .error error => .error error
  | .ok _ =>
      if title.any isBlank then .error .missingTitle
      else .ok (touch { change with
        title := title.getD change.title
        description := match description with
          | some description => if isBlank description then none else some description
          | none => change.description } env.now)

/-- A file already in the change gets the new content, and keeps what was
deployed when it was first added. -/
def addFile (base : String → Option String) (file : WorkspaceFile) :
    List ChangeFile → List ChangeFile
  | [] => [⟨file.path, file.content, base file.path⟩]
  | known :: files =>
      if known.path = file.path then { known with content := file.content } :: files
      else known :: addFile base file files

def addChangeFiles (env : Env) (body : List WorkspaceFile) (change : Change) :
    Except Error Change :=
  match editable env.caller change with
  | .error error => .error error
  | .ok _ =>
      match checkPaths body with
      | .error error => .error error
      | .ok _ =>
          match targetFor env.authoring (change.files.map (·.path) ++ body.map (·.path)) with
          | .error error => .error error
          | .ok target =>
              if target.name ≠ change.target then
                .error (.targetChanged change.target target.name)
              else
                let files := body.foldl (fun files file => addFile env.base file files) change.files
                .ok (touch { change with
                  files := files
                  issues := env.validate (files.map fun file => ⟨file.path, file.content⟩) } env.now)

/-- `approve_change` up to the write; also the target and who decides. -/
def approveChange (env : Env) (reviewed : Option Int) (change : Change) :
    Except Error (Change × AuthoringTarget × Option UserContext) :=
  match storedTarget env.authoring change with
  | .error error => .error error
  | .ok target =>
      match decider env.caller env.authoring target with
      | .error error => .error error
      | .ok user =>
          if !canPublish change env.timeout env.checkedAt then .error (.notPending change.status)
          else if reviewed.any fun updatedAt => change.updatedAt ≠ some updatedAt then
            .error .editedSinceReview
          else if change.issues ≠ [] then .error .invalid
          else .ok ({ change with
            status := .publishing
            decidedBy := some (callerLabel env.caller)
            decidedAt := some env.now
            error := none }, target, user)

def rejectChange (env : Env) (change : Change) : Except Error Change :=
  match storedTarget env.authoring change with
  | .error error => .error error
  | .ok target =>
      match decider env.caller env.authoring target with
      | .error error => .error error
      | .ok _ =>
          if change.status ≠ .pending ∧ change.status ≠ .failed then
            .error (.notPending change.status)
          else .ok { change with
            status := .rejected
            decidedBy := some (callerLabel env.caller)
            decidedAt := some env.now }

/-! ## Publishing -/

structure PublishFile where
  path : String
  content : Option String
  previous : Option String
deriving DecidableEq

structure PublishAuthor where
  name : String
  email : String
deriving DecidableEq

/-- What the publish flow is sent. -/
structure Publish where
  id : String
  target : String
  title : String
  author : PublishAuthor
  files : List PublishFile
deriving DecidableEq

/-- A claim that is text, and not blank. -/
def claim (user : Option UserContext) (name : String) : Option String :=
  match user.bind (·.claims.lookup name) with
  | some (.string value) => if isBlank value then none else some (trim value)
  | _ => none

/-- Commit author for a decider: name and email claims, else the user id. -/
def author (user : Option UserContext) : PublishAuthor :=
  let id := match user with
    | some user => user.userId
    | none => "flowgen"
  { name := (claim user "name").getD id
    email := (claim user "email").getD id }

def publishFiles (files : List ChangeFile) : List PublishFile :=
  files.map fun file => ⟨file.path, file.content, file.previous⟩

/-- What `run_publish_flow` sends. -/
def publishData (target : AuthoringTarget) (user : Option UserContext) (change : Change) :
    Publish where
  id := change.id
  target := target.name
  title := change.title
  author := author user
  files := publishFiles change.files

/-- What `publish` records of the flow's result. -/
def outcome (change : Change) : Except String (Option Value) → Change
  | .ok result =>
      { change with
        status := .published
        result := match result with
          | some (.object fields) => fields
          | _ => [] }
  | .error reason => { change with status := .failed, error := some reason }

/-! ## What a version may be followed by -/

def Change.decided (change : Change) : Bool :=
  change.status == .published || change.status == .rejected

/-- When a change was last edited. -/
def Change.stamp (change : Change) : Int := change.updatedAt.getD change.createdAt

/-- `new` may follow `old`: `old` was not decided yet, and `new` keeps its files
or has a later stamp. -/
structure Successor (old new : Change) : Prop where
  undecided : old.decided = false
  files : new.stamp = old.stamp ∧ new.files = old.files ∨ old.stamp < new.stamp

variable {env : Env} {change new : Change}

theorem Successor.of_touch (hs : change.status = .pending) (hc : new.createdAt = change.createdAt)
    (hu : new.updatedAt = change.updatedAt) (now : Int) : Successor change (touch new now) := by
  refine ⟨by rw [Change.decided, hs]; rfl, Or.inr ?_⟩
  show change.updatedAt.getD change.createdAt < max now (new.updatedAt.getD new.createdAt + 1)
  rw [hc, hu]
  exact lt_max_of_lt_right (lt_add_one _)

theorem status_of_editable {caller : Option Caller} {u : Unit}
    (h : editable caller change = .ok u) : change.status = .pending := by
  unfold editable at h
  split at h
  · cases h
  · rename_i hs
    exact not_not.mp hs

/-- `new` is the pending change with something edited, and touched. -/
def Edited (env : Env) (change new : Change) : Prop :=
  change.status = .pending ∧ ∃ edited : Change, edited.createdAt = change.createdAt ∧
    edited.updatedAt = change.updatedAt ∧ new = touch edited env.now

theorem Edited.successor (h : Edited env change new) : Successor change new := by
  obtain ⟨hs, edited, hc, hu, rfl⟩ := h
  exact .of_touch hs hc hu _

theorem editChange_eq_ok {title description : Option String}
    (h : editChange env title description change = .ok new) : Edited env change new := by
  unfold editChange at h
  split at h
  · cases h
  · rename_i he
    split at h
    · cases h
    · refine ⟨status_of_editable he, _, ?_, ?_, (Except.ok.inj h).symm⟩ <;> rfl

theorem addChangeFiles_eq_ok {body : List WorkspaceFile}
    (h : addChangeFiles env body change = .ok new) : Edited env change new := by
  rw [addChangeFiles] at h
  split at h
  · cases h
  · rename_i he
    split at h
    · cases h
    · split at h
      · cases h
      · split at h
        · cases h
        · refine ⟨status_of_editable he, _, ?_, ?_, (Except.ok.inj h).symm⟩ <;> rfl

/-- What an approval has checked, and what it writes. -/
theorem approveChange_eq_ok {reviewed : Option Int} {target : AuthoringTarget}
    {user : Option UserContext} (h : approveChange env reviewed change = .ok (new, target, user)) :
    canPublish change env.timeout env.checkedAt = true ∧
      (∀ t, reviewed = some t → change.updatedAt = some t) ∧
      new = { change with
        status := .publishing
        decidedBy := some (callerLabel env.caller)
        decidedAt := some env.now
        error := none } := by
  rw [approveChange] at h
  split at h
  · cases h
  · split at h
    · cases h
    · split at h
      · cases h
      · rename_i hp
        split at h
        · cases h
        · rename_i hr
          split at h
          · cases h
          · cases h
            refine ⟨by simpa using hp, ?_, rfl⟩
            intro t ht
            simpa [ht] using hr

theorem undecided_of_canPublish {timeout : Option Nat} {now : Int}
    (h : canPublish change timeout now = true) : change.decided = false := by
  unfold canPublish at h
  unfold Change.decided
  cases hs : change.status <;> simp_all

theorem Successor.of_approveChange {reviewed : Option Int} {target : AuthoringTarget}
    {user : Option UserContext} (h : approveChange env reviewed change = .ok (new, target, user)) :
    Successor change new := by
  obtain ⟨hp, _, rfl⟩ := approveChange_eq_ok h
  exact ⟨undecided_of_canPublish hp, Or.inl ⟨rfl, rfl⟩⟩

theorem rejectChange_eq_ok (h : rejectChange env change = .ok new) :
    (change.status = .pending ∨ change.status = .failed) ∧ new = { change with
      status := .rejected
      decidedBy := some (callerLabel env.caller)
      decidedAt := some env.now } := by
  rw [rejectChange] at h
  split at h
  · cases h
  · split at h
    · cases h
    · split at h
      · cases h
      · rename_i hs
        cases h
        exact ⟨by tauto, rfl⟩

theorem Successor.of_rejectChange (h : rejectChange env change = .ok new) :
    Successor change new := by
  obtain ⟨hs, rfl⟩ := rejectChange_eq_ok h
  refine ⟨?_, Or.inl ⟨rfl, rfl⟩⟩
  rw [Change.decided]
  rcases hs with hs | hs <;> rw [hs] <;> rfl

/-- The outcome of a publish follows the record that its approval wrote. -/
theorem Successor.of_outcome (hs : change.status = .publishing)
    (result : Except String (Option Value)) : Successor change (outcome change result) := by
  refine ⟨by rw [Change.decided, hs]; rfl, Or.inl ?_⟩
  cases result <;> exact ⟨rfl, rfl⟩

/-! ## Who may have edited -/

/-- The proposer stays; and an edit was let through. -/
theorem editChange_proposedBy {title description : Option String}
    (h : editChange env title description change = .ok new) :
    new.proposedBy = change.proposedBy ∧ editable env.caller change = .ok () := by
  unfold editChange at h
  split at h
  · cases h
  · rename_i he
    split at h
    · cases h
    · cases h
      exact ⟨rfl, he⟩

theorem addChangeFiles_proposedBy {body : List WorkspaceFile}
    (h : addChangeFiles env body change = .ok new) :
    new.proposedBy = change.proposedBy ∧ editable env.caller change = .ok () := by
  rw [addChangeFiles] at h
  split at h
  · cases h
  · rename_i he
    split at h
    · cases h
    · split at h
      · cases h
      · split at h
        · cases h
        · cases h
          exact ⟨rfl, he⟩

theorem outcome_proposedBy (result : Except String (Option Value)) :
    (outcome change result).proposedBy = change.proposedBy := by
  cases result <;> rfl

/-- Who is let through has the label of the proposer. -/
theorem label_of_editable {caller : Caller} (h : editable (some caller) change = .ok ()) :
    caller.label = change.proposedBy := by
  rw [editable] at h
  split at h
  · cases h
  · split at h
    · cases h
    · rename_i hlabel
      exact not_not.mp hlabel

end Flowgen.Authoring
