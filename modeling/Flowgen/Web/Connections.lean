/-
# `Flowgen.Web.Connections` — the systems that the flows connect to
(`app/src/connections.rs`, `core/src/task/meta.rs`)

When a flow is loaded, the connections of its tasks are gathered, each with the account
that its credentials file describes.  The web UI puts together what the loaded flows have
in common: a connection is a connector and a credentials path, and its row says which
flows use it, where they connect, and how they do.

The registry of the flows is a hash map, so the rows must not depend on the order in which
the flows come.  They do not, but for the account: it is that of the first flow, and two
flows that were loaded around a change of the file name different ones
(`listConnections_perm_iff`).  A row is found again under its id, unless its path is empty
and the connector is also used without one (`getConnection_listed_iff`).

The digest of the ids, the environment, the files and the logs are given from outside.
-/
import Flowgen.Lib.Grouped
import Flowgen.Telemetry.Activity
import Flowgen.Text

namespace Flowgen.Web.Connections

open Flowgen.Lib
open Flowgen.Telemetry (FlowStatus)

/-! ## Connections of a task (`core/src/task/meta.rs`) -/

/-- What the `n`-th reading of a credentials file describes. -/
abbrev Describe := Nat → String → Option String

/-- The names are constants of the source, without a null character. -/
structure Connector where
  name : String
  plain : '\x00' ∉ name.toList
  describeCredentials : Option Describe

structure Connection where
  connector : Connector
  credentialsPath : Option String
  target : Option String
  perEvent : Bool
  onBehalfOfUser : Bool

/-- `str::contains`. -/
def contains (value part : String) : Bool := decide (part.toList <:+: value.toList)

def isPerEvent (value : String) : Bool := contains value "\x7b\x7b" && contains value "event."

/-! ## Connections of a flow -/

structure Task where
  name : String
  blocking : Bool
  connections : List Connection

structure TaskConnection where
  task : String
  connection : Connection
  account : Option String

/-- The connector and the credentials path, in the order of the derived `Ord`. -/
abbrev Identity := String ×ₗ WithBot String

def connectorOf (identity : Identity) : String := (ofLex identity).1

def pathOf (identity : Identity) : Option String := (ofLex identity).2

def identityOf (connector : String) (credentialsPath : Option String) : Identity :=
  toLex (connector, credentialsPath)

def TaskConnection.identity (found : TaskConnection) : Identity :=
  identityOf found.connection.connector.name found.connection.credentialsPath

/-- The accounts found so far, by connector and path, and the files read for them. -/
structure Accounts where
  known : String × String → Option (Option String)
  readings : Nat

section OfTasks

-- `render_env`
variable (renderEnv : String → Option String)

/-- The account of one connection; a file is read once for all of them. -/
def account (accounts : Accounts) (connection : Connection) : Accounts × Option String :=
  match connection.connector.describeCredentials, connection.credentialsPath with
  | some describe, some path =>
      if isPerEvent path then (accounts, none)
      else
        match accounts.known (connection.connector.name, path) with
        | some known => (accounts, known)
        | none =>
            let found := (renderEnv path).bind (describe accounts.readings)
            (⟨Function.update accounts.known (connection.connector.name, path) (some found),
              accounts.readings + 1⟩, found)
  | _, _ => (accounts, none)

/-- The loop over the connections of the tasks that connect out. -/
def gatherTasks (accounts : Accounts) : List (String × Connection) → List TaskConnection
  | [] => []
  | (task, connection) :: rest =>
      let (accounts', found) := account renderEnv accounts connection
      ⟨task, connection, found⟩ :: gatherTasks accounts' rest

def ofTasks (tasks : List Task) : List TaskConnection :=
  gatherTasks renderEnv ⟨fun _ => none, 0⟩
    ((tasks.filter (!·.blocking)).flatMap fun task => task.connections.map (task.name, ·))

end OfTasks

variable {renderEnv : String → Option String} {accounts : Accounts}

/-- An account that was found is known from then on, and never replaced. -/
theorem account_known {connection : Connection} {path a : String}
    (hpath : connection.credentialsPath = some path)
    (h : (account renderEnv accounts connection).2 = some a) :
    (account renderEnv accounts connection).1.known (connection.connector.name, path) =
      some (some a) := by
  revert h
  rw [account, hpath]
  cases hdescribe : connection.connector.describeCredentials with
  | none =>
      intro h
      cases h
  | some describe =>
      simp only
      split
      · intro h
        cases h
      · split
        · rename_i known hknown
          intro h
          exact hknown.trans (congrArg some h)
        · intro h
          exact (Function.update_self _ _ _).trans (congrArg some h)

theorem account_keeps {connection : Connection} {key : String × String} {known : Option String}
    (h : accounts.known key = some known) :
    (account renderEnv accounts connection).1.known key = some known := by
  rw [account]
  split
  · rename_i describe path _ _
    split
    · exact h
    · split
      · exact h
      · rename_i hunknown
        have hne : key ≠ (connection.connector.name, path) := by
          rintro rfl
          rw [h] at hunknown
          cases hunknown
        exact (Function.update_of_ne hne _ _).trans h
  · exact h

/-- Every account is the known one. -/
theorem account_of_known {connection : Connection} {path a : String} {known : Option String}
    (hpath : connection.credentialsPath = some path)
    (hknown : accounts.known (connection.connector.name, path) = some known)
    (h : (account renderEnv accounts connection).2 = some a) : known = some a := by
  have hkept : (account renderEnv accounts connection).1.known _ = some known := account_keeps hknown
  rw [account_known hpath h] at hkept
  exact (Option.some.inj hkept).symm

/-- Two uses of one connection name the same account, if both name one. -/
def Agree (u v : TaskConnection) : Prop :=
  u.identity = v.identity → ∀ a b, u.account = some a → v.account = some b → a = b

theorem identity_eq_iff {u v : TaskConnection} : u.identity = v.identity ↔
    u.connection.connector.name = v.connection.connector.name ∧
      u.connection.credentialsPath = v.connection.credentialsPath := by
  constructor
  · intro h
    exact ⟨congrArg connectorOf h, congrArg pathOf h⟩
  · rintro ⟨hname, hpath⟩
    rw [TaskConnection.identity, hname, hpath]
    rfl

/-- What is known is what every later use is given. -/
theorem account_of_mem_gatherTasks {uses : List (String × Connection)} {v : TaskConnection}
    {path b : String} {known : Option String} (hpath : v.connection.credentialsPath = some path)
    (hknown : accounts.known (v.connection.connector.name, path) = some known)
    (hv : v ∈ gatherTasks renderEnv accounts uses) (hb : v.account = some b) : known = some b := by
  induction uses generalizing accounts with
  | nil => cases hv
  | cons use uses ih =>
      rcases List.mem_cons.mp hv with rfl | hrest
      · exact account_of_known hpath hknown hb
      · exact ih (account_keeps hknown) hrest

theorem account_path {connection : Connection} {a : String}
    (h : (account renderEnv accounts connection).2 = some a) :
    ∃ path, connection.credentialsPath = some path := by
  rw [account] at h
  split at h
  · rename_i describe path _ hpath
    exact ⟨path, hpath⟩
  · cases h

/-- Within one flow a credentials file is described once. -/
theorem gatherTasks_agree (uses : List (String × Connection)) :
    (gatherTasks renderEnv accounts uses).Pairwise Agree := by
  induction uses generalizing accounts with
  | nil => exact .nil
  | cons use uses ih =>
      refine List.pairwise_cons.mpr ⟨fun v hv hidentity a b ha hb => ?_, ih⟩
      obtain ⟨path, hpath⟩ := account_path ha
      obtain ⟨hname, hpaths⟩ := identity_eq_iff.mp hidentity
      have hknown := account_known hpath ha
      have hsame : some a = some b :=
        account_of_mem_gatherTasks (hpaths.symm.trans hpath) (hname ▸ hknown) hv hb
      exact Option.some.inj hsame

/-- A loaded flow and its connections. -/
structure FlowHandle where
  identity : String
  connections : List TaskConnection
  agree : connections.Pairwise Agree

/-- `of_flow`, as the flow is loaded. -/
def ofFlow (renderEnv : String → Option String) (identity : String) (tasks : List Task) :
    FlowHandle :=
  ⟨identity, ofTasks renderEnv tasks, gatherTasks_agree _⟩

theorem agree_self (u : TaskConnection) : Agree u u := by
  intro _ a b ha hb
  exact Option.some.inj (ha.symm.trans hb)

instance : Std.Symm Agree :=
  ⟨fun _ _ h hidentity a b ha hb => (h hidentity.symm b a hb ha).symm⟩

theorem FlowHandle.agree_of_mem (handle : FlowHandle) {u v : TaskConnection}
    (hu : u ∈ handle.connections) (hv : v ∈ handle.connections) : Agree u v :=
  List.Pairwise.forall_of_forall (fun u _ => agree_self u) handle.agree hu hv

/-! ## The rows -/

structure User where
  flow : String
  task : String
deriving DecidableEq

structure Row where
  account : Option String := none
  targets : Finset String := ∅
  perEvent : Bool := false
  onBehalfOfUser : Bool := false
  users : List User := []

/-- A connection as one flow uses it. -/
structure Use where
  flow : String
  found : TaskConnection

def Use.identity (use : Use) : Identity := use.found.identity

def Use.user (use : Use) : User := ⟨use.flow, use.found.task⟩

/-- The body of the loops in `gather`. -/
def Row.add (row : Row) (use : Use) : Row where
  account := if row.account.isNone then use.found.account else row.account
  targets :=
    match use.found.connection.target with
    | some target => insert target row.targets
    | none => row.targets
  perEvent := row.perEvent || use.found.connection.perEvent
  onBehalfOfUser := row.onBehalfOfUser || use.found.connection.onBehalfOfUser
  users := if use.user ∈ row.users then row.users else row.users ++ [use.user]

def uses (flows : List FlowHandle) : List Use :=
  flows.flatMap fun handle => handle.connections.map fun found => ⟨handle.identity, found⟩

def gather (flows : List FlowHandle) : SortedMap Identity Row :=
  grouped Use.identity {} Row.add (uses flows)

/-! ## The responses -/

def severity : FlowStatus → Nat
  | .idle => 0
  | .ok => 1
  | .warn => 2
  | .error => 3

def statusOf (level : String) : FlowStatus :=
  match level.map Char.toLower with
  | "error" => .error
  | "warn" | "warning" => .warn
  | _ => .ok

/-- The levels that a query of the logs returns; it may fail. -/
abbrev LogsStore := User → Option (List String)

def latestStatus (logs : LogsStore) (user : User) : FlowStatus :=
  match logs user with
  | some levels => (levels.getLast?).elim .idle statusOf
  | none => .idle

/-- One round of the fold in `read_status`. -/
def worse (worst status : FlowStatus) : FlowStatus :=
  if severity status > severity worst then status else worst

def readStatus (logs : LogsStore) (users : List User) : FlowStatus :=
  (users.map (latestStatus logs)).foldl worse .idle

/-- `api::Connection`. -/
structure ApiConnection where
  id : String
  connector : String
  credentialsPath : Option String
  account : Option String
  targets : List String
  perEvent : Bool
  onBehalfOfUser : Bool
  flows : List String
  status : FlowStatus

/-- What `Identity::id` hashes. -/
def hashed (identity : Identity) : String :=
  connectorOf identity ++ "\x00" ++ (pathOf identity).getD ""

section Responses

-- The first hexadecimal digits of the SHA-256, and the store of the logs, if there is one.
variable (digest : String → String) (logs : Option LogsStore)

/-- `Identity::id`. -/
def identityId (identity : Identity) : String := digest (hashed identity)

def connection (entry : Identity × Row) : ApiConnection where
  id := identityId digest entry.1
  connector := connectorOf entry.1
  credentialsPath := pathOf entry.1
  account := entry.2.account
  targets := entry.2.targets.sort
  perEvent := entry.2.perEvent
  onBehalfOfUser := entry.2.onBehalfOfUser
  flows := (entry.2.users.map User.flow).toFinset.sort
  status := logs.elim .idle fun logs => readStatus logs entry.2.users

def listConnections (flows : List FlowHandle) : List ApiConnection :=
  (gather flows).entries.map (connection digest logs)

def getConnection (flows : List FlowHandle) (id : String) : Except (Nat × String) ApiConnection :=
  match (gather flows).entries.find? fun entry => identityId digest entry.1 = id with
  | some entry => .ok (connection digest logs entry)
  | none => .error (404, "Connection '" ++ id ++ "' not found")

end Responses

/-! ## What a row says about its uses -/

theorem foldl_account (us : List Use) (row : Row) : (us.foldl Row.add row).account =
    row.account.or (us.findSome? fun use => use.found.account) := by
  induction us generalizing row with
  | nil => exact (Option.or_none).symm
  | cons use us ih =>
      rw [List.foldl_cons, ih, List.findSome?_cons]
      cases hrow : row.account with
      | none => cases hfound : use.found.account <;> simp [Row.add, hrow, hfound]
      | some a => simp [Row.add, hrow]

theorem foldl_targets (us : List Use) (row : Row) : (us.foldl Row.add row).targets =
    row.targets ∪ (us.filterMap fun use => use.found.connection.target).toFinset := by
  induction us generalizing row with
  | nil => simp
  | cons use us ih =>
      rw [List.foldl_cons, ih]
      cases htarget : use.found.connection.target with
      | none => simp [Row.add, htarget]
      | some target => simp [Row.add, htarget, Finset.insert_union]

theorem foldl_perEvent (us : List Use) (row : Row) : (us.foldl Row.add row).perEvent =
    (row.perEvent || us.any fun use => use.found.connection.perEvent) := by
  induction us generalizing row with
  | nil => simp
  | cons use us ih =>
      rw [List.foldl_cons, ih, List.any_cons]
      exact Bool.or_assoc _ _ _

theorem foldl_onBehalfOfUser (us : List Use) (row : Row) :
    (us.foldl Row.add row).onBehalfOfUser =
      (row.onBehalfOfUser || us.any fun use => use.found.connection.onBehalfOfUser) := by
  induction us generalizing row with
  | nil => simp
  | cons use us ih =>
      rw [List.foldl_cons, ih, List.any_cons]
      exact Bool.or_assoc _ _ _

theorem mem_foldl_users {user : User} (us : List Use) (row : Row) :
    user ∈ (us.foldl Row.add row).users ↔ user ∈ row.users ∨ ∃ use ∈ us, use.user = user := by
  induction us generalizing row with
  | nil => simp
  | cons use us ih =>
      rw [List.foldl_cons, ih]
      have hadd : user ∈ (row.add use).users ↔ user ∈ row.users ∨ use.user = user := by
        show user ∈ (if use.user ∈ row.users then row.users else row.users ++ [use.user]) ↔ _
        split
        · rename_i hmem
          exact ⟨.inl, fun h => h.elim id fun heq => heq ▸ hmem⟩
        · rw [List.mem_append, List.mem_singleton, eq_comm]
      rw [hadd, or_assoc]
      simp

/-- A status is told by its severity. -/
theorem severity_injective : Function.Injective severity := by
  intro a b h
  cases a <;> cases b <;> first | rfl | cases h

theorem severity_foldl_worse_le {n : Nat} (statuses : List FlowStatus) (worst : FlowStatus) :
    severity (statuses.foldl worse worst) ≤ n ↔
      severity worst ≤ n ∧ ∀ status ∈ statuses, severity status ≤ n := by
  induction statuses generalizing worst with
  | nil => simp
  | cons status statuses ih =>
      have hworse : severity (worse worst status) ≤ n ↔
          severity worst ≤ n ∧ severity status ≤ n := by
        rw [worse]
        split
        · rename_i hlt
          exact ⟨fun h => ⟨(Nat.le_of_lt hlt).trans h, h⟩, And.right⟩
        · rename_i hle
          exact ⟨fun h => ⟨h, (Nat.le_of_not_lt hle).trans h⟩, And.left⟩
      rw [List.foldl_cons, ih, hworse, List.forall_mem_cons, and_assoc]

/-- The worst level is that of the users, in any order. -/
theorem readStatus_congr {logs : LogsStore} {users users' : List User}
    (h : ∀ user, user ∈ users ↔ user ∈ users') : readStatus logs users = readStatus logs users' := by
  have hle : ∀ {users users' : List User}, (∀ user, user ∈ users → user ∈ users') →
      severity (readStatus logs users) ≤ severity (readStatus logs users') := by
    intro users users' hsub
    obtain ⟨hidle, hall⟩ := (severity_foldl_worse_le (users'.map (latestStatus logs)) .idle).mp le_rfl
    refine (severity_foldl_worse_le _ _).mpr ⟨hidle, fun status hstatus => ?_⟩
    obtain ⟨user, huser, rfl⟩ := List.mem_map.mp hstatus
    exact hall _ (List.mem_map_of_mem (hsub user huser))
  exact severity_injective (le_antisymm (hle fun user => (h user).mp) (hle fun user => (h user).mpr))

/-! ## The order of the flows -/

variable {digest : String → String} {logs : Option LogsStore} {flows flows' : List FlowHandle}
  {identity : Identity}

/-- The uses of one connection, in the order of the flows. -/
def usesOf (flows : List FlowHandle) (identity : Identity) : List Use :=
  (uses flows).filter (Use.identity · = identity)

/-- The account that stands in the row. -/
def accountOf (flows : List FlowHandle) (identity : Identity) : Option String :=
  (usesOf flows identity).findSome? fun use => use.found.account

theorem find_gather (flows : List FlowHandle) (identity : Identity) :
    (gather flows).find identity =
      if usesOf flows identity = [] then none
      else some ((usesOf flows identity).foldl Row.add {}) :=
  find_grouped (uses flows) identity

theorem usesOf_perm (h : flows'.Perm flows) (identity : Identity) :
    (usesOf flows' identity).Perm (usesOf flows identity) :=
  (h.flatMap_right _).filter _

/-- Rows of the same uses, in whatever order, differ in nothing but the account. -/
theorem connection_eq_iff {us us' : List Use} (h : us'.Perm us) :
    connection digest logs (identity, us'.foldl Row.add {}) =
        connection digest logs (identity, us.foldl Row.add {}) ↔
      (us'.findSome? fun use => use.found.account) = us.findSome? fun use => use.found.account := by
  have husers : ∀ user, user ∈ (us'.foldl Row.add {}).users ↔ user ∈ (us.foldl Row.add {}).users := by
    intro user
    rw [mem_foldl_users, mem_foldl_users]
    simp only [h.mem_iff]
  have htargets : (us'.foldl Row.add {}).targets = (us.foldl Row.add {}).targets := by
    rw [foldl_targets, foldl_targets, List.toFinset_eq_of_perm _ _ (h.filterMap _)]
  have hflows : ((us'.foldl Row.add {}).users.map User.flow).toFinset =
      ((us.foldl Row.add {}).users.map User.flow).toFinset := by
    ext flow
    simp only [List.mem_toFinset, List.mem_map, husers]
  have hstatus : (logs.elim .idle fun logs => readStatus logs (us'.foldl Row.add {}).users) =
      logs.elim .idle fun logs => readStatus logs (us.foldl Row.add {}).users := by
    cases logs with
    | none => rfl
    | some logs => exact readStatus_congr husers
  have hperEvent : (us'.foldl Row.add {}).perEvent = (us.foldl Row.add {}).perEvent := by
    rw [foldl_perEvent, foldl_perEvent, h.any_eq]
  have honBehalf : (us'.foldl Row.add {}).onBehalfOfUser = (us.foldl Row.add {}).onBehalfOfUser := by
    rw [foldl_onBehalfOfUser, foldl_onBehalfOfUser, h.any_eq]
  have haccount : ∀ us : List Use, (us.foldl Row.add {}).account =
      us.findSome? fun use => use.found.account := fun us => foldl_account us {}
  rw [← haccount, ← haccount]
  constructor
  · intro heq
    exact congrArg ApiConnection.account heq
  · intro hsame
    simp only [connection, hsame, htargets, hflows, hstatus, hperEvent, honBehalf]

theorem listConnections_eq_iff (h : flows'.Perm flows) :
    listConnections digest logs flows' = listConnections digest logs flows ↔
      ∀ identity, accountOf flows' identity = accountOf flows identity := by
  have hkeys : (gather flows').keys = (gather flows).keys := by
    refine SortedMap.keys_eq_of_mem fun identity => ?_
    rw [gather, gather, mem_keys_grouped, mem_keys_grouped]
    simp only [uses, (h.flatMap_right _).mem_iff]
  rw [listConnections, listConnections, SortedMap.map_entries_eq_iff hkeys]
  refine forall_congr' fun identity => ?_
  have hperm := usesOf_perm h identity
  rw [find_gather, find_gather, accountOf, accountOf]
  by_cases hempty : usesOf flows identity = []
  · have hempty' : usesOf flows' identity = [] := (hempty ▸ hperm).eq_nil
    simp [hempty, hempty']
  · have hempty' : usesOf flows' identity ≠ [] := fun h => hempty (h ▸ hperm).symm.eq_nil
    rw [if_neg hempty, if_neg hempty', Option.map_some, Option.map_some, Option.some.injEq,
      connection_eq_iff hperm]

theorem mem_usesOf {use : Use} : use ∈ usesOf flows identity ↔
    (∃ handle ∈ flows, use.flow = handle.identity ∧ use.found ∈ handle.connections) ∧
      use.identity = identity := by
  rw [usesOf, List.mem_filter, decide_eq_true_eq, uses]
  refine and_congr_left fun _ => ?_
  simp only [List.mem_flatMap, List.mem_map]
  constructor
  · rintro ⟨handle, hhandle, found, hfound, rfl⟩
    exact ⟨handle, hhandle, rfl, hfound⟩
  · rintro ⟨handle, hhandle, hflow, hfound⟩
    exact ⟨handle, hhandle, use.found, hfound, by rw [← hflow]⟩

/-- The account that all uses name which name one. -/
theorem findSome?_account {us : List Use} {use : Use} {a : String} (huse : use ∈ us)
    (ha : use.found.account = some a)
    (hall : ∀ other ∈ us, ∀ b, other.found.account = some b → b = a) :
    (us.findSome? fun use => use.found.account) = some a := by
  cases hfind : us.findSome? fun use => use.found.account with
  | none =>
      rw [List.findSome?_eq_none_iff.mp hfind use huse] at ha
      cases ha
  | some b =>
      obtain ⟨other, hother, hb⟩ := List.exists_of_findSome?_eq_some hfind
      rw [hall other hother b hb]

/-- The first flow decides. -/
theorem accountOf_cons {handle : FlowHandle} {u : TaskConnection} {a : String}
    (hu : u ∈ handle.connections) (ha : u.account = some a) :
    accountOf (handle :: flows) u.identity = some a := by
  have hsplit : usesOf (handle :: flows) u.identity =
      (handle.connections.map fun found => (⟨handle.identity, found⟩ : Use)).filter
        (Use.identity · = u.identity) ++ usesOf flows u.identity := by
    rw [usesOf, uses, List.flatMap_cons, List.filter_append]
    rfl
  have hmem : (⟨handle.identity, u⟩ : Use) ∈
      (handle.connections.map fun found => (⟨handle.identity, found⟩ : Use)).filter
        (Use.identity · = u.identity) :=
    List.mem_filter.mpr ⟨List.mem_map_of_mem hu, decide_eq_true rfl⟩
  rw [accountOf, hsplit, List.findSome?_append, findSome?_account hmem ha]
  · rfl
  · intro other hother b hb
    obtain ⟨hfrom, hsame⟩ := List.mem_filter.mp hother
    obtain ⟨found, hfound, rfl⟩ := List.mem_map.mp hfrom
    exact handle.agree_of_mem hfound hu (of_decide_eq_true hsame) b a hb ha

/-- **Only the account depends on the order.**  Whatever order the registry hands the flows
out in, the list of connections is the same, with the same targets, flows and status, exactly
if no two loaded flows name different accounts for one connection. -/
theorem listConnections_perm_iff :
    (∀ flows', flows'.Perm flows →
        listConnections digest logs flows' = listConnections digest logs flows) ↔
      ∀ f ∈ flows, ∀ g ∈ flows, ∀ u ∈ f.connections, ∀ v ∈ g.connections, Agree u v := by
  constructor
  · intro hall f hf g hg u hu v hv hidentity a b ha hb
    -- The account of a flow that comes first is the one in the row.
    have hfirst : ∀ handle ∈ flows, ∀ w ∈ handle.connections, ∀ c, w.account = some c →
        accountOf flows w.identity = some c := by
      intro handle hhandle w hw c hc
      obtain ⟨before, after, rfl⟩ := List.append_of_mem hhandle
      have hperm : (handle :: (before ++ after)).Perm (before ++ handle :: after) :=
        List.perm_middle.symm
      rw [← (listConnections_eq_iff hperm).mp (hall _ hperm)]
      exact accountOf_cons hw hc
    have hua := hfirst f hf u hu a ha
    have hvb := hfirst g hg v hv b hb
    rw [hidentity, hvb] at hua
    exact (Option.some.inj hua).symm
  · intro hagree flows' hperm
    refine (listConnections_eq_iff hperm).mpr fun identity => ?_
    have hus := usesOf_perm hperm identity
    cases haccount : accountOf flows identity with
    | none =>
        refine List.findSome?_eq_none_iff.mpr fun use huse => ?_
        exact List.findSome?_eq_none_iff.mp haccount use (hus.mem_iff.mp huse)
    | some a =>
        obtain ⟨use, huse, ha⟩ := List.exists_of_findSome?_eq_some haccount
        refine findSome?_account (hus.mem_iff.mpr huse) ha fun other hother b hb => ?_
        obtain ⟨⟨f, hf, -, hfound⟩, hidentity⟩ := mem_usesOf.mp huse
        obtain ⟨⟨g, hg, -, hother'⟩, hidentity'⟩ := mem_usesOf.mp (hus.mem_iff.mp hother)
        exact hagree g hg f hf _ hother' _ hfound (hidentity'.trans hidentity.symm) b a hb ha

/-! ## Finding a row again -/

/-- The digest tells the loaded connections apart, as far as what it hashes does. -/
def CollisionFree (digest : String → String) (flows : List FlowHandle) : Prop :=
  ∀ i ∈ (gather flows).keys, ∀ j ∈ (gather flows).keys,
    digest (hashed i) = digest (hashed j) → hashed i = hashed j

theorem connector_plain {entry : Identity × Row} (h : entry ∈ (gather flows).entries) :
    '\x00' ∉ (connectorOf entry.1).toList := by
  obtain ⟨use, -, hidentity⟩ := mem_keys_grouped.mp (List.mem_map_of_mem h)
  rw [← hidentity]
  exact use.found.connection.connector.plain

theorem hashed_eq {entry entry' : Identity × Row} (h : entry ∈ (gather flows).entries)
    (h' : entry' ∈ (gather flows).entries) (heq : hashed entry.1 = hashed entry'.1) :
    connectorOf entry.1 = connectorOf entry'.1 ∧
      (pathOf entry.1).getD "" = (pathOf entry'.1).getD "" := by
  have hchars := congrArg String.toList heq
  have hnul : "\x00".toList = ['\x00'] := rfl
  simp only [hashed, String.toList_append, hnul, List.append_assoc, List.singleton_append] at hchars
  have hsplit := congrArg (Text.splitOnce '\x00') hchars
  rw [Text.splitOnce_append (connector_plain h), Text.splitOnce_append (connector_plain h')] at hsplit
  obtain ⟨hconnector, hpath⟩ := Prod.mk.inj (Option.some.inj hsplit)
  exact ⟨String.toList_injective hconnector, String.toList_injective hpath⟩

theorem lt_of_path {i j : Identity} (hconnector : connectorOf i = connectorOf j) {path : String}
    (hi : pathOf i = none) (hj : pathOf j = some path) : i < j := by
  refine Prod.Lex.lt_iff.mpr (.inr ⟨hconnector, ?_⟩)
  have hbot : (ofLex i).2 = (⊥ : WithBot String) := hi
  have hcoe : (ofLex j).2 = (path : WithBot String) := hj
  rw [hbot, hcoe]
  exact WithBot.bot_lt_coe path

theorem identity_ext {i j : Identity} (hconnector : connectorOf i = connectorOf j)
    (hpath : pathOf i = pathOf j) : i = j :=
  ofLex.injective (Prod.ext hconnector hpath)

/-- Two identities that are hashed alike differ in a missing and an empty path. -/
theorem hashed_eq_iff {entry entry' : Identity × Row} (h : entry ∈ (gather flows).entries)
    (h' : entry' ∈ (gather flows).entries) (hlt : entry.1 < entry'.1) :
    hashed entry.1 = hashed entry'.1 ↔
      connectorOf entry.1 = connectorOf entry'.1 ∧ pathOf entry.1 = none ∧
        pathOf entry'.1 = some "" := by
  constructor
  · intro heq
    obtain ⟨hconnector, hpath⟩ := hashed_eq h h' heq
    have hne : pathOf entry.1 ≠ pathOf entry'.1 := fun hpaths =>
      hlt.ne (identity_ext hconnector hpaths)
    cases hleft : pathOf entry.1 with
    | none =>
        cases hright : pathOf entry'.1 with
        | none => exact absurd (hleft.trans hright.symm) hne
        | some path =>
            rw [hleft, hright] at hpath
            exact ⟨hconnector, rfl, congrArg some hpath.symm⟩
    | some path =>
        cases hright : pathOf entry'.1 with
        | none => exact absurd (lt_of_path hconnector.symm hright hleft) hlt.asymm
        | some path' =>
            rw [hleft, hright] at hpath
            exact absurd (hleft.trans ((congrArg some hpath).trans hright.symm)) hne
  · rintro ⟨hconnector, hnone, hempty⟩
    rw [hashed, hashed, hconnector, hnone, hempty]
    rfl

/-- **An empty path hides behind none.**  The id in the list leads back to its connection,
unless the connection has an empty credentials path and another one of the same connector
has none; the two share an id, and the request gets the other. -/
theorem getConnection_listed_iff (hdigest : CollisionFree digest flows) {c : ApiConnection}
    (hc : c ∈ listConnections digest logs flows) :
    getConnection digest logs flows c.id = .ok c ↔
      ¬(c.credentialsPath = some "" ∧ ∃ c' ∈ listConnections digest logs flows,
        c'.connector = c.connector ∧ c'.credentialsPath = none) := by
  obtain ⟨entry, hentry, rfl⟩ := List.mem_map.mp hc
  rw [getConnection]
  cases hfind : (gather flows).entries.find? fun found =>
      identityId digest found.1 = (connection digest logs entry).id with
  | none =>
      have hno := List.find?_eq_none.mp hfind entry hentry
      exact absurd (decide_eq_true rfl) hno
  | some first =>
      have hfirst : first ∈ (gather flows).entries := List.mem_of_find?_eq_some hfind
      have hsame : hashed first.1 = hashed entry.1 :=
        hdigest _ (List.mem_map_of_mem hfirst) _ (List.mem_map_of_mem hentry)
          (of_decide_eq_true (List.find?_eq_some_iff_append.mp hfind).1)
      rcases SortedMap.eq_or_lt_of_find? hfind hentry (decide_eq_true rfl) with rfl | hlt
      · refine iff_of_true rfl ?_
        rintro ⟨hempty, c', hc', hconnector, hnone⟩
        obtain ⟨other, hother, rfl⟩ := List.mem_map.mp hc'
        have hbelow : other.1 < entry.1 := lt_of_path hconnector hnone hempty
        have hid := congrArg digest
          ((hashed_eq_iff hother hentry hbelow).mpr ⟨hconnector, hnone, hempty⟩)
        rcases SortedMap.eq_or_lt_of_find? hfind hother (decide_eq_true hid) with heq | hgt
        · rw [heq] at hbelow
          exact lt_irrefl _ hbelow
        · exact lt_asymm hbelow hgt
      · obtain ⟨hconnector, hnone, hempty⟩ := (hashed_eq_iff hfirst hentry hlt).mp hsame
        refine iff_of_false (fun heq => ?_) (fun hno => hno ?_)
        · have hpaths : pathOf first.1 = pathOf entry.1 :=
            congrArg ApiConnection.credentialsPath (Except.ok.inj heq)
          rw [hnone, hempty] at hpaths
          cases hpaths
        · exact ⟨hempty, _, List.mem_map_of_mem hfirst, hconnector, hnone⟩

/-- One flow that uses a connector without credentials, and with an empty path. -/
def queueFlow : FlowHandle :=
  let queue : Connector := ⟨"queue", by decide, none⟩
  ofFlow some "orders"
    [⟨"in", false, [⟨queue, none, some "a", false, false⟩]⟩,
      ⟨"out", false, [⟨queue, some "", some "b", false, false⟩]⟩]

theorem getConnection_listed_queue :
    (∃ c ∈ listConnections id none [queueFlow], getConnection id none [queueFlow] c.id = .ok c) ∧
      ∃ c ∈ listConnections id none [queueFlow], getConnection id none [queueFlow] c.id ≠ .ok c := by
  have hfree : CollisionFree id [queueFlow] := fun _ _ _ _ h => h
  have hbare : identityOf "queue" none ∈ (gather [queueFlow]).keys :=
    mem_keys_grouped.mpr ⟨_, List.mem_cons_self, rfl⟩
  have hblank : identityOf "queue" (some "") ∈ (gather [queueFlow]).keys :=
    mem_keys_grouped.mpr ⟨_, List.mem_cons_of_mem _ List.mem_cons_self, rfl⟩
  obtain ⟨bare, hbare, hbareKey⟩ := List.mem_map.mp hbare
  obtain ⟨blank, hblank, hblankKey⟩ := List.mem_map.mp hblank
  have hbarePath : pathOf bare.1 = none := congrArg pathOf hbareKey
  have hblankPath : pathOf blank.1 = some "" := congrArg pathOf hblankKey
  have hconnector : connectorOf bare.1 = connectorOf blank.1 :=
    (congrArg connectorOf hbareKey).trans (congrArg connectorOf hblankKey).symm
  refine ⟨⟨_, List.mem_map_of_mem hbare, ?_⟩, _, List.mem_map_of_mem hblank, ?_⟩
  · refine (getConnection_listed_iff hfree (List.mem_map_of_mem hbare)).mpr fun h => ?_
    have hsome : pathOf bare.1 = some "" := h.1
    rw [hbarePath] at hsome
    cases hsome
  · intro h
    exact (getConnection_listed_iff hfree (List.mem_map_of_mem hblank)).mp h
      ⟨hblankPath, _, List.mem_map_of_mem hbare, hconnector, hbarePath⟩

end Flowgen.Web.Connections
