/-
# `Flowgen.Authoring.Deployment` — what is deployed of the changes (`app/src/authoring.rs`)

A published change reaches the pods some time after it was decided.  Until
then, what the branch holds of a file is computed: from the newest published
version that already runs, each later one that was made from the content so far
is applied (`applyPublished`), and its change is pending.  Once the result has
been deployed, the same versions leave it as it is, and nothing is pending
(`published_settle`).

A file is deployed under the identity of its flow, which has no extension, or
under the key of its resource.  `check_paths` tells files apart by their paths,
and so accepts two files of one flow that differ in the extension
(`deployed_distinct_iff`).
-/
import Flowgen.Authoring.Change

namespace Flowgen.Authoring

open Flowgen.Text

/-! ## The published versions of a file -/

/-- `str::trim_end`. -/
def trimEnd (s : String) : String := String.ofList (s.toList.rdropWhile isWhitespace)

/-- Trailing whitespace does not count; `none` is a missing file. -/
def sameContent : Option String → Option String → Bool
  | some a, some b => trimEnd a = trimEnd b
  | none, none => true
  | _, _ => false

attribute [grind =] sameContent

/-- Versions of a file with the change that made them, oldest approval first. -/
abbrev Versions := List (String × ChangeFile)

/-- `index_published`, at a path. -/
def indexPublished (changes : List Change) (path : String) : Versions :=
  let decided := (changes.filter (·.status = .published)).map fun change =>
    (change.decidedAt.getD change.createdAt, change)
  (decided.mergeSort fun a b => a.1 ≤ b.1).flatMap fun (_, change) =>
    (change.files.filter (·.path = path)).map fun file => (change.id, file)

/-- `Iterator::rposition`. -/
def rposition {α : Type} (p : α → Bool) : List α → Option Nat
  | [] => none
  | x :: xs =>
      match rposition p xs with
      | some i => some (i + 1)
      | none => if p x then some 0 else none

/-- The versions after the newest one that runs. -/
def laterVersions (running : Option String) (versions : Versions) : Versions :=
  versions.drop
    (match rposition (fun version => sameContent running version.2.content) versions with
    | some deployed => deployed + 1
    | none => 0)

/-- The loop of `apply_published`. -/
def applyVersions (content : Option String) : Versions → Option String × List String
  | [] => (content, [])
  | (id, version) :: versions =>
      if sameContent content version.previous then
        let (content, pending) := applyVersions version.content versions
        (content, id :: pending)
      else applyVersions content versions

/-- What the branch holds as far as is known, and the changes that are not deployed
yet. -/
def applyPublished (running : Option String) (versions : Versions) :
    Option String × List String :=
  applyVersions running (laterVersions running versions)

/-- `base_content`, of every path. -/
def baseContent (running : String → Option String) (published : String → Versions)
    (path : String) : Option String :=
  (applyPublished (running path) (published path)).1

variable {a b c : Option String} {versions before after : Versions}

theorem sameContent_refl (a : Option String) : sameContent a a = true := by
  cases a <;> simp [sameContent]

theorem sameContent_symm : sameContent a b = sameContent b a := by
  cases a <;> cases b <;> simp [sameContent, eq_comm]

theorem sameContent_trans (h : sameContent a b = true) (h' : sameContent b c = true) :
    sameContent a c = true := by
  cases a <;> cases b <;> cases c <;> simp_all [sameContent]

/-- No version was made from the content, so that none is applied. -/
def Settled (content : Option String) (versions : Versions) : Prop :=
  ∀ version ∈ versions, sameContent content version.2.previous = false

theorem applyVersions_settled (h : Settled c versions) : applyVersions c versions = (c, []) := by
  induction versions with
  | nil => rfl
  | cons version versions ih =>
      obtain ⟨hfirst, hrest⟩ := List.forall_mem_cons.mp h
      rw [applyVersions, if_neg (by rw [hfirst]; exact Bool.false_ne_true)]
      exact ih hrest

/-- The content that is reached is the one given, or that of a version; what comes after
it is settled. -/
theorem applyVersions_reaches (c : Option String) (versions : Versions) :
    (applyVersions c versions).1 = c ∧ Settled c versions ∨
      ∃ before version after, versions = before ++ version :: after ∧
        (applyVersions c versions).1 = version.2.content ∧ Settled version.2.content after := by
  induction versions generalizing c with
  | nil => exact .inl ⟨rfl, fun _ h => absurd h List.not_mem_nil⟩
  | cons version versions ih =>
      rw [applyVersions]
      split
      · right
        rcases ih version.2.content with
          ⟨hsame, hsettled⟩ | ⟨before, last, after, rfl, hlast, hsettled⟩
        · exact ⟨[], version, versions, rfl, hsame, hsettled⟩
        · exact ⟨version :: before, last, after, rfl, hlast, hsettled⟩
      · rename_i hfirst
        rcases ih c with ⟨hsame, hsettled⟩ | ⟨before, last, after, rfl, hlast, hsettled⟩
        · left
          exact ⟨hsame, List.forall_mem_cons.mpr ⟨Bool.eq_false_of_not_eq_true hfirst, hsettled⟩⟩
        · right
          exact ⟨version :: before, last, after, rfl, hlast, hsettled⟩

section Rposition

variable {α : Type} {p : α → Bool} {xs ys : List α} {x : α}

theorem rposition_append_cons (hx : p x = true) :
    ∃ i, rposition p (xs ++ x :: ys) = some (xs.length + i) := by
  induction xs with
  | nil =>
      rw [List.nil_append, rposition]
      split
      · rename_i i _
        exact ⟨i + 1, by rw [List.length_nil, Nat.zero_add]⟩
      · exact ⟨0, by rw [if_pos hx]; rfl⟩
  | cons y xs ih =>
      obtain ⟨i, hi⟩ := ih
      refine ⟨i, ?_⟩
      rw [List.cons_append, rposition, hi, List.length_cons]
      exact congrArg some (by omega)

end Rposition

/-- After a version that runs, only later ones are left. -/
theorem laterVersions_subset {version : String × ChangeFile}
    (h : sameContent c version.2.content = true) :
    laterVersions c (before ++ version :: after) ⊆ after := by
  obtain ⟨i, hi⟩ : ∃ i, rposition (fun version => sameContent c version.2.content)
      (before ++ version :: after) = some (before.length + i) := rposition_append_cons h
  rw [laterVersions, hi]
  have hdrop : (before ++ version :: after).drop (before.length + i + 1) = after.drop i := by
    rw [Nat.add_assoc, ← List.drop_drop, List.drop_left, List.drop_succ_cons]
  simp only [hdrop]
  exact List.drop_subset i after

theorem Settled.congr (h : Settled a versions) (hsame : sameContent a b = true) :
    Settled b versions := by
  intro version hv
  refine Bool.eq_false_of_not_eq_true fun hb => ?_
  have ha := h version hv
  rw [sameContent_trans hsame hb] at ha
  cases ha

theorem laterVersions_congr (hsame : sameContent a b = true) (versions : Versions) :
    laterVersions a versions = laterVersions b versions := by
  have hpointwise : (fun version : String × ChangeFile => sameContent a version.2.content) =
      fun version => sameContent b version.2.content := by
    funext version
    rw [Bool.eq_iff_iff]
    exact ⟨sameContent_trans (sameContent_symm.trans hsame), sameContent_trans hsame⟩
  rw [laterVersions, laterVersions, hpointwise]

/-- What has been reached needs no version any more, whatever whitespace the deployment
leaves at its end. -/
theorem applyPublished_deployed {running deployed : Option String}
    (h : sameContent (applyPublished running versions).1 deployed = true) :
    applyPublished deployed versions = (deployed, []) := by
  refine applyVersions_settled ?_
  rw [applyPublished] at h
  obtain ⟨before, hversions⟩ : ∃ before, versions = before ++ laterVersions running versions :=
    ⟨_, (List.take_append_drop _ _).symm⟩
  rcases applyVersions_reaches running (laterVersions running versions) with
    ⟨hkept, hsettled⟩ | ⟨skipped, last, after, hlater, hlast, hsettled⟩
  · rw [hkept] at h
    rw [← laterVersions_congr h]
    exact hsettled.congr h
  · rw [hlast] at h
    rw [hlater, ← List.append_assoc] at hversions
    have hsub : laterVersions deployed versions ⊆ after := by
      rw [hversions]
      exact laterVersions_subset (sameContent_symm.trans h)
    exact fun version hv => hsettled.congr h version (hsub hv)

/-- Once the content that was computed has been deployed, the published versions give it
again, and nothing is pending. -/
theorem published_settle (running : String → Option String) (published : String → Versions)
    (path : String) :
    applyPublished (baseContent running published path) (published path) =
      (baseContent running published path, []) :=
  applyPublished_deployed (sameContent_refl _)

inductive ChangeDeployment
  | waiting
  | deployed
deriving DecidableEq

/-- The loop of `deployment`; a file that cannot be read ends it. -/
def deploymentFrom (deployed : String → Option (Option String)) (changes : List Change)
    (id : String) : List ChangeFile → Option ChangeDeployment
  | [] => some .deployed
  | file :: files =>
      match locate file.path, deployed file.path with
      | .ok _, some running =>
          if id ∈ (applyPublished running (indexPublished changes file.path)).2 then some .waiting
          else deploymentFrom deployed changes id files
      | _, _ => none

/-- Where a published change stands; `tracked` if its target tracks deployments. -/
def deployment (tracked : Bool) (deployed : String → Option (Option String))
    (changes : List Change) (change : Change) : Option ChangeDeployment :=
  if change.status = .published ∧ tracked then
    deploymentFrom deployed changes change.id change.files
  else none

/-- When what the branch holds has been deployed, no change is waiting. -/
theorem deployment_ne_waiting {tracked : Bool} {running : String → Option String}
    {deployed : String → Option (Option String)} {changes : List Change} {change : Change}
    (h : ∀ path, deployed path = some (baseContent running (indexPublished changes) path)) :
    deployment tracked deployed changes change ≠ some .waiting := by
  rw [deployment]
  split
  · induction change.files with
    | nil => exact fun hw => by cases hw
    | cons file files ih =>
        rw [deploymentFrom]
        split
        · rename_i content _ hcontent
          obtain rfl := Option.some.inj ((h file.path).symm.trans hcontent)
          have hsettled : applyPublished (baseContent running (indexPublished changes) file.path)
              (indexPublished changes file.path) = (_, []) :=
            applyPublished_deployed (sameContent_refl _)
          rw [hsettled, if_neg List.not_mem_nil]
          exact ih
        · exact fun hw => by cases hw
  · exact fun hw => by cases hw

/-! ## What becomes of the files -/

def flowConfigExtensions : List (List Char) := ["yaml".toList, "yml".toList, "json".toList]

/-- `str::rsplit_once`. -/
def rsplitOnce (sep : Char) (cs : List Char) : Option (List Char × List Char) :=
  (splitOnce sep cs.reverse).map fun (after, before) => (before.reverse, after.reverse)

/-- The path of a flow without its extension. -/
def flowIdentity (path : String) : String :=
  match rsplitOnce '.' path.toList with
  | some (stem, extension) => if extension ∈ flowConfigExtensions then String.ofList stem else path
  | none => path

/-- What a file is deployed as. -/
inductive Object
  | flow (identity : String)
  | resource (key : String)
deriving DecidableEq

def Location.object : Location → Object
  | .flow file => .flow (flowIdentity file)
  | .resource key => .resource key

/-- Where the location is in the workspace. -/
def Location.path : Location → String
  | .flow file => "flows/" ++ file
  | .resource key => "resources/" ++ key

/-- The names of the files of a flow. -/
def flowFiles (identity : String) : List String :=
  (if flowIdentity identity = identity then [identity] else []) ++
    flowConfigExtensions.map fun extension => String.ofList (identity.toList ++ '.' :: extension)

/-- Where the files with content are deployed; the others are deleted. -/
def deployedLocations (files : List WorkspaceFile) (locations : List Location) : List Location :=
  ((files.zip locations).filter fun entry => entry.1.content.isSome).map Prod.snd

/-- No flow has two files. -/
def OneFilePerFlow (files : List WorkspaceFile) : Prop :=
  ∀ identity, ∀ p ∈ flowFiles identity, ∀ q ∈ flowFiles identity,
    "flows/" ++ p ∈ files.map (·.path) → "flows/" ++ q ∈ files.map (·.path) → p = q

theorem rsplitOnce_eq_some {sep : Char} {cs before after : List Char} :
    rsplitOnce sep cs = some (before, after) ↔ cs = before ++ sep :: after ∧ sep ∉ after := by
  rw [rsplitOnce, Option.map_eq_some_iff]
  constructor
  · rintro ⟨⟨after', before'⟩, hsplit, heq⟩
    cases heq
    obtain ⟨hcs, hsep⟩ := splitOnce_eq_some.mp hsplit
    refine ⟨?_, by rwa [List.mem_reverse]⟩
    have hrev := congrArg List.reverse hcs
    simpa using hrev
  · rintro ⟨rfl, hsep⟩
    refine ⟨(after.reverse, before.reverse), splitOnce_eq_some.mpr ⟨by simp, ?_⟩, by simp⟩
    rwa [List.mem_reverse]

theorem flowIdentity_extension {stem extension : List Char} (h : extension ∈ flowConfigExtensions) :
    flowIdentity (String.ofList (stem ++ '.' :: extension)) = String.ofList stem := by
  have hdot : '.' ∉ extension := by
    simp only [flowConfigExtensions, List.mem_cons, List.not_mem_nil, or_false] at h
    rcases h with rfl | rfl | rfl <;> decide
  have hsplit : rsplitOnce '.' (String.ofList (stem ++ '.' :: extension)).toList =
      some (stem, extension) := by
    rw [String.toList_ofList]
    exact rsplitOnce_eq_some.mpr ⟨rfl, hdot⟩
  simp only [flowIdentity, hsplit, if_pos h]

theorem mem_flowFiles {identity file : String} :
    file ∈ flowFiles identity ↔ flowIdentity file = identity := by
  rw [flowFiles, List.mem_append, List.mem_map]
  constructor
  · rintro (h | ⟨extension, hextension, rfl⟩)
    · split at h
      · rename_i hself
        obtain rfl := List.mem_singleton.mp h
        exact hself
      · cases h
    · rw [flowIdentity_extension hextension, String.ofList_toList]
  · rintro rfl
    by_cases hself : flowIdentity file = file
    · left
      rw [if_pos (by rw [hself, hself]), hself]
      exact List.mem_singleton_self file
    · right
      rw [flowIdentity] at hself ⊢
      split at hself
      · rename_i stem extension hsplit
        obtain ⟨hfile, -⟩ := rsplitOnce_eq_some.mp hsplit
        split at hself
        · rename_i hextension
          refine ⟨extension, hextension, ?_⟩
          rw [if_pos hextension, String.toList_ofList, ← hfile, String.ofList_toList]
        · exact absurd rfl hself
      · exact absurd rfl hself

theorem locate_path {path : String} {location : Location} (h : locate path = .ok location) :
    location.path = path := by
  rw [locate] at h
  split at h
  · cases h
  · rename_i root rest hsplit
    obtain ⟨hpath, -⟩ := splitOnce_eq_some.mp hsplit
    split at h
    · cases h
    rename_i hroot
    split at h
    · cases h
    split at h
    · cases h
    apply String.toList_inj.mp
    split at h <;> cases h
    · rename_i hflows
      rw [Location.path, String.toList_append, hpath, hflows]
      simp
    · rename_i hflows
      have hresources : root = "resources".toList := by
        by_contra hne
        exact hroot ⟨hflows, hne⟩
      rw [Location.path, String.toList_append, hpath, hresources]
      simp

theorem Location.path_injective : Function.Injective Location.path := by
  intro l l' h
  have hlist := congrArg String.toList h
  cases l <;> cases l' <;>
    simp only [Location.path, String.toList_append, List.append_cancel_left_eq] at hlist
  · rw [String.toList_inj.mp hlist]
  · simp at hlist
  · simp at hlist
  · rw [String.toList_inj.mp hlist]

/-- The locations are those of the paths, of which none is there twice. -/
theorem checkPathsFrom_eq_ok {seen : List String} {files : List WorkspaceFile}
    {locations : List Location} (h : checkPathsFrom seen files = .ok locations) :
    locations.map Location.path = files.map (·.path) ∧ (files.map (·.path)).Nodup ∧
      ∀ p ∈ files.map (·.path), p ∉ seen := by
  induction files generalizing seen locations with
  | nil =>
      cases h
      exact ⟨rfl, List.nodup_nil, fun _ hp => absurd hp List.not_mem_nil⟩
  | cons file files ih =>
      rw [checkPathsFrom] at h
      split at h
      · cases h
      · rename_i location hlocate
        split at h
        · cases h
        · rename_i hseen
          cases hrest : checkPathsFrom (file.path :: seen) files with
          | error e =>
              rw [hrest] at h
              cases h
          | ok rest =>
              rw [hrest] at h
              cases h
              obtain ⟨hpaths, hnodup, hnew⟩ := ih hrest
              refine ⟨?_, ?_, ?_⟩
              · rw [List.map_cons, List.map_cons, locate_path hlocate, hpaths]
              · exact List.nodup_cons.mpr
                  ⟨fun hmem => hnew _ hmem List.mem_cons_self, hnodup⟩
              · intro p hp
                rcases List.mem_cons.mp hp with rfl | hp
                · exact hseen
                · exact fun hmem => hnew p hp (List.mem_cons_of_mem _ hmem)

/-- Locations of different paths are of different objects exactly if no flow has two of the
files. -/
theorem distinct_iff {files : List WorkspaceFile} {locations : List Location}
    (hpaths : locations.map Location.path = files.map (·.path))
    (hnodup : (files.map (·.path)).Nodup) :
    (locations.map Location.object).Nodup ↔ OneFilePerFlow files := by
  have hlocations : locations.Nodup := List.Nodup.of_map Location.path (hpaths ▸ hnodup)
  have hmem : ∀ l : Location, l.path ∈ files.map (·.path) ↔ l ∈ locations := fun l => by
    rw [← hpaths, List.mem_map_of_injective Location.path_injective]
  rw [List.nodup_map_iff_inj_on hlocations]
  constructor
  · intro hinj identity p hp q hq hpmem hqmem
    have hobject : (Location.flow p).object = (Location.flow q).object := by
      rw [Location.object, Location.object, mem_flowFiles.mp hp, mem_flowFiles.mp hq]
    exact Location.flow.inj
      (hinj _ ((hmem (.flow p)).mp hpmem) _ ((hmem (.flow q)).mp hqmem) hobject)
  · intro hone l hl l' hl' hobject
    cases l with
    | flow p =>
        cases l' with
        | flow q =>
            have hidentity : flowIdentity p = flowIdentity q := Object.flow.inj hobject
            exact congrArg Location.flow
              (hone _ p (mem_flowFiles.mpr hidentity) q (mem_flowFiles.mpr rfl)
                ((hmem _).mpr hl) ((hmem _).mpr hl'))
        | resource key => cases hobject
    | resource key =>
        cases l' with
        | flow q => cases hobject
        | resource key' => exact congrArg Location.resource (Object.resource.inj hobject)

theorem deployedLocations_paths {files : List WorkspaceFile} {locations : List Location}
    (hpaths : locations.map Location.path = files.map (·.path)) :
    (deployedLocations files locations).map Location.path =
      (files.filter fun file => file.content.isSome).map (·.path) := by
  induction files generalizing locations with
  | nil => rfl
  | cons file files ih =>
      cases locations with
      | nil => cases hpaths
      | cons location locations =>
          obtain ⟨hpath, hpaths⟩ := List.cons.inj hpaths
          have hrest := ih hpaths
          rw [deployedLocations] at hrest ⊢
          rw [List.zip_cons_cons, List.filter_cons, List.filter_cons]
          split
          · rw [List.map_cons, List.map_cons, List.map_cons, hrest, hpath]
          · exact hrest

/-- Files that are accepted are deployed as different objects exactly if no flow has two
files among them; and the same holds with the deleted ones left out. -/
theorem deployed_distinct_iff (files : List WorkspaceFile) (locations : List Location)
    (h : checkPaths files = .ok locations) :
    ((locations.map Location.object).Nodup ↔ OneFilePerFlow files) ∧
      (((deployedLocations files locations).map Location.object).Nodup ↔
        OneFilePerFlow (files.filter fun file => file.content.isSome)) := by
  obtain ⟨hpaths, hnodup, -⟩ := checkPathsFrom_eq_ok h
  refine ⟨distinct_iff hpaths hnodup, distinct_iff (deployedLocations_paths hpaths) ?_⟩
  exact hnodup.sublist (List.filter_sublist.map _)

/-- A flow is written as YAML again that was JSON, and a resource has its name. -/
theorem deployed_distinct_resource :
    checkPaths
        [⟨"flows/a.yaml", some "x"⟩, ⟨"flows/a.json", none⟩, ⟨"resources/a.yaml", some "y"⟩] =
        .ok [.flow "a.yaml", .flow "a.json", .resource "a.yaml"] ∧
      OneFilePerFlow [⟨"flows/a.yaml", some "x"⟩, ⟨"resources/a.yaml", some "y"⟩] := by
  refine ⟨by decide, ?_⟩
  exact (deployed_distinct_iff
    [⟨"flows/a.yaml", some "x"⟩, ⟨"flows/a.json", none⟩, ⟨"resources/a.yaml", some "y"⟩]
    [.flow "a.yaml", .flow "a.json", .resource "a.yaml"] (by decide)).2.mp (by decide)

/-- A flow is proposed as YAML and as JSON. -/
theorem same_flow_accepted_twice :
    ∃ files locations, checkPaths files = .ok locations ∧
      ¬ ((deployedLocations files locations).map Location.object).Nodup :=
  ⟨[⟨"flows/a.yaml", some "x"⟩, ⟨"flows/a.json", some "y"⟩], [.flow "a.yaml", .flow "a.json"],
    by decide, by decide⟩

end Flowgen.Authoring
