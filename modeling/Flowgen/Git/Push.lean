/-
# `Flowgen.Git.Push` — committing file changes and pushing them
(`git/src/push/client.rs`)

`Push::push` learns from the server whether the branch exists, fetches its head,
checks every change against the tree of the head, makes the new tree with an editor
of gix, and asks the server to move the branch from the head to the new commit.
Other pushers move the branch at any time; the server moves it for this push only
while it is where the push says.

The checks are made one by one against the tree of the head, and the edits one by
one on the result of those before.  A list whose paths overlap passes the checks all
the same, and then a later edit undoes an earlier one: the push reports success, and
the new tree does not hold every change (`push_exact_iff`).

The editor is a parameter: what is documented of it is `TreeEditor.Documented`.  So
is the check of a single path component by gix.  Fetching, encoding and the requests
may fail at any time.
-/
import Flowgen.Lib.Machine
import Flowgen.Lib.Fallible
import Flowgen.Git.Pack

namespace Flowgen.Git

open Flowgen.Lib Flowgen.Lib.FileTree

abbrev Bytes := List UInt8

/-- What a file must contain on the branch for a change to apply. -/
inductive Expected
  | any
  | missing
  | content (content : Bytes)
deriving DecidableEq

/-- One file to write, or to delete where there is no content. -/
structure FileChange where
  path : String
  content : Option Bytes
  expected : Expected
deriving DecidableEq

structure Author where
  name : String
  email : String
deriving DecidableEq

structure CommittedFile where
  path : String
  content : Bytes
deriving DecidableEq

/-- `other` is every failure of the network, of the repository or of an encoding. -/
inductive Error
  | invalidPath (path : String)
  | conflict (path : String)
  | nothingToPush
  | branchMissing (branch : String)
  | refRejected (branch : String)
  | branchMoved (branch : String)
  | other
deriving DecidableEq

/-! ## Paths -/

/-- Splits a relative path into its segments; `component` is the check of gix. -/
def normalizePath (component : String → Bool) (path : String) : Except Error (List String) :=
  let segments := ((path.toList.splitOn '/').filter fun segment => !segment.isEmpty).map String.ofList
  let invalid := path.toList.head? == some '/' ||
    path.toList.any (fun c => c.toNat = 92 || c.toNat = 0) ||
    segments.any fun segment => !component segment
  if invalid then .error (.invalidPath path) else .ok segments

/-- The changes with their full paths. -/
def fullPaths (component : String → Bool) (pathPrefix : List String) :
    List FileChange → Except Error (List (List String × FileChange))
  | [] => .ok []
  | change :: changes => do
      let segments ← normalizePath component change.path
      if segments.isEmpty then .error (.invalidPath change.path)
      else
        let rest ← fullPaths component pathPrefix changes
        return (pathPrefix ++ segments, change) :: rest

/-! ## The checks -/

/-- What a path holds on the branch. -/
inductive Current
  | file (kind : EntryKind) (content : Bytes)
  | other
deriving DecidableEq

/-- An ancestor that is not a directory makes it `other`. -/
def entryAt : Tree → List String → Option Current
  | _, [] => none
  | tree, segment :: segments =>
      match tree.find segment, segments with
      | none, _ => none
      | some (.tree sub), _ :: _ => entryAt sub segments
      | some (.leaf ⟨.blob, content⟩), [] => some (.file .blob content)
      | some (.leaf ⟨.blobExecutable, content⟩), [] => some (.file .blobExecutable content)
      | _, _ => some .other

def joined (path : List String) : String := "/".intercalate path

/-- A change applies when the branch holds what it was prepared against, or its
result. -/
def checkExpected (path : List String) (change : FileChange) (current : Option Current) :
    Except Error Unit :=
  let currentContent := match current with
    | some (.file _ content) => some content
    | _ => none
  let alreadyApplied := match change.content, current with
    | some target, some (.file _ content) => target == content
    | none, none => true
    | _, _ => false
  let holds := alreadyApplied || match change.expected with
    | .any => current != some .other
    | .missing => current.isNone
    | .content content => currentContent == some content
  if holds then .ok () else .error (.conflict (joined path))

/-- The kinds the files are written with, if every change applies. -/
def checkAll (baseTree : Tree) : List (List String × FileChange) → Except Error (List EntryKind)
  | [] => .ok []
  | (path, change) :: rest => do
      let current := entryAt baseTree path
      checkExpected path change current
      let kind := match current with
        | some (.file kind _) => kind
        | _ => .blob
      let kinds ← checkAll baseTree rest
      return kind :: kinds

/-! ## The new tree -/

/-- The tree editor of gix. -/
structure TreeEditor (E : Type) where
  editTree : Tree → E
  upsert : E → List String → Leaf → E
  remove : E → List String → E
  write : E → Tree

/-- One change made with the editor. -/
def TreeEditor.edit {E : Type} (ed : TreeEditor E) (e : E)
    (c : (List String × FileChange) × EntryKind) : E :=
  match c.1.2.content with
  | some content => ed.upsert e c.1.1 ⟨c.2, content⟩
  | none => ed.remove e c.1.1

/-- `Push::build` up to the tree. -/
def newTree {E : Type} (ed : TreeEditor E) (baseTree : Tree)
    (changes : List (List String × FileChange)) : Except Error Tree := do
  let kinds ← checkAll baseTree changes
  return ed.write ((changes.zip kinds).foldl ed.edit (ed.editTree baseTree))

mutual

def collectNode (path : String) : Node Leaf → List CommittedFile
  | .leaf ⟨.blob, content⟩ => [⟨path, content⟩]
  | .leaf ⟨.blobExecutable, content⟩ => [⟨path, content⟩]
  | .leaf _ => []
  | .tree tree => collectFiles path tree

def collectFiles (base : String) : Tree → List CommittedFile
  | .nil => []
  | .cons name node rest =>
      collectNode (if base.isEmpty then name else base ++ "/" ++ name) node ++
        collectFiles base rest

end

/-- Files under the prefix, with paths relative to it. -/
def filesUnder (tree : Tree) (pathPrefix : List String) : List CommittedFile :=
  match tree.at pathPrefix with
  | some (.tree root) => collectFiles "" root
  | _ => []

/-! ## The push -/

/-- A commit object; time and signature are left out. -/
structure Commit (κ : Type) where
  tree : Tree
  parents : List κ
  author : Author
  committer : Author
  message : String
deriving DecidableEq

/-- What is to be pushed, and where. -/
structure Job where
  branch : String
  path : Option String
  committer : Option Author
  changes : List FileChange
  author : Author
  message : String

/-- A commit that is ready to send; no pack where nothing changed. -/
structure Built (κ : Type) where
  commit : κ
  parent : Option κ
  pack : Option (List (PackEntry κ))
  files : List CommittedFile

structure Pushed (κ : Type) where
  commit : κ
  changed : Bool
  files : List CommittedFile

inductive Phase (κ : Type)
  | idle
  | advertised (tip : Option κ)
  | fetched (parent : Option κ)
  | sending (built : Built κ)
  | answered (built : Built κ) (updated : Bool)
  | rejected (built : Built κ)
  | done (result : Except Error (Pushed κ))

/-- `updates` are the moves of the branch that this push has caused. -/
structure State (κ : Type) where
  branch : Option κ
  updates : List (Option κ × κ)
  requested : Bool
  phase : Phase κ

inductive Act (κ : Type)
  | move (tip : Option κ)
  | start (otherRefs : Bool)
  | fetch
  | build (commit : κ)
  | send (accept : Bool)
  | report
  | ask
  | fail

section Step

variable {κ E : Type} [DecidableEq κ] (component : String → Bool) (ed : TreeEditor E)
  (object : κ → Commit κ) (job : Job)

def Job.pathPrefix : Except Error (List String) :=
  match job.path with
  | some path => normalizePath component path
  | none => .ok []

/-- The changes with their full paths, if these are valid. -/
def Job.prepare : Except Error (List (List String × FileChange)) := do
  let pathPrefix ← job.pathPrefix component
  fullPaths component pathPrefix job.changes

def baseTree (parent : Option κ) : Tree :=
  match parent with
  | some parent => (object parent).tree
  | none => .nil

/-- The commit that `write_commit` writes. -/
def Job.commitOf (tree : Tree) (parent : Option κ) : Commit κ where
  tree := tree
  parents := parent.toList
  author := job.author
  committer := job.committer.getD job.author
  message := job.message

/-- `Push::build` on the fetched head, with the tree it has written; `commit` is the id
of the new commit. -/
def Job.build (parent : Option κ) (commit : κ) : Except Error (Tree × Built κ) := do
  let pathPrefix ← job.pathPrefix component
  let changes ← job.prepare component
  let tree ← newTree ed (baseTree object parent) changes
  let files := filesUnder tree pathPrefix
  if tree = baseTree object parent then
    match parent with
    | some tip => return (tree, ⟨tip, parent, none, files⟩)
    | none => .error .nothingToPush
  else
    let pack := packObjects commit (baseTree object parent) tree
    return (tree, ⟨commit, parent, some pack, files⟩)

def step (s : State κ) : Act κ → Option (State κ)
  | .move tip => some { s with branch := tip }
  | .start otherRefs =>
      match s.phase with
      | .idle =>
          match job.prepare component with
          | .error e => some { s with phase := .done (.error e) }
          | .ok _ =>
              if s.branch.isNone && otherRefs then
                some { s with phase := .done (.error (.branchMissing job.branch)) }
              else some { s with phase := .advertised s.branch }
      | _ => none
  | .fetch =>
      match s.phase with
      | .advertised none => some { s with phase := .fetched none }
      | .advertised (some _) =>
          match s.branch with
          | some tip => some { s with phase := .fetched (some tip) }
          | none => some { s with phase := .done (.error .other) }
      | _ => none
  | .build commit =>
      match s.phase with
      | .fetched parent =>
          match job.build component ed object parent commit with
          | .error e => some { s with phase := .done (.error e) }
          | .ok (tree, built) =>
              match built.pack with
              | some _ =>
                  if object commit = job.commitOf tree parent then
                    some { s with phase := .sending built }
                  else none
              | none =>
                  some { s with phase := .done (.ok ⟨built.commit, false, built.files⟩) }
      | _ => none
  | .send accept =>
      match s.phase with
      | .sending built =>
          if accept then
            -- the ref is updated only if its old id matches
            if s.branch = built.parent then
              some
                { s with
                  branch := some built.commit
                  updates := s.updates ++ [(built.parent, built.commit)]
                  requested := true
                  phase := .answered built true }
            else none
          else some { s with requested := true, phase := .answered built false }
      | _ => none
  | .report =>
      match s.phase with
      | .answered built true =>
          some { s with phase := .done (.ok ⟨built.commit, true, built.files⟩) }
      | .answered built false => some { s with phase := .rejected built }
      | _ => none
  | .ask =>
      match s.phase with
      | .rejected built =>
          if s.branch = built.parent then
            some { s with phase := .done (.error (.refRejected job.branch)) }
          else some { s with phase := .done (.error (.branchMoved job.branch)) }
      | _ => none
  | .fail =>
      match s.phase with
      | .done _ => none
      | _ => some { s with phase := .done (.error .other) }

def pushing : Machine (State κ) (Act κ) where
  init s := ∃ tip, s = ⟨tip, [], false, .idle⟩
  step := step component ed object job

end Step

/-! ## What a push has to do -/

/-- What is documented of the editor: an entry is inserted or overwritten at its path,
the trees on the way are loaded or created; the entry at a path is removed, and nothing
happens where there is none; everything else stays. -/
structure TreeEditor.Documented {E : Type} (ed : TreeEditor E) : Prop where
  editTree : ∀ tree path, (ed.write (ed.editTree tree)).at path = tree.at path
  upsert_self : ∀ e path leaf, path ≠ [] →
    (ed.write (ed.upsert e path leaf)).at path = some (.leaf leaf)
  upsert_above : ∀ e path leaf q, Below q path → ∃ sub,
    (ed.write (ed.upsert e path leaf)).at q = some (.tree sub)
  upsert_apart : ∀ e path leaf q, Apart path q →
    (ed.write (ed.upsert e path leaf)).at q = (ed.write e).at q
  remove_self : ∀ e path, path ≠ [] → (ed.write (ed.remove e path)).at path = none
  remove_above : ∀ e path q, Below q path → (∀ sub, (ed.write e).at q ≠ some (.tree sub)) →
    (ed.write (ed.remove e path)).at q = (ed.write e).at q
  remove_above_tree : ∀ e path q sub, Below q path → (ed.write e).at q = some (.tree sub) →
    ∀ leaf, (ed.write (ed.remove e path)).at q ≠ some (.leaf leaf)
  remove_apart : ∀ e path q, Apart path q →
    (ed.write (ed.remove e path)).at q = (ed.write e).at q

/-- The content of the file at a path. -/
def contentAt (tree : Tree) (path : List String) : Option Bytes :=
  match tree.leafAt path with
  | some ⟨.blob, content⟩ => some content
  | some ⟨.blobExecutable, content⟩ => some content
  | _ => none

/-- A tree holds a content at a path, or nothing. -/
def Holds (tree : Tree) (path : List String) : Option Bytes → Prop
  | some content => contentAt tree path = some content
  | none => tree.at path = none

/-- The tree is what the change expects, or holds its result. -/
def Expects (tree : Tree) (path : List String) (change : FileChange) : Prop :=
  Holds tree path change.content ∨ match change.expected with
    | .any => True
    | .missing => Holds tree path none
    | .content content => Holds tree path (some content)

/-- The new tree is the base with exactly these changes; a path keeps its entry where it
has one that is not a directory, and gets none where it has none. -/
structure Applied (base tree : Tree) (changes : List (List String × FileChange)) : Prop where
  expected : ∀ c ∈ changes, Expects base c.1 c.2
  written : ∀ c ∈ changes, Holds tree c.1 c.2.content
  kept : ∀ path, (∀ c ∈ changes, c.1 ≠ path) → tree.leafAt path = base.leafAt path

/-- Changes of one path are the same, and nothing is written below a path that is
changed. -/
def Consistent (changes : List (List String × FileChange)) : Prop :=
  ∀ c ∈ changes, ∀ c' ∈ changes, (c.1 = c'.1 → c.2.content = c'.2.content) ∧
    (Below c.1 c'.1 → c'.2.content = none)

/-- A push that reports a change has moved the branch from the parent of the commit to
the commit, which is the parent with exactly the changes; one that reports none, or
fails before its request, has not written anything. -/
def Exact {κ : Type} (component : String → Bool) (object : κ → Commit κ) (job : Job)
    (s : State κ) : Prop :=
  match s.phase with
  | .done (.ok pushed) =>
      if pushed.changed then
        ∃ parent changes, job.prepare component = .ok changes ∧
          s.updates = [(parent, pushed.commit)] ∧
          (object pushed.commit).parents = parent.toList ∧
          Applied (baseTree object parent) (object pushed.commit).tree changes
      else s.updates = []
  | .done (.error _) => s.requested = false → s.updates = []
  | _ => True

/-! ## The checks -/

section Checks

variable {tree base : Tree} {path q : List String} {kind : EntryKind} {content : Bytes}
  {change : FileChange} {changes : List (List String × FileChange)} {kinds : List EntryKind}

theorem leafAt_above {segment : String} {segments : List String}
    (h : ∀ q, Below q segments → tree.leafAt (segment :: q) = none)
    (hq : Below q (segment :: segments)) : tree.leafAt q = none := by
  cases q with
  | nil => exact leafAt_eq_none.mpr fun _ => by simp [at_nil]
  | cons name q =>
      obtain rfl : name = segment := (List.cons_prefix_cons.mp hq.1).1
      exact h q hq.cons

/-- Where a path does not hold something else, no file is above it and no directory at
it; and what it holds is what the tree has there. -/
theorem entryAt_spec (hpath : path ≠ []) (h : entryAt tree path ≠ some .other) :
    (∀ q, Below q path → tree.leafAt q = none) ∧
      (entryAt tree path = none ∧ tree.at path = none ∨
        ∃ kind content, entryAt tree path = some (.file kind content) ∧
          (kind = .blob ∨ kind = .blobExecutable) ∧
          tree.at path = some (.leaf ⟨kind, content⟩)) := by
  induction path generalizing tree with
  | nil => exact absurd rfl hpath
  | cons segment segments ih =>
      cases hfind : tree.find segment with
      | none =>
          have hat : ∀ q, tree.at (segment :: q) = none := by
            intro q
            rw [at_cons, hfind]
            rfl
          refine ⟨fun q => leafAt_above fun q _ => ?_, Or.inl ⟨?_, hat _⟩⟩
          · exact leafAt_eq_none.mpr fun _ => by simp [hat]
          · simp [entryAt, hfind]
      | some node =>
          cases segments with
          | nil =>
              refine ⟨fun q => leafAt_above fun q hq => absurd rfl hq.ne_nil, Or.inr ?_⟩
              cases node with
              | leaf leaf =>
                  obtain ⟨kind, content⟩ := leaf
                  have hat : tree.at [segment] = some (.leaf ⟨kind, content⟩) := by
                    rw [at_cons, hfind]
                    rfl
                  cases kind with
                  | blob => exact ⟨.blob, content, by simp [entryAt, hfind], Or.inl rfl, hat⟩
                  | blobExecutable =>
                      exact ⟨.blobExecutable, content, by simp [entryAt, hfind], Or.inr rfl, hat⟩
                  | link => exact absurd (by simp [entryAt, hfind]) h
                  | commit => exact absurd (by simp [entryAt, hfind]) h
              | tree sub => exact absurd (by simp [entryAt, hfind]) h
          | cons next segments =>
              cases node with
              | leaf leaf => exact absurd (by simp [entryAt, hfind]) h
              | tree sub =>
                  have hentry : entryAt tree (segment :: next :: segments) =
                      entryAt sub (next :: segments) := by
                    simp [entryAt, hfind]
                  have hat : ∀ q, tree.at (segment :: q) = sub.at q := by
                    intro q
                    rw [at_cons, hfind]
                    rfl
                  rw [hentry] at h ⊢
                  obtain ⟨habove, hholds⟩ := ih (List.cons_ne_nil _ _) h
                  refine ⟨fun q => leafAt_above fun q hq => ?_, ?_⟩
                  · rw [← habove q hq, Entries.leafAt, Entries.leafAt, hat]
                  · rw [hat]
                    exact hholds

theorem contentAt_of_file (hkind : kind = .blob ∨ kind = .blobExecutable)
    (h : tree.at path = some (.leaf ⟨kind, content⟩)) : contentAt tree path = some content := by
  rw [contentAt, leafAt_eq_some.mpr h]
  rcases hkind with rfl | rfl <;> rfl

theorem at_of_contentAt (h : contentAt tree path = some content) :
    ∃ leaf, tree.at path = some (.leaf leaf) := by
  rw [contentAt] at h
  split at h
  · rename_i hleaf
    exact ⟨_, leafAt_eq_some.mp hleaf⟩
  · rename_i hleaf
    exact ⟨_, leafAt_eq_some.mp hleaf⟩
  · cases h

theorem Holds.not_tree {x : Option Bytes} (h : Holds tree path x) (sub : Tree) :
    tree.at path ≠ some (.tree sub) := by
  intro hsub
  cases x with
  | none => cases hsub.symm.trans h
  | some content =>
      obtain ⟨leaf, hleaf⟩ := at_of_contentAt h
      cases hsub.symm.trans hleaf

/-- A path holds one content, or nothing. -/
theorem Holds.unique {x y : Option Bytes} (h : Holds tree path x) (h' : Holds tree path y) :
    x = y := by
  cases x with
  | none =>
      cases y with
      | none => rfl
      | some content' =>
          obtain ⟨leaf, hleaf⟩ := at_of_contentAt h'
          cases hleaf.symm.trans h
  | some content =>
      cases y with
      | none =>
          obtain ⟨leaf, hleaf⟩ := at_of_contentAt h
          cases hleaf.symm.trans h'
      | some content' => exact h.symm.trans h'

theorem not_other_of_check (h : checkExpected path change (entryAt tree path) = .ok ()) :
    entryAt tree path ≠ some .other := by
  intro hother
  rw [hother] at h
  cases hcontent : change.content <;> cases hexpected : change.expected <;>
    simp [checkExpected, hcontent, hexpected] at h

/-- A change that passes the check finds what it expects. -/
theorem expects_of_check (hpath : path ≠ [])
    (h : checkExpected path change (entryAt tree path) = .ok ()) : Expects tree path change := by
  obtain ⟨-, ⟨hentry, hat⟩ | ⟨kind, content, hentry, hkind, hat⟩⟩ :=
    entryAt_spec hpath (not_other_of_check h)
  · rw [hentry] at h
    rw [Expects]
    cases hcontent : change.content with
    | none => exact Or.inl hat
    | some target =>
        refine Or.inr ?_
        cases hexpected : change.expected with
        | any => trivial
        | missing => exact hat
        | content expected => simp [checkExpected, hcontent, hexpected] at h
  · have hfile := contentAt_of_file hkind hat
    rw [hentry] at h
    rw [Expects]
    cases hexpected : change.expected with
    | any => exact Or.inr trivial
    | missing =>
        cases hcontent : change.content with
        | none => simp [checkExpected, hcontent, hexpected] at h
        | some target =>
            obtain rfl : target = content := by simpa [checkExpected, hcontent, hexpected] using h
            exact Or.inl hfile
    | content expected =>
        cases hcontent : change.content with
        | none =>
            obtain rfl : content = expected := by
              simpa [checkExpected, hcontent, hexpected] using h
            exact Or.inr hfile
        | some target =>
            have heq : target = content ∨ content = expected := by
              rw [or_iff_not_imp_left]
              simpa [checkExpected, hcontent, hexpected] using h
            rcases heq with rfl | rfl
            · exact Or.inl hfile
            · exact Or.inr hfile

/-- The kind a change is written with. -/
def kindAt (base : Tree) (c : List String × FileChange) : EntryKind :=
  match entryAt base c.1 with
  | some (.file kind _) => kind
  | _ => .blob

theorem checkAll_eq_ok (h : checkAll base changes = .ok kinds) :
    kinds = changes.map (kindAt base) ∧
      ∀ c ∈ changes, checkExpected c.1 c.2 (entryAt base c.1) = .ok () := by
  induction changes generalizing kinds with
  | nil =>
      cases h
      exact ⟨rfl, nofun⟩
  | cons c rest ih =>
      obtain ⟨path, change⟩ := c
      rw [checkAll] at h
      obtain ⟨_, hcheck, h⟩ := bind_eq_ok.mp h
      obtain ⟨kinds', hkinds, h⟩ := bind_eq_ok.mp h
      cases h
      obtain ⟨rfl, hrest⟩ := ih hkinds
      refine ⟨rfl, ?_⟩
      intro c hc
      rcases List.mem_cons.mp hc with rfl | hc
      · exact hcheck
      · exact hrest c hc

theorem kindAt_file (hpath : path ≠ []) (h : entryAt base path ≠ some .other) :
    kindAt base (path, change) = .blob ∨ kindAt base (path, change) = .blobExecutable := by
  obtain ⟨-, ⟨hentry, -⟩ | ⟨kind, content, hentry, hkind, -⟩⟩ := entryAt_spec hpath h
  · left
    rw [kindAt, hentry]
  · rw [kindAt, hentry]
    exact hkind

end Checks

/-! ## The edits -/

section Edits

variable {E : Type} {ed : TreeEditor E} {base : Tree} {e : E} {q : List String}
  {c c' : List String × FileChange} {changes : List (List String × FileChange)}

/-- A change is made, with the kind its file has in the base. -/
def change (ed : TreeEditor E) (base : Tree) (e : E) (c : List String × FileChange) : E :=
  ed.edit e (c, kindAt base c)

/-- The tree holds the result of a change. -/
def Made (base tree : Tree) (c : List String × FileChange) : Prop :=
  match c.2.content with
  | some content => tree.at c.1 = some (.leaf ⟨kindAt base c, content⟩)
  | none => tree.at c.1 = none

theorem Made.not_tree {tree : Tree} (h : Made base tree c) (sub : Tree) :
    tree.at c.1 ≠ some (.tree sub) := by
  rw [Made] at h
  split at h <;> rw [h] <;> simp

theorem made_change (hed : ed.Documented) (hpath : c.1 ≠ []) :
    Made base (ed.write (change ed base e c)) c := by
  rw [Made, change, TreeEditor.edit]
  cases c.2.content with
  | some content => exact hed.upsert_self e _ _ hpath
  | none => exact hed.remove_self e _ hpath

/-- What stands below a changed path is gone. -/
theorem change_below (hed : ed.Documented) (hpath : c.1 ≠ []) (hq : Below c.1 q) :
    (ed.write (change ed base e c)).at q = none :=
  at_below (made_change hed hpath).not_tree hq

theorem change_apart (hed : ed.Documented) (hq : Apart c.1 q) :
    (ed.write (change ed base e c)).at q = (ed.write e).at q := by
  rw [change, TreeEditor.edit]
  cases c.2.content with
  | some content => exact hed.upsert_apart e _ _ _ hq
  | none => exact hed.remove_apart e _ _ hq

/-- A change that was made stays, if the next one is consistent with it. -/
theorem Made.change (hed : ed.Documented) (h : Made base (ed.write e) c) (hpath : c'.1 ≠ [])
    (hcons : Consistent [c, c']) : Made base (ed.write (Git.change ed base e c')) c := by
  have hcc' := hcons c (by simp) c' (by simp)
  have hc'c := hcons c' (by simp) c (by simp)
  rcases eq_or_below_or_above_or_apart c.1 c'.1 with heq | hbelow | habove | hapart
  · have hmade : Made base (ed.write (Git.change ed base e c')) c' := made_change hed hpath
    have hkind : kindAt base c = kindAt base c' := by rw [kindAt, kindAt, heq]
    rwa [Made, ← heq, ← hcc'.1 heq, ← hkind] at hmade
  · have hnone : c'.2.content = none := hcc'.2 hbelow
    have hsame : (ed.write (Git.change ed base e c')).at c.1 = (ed.write e).at c.1 := by
      rw [Git.change, TreeEditor.edit, hnone]
      exact hed.remove_above e _ _ hbelow h.not_tree
    rwa [Made, hsame]
  · have hnone : c.2.content = none := hc'c.2 habove
    rw [Made, hnone]
    exact change_below hed hpath habove
  · rwa [Made, change_apart hed hapart.symm]

/-- An entry at a path that a change does not name stays as it is in the base. -/
theorem leafAt_change (hed : ed.Documented) (hpath : c.1 ≠ [])
    (hcheck : entryAt base c.1 ≠ some .other) (hne : c.1 ≠ q)
    (h : (ed.write e).leafAt q = base.leafAt q) :
    (ed.write (change ed base e c)).leafAt q = base.leafAt q := by
  obtain ⟨habove, hholds⟩ := entryAt_spec hpath hcheck
  rcases eq_or_below_or_above_or_apart c.1 q with heq | hbelow | habove' | hapart
  · exact absurd heq hne
  · have hbase : base.at q = none := by
      refine at_below ?_ hbelow
      intro sub
      rcases hholds with ⟨-, hat⟩ | ⟨kind, content, -, -, hat⟩ <;> rw [hat] <;> simp
    have hnew : (ed.write (change ed base e c)).at q = none := change_below hed hpath hbelow
    rw [Entries.leafAt, Entries.leafAt, hnew, hbase]
  · rw [habove q habove'] at h ⊢
    rw [leafAt_eq_none] at h ⊢
    rw [change, TreeEditor.edit]
    cases c.2.content with
    | some content =>
        obtain ⟨sub, hsub⟩ := hed.upsert_above e _ ⟨kindAt base c, content⟩ _ habove'
        dsimp only
        rw [hsub]
        simp
    | none =>
        dsimp only
        by_cases htree : ∃ sub, (ed.write e).at q = some (.tree sub)
        · obtain ⟨sub, hsub⟩ := htree
          exact hed.remove_above_tree e _ _ sub habove' hsub
        · rw [hed.remove_above e _ _ habove' fun sub hsub => htree ⟨sub, hsub⟩]
          exact h
  · rw [← h]
    exact leafAt_congr (change_apart hed hapart)

theorem leafAt_foldl (hed : ed.Documented) (hpaths : ∀ c ∈ changes, c.1 ≠ [])
    (hchecks : ∀ c ∈ changes, entryAt base c.1 ≠ some .other) (hne : ∀ c ∈ changes, c.1 ≠ q)
    (h : (ed.write e).leafAt q = base.leafAt q) :
    (ed.write (changes.foldl (change ed base) e)).leafAt q = base.leafAt q := by
  induction changes generalizing e with
  | nil => exact h
  | cons c rest ih =>
      rw [List.forall_mem_cons] at hpaths hchecks hne
      exact ih hpaths.2 hchecks.2 hne.2 (leafAt_change hed hpaths.1 hchecks.1 hne.1 h)

/-- All changes of a consistent list are made in the end. -/
theorem made_foldl (hed : ed.Documented) (hpaths : ∀ c ∈ changes, c.1 ≠ [])
    (hcons : Consistent (c :: changes)) (h : Made base (ed.write e) c) :
    Made base (ed.write (changes.foldl (change ed base) e)) c := by
  induction changes generalizing e with
  | nil => exact h
  | cons c' rest ih =>
      rw [List.forall_mem_cons] at hpaths
      have hsub : ∀ {l : List (List String × FileChange)}, l ⊆ c :: c' :: rest → Consistent l :=
        fun hl d hd d' hd' => hcons d (hl hd) d' (hl hd')
      exact ih hpaths.2 (hsub (by simp)) (h.change hed hpaths.1 (hsub (by simp)))

theorem made_all (hed : ed.Documented) (hpaths : ∀ c ∈ changes, c.1 ≠ [])
    (hcons : Consistent changes) (hc : c ∈ changes) :
    Made base (ed.write (changes.foldl (change ed base) e)) c := by
  induction changes generalizing e with
  | nil => cases hc
  | cons c' rest ih =>
      have hrest : Consistent rest := fun d hd d' hd' =>
        hcons d (List.mem_cons_of_mem _ hd) d' (List.mem_cons_of_mem _ hd')
      rw [List.forall_mem_cons] at hpaths
      rw [List.foldl_cons]
      rcases List.mem_cons.mp hc with rfl | hc
      · exact made_foldl hed hpaths.2 hcons (made_change hed hpaths.1)
      · exact ih hpaths.2 hrest hc

theorem zip_kinds (changes : List (List String × FileChange)) :
    (changes.zip (changes.map (kindAt base))).foldl ed.edit e = changes.foldl (change ed base) e := by
  induction changes generalizing e with
  | nil => rfl
  | cons c rest ih => exact ih

/-- The tree that passes the checks has exactly the changes if and only if these are
consistent. -/
theorem applied_iff (hed : ed.Documented) {tree : Tree} (hpaths : ∀ c ∈ changes, c.1 ≠ [])
    (h : newTree ed base changes = .ok tree) : Applied base tree changes ↔ Consistent changes := by
  obtain ⟨kinds, hkinds, htree⟩ := bind_eq_ok.mp h
  cases htree
  obtain ⟨rfl, hchecks⟩ := checkAll_eq_ok hkinds
  rw [zip_kinds]
  have hother : ∀ c ∈ changes, entryAt base c.1 ≠ some .other := fun c hc =>
    not_other_of_check (hchecks c hc)
  constructor
  · intro happlied c hc c' hc'
    have hw := happlied.written c hc
    have hw' := happlied.written c' hc'
    constructor
    · intro heq
      rw [heq] at hw
      exact hw.unique hw'
    · intro hbelow
      have hnone := at_below hw.not_tree hbelow
      cases hcontent' : c'.2.content with
      | none => rfl
      | some content =>
          rw [hcontent'] at hw'
          obtain ⟨leaf, hleaf⟩ := at_of_contentAt hw'
          cases hnone.symm.trans hleaf
  · intro hcons
    refine ⟨fun c hc => expects_of_check (hpaths c hc) (hchecks c hc), ?_, ?_⟩
    · intro c hc
      have hmade : Made base (ed.write (changes.foldl (change ed base) (ed.editTree base))) c :=
        made_all hed hpaths hcons hc
      rw [Made] at hmade
      split at hmade
      · rename_i content hcontent
        rw [hcontent]
        exact contentAt_of_file (kindAt_file (hpaths c hc) (hother c hc)) hmade
      · rename_i hcontent
        rw [hcontent]
        exact hmade
    · intro path hne
      exact leafAt_foldl hed hpaths hother hne (leafAt_congr (hed.editTree base path))

end Edits

/-! ## Runs of a push -/

/-- The changes have valid paths and are consistent, or some path is not valid. -/
def Job.Consistent (component : String → Bool) (job : Job) : Prop :=
  ∀ changes, job.prepare component = .ok changes → Git.Consistent changes

/-- The push reports that it has moved the branch. -/
def State.Reported {κ : Type} (s : State κ) : Prop :=
  ∃ pushed, s.phase = .done (.ok pushed) ∧ pushed.changed = true

/-- What a commit that is sent was made of. -/
def BuiltFrom {κ E : Type} (component : String → Bool) (ed : TreeEditor E)
    (object : κ → Commit κ) (job : Job) (built : Built κ) : Prop :=
  ∃ changes, job.prepare component = .ok changes ∧
    newTree ed (baseTree object built.parent) changes = .ok (object built.commit).tree ∧
    (object built.commit).parents = built.parent.toList

/-- What a push has done in each of its phases. -/
def Invariant {κ E : Type} (component : String → Bool) (ed : TreeEditor E)
    (object : κ → Commit κ) (job : Job) (s : State κ) : Prop :=
  match s.phase with
  | .idle | .advertised _ | .fetched _ => s.updates = [] ∧ s.requested = false
  | .sending built =>
      s.updates = [] ∧ s.requested = false ∧ BuiltFrom component ed object job built
  | .answered built true =>
      s.updates = [(built.parent, built.commit)] ∧ s.requested = true ∧
        BuiltFrom component ed object job built
  | .answered _ false | .rejected _ => s.updates = [] ∧ s.requested = true
  | .done (.ok pushed) =>
      if pushed.changed then
        ∃ built, BuiltFrom component ed object job built ∧ built.commit = pushed.commit ∧
          s.updates = [(built.parent, built.commit)]
      else s.updates = []
  | .done (.error _) => s.requested = false → s.updates = []

section Runs

variable {component : String → Bool} {job : Job}

theorem fullPaths_ne_nil {pathPrefix : List String} {files : List FileChange}
    {changes : List (List String × FileChange)}
    (h : fullPaths component pathPrefix files = .ok changes) : ∀ c ∈ changes, c.1 ≠ [] := by
  induction files generalizing changes with
  | nil =>
      cases h
      exact nofun
  | cons file files ih =>
      rw [fullPaths] at h
      obtain ⟨segments, -, h⟩ := bind_eq_ok.mp h
      split at h
      · cases h
      · rename_i hsegments
        obtain ⟨rest, hrest, h⟩ := bind_eq_ok.mp h
        cases h
        rw [List.forall_mem_cons]
        refine ⟨?_, ih hrest⟩
        intro hnil
        obtain ⟨-, rfl⟩ := List.append_eq_nil_iff.mp hnil
        exact hsegments rfl

theorem prepare_ne_nil {changes : List (List String × FileChange)}
    (h : job.prepare component = .ok changes) : ∀ c ∈ changes, c.1 ≠ [] := by
  obtain ⟨pathPrefix, -, h⟩ := bind_eq_ok.mp h
  exact fullPaths_ne_nil h

variable {κ E : Type} {ed : TreeEditor E} {object : κ → Commit κ} {s t : State κ} {a : Act κ}

/-- The tree that a built commit was written for. -/
theorem builtFrom_of_build {parent : Option κ} {commit : κ} {tree : Tree} {built : Built κ}
    {pack : List (PackEntry κ)} (h : job.build component ed object parent commit = .ok (tree, built))
    (hpack : built.pack = some pack) (hcommit : object commit = job.commitOf tree parent) :
    BuiltFrom component ed object job built := by
  rw [Job.build] at h
  obtain ⟨pathPrefix, -, h⟩ := bind_eq_ok.mp h
  obtain ⟨changes, hchanges, h⟩ := bind_eq_ok.mp h
  obtain ⟨tree', htree, h⟩ := bind_eq_ok.mp h
  split at h
  · split at h
    · cases h
      cases hpack
    · cases h
  · cases h
    refine ⟨changes, hchanges, ?_, ?_⟩
    · rw [htree, hcommit]
      rfl
    · rw [hcommit]
      rfl

/-- A failure keeps what was known of the updates. -/
theorem Invariant.failed {e : Error} (hI : Invariant component ed object job s)
    (hphase : ∀ result, s.phase ≠ .done result) :
    Invariant component ed object job { s with phase := .done (.error e) } := by
  intro hrequested
  change s.requested = false at hrequested
  rw [Invariant] at hI
  split at hI
  · exact hI.1
  · exact hI.1
  · exact hI.1
  · exact hI.1
  · cases hrequested.symm.trans hI.2.1
  · exact hI.1
  · exact hI.1
  · exact absurd ‹_› (hphase _)
  · exact absurd ‹_› (hphase _)

variable [DecidableEq κ]

theorem invariant_step (hI : Invariant component ed object job s)
    (hstep : step component ed object job s a = some t) :
    Invariant component ed object job t := by
  cases a with
  | move tip =>
      cases hstep
      exact hI
  | start otherRefs =>
      rw [step] at hstep
      split at hstep
      · rename_i hphase
        rw [Invariant, hphase] at hI
        split at hstep
        · cases hstep
          exact fun _ => hI.1
        · split at hstep
          · cases hstep
            exact fun _ => hI.1
          · cases hstep
            exact hI
      · cases hstep
  | fetch =>
      rw [step] at hstep
      split at hstep
      · rename_i hphase
        rw [Invariant, hphase] at hI
        cases hstep
        exact hI
      · rename_i hphase
        rw [Invariant, hphase] at hI
        split at hstep
        · cases hstep
          exact hI
        · cases hstep
          exact fun _ => hI.1
      · cases hstep
  | build commit =>
      rw [step] at hstep
      split at hstep
      · rename_i parent hphase
        rw [Invariant, hphase] at hI
        split at hstep
        · cases hstep
          exact fun _ => hI.1
        · rename_i tree built hbuild
          split at hstep
          · rename_i pack hpack
            obtain ⟨hcommit, hstep⟩ := Option.ite_none_right_eq_some.mp hstep
            cases hstep
            exact ⟨hI.1, hI.2, builtFrom_of_build hbuild hpack hcommit⟩
          · cases hstep
            exact hI.1
      · cases hstep
  | send accept =>
      rw [step] at hstep
      split at hstep
      · rename_i built hphase
        rw [Invariant, hphase] at hI
        obtain ⟨hupdates, -, hbuilt⟩ := hI
        split at hstep
        · obtain ⟨-, hstep⟩ := Option.ite_none_right_eq_some.mp hstep
          cases hstep
          refine ⟨?_, rfl, hbuilt⟩
          rw [hupdates]
          rfl
        · cases hstep
          exact ⟨hupdates, rfl⟩
      · cases hstep
  | report =>
      rw [step] at hstep
      split at hstep
      · rename_i built hphase
        rw [Invariant, hphase] at hI
        cases hstep
        exact ⟨built, hI.2.2, rfl, hI.1⟩
      · rename_i built hphase
        rw [Invariant, hphase] at hI
        cases hstep
        exact hI
      · cases hstep
  | ask =>
      rw [step] at hstep
      split at hstep
      · rename_i built hphase
        rw [Invariant, hphase] at hI
        split at hstep
        · cases hstep
          exact fun _ => hI.1
        · cases hstep
          exact fun _ => hI.1
      · cases hstep
  | fail =>
      rw [step] at hstep
      split at hstep
      · cases hstep
      · rename_i hphase
        cases hstep
        exact hI.failed hphase

theorem invariant_of_reachable (h : (pushing component ed object job).Reachable s) :
    Invariant component ed object job s := by
  refine h.invariant ?_ ?_
  · intro s hinit
    obtain ⟨tip, rfl⟩ := hinit
    exact ⟨rfl, rfl⟩
  · intro s a t hI _ hstep
    exact invariant_step hI hstep

/-- A push that reports a change has made exactly its changes if and only if these are
consistent; one that reports no change or fails has always done what it says. -/
theorem push_exact_iff (hed : ed.Documented)
    (h : (pushing component ed object job).Reachable s) :
    Exact component object job s ↔ (s.Reported → job.Consistent component) := by
  have hI := invariant_of_reachable h
  rw [Exact]
  rw [Invariant] at hI
  have hnot : ∀ {p : Phase κ}, s.phase = p →
      (∀ pushed, p = .done (.ok pushed) → pushed.changed = false) → ¬ s.Reported := by
    rintro p rfl hp ⟨pushed, hphase, hchanged⟩
    cases hchanged.symm.trans (hp pushed hphase)
  split
  · rename_i pushed hphase
    rw [hphase] at hI
    dsimp only at hI
    split at hI
    · rename_i hchanged
      rw [if_pos hchanged]
      obtain ⟨built, ⟨changes, hchanges, htree, hparents⟩, hcommit, hupdates⟩ := hI
      have happlied := applied_iff hed (prepare_ne_nil hchanges) htree
      rw [hcommit] at hupdates hparents happlied
      constructor
      · rintro ⟨parent, changes', hchanges', hupdates', -, h'⟩ -
        cases hchanges.symm.trans hchanges'
        cases hupdates.symm.trans hupdates'
        intro changes' hchanges'
        cases hchanges.symm.trans hchanges'
        exact happlied.mp h'
      · intro hcons
        have hall := hcons ⟨pushed, hphase, hchanged⟩ changes hchanges
        exact ⟨built.parent, changes, hchanges, hupdates, hparents, happlied.mpr hall⟩
    · rename_i hchanged
      rw [if_neg hchanged]
      refine iff_of_true hI fun hreported => absurd hreported (hnot hphase ?_)
      intro pushed' heq
      cases heq
      simpa using hchanged
  · rename_i hphase
    rw [hphase] at hI
    exact iff_of_true hI fun hreported => absurd hreported (hnot hphase nofun)
  · rename_i hok _
    refine iff_of_true trivial fun hreported => ?_
    obtain ⟨pushed, hphase, -⟩ := hreported
    exact absurd hphase (hok pushed)

end Runs

/-! ## Two pushes -/

/-- An editor that has the tree itself as its state. -/
def treeEditor : TreeEditor Tree where
  editTree tree := tree
  upsert tree path leaf := tree.upsert leaf path
  remove := Entries.remove
  write tree := tree

theorem treeEditor_documented : treeEditor.Documented where
  editTree _ _ := rfl
  upsert_self _ _ _ hpath := upsert_self hpath
  upsert_above _ _ _ _ hq := upsert_above hq
  upsert_apart _ _ _ _ hq := upsert_apart hq
  remove_self _ _ hpath := remove_self hpath
  remove_above _ _ _ hq h := remove_above hq h
  remove_above_tree _ _ _ _ hq h := remove_above_tree hq h
  remove_apart _ _ _ hq := remove_apart hq

def author : Author := ⟨"flowgen", "flowgen@example.com"⟩

/-- Writes files that must not exist on the branch `main`. -/
def adding (paths : List String) : Job where
  branch := "main"
  path := none
  committer := none
  changes := paths.map fun path => ⟨path, some [1], .missing⟩
  author := author
  message := "Add files"

def readme : Tree := .cons "README" (.leaf ⟨.blob, [0]⟩) .nil

/-- Commit 0 is on the branch already; the others are written by the push. -/
def objects (job : Job) (tree : Tree) : Nat → Commit Nat
  | 0 => ⟨readme, [], author, author, "Init"⟩
  | _ => job.commitOf tree (some 0)

/-- Another push is undone before the head is fetched. -/
def pushRun : List (Act Nat) :=
  [.start true, .move (some 7), .move (some 0), .fetch, .build 1, .send true, .report]

/-- Run on a branch at commit 0, the push reports commit 1. -/
def reports (job : Job) (tree : Tree) : Bool :=
  ((pushing (fun _ => true) treeEditor (objects job tree) job).exec (fun _ _ => True)
    ⟨some 0, [], false, .idle⟩ pushRun).any fun s =>
      match s.phase with
      | .done (.ok pushed) => pushed.changed && pushed.commit == 1
      | _ => false

theorem exists_reported {job : Job} {tree : Tree} (h : reports job tree = true) :
    ∃ s, (pushing (fun _ => true) treeEditor (objects job tree) job).Reachable s ∧
      ∃ files, s.phase = .done (.ok ⟨1, true, files⟩) := by
  obtain ⟨s, hrun, hs⟩ := Machine.exists_of_exec h
  refine ⟨s, ⟨_, _, ⟨_, rfl⟩, hrun⟩, ?_⟩
  split at hs
  · rename_i pushed hphase
    obtain ⟨commit, changed, files⟩ := pushed
    simp only [Bool.and_eq_true, beq_iff_eq] at hs
    obtain ⟨rfl, rfl⟩ := hs
    exact ⟨files, hphase⟩
  · cases hs

def withNote : Tree := .cons "README" (.leaf ⟨.blob, [0]⟩) (.cons "note" (.leaf ⟨.blob, [1]⟩) .nil)

theorem pushed_note : ∃ s : State Nat,
    (pushing (fun _ => true) treeEditor (objects (adding ["note"]) withNote)
      (adding ["note"])).Reachable s ∧ s.Reported ∧
    Exact (fun _ => true) (objects (adding ["note"]) withNote) (adding ["note"]) s := by
  have hreports : reports (adding ["note"]) withNote = true := rfl
  obtain ⟨s, hreach, files, hphase⟩ := exists_reported hreports
  refine ⟨s, hreach, ⟨_, hphase, rfl⟩, (push_exact_iff treeEditor_documented hreach).mpr ?_⟩
  intro _ changes hchanges
  have hprepare : (adding ["note"]).prepare (fun _ => true) =
      .ok [(["note"], ⟨"note", some [1], .missing⟩)] := rfl
  cases hprepare.symm.trans hchanges
  intro c hc c' hc'
  cases List.mem_singleton.mp hc
  cases List.mem_singleton.mp hc'
  exact ⟨fun _ => rfl, fun h => absurd rfl h.2⟩

def withBelow : Tree :=
  .cons "README" (.leaf ⟨.blob, [0]⟩)
    (.cons "a" (.tree (.cons "b" (.leaf ⟨.blob, [1]⟩) .nil)) .nil)

/-- A file and one below it, neither of which exists: the second edit replaces the file
with a directory, and the push reports success. -/
theorem pushed_below : ∃ s : State Nat,
    (pushing (fun _ => true) treeEditor (objects (adding ["a", "a/b"]) withBelow)
      (adding ["a", "a/b"])).Reachable s ∧
    ¬ Exact (fun _ => true) (objects (adding ["a", "a/b"]) withBelow) (adding ["a", "a/b"]) s := by
  have hreports : reports (adding ["a", "a/b"]) withBelow = true := rfl
  obtain ⟨s, hreach, files, hphase⟩ := exists_reported hreports
  refine ⟨s, hreach, ?_⟩
  intro hexact
  rw [Exact, hphase] at hexact
  obtain ⟨parent, changes, hchanges, -, -, happlied⟩ := hexact
  have hprepare : (adding ["a", "a/b"]).prepare (fun _ => true) =
      .ok [(["a"], ⟨"a", some [1], .missing⟩), (["a", "b"], ⟨"a/b", some [1], .missing⟩)] := by
    rfl
  cases hprepare.symm.trans hchanges
  have hwritten : contentAt withBelow ["a"] = some [1] := happlied.written _ (List.mem_cons_self ..)
  have hnone : contentAt withBelow ["a"] = none := by decide
  cases hnone.symm.trans hwritten

end Flowgen.Git
