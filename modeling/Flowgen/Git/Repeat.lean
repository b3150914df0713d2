/-
# `Flowgen.Git.Repeat` — a push made again (`git/src/push.rs`, `git/src/push/client.rs`)

The runner makes a failed push again, and an event that comes twice is pushed twice.  A
push may have moved the branch and still have failed: the answer was lost.  So the same
changes are prepared for the branch any number of times, between the pushes of others.

Made again on a branch that holds them, the changes pass their checks and leave the tree
as it is, and then nothing is sent.  So they are committed once, and no repetition reports
a conflict with what it has itself pushed (`push_once`), as long as others leave them alone
and no change lies below a file that is written.  Something that is to be deleted below such
a file is not there at first, and afterwards the file is in the way (the last example).

A tree that git has written has no directory without entries.
-/
import Flowgen.Git.Push

namespace Flowgen.Git

open Flowgen.Lib Flowgen.Lib.FileTree

/-! ## Trees without empty directories -/

section Full

variable {L : Type} {entries inner : Entries L} {name : String} {node : Node L} {value : L}
  {p q : List String}

/-- No directory is empty, but for the tree itself. -/
def Full (entries : Entries L) : Prop := ∀ q, q ≠ [] → entries.at q ≠ some (.tree .nil)

theorem full_nil : Full (.nil : Entries L) := by
  intro q hq h
  cases q with
  | nil => exact hq rfl
  | cons name q => cases h

theorem Full.find (h : Full entries) (hfind : entries.find name = some (.tree inner)) :
    Full inner := by
  intro q hq hat
  refine h (name :: q) (List.cons_ne_nil _ _) ?_
  rw [at_cons, hfind]
  exact hat

theorem Full.sub (h : Full entries) (name : String) : Full (entries.sub name) := by
  rw [Entries.sub]
  split
  · rename_i inner hfind
    exact h.find hfind
  · exact full_nil

theorem set_of_find (h : entries.find name = some node) : entries.set name node = entries := by
  induction entries with
  | nil => cases h
  | cons n x rest ih =>
      rw [Entries.find] at h
      rw [Entries.set]
      split
      · rename_i hn
        rw [if_pos hn] at h
        cases h
        rfl
      · rename_i hn
        rw [if_neg hn] at h
        rw [ih h]

theorem erase_of_find (h : entries.find name = none) : entries.erase name = entries := by
  induction entries with
  | nil => rfl
  | cons n x rest ih =>
      rw [Entries.find] at h
      rw [Entries.erase]
      split
      · rename_i hn
        rw [if_pos hn] at h
        cases h
      · rename_i hn
        rw [if_neg hn] at h
        rw [ih h]

theorem find_of_at {leaf : L} (h : entries.at [name] = some (.leaf leaf)) :
    entries.find name = some (.leaf leaf) := by
  rw [at_cons] at h
  obtain ⟨node, hfind, hnode⟩ := Option.bind_eq_some_iff.mp h
  cases node with
  | leaf value => rwa [hfind]
  | tree sub => rwa [hfind]

/-- Writing what is there changes nothing. -/
theorem upsert_of_at (hp : p ≠ []) (h : entries.at p = some (.leaf value)) :
    entries.upsert value p = entries := by
  induction p generalizing entries with
  | nil => exact absurd rfl hp
  | cons name rest ih =>
      cases rest with
      | nil => exact set_of_find (find_of_at h)
      | cons next rest =>
          rw [at_sub (List.cons_ne_nil _ _)] at h
          rw [Entries.upsert, ih (List.cons_ne_nil _ _) h]
          refine set_of_find ?_
          rw [Entries.sub] at h ⊢
          cases hfind : entries.find name with
          | none =>
              rw [hfind] at h
              cases h
          | some node =>
              rw [hfind] at h
              cases node with
              | leaf value => cases h
              | tree sub => rfl

/-- Removing what is not there changes nothing, where no directory is empty. -/
theorem remove_of_at (hfull : Full entries) (hp : p ≠ []) (h : entries.at p = none) :
    entries.remove p = entries := by
  induction p generalizing entries with
  | nil => exact absurd rfl hp
  | cons name rest ih =>
      cases rest with
      | nil =>
          refine erase_of_find ?_
          rw [at_cons] at h
          cases hfind : entries.find name with
          | none => rfl
          | some node =>
              rw [hfind] at h
              cases node with
              | leaf value => cases h
              | tree sub => cases h
      | cons next rest =>
          rw [FileTree.Entries.remove]
          split
          · rename_i sub hfind
            have hsub : sub.at (next :: rest) = none := by
              rw [at_cons, hfind] at h
              exact h
            rw [ih (hfull.find hfind) (List.cons_ne_nil _ _) hsub]
            cases sub with
            | nil =>
                refine absurd ?_ (hfull [name] (List.cons_ne_nil _ _))
                rw [at_cons, hfind]
                rfl
            | cons n x rest => exact set_of_find hfind
          · rfl

/-- A tree that loses its last entry is removed with it. -/
theorem full_remove (hfull : Full entries) : Full (entries.remove p) := by
  induction p generalizing entries with
  | nil => exact hfull
  | cons name rest ih =>
      intro q hq hat
      cases q with
      | nil => exact hq rfl
      | cons name' q =>
          by_cases hname : name' = name
          · subst hname
            cases rest with
            | nil =>
                rw [FileTree.Entries.remove, at_cons, find_erase_self] at hat
                cases hat
            | cons next rest =>
                cases q with
                | cons n q =>
                    rw [remove_cons (List.cons_ne_nil _ _) (List.cons_ne_nil _ _)] at hat
                    exact ih (hfull.sub name') _ (List.cons_ne_nil _ _) hat
                | nil =>
                    rw [FileTree.Entries.remove] at hat
                    split at hat
                    · cases hinner : FileTree.Entries.remove _ (next :: rest) with
                      | nil =>
                          rw [hinner, Entries.put, at_cons, find_erase_self] at hat
                          cases hat
                      | cons n x left =>
                          rw [hinner, Entries.put, at_cons, find_set_self] at hat
                          · cases hat
                          · intro h
                            cases h
                    · exact hfull _ hq hat
          · rw [at_cons, find_remove_ne hname, ← at_cons] at hat
            exact hfull _ hq hat

end Full

/-! ## Changes that are there already -/

section Settled

variable {base tree : Tree} {path q : List String} {kind : EntryKind} {content : Bytes}
  {change : FileChange} {changes : List (List String × FileChange)}

/-- The branch holds what the changes write, and nothing is in the way of what they delete. -/
def Settled (tree : Tree) (changes : List (List String × FileChange)) : Prop :=
  ∀ c ∈ changes, match c.2.content with
    | some content => ∃ kind, entryAt tree c.1 = some (.file kind content)
    | none => entryAt tree c.1 = none

/-- No change lies below a file that is written. -/
def Separate (changes : List (List String × FileChange)) : Prop :=
  ∀ c ∈ changes, ∀ c' ∈ changes, Below c.1 c'.1 → c.2.content = none

theorem entryAt_of_leaf (hkind : kind = .blob ∨ kind = .blobExecutable)
    (h : tree.at path = some (.leaf ⟨kind, content⟩)) :
    entryAt tree path = some (.file kind content) := by
  induction path generalizing tree with
  | nil => cases h
  | cons name rest ih =>
      cases rest with
      | nil =>
          have hfind := find_of_at h
          rcases hkind with rfl | rfl <;> simp [entryAt, hfind]
      | cons next rest =>
          rw [at_cons] at h
          obtain ⟨node, hfind, hnode⟩ := Option.bind_eq_some_iff.mp h
          cases node with
          | leaf value => cases hnode
          | tree sub =>
              have hentry : entryAt tree (name :: next :: rest) = entryAt sub (next :: rest) := by
                simp [entryAt, hfind]
              rw [hentry]
              exact ih hnode

/-- Nothing is at a path that leads nowhere and past no file. -/
theorem entryAt_of_none (habove : ∀ q, Below q path → tree.leafAt q = none)
    (h : tree.at path = none) : entryAt tree path = none := by
  induction path generalizing tree with
  | nil => cases h
  | cons name rest ih =>
      cases hfind : tree.find name with
      | none => simp [entryAt, hfind]
      | some node =>
          rw [at_cons, hfind] at h
          cases rest with
          | nil =>
              cases node with
              | leaf value => cases h
              | tree sub => cases h
          | cons next rest =>
              cases node with
              | leaf value =>
                  have hbelow : Below [name] (name :: next :: rest) :=
                    ⟨List.cons_prefix_cons.mpr ⟨rfl, List.nil_prefix⟩, by simp⟩
                  have hat : tree.at [name] = some (.leaf value) := by
                    rw [at_cons, hfind]
                    rfl
                  have hleaf := habove _ hbelow
                  rw [leafAt_eq_some.mpr hat] at hleaf
                  cases hleaf
              | tree sub =>
                  have hentry : entryAt tree (name :: next :: rest) = entryAt sub (next :: rest) := by
                    simp [entryAt, hfind]
                  rw [hentry]
                  refine ih ?_ h
                  intro q hq
                  have hleaf := habove (name :: q)
                    ⟨List.cons_prefix_cons.mpr ⟨rfl, hq.1⟩, fun heq => hq.2 (List.cons.inj heq).2⟩
                  rw [Entries.leafAt, at_cons, hfind] at hleaf
                  exact hleaf

theorem checkExpected_of_settled (h : match change.content with
      | some content => ∃ kind, entryAt tree path = some (.file kind content)
      | none => entryAt tree path = none) :
    checkExpected path change (entryAt tree path) = .ok () := by
  cases hcontent : change.content with
  | some content =>
      rw [hcontent] at h
      obtain ⟨kind, hentry⟩ := h
      simp [checkExpected, hcontent, hentry]
  | none =>
      rw [hcontent] at h
      simp [checkExpected, hcontent, h]

theorem checkAll_of_ok
    (h : ∀ c ∈ changes, checkExpected c.1 c.2 (entryAt base c.1) = .ok ()) :
    checkAll base changes = .ok (changes.map (kindAt base)) := by
  induction changes with
  | nil => rfl
  | cons c rest ih =>
      obtain ⟨path, change⟩ := c
      obtain ⟨hc, hrest⟩ := List.forall_mem_cons.mp h
      rw [checkAll]
      simp only [hc, ih hrest]
      rfl

/-- What is documented of the editor on trees that git has written: what is there may be written
again and what is not there removed, and no empty directory stays. -/
structure TreeEditor.Tidy {E : Type} (ed : TreeEditor E) : Prop where
  editTree : ∀ tree, Full tree → ed.write (ed.editTree tree) = tree
  upsert_same : ∀ e path leaf, path ≠ [] → (ed.write e).at path = some (.leaf leaf) →
    ed.write (ed.upsert e path leaf) = ed.write e
  remove_same : ∀ e path, path ≠ [] → Full (ed.write e) → (ed.write e).at path = none →
    ed.write (ed.remove e path) = ed.write e
  remove_full : ∀ e path, path ≠ [] → Full (ed.write e) → Full (ed.write (ed.remove e path))

variable {E : Type} {ed : TreeEditor E} {e : E}

/-- A file is written into directories that hold it. -/
theorem full_upsert (hed : ed.Documented) (hfull : Full (ed.write e)) (hpath : path ≠ [])
    (leaf : Leaf) : Full (ed.write (ed.upsert e path leaf)) := by
  intro q hq hat
  have hself := hed.upsert_self e path leaf hpath
  rcases eq_or_below_or_above_or_apart path q with heq | hbelow | habove | hapart
  · rw [← heq, hself] at hat
    cases hat
  · have hnone : (ed.write (ed.upsert e path leaf)).at q = none := by
      refine at_below ?_ hbelow
      intro sub hsub
      rw [hself] at hsub
      cases hsub
    rw [hnone] at hat
    cases hat
  · -- the file is below the directory
    obtain ⟨rest, rfl⟩ := habove.1
    have hrest : rest ≠ [] := by
      rintro rfl
      exact habove.2 (List.append_nil q).symm
    rw [Entries.at, Node.at_append] at hself
    rw [Entries.at] at hat
    rw [hat] at hself
    cases rest with
    | nil => exact hrest rfl
    | cons name rest => cases hself
  · rw [hed.upsert_apart e path leaf q hapart] at hat
    exact hfull q hq hat

theorem full_change {c : List String × FileChange} (hed : ed.Documented) (htidy : ed.Tidy)
    (hfull : Full (ed.write e)) (hpath : c.1 ≠ []) :
    Full (ed.write (Git.change ed base e c)) := by
  rw [Git.change, TreeEditor.edit]
  cases c.2.content with
  | some content => exact full_upsert hed hfull hpath _
  | none => exact htidy.remove_full e _ hpath hfull

theorem full_foldl (hed : ed.Documented) (htidy : ed.Tidy) (hpaths : ∀ c ∈ changes, c.1 ≠ [])
    (hfull : Full (ed.write e)) : Full (ed.write (changes.foldl (Git.change ed base) e)) := by
  induction changes generalizing e with
  | nil => exact hfull
  | cons c rest ih =>
      obtain ⟨hc, hrest⟩ := List.forall_mem_cons.mp hpaths
      exact ih hrest (full_change hed htidy hfull hc)

/-- The tree that a push makes has no empty directories either. -/
theorem full_newTree (hed : ed.Documented) (htidy : ed.Tidy) (hpaths : ∀ c ∈ changes, c.1 ≠ [])
    (hfull : Full base) (h : newTree ed base changes = .ok tree) : Full tree := by
  obtain ⟨kinds, hkinds, htree⟩ := bind_eq_ok.mp h
  cases htree
  obtain ⟨rfl, -⟩ := checkAll_eq_ok hkinds
  rw [zip_kinds]
  refine full_foldl hed htidy hpaths ?_
  rw [htidy.editTree base hfull]
  exact hfull

/-- A change that is there already is made without a change. -/
theorem change_of_settled {c : List String × FileChange} (htidy : ed.Tidy) (hfull : Full base)
    (hpath : c.1 ≠ []) (hwrite : ed.write e = base)
    (h : match c.2.content with
      | some content => ∃ kind, entryAt base c.1 = some (.file kind content)
      | none => entryAt base c.1 = none) : ed.write (Git.change ed base e c) = base := by
  have hother : entryAt base c.1 ≠ some .other := by
    intro heq
    cases hcontent : c.2.content with
    | some content =>
        rw [hcontent] at h
        obtain ⟨kind, hentry⟩ := h
        rw [heq] at hentry
        cases hentry
    | none =>
        rw [hcontent, heq] at h
        cases h
  obtain ⟨-, hholds⟩ := entryAt_spec hpath hother
  rw [Git.change, TreeEditor.edit]
  cases hcontent : c.2.content with
  | some content =>
      rw [hcontent] at h
      obtain ⟨kind, hentry⟩ := h
      rcases hholds with ⟨hnone, -⟩ | ⟨kind', content', hfile, -, hat⟩
      · rw [hnone] at hentry
        cases hentry
      · rw [hfile] at hentry
        cases hentry
        have hkind : kindAt base c = kind := by rw [kindAt, hfile]
        show ed.write (ed.upsert e c.1 ⟨kindAt base c, content⟩) = base
        rw [hkind, htidy.upsert_same e _ _ hpath (by rw [hwrite, hat]), hwrite]
  | none =>
      rw [hcontent] at h
      rcases hholds with ⟨-, hat⟩ | ⟨kind', content', hfile, -, -⟩
      · show ed.write (ed.remove e c.1) = base
        rw [htidy.remove_same e _ hpath (hwrite ▸ hfull) (by rw [hwrite, hat]), hwrite]
      · rw [hfile] at h
        cases h

/-- Changes that are there already pass their checks and leave the tree as it is. -/
theorem newTree_of_settled (htidy : ed.Tidy) (hfull : Full base)
    (hpaths : ∀ c ∈ changes, c.1 ≠ []) (h : Settled base changes) :
    newTree ed base changes = .ok base := by
  have hchecks := checkAll_of_ok fun c hc => checkExpected_of_settled (h c hc)
  have hfold : ∀ (l : List (List String × FileChange)) (e : E), l ⊆ changes → ed.write e = base →
      ed.write (l.foldl (Git.change ed base) e) = base := by
    intro l
    induction l with
    | nil => exact fun e _ hwrite => hwrite
    | cons c rest ih =>
        intro e hl hwrite
        obtain ⟨hc, hrest⟩ := List.cons_subset.mp hl
        exact ih _ hrest (change_of_settled htidy hfull (hpaths c hc) hwrite (h c hc))
  rw [newTree, hchecks]
  show Except.ok (ed.write ((changes.zip _).foldl ed.edit (ed.editTree base))) = _
  rw [zip_kinds, hfold changes _ (List.Subset.refl _) (htidy.editTree base hfull)]

/-- Once they are made, the changes are there. -/
theorem settled_of_newTree (hed : ed.Documented) (hpaths : ∀ c ∈ changes, c.1 ≠ [])
    (hcons : Consistent changes) (hsep : Separate changes)
    (h : newTree ed base changes = .ok tree) : Settled tree changes := by
  have hkept := ((applied_iff hed hpaths h).mpr hcons).kept
  obtain ⟨kinds, hkinds, htree⟩ := bind_eq_ok.mp h
  cases htree
  obtain ⟨rfl, hchecks⟩ := checkAll_eq_ok hkinds
  rw [zip_kinds] at hkept ⊢
  intro c hc
  have hother := not_other_of_check (hchecks c hc)
  have hmade := @made_all _ ed base (ed.editTree base) c changes hed hpaths hcons hc
  rw [Made] at hmade
  cases hcontent : c.2.content with
  | some content =>
      rw [hcontent] at hmade
      exact ⟨_, entryAt_of_leaf (kindAt_file (hpaths c hc) hother) hmade⟩
  | none =>
      rw [hcontent] at hmade
      refine entryAt_of_none ?_ hmade
      intro q hq
      by_cases hchanged : ∃ c' ∈ changes, c'.1 = q
      · obtain ⟨c', hc', rfl⟩ := hchanged
        have hnone := hsep c' hc' c hc hq
        have hmade' := @made_all _ ed base (ed.editTree base) c' changes hed hpaths hcons hc'
        rw [Made, hnone] at hmade'
        rw [Entries.leafAt, hmade']
      · rw [hkept q fun c' hc' heq => hchanged ⟨c', hc', heq⟩]
        exact (entryAt_spec (hpaths c hc) hother).1 q hq

end Settled

/-! ## Pushing again -/

section Again

/-- A push goes on, or one that is over is made again. -/
inductive Again (κ : Type)
  | act (a : Act κ)
  | again

variable {κ E : Type} [DecidableEq κ]

def stepAgain (component : String → Bool) (ed : TreeEditor E) (object : κ → Commit κ) (job : Job)
    (s : State κ) : Again κ → Option (State κ)
  | .act a => step component ed object job s a
  | .again =>
      match s.phase with
      | .done _ => some { s with requested := false, phase := .idle }
      | _ => none

def repeating (component : String → Bool) (ed : TreeEditor E) (object : κ → Commit κ)
    (job : Job) : Machine (State κ) (Again κ) where
  init s := ∃ tip, Full (baseTree object tip) ∧ s = ⟨tip, [], false, .idle⟩
  step := stepAgain component ed object job

/-- The job's changes are on the tree. -/
def Job.SettledIn (component : String → Bool) (job : Job) (tree : Tree) : Prop :=
  ∀ changes, job.prepare component = .ok changes → Settled tree changes

def Job.Separate (component : String → Bool) (job : Job) : Prop :=
  ∀ changes, job.prepare component = .ok changes → Git.Separate changes

/-- Others leave the changes on the branch once they are there. -/
def Respects (component : String → Bool) (object : κ → Commit κ) (job : Job) (s : State κ) :
    Again κ → Prop
  | .act (.move tip) => Full (baseTree object tip) ∧
      (job.SettledIn component (baseTree object s.branch) →
        job.SettledIn component (baseTree object tip))
  | _ => True

variable {component : String → Bool} {ed : TreeEditor E} {object : κ → Commit κ} {job : Job}
  {s t : State κ}

omit [DecidableEq κ] in
theorem normalizePath_error {path : String} {e : Error}
    (h : normalizePath component path = .error e) : ∃ path, e = .invalidPath path := by
  rw [normalizePath] at h
  split at h
  · cases h
    exact ⟨path, rfl⟩
  · cases h

omit [DecidableEq κ] in
theorem fullPaths_error {pathPrefix : List String} {files : List FileChange} {e : Error}
    (h : fullPaths component pathPrefix files = .error e) : ∃ path, e = .invalidPath path := by
  induction files with
  | nil => cases h
  | cons file files ih =>
      rw [fullPaths] at h
      cases hsegments : normalizePath component file.path with
      | error e' =>
          rw [hsegments] at h
          cases h
          exact normalizePath_error hsegments
      | ok segments =>
          rw [hsegments] at h
          dsimp only [bind, Except.bind] at h
          split at h
          · cases h
            exact ⟨_, rfl⟩
          · cases hrest : fullPaths component pathPrefix files with
            | error e' =>
                rw [hrest] at h
                cases h
                exact ih hrest
            | ok rest =>
                rw [hrest] at h
                cases h

/-- Changes are not prepared because of a path, never because of a conflict. -/
theorem prepare_error {e : Error} (h : job.prepare component = .error e) :
    ∃ path, e = .invalidPath path := by
  rw [Job.prepare] at h
  cases hpre : job.pathPrefix component with
  | error e' =>
      rw [hpre] at h
      cases h
      rw [Job.pathPrefix] at hpre
      split at hpre
      · exact normalizePath_error hpre
      · cases hpre
  | ok pathPrefix =>
      rw [hpre] at h
      exact fullPaths_error h

omit [DecidableEq κ] in
/-- On a tree that holds the changes there is nothing to push, and no conflict. -/
theorem build_of_settled (htidy : ed.Tidy) {parent : Option κ} {commit : κ}
    (hfull : Full (baseTree object parent))
    (hsettled : job.SettledIn component (baseTree object parent)) :
    (∃ e, job.build component ed object parent commit = .error e ∧
      ∀ path, e ≠ .conflict path) ∨
    ∃ tree built, job.build component ed object parent commit = .ok (tree, built) ∧
      built.pack = none := by
  have hinvalid : ∀ {e : Error}, (∃ path, e = .invalidPath path) → ∀ path, e ≠ .conflict path := by
    rintro e ⟨path, rfl⟩ path' heq
    cases heq
  rw [Job.build]
  cases hprepare : job.prepare component with
  | error e =>
      cases hpre : job.pathPrefix component with
      | error e' =>
          have hfail : job.prepare component = .error e' := by
            rw [Job.prepare, hpre]
            rfl
          exact .inl ⟨e', rfl, hinvalid (prepare_error hfail)⟩
      | ok pathPrefix => exact .inl ⟨e, rfl, hinvalid (prepare_error hprepare)⟩
  | ok changes =>
      obtain ⟨pathPrefix, hpre, -⟩ := bind_eq_ok.mp hprepare
      have htree := newTree_of_settled htidy hfull (prepare_ne_nil hprepare)
        (hsettled changes hprepare)
      rw [hpre]
      cases parent with
      | none =>
          refine .inl ⟨.nothingToPush, ?_, ?_⟩
          · show (newTree ed (baseTree object none) changes >>= _) = _
            rw [htree]
            dsimp only [bind, Except.bind]
            rw [if_pos rfl]
          · intro path heq
            cases heq
      | some tip =>
          refine .inr ⟨baseTree object (some tip),
            ⟨tip, some tip, none, filesUnder (baseTree object (some tip)) pathPrefix⟩, ?_, rfl⟩
          show (newTree ed (baseTree object (some tip)) changes >>= _) = _
          rw [htree]
          dsimp only [bind, Except.bind]
          rw [if_pos rfl]
          rfl

omit [DecidableEq κ] in
/-- What is sent is a change. -/
theorem ne_of_build {parent : Option κ} {commit : κ} {tree : Tree} {built : Built κ}
    {pack : List (PackEntry κ)}
    (h : job.build component ed object parent commit = .ok (tree, built))
    (hpack : built.pack = some pack) :
    built.parent = parent ∧ built.commit = commit ∧ tree ≠ baseTree object parent := by
  rw [Job.build] at h
  obtain ⟨pathPrefix, -, h⟩ := bind_eq_ok.mp h
  obtain ⟨changes, -, h⟩ := bind_eq_ok.mp h
  obtain ⟨tree', -, h⟩ := bind_eq_ok.mp h
  split at h
  · split at h
    · cases h
      cases hpack
    · cases h
  · rename_i hne
    cases h
    exact ⟨rfl, rfl, hne⟩

/-- What is known in a phase of a push that has moved the branch by `updates`. -/
def Phase.Known (component : String → Bool) (ed : TreeEditor E) (object : κ → Commit κ) (job : Job)
    (updates : List (Option κ × κ)) : Phase κ → Prop
  | .advertised tip | .fetched tip => Full (baseTree object tip) ∧
      (updates ≠ [] → job.SettledIn component (baseTree object tip))
  | .sending built => Full (baseTree object built.parent) ∧
      BuiltFrom component ed object job built ∧
      (object built.commit).tree ≠ baseTree object built.parent
  | .done (.error (.conflict _)) => updates = []
  | _ => True

/-- What is known of a push that has been made before, or not. -/
structure Once (component : String → Bool) (ed : TreeEditor E) (object : κ → Commit κ) (job : Job)
    (s : State κ) : Prop where
  full : Full (baseTree object s.branch)
  once : s.updates.length ≤ 1
  settled : s.updates ≠ [] → job.SettledIn component (baseTree object s.branch)
  known : s.phase.Known component ed object job s.updates

omit [DecidableEq κ] in
theorem Once.phase (h : Once component ed object job s) {phase : Phase κ} (requested : Bool)
    (hknown : phase.Known component ed object job s.updates) :
    Once component ed object job { s with requested := requested, phase := phase } :=
  ⟨h.full, h.once, h.settled, hknown⟩

/-- What is built is sent only if it is a change, and what has been pushed is in no conflict. -/
theorem Once.build (htidy : ed.Tidy) (h : Once component ed object job s) {commit : κ}
    (hstep : step component ed object job s (.build commit) = some t) :
    Once component ed object job t := by
  rw [step] at hstep
  split at hstep
  · rename_i parent hphase
    obtain ⟨hfull, hsettled⟩ : Phase.Known component ed object job s.updates (.fetched parent) :=
      hphase ▸ h.known
    split at hstep
    · rename_i e hbuild
      cases hstep
      refine h.phase s.requested ?_
      cases e with
      | conflict path =>
          by_contra hne
          rcases @build_of_settled κ E component ed object job htidy parent commit hfull
            (hsettled hne) with ⟨e, he, hconflict⟩ | ⟨tree, built, hok, -⟩
          · cases hbuild.symm.trans he
            exact hconflict path rfl
          · cases hbuild.symm.trans hok
      | _ => trivial
    · rename_i tree built hbuild
      split at hstep
      · rename_i pack hpack
        obtain ⟨hcommit, hstep⟩ := Option.ite_none_right_eq_some.mp hstep
        cases hstep
        obtain ⟨hparent, hbuilt, hne⟩ := ne_of_build hbuild hpack
        refine h.phase s.requested ⟨hparent ▸ hfull, builtFrom_of_build hbuild hpack hcommit, ?_⟩
        rw [hparent, hbuilt, hcommit]
        exact hne
      · cases hstep
        exact h.phase s.requested trivial
  · cases hstep

/-- The branch is moved by what is not there yet. -/
theorem Once.send (hed : ed.Documented) (htidy : ed.Tidy) (hcons : job.Consistent component)
    (hsep : job.Separate component) (h : Once component ed object job s) {accept : Bool}
    (hstep : step component ed object job s (.send accept) = some t) :
    Once component ed object job t := by
  rw [step] at hstep
  split at hstep
  · rename_i built hphase
    obtain ⟨hfull, ⟨changes, hchanges, htree, hparents⟩, hne⟩ :
        Phase.Known component ed object job s.updates (.sending built) := hphase ▸ h.known
    split at hstep
    · obtain ⟨hbranch, hstep⟩ := Option.ite_none_right_eq_some.mp hstep
      have hpaths := prepare_ne_nil hchanges
      -- after the first time the tree would not have changed
      have hnone : s.updates = [] := by
        by_contra hupdates
        have hsettled := h.settled hupdates changes hchanges
        rw [hbranch] at hsettled
        have hsame := newTree_of_settled htidy hfull hpaths hsettled
        rw [htree] at hsame
        exact hne (Except.ok.inj hsame)
      cases hstep
      refine ⟨full_newTree hed htidy hpaths hfull htree, ?_, ?_, trivial⟩
      · show (s.updates ++ _).length ≤ 1
        rw [hnone]
        exact Nat.le_refl 1
      · intro _ changes' hchanges'
        cases hchanges.symm.trans hchanges'
        exact settled_of_newTree hed hpaths (hcons changes hchanges) (hsep changes hchanges) htree
    · cases hstep
      exact h.phase true trivial
  · cases hstep

theorem once_step (hed : ed.Documented) (htidy : ed.Tidy) (hcons : job.Consistent component)
    (hsep : job.Separate component) (h : Once component ed object job s) {a : Again κ}
    (ha : Respects component object job s a)
    (hstep : stepAgain component ed object job s a = some t) : Once component ed object job t := by
  cases a with
  | again =>
      rw [stepAgain] at hstep
      split at hstep
      · cases hstep
        exact h.phase false trivial
      · cases hstep
  | act a =>
      rw [stepAgain] at hstep
      cases a with
      | move tip =>
          cases hstep
          exact ⟨ha.1, h.once, fun hne => ha.2 (h.settled hne), h.known⟩
      | start otherRefs =>
          rw [step] at hstep
          split at hstep
          · split at hstep
            · rename_i e hprepare
              cases hstep
              obtain ⟨path, rfl⟩ := prepare_error hprepare
              exact h.phase s.requested trivial
            · split at hstep
              · cases hstep
                exact h.phase s.requested trivial
              · cases hstep
                exact h.phase s.requested ⟨h.full, h.settled⟩
          · cases hstep
      | fetch =>
          rw [step] at hstep
          split at hstep
          · rename_i hphase
            cases hstep
            have hknown := h.known
            rw [hphase] at hknown
            exact h.phase s.requested hknown
          · split at hstep
            · rename_i tip hbranch
              cases hstep
              exact h.phase s.requested (hbranch ▸ ⟨h.full, h.settled⟩)
            · cases hstep
              exact h.phase s.requested trivial
          · cases hstep
      | build commit => exact h.build htidy hstep
      | send accept => exact h.send hed htidy hcons hsep hstep
      | report =>
          rw [step] at hstep
          split at hstep
          · cases hstep
            exact h.phase s.requested trivial
          · cases hstep
            exact h.phase s.requested trivial
          · cases hstep
      | ask =>
          rw [step] at hstep
          split at hstep
          · split at hstep
            · cases hstep
              exact h.phase s.requested trivial
            · cases hstep
              exact h.phase s.requested trivial
          · cases hstep
      | fail =>
          rw [step] at hstep
          split at hstep
          · cases hstep
          · cases hstep
            exact h.phase s.requested trivial

end Again

/-! ## Two pushes made again -/

theorem treeEditor_tidy : treeEditor.Tidy where
  editTree _ _ := rfl
  upsert_same _ _ _ hpath h := upsert_of_at hpath h
  remove_same _ _ hpath hfull h := remove_of_at hfull hpath h
  remove_full _ _ _ hfull := full_remove hfull

/-- Nobody else pushes. -/
def Alone (_ : State Nat) : Again Nat → Prop
  | .act (.move _) => False
  | _ => True

instance (s : State Nat) (a : Again Nat) : Decidable (Alone s a) := by
  cases a with
  | again => exact .isTrue trivial
  | act a =>
      cases a with
      | move tip => exact .isFalse id
      | _ => exact .isTrue trivial

theorem Alone.respects {object : Nat → Commit Nat} {component : String → Bool} {job : Job}
    {s : State Nat} {a : Again Nat} (h : Alone s a) : Respects component object job s a := by
  cases a with
  | again => trivial
  | act a =>
      cases a with
      | move tip => exact h.elim
      | _ => trivial

/-- The answer of the first push is lost. -/
def lostRun : List (Again Nat) :=
  [.act (.start true), .act .fetch, .act (.build 1), .act (.send true), .act .fail, .again,
    .act (.start true), .act .fetch, .act (.build 2)]

theorem lostRun_exec : ((repeating (fun _ => true) treeEditor (objects (adding ["note"]) withNote)
      (adding ["note"])).exec Alone ⟨some 0, [], false, .idle⟩ lostRun).any (fun s =>
    s.updates == [(some 0, 1)] && match s.phase with
      | .done (.ok pushed) => !pushed.changed && pushed.commit == 1
      | _ => false) = true := by
  rfl

theorem full_readme : Full readme := by
  intro q hq h
  cases q with
  | nil => exact hq rfl
  | cons name q =>
      rw [readme, at_cons, Entries.find] at h
      split at h
      · cases q with
        | nil => cases h
        | cons next q => cases h
      · cases h

theorem prepare_note : (adding ["note"]).prepare (fun _ => true) =
    .ok [(["note"], ⟨"note", some [1], .missing⟩)] := by
  rfl

/-- Writes a file and deletes one below it, neither of which is there. -/
def deletingBelow : Job :=
  { adding [] with changes := [⟨"a/b", none, .any⟩, ⟨"a", some [1], .any⟩] }

def withFile : Tree := .cons "README" (.leaf ⟨.blob, [0]⟩) (.cons "a" (.leaf ⟨.blob, [1]⟩) .nil)

/-- The first push succeeds, and the second one says that `a/b` is in conflict. -/
example : ((repeating (fun _ => true) treeEditor
      (objects deletingBelow withFile) deletingBelow).exec Alone ⟨some 0, [], false, .idle⟩
      lostRun).any (fun s =>
    s.updates == [(some 0, 1)] && match s.phase with
      | .done (.error (.conflict path)) => path == "a/b"
      | _ => false) = true := by
  rfl

end Flowgen.Git
