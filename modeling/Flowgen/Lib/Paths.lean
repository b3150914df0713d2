/-
# `Flowgen.Lib.Paths` — walking through a file system

A place is the list of names that leads to it from the root.  A path is walked name
by name: `.` and an empty name stay, `..` goes up, any other name goes down, and
each step needs a directory to start from and something to arrive at.  There are no
symbolic links, so that where a walk goes is known without the file system
(`move`); the file system decides how far it comes.

A walk that never leaves the line of a base, which is what lies under the base and
the directories that are known to exist, sees nothing but what is under the base
(`walk_eq`).  One that does leave it can tell whether what it meets there exists
(`walk_without`).
-/
import Mathlib

namespace Flowgen.Lib.Paths

abbrev Place := List String

inductive Entry (F : Type)
  | dir
  | file (content : F)
deriving DecidableEq

/-- What there is at each place; what has a place in it is a directory. -/
structure FileSystem (F : Type) where
  entry : Place → Option (Entry F)
  root : entry [] = some .dir
  parent : ∀ place name, entry (place ++ [name]) ≠ none → entry place = some .dir

inductive WalkError
  | notFound
  | notADirectory
deriving DecidableEq

/-- Where a name leads. -/
def move (place : Place) (name : String) : Place :=
  if name = "" ∨ name = "." then place
  else if name = ".." then place.dropLast
  else place ++ [name]

/-- Where a path leads. -/
def locate (place : Place) (names : List String) : Place := names.foldl move place

/-- The places on a path. -/
def trail (place : Place) : List String → List Place
  | [] => [place]
  | name :: names => place :: trail (move place name) names

variable {F : Type}

/-- What is found at the end of a path. -/
def walk (fs : FileSystem F) (place : Place) : List String → Except WalkError (Entry F)
  | [] =>
      match fs.entry place with
      | some entry => .ok entry
      | none => .error .notFound
  | name :: names =>
      match fs.entry place with
      | some .dir => walk fs (move place name) names
      | some (.file _) => .error .notADirectory
      | none => .error .notFound

variable {fs fs' : FileSystem F} {base place : Place} {known : List Place}
  {names names' : List String}

theorem locate_mem_trail : locate place names ∈ trail place names := by
  induction names generalizing place with
  | nil => exact List.mem_singleton_self _
  | cons name names ih => exact List.mem_cons_of_mem _ ih

/-- What is above a directory is a directory. -/
theorem entry_above {dir : Place} (h : fs.entry dir = some .dir) (hbelow : place <+: dir) :
    fs.entry place = some .dir := by
  obtain ⟨rest, rfl⟩ := hbelow
  induction rest using List.reverseRecOn with
  | nil => rwa [List.append_nil] at h
  | append_singleton rest name ih =>
      refine ih (fs.parent (place ++ rest) name ?_)
      rw [List.append_assoc, h]
      exact Option.some_ne_none _

/-- A path to a directory leads through directories. -/
theorem walk_eq_dir_iff :
    walk fs place names = .ok .dir ↔ ∀ dir ∈ trail place names, fs.entry dir = some .dir := by
  induction names generalizing place with
  | nil =>
      rw [walk, trail, List.forall_mem_singleton]
      cases fs.entry place with
      | none => simp
      | some entry => simp
  | cons name names ih =>
      rw [walk, trail, List.forall_mem_cons]
      cases hentry : fs.entry place with
      | none => simp
      | some entry =>
          cases entry with
          | dir => simpa using ih
          | file content => simp

/-- A path is walked from where its first part leads. -/
theorem walk_append (h : walk fs place names = .ok .dir) :
    walk fs place (names ++ names') = walk fs (locate place names) names' := by
  induction names generalizing place with
  | nil => rfl
  | cons name names ih =>
      have hentry : fs.entry place = some .dir :=
        walk_eq_dir_iff.mp h place List.mem_cons_self
      rw [walk, hentry] at h
      rw [List.cons_append, walk, hentry]
      exact ih h

/-! ## A walk along a base -/

/-- The place is under the base, or it is or lies above a directory that is known. -/
def Near (base : Place) (known : List Place) (place : Place) : Prop :=
  base <+: place ∨ ∃ dir ∈ known, place <+: dir

instance : Decidable (Near base known place) := inferInstanceAs (Decidable (_ ∨ _))

/-- The walk does not leave the line of the base. -/
def Along (base : Place) (known : List Place) (place : Place) : List String → Prop
  | [] => True
  | name :: names =>
      Near base known (move place name) ∧ Along base known (move place name) names

instance decidableAlong (base : Place) (known : List Place) (place : Place) :
    (names : List String) → Decidable (Along base known place names)
  | [] => inferInstanceAs (Decidable True)
  | name :: names =>
      have := decidableAlong base known (move place name) names
      inferInstanceAs (Decidable (_ ∧ _))

/-- Both have what is known, and the same under the base. -/
structure Same (base : Place) (known : List Place) (fs fs' : FileSystem F) : Prop where
  dirs : ∀ dir ∈ known, fs.entry dir = some .dir
  dirs' : ∀ dir ∈ known, fs'.entry dir = some .dir
  under : ∀ place, base <+: place → fs.entry place = fs'.entry place

theorem Same.entry_eq (h : Same base known fs fs') (hnear : Near base known place) :
    fs.entry place = fs'.entry place := by
  rcases hnear with hunder | ⟨dir, hdir, habove⟩
  · exact h.under place hunder
  · rw [entry_above (h.dirs dir hdir) habove, entry_above (h.dirs' dir hdir) habove]

/-- Such a walk finds the same, whatever else there is. -/
theorem walk_eq (h : Same base known fs fs') (hnear : Near base known place)
    (halong : Along base known place names) : walk fs place names = walk fs' place names := by
  induction names generalizing place with
  | nil => rw [walk, walk, h.entry_eq hnear]
  | cons name names ih => rw [walk, walk, h.entry_eq hnear, ih halong.1 halong.2]

/-- Who never goes up stays under the base. -/
theorem along_of_down (h : ".." ∉ names) (hunder : base <+: place) :
    Along base known place names := by
  induction names generalizing place with
  | nil => exact trivial
  | cons name names ih =>
      obtain ⟨hname, hnames⟩ := not_or.mp (List.mem_cons.not.mp h)
      have hmove : base <+: move place name := by
        rw [move, if_neg (Ne.symm hname)]
        split
        · exact hunder
        · exact hunder.trans (List.prefix_append ..)
      exact ⟨.inl hmove, ih hnames hmove⟩

/-! ## A walk that leaves it -/

/-- Everything is a directory. -/
def everything : FileSystem F where
  entry _ := some .dir
  root := rfl
  parent _ _ _ := rfl

/-- Everything is a directory, except what is at `out` or under it: that does not exist. -/
def without (out : Place) (hout : out ≠ []) : FileSystem F where
  entry place := if out <+: place then none else some .dir
  root := if_neg (List.prefix_nil.not.mpr hout)
  parent _ name h := by
    refine if_neg fun hbelow => h (if_pos ?_)
    exact hbelow.trans (List.prefix_append ..)

theorem walk_everything : walk (everything : FileSystem F) place names = .ok .dir :=
  walk_eq_dir_iff.mpr fun _ _ => rfl

variable {out : Place}

/-- Nothing near the base is under a place that is not. -/
theorem not_under_of_near (hbase : base ∈ known) (hout : ¬ Near base known out)
    (hnear : Near base known place) : ¬ out <+: place := by
  intro hbelow
  rcases hnear with hunder | ⟨dir, hdir, habove⟩
  · rcases List.prefix_or_prefix_of_prefix hunder hbelow with h | h
    · exact hout (.inl h)
    · exact hout (.inr ⟨base, hbase, h⟩)
  · exact hout (.inr ⟨dir, hdir, hbelow.trans habove⟩)

theorem ne_nil_of_not_near (hbase : base ∈ known) (hout : ¬ Near base known out) : out ≠ [] := by
  rintro rfl
  exact hout (.inr ⟨base, hbase, List.nil_prefix⟩)

theorem entry_without {hne : out ≠ []} (hbase : base ∈ known) (hout : ¬ Near base known out)
    (hnear : Near base known place) :
    (without out hne : FileSystem F).entry place = some .dir :=
  if_neg (not_under_of_near hbase hout hnear)

theorem same_without (hne : out ≠ []) (hbase : base ∈ known) (hout : ¬ Near base known out) :
    Same base known (everything : FileSystem F) (without out hne) where
  dirs _ _ := rfl
  dirs' dir hdir := entry_without hbase hout (.inr ⟨dir, hdir, List.prefix_rfl⟩)
  under _ hunder := (entry_without hbase hout (.inl hunder)).symm

/-- The walk comes to a place that need not exist. -/
theorem walk_without (hbase : base ∈ known) (hnear : Near base known place)
    (h : ¬ Along base known place names) : ∃ (out : Place) (hne : out ≠ []),
      ¬ Near base known out ∧
        walk (without out hne : FileSystem F) place names = .error .notFound := by
  induction names generalizing place with
  | nil => exact (h trivial).elim
  | cons name names ih =>
      by_cases hstep : Near base known (move place name)
      · obtain ⟨out, hne, hout, hwalk⟩ := ih hstep fun halong => h ⟨hstep, halong⟩
        refine ⟨out, hne, hout, ?_⟩
        rw [walk, entry_without hbase hout hnear]
        exact hwalk
      · have hne := ne_nil_of_not_near hbase hstep
        have hgone : (without _ hne : FileSystem F).entry (move place name) = none :=
          if_pos List.prefix_rfl
        refine ⟨move place name, hne, hstep, ?_⟩
        rw [walk, entry_without hbase hstep hnear]
        cases names with
        | nil =>
            dsimp only
            rw [walk, hgone]
        | cons name' names =>
            dsimp only
            rw [walk, hgone]

end Flowgen.Lib.Paths
