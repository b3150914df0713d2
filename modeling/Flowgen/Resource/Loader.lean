/-
# `Flowgen.Resource.Loader` — resources from files and the cache (`core/src/resource.rs`)

`load` joins the key of a resource to the base path and reads the file there; on a
miss it looks in the cache.  The key is any text, of a configuration or of a script.
An absolute one replaces the base path, and one with `..` climbs out of it, so that
files elsewhere can be read (`secret_loaded`).

What `load` does with a key depends on nothing but the files under the base path if
and only if the walk from there never comes to a place that is neither under it nor
on its own path or above (`confined_iff`).  A relative key without `..` never does
(`staysInside_of_down`).
-/
import Flowgen.Lib.Paths
import Flowgen.Lib.Utf8
import Flowgen.Cache.Basic

namespace Flowgen.Resource

open Flowgen.Lib Flowgen.Lib.Paths Flowgen.Cache

abbrev Bytes := List UInt8

/-- `std::io::ErrorKind`, as far as reading a file goes. -/
inductive ErrorKind
  | notFound
  | notADirectory
  | isADirectory
  | invalidInput
  | invalidData
deriving DecidableEq

inductive Error
  | readResource (key : String) (source : ErrorKind)
  | resourceNotFound (key : String)
  | resourcePathNotConfigured
  | cache (key : String) (source : CacheError)
  | cacheUtf8 (key : String)
deriving DecidableEq

/-- `get` is that of the cache, which is read under `keyPrefix`. -/
structure CacheSource where
  get : String → Except CacheError (Option Bytes)
  keyPrefix : String

structure ResourceLoader where
  basePath : Option String
  cache : Option CacheSource

/-! ## Paths as texts -/

def components (path : String) : List String := (path.toList.splitOn '/').map String.ofList

def isAbsolute (path : String) : Bool := path.toList.head? = some '/'

/-- Where a path is walked from; `cwd` is the working directory. -/
def start (cwd : Place) (path : String) : Place := if isAbsolute path then [] else cwd

/-- `base_path.join(key)`, with where it is walked from. -/
def join (cwd : Place) (basePath key : String) : Place × List String :=
  if isAbsolute key then ([], components key)
  else (start cwd basePath, components basePath ++ components key)

/-- The joined path has a NUL in it. -/
def hasNul (basePath key : String) : Bool :=
  key.toList.contains (Char.ofNat 0) ||
    (!isAbsolute key && basePath.toList.contains (Char.ofNat 0))

/-- `fs::read_to_string` of the joined path, which is not looked for with a NUL in it. -/
def readToString (fs : FileSystem Bytes) (cwd : Place) (basePath key : String) :
    Except ErrorKind String :=
  if hasNul basePath key then .error .invalidInput
  else
    match walk fs (join cwd basePath key).1 (join cwd basePath key).2 with
    | .ok (.file content) =>
        match Utf8.fromUtf8 content with
        | some text => .ok text
        | none => .error .invalidData
    | .ok .dir => .error .isADirectory
    | .error .notFound => .error .notFound
    | .error .notADirectory => .error .notADirectory

/-- The cache, as the only source or after a miss. -/
def ResourceLoader.fallback (loader : ResourceLoader) (key : String) : Except Error String :=
  match loader.cache with
  | some source =>
      match source.get (source.keyPrefix ++ "." ++ key) with
      | .ok (some bytes) =>
          match Utf8.fromUtf8 bytes with
          | some text => .ok text
          | none => .error (.cacheUtf8 key)
      | .ok none => .error (.resourceNotFound key)
      | .error e => .error (.cache key e)
  | none =>
      match loader.basePath with
      | none => .error .resourcePathNotConfigured
      | some _ => .error (.resourceNotFound key)

def ResourceLoader.load (loader : ResourceLoader) (fs : FileSystem Bytes) (cwd : Place)
    (key : String) : Except Error String :=
  match loader.basePath with
  | some basePath =>
      match readToString fs cwd basePath key with
      | .ok content => .ok content
      | .error .notFound => loader.fallback key
      | .error source => .error (.readResource key source)
  | none => loader.fallback key

/-! ## Confinement -/

/-- The directory that the base path names. -/
def base (cwd : Place) (basePath : String) : Place :=
  locate (start cwd basePath) (components basePath)

/-- The directories on the base path. -/
def known (cwd : Place) (basePath : String) : List Place :=
  trail (start cwd basePath) (components basePath)

/-- The base path names a directory. -/
def Mounted (cwd : Place) (basePath : String) (fs : FileSystem Bytes) : Prop :=
  walk fs (start cwd basePath) (components basePath) = .ok .dir

/-- What is loaded for the key depends only on what is under the base path. -/
def Confined (loader : ResourceLoader) (cwd : Place) (key : String) : Prop :=
  ∀ basePath ∈ loader.basePath, ∀ fs fs' : FileSystem Bytes,
    Mounted cwd basePath fs → Mounted cwd basePath fs' →
    (∀ place, base cwd basePath <+: place → fs.entry place = fs'.entry place) →
      loader.load fs cwd key = loader.load fs' cwd key

/-- From the base path, or from the root if it is absolute, the key leads only
through places that are under the base path, or on it or above. -/
def StaysInside (cwd : Place) (basePath key : String) : Prop :=
  Along (base cwd basePath) (known cwd basePath)
    (if isAbsolute key then [] else base cwd basePath) (components key)

variable {cwd : Place} {basePath key : String} {fs fs' : FileSystem Bytes}

theorem base_mem_known : base cwd basePath ∈ known cwd basePath := locate_mem_trail

/-- A key is walked from the base path, or from the root. -/
theorem walk_join (h : Mounted cwd basePath fs) :
    walk fs (join cwd basePath key).1 (join cwd basePath key).2 =
      walk fs (if isAbsolute key then [] else base cwd basePath) (components key) := by
  rw [join]
  split
  · rfl
  · exact walk_append h

theorem near_start : Near (base cwd basePath) (known cwd basePath)
    (if isAbsolute key then [] else base cwd basePath) := by
  split
  · exact .inr ⟨_, base_mem_known, List.nil_prefix⟩
  · exact .inl List.prefix_rfl

theorem same_of_mounted (h : Mounted cwd basePath fs) (h' : Mounted cwd basePath fs')
    (hunder : ∀ place, base cwd basePath <+: place → fs.entry place = fs'.entry place) :
    Same (base cwd basePath) (known cwd basePath) fs fs' where
  dirs := walk_eq_dir_iff.mp h
  dirs' := walk_eq_dir_iff.mp h'
  under := hunder

theorem load_eq {loader : ResourceLoader} (hbase : loader.basePath = some basePath) :
    loader.load fs cwd key =
      match readToString fs cwd basePath key with
      | .ok content => .ok content
      | .error .notFound => loader.fallback key
      | .error source => .error (.readResource key source) := by
  rw [ResourceLoader.load, hbase]

/-- The cache has no errors of files. -/
theorem fallback_ne {loader : ResourceLoader} {source : ErrorKind} :
    loader.fallback key ≠ .error (.readResource key source) := by
  rw [ResourceLoader.fallback]
  split
  · split
    · split
      · exact fun h => by cases h
      · exact fun h => by cases h
    · exact fun h => by cases h
    · exact fun h => by cases h
  · split
    · exact fun h => by cases h
    · exact fun h => by cases h

/-- What a key can reach depends only on what is under the base path if and only if
following it never leads anywhere else. -/
theorem confined_iff (loader : ResourceLoader) (cwd : Place) (key : String) :
    Confined loader cwd key ↔
      ∀ basePath ∈ loader.basePath, hasNul basePath key = true ∨ StaysInside cwd basePath key := by
  refine forall₂_congr fun basePath hbase => ?_
  constructor
  · intro hconfined
    by_contra hout
    obtain ⟨hnul, hleaves⟩ := not_or.mp hout
    obtain ⟨out, hne, hnear, hwalk⟩ := walk_without (F := Bytes) base_mem_known near_start hleaves
    have hsame := same_without (F := Bytes) hne base_mem_known hnear
    have hmounted : Mounted cwd basePath everything := walk_eq_dir_iff.mpr hsame.dirs
    have hmounted' : Mounted cwd basePath (without out hne) := walk_eq_dir_iff.mpr hsame.dirs'
    have hload := hconfined everything (without out hne) hmounted hmounted' hsame.under
    rw [load_eq hbase, load_eq hbase, readToString, readToString, if_neg hnul, if_neg hnul,
      walk_join hmounted, walk_join hmounted', walk_everything, hwalk] at hload
    exact fallback_ne hload.symm
  · intro hinside fs fs' hmounted hmounted' hunder
    rw [load_eq hbase, load_eq hbase, readToString, readToString]
    rcases hinside with hnul | hstays
    · rw [if_pos hnul, if_pos hnul]
    · rw [walk_join hmounted, walk_join hmounted',
        walk_eq (same_of_mounted hmounted hmounted' hunder) near_start hstays]

/-- A relative key without `..` in it stays inside. -/
theorem staysInside_of_down (hrelative : isAbsolute key = false) (hdown : ".." ∉ components key) :
    StaysInside cwd basePath key := by
  rw [StaysInside, hrelative]
  exact along_of_down hdown List.prefix_rfl

/-! ## A file elsewhere -/

/-- Resources are mounted next to a token. -/
def host (token : Bytes) : FileSystem Bytes where
  entry place :=
    if place = ["srv", "token"] then some (.file token)
    else if place ∈ [[], ["srv"], ["srv", "resources"]] then some .dir
    else none
  root := rfl
  parent place name h := by
    have hplace : place ++ [name] = ["srv", "token"] ∨
        place ++ [name] ∈ [[], ["srv"], ["srv", "resources"]] := by
      by_contra hno
      obtain ⟨hfile, hdir⟩ := not_or.mp hno
      rw [if_neg hfile, if_neg hdir] at h
      exact h rfl
    have hlast : place = (place ++ [name]).dropLast := List.dropLast_concat.symm
    have hparents : place = [] ∨ place = ["srv"] := by
      rcases hplace with h | h
      · rw [h] at hlast
        exact .inr hlast
      · simp only [List.mem_cons, List.append_eq_nil_iff, List.cons_ne_nil, and_false,
          false_or, List.not_mem_nil, or_false] at h
        rcases h with h | h
        · rw [h] at hlast
          exact .inl hlast
        · rw [h] at hlast
          exact .inr hlast
    rcases hparents with rfl | rfl
    · rfl
    · rfl

def mountedLoader : ResourceLoader where
  basePath := some "/srv/resources"
  cache := none

/-- A key that gets the token is not confined. -/
theorem not_confined_of_token {key : String}
    (ha : mountedLoader.load (host [0x61]) [] key = .ok "a")
    (hb : mountedLoader.load (host [0x62]) [] key = .ok "b") : ¬ Confined mountedLoader [] key := by
  intro hconfined
  have hbase : base [] "/srv/resources" = ["srv", "resources"] := by decide
  have hsame : ∀ place, base [] "/srv/resources" <+: place →
      (host [0x61]).entry place = (host [0x62]).entry place := by
    intro place hunder
    rw [hbase] at hunder
    have hne : place ≠ ["srv", "token"] := by
      rintro rfl
      exact absurd hunder (by decide)
    show (if place = _ then _ else _) = if place = _ then _ else _
    rw [if_neg hne, if_neg hne]
  have hload := hconfined "/srv/resources" rfl (host [0x61]) (host [0x62]) (by rfl) (by rfl) hsame
  rw [ha, hb] at hload
  exact absurd (Except.ok.inj hload) (by decide)

/-- A file that is no resource is loaded by a key that climbs, and by an absolute one. -/
theorem secret_loaded :
    ¬ Confined mountedLoader [] "../token" ∧ ¬ Confined mountedLoader [] "/srv/token" :=
  ⟨not_confined_of_token (by decide) (by decide), not_confined_of_token (by decide) (by decide)⟩

end Flowgen.Resource
