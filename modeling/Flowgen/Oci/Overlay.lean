/-
# `Flowgen.Oci.Overlay` — layers merged into one set of files

Translated from the loop over the layers in `EventHandler::handle` of
`oci/src/sync.rs`.  Files of titled layers are emitted as they are; the other
layers are merged, entry by entry, into one map: a file is inserted, a whiteout
removes its path and what lies under it, an opaque whiteout removes what lies
under its directory.

A whiteout is there to hide what lower layers have.  The map does not know
which layer a file came from, so a marker also removes the files of its own
layer that stand before it in the archive.  What is emitted is

    the overlay of the layers
      ↔ for every path, in the top layer that has a file at it or a marker
        that hides it, no such marker stands after the last such file
-/
import Flowgen.Lib.Overwrite
import Flowgen.Lib.SortedMap
import Flowgen.Lib.Utf8
import Flowgen.Oci.Extract

namespace Flowgen.Oci

open Flowgen.Lib Overwrite

/-- `PendingFileEvent`. -/
structure PendingFileEvent where
  path : String
  content : Bytes
  digest : String
  artifactDigest : String
deriving DecidableEq

/-- The data of an emitted event: `FileEvent` as JSON, or the bytes with `BinaryLayerMeta`. -/
inductive LayerEvent
  | json (path content digest artifactDigest : String)
  | bytes (content : Bytes) (path digest artifactDigest : String)

/-- The event of a file. -/
def PendingFileEvent.event (pending : PendingFileEvent) : LayerEvent :=
  match Utf8.fromUtf8 pending.content.bytes with
  | some text => .json pending.path text pending.digest pending.artifactDigest
  | none => .bytes pending.content pending.path pending.digest pending.artifactDigest

/-- `file_events` and `docker_state`. -/
structure Collected where
  fileEvents : List PendingFileEvent := []
  dockerState : SortedMap String PendingFileEvent := .empty

/-- `k.starts_with(start)`. -/
def startsWith (start k : String) : Bool := start.toList.isPrefixOf k.toList

/-- Where a file of the layer goes that is not named in an archive. -/
def layerPath (index : Nat) (title : Option String) : String :=
  title.getD ("layer-" ++ toString index)

/-- The event of a file of a layer. -/
def pendingOf (manifestDigest : String) (index : Nat) (layer : Layer) (path : Option String)
    (content : Bytes) : PendingFileEvent where
  path := path.getD (layerPath index layer.title)
  content := content
  digest := layer.digest
  artifactDigest := manifestDigest

/-- The keys that a whiteout removes besides its path. -/
def doomedUnder (state : SortedMap String PendingFileEvent) (path : String) : List String :=
  state.rangeWhile (path ++ "/") (startsWith (path ++ "/"))

/-- The keys that an opaque whiteout removes. -/
def doomedIn (state : SortedMap String PendingFileEvent) (parent : String) : List String :=
  let start := if parent.isEmpty then "" else parent ++ "/"
  state.keys.filter fun k => startsWith start k && k != parent

/-- One entry of a layer. -/
def mergeEntry (manifestDigest : String) (index : Nat) (layer : Layer) (acc : Collected)
    (entry : ExtractedEntry) : Collected :=
  match entry with
  | .file path content =>
      let pending := pendingOf manifestDigest index layer path content
      if layer.title.isSome then { acc with fileEvents := acc.fileEvents ++ [pending] }
      else { acc with dockerState := acc.dockerState.insert pending.path pending }
  | .whiteout path =>
      let state := acc.dockerState.erase path
      { acc with dockerState := state.eraseAll (doomedUnder state path) }
  | .opaqueWhiteout parent =>
      { acc with dockerState := acc.dockerState.eraseAll (doomedIn acc.dockerState parent) }

/-- The loop over the layers, from the layer `index` on. -/
def mergeLayers (crate : TarCrate) (limits : Limits) (manifestDigest : String) :
    Nat → List Layer → UInt64 → Collected → Except Failure Collected
  | _, [], _, acc => .ok acc
  | index, layer :: layers, total, acc =>
      (extractLayerFiles crate limits layer total).bind fun (total, entries) =>
        mergeLayers crate limits manifestDigest (index + 1) layers total
          (entries.foldl (mergeEntry manifestDigest index layer) acc)

/-- The files of the layers of a manifest, as `handle` emits them. -/
def pendingFiles (crate : TarCrate) (limits : Limits) (manifestDigest : String)
    (layers : List Layer) : Except Failure (List PendingFileEvent) :=
  (mergeLayers crate limits manifestDigest 0 layers 0 {}).map fun acc =>
    acc.fileEvents ++ acc.dockerState.values

/-- The events of these files. -/
def layerEvents (crate : TarCrate) (limits : Limits) (manifestDigest : String)
    (layers : List Layer) : Except Failure (List LayerEvent) :=
  (pendingFiles crate limits manifestDigest layers).map fun files =>
    files.map PendingFileEvent.event

/-! ## The overlay -/

/-- The markers that hide a path. -/
def Hides : ExtractedEntry → String → Bool
  | .file _ _, _ => false
  | .whiteout path, p => p == path || startsWith (path ++ "/") p
  | .opaqueWhiteout parent, p =>
      p != parent && (parent.isEmpty || startsWith (parent ++ "/") p)

/-- What an entry of a layer does to a path: a marker hides it, a file is there. -/
def touch (manifestDigest : String) (index : Nat) (layer : Layer) (p : String)
    (entry : ExtractedEntry) : Touch PendingFileEvent :=
  match entry with
  | .file path content =>
      let pending := pendingOf manifestDigest index layer path content
      if p = pending.path then .write pending else .keep
  | .whiteout _ | .opaqueWhiteout _ => if Hides entry p then .clear else .keep

/-- What the layers do to a path, layer by layer from the layer `index` on. -/
def touches (manifestDigest : String) (p : String) :
    Nat → List Layer → List (List ExtractedEntry) → List (List (Touch PendingFileEvent))
  | index, layer :: layers, entries :: rest =>
      entries.map (touch manifestDigest index layer p) ::
        touches manifestDigest p (index + 1) layers rest
  | _, _, _ => []

/-- The files of the overlay: in each layer the markers hide what is below the layer, then
its own files are added. -/
def overlayAt (manifestDigest : String) (layers : List Layer)
    (extracted : List (List ExtractedEntry)) (p : String) : Option PendingFileEvent :=
  overlay (touches manifestDigest p 0 layers extracted) none

/-- The files are those of the overlay, each path once, in the order of the paths. -/
structure IsOverlay (manifestDigest : String) (layers : List Layer)
    (extracted : List (List ExtractedEntry)) (files : List PendingFileEvent) : Prop where
  ordered : files.Pairwise fun a b => a.path < b.path
  files : ∀ file, file ∈ files ↔ overlayAt manifestDigest layers extracted file.path = some file

/-- If all layers can be extracted, the files of their overlay are emitted. -/
def MergesAsOverlay (crate : TarCrate) (limits : Limits) (manifestDigest : String)
    (layers : List Layer) : Prop :=
  ∀ extracted, extractAll crate limits layers 0 = .ok extracted →
    ∃ files, layerEvents crate limits manifestDigest layers =
        .ok (files.map PendingFileEvent.event) ∧
      pendingFiles crate limits manifestDigest layers = .ok files ∧
      IsOverlay manifestDigest layers extracted files

/-- For every path, in the top layer that has a file at it or a marker that hides it, the
markers stand before the last such file. -/
def MarkersFirst (crate : TarCrate) (limits : Limits) (manifestDigest : String)
    (layers : List Layer) : Prop :=
  ∀ extracted, extractAll crate limits layers 0 = .ok extracted →
    ∀ p, TopOrderly (touches manifestDigest p 0 layers extracted)

/-! ## One path in the merged map -/

variable {crate : TarCrate} {limits : Limits} {manifestDigest : String} {index : Nat}
  {layer : Layer} {layers : List Layer} {acc : Collected} {p q start : String}
  {state : SortedMap String PendingFileEvent}

theorem le_of_startsWith (h : startsWith start p = true) : start ≤ p :=
  not_lt.mp fun hlt =>
    List.IsPrefix.le (List.isPrefixOf_iff_prefix.mp h) (String.lt_iff_toList_lt.mp hlt)

theorem startsWith_of_between (hp : start ≤ p) (hq : p ≤ q) (h : startsWith start q = true) :
    startsWith start p = true := by
  have hp' : ¬ p.toList < start.toList := fun hlt => not_lt.mpr hp (String.lt_iff_toList_lt.mpr hlt)
  have hq' : ¬ q.toList < p.toList := fun hlt => not_lt.mpr hq (String.lt_iff_toList_lt.mpr hlt)
  exact List.isPrefixOf_iff_prefix.mpr
    (SortedMap.prefix_interval hp' hq' (List.isPrefixOf_iff_prefix.mp h))

theorem mem_doomedUnder {path : String} :
    p ∈ doomedUnder state path ↔ p ∈ state.keys ∧ startsWith (path ++ "/") p = true :=
  SortedMap.mem_rangeWhile (fun _ h => le_of_startsWith h)
    fun _ _ ha hab hb => startsWith_of_between ha hab hb

theorem mem_doomedIn {parent : String} :
    p ∈ doomedIn state parent ↔ p ∈ state.keys ∧ Hides (.opaqueWhiteout parent) p = true := by
  rw [doomedIn, List.mem_filter, Hides]
  refine and_congr_right fun _ => ?_
  cases hempty : parent.isEmpty with
  | true =>
      have hall : startsWith "" p = true := rfl
      rw [if_pos rfl, hall, Bool.true_and, Bool.true_or, Bool.and_true]
  | false =>
      rw [if_neg Bool.false_ne_true, Bool.false_or, Bool.and_comm]

/-- Removing the keys that are hidden hides a path, whether it is a key or not. -/
theorem find_eraseAll_hidden {keys : List String} {hidden : Prop} [Decidable hidden]
    (h : p ∈ keys ↔ p ∈ state.keys ∧ hidden) :
    (state.eraseAll keys).find p = if hidden then none else state.find p := by
  rw [SortedMap.find_eraseAll]
  by_cases hhidden : hidden
  · rw [if_pos hhidden]
    split
    · rfl
    · rename_i hkeys
      have hnone : ¬ (state.find p).isSome :=
        fun hsome => hkeys (h.mpr ⟨SortedMap.isSome_find.mp hsome, hhidden⟩)
      exact Option.not_isSome_iff_eq_none.mp hnone
  · rw [if_neg hhidden, if_neg fun hkeys => hhidden (h.mp hkeys).2]

/-- An entry does to every path what it says. -/
theorem find_mergeEntry (hu : layer.title = none) (entry : ExtractedEntry) :
    (mergeEntry manifestDigest index layer acc entry).dockerState.find p =
      (touch manifestDigest index layer p entry).apply (acc.dockerState.find p) := by
  cases entry with
  | file path content =>
      have hplain : ¬ layer.title.isSome = true := by
        rw [hu]
        exact Bool.false_ne_true
      rw [mergeEntry, touch]
      simp only [if_neg hplain]
      rw [SortedMap.find_insert]
      split
      · rfl
      · rfl
  | whiteout path =>
      rw [mergeEntry, touch]
      change ((acc.dockerState.erase path).eraseAll _).find p = _
      rw [find_eraseAll_hidden mem_doomedUnder, SortedMap.find_erase, Hides]
      by_cases hunder : startsWith (path ++ "/") p = true
      · rw [if_pos hunder, hunder, Bool.or_true, if_pos rfl]
        rfl
      · rw [if_neg hunder]
        rw [Bool.not_eq_true] at hunder
        rw [hunder, Bool.or_false]
        by_cases hpath : p = path
        · rw [if_pos hpath, if_pos (beq_iff_eq.mpr hpath)]
          rfl
        · rw [if_neg hpath, if_neg (beq_iff_eq.not.mpr hpath)]
          rfl
  | opaqueWhiteout parent =>
      rw [mergeEntry, touch]
      change (acc.dockerState.eraseAll _).find p = _
      rw [find_eraseAll_hidden mem_doomedIn]
      split
      · rfl
      · rfl

theorem find_mergeEntries (hu : layer.title = none) (entries : List ExtractedEntry) :
    (entries.foldl (mergeEntry manifestDigest index layer) acc).dockerState.find p =
      run (entries.map (touch manifestDigest index layer p)) (acc.dockerState.find p) := by
  induction entries generalizing acc with
  | nil => rfl
  | cons entry entries ih =>
      rw [List.foldl_cons, ih, find_mergeEntry hu]
      rfl

/-! ## All layers -/

/-- The loop over the layers, on what has been extracted from them. -/
def mergeAll (manifestDigest : String) :
    Nat → List Layer → List (List ExtractedEntry) → Collected → Collected
  | index, layer :: layers, entries :: rest, acc =>
      mergeAll manifestDigest (index + 1) layers rest
        (entries.foldl (mergeEntry manifestDigest index layer) acc)
  | _, _, _, acc => acc

theorem mergeLayers_eq {extracted : List (List ExtractedEntry)} {total : UInt64}
    (h : extractAll crate limits layers total = .ok extracted) :
    mergeLayers crate limits manifestDigest index layers total acc =
      .ok (mergeAll manifestDigest index layers extracted acc) := by
  induction layers generalizing index total acc extracted with
  | nil => rfl
  | cons layer layers ih =>
      rw [extractAll] at h
      obtain ⟨⟨total', entries⟩, hfirst, hmore⟩ := bind_eq_ok.mp h
      obtain ⟨rest, hrest, hextracted⟩ := bind_eq_ok.mp hmore
      cases hextracted
      rw [mergeLayers, hfirst]
      exact ih hrest

theorem find_mergeAll (hu : ∀ layer ∈ layers, layer.title = none)
    (extracted : List (List ExtractedEntry)) :
    (mergeAll manifestDigest index layers extracted acc).dockerState.find p =
      run (touches manifestDigest p index layers extracted).flatten (acc.dockerState.find p) := by
  induction layers generalizing index acc extracted with
  | nil => rfl
  | cons layer layers ih =>
      obtain ⟨hlayer, hlayers⟩ := List.forall_mem_cons.mp hu
      cases extracted with
      | nil => rfl
      | cons entries rest =>
          rw [mergeAll, ih hlayers, find_mergeEntries hlayer, touches, List.flatten_cons,
            run_append]

/-- While untitled layers are merged, there are no files of titled ones, and every file is
kept under its path. -/
structure Collected.Merged (acc : Collected) : Prop where
  fileEvents : acc.fileEvents = []
  path : ∀ p file, acc.dockerState.find p = some file → file.path = p

/-- Only a file is written, to its own path. -/
theorem file_of_write {entry : ExtractedEntry} {file : PendingFileEvent}
    (h : touch manifestDigest index layer p entry = .write file) :
    (∃ path content, entry = .file path content) ∧ file.path = p := by
  cases entry with
  | file path content =>
      rw [touch] at h
      split at h
      · rename_i hp
        cases h
        exact ⟨⟨path, content, rfl⟩, hp.symm⟩
      · cases h
  | whiteout path =>
      rw [touch] at h
      split at h
      · cases h
      · cases h
  | opaqueWhiteout parent =>
      rw [touch] at h
      split at h
      · cases h
      · cases h

theorem Collected.Merged.entry (h : acc.Merged) (hu : layer.title = none)
    (entry : ExtractedEntry) : (mergeEntry manifestDigest index layer acc entry).Merged := by
  constructor
  · cases entry with
    | file path content =>
        rw [mergeEntry, hu]
        exact h.fileEvents
    | whiteout path => exact h.fileEvents
    | opaqueWhiteout parent => exact h.fileEvents
  · intro p file hfind
    rw [find_mergeEntry hu] at hfind
    cases htouch : touch manifestDigest index layer p entry with
    | keep =>
        rw [htouch] at hfind
        exact h.path p file hfind
    | clear =>
        rw [htouch] at hfind
        cases hfind
    | write file' =>
        rw [htouch] at hfind
        cases hfind
        exact (file_of_write htouch).2

theorem Collected.Merged.all (h : acc.Merged) (hu : ∀ layer ∈ layers, layer.title = none)
    (extracted : List (List ExtractedEntry)) :
    (mergeAll manifestDigest index layers extracted acc).Merged := by
  induction layers generalizing index acc extracted with
  | nil => exact h
  | cons layer layers ih =>
      obtain ⟨hlayer, hlayers⟩ := List.forall_mem_cons.mp hu
      cases extracted with
      | nil => exact h
      | cons entries rest =>
          have hentries : (entries.foldl (mergeEntry manifestDigest index layer) acc).Merged :=
            List.foldlRecOn entries _ h fun _ hacc entry _ => hacc.entry hlayer entry
          exact ih hentries hlayers rest

theorem exists_of_mem_touches {extracted : List (List ExtractedEntry)}
    {ts : List (Touch PendingFileEvent)}
    (h : ts ∈ touches manifestDigest p index layers extracted) :
    ∃ i layer, ∃ entries ∈ extracted, entries.map (touch manifestDigest i layer p) = ts := by
  induction layers generalizing index extracted with
  | nil => cases h
  | cons layer layers ih =>
      cases extracted with
      | nil => cases h
      | cons entries rest =>
          rcases List.mem_cons.mp h with rfl | hmem
          · exact ⟨index, layer, entries, List.mem_cons_self, rfl⟩
          · obtain ⟨i, layer, entries, hentries, hts⟩ := ih hmem
            exact ⟨i, layer, entries, List.mem_cons_of_mem _ hentries, hts⟩

theorem path_of_overlayAt {extracted : List (List ExtractedEntry)} {file : PendingFileEvent}
    (h : overlayAt manifestDigest layers extracted p = some file) : file.path = p := by
  rcases write_mem_of_overlay h with hstart | ⟨ts, hts, hfile⟩
  · cases hstart
  · obtain ⟨i, layer, entries, -, rfl⟩ := exists_of_mem_touches hts
    obtain ⟨entry, -, htouch⟩ := List.mem_map.mp hfile
    exact (file_of_write htouch).2

/-- The files in the map, and those of the overlay, are the same if looking up a path gives
the same. -/
theorem isOverlay_iff (h : acc.Merged) {extracted : List (List ExtractedEntry)} :
    IsOverlay manifestDigest layers extracted (acc.fileEvents ++ acc.dockerState.values) ↔
      ∀ p, acc.dockerState.find p = overlayAt manifestDigest layers extracted p := by
  rw [h.fileEvents, List.nil_append]
  have hmem : ∀ file : PendingFileEvent,
      file ∈ acc.dockerState.values ↔ acc.dockerState.find file.path = some file := by
    intro file
    rw [SortedMap.mem_values]
    constructor
    · rintro ⟨k, hk⟩
      rw [h.path k file hk]
      exact hk
    · intro hfind
      exact ⟨_, hfind⟩
  constructor
  · intro hover p
    refine Option.ext fun file => ?_
    constructor
    · intro hfind
      have hpath := h.path p file hfind
      rw [← hpath] at hfind ⊢
      exact (hover.files file).mp ((hmem file).mpr hfind)
    · intro hfile
      have hpath := path_of_overlayAt hfile
      rw [← hpath] at hfile ⊢
      exact (hmem file).mp ((hover.files file).mpr hfile)
  · intro hfind
    refine ⟨?_, ?_⟩
    · refine List.pairwise_map.mpr (acc.dockerState.sorted.imp_of_mem ?_)
      intro a b ha hb hlt
      rw [h.path a.1 a.2 (SortedMap.find_eq_some.mpr ha),
        h.path b.1 b.2 (SortedMap.find_eq_some.mpr hb)]
      exact hlt
    · intro file
      rw [hmem, hfind]

/-- The files of untitled layers are merged as an overlay exactly if, for every path, the
markers that hide it stand first in the top layer that has something to say about it. -/
theorem mergesAsOverlay_iff (crate : TarCrate) (limits : Limits) (manifestDigest : String)
    (layers : List Layer) (hu : ∀ layer ∈ layers, layer.title = none) :
    MergesAsOverlay crate limits manifestDigest layers ↔
      MarkersFirst crate limits manifestDigest layers := by
  have hempty : ({} : Collected).Merged := ⟨rfl, fun p file h => by cases h⟩
  refine forall_congr' fun extracted => forall_congr' fun hok => ?_
  have hmerged := @Collected.Merged.all manifestDigest 0 layers {} hempty hu extracted
  have hpending : pendingFiles crate limits manifestDigest layers =
      .ok ((mergeAll manifestDigest 0 layers extracted {}).fileEvents ++
        (mergeAll manifestDigest 0 layers extracted {}).dockerState.values) := by
    rw [pendingFiles, mergeLayers_eq hok]
    rfl
  have hpaths : (∀ p, (mergeAll manifestDigest 0 layers extracted {}).dockerState.find p =
      overlayAt manifestDigest layers extracted p) ↔
        ∀ p, TopOrderly (touches manifestDigest p 0 layers extracted) := by
    refine forall_congr' fun p => ?_
    rw [find_mergeAll hu]
    exact run_eq_overlay_iff none
  rw [← hpaths, ← isOverlay_iff hmerged, layerEvents, hpending]
  constructor
  · rintro ⟨files, -, hfiles, hover⟩
    cases hfiles
    exact hover
  · intro hover
    exact ⟨_, rfl, rfl, hover⟩

/-- `matches!(entry, ExtractedEntry::File { .. })`. -/
def ExtractedEntry.isFile : ExtractedEntry → Bool
  | .file _ _ => true
  | .whiteout _ => false
  | .opaqueWhiteout _ => false

/-- An archive that lists its markers before its files. -/
def MarkersListedFirst (entries : List ExtractedEntry) : Prop :=
  ∃ markers files, entries = markers ++ files ∧ (∀ e ∈ markers, e.isFile = false) ∧
    ∀ e ∈ files, e.isFile = true

theorem orderly_of_listed_first {entries : List ExtractedEntry} (h : MarkersListedFirst entries) :
    Orderly (entries.map (touch manifestDigest index layer p)) := by
  obtain ⟨markers, files, rfl, hmarkers, hfiles⟩ := h
  rw [List.map_append]
  refine orderly_append ?_ ?_
  · intro value hmem
    obtain ⟨e, he, htouch⟩ := List.mem_map.mp hmem
    obtain ⟨⟨path, content, rfl⟩, -⟩ := file_of_write htouch
    cases hmarkers _ he
  · intro hmem
    obtain ⟨e, he, htouch⟩ := List.mem_map.mp hmem
    have hfile := hfiles e he
    cases e with
    | file path content =>
        rw [touch] at htouch
        split at htouch
        · cases htouch
        · cases htouch
    | whiteout path => cases hfile
    | opaqueWhiteout parent => cases hfile

theorem markersFirst_of_listed_first
    (h : ∀ extracted, extractAll crate limits layers 0 = .ok extracted →
      ∀ entries ∈ extracted, MarkersListedFirst entries) :
    MarkersFirst crate limits manifestDigest layers := by
  intro extracted hok p lower ts upper heq _
  have hts : ts ∈ touches manifestDigest p 0 layers extracted := by
    rw [heq]
    exact List.mem_append_right _ List.mem_cons_self
  obtain ⟨i, layer, entries, hentries, rfl⟩ := exists_of_mem_touches hts
  exact orderly_of_listed_first (h extracted hok entries hentries)

/-- A crate that reads an archive with these regular files, all of them empty. -/
def archiveOf (paths : List String) : TarCrate := fun _ =>
  .ok (paths.map fun path => .ok
    { isFile := true
      path := .ok path
      headerSize := .ok 0
      paxSize := none
      content := .ok ⟨[], by decide⟩
      len_content := by rintro size content ⟨⟩ ⟨⟩; rfl })

/-- Two layers with a marker and a file after it; the one on top hides the file below it. -/
theorem mergesAsOverlay_markers_first :
    let layer : Layer :=
      { mediaType := "application/vnd.oci.image.layer.v1.tar"
        digest := "sha256:abc"
        title := none
        buf := ⟨[], by decide⟩ }
    MergesAsOverlay (archiveOf ["dir/.wh..wh..opq", "dir/a.yaml"]) ⟨1024, 1024, "test:v1"⟩
      "sha256:def" [layer, layer] := by
  intro layer
  have hextracted : extractAll (archiveOf ["dir/.wh..wh..opq", "dir/a.yaml"])
      ⟨1024, 1024, "test:v1"⟩ [layer, layer] 0 =
        .ok [[.opaqueWhiteout "dir", .file (some "dir/a.yaml") ⟨[], by decide⟩],
          [.opaqueWhiteout "dir", .file (some "dir/a.yaml") ⟨[], by decide⟩]] := by decide
  refine (mergesAsOverlay_iff _ _ _ _ (by simp [layer])).mpr (markersFirst_of_listed_first ?_)
  intro extracted hok entries hentries
  rw [hextracted] at hok
  cases hok
  obtain rfl := (or_self_iff).mp (List.mem_pair.mp hentries)
  exact ⟨[.opaqueWhiteout "dir"], [.file (some "dir/a.yaml") _], rfl, by simp [ExtractedEntry.isFile]⟩

/-- A file, and a marker after it that is there for the layers below. -/
theorem marker_after_file_removes_it :
    let layer : Layer :=
      { mediaType := "application/vnd.oci.image.layer.v1.tar"
        digest := "sha256:abc"
        title := none
        buf := ⟨[], by decide⟩ }
    ¬ MergesAsOverlay (archiveOf ["dir/a.yaml", "dir/.wh..wh..opq"]) ⟨1024, 1024, "test:v1"⟩
      "sha256:def" [layer] := by
  intro layer h
  have hextracted : extractAll (archiveOf ["dir/a.yaml", "dir/.wh..wh..opq"])
      ⟨1024, 1024, "test:v1"⟩ [layer] 0 =
        .ok [[.file (some "dir/a.yaml") ⟨[], by decide⟩, .opaqueWhiteout "dir"]] := by decide
  have hpending : pendingFiles (archiveOf ["dir/a.yaml", "dir/.wh..wh..opq"])
      ⟨1024, 1024, "test:v1"⟩ "sha256:def" [layer] = .ok [] := by decide
  obtain ⟨files, -, hfiles, hover⟩ := h _ hextracted
  rw [hpending] at hfiles
  cases hfiles
  have hmem := (hover.files
    { path := "dir/a.yaml"
      content := ⟨[], by decide⟩
      digest := "sha256:abc"
      artifactDigest := "sha256:def" }).mpr (by decide)
  cases hmem

end Flowgen.Oci
