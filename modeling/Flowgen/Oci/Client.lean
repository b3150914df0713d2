/-
# `Flowgen.Oci.Client` — files that are pushed, and synced again

Translated from `oci/src/push/client.rs`: `prepare`, `normalize_path`, `layer`,
`descriptor`, `manifest` and the plan of `Push::push`, which is what it sends
and in which order.

The crates are fields of `Crates`: the digest, the archive, the JSON of a
manifest and the grammar of references.  What is assumed of them is `Faithful`:
an archive is read as it was written, and so is a manifest.

A layer that is pushed here is an archive of an image to `oci_sync`, and there
a file name can be a marker.  So what is synced is

    what was pushed
      ↔ no file name begins with `.wh.` and the files keep to the limits
-/
import Flowgen.Lib.Pieces
import Flowgen.Oci.Overlay

namespace Flowgen.Oci.Client

open Flowgen.Lib Flowgen.Text

/-! ## Files -/

/-- `ArtifactFile`. -/
structure ArtifactFile where
  path : String
  content : Bytes
deriving DecidableEq

/-- The errors of `Push::push`, but for those of the task that builds the layer. -/
inductive Error
  | noTags
  | invalidReference (reference : String)
  | invalidPath (path : String)
  | duplicatePath (path : String)
  | registry (source : String)
  | layer (source : String)
  | manifest (source : String)
  | push (reference : String)
deriving DecidableEq

/-- The pieces of a path that count. -/
def pathSegments (path : String) : List (List Char) :=
  (segments path.toList).filter fun s => !s.isEmpty && s != ['.']

/-- `normalize_path`. -/
def normalizePath (path : String) : Except Error String :=
  if path.toList.head? = some '/' ∨ Char.ofNat 0 ∈ path.toList ∨ pathSegments path = [] ∨
      (pathSegments path).contains ['.', '.'] then
    .error (.invalidPath path)
  else .ok (.ofList (['/'].intercalate (pathSegments path)))

/-- The loop of `prepare`, on the files so far. -/
def prepareFrom (prepared : SortedMap String Bytes) :
    List ArtifactFile → Except Error (SortedMap String Bytes)
  | [] => .ok prepared
  | file :: files =>
      (normalizePath file.path).bind fun path =>
        if (prepared.find path).isSome then .error (.duplicatePath path)
        else prepareFrom (prepared.insert path file.content) files

/-- `prepare`. -/
def prepare (files : List ArtifactFile) : Except Error (SortedMap String Bytes) :=
  prepareFrom .empty files

/-! ## The artifact -/

/-- What `layer` sets in the header of an entry. -/
structure Header where
  size : UInt64
  mode : Nat := 0o644
  uid : Nat := 0
  gid : Nat := 0
  mtime : Nat := 0
  /-- `EntryType::Regular`. -/
  regular : Bool := true
deriving DecidableEq

/-- An entry as `append_data` gets it. -/
structure Appended where
  header : Header
  path : String
  data : Bytes
deriving DecidableEq

/-- `OciDescriptor`. -/
structure Descriptor where
  mediaType : String
  digest : String
  size : Int
deriving DecidableEq

/-- `OciImageManifest`, with the fields that are set. -/
structure Manifest where
  mediaType : String
  artifactType : String
  config : Descriptor
  layers : List Descriptor
  annotations : Option (List (String × String))
deriving DecidableEq

/-- A `Reference`: in which repository of which registry, and under which tag or digest. -/
structure Reference where
  repository : String
  tag : String
deriving DecidableEq

/-- The crates that a push rests on. -/
structure Crates where
  /-- `Reference::from_str`. -/
  parse : String → Option Reference
  /-- `sha256_digest`. -/
  digest : Bytes → String
  /-- `tar::Builder` over `flate2::write::GzEncoder`. -/
  archive : List Appended → Except String Bytes
  /-- `tar::Archive` over `flate2::read::GzDecoder`, or over the bytes themselves. -/
  read : TarCrate
  /-- `serde_json::to_vec` of a manifest. -/
  toVec : Manifest → Except String Bytes
  /-- The manifest in the body of an answer. -/
  fromSlice : Bytes → Option Manifest

def appended (file : String × Bytes) : Appended where
  header := { size := file.2.len }
  path := file.1
  data := file.2

/-- `layer`. -/
def layer (crates : Crates) (files : SortedMap String Bytes) : Except Error Bytes :=
  (crates.archive (files.entries.map appended)).mapError .layer

/-- `EMPTY_CONTENT`. -/
def emptyContent : Bytes := ⟨[0x7b, 0x7d], by decide⟩

def emptyMediaType : String := "application/vnd.oci.empty.v1+json"
def artifactType : String := "application/vnd.connve.flowgen.files.v1"
def imageMediaType : String := "application/vnd.oci.image.manifest.v1+json"
def layerMediaType : String := "application/vnd.oci.image.layer.v1.tar+gzip"

/-- `descriptor`. -/
def descriptor (crates : Crates) (mediaType : String) (content : Bytes) : Descriptor where
  mediaType := mediaType
  digest := crates.digest content
  size := content.bytes.length

/-- `manifest`, before it is written as JSON. -/
def manifest (config layer : Descriptor) (annotations : List (String × String)) : Manifest where
  mediaType := imageMediaType
  artifactType := artifactType
  config := config
  layers := [layer]
  annotations := if annotations.isEmpty then none else some annotations

/-- What is sent to a registry. -/
inductive Request
  | blob (repository : String) (content : Bytes) (digest : String)
  | manifest (reference : Reference) (body : Bytes)
deriving DecidableEq

/-- `Push`, with the credentials as they are loaded. -/
structure Push where
  repository : String
  annotations : List (String × String)
  /-- `load_auth`, for a registry. -/
  auth : Reference → Except String Unit

/-- `Pushed`. -/
structure Pushed where
  digest : String
  references : List Reference
deriving DecidableEq

/-- What a push is about to send, and what it returns when all of it is sent. -/
structure Plan where
  body : Bytes
  layer : Bytes
  requests : List Request
  pushed : Pushed
deriving DecidableEq

/-- `Push::reference`. -/
def Push.reference (crates : Crates) (push : Push) (tag : String) : Except Error Reference :=
  let reference :=
    String.ofList (push.repository.toList.rdropWhile (· == '/')) ++ ":" ++ tag
  (crates.parse reference).elim (.error (.invalidReference reference)) .ok

/-- `Push::push`, up to where it begins to send. -/
def Push.plan (crates : Crates) (push : Push) (files : List ArtifactFile) (tags : List String) :
    Except Error Plan := do
  let references ← tags.mapM (push.reference crates)
  match references with
  | [] => .error .noTags
  | first :: _ =>
      let files ← prepare files
      let _ ← (push.auth first).mapError .registry
      let layer ← layer crates files
      let layerDescriptor := descriptor crates layerMediaType layer
      let configDescriptor := descriptor crates emptyMediaType emptyContent
      let body ← (crates.toVec (manifest configDescriptor layerDescriptor push.annotations)).mapError
        .manifest
      .ok
        { body := body
          layer := layer
          requests :=
            [.blob first.repository layer layerDescriptor.digest,
              .blob first.repository emptyContent configDescriptor.digest] ++
              references.map (.manifest · body)
          pushed := ⟨crates.digest body, references⟩ }

/-! ## Normalized paths -/

variable {crates : Crates} {files files' : List ArtifactFile} {prepared : SortedMap String Bytes}
  {path path' : String}

/-- A path of which every piece names something below. -/
def Normal (path : String) : Prop :=
  ∀ s ∈ segments path.toList, s ≠ [] ∧ s ≠ ['.'] ∧ s ≠ ['.', '.']

theorem not_mem_of_mem_segments {cs s : List Char} (h : s ∈ segments cs) : '/' ∉ s := by
  rw [segments] at h
  exact Pieces.not_mem_of_mem_splitOn h

theorem mem_pathSegments {s : List Char} :
    s ∈ pathSegments path ↔ s ∈ segments path.toList ∧ s ≠ [] ∧ s ≠ ['.'] := by
  rw [pathSegments, List.mem_filter]
  simp

/-- A path is accepted with its pieces. -/
theorem segments_normalizePath (h : normalizePath path = .ok path') :
    segments path'.toList = pathSegments path := by
  rw [normalizePath] at h
  split at h
  · cases h
  · rename_i hvalid
    cases h
    rw [String.toList_ofList, segments]
    refine List.splitOn_intercalate '/' ?_ fun hnil => hvalid (.inr (.inr (.inl hnil)))
    intro s hs
    exact not_mem_of_mem_segments (mem_pathSegments.mp hs).1

theorem normal_normalizePath (h : normalizePath path = .ok path') : Normal path' := by
  intro s hs
  rw [segments_normalizePath h] at hs
  obtain ⟨-, hempty, hdot⟩ := mem_pathSegments.mp hs
  refine ⟨hempty, hdot, ?_⟩
  rintro rfl
  rw [normalizePath] at h
  split at h
  · cases h
  · rename_i hvalid
    exact hvalid (.inr (.inr (.inr (List.contains_iff_mem.mpr hs))))

/-- The file name of a path begins as that of a marker. -/
def marked (path : String) : Bool :=
  ".wh.".toList.isPrefixOf ((segments path.toList).getLastD [])

theorem Normal.trimRight (h : Normal path) :
    trimRight (segments path.toList) = segments path.toList := by
  cases hsegments : segments path.toList with
  | nil => rfl
  | cons first rest =>
      rw [Oci.trimRight]
      have hlast : ∀ hne : rest ≠ [], ¬ (rest.getLast hne).isEmpty = true ∧
          rest.getLast hne ≠ ['.'] := by
        intro hne
        have hmem : rest.getLast hne ∈ segments path.toList := by
          rw [hsegments]
          exact List.mem_cons_of_mem _ (List.getLast_mem hne)
        obtain ⟨hempty, hdot, -⟩ := h _ hmem
        exact ⟨fun hnil => hempty (List.isEmpty_iff.mp hnil), hdot⟩
      rw [List.rdropWhile_eq_self_iff.mpr]
      intro hne hdrop
      obtain ⟨hempty, hdot⟩ := hlast hne
      rcases (Bool.or_eq_true _ _).mp hdrop with hnil | heq
      · exact hempty hnil
      · exact hdot (beq_iff_eq.mp heq)

theorem Normal.segments_ne_nil : segments path.toList ≠ [] := List.splitOn_ne_nil _ _

theorem Normal.fileName (h : Normal path) :
    fileName path = some (.ofList ((segments path.toList).getLastD [])) := by
  have hne : segments path.toList ≠ [] := Normal.segments_ne_nil
  obtain ⟨-, hdot, hup⟩ := h _ (List.getLast_mem hne)
  rw [Oci.fileName, h.trimRight, List.getLast?_eq_some_getLast hne, Option.bind_some,
    if_neg (not_or.mpr ⟨hdot, hup⟩), List.getLastD_eq_getLast?, List.getLast?_eq_some_getLast hne]
  rfl

/-- A normalized path does not begin with a slash. -/
theorem Normal.dropWhile (h : Normal path) :
    String.ofList (path.toList.dropWhile (· == '/')) = path := by
  cases hpath : path.toList with
  | nil =>
      refine absurd ?_ (h [] ?_).1
      · rfl
      · rw [segments, hpath, List.splitOn_nil]
        exact List.mem_singleton_self _
  | cons c cs =>
      have hc : ¬ (c == '/') = true := by
        intro hslash
        refine (h [] ?_).1 rfl
        rw [segments, hpath, List.splitOn_cons_eq_if_modifyHead, if_pos hslash]
        exact List.mem_cons_self
      rw [List.dropWhile_cons_of_neg (p := (· == '/')) hc, ← hpath, String.ofList_toList]

theorem Normal.isEmpty (h : Normal path) : ¬ path.isEmpty = true := by
  intro hempty
  rw [String.isEmpty_iff] at hempty
  refine (h [] ?_).1 rfl
  rw [hempty]
  exact List.mem_singleton_self _

/-- Only the beginning of the file name decides what a normalized path is taken for. -/
theorem Normal.classify_of_not_marked (h : Normal path) (hm : marked path = false) :
    classify path = .kept path := by
  have hpre : ∀ rest, stripPrefix ".wh.".toList ((segments path.toList).getLastD []) ≠ some rest := by
    intro rest hrest
    rw [stripPrefix_eq_some] at hrest
    rw [marked, hrest] at hm
    rw [List.isPrefixOf_iff_prefix.mpr (List.prefix_append _ _)] at hm
    cases hm
  rw [classify]
  simp only [h.dropWhile, if_neg h.isEmpty, h.fileName, String.toList_ofList]
  rw [if_neg]
  · cases hstrip : stripPrefix ".wh.".toList ((segments path.toList).getLastD []) with
    | none => rfl
    | some rest => exact absurd hstrip (hpre rest)
  · intro hopaque
    rw [marked, ← String.toList_ofList (l := (segments path.toList).getLastD []), hopaque] at hm
    exact absurd hm (by decide)

/-- A marker is never kept as a file. -/
theorem Normal.classify_of_marked (h : Normal path) (hm : marked path = true) (kept : String) :
    classify path ≠ .kept kept := by
  obtain ⟨rest, hrest⟩ := List.isPrefixOf_iff_prefix.mp hm
  have hstrip : stripPrefix ".wh.".toList ((segments path.toList).getLastD []) = some rest :=
    stripPrefix_eq_some.mpr hrest.symm
  rw [classify]
  simp only [h.dropWhile, if_neg h.isEmpty, h.fileName, String.toList_ofList, hstrip]
  split
  · intro heq
    cases heq
  · intro heq
    cases heq

/-! ## Prepared files -/

/-- The path a file is stored under, if it is accepted. -/
def storedPath (path : String) : String := .ofList (['/'].intercalate (pathSegments path))

theorem normalizePath_eq_ok (h : normalizePath path = .ok path') : path' = storedPath path := by
  rw [normalizePath] at h
  split at h
  · cases h
  · cases h
    rfl

theorem insertInto_perm {k : String} {v : Bytes} {es : List (String × Bytes)}
    (h : ∀ e ∈ es, e.1 ≠ k) : (SortedMap.insertInto k v es).Perm ((k, v) :: es) := by
  induction es with
  | nil => exact .refl _
  | cons e es ih =>
      obtain ⟨hk, hes⟩ := List.forall_mem_cons.mp h
      rw [SortedMap.insertInto]
      split
      · exact .refl _
      · rw [if_neg (Ne.symm hk)]
        exact ((ih hes).cons e).trans (.swap _ _ _)

/-- What one turn of the loop has done if it went on. -/
theorem prepareFrom_cons {m : SortedMap String Bytes} {file : ArtifactFile}
    (h : prepareFrom m (file :: files) = .ok prepared) :
    normalizePath file.path = .ok (storedPath file.path) ∧
      (∀ e ∈ m.entries, e.1 ≠ storedPath file.path) ∧
      prepareFrom (m.insert (storedPath file.path) file.content) files = .ok prepared := by
  obtain ⟨path, hpath, h⟩ := bind_eq_ok.mp h
  obtain rfl := normalizePath_eq_ok hpath
  split at h
  · cases h
  · rename_i hnew
    refine ⟨hpath, ?_, h⟩
    rintro ⟨k, v⟩ hmem rfl
    exact hnew (by rw [SortedMap.find_eq_some.mpr hmem]; rfl)

/-- What is prepared are the files, each under the path it is stored at. -/
theorem prepareFrom_perm {m : SortedMap String Bytes} (h : prepareFrom m files = .ok prepared) :
    prepared.entries.Perm
        (m.entries ++ files.map fun file => (storedPath file.path, file.content)) ∧
      ∀ file ∈ files, normalizePath file.path = .ok (storedPath file.path) := by
  induction files generalizing m with
  | nil =>
      cases h
      rw [List.map_nil, List.append_nil]
      exact ⟨.refl _, fun _ hmem => absurd hmem List.not_mem_nil⟩
  | cons file files ih =>
      obtain ⟨hpath, hnew, hrest⟩ := prepareFrom_cons h
      obtain ⟨hperm, hpaths⟩ := ih hrest
      refine ⟨hperm.trans ?_, List.forall_mem_cons.mpr ⟨hpath, hpaths⟩⟩
      have hinsert := insertInto_perm (v := file.content) hnew
      exact (hinsert.append_right _).trans List.perm_middle.symm

theorem prepare_perm (h : prepare files = .ok prepared) :
    prepared.entries.Perm (files.map fun file => (storedPath file.path, file.content)) :=
  (prepareFrom_perm h).1

theorem normal_of_mem_prepare (h : prepare files = .ok prepared) {e : String × Bytes}
    (he : e ∈ prepared.entries) : Normal e.1 := by
  obtain ⟨hperm, hpaths⟩ := prepareFrom_perm h
  obtain ⟨file, hfile, rfl⟩ := List.mem_map.mp (hperm.mem_iff.mp he)
  exact normal_normalizePath (hpaths file hfile)

/-- Maps with the same entries in some order are one map. -/
theorem sortedMap_ext {m m' : SortedMap String Bytes} (h : m.entries.Perm m'.entries) :
    m = m' := by
  obtain ⟨entries, sorted⟩ := m
  obtain ⟨entries', sorted'⟩ := m'
  have heq : entries = entries' := by
    refine List.Perm.eq_of_pairwise ?_ sorted sorted' h
    intro a b _ _ hab hba
    exact absurd (lt_trans hab hba) (lt_irrefl _)
  subst heq
  rfl

/-- Files can be prepared exactly if their paths are accepted and stored apart. -/
theorem prepareFrom_isOk {m : SortedMap String Bytes} :
    (∃ prepared, prepareFrom m files = .ok prepared) ↔
      (∀ file ∈ files, normalizePath file.path = .ok (storedPath file.path)) ∧
        (m.keys ++ files.map fun file => storedPath file.path).Nodup := by
  constructor
  · rintro ⟨prepared, h⟩
    obtain ⟨hperm, hpaths⟩ := prepareFrom_perm h
    have hkeys := hperm.map Prod.fst
    rw [List.map_append, List.map_map] at hkeys
    refine ⟨hpaths, hkeys.nodup_iff.mp ?_⟩
    exact List.pairwise_map.mpr (prepared.sorted.imp ne_of_lt)
  · induction files generalizing m with
    | nil => exact fun _ => ⟨m, rfl⟩
    | cons file files ih =>
        rintro ⟨hpaths, hnodup⟩
        obtain ⟨hpath, hrest⟩ := List.forall_mem_cons.mp hpaths
        rw [List.map_cons] at hnodup
        have hnew : storedPath file.path ∉ m.keys := by
          intro hmem
          exact (List.nodup_append'.mp hnodup).2.2 hmem List.mem_cons_self
        have hentries : ∀ e ∈ m.entries, e.1 ≠ storedPath file.path := by
          rintro e he heq
          exact hnew (heq ▸ List.mem_map_of_mem he)
        have hkeys : ((m.insert (storedPath file.path) file.content).keys ++
            files.map fun file => storedPath file.path).Nodup := by
          have hperm := (insertInto_perm (v := file.content) hentries).map Prod.fst
          exact (hperm.append_right _).nodup_iff.mpr (List.perm_middle.nodup_iff.mp hnodup)
        obtain ⟨prepared, hprepared⟩ := ih ⟨hrest, hkeys⟩
        refine ⟨prepared, bind_eq_ok.mpr ⟨_, hpath, ?_⟩⟩
        rw [if_neg fun hsome => hnew (SortedMap.isSome_find.mp hsome)]
        exact hprepared

/-- In whatever order the files come, the same is prepared. -/
theorem prepare_of_perm (hperm : files.Perm files') (h : prepare files = .ok prepared) :
    prepare files' = .ok prepared := by
  obtain ⟨hpaths, hnodup⟩ := prepareFrom_isOk.mp ⟨prepared, h⟩
  have hexists : ∃ prepared', prepare files' = .ok prepared' := by
    refine prepareFrom_isOk.mpr ⟨fun file hfile => hpaths file (hperm.mem_iff.mpr hfile), ?_⟩
    exact ((hperm.map _).append_left _).nodup_iff.mp hnodup
  obtain ⟨prepared', hprepared'⟩ := hexists
  have hentries := ((prepare_perm h).trans (hperm.map _)).trans (prepare_perm hprepared').symm
  rw [hprepared', sortedMap_ext hentries]

/-! ## What is extracted -/

/-- The entry of an archive that a file is read as. -/
def readAs (file : String × Bytes) : TarEntry where
  isFile := (appended file).header.regular
  path := .ok (appended file).path
  headerSize := .ok (appended file).header.size
  paxSize := none
  content := .ok (appended file).data
  len_content := by
    intro size bytes hsize hbytes
    cases hsize
    cases hbytes
    rfl

/-- The crates read what they have written. -/
structure Crates.Faithful (crates : Crates) : Prop where
  archive : ∀ (files : List (String × Bytes)) buf, (∀ file ∈ files, Normal file.1) →
    crates.archive (files.map appended) = .ok buf →
    crates.read (.gzDecoder buf) = .ok (files.map fun file => .ok (readAs file))
  manifest : ∀ manifest body, crates.toVec manifest = .ok body →
    crates.fromSlice body = some manifest

/-- What the file of an archive is extracted as. -/
def extractedAs (file : String × Bytes) : List ExtractedEntry :=
  match classify file.1 with
  | .skipped => []
  | .opaqueWhiteout parent => [.opaqueWhiteout parent]
  | .whiteout path => [.whiteout path]
  | .kept path => [.file (some path) file.2]

variable {limits : Limits} {digest : String} {acc acc' : UInt64 × List ExtractedEntry}
  {entries : List (String × Bytes)}

theorem extractEntry_readAs {file : String × Bytes}
    (h : extractEntry limits digest acc (.ok (readAs file)) = .ok acc') :
    acc'.2 = acc.2 ++ extractedAs file := by
  rw [extractEntry, if_pos (show (readAs file).isFile = true from rfl)] at h
  change (match classify file.1 with
    | .skipped => _
    | .opaqueWhiteout _ => _
    | .whiteout _ => _
    | .kept path => _) = _ at h
  rw [extractedAs]
  cases hkind : classify file.1 with
  | skipped =>
      rw [hkind] at h
      cases h
      exact (List.append_nil _).symm
  | opaqueWhiteout parent =>
      rw [hkind] at h
      cases h
      rfl
  | whiteout path =>
      rw [hkind] at h
      cases h
      rfl
  | kept path =>
      rw [hkind] at h
      obtain ⟨total, -, h⟩ := bind_eq_ok.mp h
      split at h
      · cases h
      · cases h
        rfl

theorem extract_readAs
    (h : (entries.map fun file => .ok (readAs file)).foldlM (extractEntry limits digest) acc =
      .ok acc') : acc'.2 = acc.2 ++ entries.flatMap extractedAs := by
  induction entries generalizing acc with
  | nil =>
      cases h
      exact (List.append_nil _).symm
  | cons file entries ih =>
      rw [List.map_cons, List.foldlM_cons] at h
      obtain ⟨next, hnext, hrest⟩ := bind_eq_ok.mp h
      rw [ih hrest, extractEntry_readAs hnext, List.flatMap_cons, List.append_assoc]

/-- The layer of a pushed manifest, with its blob, as it is pulled: it has no title. -/
def pulled (crates : Crates) (buf : Bytes) : Layer where
  mediaType := layerMediaType
  digest := crates.digest buf
  title := none
  buf := buf

/-- The files keep to the limits, one by one and together. -/
structure Fits (limits : Limits) (contents : List Bytes) : Prop where
  file : ∀ content ∈ contents, content.len ≤ limits.maxFileSize
  total : min (contents.map (·.bytes.length)).sum (2 ^ 64 - 1) ≤ limits.maxTotalSize.toNat

variable {buf : Bytes} {manifestDigest : String} {e : String × Bytes}

theorem len_le_isizeMax (content : Bytes) : content.len ≤ isizeMax := by
  have hfits := content.fits
  rw [UInt64.le_iff_toNat_le, toNat_len, isizeMax, UInt64.toNat_ofNat']
  omega

theorem archiveSizes_of_not_marked (hnormal : ∀ file ∈ entries, Normal file.1)
    (h : ∀ file ∈ entries, marked file.1 = false) :
    archiveSizes (entries.map fun file => .ok (readAs file)) =
      some (entries.map fun file => ⟨file.2.len, file.2.len⟩) := by
  induction entries with
  | nil => rfl
  | cons file entries ih =>
      obtain ⟨hfile, hfiles⟩ := List.forall_mem_cons.mp hnormal
      obtain ⟨hm, hms⟩ := List.forall_mem_cons.mp h
      have hsizes : entrySizes (.ok (readAs file)) = some [⟨file.2.len, file.2.len⟩] := by
        rw [entrySizes, if_pos (show (readAs file).isFile = true from rfl)]
        change (match classify file.1 with
          | .skipped => _
          | .opaqueWhiteout _ => _
          | .whiteout _ => _
          | .kept _ => _) = _
        rw [hfile.classify_of_not_marked hm]
        rfl
      rw [List.map_cons, archiveSizes, hsizes, ih hfiles hms]
      rfl

theorem declared_iff_fits :
    Declared limits (entries.map fun file => ⟨file.2.len, file.2.len⟩) ↔
      Fits limits (entries.map Prod.snd) := by
  have hsum : ((entries.map fun file => (⟨file.2.len, file.2.len⟩ : Sizes)).map
      (·.declared.toNat)).sum = ((entries.map Prod.snd).map (·.bytes.length)).sum := by
    rw [List.map_map, List.map_map]
    congr 1
    refine List.map_congr_left fun file _ => ?_
    exact toNat_len file.2
  constructor
  · intro h
    refine ⟨?_, hsum ▸ h.total⟩
    intro content hcontent
    obtain ⟨file, hfile, rfl⟩ := List.mem_map.mp hcontent
    exact (h.file _ (List.mem_map_of_mem hfile)).1
  · intro h
    refine ⟨?_, hsum.symm ▸ h.total⟩
    intro sizes hsizes
    obtain ⟨file, hfile, rfl⟩ := List.mem_map.mp hsizes
    exact ⟨h.file _ (List.mem_map_of_mem hfile), len_le_isizeMax _⟩

theorem detectLayerFormat_layer : detectLayerFormat layerMediaType = .tarGzip := by decide

theorem extractLayerFiles_pulled {total : UInt64} :
    extractLayerFiles crates.read limits (pulled crates buf) total =
      extractTar crates.read limits (crates.digest buf) (.gzDecoder buf) total := by
  rw [extractLayerFiles, show detectLayerFormat (pulled crates buf).mediaType = _ from
    detectLayerFormat_layer]
  rfl

/-- What the one layer of an artifact gives, if it can be extracted. -/
theorem extractAll_pulled (hf : crates.Faithful) (hnormal : ∀ file ∈ entries, Normal file.1)
    (hbuf : crates.archive (entries.map appended) = .ok buf) {extracted : List (List ExtractedEntry)}
    (h : extractAll crates.read limits [pulled crates buf] 0 = .ok extracted) :
    extracted = [entries.flatMap extractedAs] := by
  rw [extractAll, extractLayerFiles_pulled] at h
  obtain ⟨acc, hacc, h⟩ := bind_eq_ok.mp h
  cases h
  rw [extractTar, hf.archive entries buf hnormal hbuf] at hacc
  have hout := extract_readAs hacc
  rw [List.nil_append] at hout
  rw [hout]

/-- Files whose names are no markers can be extracted exactly if they keep to the limits. -/
theorem extractAll_isOk (hf : crates.Faithful) (hnormal : ∀ file ∈ entries, Normal file.1)
    (hbuf : crates.archive (entries.map appended) = .ok buf)
    (hm : ∀ file ∈ entries, marked file.1 = false) :
    (∃ extracted, extractAll crates.read limits [pulled crates buf] 0 = .ok extracted) ↔
      Fits limits (entries.map Prod.snd) := by
  have hsizes : imageSizes crates.read [pulled crates buf] =
      some (entries.map fun file => ⟨file.2.len, file.2.len⟩) := by
    rw [imageSizes, layerSizes, show detectLayerFormat (pulled crates buf).mediaType = _ from
      detectLayerFormat_layer]
    change ((crates.read (.gzDecoder buf)).toOption.bind archiveSizes).bind _ = _
    rw [hf.archive entries buf hnormal hbuf]
    change (archiveSizes _).bind _ = _
    rw [archiveSizes_of_not_marked hnormal hm]
    exact congrArg some (List.append_nil _)
  rw [← declared_iff_fits]
  constructor
  · rintro ⟨extracted, hextracted⟩
    obtain ⟨zs, hzs, hdeclared, -⟩ := (extracted_iff _ _).mp ⟨extracted, hextracted, rfl⟩
    rw [hsizes] at hzs
    cases hzs
    exact hdeclared
  · intro hdeclared
    obtain ⟨extracted, hextracted, -⟩ := (extracted_iff _ _).mpr ⟨_, hsizes, hdeclared, rfl⟩
    exact ⟨extracted, hextracted⟩

/-! ## What is merged -/

/-- What is emitted for a file. -/
def synced (crates : Crates) (manifestDigest : String) (buf : Bytes) (file : String × Bytes) :
    PendingFileEvent :=
  pendingOf manifestDigest 0 (pulled crates buf) (some file.1) file.2

/-- Files that come in the order of their paths are kept as they come. -/
theorem insertInto_last {k : String} {v : PendingFileEvent} {es : List (String × PendingFileEvent)}
    (h : ∀ e ∈ es, e.1 < k) : SortedMap.insertInto k v es = es ++ [(k, v)] := by
  induction es with
  | nil => rfl
  | cons e es ih =>
      obtain ⟨hk, hes⟩ := List.forall_mem_cons.mp h
      rw [SortedMap.insertInto, if_neg (not_lt.mpr (le_of_lt hk)), if_neg (ne_of_gt hk), ih hes]
      rfl

theorem merge_files {into : Collected} (hev : into.fileEvents = [])
    (hsorted : (into.dockerState.keys ++ entries.map Prod.fst).Pairwise (· < ·)) :
    let out := (entries.map fun file => ExtractedEntry.file (some file.1) file.2).foldl
      (mergeEntry manifestDigest 0 (pulled crates buf)) into
    out.fileEvents = [] ∧
      out.dockerState.values =
        into.dockerState.values ++ entries.map (synced crates manifestDigest buf) := by
  induction entries generalizing into with
  | nil => exact ⟨hev, (List.append_nil _).symm⟩
  | cons file entries ih =>
      rw [List.map_cons, List.foldl_cons]
      have hlast : ∀ e ∈ into.dockerState.entries, e.1 < file.1 := by
        intro e he
        refine (List.pairwise_append.mp hsorted).2.2 e.1 ?_ file.1 List.mem_cons_self
        exact List.mem_map_of_mem he
      have hinsert := insertInto_last (v := synced crates manifestDigest buf file) hlast
      obtain ⟨hout, hvalues⟩ := @ih (mergeEntry manifestDigest 0 (pulled crates buf) into
          (.file (some file.1) file.2)) hev (by
        change ((SortedMap.insertInto file.1 (synced crates manifestDigest buf file) _).map _ ++
          _).Pairwise _
        rw [hinsert, List.map_append, List.append_assoc]
        exact hsorted)
      refine ⟨hout, hvalues.trans ?_⟩
      change (SortedMap.insertInto file.1 (synced crates manifestDigest buf file) _).map _ ++ _ = _
      rw [hinsert, List.map_append, List.append_assoc]
      rfl

/-! ## What is synced -/

theorem extractedAs_of_not_marked {file : String × Bytes} (h : Normal file.1)
    (hm : marked file.1 = false) : extractedAs file = [.file (some file.1) file.2] := by
  rw [extractedAs, h.classify_of_not_marked hm]

/-- What is extracted as a file has a name that is no marker. -/
theorem not_marked_of_extracted (hnormal : ∀ file ∈ entries, Normal file.1) {path : Option String}
    {content : Bytes} (h : .file path content ∈ entries.flatMap extractedAs) :
    ∃ file ∈ entries, path = some file.1 ∧ marked file.1 = false := by
  obtain ⟨file, hfile, hmem⟩ := List.mem_flatMap.mp h
  cases hm : marked file.1 with
  | false =>
      rw [extractedAs_of_not_marked (hnormal file hfile) hm, List.mem_singleton] at hmem
      cases hmem
      exact ⟨file, hfile, rfl, hm⟩
  | true =>
      rw [extractedAs] at hmem
      cases hkind : classify file.1 with
      | skipped =>
          rw [hkind] at hmem
          cases hmem
      | opaqueWhiteout parent =>
          rw [hkind] at hmem
          cases List.mem_singleton.mp hmem
      | whiteout path =>
          rw [hkind] at hmem
          cases List.mem_singleton.mp hmem
      | kept path =>
          exact absurd hkind ((hnormal file hfile).classify_of_marked hm path)

theorem write_mem_of_run {ts : List (Overwrite.Touch PendingFileEvent)} {v : PendingFileEvent}
    (h : Overwrite.run ts none = some v) : .write v ∈ ts := by
  induction ts using List.reverseRecOn with
  | nil => cases h
  | append_singleton ts t ih =>
      rw [Overwrite.run_concat] at h
      cases t with
      | keep => exact List.mem_append_left _ (ih h)
      | clear => cases h
      | write value =>
          cases h
          exact List.mem_append_right _ (List.mem_singleton_self _)

/-- A file that is emitted has a name that is no marker. -/
theorem not_marked_of_emitted (hnormal : ∀ file ∈ entries, Normal file.1) {v : PendingFileEvent}
    (h : v ∈ ((entries.flatMap extractedAs).foldl
      (mergeEntry manifestDigest 0 (pulled crates buf)) {}).dockerState.values) :
    marked v.path = false := by
  obtain ⟨k, hk⟩ := SortedMap.mem_values.mp h
  rw [find_mergeEntries (show (pulled crates buf).title = none from rfl)] at hk
  obtain ⟨entry, hentry, htouch⟩ := List.mem_map.mp (write_mem_of_run hk)
  obtain ⟨⟨path, content, rfl⟩, -⟩ := file_of_write htouch
  obtain ⟨file, -, rfl, hm⟩ := not_marked_of_extracted hnormal hentry
  rw [touch] at htouch
  split at htouch
  · cases htouch
    exact hm
  · cases htouch

/-- What is emitted is what has been merged, if the archive can be extracted. -/
theorem pendingFiles_pulled (hf : crates.Faithful) (hnormal : ∀ file ∈ entries, Normal file.1)
    (hbuf : crates.archive (entries.map appended) = .ok buf) {extracted : List (List ExtractedEntry)}
    (h : extractAll crates.read limits [pulled crates buf] 0 = .ok extracted) :
    pendingFiles crates.read limits manifestDigest [pulled crates buf] =
      .ok ((entries.flatMap extractedAs).foldl
        (mergeEntry manifestDigest 0 (pulled crates buf)) {}).dockerState.values := by
  have hempty : ({} : Collected).Merged := ⟨rfl, fun p file h => by cases h⟩
  have hmerged : ((entries.flatMap extractedAs).foldl
      (mergeEntry manifestDigest 0 (pulled crates buf)) {}).Merged :=
    List.foldlRecOn _ _ hempty fun _ hacc entry _ => hacc.entry rfl entry
  rw [pendingFiles, mergeLayers_eq h, extractAll_pulled hf hnormal hbuf h]
  have hone : mergeAll manifestDigest 0 [pulled crates buf] [entries.flatMap extractedAs] {} =
      (entries.flatMap extractedAs).foldl (mergeEntry manifestDigest 0 (pulled crates buf)) {} := rfl
  rw [hone]
  show Except.ok (_ ++ _) = _
  rw [hmerged.fileEvents, List.nil_append]

/-- Files whose names are no markers, and that keep to the limits, are emitted as they are. -/
theorem pendingFiles_of_fits (hf : crates.Faithful) (hnormal : ∀ file ∈ entries, Normal file.1)
    (hsorted : entries.Pairwise fun a b => a.1 < b.1)
    (hbuf : crates.archive (entries.map appended) = .ok buf)
    (hm : ∀ file ∈ entries, marked file.1 = false) (hfits : Fits limits (entries.map Prod.snd)) :
    pendingFiles crates.read limits manifestDigest [pulled crates buf] =
      .ok (entries.map (synced crates manifestDigest buf)) := by
  obtain ⟨extracted, hextracted⟩ := (extractAll_isOk hf hnormal hbuf hm).mpr hfits
  have hfiles : entries.flatMap extractedAs =
      entries.map fun file => ExtractedEntry.file (some file.1) file.2 := by
    rw [List.map_eq_flatMap]
    refine List.flatMap_congr fun file hfile => ?_
    exact extractedAs_of_not_marked (hnormal file hfile) (hm file hfile)
  have hmerge := @merge_files crates entries buf manifestDigest {} rfl
    (List.pairwise_map.mpr hsorted)
  rw [pendingFiles_pulled hf hnormal hbuf hextracted, hfiles, hmerge.2]
  rfl

/-- What is emitted are files whose names are no markers. -/
theorem extracted_of_pendingFiles (hf : crates.Faithful)
    (hnormal : ∀ file ∈ entries, Normal file.1)
    (hbuf : crates.archive (entries.map appended) = .ok buf) {out : List PendingFileEvent}
    (h : pendingFiles crates.read limits manifestDigest [pulled crates buf] = .ok out) :
    (∃ extracted, extractAll crates.read limits [pulled crates buf] 0 = .ok extracted) ∧
      ∀ e ∈ out, marked e.path = false := by
  have hexists : ∃ extracted,
      extractAll crates.read limits [pulled crates buf] 0 = .ok extracted := by
    obtain ⟨acc, hacc, -⟩ := map_eq_ok h
    obtain ⟨⟨total, entries⟩, hentries, -⟩ := bind_eq_ok.mp hacc
    exact ⟨[entries], bind_eq_ok.mpr ⟨(total, entries), hentries, rfl⟩⟩
  refine ⟨hexists, ?_⟩
  obtain ⟨extracted, hextracted⟩ := hexists
  rw [pendingFiles_pulled hf hnormal hbuf hextracted] at h
  cases h
  exact fun e he => not_marked_of_emitted hnormal he

/-! ## From the files of an event to the events of files -/

/-- `InputFile` of the task `oci_push`. -/
structure InputFile where
  path : String
  content : String
  fits : (Utf8.asBytes content).length < 2 ^ 63

/-- `ArtifactFile { path, content: content.into_bytes() }`. -/
def InputFile.artifact (file : InputFile) : ArtifactFile where
  path := file.path
  content := ⟨Utf8.asBytes file.content, file.fits⟩

/-- The event that `oci_sync` should emit for a file. -/
def InputFile.event (file : InputFile) (digest artifactDigest : String) : LayerEvent :=
  .json (storedPath file.path) file.content digest artifactDigest

variable {push : Push} {tags : List String} {plan : Plan}

theorem mapError_eq_ok {ε α : Type} {x : Except ε α} {f : ε → Error} {a : α} :
    x.mapError f = .ok a ↔ x = .ok a := by
  cases x with
  | error e =>
      constructor
      · intro h
        cases h
      · intro h
        cases h
  | ok a' => exact Iff.of_eq (by rw [Except.mapError, Except.ok.injEq, Except.ok.injEq])

/-- What a push that has come to sending is about to send. -/
theorem Push.plan_eq_ok (h : push.plan crates files tags = .ok plan) :
    ∃ prepared first rest, tags.mapM (push.reference crates) = .ok (first :: rest) ∧
      prepare files = .ok prepared ∧ push.auth first = .ok () ∧
      crates.archive (prepared.entries.map appended) = .ok plan.layer ∧
      crates.toVec (manifest (descriptor crates emptyMediaType emptyContent)
        (descriptor crates layerMediaType plan.layer) push.annotations) = .ok plan.body ∧
      plan.requests =
        .blob first.repository plan.layer (crates.digest plan.layer) ::
          .blob first.repository emptyContent (crates.digest emptyContent) ::
          (first :: rest).map (.manifest · plan.body) ∧
      plan.pushed = ⟨crates.digest plan.body, first :: rest⟩ := by
  obtain ⟨references, hreferences, h⟩ := bind_eq_ok.mp h
  cases references with
  | nil => cases h
  | cons first rest =>
      obtain ⟨prepared, hprepared, h⟩ := bind_eq_ok.mp h
      obtain ⟨auth, hauth, h⟩ := bind_eq_ok.mp h
      obtain ⟨buf, hbuf, h⟩ := bind_eq_ok.mp h
      obtain ⟨body, hbody, h⟩ := bind_eq_ok.mp h
      cases h
      exact ⟨prepared, first, rest, hreferences, hprepared, mapError_eq_ok.mp hauth,
        mapError_eq_ok.mp hbuf, mapError_eq_ok.mp hbody, rfl, rfl⟩

theorem event_of_text {e : PendingFileEvent} {text : String}
    (h : e.content.bytes = Utf8.asBytes text) :
    e.event = .json e.path text e.digest e.artifactDigest := by
  rw [PendingFileEvent.event, h, Utf8.fromUtf8_of_text]

theorem path_of_event {e : PendingFileEvent} {path content digest artifactDigest : String}
    (h : e.event = .json path content digest artifactDigest) : e.path = path := by
  rw [PendingFileEvent.event] at h
  split at h
  · exact (LayerEvent.json.inj h).1
  · exact LayerEvent.noConfusion h

theorem fits_perm {contents contents' : List Bytes} (h : contents.Perm contents') :
    Fits limits contents ↔ Fits limits contents' := by
  have hsum := (h.map (·.bytes.length)).sum_eq
  constructor
  · intro hfits
    exact ⟨fun c hc => hfits.file c (h.mem_iff.mpr hc), hsum ▸ hfits.total⟩
  · intro hfits
    exact ⟨fun c hc => hfits.file c (h.mem_iff.mp hc), hsum.symm ▸ hfits.total⟩

/-- What is prepared has the names and the sizes of what was given. -/
theorem prepared_iff (limits : Limits) {inputs : List InputFile}
    (h : prepare (inputs.map InputFile.artifact) = .ok prepared) :
    ((∀ file ∈ prepared.entries, marked file.1 = false) ↔
        ∀ file ∈ inputs, marked (storedPath file.path) = false) ∧
      (Fits limits (prepared.entries.map Prod.snd) ↔
        Fits limits (inputs.map fun file => file.artifact.content)) := by
  have hperm := prepare_perm h
  rw [List.map_map] at hperm
  constructor
  · constructor
    · intro h file hfile
      exact h (storedPath file.path, file.artifact.content)
        (hperm.mem_iff.mpr (List.mem_map_of_mem hfile))
    · intro h entry hentry
      obtain ⟨file, hfile, rfl⟩ := List.mem_map.mp (hperm.mem_iff.mp hentry)
      exact h file hfile
  · have hcontents := hperm.map Prod.snd
    rw [List.map_map] at hcontents
    exact fits_perm hcontents

/-- Files with harmless names that keep to the limits come back as they were. -/
theorem layerEvents_of_plan (hf : crates.Faithful) {inputs : List InputFile}
    (hplan : push.plan crates (inputs.map InputFile.artifact) tags = .ok plan)
    (hm : ∀ file ∈ inputs, marked (storedPath file.path) = false)
    (hfits : Fits limits (inputs.map fun file => file.artifact.content)) :
    ∃ events, layerEvents crates.read limits manifestDigest [pulled crates plan.layer] =
        .ok events ∧
      events.Perm (inputs.map fun file =>
        file.event (crates.digest plan.layer) manifestDigest) := by
  obtain ⟨prepared, first, rest, -, hprepared, -, hbuf, -, -, -⟩ := Push.plan_eq_ok hplan
  obtain ⟨hnames, hsizes⟩ := prepared_iff limits hprepared
  have hout := @pendingFiles_of_fits crates limits prepared.entries plan.layer
    manifestDigest hf (fun file hfile => normal_of_mem_prepare hprepared hfile) prepared.sorted hbuf
    (hnames.mpr hm) (hsizes.mpr hfits)
  refine ⟨_, by rw [layerEvents, hout]; rfl, ?_⟩
  show ((prepared.entries.map _).map _).Perm _
  have hperm := prepare_perm hprepared
  rw [List.map_map] at hperm ⊢
  refine (hperm.map _).trans (List.Perm.of_eq ?_)
  rw [List.map_map]
  refine List.map_congr_left fun file _ => ?_
  exact event_of_text rfl

/-- **What is synced is what was pushed, if the names are no markers.**  An artifact that
`oci_push` makes of the files of its event gives `oci_sync` one event for each of them, with its
path and its text, exactly if no file name begins with `.wh.` and the files keep to the limits. -/
theorem layerEvents_of_push_iff (hf : crates.Faithful) (inputs : List InputFile)
    (hplan : push.plan crates (inputs.map InputFile.artifact) tags = .ok plan) (limits : Limits) :
    (∃ events, layerEvents crates.read limits plan.pushed.digest [pulled crates plan.layer] =
          .ok events ∧
        events.Perm (inputs.map fun file =>
          file.event (crates.digest plan.layer) plan.pushed.digest)) ↔
      (∀ file ∈ inputs, marked (storedPath file.path) = false) ∧
        Fits limits (inputs.map fun file => file.artifact.content) := by
  constructor
  · rintro ⟨events, hevents, hsame⟩
    obtain ⟨prepared, first, rest, -, hprepared, -, hbuf, -, -, -⟩ := Push.plan_eq_ok hplan
    have hnormal : ∀ file ∈ prepared.entries, Normal file.1 :=
      fun file hfile => normal_of_mem_prepare hprepared hfile
    obtain ⟨hnames, hsizes⟩ := prepared_iff limits hprepared
    obtain ⟨out, hout, rfl⟩ := map_eq_ok hevents
    obtain ⟨hextracted, hemitted⟩ := extracted_of_pendingFiles hf hnormal hbuf hout
    rw [← hnames, ← hsizes]
    have hm : ∀ file ∈ prepared.entries, marked file.1 = false := by
      rw [hnames]
      intro file hfile
      obtain ⟨e, he, hevent⟩ :=
        List.mem_map.mp (hsame.mem_iff.mpr (List.mem_map_of_mem hfile))
      rw [← path_of_event hevent]
      exact hemitted e he
    exact ⟨hm, (extractAll_isOk hf hnormal hbuf hm).mp hextracted⟩
  · rintro ⟨hm, hfits⟩
    exact layerEvents_of_plan hf hplan hm hfits

/-- The digest of a blob, by its first two bytes. -/
def tinyDigest (content : Bytes) : String :=
  "sha256:" ++ String.join ((content.bytes.take 2).map fun b => toString b.toNat)

def tinyLayer : Bytes := ⟨[0x1f, 0x8b], by decide⟩
def tinyBody : Bytes := ⟨[0x7b, 0x22, 0x7d], by decide⟩

def tinyFiles : List (String × Bytes) :=
  [("a.txt", ⟨[0x61], by decide⟩), ("nested/b.txt", ⟨[0x62], by decide⟩)]

def tinyManifest : Manifest :=
  manifest ⟨emptyMediaType, tinyDigest emptyContent, 2⟩ ⟨layerMediaType, tinyDigest tinyLayer, 2⟩ []

/-- Crates that know one archive and one manifest. -/
def tinyCrates : Crates where
  parse reference :=
    if reference = "registry.example.com/team/configs:1.2.0" then
      some ⟨"registry.example.com/team/configs", "1.2.0"⟩
    else none
  digest := tinyDigest
  archive entries := if entries = tinyFiles.map appended then .ok tinyLayer else .error "disk full"
  read
    | .gzDecoder buf =>
        if buf = tinyLayer then .ok (tinyFiles.map fun file => .ok (readAs file))
        else .error "not gzip"
    | .slice _ => .error "not an archive"
  toVec m := if m = tinyManifest then .ok tinyBody else .error "too long"
  fromSlice body := if body = tinyBody then some tinyManifest else none

theorem appended_injective : Function.Injective appended := by
  intro file file' h
  exact Prod.ext (congrArg Appended.path h) (congrArg Appended.data h)

theorem tinyCrates_faithful : tinyCrates.Faithful where
  archive := by
    intro files buf _ h
    have hknown : (if files.map appended = tinyFiles.map appended then .ok tinyLayer
      else .error "disk full" : Except String Bytes) = .ok buf := h
    split at hknown
    · rename_i hfiles
      cases hknown
      rw [appended_injective.list_map hfiles]
      rfl
    · cases hknown
  manifest := by
    intro m body h
    have hknown : (if m = tinyManifest then .ok tinyBody else .error "too long" :
      Except String Bytes) = .ok body := h
    split at hknown
    · rename_i hm
      cases hknown
      rw [hm]
      rfl
    · cases hknown

def tinyPush : Push where
  repository := "registry.example.com/team/configs/"
  annotations := []
  auth _ := .ok ()

def tinyInputs : List InputFile :=
  [⟨"./nested//b.txt", "b", by decide⟩, ⟨"a.txt", "a", by decide⟩]

def tinyPlan : Plan where
  body := tinyBody
  layer := tinyLayer
  requests :=
    [.blob "registry.example.com/team/configs" tinyLayer (tinyDigest tinyLayer),
      .blob "registry.example.com/team/configs" emptyContent (tinyDigest emptyContent),
      .manifest ⟨"registry.example.com/team/configs", "1.2.0"⟩ tinyBody]
  pushed := ⟨tinyDigest tinyBody, [⟨"registry.example.com/team/configs", "1.2.0"⟩]⟩

theorem tinyPlan_eq :
    tinyPush.plan tinyCrates (tinyInputs.map InputFile.artifact) ["1.2.0"] = .ok tinyPlan := by
  decide

theorem layerEvents_of_push_nested : ∃ events,
    layerEvents tinyCrates.read ⟨1, 2, "configs:1.2.0"⟩ tinyPlan.pushed.digest
        [pulled tinyCrates tinyPlan.layer] = .ok events ∧
      events.Perm
        [.json "nested/b.txt" "b" "sha256:31139" "sha256:12334",
          .json "a.txt" "a" "sha256:31139" "sha256:12334"] :=
  (layerEvents_of_push_iff tinyCrates_faithful tinyInputs tinyPlan_eq _).mpr
    ⟨by decide, by decide, by decide⟩

/-- **The order of the files does not matter.**  A push of the same files in another order sends
the same bytes to the same places, and returns the same digest. -/
theorem Push.plan_of_perm (hperm : files.Perm files')
    (h : push.plan crates files tags = .ok plan) : push.plan crates files' tags = .ok plan := by
  obtain ⟨references, hreferences, h⟩ := bind_eq_ok.mp h
  refine bind_eq_ok.mpr ⟨references, hreferences, ?_⟩
  cases references with
  | nil => cases h
  | cons first rest =>
      obtain ⟨prepared, hprepared, h⟩ := bind_eq_ok.mp h
      exact bind_eq_ok.mpr ⟨prepared, prepare_of_perm hperm hprepared, h⟩

theorem Push.plan_of_swapped :
    tinyPush.plan tinyCrates (tinyInputs.reverse.map InputFile.artifact) ["1.2.0"] =
      .ok tinyPlan :=
  Push.plan_of_perm (by decide) tinyPlan_eq

end Flowgen.Oci.Client
