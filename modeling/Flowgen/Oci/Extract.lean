/-
# `Flowgen.Oci.Extract` — the files of a layer, and how large they may get

Translated from `oci/src/sync.rs`: `detect_layer_format`, `extract_layer_files`
and `extract_tar`, and the running total that `handle` passes from layer to
layer.

The `tar` and `flate2` crates are a parameter: what their reader hands on, entry
by entry.  What is assumed of them is a field of `TarEntry`: the content of an
entry has the effective size, which is that of the PAX record where there is
one, and of the header where there is none.

The limits are checked on the size of the header alone, before the content is
read to its end.  So they hold for what is extracted

    ↔ whenever the sizes of the headers keep to the limits,
      the effective sizes do
-/
import Flowgen.Lib.Fallible
import Flowgen.Lib.Saturating
import Flowgen.Text

namespace Flowgen.Oci

open Flowgen.Lib Flowgen.Text

/-! ## Bytes and sizes -/

/-- `Vec<u8>`, at most `isize::MAX` bytes long. -/
structure Bytes where
  bytes : List UInt8
  fits : bytes.length < 2 ^ 63
deriving DecidableEq

/-- `buf.len() as u64`. -/
def Bytes.len (b : Bytes) : UInt64 := .ofNat b.bytes.length

/-- `isize::MAX`, the largest capacity of a vector of bytes. -/
def isizeMax : UInt64 := .ofNat (2 ^ 63 - 1)

/-- `u64::MAX`. -/
def u64Max : UInt64 := .ofNat (2 ^ 64 - 1)

/-- `u64::saturating_add`. -/
def saturatingAdd (a b : UInt64) : UInt64 :=
  if a.toNat + b.toNat < 2 ^ 64 then a + b else u64Max

theorem toNat_len (b : Bytes) : b.len.toNat = b.bytes.length := by
  have hfits := b.fits
  rw [Bytes.len, UInt64.toNat_ofNat']
  omega

theorem toNat_saturatingAdd (a b : UInt64) :
    (saturatingAdd a b).toNat = Saturating.add (2 ^ 64 - 1) a.toNat b.toNat := by
  rw [saturatingAdd, Saturating.add]
  split
  · rename_i h
    rw [UInt64.toNat_add]
    omega
  · rename_i h
    rw [u64Max, UInt64.toNat_ofNat']
    omega

/-! ## Paths -/

/-- `/`-separated pieces. -/
def segments (cs : List Char) : List (List Char) := cs.splitOn '/'

/-- The pieces that `Path` sees at the end of a relative path: empty ones and `.` do not
count, unless the `.` is the first piece. -/
def trimRight : List (List Char) → List (List Char)
  | [] => []
  | first :: rest => first :: rest.rdropWhile fun s => s.isEmpty || s == ['.']

/-- `Path::file_name`, of a path that does not begin with a slash. -/
def fileName (path : String) : Option String :=
  ((trimRight (segments path.toList)).getLast?).bind fun s =>
    if s = ['.'] ∨ s = ['.', '.'] then none else some (.ofList s)

/-- `Path::parent`, of such a path; the empty path where there is none. -/
def parent (path : String) : String :=
  .ofList (['/'].intercalate (trimRight (trimRight (segments path.toList)).dropLast))

/-! ## Entries -/

/-- An entry of an archive, as the `tar` crate hands it on. -/
structure TarEntry where
  /-- `entry.header().entry_type().is_file()`. -/
  isFile : Bool
  /-- `entry.path()`, as text. -/
  path : Except String String
  /-- `entry.header().size()`. -/
  headerSize : Except String UInt64
  /-- The size of the PAX record before the entry, if there is one. -/
  paxSize : Option UInt64
  /-- What reading the entry to its end gives. -/
  content : Except String Bytes
  len_content : ∀ size bytes, headerSize = .ok size → content = .ok bytes →
    bytes.len = paxSize.getD size

/-- What an archive is read from. -/
inductive Reader
  | slice (buf : Bytes)
  | gzDecoder (buf : Bytes)

/-- `tar::Archive::new(reader).entries()`. -/
abbrev TarCrate := Reader → Except String (List (Except String TarEntry))

/-- `ExtractedEntry`. -/
inductive ExtractedEntry
  | file (path : Option String) (content : Bytes)
  | whiteout (path : String)
  | opaqueWhiteout (parent : String)
deriving DecidableEq

/-- The errors of `Error` that extraction gives. -/
inductive Error
  | tarRead (digest : String) (source : String)
  | fileTooLarge (digest path : String) (size limit : UInt64)
  | artifactTooLarge (reference : String) (limit : UInt64)
deriving DecidableEq

/-- How extraction fails: with an error, or on a capacity that no vector has. -/
inductive Failure
  | error (e : Error)
  | capacityOverflow
deriving DecidableEq

/-- `max_file_size` and `max_total_size`, and the artifact that errors name. -/
structure Limits where
  maxFileSize : UInt64
  maxTotalSize : UInt64
  reference : String

/-- `LayerFormat`. -/
inductive LayerFormat
  | raw
  | tar
  | tarGzip
deriving DecidableEq

/-- `detect_layer_format`. -/
def detectLayerFormat (mediaType : String) : LayerFormat :=
  let mt := mediaType.toList.map Char.toLower
  let endsWith (suffix : String) : Bool := suffix.toList.isSuffixOf mt
  if endsWith "+gzip" || endsWith ".tar.gzip" || endsWith ".tar+gzip" then .tarGzip
  else if endsWith ".tar" || endsWith "+tar" then .tar
  else .raw

example : detectLayerFormat "application/vnd.docker.image.rootfs.diff.tar.gzip" = .tarGzip := by
  decide

/-- A layer of the manifest, and its blob. -/
structure Layer where
  mediaType : String
  digest : String
  /-- The annotation `org.opencontainers.image.title`. -/
  title : Option String
  buf : Bytes

/-- What the name of a regular file makes of it. -/
inductive Kind
  | skipped
  | whiteout (path : String)
  | opaqueWhiteout (parent : String)
  | kept (path : String)

/-- Whiteout markers, by the last piece of the path. -/
def classify (rawPath : String) : Kind :=
  let path := String.ofList (rawPath.toList.dropWhile (· == '/'))
  if path.isEmpty then .skipped
  else
    match fileName path with
    | none => .kept path
    | some name =>
        if name = ".wh..wh..opq" then .opaqueWhiteout (parent path)
        else
          match stripPrefix ".wh.".toList name.toList with
          | some target =>
              let parent := parent path
              .whiteout (if parent.isEmpty then .ofList target else parent ++ "/" ++ .ofList target)
          | none => .kept path

/-- The two checks before a file is taken, and the new total. -/
def checkSize (limits : Limits) (digest path : String) (size total : UInt64) :
    Except Failure UInt64 :=
  if limits.maxFileSize < size then
    .error (.error (.fileTooLarge digest path size limits.maxFileSize))
  else if limits.maxTotalSize < saturatingAdd total size then
    .error (.error (.artifactTooLarge limits.reference limits.maxTotalSize))
  else .ok (saturatingAdd total size)

/-- One entry of the loop in `extract_tar`, on the total and what is extracted so far. -/
def extractEntry (limits : Limits) (digest : String) (acc : UInt64 × List ExtractedEntry)
    (entry : Except String TarEntry) : Except Failure (UInt64 × List ExtractedEntry) :=
  match entry with
  | .error source => .error (.error (.tarRead digest source))
  | .ok entry =>
      if entry.isFile then
        match entry.path with
        | .error source => .error (.error (.tarRead digest source))
        | .ok rawPath =>
            match classify rawPath with
            | .skipped => .ok acc
            | .opaqueWhiteout parent => .ok (acc.1, acc.2 ++ [.opaqueWhiteout parent])
            | .whiteout path => .ok (acc.1, acc.2 ++ [.whiteout path])
            | .kept path =>
                match entry.headerSize with
                | .error source => .error (.error (.tarRead digest source))
                | .ok size =>
                    (checkSize limits digest path size acc.1).bind fun total =>
                      -- Vec::with_capacity
                      if isizeMax < size then .error .capacityOverflow
                      else
                        match entry.content with
                        | .error source => .error (.error (.tarRead digest source))
                        | .ok content => .ok (total, acc.2 ++ [.file (some path) content])
      else .ok acc

/-- `extract_tar`. -/
def extractTar (crate : TarCrate) (limits : Limits) (digest : String) (reader : Reader)
    (total : UInt64) : Except Failure (UInt64 × List ExtractedEntry) :=
  match crate reader with
  | .error source => .error (.error (.tarRead digest source))
  | .ok entries => entries.foldlM (extractEntry limits digest) (total, [])

/-- `extract_layer_files`. -/
def extractLayerFiles (crate : TarCrate) (limits : Limits) (layer : Layer) (total : UInt64) :
    Except Failure (UInt64 × List ExtractedEntry) :=
  match detectLayerFormat layer.mediaType with
  | .raw =>
      (checkSize limits layer.digest "" layer.buf.len total).bind fun total =>
        .ok (total, [.file none layer.buf])
  | .tar => extractTar crate limits layer.digest (.slice layer.buf) total
  | .tarGzip => extractTar crate limits layer.digest (.gzDecoder layer.buf) total

/-- All layers of a manifest, with one running total. -/
def extractAll (crate : TarCrate) (limits : Limits) :
    List Layer → UInt64 → Except Failure (List (List ExtractedEntry))
  | [], _ => .ok []
  | layer :: layers, total =>
      (extractLayerFiles crate limits layer total).bind fun (total, entries) =>
        (extractAll crate limits layers total).bind fun rest => .ok (entries :: rest)

/-! ## The sizes of what is extracted -/

/-- The size a file declares in its header, and the one it has. -/
structure Sizes where
  declared : UInt64
  effective : UInt64
deriving DecidableEq

/-- The sizes of an entry that can be read, if it is a file that is kept. -/
def entrySizes (entry : Except String TarEntry) : Option (List Sizes) :=
  match entry with
  | .error _ => none
  | .ok entry =>
      if entry.isFile then
        match entry.path with
        | .error _ => none
        | .ok rawPath =>
            match classify rawPath with
            | .skipped => some []
            | .opaqueWhiteout _ => some []
            | .whiteout _ => some []
            | .kept _ =>
                match entry.headerSize with
                | .error _ => none
                | .ok size =>
                    match entry.content with
                    | .error _ => none
                    | .ok _ => some [⟨size, entry.paxSize.getD size⟩]
      else some []

/-- The sizes of the files of an archive that can be read to its end. -/
def archiveSizes : List (Except String TarEntry) → Option (List Sizes)
  | [] => some []
  | entry :: entries =>
      (entrySizes entry).bind fun zs => (archiveSizes entries).map fun rest => zs ++ rest

/-- The sizes of the files of a layer. -/
def layerSizes (crate : TarCrate) (layer : Layer) : Option (List Sizes) :=
  match detectLayerFormat layer.mediaType with
  | .raw => some [⟨layer.buf.len, layer.buf.len⟩]
  | .tar => (crate (.slice layer.buf)).toOption.bind archiveSizes
  | .tarGzip => (crate (.gzDecoder layer.buf)).toOption.bind archiveSizes

/-- The sizes of the files of all layers. -/
def imageSizes (crate : TarCrate) : List Layer → Option (List Sizes)
  | [] => some []
  | layer :: layers =>
      (layerSizes crate layer).bind fun zs => (imageSizes crate layers).map fun rest => zs ++ rest

/-- The header sizes keep to the limits, one by one and together. -/
structure Declared (limits : Limits) (zs : List Sizes) : Prop where
  file : ∀ z ∈ zs, z.declared ≤ limits.maxFileSize ∧ z.declared ≤ isizeMax
  total : min (zs.map (·.declared.toNat)).sum (2 ^ 64 - 1) ≤ limits.maxTotalSize.toNat

/-- The effective sizes keep to the limits, one by one and together. -/
structure Effective (limits : Limits) (zs : List Sizes) : Prop where
  file : ∀ z ∈ zs, z.effective ≤ limits.maxFileSize
  total : (zs.map (·.effective.toNat)).sum ≤ limits.maxTotalSize.toNat

/-- The lengths of the contents among what is extracted. -/
def lengths (entries : List ExtractedEntry) : List Nat :=
  entries.filterMap fun
    | .file _ content => some content.bytes.length
    | .whiteout _ => none
    | .opaqueWhiteout _ => none

/-- Whatever is extracted keeps to the limits. -/
def Capped (crate : TarCrate) (limits : Limits) (layers : List Layer) : Prop :=
  ∀ extracted, extractAll crate limits layers 0 = .ok extracted →
    (∀ n ∈ lengths extracted.flatten, n ≤ limits.maxFileSize.toNat) ∧
      (lengths extracted.flatten).sum ≤ limits.maxTotalSize.toNat

/-! ## What extraction admits

Only the sizes decide whether extraction succeeds, so it is compared with a loop over
the sizes alone. -/

variable {crate : TarCrate} {limits : Limits} {digest : String} {total : UInt64}
  {out : List ExtractedEntry} {zs zs' : List Sizes} {layers : List Layer}

/-- The checks on the files of a layer, one after the other. -/
def admits (limits : Limits) : List Sizes → UInt64 → Option UInt64
  | [], total => some total
  | z :: zs, total =>
      if z.declared ≤ limits.maxFileSize ∧ z.declared ≤ isizeMax ∧
          saturatingAdd total z.declared ≤ limits.maxTotalSize then
        admits limits zs (saturatingAdd total z.declared)
      else none

/-- The new total and the lengths of what is extracted, if extraction succeeds. -/
def measure (result : Except Failure (UInt64 × List ExtractedEntry)) : Option (UInt64 × List Nat) :=
  result.toOption.map fun r => (r.1, lengths r.2)

/-- What the sizes let one expect, from a total and the lengths so far. -/
def expected (limits : Limits) (acc : UInt64 × List Nat) (sizes : Option (List Sizes)) :
    Option (UInt64 × List Nat) :=
  sizes.bind fun zs => (admits limits zs acc.1).map fun total =>
    (total, acc.2 ++ zs.map (·.effective.toNat))

theorem lengths_append (es es' : List ExtractedEntry) :
    lengths (es ++ es') = lengths es ++ lengths es' := List.filterMap_append

theorem admits_append :
    admits limits (zs ++ zs') total = (admits limits zs total).bind (admits limits zs') := by
  induction zs generalizing total with
  | nil => rfl
  | cons z zs ih =>
      rw [List.cons_append, admits, admits]
      split
      · exact ih
      · rfl

theorem checkSize_eq (path : String) (size : UInt64) :
    (checkSize limits digest path size total).toOption =
      if size ≤ limits.maxFileSize ∧ saturatingAdd total size ≤ limits.maxTotalSize then
        some (saturatingAdd total size)
      else none := by
  rw [checkSize]
  split
  · rename_i hfile
    exact (if_neg fun h => absurd h.1 (UInt64.not_le.mpr hfile)).symm
  · rename_i hfile
    split
    · rename_i htotal
      exact (if_neg fun h => absurd h.2 (UInt64.not_le.mpr htotal)).symm
    · rename_i htotal
      exact (if_pos ⟨UInt64.not_lt.mp hfile, UInt64.not_lt.mp htotal⟩).symm

theorem expected_nil (acc : UInt64 × List Nat) : expected limits acc (some []) = some acc :=
  congrArg (fun l => some (acc.1, l)) (List.append_nil _)

theorem expected_append (acc : UInt64 × List Nat) (sizes rest : Option (List Sizes)) :
    expected limits acc (sizes.bind fun zs => rest.map fun zs' => zs ++ zs') =
      (expected limits acc sizes).bind fun acc => expected limits acc rest := by
  cases sizes with
  | none => rfl
  | some zs =>
      cases rest with
      | none =>
          change none = Option.bind _ fun _ => none
          rw [Option.bind_fun_none]
      | some zs' =>
          change (admits limits (zs ++ zs') acc.1).map _ = ((admits limits zs acc.1).map _).bind _
          rw [admits_append]
          cases admits limits zs acc.1 with
          | none => rfl
          | some total =>
              change (admits limits zs' total).map _ = (admits limits zs' total).map _
              rw [List.map_append]
              simp only [List.append_assoc]

theorem expected_prefix (ls : List Nat) (sizes : Option (List Sizes)) :
    (expected limits (total, ls) sizes).map (·.2) =
      ((expected limits (total, []) sizes).map (·.2)).map fun rest => ls ++ rest := by
  cases sizes with
  | none => rfl
  | some zs =>
      change ((admits limits zs total).map _).map _ = (((admits limits zs total).map _).map _).map _
      cases admits limits zs total with
      | none => rfl
      | some total => rfl

theorem measure_bind {α β : Type} (m : Except Failure α → Option β)
    (f : UInt64 × List ExtractedEntry → Except Failure α) (g : UInt64 × List Nat → Option β)
    (hfail : ∀ failure, m (.error failure) = none)
    (h : ∀ acc, m (f acc) = g (acc.1, lengths acc.2))
    (result : Except Failure (UInt64 × List ExtractedEntry)) :
    m (result.bind f) = (measure result).bind g := by
  cases result with
  | error failure => exact hfail failure
  | ok acc => exact h acc

/-- A file that is kept is measured as its header and its content say. -/
theorem measure_kept (path : String) (name : Option String) {size : UInt64} {pax : Option UInt64} {content : Bytes}
    (hlen : content.len = pax.getD size) :
    measure ((checkSize limits digest path size total).bind fun total =>
        if isizeMax < size then .error .capacityOverflow
        else .ok (total, out ++ [.file name content])) =
      expected limits (total, lengths out) (some [⟨size, pax.getD size⟩]) := by
  have hcheck := @checkSize_eq limits digest total path size
  have hlength : lengths (out ++ [.file name content]) =
      lengths out ++ [(pax.getD size).toNat] := by
    rw [lengths_append, ← hlen, toNat_len]
    rfl
  rw [expected, Option.bind_some, admits]
  cases ha : checkSize limits digest path size total with
  | error e =>
      rw [ha] at hcheck
      have hno : ¬ (size ≤ limits.maxFileSize ∧ size ≤ isizeMax ∧
          saturatingAdd total size ≤ limits.maxTotalSize) := by
        rintro ⟨hfile, -, htotal⟩
        rw [if_pos ⟨hfile, htotal⟩] at hcheck
        cases hcheck
      rw [if_neg hno]
      rfl
  | ok total' =>
      rw [ha] at hcheck
      obtain ⟨⟨hfile, htotal⟩, hnew⟩ := Option.ite_none_right_eq_some.mp hcheck.symm
      cases hnew
      change measure (if isizeMax < size then _ else _) = _
      split
      · rename_i hcapacity
        rw [if_neg fun h => absurd h.2.1 (UInt64.not_le.mpr hcapacity)]
        rfl
      · rename_i hcapacity
        rw [if_pos ⟨hfile, UInt64.not_lt.mp hcapacity, htotal⟩]
        change some (_, lengths _) = some (_, lengths out ++ [_])
        rw [hlength]

theorem measure_entry (entry : Except String TarEntry) :
    measure (extractEntry limits digest (total, out) entry) =
      expected limits (total, lengths out) (entrySizes entry) := by
  cases entry with
  | error source => rfl
  | ok entry =>
      rw [extractEntry, entrySizes]
      split
      · split
        · rfl
        · rename_i rawPath _
          cases classify rawPath with
          | skipped => exact (expected_nil _).symm
          | opaqueWhiteout parent =>
              rw [expected_nil]
              change some (total, lengths (out ++ [.opaqueWhiteout parent])) = _
              rw [lengths_append]
              exact congrArg (fun l => some (total, l)) (List.append_nil _)
          | whiteout path =>
              rw [expected_nil]
              change some (total, lengths (out ++ [.whiteout path])) = _
              rw [lengths_append]
              exact congrArg (fun l => some (total, l)) (List.append_nil _)
          | kept path =>
              cases hsize : entry.headerSize with
              | error source => rfl
              | ok size =>
                  cases hcontent : entry.content with
                  | error source =>
                      change measure ((checkSize limits digest path size total).bind fun _ =>
                        if isizeMax < size then _ else _) = none
                      cases checkSize limits digest path size total with
                      | error e => rfl
                      | ok total =>
                          change measure (if isizeMax < size then _ else _) = none
                          split
                          · rfl
                          · rfl
                  | ok content =>
                      exact measure_kept path _ (entry.len_content size content hsize hcontent)
      · exact (expected_nil _).symm

theorem measure_entries (entries : List (Except String TarEntry)) :
    measure (entries.foldlM (extractEntry limits digest) (total, out)) =
      expected limits (total, lengths out) (archiveSizes entries) := by
  induction entries generalizing total out with
  | nil => exact (expected_nil _).symm
  | cons entry entries ih =>
      rw [List.foldlM_cons, archiveSizes, expected_append,
        ← @measure_entry limits digest total out entry]
      exact measure_bind measure _ _ (fun _ => rfl) (fun acc => ih) _

theorem measure_tar (reader : Reader) :
    measure (extractTar crate limits digest reader total) =
      expected limits (total, []) ((crate reader).toOption.bind archiveSizes) := by
  rw [extractTar]
  cases crate reader with
  | error source => rfl
  | ok entries => exact measure_entries entries

theorem measure_layer (layer : Layer) :
    measure (extractLayerFiles crate limits layer total) =
      expected limits (total, []) (layerSizes crate layer) := by
  rw [extractLayerFiles, layerSizes]
  cases detectLayerFormat layer.mediaType with
  | raw =>
      have hfits : ¬ isizeMax < layer.buf.len := by
        have hlen := toNat_len layer.buf
        have hmax := layer.buf.fits
        rw [UInt64.lt_iff_toNat_lt, isizeMax, UInt64.toNat_ofNat']
        omega
      have hkept := @measure_kept limits layer.digest total [] "" none layer.buf.len none
        layer.buf rfl
      simp only [if_neg hfits] at hkept
      exact hkept
  | tar => exact measure_tar _
  | tarGzip => exact measure_tar _

/-- The lengths of all that is extracted, if extraction succeeds. -/
def measureAll (result : Except Failure (List (List ExtractedEntry))) : Option (List Nat) :=
  result.toOption.map fun extracted => lengths extracted.flatten

/-- The lengths of all that is extracted are the effective sizes, if the sizes are admitted. -/
theorem measure_all (layers : List Layer) :
    measureAll (extractAll crate limits layers total) =
      (expected limits (total, []) (imageSizes crate layers)).map (·.2) := by
  induction layers generalizing total with
  | nil => rfl
  | cons layer layers ih =>
      rw [extractAll, imageSizes, expected_append, ← measure_layer layer]
      rw [Option.map_bind]
      refine measure_bind measureAll _ _ (fun _ => rfl) ?_ _
      intro acc
      obtain ⟨total', entries⟩ := acc
      change measureAll ((extractAll crate limits layers total').bind _) = _
      rw [Function.comp_apply, expected_prefix, ← ih]
      cases extractAll crate limits layers total' with
      | error failure => rfl
      | ok rest => exact congrArg some (lengths_append entries rest.flatten)

/-- The checks succeed exactly if the sizes in the headers keep to the limits. -/
theorem admits_isSome_iff :
    (admits limits zs total).isSome ↔
      (∀ z ∈ zs, z.declared ≤ limits.maxFileSize ∧ z.declared ≤ isizeMax) ∧
        Saturating.Within (2 ^ 64 - 1) limits.maxTotalSize.toNat total.toNat
          (zs.map (·.declared.toNat)) := by
  induction zs generalizing total with
  | nil => simp [admits, Saturating.Within]
  | cons z zs ih =>
      rw [admits, List.map_cons, Saturating.Within, List.forall_mem_cons, ← toNat_saturatingAdd,
        ← UInt64.le_iff_toNat_le]
      split
      · rename_i h
        rw [ih]
        obtain ⟨hfile, hcapacity, htotal⟩ := h
        constructor
        · rintro ⟨hfiles, hrest⟩
          exact ⟨⟨⟨hfile, hcapacity⟩, hfiles⟩, htotal, hrest⟩
        · rintro ⟨⟨-, hfiles⟩, -, hrest⟩
          exact ⟨hfiles, hrest⟩
      · rename_i h
        constructor
        · intro hsome
          cases hsome
        · rintro ⟨⟨⟨hfile, hcapacity⟩, -⟩, htotal, -⟩
          exact absurd ⟨hfile, hcapacity, htotal⟩ h

theorem declared_iff : Declared limits zs ↔ (admits limits zs 0).isSome := by
  have hzero : (0 : UInt64).toNat = 0 := rfl
  rw [admits_isSome_iff, hzero, Saturating.within_iff (Nat.zero_le _) (Nat.zero_le _),
    Nat.zero_add]
  constructor
  · intro h
    exact ⟨h.file, h.total⟩
  · rintro ⟨hfile, htotal⟩
    exact ⟨hfile, htotal⟩

/-- What is extracted, in terms of the sizes. -/
theorem extracted_iff (layers : List Layer) (ls : List Nat) :
    (∃ extracted, extractAll crate limits layers 0 = .ok extracted ∧
        lengths extracted.flatten = ls) ↔
      ∃ zs, imageSizes crate layers = some zs ∧ Declared limits zs ∧
        zs.map (·.effective.toNat) = ls := by
  have hmeasure := @measure_all crate limits 0 layers
  constructor
  · rintro ⟨extracted, hok, rfl⟩
    rw [hok] at hmeasure
    obtain ⟨acc, hacc, hls⟩ := Option.map_eq_some_iff.mp hmeasure.symm
    obtain ⟨zs, hzs, hadmits⟩ := Option.bind_eq_some_iff.mp hacc
    obtain ⟨total, htotal, rfl⟩ := Option.map_eq_some_iff.mp hadmits
    exact ⟨zs, hzs, declared_iff.mpr (by rw [htotal]; rfl), hls⟩
  · rintro ⟨zs, hzs, hdeclared, rfl⟩
    obtain ⟨total, htotal⟩ := Option.isSome_iff_exists.mp (declared_iff.mp hdeclared)
    rw [expected, hzs, Option.bind_some, htotal] at hmeasure
    cases hok : extractAll crate limits layers 0 with
    | error failure =>
        rw [hok] at hmeasure
        cases hmeasure
    | ok extracted =>
        rw [hok] at hmeasure
        exact ⟨extracted, rfl, Option.some.inj hmeasure⟩

/-- The limits hold for what is extracted exactly if, on an image whose archives can be read
to their ends, the effective sizes keep to them whenever the sizes in the headers do. -/
theorem capped_iff (crate : TarCrate) (limits : Limits) (layers : List Layer) :
    Capped crate limits layers ↔
      ∀ zs, imageSizes crate layers = some zs → Declared limits zs → Effective limits zs := by
  constructor
  · intro h zs hzs hdeclared
    obtain ⟨extracted, hok, hlengths⟩ := (extracted_iff layers _).mpr ⟨zs, hzs, hdeclared, rfl⟩
    obtain ⟨hfile, htotal⟩ := h extracted hok
    rw [hlengths] at hfile htotal
    exact ⟨fun z hz => UInt64.le_iff_toNat_le.mpr (hfile _ (List.mem_map_of_mem hz)), htotal⟩
  · intro h extracted hok
    obtain ⟨zs, hzs, hdeclared, hlengths⟩ := (extracted_iff layers _).mp ⟨extracted, hok, rfl⟩
    obtain ⟨hfile, htotal⟩ := h zs hzs hdeclared
    rw [← hlengths]
    refine ⟨?_, htotal⟩
    intro n hn
    obtain ⟨z, hz, rfl⟩ := List.mem_map.mp hn
    exact UInt64.le_iff_toNat_le.mp (hfile z hz)

/-- Where no effective size is larger than the one in the header, the limits hold, whatever
they are. -/
theorem capped_of_le (h : ∀ zs, imageSizes crate layers = some zs →
      (∀ z ∈ zs, z.effective ≤ z.declared) ∧ (zs.map (·.declared.toNat)).sum < 2 ^ 64) :
    Capped crate limits layers := by
  intro extracted hok
  obtain ⟨zs, hzs, hdeclared, hlengths⟩ := (extracted_iff layers _).mp ⟨extracted, hok, rfl⟩
  obtain ⟨hle, hsum⟩ := h zs hzs
  have hle' : ∀ z ∈ zs, z.effective.toNat ≤ z.declared.toNat :=
    fun z hz => UInt64.le_iff_toNat_le.mp (hle z hz)
  have htotal := hdeclared.total
  rw [← hlengths]
  constructor
  · intro n hn
    obtain ⟨z, hz, rfl⟩ := List.mem_map.mp hn
    exact le_trans (hle' z hz) (UInt64.le_iff_toNat_le.mp (hdeclared.file z hz).1)
  · have hsums := List.sum_le_sum hle'
    omega

/-- A file whose header says that it is empty, after a PAX record that says ten bytes. -/
theorem pax_size_not_capped :
    let bytes : Bytes := ⟨List.replicate 10 0, by decide⟩
    let entry : TarEntry :=
      { isFile := true
        path := .ok "flow.yaml"
        headerSize := .ok 0
        paxSize := some 10
        content := .ok bytes
        len_content := by rintro size content ⟨⟩ ⟨⟩; rfl }
    let layer : Layer :=
      { mediaType := "application/vnd.oci.image.layer.v1.tar"
        digest := "sha256:abc"
        title := none
        buf := ⟨[], by decide⟩ }
    ¬ Capped (fun _ => .ok [.ok entry]) ⟨5, 5, "test:v1"⟩ [layer] := by
  intro bytes entry layer h
  have hsizes : imageSizes (fun _ => .ok [.ok entry]) [layer] = some [⟨0, 10⟩] := by decide
  have hdeclared : Declared ⟨5, 5, "test:v1"⟩ [⟨0, 10⟩] := declared_iff.mpr (by decide)
  obtain ⟨extracted, hok, hlengths⟩ := (extracted_iff [layer] _).mpr ⟨_, hsizes, hdeclared, rfl⟩
  have htotal := (h extracted hok).2
  rw [hlengths] at htotal
  exact absurd htotal (by decide)

end Flowgen.Oci
