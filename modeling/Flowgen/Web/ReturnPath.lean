/-
# `Flowgen.Web.ReturnPath` — where the browser goes after signing in (`app/src/web.rs`)

`auth_login` takes a `return_to`, and the callback redirects to it.  `return_path` lets
it through only if its text begins with the prefix of the UI, goes on with a slash, and
is free of everything that a browser would read in another way: a second slash at the
start, backslashes, control characters, dot segments.

So the browser stays: it resolves the text to a path of this origin that lies under the
UI and is none of the auth routes (`returnPath_stays`).  What it percent-encodes it
encodes in the prefix as well, and dot segments of the prefix are resolved before the
rest is read.
-/
import Flowgen.Text
import Flowgen.Lib.UrlPath

namespace Flowgen.Web

open Flowgen.Lib Flowgen.Lib.UrlPath Flowgen.Text

/-! ## The source -/

/-- `path.trim_end_matches('/')`. -/
def trimEndSlashes (path : List Char) : List Char := path.rdropWhile (· == '/')

def isAsciiGraphic (c : Char) : Bool := 0x20 < c.toNat && c.toNat < 0x7f

/-- `segment.replace("%2e", ".")`. -/
def decodeDots : List Char → List Char
  | '%' :: '2' :: 'e' :: cs => '.' :: decodeDots cs
  | c :: cs => c :: decodeDots cs
  | [] => []

def dotSegment (segment : List Char) : Bool :=
  let decoded := decodeDots (segment.map Char.toLower)
  decoded == ['.'] || decoded == ['.', '.']

def hasDotSegment (pathAndQuery : List Char) : Bool :=
  let path := pathAndQuery.takeWhile fun c => !isStop c
  (path.splitOn '/').any dotSegment

def returnPath (pathPrefix returnTo : List Char) : Option (List Char) :=
  match stripPrefix pathPrefix returnTo with
  | none => none
  | some path =>
      let safe := path.head? == some '/' && !(['/', '/'].isPrefixOf returnTo) &&
        (returnTo.all fun c => isAsciiGraphic c && c != '\\') && !hasDotSegment path &&
        !("/auth/".toList.isPrefixOf path)
      if safe then some returnTo else none

/-- The prefix of all routes. -/
def routePrefix (path : List Char) : List Char := trimEndSlashes path

/-- The names of the routes under `auth`. -/
def authRouteNames : List (List Char) := ["login", "callback", "logout", "me"].map String.toList

def authRoutes (pathPrefix : List Char) : List (List Char) :=
  authRouteNames.map fun name => pathPrefix ++ "/auth/".toList ++ name

/-- Where the web UI lives. -/
def uiUrl (pathPrefix : List Char) : List Char := trimEndSlashes pathPrefix ++ ['/']

/-! ## Dot segments -/

theorem dotSegment_of_isDot {s : Segment} (h : isDot s) : dotSegment s := by
  have hdots : s.map Char.toLower ∈ singleDots ++ doubleDots := by
    rw [isDot, Bool.or_eq_true, isSingleDot, isDoubleDot, List.contains_iff_mem,
      List.contains_iff_mem] at h
    exact List.mem_append.mpr h
  have hall : ((singleDots ++ doubleDots).all fun t =>
      decodeDots t == ['.'] || decodeDots t == ['.', '.']) = true := by decide
  exact List.all_eq_true.mp hall _ hdots

theorem modifyHead_nil_append (xs : List (List Char)) : xs.modifyHead ([] ++ ·) = xs := by
  cases xs with
  | nil => rfl
  | cons x xs => rfl

theorem splitOn_eq_segments {cs read : List Char} :
    ((cs.takeWhile fun c => !isStop c).splitOn '/').modifyHead (read ++ ·) = segments read cs := by
  induction cs generalizing read with
  | nil => simp [segments]
  | cons c cs ih =>
      rw [segments]
      cases hstop : isStop c with
      | true =>
          have hc : c ≠ '/' := by
            rintro rfl
            cases hstop
          simp [hstop, hc]
      | false =>
          rw [List.takeWhile_cons_of_pos (by simp [hstop]), List.splitOn_cons_eq_if_modifyHead]
          by_cases hc : c = '/'
          · rw [if_pos hc, if_pos (by simp [hc]), ← ih, modifyHead_nil_append]
            simp
          · rw [if_neg hc, if_neg Bool.false_ne_true, if_neg (by simpa using hc), ← ih,
              List.modifyHead_modifyHead]
            congr 1
            funext x
            simp

/-- What `has_dot_segment` lets pass has no segment that a browser resolves. -/
theorem isDot_of_hasDotSegment {p : List Char} (hgraphic : Graphic p)
    (h : hasDotSegment ('/' :: p) = false) : ∀ s ∈ segments [] p, isDot (encode s) = false := by
  intro s hs
  by_contra hdot
  rw [Bool.not_eq_false] at hdot
  have hsgraphic : Graphic s := by
    intro c hc
    rcases mem_segments s hs c hc with h | h
    · cases h
    · exact hgraphic c h
  have hsame := encode_eq_of_dot hsgraphic
    (isStop_segments (fun c hc => absurd hc List.not_mem_nil) s hs) hdot
  rw [hsame] at hdot
  have hmem : s ∈ (('/' :: p).takeWhile fun c => !isStop c).splitOn '/' := by
    rw [List.takeWhile_cons_of_pos (by decide), List.splitOn_cons_eq_if_modifyHead,
      if_pos (by decide)]
    refine List.mem_cons_of_mem _ ?_
    rwa [← splitOn_eq_segments, modifyHead_nil_append] at hs
  rw [hasDotSegment, ← Bool.not_eq_true, List.any_eq_true] at h
  exact h ⟨s, hmem, dotSegment_of_isDot hdot⟩

/-! ## What is let through -/

/-- What `return_path` has made sure of. -/
structure Safe (pathPrefix returnTo p : List Char) : Prop where
  split : returnTo = pathPrefix ++ '/' :: p
  oneSlash : ¬ ['/', '/'] <+: returnTo
  graphic : Graphic returnTo
  backslash : '\\' ∉ returnTo
  dots : hasDotSegment ('/' :: p) = false
  auth : ¬ "/auth/".toList <+: '/' :: p

theorem returnPath_eq_some {pathPrefix returnTo value : List Char}
    (h : returnPath pathPrefix returnTo = some value) :
    value = returnTo ∧ ∃ p, Safe pathPrefix returnTo p := by
  rw [returnPath] at h
  split at h
  · cases h
  · rename_i path hpath
    obtain ⟨hsafe, hvalue⟩ := Option.ite_none_right_eq_some.mp h
    cases hvalue
    simp only [Bool.and_eq_true, Bool.not_eq_true', List.all_eq_true, beq_iff_eq,
      bne_iff_ne] at hsafe
    obtain ⟨⟨⟨⟨hslash, honeSlash⟩, hchars⟩, hdots⟩, hauth⟩ := hsafe
    obtain ⟨p, rfl⟩ := List.head?_eq_some_iff.mp hslash
    refine ⟨rfl, p, stripPrefix_eq_some.mp hpath, ?_, ?_, ?_, hdots, ?_⟩
    · rw [← List.isPrefixOf_iff_prefix, honeSlash]
      exact Bool.false_ne_true
    · intro c hc
      have hgraphic := (hchars c hc).1
      simpa [isAsciiGraphic] using hgraphic
    · intro hmem
      exact (hchars _ hmem).2 rfl
    · rw [← List.isPrefixOf_iff_prefix, hauth]
      exact Bool.false_ne_true

/-- The prefix that the router was given begins with a slash, if it is not empty. -/
def Rooted (pathPrefix : List Char) : Prop := pathPrefix = [] ∨ pathPrefix.head? = some '/'

/-- The browser goes to this path, and the UI has that one. -/
structure Stays (pathPrefix value : List Char) (target root : List Segment) : Prop where
  resolves : resolve value = .page target
  home : resolve (uiUrl pathPrefix) = .page root
  under : pathText root <+: pathText target
  auth : ∀ route ∈ authRoutes pathPrefix, pathText target ≠ route

variable {pathPrefix returnTo p : List Char}

theorem resolve_of_slash {cs : List Char} (hgraphic : Graphic ('/' :: cs))
    (hslash : cs.head?.any isSlash = false) :
    resolve ('/' :: cs) = .page (parsePath [] [] cs) := by
  rw [resolve, cleaned_of_graphic hgraphic]
  simp [hslash, show isSlash '/' = true from rfl]

/-- A safe text names no host. -/
theorem Safe.not_host {cs : List Char} (h : Safe pathPrefix returnTo p)
    (hcs : returnTo = '/' :: cs) : cs.head?.any isSlash = false := by
  rw [← Bool.not_eq_true, Option.any_eq_true]
  rintro ⟨c, hc, hslash⟩
  obtain ⟨rest, rfl⟩ := List.head?_eq_some_iff.mp hc
  rcases (Bool.or_eq_true _ _).mp hslash with heq | heq
  · rw [eq_of_beq heq] at hcs
    exact h.oneSlash ⟨rest, hcs.symm⟩
  · rw [eq_of_beq heq] at hcs
    exact h.backslash (by simp [hcs])

theorem Safe.rest_graphic (h : Safe pathPrefix returnTo p) : Graphic p := fun c hc =>
  h.graphic c (by simp [h.split, hc])

theorem Safe.parsePath (h : Safe pathPrefix returnTo p) (path : List Segment) :
    UrlPath.parsePath path [] p = path ++ (segments [] p).map encode := by
  have hback : '\\' ∉ p := fun hmem => h.backslash (by simp [h.split, hmem])
  have hparse : UrlPath.parsePath path (encode []) p = path ++ (segments [] p).map encode :=
    parsePath_segments hback (isDot_of_hasDotSegment h.rest_graphic h.dots)
  exact hparse

/-- The first segment after the prefix is not the one of the auth routes, if another one
follows. -/
theorem Safe.segments_ne_auth (h : Safe pathPrefix returnTo p) (name : Segment) :
    (segments [] p).map encode ≠ ["auth".toList, name] := by
  intro heq
  obtain ⟨first, rest, hsegments, hfirst, hrest⟩ := List.map_eq_cons_iff.mp heq
  obtain ⟨second, rest', hrest', -, -⟩ := List.map_eq_cons_iff.mp hrest
  have hauth : first = "auth".toList := by
    have hplain : encode first = first := encode_eq_of_percent_notMem (by
      rw [hfirst]
      decide)
    rw [← hplain, hfirst]
  rw [hrest', hauth] at hsegments
  obtain ⟨tail, htail⟩ := exists_of_segments hsegments
  exact h.auth ⟨tail, by rw [show p = "auth".toList ++ '/' :: tail from htail]; rfl⟩

/-- The path is none of the auth routes, however the prefix is read, as long as nothing
of it is taken back. -/
theorem Safe.ne_route (h : Safe pathPrefix returnTo p) {state raw : List Segment}
    {name : Segment} (hplain : ∀ s ∈ state ++ (segments [] p).map encode, Plain s)
    (hraw : ∀ s ∈ raw, '/' ∉ s) (hname : '/' ∉ name)
    (hstate : (∀ s ∈ raw, isDot s = false) → state.length = raw.length) :
    pathText (state ++ (segments [] p).map encode) ≠
      pathText (raw ++ ["auth".toList, name]) := by
  intro heq
  have hslash : ∀ s ∈ raw ++ ["auth".toList, name], '/' ∉ s := by
    intro s hs
    rcases List.mem_append.mp hs with hs | hs
    · exact hraw s hs
    · rcases List.mem_cons.mp hs with rfl | hs
      · decide
      · exact List.mem_singleton.mp hs ▸ hname
  have hsame := pathText_injective
    (fun s hs hmem => ((hplain s hs).chars '/' hmem).1 rfl) hslash heq
  have hdot : ∀ s ∈ raw, isDot s = false := fun s hs =>
    (hplain s (hsame ▸ List.mem_append_left _ hs)).dot
  exact h.segments_ne_auth name (List.append_inj hsame (hstate hdot)).2

theorem route_eq {route : List Char} (h : route ∈ authRoutes pathPrefix) :
    ∃ name, '/' ∉ name ∧ (∀ c ∈ name, isStop c = false) ∧
      route = pathPrefix ++ pathText ["auth".toList, name] := by
  obtain ⟨name, hname, rfl⟩ := List.mem_map.mp h
  have hall : (authRouteNames.all fun name => !(name.contains '/') && name.all fun c => !isStop c) =
      true := by decide
  have hthis := List.all_eq_true.mp hall name hname
  rw [Bool.and_eq_true, Bool.not_eq_true', List.all_eq_true] at hthis
  refine ⟨name, ?_, fun c hc => by simpa using hthis.2 c hc, ?_⟩
  · rw [← List.contains_iff_mem, hthis.1]
    exact Bool.false_ne_true
  · simp [pathText]

theorem Safe.map_encode_ne_nil : (segments [] p).map encode ≠ [] :=
  fun h => segments_ne_nil (List.map_eq_nil_iff.mp h)

/-- What is read after the path of the UI lies under it. -/
theorem pathText_under (state : List Segment) {xs : List Segment} (h : xs ≠ []) :
    pathText (state ++ [[]]) <+: pathText (state ++ xs) := by
  obtain ⟨x, xs, rfl⟩ := List.exists_cons_of_ne_nil h
  refine ⟨x ++ pathText xs, ?_⟩
  rw [pathText_append, pathText_append, List.append_assoc]
  rfl

theorem plain_of_parsePath (cs : List Char) : ∀ s ∈ UrlPath.parsePath [] [] cs, Plain s :=
  plain_parsePath (fun _ hs => absurd hs List.not_mem_nil) fun _ hc => absurd hc List.not_mem_nil

/-- Without a prefix the path of the UI is the root. -/
theorem Safe.stays_nil (h : Safe [] returnTo p) : ∃ target root, Stays [] returnTo target root := by
  have hsplit : returnTo = '/' :: p := h.split
  have hread := h.parsePath []
  have hplain := plain_of_parsePath p
  rw [hread] at hplain
  refine ⟨(segments [] p).map encode, [[]], ?_, rfl, ?_, ?_⟩
  · rw [hsplit, resolve_of_slash (hsplit ▸ h.graphic) (h.not_host hsplit), hread, List.nil_append]
  · exact pathText_under [] Safe.map_encode_ne_nil
  · intro route hroute
    obtain ⟨name, hname, -, rfl⟩ := route_eq hroute
    exact h.ne_route hplain (fun s hs => absurd hs List.not_mem_nil) hname fun _ => rfl

theorem Safe.stays_cons {rest : List Char} (htrim : trimEndSlashes ('/' :: rest) = '/' :: rest)
    (h : Safe ('/' :: rest) returnTo p) :
    ∃ target root, Stays ('/' :: rest) returnTo target root := by
  have hsplit : returnTo = '/' :: (rest ++ '/' :: p) := h.split
  have hui : uiUrl ('/' :: rest) = '/' :: (rest ++ ['/']) := by
    rw [uiUrl, htrim]
    rfl
  have hgraphic : Graphic (rest ++ '/' :: p) := fun c hc =>
    h.graphic c (hsplit ▸ List.mem_cons_of_mem _ hc)
  have hhost := h.not_host hsplit
  have hback : '\\' ∉ rest := fun hmem => h.backslash (by simp [hsplit, hmem])
  have hresolve : resolve returnTo = .page (UrlPath.parsePath [] [] (rest ++ '/' :: p)) := by
    rw [hsplit, resolve_of_slash (hsplit ▸ h.graphic) hhost]
  have hroot : resolve (uiUrl ('/' :: rest)) =
      .page (UrlPath.parsePath [] [] (rest ++ '/' :: [])) := by
    rw [hui]
    refine resolve_of_slash ?_ ?_
    · intro c hc
      refine h.graphic c ?_
      rw [hsplit]
      simp only [List.mem_cons, List.mem_append, List.not_mem_nil, or_false] at hc ⊢
      tauto
    · cases rest with
      | nil => exact hhost
      | cons d rest => exact hhost
  have hplain := plain_of_parsePath (rest ++ '/' :: p)
  by_cases hstop : ∃ c ∈ rest, isStop c
  · -- The path ends within the prefix, for the UI as well.
    rw [parsePath_stop hstop] at hresolve hroot hplain
    refine ⟨_, _, hresolve, hroot, List.prefix_rfl, ?_⟩
    intro route hroute heq
    obtain ⟨c, hc, hcstop⟩ := hstop
    obtain ⟨name, -, -, rfl⟩ := route_eq hroute
    have hmem : c ∈ pathText (UrlPath.parsePath [] [] rest) := by
      rw [heq]
      simp [hc]
    obtain ⟨s, hs, hcs⟩ := List.mem_flatMap.mp hmem
    rcases List.mem_cons.mp hcs with rfl | hcs
    · cases hcstop
    · rw [((hplain s hs).chars c hcs).2] at hcstop
      cases hcstop
  · have hnone : ∀ c ∈ rest, isStop c = false := by
      intro c hc
      by_contra hcstop
      exact hstop ⟨c, hc, by simpa using hcstop⟩
    rw [parsePath_append hnone] at hresolve hroot hplain
    rw [h.parsePath] at hresolve hplain
    refine ⟨_, _, hresolve, hroot, pathText_under _ Safe.map_encode_ne_nil, ?_⟩
    intro route hroute
    obtain ⟨name, hname, -, rfl⟩ := route_eq hroute
    have hraw : pathText (segments [] rest) = '/' :: rest := pathText_segments hnone
    rw [← hraw, ← pathText_append]
    refine h.ne_route hplain (slash_notMem_segments List.not_mem_nil) hname fun hdot => ?_
    have hwalk : walk [] (encode []) rest = [] ++ (segments [] rest).map encode := by
      refine walk_segments hback hnone fun s hs => ?_
      by_contra hencoded
      rw [Bool.not_eq_false] at hencoded
      have hsgraphic : Graphic s := by
        intro c hc
        rcases mem_segments s hs c hc with h' | h'
        · cases h'
        · exact hgraphic c (List.mem_append_left _ h')
      have hsame := encode_eq_of_dot hsgraphic
        (isStop_segments (fun c hc => absurd hc List.not_mem_nil) s hs) hencoded
      rw [hsame, hdot s hs] at hencoded
      cases hencoded
    rw [show walk [] [] rest = _ from hwalk]
    simp

/-- Whatever text is let through, the browser stays on pages of the UI. -/
theorem returnPath_stays {path value : List Char} (hrooted : Rooted (routePrefix path))
    (h : returnPath (routePrefix path) returnTo = some value) :
    ∃ target root, Stays (routePrefix path) value target root := by
  obtain ⟨rfl, p, hsafe⟩ := returnPath_eq_some h
  rcases hrooted with hnil | hslash
  · rw [hnil] at hsafe ⊢
    exact hsafe.stays_nil
  · obtain ⟨rest, hrest⟩ := List.head?_eq_some_iff.mp hslash
    rw [hrest] at hsafe ⊢
    refine hsafe.stays_cons ?_
    rw [← hrest]
    exact List.rdropWhile_idempotent _ _

/-- A page whose query has dot segments and slashes. -/
theorem returnPath_stays_logs :
    returnPath (routePrefix "/flowgen/".toList) "/flowgen/logs?q=..//x".toList =
        some "/flowgen/logs?q=..//x".toList ∧
      ∃ target root, Stays (routePrefix "/flowgen/".toList) "/flowgen/logs?q=..//x".toList
        target root := by
  have hreturn : returnPath (routePrefix "/flowgen/".toList) "/flowgen/logs?q=..//x".toList =
      some "/flowgen/logs?q=..//x".toList := rfl
  exact ⟨hreturn, returnPath_stays (.inr rfl) hreturn⟩

end Flowgen.Web
