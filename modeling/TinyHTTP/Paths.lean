import TinyHTTP.Lib.LexPath
import TinyHTTP.Http.Answer
import TinyHTTP.Http.RequestedFile
import TinyHTTP.Version01.AcceptRequest
import TinyHTTP.Version02.HandleRequest

/-!
# TinyHTTP — the document root

All three servers put the path that they open together from the text of their
document root and the text of the URL, and none of them looks at the `..` in it.
For a URL that begins with a slash, which version_03 insists on, that is a path
below the root unless the URL goes up more levels than it has gone down; any
other text continues the last name of the root.

* `opens_inside_iff` — the requests whose path stays at or below the root.
* `page_inside` — the pages that version_03 chooses itself do.
-/

namespace TinyHTTP

open TinyHTTP.Lib TinyHTTP.Http

def pathChars : PathChars UInt8 := ⟨slash, 46⟩

inductive Version where
  | version01
  | version02 (conf : Version02.ConfHttp)
  | version03

/-- The document root. -/
def Version.root : Version → List UInt8
  | .version01 => bytes "etc"
  | .version02 conf => conf.doc
  | .version03 => docRoot

/-- An accepted request for `url`, and the path that goes to `stat` and `open`. -/
inductive Version.Opens : Version → (url path : List UInt8) → Prop where
  | version01 {buf : Mem} {input rest : List UInt8} {r : Version01.Request} :
      Version01.acceptRequest buf input = .ok (some r, rest) → Opens .version01 r.url r.path
  | version02 {conf : Version02.ConfHttp} {header : Mem} {size : Nat} {r : Version02.HttpRequest}
      {path : List UInt8} : Version02.getUrlMethod header size = .ok r →
      Version02.sendHttp conf r = .ok (some path) → Opens (.version02 conf) r.url path
  | version03 {w w' : World} {c : HttpConn} {segs : List (List UInt8)} {s s' : Parser}
      {real : Mem} {u : Nat} {url path : List UInt8} :
      feed c.init.parser segs = .ok (.doRequest, s) → s.url = some u →
      cstring s.readBuf readBufferSize u = .ok url →
      resolve w s c.init.realFile = .ok (w', s', real) →
      cstring real filenameLen 0 = .ok path → Opens .version03 url path

/-- A URL with the default page of a directory. -/
def withIndex (url : List UInt8) : List UInt8 :=
  if url.getLast? = some slash then url ++ bytes "index.html" else url

/-- What a server appends to its document root for a URL. -/
def Version.files : Version → (url : List UInt8) → List (List UInt8)
  | .version01, url | .version02 _, url => [withIndex url]
  | .version03, url => url.take urlRoom :: pages

-- ---------------------------------------------------------------------------
-- The paths
-- ---------------------------------------------------------------------------

/-- The path of version_01 and version_02. -/
theorem eq_append_withIndex {root url path : List UInt8}
    (h : (url.getLast? ≠ some slash ∧ path = root ++ url) ∨
      (url.getLast? = some slash ∧ path = root ++ url ++ bytes "index.html")) :
    path = root ++ withIndex url := by
  rcases h with ⟨hlast, rfl⟩ | ⟨hlast, rfl⟩
  · rw [withIndex, if_neg hlast]
  · rw [withIndex, if_pos hlast, List.append_assoc]

/-- A string that has a slash and whose first byte is a slash or the NUL begins with the slash. -/
theorem head_slash {m : Mem} {size u : Nat} {url : List UInt8}
    (hstr : cstring m size u = .ok url) (hslash : slash ∈ url) (hu : m u = slash ∨ m u = 0) :
    url.head? = some slash := by
  obtain ⟨hstring, -⟩ := hasString_cstring hstr
  cases url with
  | nil => cases hslash
  | cons b url =>
    have hb : m u = b := hstring.byte 0 (by simp)
    rcases hu with hu | hu
    · rw [← hb, hu]
      rfl
    · exact absurd (hb.symm.trans hu) (hstring.nonzero b (List.mem_cons_self ..))

/-- **What is opened.** The path is the root's text and one of the texts for the URL. -/
theorem Version.Opens.path_eq {v : Version} {url path : List UInt8} (h : v.Opens url path) :
    ∃ file ∈ v.files url, path = v.root ++ file ∧
      (v = .version03 → file.head? = some slash) := by
  cases h with
  | version01 haccept =>
    have hpath := Version01.buildPath_ok (Version01.acceptRequest_path haccept)
    exact ⟨_, List.mem_singleton_self _, eq_append_withIndex hpath, by rintro ⟨⟩⟩
  | version02 hget hsend =>
    have hpath := Version02.sendHttp_path hsend
    exact ⟨_, List.mem_singleton_self _, eq_append_withIndex hpath, by rintro ⟨⟩⟩
  | version03 hfeed hurl hstr hresolve hpath =>
    obtain ⟨u, hu, hbyte⟩ := feed_url (urlInv_init _) hfeed
    obtain rfl := Option.some.inj (hurl.symm.trans hu)
    obtain ⟨hslash, file, hfile, rfl⟩ := resolve_path hurl hstr hresolve hpath
    refine ⟨file, hfile, rfl, fun _ => ?_⟩
    rcases List.mem_cons.mp hfile with rfl | hpage
    · have hhead := head_slash hstr hslash hbyte
      rw [List.head?_take, if_neg (by decide), hhead]
    · exact (pages_fit hpage).2.1

/-- **The document root.** The path that a request opens is at or below the root exactly when the
text that the server appends comes back to it. -/
theorem opens_inside_iff {v : Version} {url path : List UInt8} (h : v.Opens url path) :
    ∃ file ∈ v.files url, path = v.root ++ file ∧
      (v = .version03 → file.head? = some slash) ∧
      ∀ cwd, Inside pathChars cwd v.root path ↔ Returns pathChars cwd v.root file := by
  obtain ⟨file, hfile, rfl, hslash⟩ := h.path_eq
  exact ⟨file, hfile, rfl, hslash, fun cwd => inside_append_iff cwd v.root file⟩

/-- The fixed pages are below the root, wherever the server runs. -/
theorem page_inside {page : List UInt8} (h : page ∈ pages) (cwd : Dir UInt8) :
    Inside pathChars cwd docRoot (docRoot ++ page) := by
  have hall : ∀ page ∈ pages, (climb pathChars (components pathChars page)).ups = 0 := by
    decide +kernel
  exact (inside_append_iff cwd docRoot page).mpr
    (returns_of_ups (pages_fit h).2.1 (hall page h))

-- ---------------------------------------------------------------------------
-- Requests that escape
-- ---------------------------------------------------------------------------

/-- The URL and the path of a request to version_03. -/
def requested (w : World) (segs : List (List UInt8)) : Option (List UInt8 × List UInt8) :=
  match feed Parser.constructed.init segs with
  | .ok (.doRequest, s) =>
    match s.url.map (cstring s.readBuf readBufferSize), resolve w s (fun _ => 0) with
    | some (.ok url), .ok (_, _, real) =>
      match cstring real filenameLen 0 with
      | .ok path => some (url, path)
      | .error _ => none
    | _, _ => none
  | _ => none

theorem opens_of_requested (w : World) (segs : List (List UInt8)) {url path : List UInt8}
    (h : requested w segs = some (url, path)) : Version.version03.Opens url path := by
  unfold requested at h
  split at h
  · rename_i s hfeed
    split at h
    · rename_i url' w' s' real hurl hresolve
      obtain ⟨u, hu, hstr⟩ := Option.map_eq_some_iff.mp hurl
      split at h
      · rename_i path' hpath
        obtain ⟨rfl, rfl⟩ := Prod.mk.inj (Option.some.inj h)
        exact .version03 (c := .constructed) hfeed hu hstr hresolve hpath
      · cases h
    · cases h
  · cases h

def passwdUrl : List UInt8 := bytes "/../../../../etc/passwd"

theorem opens_passwd : Version.version03.Opens passwdUrl (docRoot ++ passwdUrl) :=
  opens_of_requested onePage [bytes "GET /../../../../etc/passwd HTTP/1.1\r\n\r\n"]
    (by decide +kernel)

/-- Four levels up from the root of version_03. -/
theorem opens_inside_iff_passwd : ∃ file ∈ Version.version03.files passwdUrl,
    docRoot ++ passwdUrl = docRoot ++ file ∧
      (Version.version03 = .version03 → file.head? = some slash) ∧
      ∀ cwd, Inside pathChars cwd docRoot (docRoot ++ passwdUrl) ↔
        Returns pathChars cwd docRoot file :=
  opens_inside_iff opens_passwd

/-- Nothing keeps a request in the document root. -/
theorem requests_escape : ¬ ∀ (v : Version) (url path : List UInt8), v.Opens url path →
    ∀ cwd, Inside pathChars cwd v.root path := by
  intro hall
  have hinside := hall _ _ _ opens_passwd []
  exact absurd hinside (by decide +kernel)

end TinyHTTP
