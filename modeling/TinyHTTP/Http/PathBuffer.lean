import TinyHTTP.Http.Credentials
import TinyHTTP.Http.InPlace

/-!
# TinyHTTP — the two buffers of the path

A URL is as long as the read buffer lets it be. `do_request` copies it into
`m_real_file` with `strncpy`, which cuts it off, and for a login or a registration into
the block `m_url_real` with `strcpy` and `strcat`, which do not.

* `requested_url` — the URL that `do_request` is called with.
* `pathWhole_iff` — the URLs for which nothing is overrun and nothing cut off.
-/

namespace TinyHTTP.Http

open TinyHTTP.Lib

/-- `process_read` calls `do_request`, with this URL. -/
structure Requested (s₀ s : Parser) (u : Nat) (url : List UInt8) : Prop where
  reading : Reading s₀
  processRead : processRead s₀ = .ok (.doRequest, s)
  pointer : s.url = some u
  string : cstring s.readBuf readBufferSize u = .ok url

/-- No turn hands over to `do_request` before the request line is parsed. -/
theorem turn_doRequest {st : LineStatus} {s s' : Parser}
    (h : turn st s = .ok (.stop .doRequest s')) :
    s'.checkState ≠ .requestLine := by
  have hline : ∀ t : Parser, handleLine t = .ok (.stop .doRequest s') →
      s'.checkState ≠ .requestLine := by
    intro t ht
    unfold handleLine at ht
    cases hc : t.checkState with
    | requestLine =>
      rw [hc] at ht
      obtain ⟨⟨ret, t'⟩, -, hturn⟩ := map_ok.mp ht
      unfold requestLineTurn at hturn
      split at hturn <;> cases hturn
    | header =>
      rw [hc] at ht
      obtain ⟨⟨ret, t'⟩, hparse, hturn⟩ := map_ok.mp ht
      have hstate := (parseHeaders_kept hparse).2
      have hnext : t.nextLine.checkState = .header := hc
      unfold headerTurn at hturn
      split at hturn
      · cases hturn
      split at hturn
      · cases hturn
        rcases hstate with hstate | hstate <;> simp [hstate, hnext]
      · cases hturn
    | content =>
      rw [hc] at ht
      obtain ⟨⟨ret, t'⟩, hparse, hturn⟩ := map_ok.mp ht
      have hstate := (parseContent_kept hparse).2
      have hnext : t.nextLine.checkState = .content := hc
      unfold contentTurn at hturn
      split at hturn
      · cases hturn
        simp [hstate, hnext]
      · cases hturn
  rw [turn_entered] at h
  cases he : entered st s with
  | none =>
    rw [he] at h
    cases h
  | some t =>
    rw [he] at h
    exact hline t h

theorem loop_doRequest {fuel : Nat} {st : LineStatus} {s s' : Parser}
    (h : processReadLoop fuel st s = .ok (.doRequest, s')) : s'.checkState ≠ .requestLine := by
  induction fuel generalizing st s with
  | zero => cases h
  | succ fuel ih =>
    rw [processReadLoop, bind_ok] at h
    obtain ⟨t, ht, h⟩ := h
    cases t with
    | again st' s₁ => exact ih h
    | stop r s₁ =>
      cases h
      exact turn_doRequest ht

/-- **The URL of a request** is a string in the read buffer. -/
theorem requested_url {s₀ s : Parser} (hs : Reading s₀)
    (h : processRead s₀ = .ok (.doRequest, s)) : ∃ u url, Requested s₀ s u url := by
  have hinv := (reading_inv hs).loop h
  obtain ⟨u, hurl, -, hnul⟩ := hinv.url (loop_doRequest h)
  have hstart := Nat.le_trans hinv.indices.start_le
    (Nat.le_trans hinv.indices.checked_le hinv.indices.read_le)
  obtain ⟨j, hj, -⟩ := scanFrom_ok (fun _ => false) hnul hstart
  exact ⟨u, _, hs, h, hurl, bind_ok.mpr ⟨j, hj, rfl⟩⟩

-- ---------------------------------------------------------------------------
-- The buffers
-- ---------------------------------------------------------------------------

/-- How many bytes `strcpy` and `strcat` write to `m_url_real`, where it is allocated. -/
def urlRealBytes (s : Parser) : Option Nat := do
  let url ← s.url
  let flag ← s.flag
  if s.IsCgi flag then
    let rest ← (cstring s.readBuf readBufferSize (url + 2)).toOption
    some ((bytes "/" ++ rest).length + 1)
  else (flagPage flag).map fun page => page.length + 1

/-- The complete name that belongs behind the document root: the page that answers a login or a
registration, the page of the flag, or the URL. -/
def Wanted (s : Parser) (url file : List UInt8) : Prop :=
  match s.flag with
  | none => False
  | some flag =>
    if s.IsCgi flag then file ∈ pages
    else match flagPage flag with
      | some page => file = page
      | none => file = url

/-- What the path should be, for any `m_real_file` that `init` has cleared: `m_url_real` is not
overrun, nor is `m_real_file`, and the path is a complete name. -/
structure PathWhole (w : World) (s : Parser) (url : List UInt8) : Prop where
  urlReal : ∀ n, urlRealBytes s = some n → n ≤ 200
  realFile : ∀ (real real' : Mem) (w' : World) (s' : Parser), (∀ j < filenameLen, real j = 0) →
    resolve w s real = .ok (w', s', real') →
    (∀ j, filenameLen ≤ j → real' j = real j) ∧
      ∃ file, Wanted s url file ∧ cstring real' filenameLen 0 = .ok (docRoot ++ file)

/-- The lengths that fit: 200 for a login or a registration, any for the page of a flag, and what
is left of `m_real_file` for the rest. -/
def UrlFits (s : Parser) (url : List UInt8) : Prop :=
  match s.flag with
  | none => True
  | some flag =>
    if s.IsCgi flag then url.length ≤ 200
    else flagPage flag = none → url.length ≤ urlRoom

section
variable {w : World} {s : Parser} {u p : Nat} {url : List UInt8}

theorem flag_eq (hurl : s.url = some u)
    (hp : strrchr s.readBuf readBufferSize u slash = .ok (some p)) :
    s.flag = some (s.readBuf (p + 1)) := by
  simp only [Parser.flag, hurl, hp]

theorem flag_null (hurl : s.url = some u)
    (hp : strrchr s.readBuf readBufferSize u slash = .ok none) : s.flag = none := by
  simp only [Parser.flag, hurl, hp]

theorem urlRealBytes_cgi (hurl : s.url = some u)
    (hstr : cstring s.readBuf readBufferSize u = .ok url)
    (hp : strrchr s.readBuf readBufferSize u slash = .ok (some p))
    (hcgi : s.IsCgi (s.readBuf (p + 1))) : urlRealBytes s = some url.length := by
  obtain ⟨hlen, hrest⟩ := url_rest hstr hp hcgi.2
  have hone : (bytes "/").length = 1 := by decide
  simp only [urlRealBytes, hurl, flag_eq hurl hp, Option.bind_eq_bind, Option.bind_some,
    if_pos hcgi, hrest, Except.toOption, List.length_append, List.length_drop, hone]
  congr 1
  omega

theorem urlRealBytes_page {n : Nat} (hurl : s.url = some u)
    (hp : strrchr s.readBuf readBufferSize u slash = .ok (some p))
    (hcgi : ¬ s.IsCgi (s.readBuf (p + 1))) (hn : urlRealBytes s = some n) : n ≤ 200 := by
  simp only [urlRealBytes, hurl, flag_eq hurl hp, Option.bind_eq_bind, Option.bind_some,
    if_neg hcgi] at hn
  obtain ⟨page, hpage, rfl⟩ := Option.map_eq_some_iff.mp hn
  have hfit := (pages_fit (flagPage_mem hpage)).1
  have hroom : urlRoom ≤ 199 := by decide
  omega

/-- What is behind `m_real_file` is not written to. -/
theorem realFile_above {real : Mem} {file : List UInt8} {n j : Nat}
    (hroom : docRoot.length + n < filenameLen) (hj : filenameLen ≤ j) :
    strncpy (writeBytes real 0 (docRoot ++ [0])) docRoot.length file n j = real j := by
  have hlen : (docRoot ++ [0]).length = docRoot.length + 1 := by simp
  have hroot : docRoot.length + 1 ≤ filenameLen := by decide
  rw [strncpy_of_ge (by omega), writeBytes_of_ge (by omega)]

theorem pathWhole_of_fits (hurl : s.url = some u)
    (hstr : cstring s.readBuf readBufferSize u = .ok url)
    (hp : strrchr s.readBuf readBufferSize u slash = .ok (some p)) (hfits : UrlFits s url) :
    PathWhole w s url := by
  have hflag := flag_eq hurl hp
  simp only [UrlFits, hflag] at hfits
  refine ⟨fun n hn => ?_, fun real real' w' s' hzero h => ?_⟩
  · by_cases hcgi : s.IsCgi (s.readBuf (p + 1))
    · rw [if_pos hcgi] at hfits
      rw [urlRealBytes_cgi hurl hstr hp hcgi] at hn
      obtain rfl := Option.some.inj hn
      exact hfits
    · exact urlRealBytes_page hurl hp hcgi hn
  · obtain ⟨file, n, hchosen, rfl⟩ := resolve_chosen hurl hstr hp h
    obtain ⟨hfile, hnonzero, hpos, hroom⟩ := hchosen.fits (hasString_cstring hstr).1.nonzero
    refine ⟨fun j hj => realFile_above hroom hj, file, ?_, ?_⟩
    · simp only [Wanted, hflag]
      cases hchosen with
      | cgi hcgi hfit htext hcred hcheck =>
        rw [if_pos hcgi]
        exact check_page hcheck
      | page hcgi hpage => rw [if_neg hcgi, hpage]
      | url hcgi hpage => rw [if_neg hcgi, hpage]
    · rw [cstring_realFile hnonzero hpos hroom (Or.inr (hzero _ hroom))]
      congr 2
      refine List.take_of_length_le ?_
      cases hchosen with
      | cgi hcgi hfit htext hcred hcheck => exact (pages_fit (check_page hcheck)).1
      | page hcgi hpage => exact Nat.le_refl _
      | url hcgi hpage =>
        rw [if_neg hcgi] at hfits
        exact hfits hpage

/-- The two steps of `do_request`: the login or registration, and the copy of the name. -/
theorem resolve_of {w' : World} {s' : Parser} {real real₁ real' : Mem} (hurl : s.url = some u)
    (hp : strrchr s.readBuf readBufferSize u slash = .ok (some p))
    (hbranch : cgiBranch w s (writeBytes real 0 (docRoot ++ [0])) u p = .ok (w', s', real₁))
    (hfile : pageFile s' real₁ u p = .ok real') : resolve w s real = .ok (w', s', real') := by
  simp only [resolve, hurl, hp, bind, Except.bind, hbranch, hfile]
  rfl

/-- A URL that is served as it is. -/
theorem resolve_url (hurl : s.url = some u) (hstr : cstring s.readBuf readBufferSize u = .ok url)
    (hp : strrchr s.readBuf readBufferSize u slash = .ok (some p))
    (hcgi : ¬ s.IsCgi (s.readBuf (p + 1))) (hpage : flagPage (s.readBuf (p + 1)) = none)
    (real : Mem) : resolve w s real = .ok (w, s,
      strncpy (writeBytes real 0 (docRoot ++ [0])) docRoot.length url urlRoom) := by
  have hbranch : cgiBranch w s (writeBytes real 0 (docRoot ++ [0])) u p =
      .ok (w, s, writeBytes real 0 (docRoot ++ [0])) := if_neg hcgi
  have hfile : pageFile s (writeBytes real 0 (docRoot ++ [0])) u p =
      .ok (strncpy (writeBytes real 0 (docRoot ++ [0])) docRoot.length url urlRoom) := by
    simp only [pageFile, hpage, hstr]
    rfl
  exact resolve_of hurl hp hbranch hfile

theorem fits_of_pathWhole (hurl : s.url = some u)
    (hstr : cstring s.readBuf readBufferSize u = .ok url)
    (hp : strrchr s.readBuf readBufferSize u slash = .ok (some p)) (h : PathWhole w s url) :
    UrlFits s url := by
  have hflag := flag_eq hurl hp
  simp only [UrlFits, hflag]
  by_cases hcgi : s.IsCgi (s.readBuf (p + 1))
  · rw [if_pos hcgi]
    exact h.urlReal _ (urlRealBytes_cgi hurl hstr hp hcgi)
  · rw [if_neg hcgi]
    intro hpage
    obtain ⟨-, file, hfile, hpath⟩ := h.realFile (fun _ => 0) _ _ _ (fun _ _ => rfl)
      (resolve_url hurl hstr hp hcgi hpage _)
    simp only [Wanted, hflag, if_neg hcgi, hpage] at hfile
    subst hfile
    have hroom : 0 < urlRoom ∧ docRoot.length + urlRoom < filenameLen := by decide
    rw [cstring_realFile (hasString_cstring hstr).1.nonzero hroom.1 hroom.2 (Or.inr rfl)] at hpath
    have hlen := congrArg List.length (List.append_cancel_left (Except.ok.inj hpath))
    rw [List.length_take] at hlen
    omega

end

theorem Requested.fits {s₀ s : Parser} {u : Nat} {url : List UInt8} {w : World}
    (hr : Requested s₀ s u url) (h : PathWhole w s url) : UrlFits s url := by
  cases hp : strrchr s.readBuf readBufferSize u slash with
  | error f =>
    rw [strrchr, hr.string] at hp
    cases hp
  | ok found =>
    cases found with
    | some p => exact fits_of_pathWhole hr.pointer hr.string hp h
    | none => simp only [UrlFits, flag_null hr.pointer hp]

theorem Requested.whole {s₀ s : Parser} {u : Nat} {url : List UInt8} (w : World)
    (hr : Requested s₀ s u url) (h : UrlFits s url) : PathWhole w s url := by
  cases hp : strrchr s.readBuf readBufferSize u slash with
  | error f =>
    rw [strrchr, hr.string] at hp
    cases hp
  | ok found =>
    cases found with
    | some p => exact pathWhole_of_fits hr.pointer hr.string hp h
    | none =>
      -- the null pointer is what stops the request
      refine ⟨fun n hn => ?_, fun real real' w' s' _ hresolve => ?_⟩
      · simp [urlRealBytes, flag_null hr.pointer hp] at hn
      · simp only [resolve, hr.pointer, hp, bind, Except.bind] at hresolve
        cases hresolve

/-- **The path of a request, whole.** On every request that gets to `do_request`, nothing is overrun
and nothing cut off exactly if the URL fits: 200 bytes for a login or a registration, 169 for a URL
that is served as it is. -/
theorem pathWhole_iff {s₀ s : Parser} {u : Nat} {url : List UInt8} (w : World)
    (hr : Requested s₀ s u url) : PathWhole w s url ↔ UrlFits s url :=
  ⟨fun h => hr.fits h, fun h => hr.whole w h⟩

-- ---------------------------------------------------------------------------
-- Requests
-- ---------------------------------------------------------------------------

/-- The request that `bs` is, on a new connection. -/
def requestOf (bs : List UInt8) : Option (Parser × Nat × List UInt8) :=
  match processRead (received bs) with
  | .ok (.doRequest, s) =>
    match s.url with
    | none => none
    | some u => (cstring s.readBuf readBufferSize u).toOption.map fun url => (s, u, url)
  | _ => none

theorem requested_of {bs : List UInt8} (hne : bs ≠ []) (hfit : bs.length ≤ readBufferSize)
    {s : Parser} {u : Nat} {url : List UInt8} (h : requestOf bs = some (s, u, url)) :
    Requested (received bs) s u url := by
  unfold requestOf at h
  split at h
  · rename_i s' hread
    cases hurl : s'.url with
    | none =>
      rw [hurl] at h
      cases h
    | some u' =>
      cases hstr : cstring s'.readBuf readBufferSize u' with
      | error f => simp [hurl, hstr, Except.toOption] at h
      | ok url' =>
        simp only [hurl, hstr, Except.toOption, Option.map_some, Option.some.injEq,
          Prod.mk.injEq] at h
        obtain ⟨rfl, rfl, rfl⟩ := h
        exact ⟨reading_received hne hfit, hread, hurl, hstr⟩
  · cases h

instance (s : Parser) (url : List UInt8) : Decidable (UrlFits s url) := by
  unfold UrlFits
  split <;> infer_instance

/-- A GET for a URL of `n` bytes behind its slash. -/
def getOfLength (n : Nat) : List UInt8 :=
  bytes "GET /" ++ List.replicate n 97 ++ bytes " HTTP/1.1\r\n\r\n"

theorem pathWhole_iff_short : ∃ s u url, Requested (received (getOfLength 168)) s u url ∧
    ∀ w, PathWhole w s url := by
  have hrun : (requestOf (getOfLength 168)).any (fun r => decide (UrlFits r.1 r.2.2)) = true := by
    decide +kernel
  obtain ⟨⟨s, u, url⟩, h, hfits⟩ := (Option.any_eq_true _ _).mp hrun
  have hr := requested_of (by decide) (by decide +kernel) h
  exact ⟨s, u, url, hr, fun w => (pathWhole_iff w hr).mpr (of_decide_eq_true hfits)⟩

/-- A URL of 170 bytes is cut off. -/
theorem path_truncated : ¬ ∀ (w : World) (s₀ s : Parser) (u : Nat) (url : List UInt8),
    Requested s₀ s u url → PathWhole w s url := by
  intro hall
  have hrun : (requestOf (getOfLength 169)).any (fun r => !decide (UrlFits r.1 r.2.2)) = true := by
    decide +kernel
  obtain ⟨⟨s, u, url⟩, h, hfits⟩ := (Option.any_eq_true _ _).mp hrun
  have hr := requested_of (by decide) (by decide +kernel) h
  have hwhole := hall ⟨fun _ => none, fun _ => none, fun _ => false⟩ _ s u url hr
  rw [Bool.not_eq_true', decide_eq_false_iff_not] at hfits
  exact hfits (hr.fits hwhole)

end TinyHTTP.Http
