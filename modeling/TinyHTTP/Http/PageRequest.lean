import TinyHTTP.Http.LoginPages
import TinyHTTP.Http.RequestLine
import TinyHTTP.Http.Body

/-!
# TinyHTTP — what a page asks for

The links and the forms of the pages as requests: a GET with no body, or a POST whose
body is a name and a password (`Get`, `Form`). The parser has understood either when
`do_request` is called: the page is still in the read buffer, whatever the header lines
were.

* `parseHeaders_asks` — a header line leaves the page alone, and may ask to keep the
  connection.
* `headRun_get` — a GET ends with its head.
* `headRun_form` — behind the head of a form, the parser waits for the body.
-/

namespace TinyHTTP.Http

open TinyHTTP.Lib

/-- `Connection: keep-alive` -/
def keepsAlive (h : List UInt8) : Bool :=
  decide (EqIgnoreCase (h.take 11) (bytes "Connection:") ∧
    EqIgnoreCase ((h.drop 11).dropWhile blank) (bytes "keep-alive"))

/-- A request for a path. -/
structure Ask where
  request : Request
  parts : Tokens
  path : List UInt8
  hasPath : HasPath request.line parts path
  lineClean : ∀ b ∈ request.line, Printable b
  headerClean : ∀ h ∈ request.headers, h ≠ [] ∧ ∀ b ∈ h, Printable b
  length : announced request.headers = request.body.length
  fits : request.bytes.length ≤ readBufferSize

def Ask.page (a : Ask) : List UInt8 := pageOf a.path

/-- The client asks to keep the connection. -/
def Ask.keeps (a : Ask) : Bool := a.request.headers.any keepsAlive

def Ask.post (a : Ask) : Bool := decide (methodOf a.parts.method = .post)

/-- The byte behind the last slash, or the NUL. -/
def flagOf (page : List UInt8) : UInt8 :=
  (page.reverse.takeWhile fun b => !(b == slash)).reverse.headD 0

/-- A link. -/
structure Get extends Ask where
  method : methodOf parts.method = .get
  noBody : request.body = []

/-- A form, with which a user logs in or registers. -/
structure Form extends Ask where
  method : methodOf parts.method = .post
  name : List UInt8
  password : List UInt8
  body : request.body = loginBody name password
  kind : flagOf (pageOf path) = 50 ∨ flagOf (pageOf path) = 51
  nameClean : ∀ b ∈ name, b ≠ 38 ∧ b ≠ 0
  passwordClean : ∀ b ∈ password, b ≠ 0
  /-- what `name`, `password`, `sql_insert`, `m_url_real` and the read buffer have room for -/
  nameFits : name.length ≤ 99
  passwordFits : password.length ≤ 99
  sqlFits : flagOf (pageOf path) = 51 → name.length + password.length ≤ 150
  pathFits : (pageOf path).length ≤ 200
  room : request.bytes.length < readBufferSize

/-- What the parser knows of a request for a page. -/
structure Asks (s : Parser) (u : Nat) (page : List UInt8) (keep post : Bool) : Prop where
  url : s.url = some u
  page : cstring s.readBuf readBufferSize u = .ok page
  linger : s.linger = keep
  cgi : s.cgi = post

-- ---------------------------------------------------------------------------
-- The request line
-- ---------------------------------------------------------------------------

theorem targetResult_linger {s s' : Parser} {url k : Nat} {ret : HttpCode}
    (h : TargetResult s url k ret s') : s'.linger = s.linger := by
  cases h with
  | noVersion | badVersion => rfl
  | version _ _ _ _ _ _ _ hu => cases hu <;> rfl

theorem requestLineResult_linger {s s' : Parser} {text k : Nat} {ret : HttpCode}
    (h : RequestLineResult s text k ret s') : s'.linger = s.linger := by
  cases h with
  | noUrl | badMethod => rfl
  | get _ _ _ ht | post _ _ _ ht =>
    have hlinger := targetResult_linger ht
    exact hlinger

/-- The version is behind the path. -/
theorem targetResult_url {s s' : Parser} {url k u : Nat} {ret : HttpCode}
    (h : TargetResult s url k ret s') (hret : ret ≠ .badRequest) (hu : s'.url = some u) :
    u + 10 ≤ k := by
  cases h with
  | noVersion | badVersion => exact absurd rfl hret
  | version _ _ _ _ _ _ _ hurl =>
    cases hurl with
    | bad => exact absurd rfl hret
    | page | root =>
      obtain rfl := Option.some.inj hu
      omega

theorem requestLineResult_url {s s' : Parser} {text k u : Nat} {ret : HttpCode}
    (h : RequestLineResult s text k ret s') (hret : ret ≠ .badRequest) (hu : s'.url = some u) :
    u + 10 ≤ k := by
  cases h with
  | noUrl | badMethod => exact absurd rfl hret
  | get _ _ _ ht | post _ _ _ ht =>
    have hle := targetResult_url ht hret hu
    exact hle

/-- A target with a path has a host, or needs none. -/
theorem HasPath.hosted {l : List UInt8} {t : Tokens} {u : List UInt8} (h : HasPath l t u) :
    ¬ Unhosted t.target := by
  rintro ⟨hstarts, hnone⟩
  obtain ⟨-, hu, -⟩ := h
  rw [urlPath, if_pos hstarts, stripped, if_pos hstarts] at hu
  rw [show (bytes "http://").length = 7 by decide, hnone] at hu
  cases hu

theorem Ask.slash_mem (a : Ask) : slash ∈ a.page := by
  obtain ⟨-, -, hslash⟩ := a.hasPath
  unfold Ask.page pageOf
  split
  · decide
  · exact List.mem_of_mem_head? hslash

theorem Ask.noBreak (a : Ask) : ∀ b ∈ a.request.line, b ≠ cr ∧ b ≠ lf := fun b hb =>
  ⟨(a.lineClean b hb).1, (a.lineClean b hb).2.1⟩

theorem Ask.length_head (a : Ask) : a.request.head.length =
    a.request.line.length + 2 + (headerBytes a.request.headers ++ crlf).length := by
  simp [Request.head, crlf]
  omega

theorem Ask.head_le (a : Ask) : a.request.head.length ≤ readBufferSize := by
  have hle := a.fits
  rw [Request.bytes, List.length_append] at hle
  exact Nat.le_of_add_right_le hle

/-- **The request line.** -/
theorem Ask.turn_line (a : Ask) (s₀ : Parser) : ∃ s u,
    turn .lineOk (s₀.init.deliver (a.request.line ++ crlf)) = .ok (.again .lineOk s) ∧
      Asks s u a.page false a.post ∧ u + 10 ≤ a.request.line.length := by
  obtain ⟨l, hl⟩ : ∃ l, a.request.line = l := ⟨_, rfl⟩
  have hfit : l.length + 2 ≤ readBufferSize := by
    have hle := a.head_le
    rw [a.length_head, hl] at hle
    omega
  have hlen : (l ++ crlf).length = l.length + 2 := by simp [crlf]
  obtain ⟨hc, hcr, hlf⟩ := deliver_line (s := s₀.init) l (hl ▸ a.noBreak) rfl
  rw [show s₀.init.readIdx = 0 from rfl, Nat.zero_add] at hc hcr hlf
  have hinv : HeadInv (s₀.init.deliver (l ++ crlf)) := by
    refine (headInv_init s₀).deliver ?_
    show 0 + (l ++ crlf).length ≤ readBufferSize
    omega
  have hlt : l.length + 1 < (s₀.init.deliver (l ++ crlf)).readIdx := by
    show _ < 0 + (l ++ crlf).length
    omega
  have hhead : (s₀.init.deliver (l ++ crlf)).checkState ≠ .content := by
    show CheckState.requestLine ≠ _
    decide
  obtain ⟨hturn, -⟩ := Http.turn_line hinv hhead (Nat.zero_le _) hlt hc hcr hlf
  have hclean : ∀ b ∈ l, b ≠ 0 := fun b hb => (a.lineClean b (hl ▸ hb)).2.2
  have hstring : HasString ((s₀.init.deliver (l ++ crlf)).takeLine l.length).nextLine.readBuf 0 l :=
    firstLine_string hclean
  rw [hl, hturn]
  generalize htaken : (s₀.init.deliver (l ++ crlf)).takeLine l.length = t at hstring
  have hstate : t.checkState = .requestLine := by rw [← htaken]; rfl
  have hstart : t.startLine = 0 := by rw [← htaken]; rfl
  have hcgi : t.nextLine.cgi = false := by rw [← htaken]; rfl
  have hlinger : t.nextLine.linger = false := by rw [← htaken]; rfl
  have houtcome := parseRequestLine_outcome hstring (by omega)
  unfold handleLine
  simp only [hstate, hstart]
  generalize hresult : parseRequestLine t.nextLine 0 = result at houtcome ⊢
  obtain ⟨hderives, hpath, hslash⟩ := a.hasPath
  rw [hl] at hderives
  cases houtcome with
  | null t' ht' hu' =>
    obtain rfl := derives_unique hderives ht'
    exact absurd hu' a.hasPath.hosted
  | bad hno s' => exact absurd hslash ((hno _ hderives).2 _ hpath)
  | path t' ht' _ s' ha =>
    obtain rfl := derives_unique hderives ht'
    obtain ⟨path, hpath', -, hurl⟩ := ha.url
    obtain rfl := Option.some.inj (hpath.symm.trans hpath')
    obtain ⟨u, hu, hstr⟩ := Option.map_eq_some_iff.mp hurl
    have hk := parseRequestLine_ok hresult hstring.nul (by omega)
    have hle := requestLineResult_url hk (by decide) hu
    refine ⟨s', u, rfl, ⟨hu, hstr, (requestLineResult_linger hk).trans hlinger, ?_⟩, by omega⟩
    rw [ha.cgi, hcgi]
    rfl

-- ---------------------------------------------------------------------------
-- The header lines
-- ---------------------------------------------------------------------------

/-- The value behind a header name that the line begins with. -/
theorem skipName (name : List UInt8) {m : Mem} {text : Nat} {h : List UInt8}
    (hs : HasString m text h) (hsize : text + h.length < readBufferSize)
    (hname : EqIgnoreCase (h.take name.length) name) :
    ∃ p, skipSpan m readBufferSize (text + name.length) blanks = .ok p ∧
      HasString m p ((h.drop name.length).dropWhile blank) := by
  have hle : name.length ≤ h.length := by
    have hlen := congrArg List.length hname
    rw [List.length_map, List.length_map, List.length_take] at hlen
    omega
  have hdrop := hs.drop hle
  obtain ⟨p, hp, -, hps⟩ := skipSpan_string readBufferSize blanks hdrop (by
    rw [List.length_drop]
    omega)
  exact ⟨p, hp, hps⟩

/-- **What a header line does to a request for a page.** -/
theorem parseHeaders_asks {s s' : Parser} {text : Nat} {h : List UInt8} {ret : HttpCode}
    (hs : HasString s.readBuf text h) (hsize : text + h.length < readBufferSize)
    (hne : h ≠ []) (hparse : parseHeaders s text = .ok (ret, s')) :
    s'.readBuf = s.readBuf ∧ s'.url = s.url ∧ s'.cgi = s.cgi ∧
      s'.linger = (s.linger || keepsAlive h) := by
  have h0 : s.readBuf text ≠ 0 := fun h0 => hne (hs.head_eq_zero.mp h0)
  have hconnection := strncasecmpEq_string hs connection_nonzero
  have hlen : (bytes "Connection:").length = 11 := by decide
  rw [hlen] at hconnection
  unfold parseHeaders at hparse
  rw [if_neg h0] at hparse
  split at hparse
  · rename_i hm
    have hname := hconnection.mp hm
    obtain ⟨p, hp, hvalue⟩ := skipName (bytes "Connection:") hs hsize
      (by rw [hlen]; exact hname)
    rw [hlen] at hp hvalue
    have hword := strcasecmpEq_string hvalue keepAlive_nonzero
    simp only [hp, bind, Except.bind] at hparse
    split at hparse
    · rename_i hk
      cases hparse
      have hkeeps : keepsAlive h = true := decide_eq_true ⟨hname, hword.mp hk⟩
      exact ⟨rfl, rfl, rfl, by rw [hkeeps, Bool.or_true]⟩
    · rename_i hk
      cases hparse
      have hkeeps : keepsAlive h = false := decide_eq_false fun h => hk (hword.mpr h.2)
      exact ⟨rfl, rfl, rfl, by rw [hkeeps, Bool.or_false]⟩
  · rename_i hm
    have hkeeps : keepsAlive h = false := decide_eq_false fun h => hm (hconnection.mpr h.1)
    rw [hkeeps, Bool.or_false]
    split at hparse
    · obtain ⟨p, -, hparse⟩ := bind_ok.mp hparse
      obtain ⟨n, -, hparse⟩ := bind_ok.mp hparse
      cases hparse
      exact ⟨rfl, rfl, rfl, rfl⟩
    split at hparse
    · obtain ⟨p, -, hparse⟩ := bind_ok.mp hparse
      cases hparse
      exact ⟨rfl, rfl, rfl, rfl⟩
    · cases hparse
      exact ⟨rfl, rfl, rfl, rfl⟩

section
variable {s : Parser} {i u : Nat} {page : List UInt8} {keep post : Bool}

/-- The page ends with the first NUL. -/
theorem Asks.page_lt (ha : Asks s u page keep post) {n : Nat} (h : NulBefore s.readBuf u n) :
    u + page.length < n := by
  obtain ⟨k, hle, hlt, hk⟩ := h
  obtain ⟨hstring, -⟩ := hasString_cstring ha.page
  by_contra hge
  have hbyte := hstring.byte (k - u) (by omega)
  rw [show u + (k - u) = k by omega, hk] at hbyte
  exact hstring.nonzero _ (List.getElem_mem _) hbyte.symm

/-- The page is in the part of the buffer that is done with. -/
theorem Asks.below {s' : Parser} {keep' : Bool} (ha : Asks s u page keep post)
    (hlt : u + page.length < i) (hsame : SameBelow i s.readBuf s'.readBuf)
    (hurl : s'.url = s.url) (hcgi : s'.cgi = s.cgi) (hlinger : s'.linger = keep') :
    Asks s' u page keep' post where
  url := hurl.trans ha.url
  page := by
    obtain ⟨hstring, hsize⟩ := hasString_cstring ha.page
    exact cstring_string (hstring.congr fun j _ hj => hsame j (by omega)) hsize
  linger := hlinger
  cgi := hcgi.trans ha.cgi

/-- More bytes come behind the page. -/
theorem Asks.deliver (ha : Asks s u page keep post) (hlt : u + page.length < s.readIdx)
    (bs : List UInt8) : Asks (s.deliver bs) u page keep post :=
  ha.below hlt (sameBelow_writeBytes _ _ (Nat.le_refl _)) rfl rfl ha.linger

theorem AtHeader.page_lt (h : AtHeader s i) (ha : Asks s u page keep post) :
    u + page.length < i := by
  have hnul := h.inv.strings u (.inl ha.url)
  rw [h.checked] at hnul
  exact ha.page_lt hnul

/-- Taking a line off changes the buffer from its beginning on. -/
theorem sameBelow_lineTaken (h : AtHeader s i) (line : List UInt8) :
    SameBelow i s.readBuf (s.lineTaken line).readBuf := by
  intro j hj
  show Function.update (Function.update (writeBytes s.readBuf s.readIdx (line ++ crlf))
    (s.readIdx + line.length) 0) (s.readIdx + line.length + 1) 0 j = s.readBuf j
  have hread := h.read
  rw [Function.update_of_ne (by omega), Function.update_of_ne (by omega),
    writeBytes_of_lt (by omega)]

/-- **One header line.** -/
theorem header_asks (h : AtHeader s i) (ha : Asks s u page keep post) {line : List UInt8}
    (hne : line ≠ []) (hclean : ∀ b ∈ line, Printable b)
    (hfit : i + line.length + 2 ≤ readBufferSize) :
    ∃ s', (∀ bs, turn .lineOk ((s.deliver (line ++ crlf)).deliver bs) =
        .ok (.again .lineOk (s'.deliver bs))) ∧ AtHeader s' (i + (line.length + 2)) ∧
      s'.contentLength = (headerLength line).getD s.contentLength ∧
      Asks s' u page (keep || keepsAlive line) post := by
  obtain ⟨hs, hparsed⟩ := line_turn h hclean hfit
  obtain ⟨s', hparse, hstate', hlength⟩ := parseHeaders_string hs hne (by omega)
  obtain ⟨hturn, hinv', hstart', hchecked', hread', -⟩ := hparsed s' hparse
  obtain ⟨hbuf, hurl, hcgi, hlinger⟩ := parseHeaders_asks hs (by omega) hne hparse
  refine ⟨s', hturn, ⟨hinv', hstate'.trans h.state, hstart', hchecked', hread'⟩, hlength, ?_⟩
  refine ha.below (h.page_lt ha) ?_ hurl hcgi ?_
  · rw [hbuf]
    exact sameBelow_lineTaken h line
  · rw [hlinger, show (s.lineTaken line).linger = s.linger from rfl, ha.linger]

/-- The header lines; induction on the lines. -/
theorem headers_asks (h : AtHeader s i) (ha : Asks s u page keep post)
    (headers : List (List UInt8)) (hclean : ∀ h ∈ headers, h ≠ [] ∧ ∀ b ∈ h, Printable b)
    (rest : List UInt8) (hfit : i + (headerBytes headers ++ rest).length ≤ readBufferSize) :
    ∃ s', headRun (s.deliver (headerBytes headers ++ rest)) = headRun (s'.deliver rest) ∧
      AtHeader s' (i + (headerBytes headers).length) ∧
      s'.contentLength = headers.foldl (fun n h => (headerLength h).getD n) s.contentLength ∧
      Asks s' u page (keep || headers.any keepsAlive) post := by
  induction headers generalizing s i keep with
  | nil =>
    rw [List.any_nil, Bool.or_false]
    exact ⟨s, rfl, h, rfl, ha⟩
  | cons line headers ih =>
    have hsplit : headerBytes (line :: headers) ++ rest =
        (line ++ crlf) ++ (headerBytes headers ++ rest) := by
      simp [headerBytes]
    have hlen : (line ++ crlf).length = line.length + 2 := by simp [crlf]
    rw [hsplit, List.length_append, hlen] at hfit
    obtain ⟨hne, hprint⟩ := hclean line (List.mem_cons_self ..)
    obtain ⟨s₁, hturn, hat, hlength, ha₁⟩ := header_asks h ha hne hprint (by omega)
    obtain ⟨s', hrun, hat', hlength', ha'⟩ := ih hat ha₁
      (fun h hm => hclean h (List.mem_cons_of_mem _ hm)) (by omega)
    refine ⟨s', ?_, ?_, ?_, ?_⟩
    · rw [hsplit, headRun_line h hlen (by omega) hat.inv hat.checked hat.read hturn _ (by omega)]
      exact hrun
    · have hbytes : (headerBytes (line :: headers)).length =
          line.length + 2 + (headerBytes headers).length := by
        simp [headerBytes, crlf]
        omega
      rw [hbytes, ← Nat.add_assoc]
      exact hat'
    · rw [hlength', hlength, List.foldl_cons]
    · rw [List.any_cons, ← Bool.or_assoc]
      exact ha'

-- ---------------------------------------------------------------------------
-- The blank line
-- ---------------------------------------------------------------------------

/-- **The end of a request without a body.** -/
theorem blank_asks (h : AtHeader s i) (ha : Asks s u page keep post) (hn : s.contentLength = 0)
    (hfit : i + 2 ≤ readBufferSize) :
    ∃ t, headRun (s.deliver crlf) = .ok (.stop .doRequest, t) ∧ t.checkedIdx = t.readIdx ∧
      Asks t u page keep post := by
  have hclean : ∀ b ∈ ([] : List UInt8), Printable b := fun b hb => absurd hb List.not_mem_nil
  obtain ⟨hs, -⟩ := line_turn h hclean (by simpa using hfit)
  obtain ⟨hc, hcr, hlf⟩ := deliver_line (s := s) [] (fun b hb => absurd hb List.not_mem_nil)
    (h.checked.trans h.read.symm)
  have hread : (s.deliver crlf).readIdx = i + 2 := by
    show s.readIdx + 2 = _
    rw [h.read]
  have hhead : (s.deliver crlf).checkState ≠ .content := by
    show s.checkState ≠ _
    rw [h.state]
    decide
  have hinv : HeadInv (s.deliver crlf) := h.inv.deliver (by
    rw [h.read]
    exact hfit)
  have hle : (s.deliver crlf).checkedIdx ≤ s.readIdx := by
    show s.checkedIdx ≤ _
    rw [h.checked, h.read]
  obtain ⟨hturn, -⟩ := turn_line hinv hhead hle (by rw [hread, h.read]; omega) hc hcr hlf
  have h0 : (s.lineTaken []).readBuf i = 0 := hs.nul
  have hn' : ¬ (s.lineTaken []).contentLength ≠ 0 := fun hne => hne hn
  have hparse : parseHeaders (s.lineTaken []) i = .ok (.getRequest, s.lineTaken []) := by
    rw [parseHeaders, if_pos h0, if_neg hn']
  have hhandle : handleLine ((s.deliver crlf).takeLine s.readIdx) =
      .ok (.stop .doRequest (s.lineTaken [])) := by
    have hst : ((s.deliver crlf).takeLine s.readIdx).checkState = .header := h.state
    have hstart : ((s.deliver crlf).takeLine s.readIdx).startLine = i := h.start
    have hnext : ((s.deliver crlf).takeLine s.readIdx).nextLine = s.lineTaken [] := rfl
    unfold handleLine
    simp only [hst, hstart, hnext, hparse]
    rfl
  refine ⟨s.lineTaken [], headRun_wait hhead (hturn.trans hhandle), rfl, ?_⟩
  exact ha.below (h.page_lt ha) (sameBelow_lineTaken h []) rfl rfl ha.linger

/-- **The end of a head with a body behind it.** -/
theorem blank_asks_body (h : AtHeader s i) (ha : Asks s u page keep post)
    (hn : s.contentLength ≠ 0) (hfit : i + 2 ≤ readBufferSize) :
    ∃ t, headRun (s.deliver crlf) = .ok (.content, t) ∧ AtBody t (i + 2) s.contentLength ∧
      Asks t u page keep post := by
  have hclean : ∀ b ∈ ([] : List UInt8), Printable b := fun b hb => absurd hb List.not_mem_nil
  obtain ⟨hs, hparsed⟩ := line_turn h hclean (by simpa using hfit)
  have h0 : (s.lineTaken []).readBuf i = 0 := hs.nul
  have hn' : (s.lineTaken []).contentLength ≠ 0 := hn
  have hparse : parseHeaders (s.lineTaken []) i =
      .ok (.noRequest, { s.lineTaken [] with checkState := .content }) := by
    rw [parseHeaders, if_pos h0, if_pos hn']
  obtain ⟨hturn, hinv', hstart', hchecked', hread', -⟩ := hparsed _ hparse
  generalize ht : { s.lineTaken [] with checkState := .content } = t
    at hturn hinv' hstart' hchecked' hread'
  have hstate : t.checkState = .content := by rw [← ht]
  have hlength : t.contentLength = s.contentLength := by rw [← ht]; rfl
  have hasks : Asks t u page keep post := by
    rw [← ht]
    exact ha.below (h.page_lt ha) (sameBelow_lineTaken h []) rfl rfl ha.linger
  refine ⟨t, ?_, ⟨hinv', hstate, hstart', hchecked', hread', hlength⟩, hasks⟩
  have hrun := headRun_line h (show crlf.length = 2 from rfl) (by decide) hinv' hchecked' hread'
    hturn [] (by simpa using hfit)
  rw [List.append_nil, deliver_nil, headRun_content hstate] at hrun
  exact hrun

end

/-- The whole head but for the blank line. -/
theorem Ask.headRun_lines (a : Ask) (s₀ : Parser) : ∃ s u,
    headRun (s₀.init.deliver a.request.head) = headRun (s.deliver crlf) ∧
      AtHeader s (a.request.line.length + 2 + (headerBytes a.request.headers).length) ∧
      s.contentLength = a.request.body.length ∧ Asks s u a.page a.keeps a.post ∧
      u + 12 ≤ a.request.head.length := by
  obtain ⟨s₁, u, hturn, hasks, hu⟩ := a.turn_line s₀
  have hlen : (a.request.line ++ crlf).length = a.request.line.length + 2 := by simp [crlf]
  have hfits := a.head_le
  rw [a.length_head] at hfits
  obtain ⟨hturns, hat, hlength, -⟩ := accepted_turn a.noBreak (by omega) hturn
  obtain ⟨s, hrun, hat', hlength', hasks'⟩ := headers_asks hat hasks a.request.headers
    a.headerClean crlf hfits
  refine ⟨s, u, ?_, hat', ?_, hasks', ?_⟩
  · have hsplit : a.request.head =
        (a.request.line ++ crlf) ++ (headerBytes a.request.headers ++ crlf) :=
      List.append_assoc ..
    have hhead : ((s₀.init.deliver (a.request.line ++ crlf)).deliver
        (headerBytes a.request.headers ++ crlf)).checkState ≠ .content := by
      show CheckState.requestLine ≠ _
      decide
    rw [hsplit, deliver_append,
      headRun_again hhead (hat.inv.deliver (by rw [hat.read]; exact hfits)) (hturns _) ?_, hrun]
    have h₁ := hat.checked
    have h₂ := hat.read
    show s₁.readIdx + (headerBytes a.request.headers ++ crlf).length - s₁.checkedIdx <
      0 + (a.request.line ++ crlf).length + (headerBytes a.request.headers ++ crlf).length - 0
    omega
  · rw [hlength', hlength]
    exact a.length
  · rw [a.length_head, List.length_append]
    simp only [crlf, List.length_cons, List.length_nil]
    omega

/-- **A link.** -/
theorem headRun_get (g : Get) (s₀ : Parser) :
    ∃ t u, headRun (s₀.init.deliver g.request.bytes) = .ok (.stop .doRequest, t) ∧
      t.checkedIdx = t.readIdx ∧ Asks t u g.page g.keeps false := by
  obtain ⟨s, u, hrun, hat, hlength, hasks, -⟩ := g.headRun_lines s₀
  have hpost : g.post = false := by
    rw [Ask.post, g.method]
    rfl
  have hfit := g.head_le
  rw [g.length_head, List.length_append] at hfit
  simp only [crlf, List.length_cons, List.length_nil] at hfit
  rw [g.noBody] at hlength
  obtain ⟨t, hblank, hall, hasks'⟩ := blank_asks hat hasks hlength (by omega)
  rw [hpost] at hasks'
  refine ⟨t, u, ?_, hall, hasks'⟩
  rw [Request.bytes, g.noBody, List.append_nil, hrun, hblank]

/-- **The head of a form.** -/
theorem headRun_form (f : Form) (s₀ : Parser) :
    ∃ t u, headRun (s₀.init.deliver f.request.head) = .ok (.content, t) ∧
      AtBody t f.request.head.length f.request.body.length ∧ Asks t u f.page f.keeps true ∧
      u + 12 ≤ f.request.head.length := by
  obtain ⟨s, u, hrun, hat, hlength, hasks, hu⟩ := f.headRun_lines s₀
  have hpost : f.post = true := by
    rw [Ask.post, f.method]
    rfl
  have hfit := f.head_le
  have hhead := f.length_head
  rw [List.length_append] at hhead
  simp only [crlf, List.length_cons, List.length_nil] at hhead
  have hbody : s.contentLength ≠ 0 := by
    have hlen := @loginBody_length f.name f.password
    rw [hlength, f.body]
    omega
  obtain ⟨t, hblank, hat', hasks'⟩ := blank_asks_body hat hasks hbody (by omega)
  rw [hpost] at hasks'
  rw [hlength, show f.request.line.length + 2 + (headerBytes f.request.headers).length + 2 =
    f.request.head.length by omega] at hat'
  exact ⟨t, u, hrun.trans hblank, hat', hasks', hu⟩

end TinyHTTP.Http
