import TinyHTTP.Lib.CString
import TinyHTTP.Http.Segmentation
import TinyHTTP.Http.Conn

/-!
# TinyHTTP — the file that a request is about

The path that `do_request` hands to `stat` and `open` is the document root, then
one of the fixed pages, or the first bytes of the URL. `parse_request_line`
accepts a URL only if it begins with a slash; what is parsed afterwards writes
NULs into the buffer and nothing else (`UrlKept`), so the slash is still there
when `do_request` is called.

* `feed_url` — the URL of a request that gets to `do_request`.
* `resolve_path` — the path.
-/

namespace TinyHTTP.Http

open TinyHTTP.Lib

-- ---------------------------------------------------------------------------
-- The URL is kept
-- ---------------------------------------------------------------------------

/-- Of the bytes that have been read, some have become NUL. -/
structure UrlKept (s s' : Parser) : Prop where
  url : s'.url = s.url
  readIdx : s'.readIdx = s.readIdx
  bytes : ∀ j, s'.readBuf j = s.readBuf j ∨ s'.readBuf j = 0

/-- A buffer in which some bytes may have become NUL. -/
theorem nul_or_update {m m' : Mem} (h : ∀ j, m' j = m j ∨ m' j = 0) (i j : Nat) :
    Function.update m' i 0 j = m j ∨ Function.update m' i 0 j = 0 := by
  by_cases hij : j = i
  · subst hij
    exact Or.inr (Function.update_self ..)
  · rw [Function.update_of_ne hij]
    exact h j

theorem parseLine_kept (s : Parser) :
    UrlKept s (parseLine s).2 ∧ (parseLine s).2.checkState = s.checkState := by
  unfold parseLine
  generalize s.readIdx - s.checkedIdx = remaining
  induction remaining generalizing s with
  | zero => exact ⟨⟨rfl, rfl, fun _ => Or.inl rfl⟩, rfl⟩
  | succ remaining ih =>
    have hsame : ∀ j, s.readBuf j = s.readBuf j ∨ s.readBuf j = 0 := fun _ => Or.inl rfl
    rw [parseLineLoop]
    split
    · split
      · exact ⟨⟨rfl, rfl, hsame⟩, rfl⟩
      split
      · exact ⟨⟨rfl, rfl, fun j => nul_or_update (nul_or_update hsame _) _ j⟩, rfl⟩
      · exact ⟨⟨rfl, rfl, hsame⟩, rfl⟩
    split
    · split
      · exact ⟨⟨rfl, rfl, fun j => nul_or_update (nul_or_update hsame _) _ j⟩, rfl⟩
      · exact ⟨⟨rfl, rfl, hsame⟩, rfl⟩
    · obtain ⟨⟨h₁, h₂, h₃⟩, h₄⟩ := ih { s with checkedIdx := s.checkedIdx + 1 }
      exact ⟨⟨h₁, h₂, h₃⟩, h₄⟩

theorem parseHeaders_kept {s s' : Parser} {text : Nat} {ret : HttpCode}
    (h : parseHeaders s text = .ok (ret, s')) :
    UrlKept s s' ∧ (s'.checkState = s.checkState ∨ s'.checkState = .content) := by
  have hsame : ∀ j, s.readBuf j = s.readBuf j ∨ s.readBuf j = 0 := fun _ => Or.inl rfl
  unfold parseHeaders at h
  split at h
  · split at h
    · cases h
      exact ⟨⟨rfl, rfl, hsame⟩, Or.inr rfl⟩
    · cases h
      exact ⟨⟨rfl, rfl, hsame⟩, Or.inl rfl⟩
  split at h
  · obtain ⟨p, -, h⟩ := bind_ok.mp h
    split at h
    · cases h
      exact ⟨⟨rfl, rfl, hsame⟩, Or.inl rfl⟩
    · cases h
      exact ⟨⟨rfl, rfl, hsame⟩, Or.inl rfl⟩
  split at h
  · obtain ⟨p, -, h⟩ := bind_ok.mp h
    obtain ⟨n, -, h⟩ := bind_ok.mp h
    cases h
    exact ⟨⟨rfl, rfl, hsame⟩, Or.inl rfl⟩
  split at h
  · obtain ⟨p, -, h⟩ := bind_ok.mp h
    cases h
    exact ⟨⟨rfl, rfl, hsame⟩, Or.inl rfl⟩
  · cases h
    exact ⟨⟨rfl, rfl, hsame⟩, Or.inl rfl⟩

theorem parseContent_kept {s s' : Parser} {text : Nat} {ret : HttpCode}
    (h : parseContent s text = .ok (ret, s')) :
    UrlKept s s' ∧ s'.checkState = s.checkState := by
  have hsame : ∀ j, s.readBuf j = s.readBuf j ∨ s.readBuf j = 0 := fun _ => Or.inl rfl
  unfold parseContent at h
  split at h
  · cases h
  split at h
  · dsimp only at h
    split at h
    · cases h
      -- the NUL behind the body, wherever `Content-length` has put it
      exact ⟨⟨rfl, rfl, fun j => nul_or_update hsame _ j⟩, rfl⟩
    · cases h
  · cases h
    exact ⟨⟨rfl, rfl, hsame⟩, rfl⟩

-- ---------------------------------------------------------------------------
-- The request line
-- ---------------------------------------------------------------------------

/-- The URL begins with a slash, which was read from the socket. -/
structure UrlParsed (m : Mem) (s' : Parser) : Prop where
  checkState : s'.checkState = .header
  url : ∃ u, s'.url = some u ∧ s'.readBuf u = slash ∧ m u = slash

theorem parseUrl_slash {s s' : Parser} {url : Nat} {ret : HttpCode}
    (h : parseUrl s url = .ok (ret, s')) (hret : ret ≠ .badRequest) :
    s'.readIdx = s.readIdx ∧ UrlParsed s.readBuf s' := by
  obtain ⟨url₁, -, h⟩ := bind_ok.mp h
  obtain ⟨url₂, -, h⟩ := bind_ok.mp h
  cases url₂ with
  | none =>
    cases h
    exact absurd rfl hret
  | some u =>
    simp only at h
    split at h
    · cases h
      exact absurd rfl hret
    rename_i hslash
    rw [ne_eq, not_not] at hslash
    obtain ⟨e, -, h⟩ := bind_ok.mp h
    split at h
    · rename_i he
      obtain ⟨buf, hbuf, h⟩ := bind_ok.mp h
      cases h
      -- `judge.html` is written behind the slash
      have hkeep : buf u = s.readBuf u := by
        unfold strcatAt at hbuf
        split at hbuf
        · cases hbuf
          exact writeBytes_of_lt (by omega)
        · cases hbuf
      exact ⟨rfl, rfl, u, rfl, hkeep.trans hslash, hslash⟩
    · cases h
      exact ⟨rfl, rfl, u, rfl, hslash, hslash⟩

theorem slash_of_update {m : Mem} {i u : Nat} (h : Function.update m i 0 u = slash) :
    m u = slash := by
  by_cases hiu : u = i
  · subst hiu
    rw [Function.update_self] at h
    exact absurd h (by decide)
  · rwa [Function.update_of_ne hiu] at h

theorem UrlParsed.of_update {m : Mem} {i : Nat} {s' : Parser}
    (h : UrlParsed (Function.update m i 0) s') : UrlParsed m s' := by
  obtain ⟨hstate, u, hurl, hslash, hm⟩ := h
  exact ⟨hstate, u, hurl, hslash, slash_of_update hm⟩

theorem parseTarget_slash {s s' : Parser} {url : Nat} {ret : HttpCode}
    (h : parseTarget s url = .ok (ret, s')) (hret : ret ≠ .badRequest) :
    s'.readIdx = s.readIdx ∧ UrlParsed s.readBuf s' := by
  obtain ⟨url₁, -, h⟩ := bind_ok.mp h
  obtain ⟨version, -, h⟩ := bind_ok.mp h
  cases version with
  | none =>
    cases h
    exact absurd rfl hret
  | some e =>
    obtain ⟨v, -, h⟩ := bind_ok.mp h
    split at h
    · obtain ⟨hread, hparsed⟩ := parseUrl_slash h hret
      exact ⟨hread, hparsed.of_update⟩
    · cases h
      exact absurd rfl hret

theorem parseRequestLine_slash {s s' : Parser} {text : Nat} {ret : HttpCode}
    (h : parseRequestLine s text = .ok (ret, s')) (hret : ret ≠ .badRequest) :
    s'.readIdx = s.readIdx ∧ UrlParsed s.readBuf s' := by
  obtain ⟨url, -, h⟩ := bind_ok.mp h
  cases url with
  | none =>
    cases h
    exact absurd rfl hret
  | some e =>
    simp only at h
    split at h
    · obtain ⟨hread, hparsed⟩ := parseTarget_slash h hret
      exact ⟨hread, hparsed.of_update⟩
    split at h
    · obtain ⟨hread, hparsed⟩ := parseTarget_slash h hret
      exact ⟨hread, hparsed.of_update⟩
    · cases h
      exact absurd rfl hret

-- ---------------------------------------------------------------------------
-- The whole of parsing
-- ---------------------------------------------------------------------------

/-- Until the request line is parsed nothing is in the buffer behind the bytes read; then the
URL is among them, and its slash is only ever overwritten by a NUL. -/
structure UrlInv (s : Parser) : Prop where
  unread : s.checkState = .requestLine → ∀ j, s.readIdx ≤ j → s.readBuf j = 0
  url : s.checkState ≠ .requestLine →
    ∃ u, s.url = some u ∧ u < s.readIdx ∧ (s.readBuf u = slash ∨ s.readBuf u = 0)

theorem urlInv_init (s : Parser) : UrlInv s.init :=
  ⟨fun _ _ _ => rfl, fun h => absurd rfl h⟩

theorem UrlInv.deliver {s : Parser} (h : UrlInv s) (bs : List UInt8) : UrlInv (s.deliver bs) where
  unread := by
    intro hstate j hj
    replace hj : s.readIdx + bs.length ≤ j := hj
    show writeBytes s.readBuf s.readIdx bs j = 0
    rw [writeBytes_of_ge hj]
    exact h.unread hstate j (by omega)
  url := by
    intro hstate
    obtain ⟨u, hurl, hu, hbyte⟩ := h.url hstate
    refine ⟨u, hurl, Nat.lt_of_lt_of_le hu (Nat.le_add_right ..), ?_⟩
    show writeBytes s.readBuf s.readIdx bs u = slash ∨ writeBytes s.readBuf s.readIdx bs u = 0
    rwa [writeBytes_of_lt hu]

theorem UrlInv.kept {s s' : Parser} (h : UrlInv s) (hk : UrlKept s s')
    (hstate : s'.checkState = .requestLine ↔ s.checkState = .requestLine) : UrlInv s' where
  unread := by
    intro hs' j hj
    rw [hk.readIdx] at hj
    rcases hk.bytes j with hb | hb
    · exact hb.trans (h.unread (hstate.mp hs') j hj)
    · exact hb
  url := by
    intro hs'
    obtain ⟨u, hurl, hu, hbyte⟩ := h.url fun hs => hs' (hstate.mpr hs)
    refine ⟨u, hk.url.trans hurl, hk.readIdx.symm ▸ hu, ?_⟩
    rcases hk.bytes u with hb | hb
    · rwa [hb]
    · exact Or.inr hb

/-- The invariant after a turn. -/
def Turn.UrlInv : Turn → Prop
  | .again _ s => Http.UrlInv s
  | .stop .doRequest s => Http.UrlInv s ∧ s.checkState ≠ .requestLine
  | .stop (.code code) s => code = .noRequest → Http.UrlInv s

theorem handleLine_url {s : Parser} {t : Turn} (h : UrlInv s) (ht : handleLine s = .ok t) :
    t.UrlInv := by
  have hnext : UrlInv s.nextLine := h.kept ⟨rfl, rfl, fun _ => Or.inl rfl⟩ Iff.rfl
  unfold handleLine at ht
  cases hc : s.checkState with
  | requestLine =>
    rw [hc] at ht
    obtain ⟨⟨ret, s'⟩, hparse, rfl⟩ := map_ok.mp ht
    unfold requestLineTurn
    by_cases hret : ret = .badRequest
    · rw [if_pos hret]
      rintro ⟨⟩
    · rw [if_neg hret]
      obtain ⟨hread, hstate, u, hurl, hslash, hbyte⟩ := parseRequestLine_slash hparse hret
      -- the slash has been read: behind the bytes read there are only NULs
      have hu : u < s.readIdx := by
        by_contra hge
        have := h.unread hc u (by omega)
        rw [show s.readBuf u = slash from hbyte] at this
        exact absurd this (by decide)
      refine ⟨fun hs' => ?_, fun _ => ⟨u, hurl, ?_, Or.inl hslash⟩⟩
      · rw [hs'] at hstate
        cases hstate
      · rw [hread]
        exact hu
  | header =>
    rw [hc] at ht
    obtain ⟨⟨ret, s'⟩, hparse, rfl⟩ := map_ok.mp ht
    obtain ⟨hkept, hstate⟩ := parseHeaders_kept hparse
    have hs : s.nextLine.checkState = .header := hc
    have hne : s'.checkState ≠ .requestLine := by
      rcases hstate with hstate | hstate
      · simp [hstate, hs]
      · simp [hstate]
    have hinv := hnext.kept hkept ⟨fun h => absurd h hne, fun h => by simp [hs] at h⟩
    unfold headerTurn
    split
    · exact fun _ => hinv
    split
    · exact ⟨hinv, hne⟩
    · exact hinv
  | content =>
    rw [hc] at ht
    obtain ⟨⟨ret, s'⟩, hparse, rfl⟩ := map_ok.mp ht
    obtain ⟨hkept, hstate⟩ := parseContent_kept hparse
    have hne : s'.checkState ≠ .requestLine := by
      rw [hstate, show s.nextLine.checkState = .content from hc]
      decide
    have hinv := hnext.kept hkept (by rw [hstate])
    unfold contentTurn
    split
    · exact ⟨hinv, hne⟩
    · exact hinv

theorem turn_url {st : LineStatus} {s : Parser} {t : Turn} (h : UrlInv s)
    (ht : turn st s = .ok t) : t.UrlInv := by
  obtain ⟨hkept, hstate⟩ := parseLine_kept s
  have hline : UrlInv (parseLine s).2 := h.kept hkept (by rw [hstate])
  unfold turn at ht
  split at ht
  · exact handleLine_url h ht
  · generalize parseLine s = r at ht hline
    obtain ⟨lineStatus, s'⟩ := r
    cases lineStatus with
    | lineOk => exact handleLine_url hline ht
    | lineBad | lineOpen =>
      cases ht
      exact fun _ => hline

theorem processReadLoop_url {fuel : Nat} {st : LineStatus} {s s' : Parser} {r : ReadEnd}
    (h : UrlInv s) (hr : processReadLoop fuel st s = .ok (r, s')) : (Turn.stop r s').UrlInv := by
  induction fuel generalizing st s with
  | zero =>
    cases hr
    exact fun _ => h
  | succ fuel ih =>
    rw [processReadLoop, bind_ok] at hr
    obtain ⟨t, ht, hr⟩ := hr
    have hturn := turn_url h ht
    cases t with
    | again st' s₁ => exact ih hturn hr
    | stop r₁ s₁ =>
      cases hr
      exact hturn

/-- **The URL of a request.** However the request arrives, its URL begins with a slash when
`do_request` is called; a body with a negative length can have put a NUL in its place. -/
theorem feed_url {s s' : Parser} {segs : List (List UInt8)} (h : UrlInv s)
    (hfeed : feed s segs = .ok (.doRequest, s')) :
    ∃ u, s'.url = some u ∧ (s'.readBuf u = slash ∨ s'.readBuf u = 0) := by
  induction segs generalizing s with
  | nil => cases hfeed
  | cons seg segs ih =>
    have hread : UrlInv (s.readOnce (.data seg)).1 := by
      unfold Parser.readOnce
      split
      · exact h
      · exact h.deliver _
    rw [feed] at hfeed
    generalize s.readOnce (.data seg) = p at hread hfeed
    obtain ⟨s₁, ok⟩ := p
    cases ok with
    | false => cases hfeed
    | true =>
      cases hproc : processRead s₁ with
      | error f => simp [hproc] at hfeed
      | ok r =>
        obtain ⟨e, s₂⟩ := r
        have hend := processReadLoop_url hread hproc
        simp only [hproc] at hfeed
        cases e with
        | doRequest =>
          cases hfeed
          obtain ⟨u, hurl, -, hbyte⟩ := hend.1.url hend.2
          exact ⟨u, hurl, hbyte⟩
        | code code =>
          cases code with
          | noRequest => exact ih (hend rfl) hfeed
          | _ => cases hfeed

-- ---------------------------------------------------------------------------
-- The path
-- ---------------------------------------------------------------------------

/-- The pages that `do_request` chooses itself. -/
def pages : List (List UInt8) :=
  [bytes "/register.html", bytes "/log.html", bytes "/picture.html", bytes "/video.html",
    bytes "/fans.html", bytes "/registerError.html", bytes "/welcome.html", bytes "/logError.html"]

/-- How much of a URL `strncpy(m_real_file + len, m_url, FILENAME_LEN - len - 1)` copies. -/
def urlRoom : Nat := filenameLen - docRoot.length - 1

theorem pages_fit {page : List UInt8} (h : page ∈ pages) :
    page.length ≤ urlRoom ∧ page.head? = some slash ∧ ∀ b ∈ page, b ≠ 0 := by
  have hall : ∀ page ∈ pages, page.length ≤ urlRoom ∧ page.head? = some slash ∧
      page.all (fun b => b != 0) = true := by decide +kernel
  obtain ⟨hfit, hslash, hnonzero⟩ := hall page h
  exact ⟨hfit, hslash, by simpa using hnonzero⟩

theorem docRoot_nonzero : ∀ b ∈ docRoot, b ≠ 0 := by
  have hall : docRoot.all (fun b => b != 0) = true := by decide +kernel
  simpa using hall

theorem flagPage_mem {flag : UInt8} {page : List UInt8} (h : flagPage flag = some page) :
    page ∈ pages := by
  unfold flagPage at h
  split at h
  · cases h
    decide
  split at h
  · cases h
    decide
  split at h
  · cases h
    decide
  split at h
  · cases h
    decide
  split at h
  · cases h
    decide
  · cases h

/-- The pages that answer a registration. -/
theorem register_page (w : World) (name password : List UInt8) :
    (w.register name password).2 ∈ pages := by
  unfold World.register
  split
  · exact (by decide : bytes "/registerError.html" ∈ pages)
  · dsimp only
    split
    · decide
    · decide

/-- The pages that answer a login. -/
theorem login_page (w : World) (name password : List UInt8) : w.login name password ∈ pages := by
  unfold World.login
  split
  · decide
  · decide

theorem check_page {w w' : World} {flag : UInt8} {name password page : List UInt8}
    (h : w.check flag name password = .ok (w', page)) : page ∈ pages := by
  unfold World.check at h
  split at h
  · split at h
    · have hpage : (w.register name password).2 = page := congrArg Prod.snd (Except.ok.inj h)
      exact hpage ▸ register_page w name password
    · cases h
  · have hpage : w.login name password = page := congrArg Prod.snd (Except.ok.inj h)
    exact hpage ▸ login_page w name password

theorem pages_ne_cr {page : List UInt8} (h : page ∈ pages) {b : UInt8} (hb : b ∈ page ++ [0]) :
    b ≠ cr := by
  have hall : ∀ page ∈ pages, (page ++ [0]).all (fun b => b != cr) = true := by decide +kernel
  exact bne_iff_ne.mp (List.all_eq_true.mp (hall page h) b hb)

/-- Of the parser, login and registration change the buffer only, and write no CR. -/
theorem cgiBranch_buffer {w : World} {s : Parser} {real : Mem} {url p : Nat}
    {r : World × Parser × Mem} (h : cgiBranch w s real url p = .ok r) :
    ∃ buf, r.2.1 = { s with readBuf := buf } ∧ ∀ j, buf j = cr → s.readBuf j = cr := by
  unfold cgiBranch at h
  split at h
  · unfold cgiRequest at h
    obtain ⟨rest, -, h⟩ := bind_ok.mp h
    split at h
    · dsimp only at h
      split at h
      · cases h
      · obtain ⟨⟨name, password⟩, -, h⟩ := bind_ok.mp h
        obtain ⟨⟨w', page⟩, hcheck, h⟩ := bind_ok.mp h
        obtain ⟨buf, hbuf, h⟩ := bind_ok.mp h
        cases h
        refine ⟨buf, rfl, fun j hj => ?_⟩
        unfold strcatAt at hbuf
        split at hbuf
        · obtain rfl := Except.ok.inj hbuf
          rcases writeBytes_cases s.readBuf url (page ++ [0]) j with hold | hnew
          · exact hold.symm.trans hj
          · exact absurd hj (pages_ne_cr (check_page hcheck) hnew)
        · cases hbuf
    · cases h
  · cases h
    exact ⟨s.readBuf, rfl, fun _ hj => hj⟩

theorem resolve_buffer {w : World} {s : Parser} {real : Mem} {r : World × Parser × Mem}
    (h : resolve w s real = .ok r) :
    ∃ buf, r.2.1 = { s with readBuf := buf } ∧ ∀ j, buf j = cr → s.readBuf j = cr := by
  unfold resolve at h
  dsimp only at h
  split at h
  · cases h
  · obtain ⟨p, -, h⟩ := bind_ok.mp h
    split at h
    · cases h
    · obtain ⟨⟨w', s', real'⟩, hbranch, h⟩ := bind_ok.mp h
      obtain ⟨real'', -, h⟩ := bind_ok.mp h
      have hsame := cgiBranch_buffer hbranch
      cases h
      exact hsame

/-- No byte of a page stands for another page. -/
theorem flagPage_page {page : List UInt8} (h : page ∈ pages) {b : UInt8} (hb : b ∈ page ++ [0]) :
    flagPage b = none := by
  have hall : ∀ page ∈ pages, (page ++ [0]).all (fun b => (flagPage b).isNone) = true := by
    decide +kernel
  exact Option.isNone_iff_eq_none.mp (List.all_eq_true.mp (hall page h) b hb)

/-- The path in `m_real_file`: as much of the file's name as is copied, if a NUL ends it. -/
theorem cstring_realFile {real : Mem} {file : List UInt8} {n : Nat} (hfile : ∀ b ∈ file, b ≠ 0)
    (hpos : 0 < n) (hroom : docRoot.length + n < filenameLen)
    (hnul : file.length < n ∨ real (docRoot.length + n) = 0) :
    cstring (strncpy (writeBytes real 0 (docRoot ++ [0])) docRoot.length file n) filenameLen 0 =
      .ok (docRoot ++ file.take n) := by
  have hlen : (docRoot ++ [0]).length = docRoot.length + 1 := by simp
  have hroot : ∀ k (hk : k < docRoot.length),
      strncpy (writeBytes real 0 (docRoot ++ [0])) docRoot.length file n (0 + k) = docRoot[k] := by
    intro k hk
    have hmem : k < (docRoot ++ [0]).length := by omega
    have hbyte := writeBytes_of_mem (m := real) (i := 0) hmem
    rw [List.getElem_append_left hk] at hbyte
    rw [strncpy_of_lt (by omega), hbyte]
  have hstring := hasString_strncpy (m := writeBytes real 0 (docRoot ++ [0]))
    (i := docRoot.length) hfile (hnul.imp_right fun h => by
      rw [writeBytes_of_ge (by omega)]
      exact h)
  have hwhole := HasString.front (i := 0) hroot docRoot_nonzero
    (by rw [Nat.zero_add]; exact hstring)
  refine cstring_string hwhole ?_
  rw [List.length_append, List.length_take]
  omega

/-- What login and registration come to. -/
theorem cgiRequest_ok {w w' : World} {s s' : Parser} {real real' : Mem} {url p : Nat}
    (h : cgiRequest w s real url p = .ok (w', s', real')) :
    ∃ rest text name password page, cstring s.readBuf readBufferSize (url + 2) = .ok rest ∧
      rest.length + 2 ≤ 200 ∧ s.string = some text ∧
      credentials s.readBuf text = .ok (name, password) ∧
      w.check (s.readBuf (p + 1)) name password = .ok (w', page) ∧
      s'.readBuf = writeBytes s.readBuf url (page ++ [0]) ∧ url + page.length < readBufferSize ∧
      real' = strncpy real docRoot.length (bytes "/" ++ rest) urlRoom := by
  unfold cgiRequest at h
  obtain ⟨rest, hrest, h⟩ := bind_ok.mp h
  split at h
  · rename_i hfit
    cases htext : s.string with
    | none =>
      rw [htext] at h
      cases h
    | some text =>
      rw [htext] at h
      obtain ⟨⟨name, password⟩, hcred, h⟩ := bind_ok.mp h
      obtain ⟨⟨w₁, page⟩, hcheck, h⟩ := bind_ok.mp h
      obtain ⟨buf, hbuf, h⟩ := bind_ok.mp h
      cases h
      unfold strcatAt at hbuf
      split at hbuf
      · exact ⟨rest, text, name, password, page, hrest, hfit, rfl, hcred, hcheck,
          (Except.ok.inj hbuf).symm, by omega, rfl⟩
      · cases hbuf
  · cases h

theorem pageFile_url {s : Parser} {real real' : Mem} {url p : Nat} {u : List UInt8}
    (hflag : flagPage (s.readBuf (p + 1)) = none)
    (hu : cstring s.readBuf readBufferSize url = .ok u) (h : pageFile s real url p = .ok real') :
    real' = strncpy real docRoot.length u urlRoom := by
  unfold pageFile at h
  rw [hflag, hu] at h
  exact (Except.ok.inj h).symm

/-- `*(p + 1)` as it is read again behind the login or registration: a byte of the page that was
copied there, or the flag that it was. -/
theorem flag_again {m : Mem} {u p : Nat} {page : List UInt8} (hpage : page ∈ pages)
    (hflag : m (p + 1) = 50 ∨ m (p + 1) = 51) :
    flagPage (writeBytes m u (page ++ [0]) (p + 1)) = none := by
  rcases writeBytes_cases m u (page ++ [0]) (p + 1) with hold | hnew
  · rw [hold]
    rcases hflag with hb | hb <;> rw [hb] <;> decide
  · exact flagPage_page hpage hnew

/-- `cgi == 1 && (*(p + 1) == '2' || *(p + 1) == '3')` -/
def Parser.IsCgi (s : Parser) (flag : UInt8) : Prop := s.cgi = true ∧ (flag = 50 ∨ flag = 51)

instance (s : Parser) (flag : UInt8) : Decidable (s.IsCgi flag) := by
  unfold Parser.IsCgi
  infer_instance

/-- The name that `do_request` copies behind the document root, and how many bytes it copies. -/
inductive FileChosen (w : World) (s : Parser) (url : List UInt8) (flag : UInt8) :
    List UInt8 → Nat → Prop
  | cgi (hcgi : s.IsCgi flag) {text : Nat}
      {name password page : List UInt8} {w' : World} (hfit : url.length ≤ 200)
      (htext : s.string = some text) (hcred : credentials s.readBuf text = .ok (name, password))
      (hcheck : w.check flag name password = .ok (w', page)) :
      FileChosen w s url flag page urlRoom
  | page (hcgi : ¬ s.IsCgi flag) {page : List UInt8}
      (h : flagPage flag = some page) : FileChosen w s url flag page page.length
  | url (hcgi : ¬ s.IsCgi flag) (h : flagPage flag = none) :
      FileChosen w s url flag url urlRoom

/-- The byte behind the last slash, where there is one. -/
theorem strrchr_some {m : Mem} {u p : Nat} {url : List UInt8}
    (hstr : cstring m readBufferSize u = .ok url)
    (hp : strrchr m readBufferSize u slash = .ok (some p)) :
    slash ∈ url ∧ u ≤ p ∧ p < u + url.length := by
  rw [strrchr, hstr] at hp
  replace hp := Except.ok.inj hp
  obtain ⟨k, hk, hpk⟩ := Option.map_eq_some_iff.mp hp
  have hmem : slash ∈ url :=
    List.mem_reverse.mp (List.isSome_idxOf?.mp (Option.isSome_iff_exists.mpr ⟨k, hk⟩))
  have hpos : 0 < url.length := List.length_pos_of_mem hmem
  exact ⟨hmem, by omega, by omega⟩

/-- `m_url + 2` is inside a URL whose last segment has a flag: a byte other than the NUL follows a
slash. -/
theorem url_rest {m : Mem} {u p : Nat} {url : List UInt8}
    (hstr : cstring m readBufferSize u = .ok url)
    (hp : strrchr m readBufferSize u slash = .ok (some p))
    (hflag : m (p + 1) = 50 ∨ m (p + 1) = 51) :
    2 ≤ url.length ∧ cstring m readBufferSize (u + 2) = .ok (url.drop 2) := by
  obtain ⟨hstring, hsize⟩ := hasString_cstring hstr
  obtain ⟨-, hle, hlt⟩ := strrchr_some hstr hp
  have hnul : p + 1 ≠ u + url.length := by
    intro heq
    have h0 : m (p + 1) = 0 := by
      rw [heq]
      exact hstring.nul
    rcases hflag with hb | hb <;> rw [h0] at hb <;> exact absurd hb (by decide)
  have hlen : 2 ≤ url.length := by omega
  refine ⟨hlen, cstring_string (hstring.drop hlen) ?_⟩
  rw [List.length_drop]
  omega

/-- **What `m_real_file` is made of.** The second copy replaces the first wherever it was, and `p`
does not lead astray in the URL that has become a page. -/
theorem resolve_chosen {w w' : World} {s s' : Parser} {real real' : Mem} {u p : Nat}
    {url : List UInt8} (hurl : s.url = some u) (hstr : cstring s.readBuf readBufferSize u = .ok url)
    (hp : strrchr s.readBuf readBufferSize u slash = .ok (some p))
    (h : resolve w s real = .ok (w', s', real')) :
    ∃ file n, FileChosen w s url (s.readBuf (p + 1)) file n ∧
      real' = strncpy (writeBytes real 0 (docRoot ++ [0])) docRoot.length file n := by
  unfold resolve at h
  simp only [hurl] at h
  obtain ⟨p', hp', h⟩ := bind_ok.mp h
  obtain rfl : some p = p' := Except.ok.inj (hp.symm.trans hp')
  obtain ⟨⟨w₁, s₁, real₁⟩, hbranch, h⟩ := bind_ok.mp h
  obtain ⟨real₂, hfile, h⟩ := bind_ok.mp h
  cases h
  unfold cgiBranch at hbranch
  split at hbranch
  · rename_i hcgi
    obtain ⟨rest, text, name, password, page, hrest, hfit, htext, hcred, hcheck, hbuf, hroom,
      hreal⟩ := cgiRequest_ok hbranch
    have hpage := check_page hcheck
    obtain ⟨-, -, hnonzero⟩ := pages_fit hpage
    have hpagestr : cstring s₁.readBuf readBufferSize u = .ok page := by
      rw [hbuf]
      exact cstring_string (hasString_writeBytes_nul s.readBuf u hnonzero) hroom
    have hflag : flagPage (s₁.readBuf (p + 1)) = none := by
      rw [hbuf]
      exact flag_again hpage hcgi.2
    have hreal₂ := pageFile_url hflag hpagestr hfile
    rw [hreal, strncpy_strncpy] at hreal₂
    refine ⟨page, urlRoom, .cgi hcgi ?_ htext hcred hcheck, hreal₂⟩
    obtain ⟨hlen, hurlrest⟩ := url_rest hstr hp hcgi.2
    rw [hurlrest] at hrest
    obtain rfl := Except.ok.inj hrest
    rw [List.length_drop] at hfit
    omega
  · rename_i hcgi
    cases hbranch
    cases hflag : flagPage (s.readBuf (p + 1)) with
    | some page =>
      unfold pageFile at hfile
      rw [hflag] at hfile
      exact ⟨page, page.length, .page hcgi hflag, (Except.ok.inj hfile).symm⟩
    | none => exact ⟨url, urlRoom, .url hcgi hflag, pageFile_url hflag hstr hfile⟩

/-- What the name is, and that its copy leaves a string in `m_real_file`. -/
theorem FileChosen.fits {w : World} {s : Parser} {url file : List UInt8} {flag : UInt8} {n : Nat}
    (h : FileChosen w s url flag file n) (hurl : ∀ b ∈ url, b ≠ 0) :
    (file ∈ pages ∧ file.length ≤ n ∨ file = url ∧ n = urlRoom) ∧ (∀ b ∈ file, b ≠ 0) ∧
      0 < n ∧ docRoot.length + n < filenameLen := by
  have hroom : 0 < urlRoom ∧ docRoot.length + urlRoom < filenameLen := by decide
  cases h with
  | cgi hcgi hfit htext hcred hcheck =>
    obtain ⟨hfit, -, hnonzero⟩ := pages_fit (check_page hcheck)
    exact ⟨Or.inl ⟨check_page hcheck, hfit⟩, hnonzero, hroom⟩
  | page hcgi hflag =>
    obtain ⟨hfit, hslash, hnonzero⟩ := pages_fit (flagPage_mem hflag)
    have hpos : 0 < file.length := by
      cases file with
      | nil => cases hslash
      | cons b bs => exact Nat.zero_lt_succ _
    exact ⟨Or.inl ⟨flagPage_mem hflag, Nat.le_refl _⟩, hnonzero, hpos, by omega⟩
  | url hcgi hflag => exact ⟨Or.inr ⟨rfl, rfl⟩, hurl, hroom⟩

/-- **The path of a request.** A fixed page, or as much of the URL as fits. -/
theorem resolve_path {w w' : World} {s s' : Parser} {real : Mem} {u : Nat} {url path : List UInt8}
    (hurl : s.url = some u) (hstr : cstring s.readBuf readBufferSize u = .ok url)
    (h : resolve w s (fun _ => 0) = .ok (w', s', real))
    (hpath : cstring real filenameLen 0 = .ok path) :
    slash ∈ url ∧ ∃ file ∈ url.take urlRoom :: pages, path = docRoot ++ file := by
  obtain ⟨p, hp⟩ : ∃ p, strrchr s.readBuf readBufferSize u slash = .ok (some p) := by
    unfold resolve at h
    simp only [hurl] at h
    obtain ⟨p, hp, h⟩ := bind_ok.mp h
    cases p with
    | none => cases h
    | some p => exact ⟨p, hp⟩
  refine ⟨(strrchr_some hstr hp).1, ?_⟩
  obtain ⟨file, n, hchosen, rfl⟩ := resolve_chosen hurl hstr hp h
  obtain ⟨hfile, hnonzero, hpos, hroom⟩ := hchosen.fits (hasString_cstring hstr).1.nonzero
  rw [cstring_realFile hnonzero hpos hroom (Or.inr rfl)] at hpath
  obtain rfl := Except.ok.inj hpath
  rcases hfile with ⟨hpage, hfit⟩ | ⟨rfl, rfl⟩
  · rw [List.take_of_length_le hfit]
    exact ⟨file, List.mem_cons_of_mem _ hpage, rfl⟩
  · exact ⟨_, List.mem_cons_self .., rfl⟩

end TinyHTTP.Http
