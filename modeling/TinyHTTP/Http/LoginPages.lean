import TinyHTTP.Http.PathBuffer

/-!
# TinyHTTP — the pages of login and registration

`do_request` has read the flag behind the last slash when it puts a page into `m_url`,
and it reads `*(p + 1)` again afterwards. Wherever `p` points then, the page is
served: no byte of a page is the flag of another one.

* `credentials_body` — the name and the password of a body.
* `resolve_cgi` — the page that is put into `m_url` ends up in `m_real_file`.
* `login_registration_page` — which page that is.
-/

namespace TinyHTTP.Http

open TinyHTTP.Lib

/-- The body that the forms of the pages send. -/
def loginBody (name password : List UInt8) : List UInt8 :=
  bytes "user=" ++ name ++ bytes "&password=" ++ password

/-- `do_request` is called for a POST of this URL, with this body. -/
structure Posted (s₀ s : Parser) (url body : List UInt8) : Prop where
  reading : Reading s₀
  content : ∃ t, ParsesContent s₀ t ∧
    parseContent t.nextLine t.startLine = .ok (.getRequest, s) ∧ t.contentLength = body.length
  post : s.cgi = true
  url : ∃ u, s.url = some u ∧ cstring s.readBuf readBufferSize u = .ok url
  body : s.body body.length = body

/-- The page that should answer: for flag `'2'` a login, for flag `'3'` a registration. -/
def World.answerPage (w : World) (flag : UInt8) (name password : List UInt8) : List UInt8 :=
  if flag = 50 then
    if w.users name = some password then bytes "/welcome.html" else bytes "/logError.html"
  else
    if w.users name = none ∧ w.mysqlQuery (sqlInsert name password) = true then bytes "/log.html"
    else bytes "/registerError.html"

-- ---------------------------------------------------------------------------
-- The body
-- ---------------------------------------------------------------------------

section
variable {name password : List UInt8}

theorem loginBody_length :
    (loginBody name password).length = 15 + name.length + password.length := by
  have h₁ : (bytes "user=").length = 5 := by decide
  have h₂ : (bytes "&password=").length = 10 := by decide
  simp only [loginBody, List.length_append, h₁, h₂]
  omega

/-- From the name on. -/
theorem loginBody_name : (loginBody name password).drop 5 =
    name ++ 38 :: (bytes "password=" ++ password) := by
  have h₁ : (bytes "user=").length = 5 := by decide
  have h₂ : bytes "&password=" = 38 :: bytes "password=" := by decide
  rw [loginBody, List.append_assoc, List.append_assoc, ← h₁, List.drop_left, h₂, List.cons_append]

theorem loginBody_password : (loginBody name password).drop (5 + name.length + 10) = password := by
  have h₁ : (bytes "user=" ++ name ++ bytes "&password=").length = 5 + name.length + 10 := by
    rw [List.length_append, List.length_append]
    rfl
  rw [loginBody, ← h₁, List.drop_left]

/-- The loops over a body find its name and its password. -/
theorem credentials_body {s : Parser} {text : Nat} (htext : s.string = some text)
    (hnul : s.readBuf (text + (loginBody name password).length) = 0)
    (hfit : text + (loginBody name password).length + 1 ≤ readBufferSize)
    (hbody : s.body (loginBody name password).length = loginBody name password)
    (hname : ∀ b ∈ name, b ≠ 38 ∧ b ≠ 0) (hpassword : ∀ b ∈ password, b ≠ 0)
    (hn : name.length ≤ 99) (hp : password.length ≤ 99) :
    credentials s.readBuf text = .ok (name, password) := by
  rw [Parser.body, htext] at hbody
  simp only at hbody
  have hlen := @loginBody_length name password
  have hfirst : name = ((loginBody name password).drop 5).takeWhile (fun b => decide (b ≠ 38)) := by
    rw [loginBody_name, takeWhile_stop (fun b hb => by simpa using (hname b hb).1) (by decide)]
  have hsecond : password = ((loginBody name password).drop (5 + name.length + 10)).takeWhile
      (fun b => decide (b ≠ 0)) := by
    rw [loginBody_password]
    exact (List.takeWhile_eq_self_iff.mpr fun b hb => by simpa using hpassword b hb).symm
  have hcopy := (name_within hnul).mpr ⟨by rw [hbody]; exact hfirst, by omega, hn⟩
  have hplace : text + 5 + name.length + 10 = text + (5 + name.length + 10) := by omega
  have hcopy' := (password_within hnul hplace).mpr ⟨by rw [hbody]; exact hsecond, by omega, hp⟩
  have hstring : asString name = name :=
    List.takeWhile_eq_self_iff.mpr fun b hb => by simpa using (hname b hb).2
  rw [credentials_eq, credentialsWithin, bind_ok]
  refine ⟨name, copyWithin_mono hfit hcopy, bind_ok.mpr ⟨password, ?_, ?_⟩⟩
  · exact copyWithin_mono hfit hcopy'
  · rw [hstring]
    rfl

end

-- ---------------------------------------------------------------------------
-- The page
-- ---------------------------------------------------------------------------

theorem pages_short {page : List UInt8} (h : page ∈ pages) : page.length ≤ 19 := by
  have hall : ∀ page ∈ pages, page.length ≤ 19 := by decide +kernel
  exact hall page h

/-- `do_request` chooses the page, where the statement fits into `sql_insert`. -/
theorem check_answerPage (w : World) {flag : UInt8} {name password : List UInt8}
    (hflag : flag = 50 ∨ flag = 51) (hsql : flag = 51 → name.length + password.length ≤ 150) :
    ∃ w', w.check flag name password = .ok (w', w.answerPage flag name password) := by
  rcases hflag with rfl | rfl
  · exact ⟨w, rfl⟩
  · have hfit : (sqlInsert name password).length + 1 ≤ 200 := by
      have := hsql rfl
      rw [sqlInsert_length]
      omega
    refine ⟨(w.register name password).1, ?_⟩
    have hpage : (w.register name password).2 = w.answerPage 51 name password := by
      have hkind : ¬ (51 : UInt8) = 50 := by decide
      unfold World.register World.answerPage
      rw [if_neg hkind]
      cases hu : w.users name with
      | some old => simp
      | none =>
        by_cases hq : w.mysqlQuery (sqlInsert name password) = true
        · simp only [hq, and_self, if_true]
        · simp only [hq, and_false, if_false, Bool.false_eq_true]
    rw [World.check, if_pos rfl, if_pos hfit, ← hpage]

/-- **Whatever the URL and `m_real_file` held.** The page put into `m_url` is what ends up behind
the document root. -/
theorem resolve_cgi {w w' : World} {s : Parser} {u p text : Nat}
    {url name password page : List UInt8}
    (hurl : s.url = some u) (hstr : cstring s.readBuf readBufferSize u = .ok url)
    (hp : strrchr s.readBuf readBufferSize u slash = .ok (some p))
    (hcgi : s.IsCgi (s.readBuf (p + 1))) (hfit : url.length ≤ 200) (htext : s.string = some text)
    (hcred : credentials s.readBuf text = .ok (name, password))
    (hcheck : w.check (s.readBuf (p + 1)) name password = .ok (w', page))
    (hroom : u + page.length + 1 ≤ readBufferSize) (real : Mem) :
    ∃ s', resolve w s real = .ok (w', s',
      strncpy (writeBytes real 0 (docRoot ++ [0])) docRoot.length page urlRoom) := by
  obtain ⟨hlen, hrest⟩ := url_rest hstr hp hcgi.2
  have hpage := check_page hcheck
  have hone : (url.drop 2).length + 2 ≤ 200 := by
    rw [List.length_drop]
    omega
  generalize hroot : writeBytes real 0 (docRoot ++ [0]) = root
  have hbranch : cgiBranch w s root u p = .ok (w',
      { s with readBuf := writeBytes s.readBuf u (page ++ [0]) },
      strncpy root docRoot.length (bytes "/" ++ url.drop 2) urlRoom) := by
    have hcat : strcatAt s.readBuf u page = .ok (writeBytes s.readBuf u (page ++ [0])) :=
      if_pos hroom
    have hcgi' : s.cgi = true ∧ (s.readBuf (p + 1) = 50 ∨ s.readBuf (p + 1) = 51) := hcgi
    rw [cgiBranch, if_pos hcgi']
    simp only [cgiRequest, hrest, bind, Except.bind, if_pos hone, htext, hcred, hcheck, hcat]
    rfl
  have hfile : pageFile { s with readBuf := writeBytes s.readBuf u (page ++ [0]) }
      (strncpy root docRoot.length (bytes "/" ++ url.drop 2) urlRoom) u p =
      .ok (strncpy root docRoot.length page urlRoom) := by
    have hagain := flag_again (u := u) hpage hcgi.2
    have hpagestr : cstring (writeBytes s.readBuf u (page ++ [0])) readBufferSize u = .ok page :=
      cstring_string (hasString_writeBytes_nul s.readBuf u (pages_fit hpage).2.2) (by omega)
    simp only [pageFile, hagain, hpagestr, bind, Except.bind]
    exact congrArg Except.ok (strncpy_strncpy _ _ _ _ _)
  subst hroot
  exact ⟨_, resolve_of hurl hp hbranch hfile⟩

-- ---------------------------------------------------------------------------
-- The result
-- ---------------------------------------------------------------------------

/-- What `parse_content` leaves for `do_request`: the body behind its NUL, and the URL far enough
in front of it for every page. -/
theorem Posted.places {s₀ s : Parser} {url body : List UInt8} (h : Posted s₀ s url body) :
    ∃ u text, s.url = some u ∧ cstring s.readBuf readBufferSize u = .ok url ∧
      s.string = some text ∧ s.readBuf (text + body.length) = 0 ∧ u + 12 ≤ text ∧
      text + body.length + 1 ≤ readBufferSize := by
  obtain ⟨t, ht, hcontent, hn⟩ := h.content
  obtain ⟨u, hurl, hstr⟩ := h.url
  obtain ⟨htext, hnul, hfit⟩ := parseContent_admits hcontent (n := body.length) hn
  obtain ⟨u', hurl', hplace, -⟩ := (reading_inv h.reading).content ht.enters ht.checkState
  have hkept : s.url = t.url := (parseContent_kept hcontent).1.url
  obtain rfl : u' = u := Option.some.inj (hurl'.symm.trans (hkept.symm.trans hurl))
  exact ⟨u', t.startLine, hurl, hstr, htext, hnul, hplace, hfit⟩

/-- **Login and registration.** For every `users` map, every name and password that fit the arrays
and every URL that fits `m_url_real`, the path is the document root and the page that answers the
request, whatever directories the URL has and whatever `m_real_file` held. -/
theorem login_registration_page {s₀ s : Parser} {url name password : List UInt8} {flag : UInt8}
    (h : Posted s₀ s url (loginBody name password)) (hflag : s.flag = some flag)
    (hkind : flag = 50 ∨ flag = 51) (hurl : url.length ≤ 200)
    (hname : ∀ b ∈ name, b ≠ 38 ∧ b ≠ 0) (hpassword : ∀ b ∈ password, b ≠ 0)
    (hn : name.length ≤ 99) (hp : password.length ≤ 99)
    (hsql : flag = 51 → name.length + password.length ≤ 150) (w : World) (real : Mem) :
    ∃ w' s' real', resolve w s real = .ok (w', s', real') ∧
      cstring real' filenameLen 0 = .ok (docRoot ++ w.answerPage flag name password) := by
  obtain ⟨u, text, hpointer, hstr, htext, hnul, hplace, hfit⟩ := h.places
  obtain ⟨p, hlast, rfl⟩ : ∃ p, strrchr s.readBuf readBufferSize u slash = .ok (some p) ∧
      s.readBuf (p + 1) = flag := by
    simp only [Parser.flag, hpointer] at hflag
    split at hflag
    · rename_i p hlast
      exact ⟨p, hlast, Option.some.inj hflag⟩
    · cases hflag
  have hcred := credentials_body htext hnul hfit h.body hname hpassword hn hp
  obtain ⟨w', hcheck⟩ := check_answerPage w hkind hsql
  have hpage := check_page hcheck
  have hshort := pages_short hpage
  have hlen := @loginBody_length name password
  obtain ⟨s', hresolve⟩ := resolve_cgi hpointer hstr hlast ⟨h.post, hkind⟩ hurl htext hcred hcheck
    (by omega) real
  have hroom : urlRoom = 169 ∧ docRoot.length + urlRoom < filenameLen := by decide
  refine ⟨w', s', _, hresolve, ?_⟩
  rw [cstring_realFile (pages_fit hpage).2.2 (by omega) hroom.2 (Or.inl (by omega)),
    List.take_of_length_le (by omega)]

/-- One user, `a` with the password `b`. -/
def knownUser : World where
  file := fun _ => none
  users := fun name => if name = bytes "a" then some (bytes "b") else none
  mysqlQuery := fun _ => true

/-- The user logs in, over whatever `m_real_file` held. -/
theorem login_registration_page_login : ∃ s, Posted (received (loginWith "user=a&password=b")) s
    (bytes "/2") (loginBody (bytes "a") (bytes "b")) ∧ ∃ w' s' real',
      resolve knownUser s (fun _ => 1) = .ok (w', s', real') ∧
      cstring real' filenameLen 0 = .ok (docRoot ++ bytes "/welcome.html") := by
  have hrun : (admitted (loginWith "user=a&password=b")).any (fun r =>
      decide (r.1.contentLength = 17) && r.2.cgi && decide (r.2.flag = some 50) &&
        decide (r.2.body 17 = loginBody (bytes "a") (bytes "b")) &&
        r.2.url.any (fun u => decide ((cstring r.2.readBuf readBufferSize u).toOption =
          some (bytes "/2")))) = true := by decide +kernel
  obtain ⟨⟨t, s⟩, hadmitted, hcheck⟩ := (Option.any_eq_true _ _).mp hrun
  simp only [Bool.and_eq_true, decide_eq_true_eq] at hcheck
  obtain ⟨⟨⟨⟨hlength, hcgi⟩, hflag⟩, hbody⟩, hurl⟩ := hcheck
  obtain ⟨u, hpointer, hstr⟩ := (Option.any_eq_true _ _).mp hurl
  obtain ⟨hparses, hcontent⟩ := admitted_parsesContent hadmitted
  have hstring : cstring s.readBuf readBufferSize u = .ok (bytes "/2") := by
    have hsome := of_decide_eq_true hstr
    cases hc : cstring s.readBuf readBufferSize u with
    | error f => simp [hc, Except.toOption] at hsome
    | ok str => simpa [hc, Except.toOption] using hsome
  have hposted : Posted (received (loginWith "user=a&password=b")) s (bytes "/2")
      (loginBody (bytes "a") (bytes "b")) :=
    ⟨reading_received (by decide) (by decide +kernel), ⟨t, hparses, hcontent, hlength⟩, hcgi,
      ⟨u, hpointer, hstring⟩, hbody⟩
  have hpage : knownUser.answerPage 50 (bytes "a") (bytes "b") = bytes "/welcome.html" := by
    decide +kernel
  refine ⟨s, hposted, ?_⟩
  rw [← hpage]
  exact login_registration_page hposted hflag (Or.inl rfl) (by decide) (by decide +kernel)
    (by decide +kernel) (by decide) (by decide) (fun h => absurd h (by decide)) knownUser _

end TinyHTTP.Http
