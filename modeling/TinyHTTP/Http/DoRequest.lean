import TinyHTTP.Http.LoginPages

/-!
# TinyHTTP — where do_request comes to its end

`process_read` calls `do_request` in its return statement. What keeps that call from a
defined end is a URL that is no string or has no slash, a login or registration without
a body, and fields of the body that are longer than the arrays they are copied to: the
loops over them stop at a `&` and at a NUL, wherever in the read buffer those are.

* `credentials_run_iff` — the two loops and `sql_insert`.
* `doRequest_ok_iff` — all of `do_request`.
-/

namespace TinyHTTP.Http

open TinyHTTP.Lib

/-- The loops over the name and the password end in the read buffer, whose bytes from `m_string` on
are `rest`, and what they copy fits. -/
def FieldsEnd (flag : UInt8) (rest : List UInt8) : Prop :=
  let name := (rest.drop 5).takeWhile fun b => b ≠ 38
  let password := (rest.drop (5 + name.length + 10)).takeWhile fun b => b ≠ 0
  5 + name.length < rest.length ∧ name.length ≤ 99 ∧
    5 + name.length + 10 + password.length < rest.length ∧ password.length ≤ 99 ∧
    (flag = 51 → (asString name).length + password.length ≤ 150)

/-- What `do_request` needs: a URL with a slash and, for a login or registration, a URL that fits
`m_url_real` and a body whose fields end. -/
def RequestFits (s : Parser) : Prop :=
  ∃ u url flag, s.url = some u ∧ cstring s.readBuf readBufferSize u = .ok url ∧
    s.flag = some flag ∧ (s.IsCgi flag → url.length ≤ 200 ∧ ∃ text, s.string = some text ∧
      FieldsEnd flag (slice s.readBuf text (readBufferSize - text)))

/-- The page that answers a login or registration stays in the read buffer. -/
def PageInside (w : World) (s : Parser) : Prop :=
  ∀ u flag text name password w' page, s.url = some u → s.flag = some flag → s.IsCgi flag →
    s.string = some text → credentials s.readBuf text = .ok (name, password) →
    w.check flag name password = .ok (w', page) → u + page.length + 1 ≤ readBufferSize

-- ---------------------------------------------------------------------------
-- The fields
-- ---------------------------------------------------------------------------

theorem drop_slice (m : Mem) (i n k : Nat) : (slice m i n).drop k = slice m (i + k) (n - k) := by
  refine List.ext_getElem (by simp [slice]) fun j _ _ => ?_
  simp [slice, Nat.add_assoc]

/-- **The loops** over name and password, and the text of the INSERT. -/
theorem credentials_run_iff {buf : Mem} {text : Nat} {flag : UInt8} :
    (∃ name password, credentials buf text = .ok (name, password) ∧
      (flag = 51 → (sqlInsert name password).length + 1 ≤ 200)) ↔
    FieldsEnd flag (slice buf text (readBufferSize - text)) := by
  unfold FieldsEnd
  simp only [drop_slice, length_slice, credentials_eq, credentialsWithin]
  constructor
  · rintro ⟨name, password, h, hinsert⟩
    obtain ⟨name', hname, h⟩ := bind_ok.mp h
    obtain ⟨password', hpassword, h⟩ := bind_ok.mp h
    cases h
    obtain ⟨hname', h₁, h₂⟩ := copyWithin_iff.mp hname
    obtain ⟨hpassword', h₃, h₄⟩ := copyWithin_iff.mp hpassword
    rw [sqlInsert_length] at hinsert
    have hsize : readBufferSize - (text + 5) = readBufferSize - text - 5 := by omega
    have hsize' : readBufferSize - (text + 5 + name'.length + 10) =
        readBufferSize - text - (5 + name'.length + 10) := by omega
    rw [hsize] at hname' h₁
    rw [hsize', Nat.add_assoc text, Nat.add_assoc text] at hpassword'
    rw [hsize'] at h₃
    rw [← hname', ← hpassword']
    exact ⟨by omega, by omega, by omega, by omega, fun hflag => by have := hinsert hflag; omega⟩
  · generalize hn : (slice buf (text + 5) (readBufferSize - text - 5)).takeWhile
      (fun b => decide (b ≠ 38)) = name
    generalize hp : (slice buf (text + (5 + name.length + 10))
      (readBufferSize - text - (5 + name.length + 10))).takeWhile
      (fun b => decide (b ≠ 0)) = password
    rintro ⟨h₁, h₂, h₃, h₄, hinsert⟩
    have hsize : readBufferSize - text - 5 = readBufferSize - (text + 5) := by omega
    have hsize' : readBufferSize - text - (5 + name.length + 10) =
        readBufferSize - (text + (5 + name.length + 10)) := by omega
    rw [hsize] at hn
    rw [hsize'] at hp
    refine ⟨asString name, password, ?_, fun hflag => ?_⟩
    · refine bind_ok.mpr ⟨name, copyWithin_iff.mpr ⟨hn.symm, by omega, by omega⟩, ?_⟩
      refine bind_ok.mpr ⟨password, ?_, rfl⟩
      rw [Nat.add_assoc text, Nat.add_assoc text]
      exact copyWithin_iff.mpr ⟨hp.symm, by omega, by omega⟩
    · have := hinsert hflag
      rw [sqlInsert_length]
      omega

/-- `sql_insert` is all that the check needs. -/
theorem check_ok_iff {w : World} {flag : UInt8} {name password : List UInt8} :
    (∃ r, w.check flag name password = .ok r) ↔
      (flag = 51 → (sqlInsert name password).length + 1 ≤ 200) := by
  unfold World.check
  by_cases hflag : flag = 51
  · by_cases hfit : (sqlInsert name password).length + 1 ≤ 200
    · rw [if_pos hflag, if_pos hfit]
      exact iff_of_true ⟨_, rfl⟩ fun _ => hfit
    · rw [if_pos hflag, if_neg hfit]
      exact iff_of_false (fun ⟨r, hr⟩ => by cases hr) fun h => hfit (h hflag)
  · rw [if_neg hflag]
    exact iff_of_true ⟨_, rfl⟩ fun h => absurd h hflag

-- ---------------------------------------------------------------------------
-- Up to stat
-- ---------------------------------------------------------------------------

section
variable {w w' : World} {s s' : Parser} {real real' : Mem}

/-- The URL that `do_request` has looked at. -/
theorem resolve_url_ok (h : resolve w s real = .ok (w', s', real')) :
    ∃ u url p, s.url = some u ∧ cstring s.readBuf readBufferSize u = .ok url ∧
      strrchr s.readBuf readBufferSize u slash = .ok (some p) := by
  unfold resolve at h
  cases hurl : s.url with
  | none =>
    rw [hurl] at h
    cases h
  | some u =>
    simp only [hurl] at h
    obtain ⟨p, hp, h⟩ := bind_ok.mp h
    cases p with
    | none => cases h
    | some p =>
      obtain ⟨url, hstr, -⟩ := bind_ok.mp hp
      exact ⟨u, url, p, rfl, hstr, hp⟩

/-- A request that gets to `stat` fits. -/
theorem requestFits_of_resolve (h : resolve w s real = .ok (w', s', real')) : RequestFits s := by
  obtain ⟨u, url, p, hurl, hstr, hp⟩ := resolve_url_ok h
  obtain ⟨file, n, hchosen, -⟩ := resolve_chosen hurl hstr hp h
  refine ⟨u, url, s.readBuf (p + 1), hurl, hstr, flag_eq hurl hp, fun hcgi => ?_⟩
  cases hchosen with
  | cgi _ hfit htext hcred hcheck =>
    exact ⟨hfit, _, htext, credentials_run_iff.mp ⟨_, _, hcred, check_ok_iff.mp ⟨_, hcheck⟩⟩⟩
  | page hno | url hno => exact absurd hcgi hno

/-- And so does its page. -/
theorem pageInside_of_resolve (h : resolve w s real = .ok (w', s', real')) : PageInside w s := by
  intro u flag text name password w₁ page hurl hflag hcgi htext hcred hcheck
  obtain ⟨u', url, p, hurl', hstr, hp⟩ := resolve_url_ok h
  obtain rfl := Option.some.inj (hurl.symm.trans hurl')
  obtain rfl := Option.some.inj (hflag.symm.trans (flag_eq hurl hp))
  unfold resolve at h
  simp only [hurl] at h
  obtain ⟨p', hp', h⟩ := bind_ok.mp h
  obtain rfl : some p = p' := Except.ok.inj (hp.symm.trans hp')
  obtain ⟨⟨w₂, s₂, real₂⟩, hbranch, -⟩ := bind_ok.mp h
  have hcgi' : s.cgi = true ∧ (s.readBuf (p + 1) = 50 ∨ s.readBuf (p + 1) = 51) := hcgi
  rw [cgiBranch, if_pos hcgi'] at hbranch
  obtain ⟨rest, text', name', password', page', -, -, htext', hcred', hcheck', -, hroom, -⟩ :=
    cgiRequest_ok hbranch
  obtain rfl := Option.some.inj (htext.symm.trans htext')
  obtain ⟨rfl, rfl⟩ := Prod.mk.inj (Except.ok.inj (hcred.symm.trans hcred'))
  obtain ⟨-, rfl⟩ := Prod.mk.inj (Except.ok.inj (hcheck.symm.trans hcheck'))
  omega

/-- A request that fits gets to `stat`. -/
theorem resolve_of_fits (hfits : RequestFits s) (hinside : PageInside w s) (real : Mem) :
    ∃ w' s' real', resolve w s real = .ok (w', s', real') := by
  obtain ⟨u, url, flag, hurl, hstr, hflag, hcgi⟩ := hfits
  cases hp : strrchr s.readBuf readBufferSize u slash with
  | error f =>
    rw [strrchr, hstr] at hp
    cases hp
  | ok found =>
    cases found with
    | none =>
      rw [flag_null hurl hp] at hflag
      cases hflag
    | some p =>
      obtain rfl := Option.some.inj (hflag.symm.trans (flag_eq hurl hp))
      by_cases hc : s.IsCgi (s.readBuf (p + 1))
      · obtain ⟨hfit, text, htext, hend⟩ := hcgi hc
        obtain ⟨name, password, hcred, hinsert⟩ := credentials_run_iff.mpr hend
        obtain ⟨⟨w', page⟩, hcheck⟩ := (check_ok_iff (w := w)).mpr hinsert
        have hroom := hinside _ _ _ _ _ _ _ hurl hflag hc htext hcred hcheck
        obtain ⟨s', h⟩ := resolve_cgi hurl hstr hp hc hfit htext hcred hcheck hroom real
        exact ⟨_, _, _, h⟩
      · have hbranch : cgiBranch w s (writeBytes real 0 (docRoot ++ [0])) u p =
            .ok (w, s, writeBytes real 0 (docRoot ++ [0])) := if_neg hc
        cases hpage : flagPage (s.readBuf (p + 1)) with
        | none => exact ⟨_, _, _, resolve_url hurl hstr hp hc hpage real⟩
        | some page =>
          have hfile : pageFile s (writeBytes real 0 (docRoot ++ [0])) u p =
              .ok (strncpy (writeBytes real 0 (docRoot ++ [0])) docRoot.length page
                page.length) := by
            simp only [pageFile, hpage]
          exact ⟨_, _, _, resolve_of hurl hp hbranch hfile⟩

/-- The last byte of `m_real_file` is not written to. -/
theorem resolve_last (h : resolve w s real = .ok (w', s', real')) :
    real' (filenameLen - 1) = real (filenameLen - 1) := by
  obtain ⟨u, url, p, hurl, hstr, hp⟩ := resolve_url_ok h
  obtain ⟨file, n, hchosen, rfl⟩ := resolve_chosen hurl hstr hp h
  obtain ⟨-, -, -, hroom⟩ := hchosen.fits (hasString_cstring hstr).1.nonzero
  have hroot : (docRoot ++ [0]).length ≤ filenameLen - 1 := by decide
  rw [strncpy_of_ge (by omega), writeBytes_of_ge (by omega)]

end

-- ---------------------------------------------------------------------------
-- The whole call
-- ---------------------------------------------------------------------------

theorem realFile_openFile (w : World) (c : HttpConn) (path : List UInt8) :
    (HttpConn.openFile w c path).1.realFile = c.realFile := by
  unfold HttpConn.openFile
  split
  · rfl
  · dsimp only
    split
    · rfl
    split
    · rfl
    · rfl

/-- **do_request comes to its end** exactly on a request that fits, as long as its page stays in
the read buffer. `init` has put a NUL at the end of `m_real_file`, and nothing removes it. -/
theorem doRequest_ok_iff {w : World} {c : HttpConn} (hreal : c.realFile (filenameLen - 1) = 0)
    (hinside : PageInside w c.parser) :
    (∃ r, c.doRequest w = .ok r) ↔ RequestFits c.parser := by
  constructor
  · rintro ⟨r, h⟩
    obtain ⟨⟨w', s', real'⟩, hresolve, -⟩ := bind_ok.mp h
    exact requestFits_of_resolve hresolve
  · intro hfits
    obtain ⟨w', s', real', hresolve⟩ := resolve_of_fits hfits hinside c.realFile
    have hnul : NulBefore real' 0 filenameLen :=
      ⟨filenameLen - 1, Nat.zero_le _, by decide, (resolve_last hresolve).trans hreal⟩
    obtain ⟨j, hj, -⟩ := scanFrom_ok (fun _ => false) hnul (Nat.le_refl _)
    have hpath : cstring real' filenameLen 0 = .ok (slice real' 0 (j - 0)) :=
      bind_ok.mpr ⟨j, hj, rfl⟩
    simp only [HttpConn.doRequest, hresolve, bind, Except.bind, hpath]
    exact ⟨_, rfl⟩

end TinyHTTP.Http
