import TinyHTTP.Lib.CString
import TinyHTTP.Http.Tokens
import TinyHTTP.Http.Segmentation

/-!
# TinyHTTP — the request line

What `parse_request_line` makes of any line, one function after the other:
`parseUrl` strips a scheme, `parseTarget` cuts off the target and the version,
`parse_request_line` the method.

* `parseRequestLine_outcome` — the result of `parse_request_line`, for every line.
* `nullSafe_iff` — the lines on which no null pointer is handed on.
* `followsGrammar_iff` — the lines that are understood as the grammar has them.
-/

namespace TinyHTTP.Http

open TinyHTTP.Lib

-- ---------------------------------------------------------------------------
-- The path
-- ---------------------------------------------------------------------------

/-- A string in the buffer, up to the NUL at `e`, and the pointer to it. -/
inductive Located (m : Mem) (e : Nat) : Option (List UInt8) → Option Nat → Prop
  | none : Located m e none none
  | some {u : List UInt8} {p : Nat} (hs : HasString m p u) (he : p + u.length = e) :
      Located m e (some u) (some p)

theorem strchr_located {m : Mem} {i : Nat} {h : List UInt8} (hs : HasString m i h)
    (hsize : i + h.length < readBufferSize) :
    ∃ r, strchr m readBufferSize i slash = .ok r ∧ Located m (i + h.length) (fromSlash h) r := by
  have hrest := hs.dropWhile fun b => !(b == slash)
  have hlen := length_dropWhile (fun b => !(b == slash)) h
  refine ⟨_, strchr_string readBufferSize slash hs hsize, ?_⟩
  unfold fromSlash
  cases hd : h.dropWhile fun b => !(b == slash) with
  | nil =>
    rw [if_pos rfl]
    exact .none
  | cons b u =>
    rw [if_neg (List.cons_ne_nil b u)]
    rw [hd] at hrest hlen
    exact .some hrest (by omega)

theorem fromSlash_head {h u : List UInt8} (hu : fromSlash h = some u) : u.head? = some slash := by
  unfold fromSlash at hu
  cases hd : h.dropWhile fun b => !(b == slash) with
  | nil =>
    rw [hd] at hu
    cases hu
  | cons b w =>
    rw [hd] at hu
    obtain rfl : b :: w = u := Option.some.inj hu
    have hb := List.head?_dropWhile_not (fun b => !(b == slash)) h
    rw [hd] at hb
    simpa using hb

theorem startsWith_length {scheme h : List UInt8} (hst : StartsWith scheme h) :
    scheme.length ≤ h.length := by
  have := congrArg List.length hst
  simp only [List.length_map, List.length_take] at this
  omega

theorem stripScheme_string {m : Mem} {i : Nat} {h scheme : List UInt8} (hs : HasString m i h)
    (hsize : i + h.length < readBufferSize) (h0 : ∀ c ∈ scheme, lower c ≠ 0) :
    ∃ r, stripScheme m scheme (some i) = .ok r ∧
      Located m (i + h.length) (stripped scheme h) r := by
  have hcmp := strncasecmpEq_string hs h0
  unfold stripScheme stripped
  by_cases hst : StartsWith scheme h
  · have hle := startsWith_length hst
    have hlen : (h.drop scheme.length).length = h.length - scheme.length := List.length_drop ..
    obtain ⟨r, hr, hloc⟩ := strchr_located (hs.drop hle) (by omega)
    rw [show i + scheme.length + (h.drop scheme.length).length = i + h.length by omega] at hloc
    refine ⟨r, ?_, ?_⟩
    · exact (if_pos (hcmp.mpr hst)).trans hr
    · rw [if_pos hst]
      exact hloc
  · refine ⟨some i, if_neg fun hc => hst (hcmp.mp hc), ?_⟩
    rw [if_neg hst]
    exact .some hs rfl

theorem http_length : (bytes "http://").length = 7 := by decide

/-- What begins with a slash begins with no scheme. -/
theorem stripped_of_slash {u : List UInt8} (h : u.head? = some slash) :
    stripped (bytes "https://") u = some u := by
  refine if_neg ?_
  intro hst
  cases u with
  | nil => cases h
  | cons b u =>
    obtain rfl : b = slash := Option.some.inj h
    have hlen : (bytes "https://").length = 7 + 1 := by decide
    rw [StartsWith, hlen, List.take_succ_cons] at hst
    have hhead := congrArg List.head? hst
    simp only [List.map_cons, List.head?_cons] at hhead
    exact absurd hhead (by decide)

/-- The results of `parse_request_line` once the version has been accepted, for a target that is
the string `target` at `url`. -/
inductive UrlOutcome (s : Parser) (url : Nat) (target : List UInt8) :
    Except Fault (HttpCode × Parser) → Prop
  | null (h : Unhosted target) : UrlOutcome s url target (.error .nullPointer)
  | bad (h : ¬ Unhosted target) (hno : ∀ u, urlPath target = some u → u.head? ≠ some slash)
      (p : Option Nat) : UrlOutcome s url target (.ok (.badRequest, { s with url := p }))
  | page (u : List UInt8) (p : Nat) (h : ¬ Unhosted target) (hu : urlPath target = some u)
      (hslash : u.head? = some slash) (hne : u ≠ [slash]) (hs : HasString s.readBuf p u)
      (hp : p + u.length = url + target.length) : UrlOutcome s url target
        (.ok (.noRequest, { s with url := some p, checkState := .header }))
  | root (p : Nat) (h : ¬ Unhosted target) (hu : urlPath target = some [slash])
      (hs : HasString s.readBuf p [slash]) (hp : p + 1 = url + target.length) :
      UrlOutcome s url target (.ok (.noRequest, { s with
        readBuf := writeBytes s.readBuf (p + 1) judgePage
        url := some p
        checkState := .header }))

/-- The two scheme-stripping blocks, one after the other. -/
theorem strip_both {m : Mem} {i : Nat} {target : List UInt8} (hs : HasString m i target)
    (hsize : i + target.length < readBufferSize) (h : ¬ Unhosted target) :
    ∃ p r, stripScheme m (bytes "http://") (some i) = .ok p ∧
      stripScheme m (bytes "https://") p = .ok r ∧
      Located m (i + target.length) (urlPath target) r := by
  obtain ⟨p, hp, hloc⟩ := stripScheme_string hs hsize http_nonzero
  unfold urlPath
  by_cases hst : StartsWith (bytes "http://") target
  · have hpath : stripped (bytes "http://") target = fromSlash (target.drop 7) := by
      rw [stripped, if_pos hst, http_length]
    rw [if_pos hst]
    cases hf : fromSlash (target.drop 7) with
    | none => exact absurd ⟨hst, hf⟩ h
    | some u =>
      rw [hpath, hf] at hloc ⊢
      -- behind the first block the target begins with a slash, so the second leaves it
      generalize hr : p = r at hloc
      cases hloc with
      | some hsu he =>
        obtain ⟨r, hr', hloc'⟩ := stripScheme_string hsu (by omega) https_nonzero
        rw [stripped_of_slash (fromSlash_head hf), he] at hloc'
        rw [hr] at hp
        exact ⟨_, r, hp, hr', hloc'⟩
  · rw [if_neg hst]
    rw [stripped, if_neg hst] at hloc
    generalize hr : p = r at hloc
    cases hloc with
    | some hsu he =>
      rw [hr] at hp
      obtain ⟨r, hr', hloc'⟩ := stripScheme_string hsu (by omega) https_nonzero
      rw [he] at hloc'
      exact ⟨_, r, hp, hr', hloc'⟩

/-- `parse_request_line` from the null test on. -/
def checkPath (s : Parser) : Option Nat → Except Fault (HttpCode × Parser)
  | none => .ok (.badRequest, s)
  | some url =>
    if s.readBuf url ≠ slash then .ok (.badRequest, s)
    else do
      let e ← strEnd s.readBuf readBufferSize url
      if e - url = 1 then
        let buf ← strcatAt s.readBuf e (bytes "judge.html")
        .ok (.noRequest, { s with readBuf := buf, checkState := .header })
      else .ok (.noRequest, { s with checkState := .header })

theorem parseUrl_eq (s : Parser) (url : Nat) : parseUrl s url = (do
    let url ← stripScheme s.readBuf (bytes "http://") (some url)
    let url ← stripScheme s.readBuf (bytes "https://") url
    checkPath { s with url := url } url) := by
  unfold parseUrl checkPath
  rfl

theorem parseUrl_null {s : Parser} {url : Nat} {target : List UInt8}
    (hs : HasString s.readBuf url target) (hsize : url + target.length < readBufferSize)
    (h : Unhosted target) : parseUrl s url = .error .nullPointer := by
  obtain ⟨hst, hnone⟩ := h
  obtain ⟨p, hp, hloc⟩ := stripScheme_string hs hsize http_nonzero
  rw [stripped, if_pos hst, http_length, hnone] at hloc
  generalize hr : p = r at hloc
  cases hloc
  subst hr
  -- `m_url` is `NULL` when the second block compares it
  have hnull : stripScheme s.readBuf (bytes "https://") none = .error .nullPointer := rfl
  simp only [parseUrl, hp, hnull, bind, Except.bind]

theorem parseUrl_outcome {s : Parser} {url : Nat} {target : List UInt8}
    (hs : HasString s.readBuf url target)
    (hroom : url + target.length + 11 ≤ readBufferSize) :
    UrlOutcome s url target (parseUrl s url) := by
  by_cases h : Unhosted target
  · rw [parseUrl_null hs (by omega) h]
    exact .null h
  obtain ⟨p, r, hp, hr, hloc⟩ := strip_both hs (by omega) h
  have hrun : parseUrl s url = checkPath { s with url := r } r := by
    rw [parseUrl_eq]
    simp only [hp, hr, bind, Except.bind]
  rw [hrun]
  generalize hpath : urlPath target = path at hloc
  cases hloc with
  | none =>
    refine .bad h ?_ none
    intro u hu
    rw [hpath] at hu
    cases hu
  | @some u q hsu he =>
    simp only [checkPath]
    cases u with
    | nil =>
      have h0 : s.readBuf q = 0 := hsu.nul
      rw [if_pos (by rw [h0]; decide)]
      refine .bad h ?_ (some q)
      intro u hu
      rw [hpath] at hu
      obtain rfl := Option.some.inj hu
      simp
    | cons b u =>
      have hb : s.readBuf q = b := hsu.byte 0 (by simp)
      by_cases hslash : b = slash
      · subst hslash
        rw [if_neg (by rw [hb]; simp)]
        have hend : strEnd s.readBuf readBufferSize q = .ok (q + (slash :: u).length) := by
          have hall : ((slash :: u).takeWhile fun _ => !false) = slash :: u :=
            List.takeWhile_eq_self_iff.mpr fun _ _ => rfl
          rw [strEnd, scanFrom_string _ hsu (by omega), hall]
        simp only [hend, bind, Except.bind]
        cases u with
        | nil =>
          have hcat : strcatAt s.readBuf (q + 1) (bytes "judge.html") =
              .ok (writeBytes s.readBuf (q + 1) judgePage) := by
            have hlen : (bytes "judge.html").length = 10 := by decide
            rw [List.length_singleton] at he
            exact if_pos (by omega)
          rw [if_pos (by simp)]
          simp only [List.length_singleton, hcat]
          exact .root q h hpath hsu (by simpa using he)
        | cons c u =>
          rw [if_neg (by simp)]
          exact .page _ q h hpath rfl (by simp) hsu he
      · rw [if_pos (by rw [hb]; exact hslash)]
        refine .bad h ?_ (some q)
        intro u' hu
        rw [hpath] at hu
        obtain rfl := Option.some.inj hu
        simpa using hslash

-- ---------------------------------------------------------------------------
-- The target and the version
-- ---------------------------------------------------------------------------

/-- The string that `m_version` points to in the end. When the target is a lone slash,
`strcat` has written `judge.html` and its NUL over the blanks behind it, and on over the version
unless there are eleven blanks. -/
def versionLeft (target gap' version : List UInt8) : List UInt8 :=
  if urlPath target = some [slash] ∧ gap'.length ≤ 10 then (bytes "judge.html").drop gap'.length
  else version

/-- What the parser has understood of a target and a version. -/
structure Accepted (s s' : Parser) (target gap' version : List UInt8) : Prop where
  url : ∃ u, urlPath target = some u ∧ u.head? = some slash ∧
    s'.str s'.url = some (.ok (pageOf u))
  version : s'.str s'.version = some (.ok (versionLeft target gap' version))
  checkState : s'.checkState = .header
  method : s'.method = s.method
  cgi : s'.cgi = s.cgi

/-- The target has no path that could be served. -/
def Pathless (target : List UInt8) : Prop :=
  ¬ Unhosted target ∧ ∀ u, urlPath target = some u → u.head? ≠ some slash

/-- The results of `parse_request_line` once the method has been recognised. -/
inductive TargetOutcome (s : Parser) (r : List UInt8) : Except Fault (HttpCode × Parser) → Prop
  | null {gap target gap' version : List UInt8} (h : Rest r gap target gap' version)
      (hu : Unhosted target) : TargetOutcome s r (.error .nullPointer)
  | bad (hno : ∀ gap target gap' version, Rest r gap target gap' version → Pathless target)
      (s' : Parser) (hs' : s'.checkState = s.checkState) :
      TargetOutcome s r (.ok (.badRequest, s'))
  | path {gap target gap' version : List UInt8} (h : Rest r gap target gap' version)
      (hu : ¬ Unhosted target) (s' : Parser) (ha : Accepted s s' target gap' version) :
      TargetOutcome s r (.ok (.noRequest, s'))

theorem str_string {s : Parser} {ptr : Option Nat} {p : Nat} {h : List UInt8}
    (hptr : ptr = some p) (hs : HasString s.readBuf p h) (hsize : p + h.length < readBufferSize) :
    s.str ptr = some (.ok h) := by
  rw [hptr, Parser.str, Option.map_some, cstring_string hs hsize]

theorem hasString_cons {m : Mem} {i : Nat} {b : UInt8} {h : List UInt8} (hb : m i = b)
    (hne : b ≠ 0) (hs : HasString m (i + 1) h) : HasString m i (b :: h) where
  byte := by
    intro k hk
    cases k with
    | zero => exact hb
    | succ k =>
      rw [List.getElem_cons_succ, show i + (k + 1) = i + 1 + k by omega]
      exact hs.byte k (by simpa using hk)
  nul := by
    rw [List.length_cons, show i + (h.length + 1) = i + 1 + h.length by omega]
    exact hs.nul
  nonzero := by
    intro c hc
    rcases List.mem_cons.mp hc with rfl | hc
    · exact hne
    · exact hs.nonzero c hc

theorem judge_nonzero : ∀ b ∈ bytes "judge.html", b ≠ 0 := by
  have hall : (bytes "judge.html").all (fun b => b != 0) = true := by decide
  intro b hb
  simpa using List.all_eq_true.mp hall b hb

/-- The page and the version in the buffer after `strcat` behind a lone slash at `q`. -/
theorem judge_strings {m : Mem} {q v k : Nat} {version : List UInt8}
    (hslash : m q = slash) (hv : v = q + 1 + k) (hs : HasString m v version) :
    HasString (writeBytes m (q + 1) judgePage) q (bytes "/judge.html") ∧
      HasString (writeBytes m (q + 1) judgePage) v
        (if k ≤ 10 then (bytes "judge.html").drop k else version) := by
  have hpage := hasString_writeBytes_nul m (q + 1) judge_nonzero
  have hlen : (bytes "judge.html").length = 10 := by decide
  constructor
  · have hq : writeBytes m (q + 1) judgePage q = slash :=
      (writeBytes_of_lt (Nat.lt_succ_self q)).trans hslash
    exact hasString_cons hq (by decide) hpage
  · subst hv
    split
    · exact hpage.drop (by omega)
    · rename_i hk
      refine HasString.congr hs fun j hj _ => ?_
      have hlen' : judgePage.length = 11 := by decide
      exact writeBytes_of_ge (by omega)

/-- The outcome for a target and a version that the scans have found. -/
theorem target_of_url {s s₁ : Parser} {r gap target gap' version : List UInt8} {url v : Nat}
    {result : Except Fault (HttpCode × Parser)} (hrest : Rest r gap target gap' version)
    (h : UrlOutcome s₁ url target result) (hstate : s₁.checkState = s.checkState)
    (hmethod : s₁.method = s.method) (hcgi : s₁.cgi = s.cgi) (hversion : s₁.version = some v)
    (hs : HasString s₁.readBuf v version)
    (hv : v = url + target.length + gap'.length)
    (hsize : v + version.length + 2 ≤ readBufferSize) : TargetOutcome s r result := by
  have hvlen : version.length = 8 := by
    have hlen : (bytes "HTTP/1.1").length = 8 := by decide
    have := congrArg List.length hrest.version
    rw [List.length_map, List.length_map] at this
    omega
  have hgap' : 0 < gap'.length := List.length_pos_iff.mpr hrest.gap'.1
  cases h with
  | null hu => exact .null hrest hu
  | bad hu hno p =>
    refine .bad ?_ _ hstate
    intro gap₁ target₁ gap₁' version₁ h₁
    obtain ⟨-, rfl, -, -⟩ := rest_unique hrest h₁
    exact ⟨hu, hno⟩
  | page u p hu hpath hslash hne hsu hp =>
    have hleft : versionLeft target gap' version = version := by
      rw [versionLeft, hpath]
      exact if_neg fun h => hne (Option.some.inj h.1)
    have hpage : pageOf u = u := if_neg hne
    refine .path hrest hu _ ⟨⟨u, hpath, hslash, ?_⟩, ?_, rfl, hmethod, hcgi⟩
    · rw [hpage]
      exact str_string rfl hsu (by omega)
    · rw [hleft]
      exact str_string hversion hs (by omega)
  | root p hu hpath hsu hp =>
    have hslash : s₁.readBuf p = slash := hsu.byte 0 (by simp)
    obtain ⟨hpage, hleft⟩ := judge_strings (k := gap'.length) hslash (by omega) hs
    refine .path hrest hu _ ⟨⟨[slash], hpath, rfl, ?_⟩, ?_, rfl, hmethod, hcgi⟩
    · have hlen : (pageOf [slash]).length = 11 := by decide
      exact str_string rfl hpage (by omega)
    · have hjudge : (bytes "judge.html").length = 10 := by decide
      have hif : (if gap'.length ≤ 10 then (bytes "judge.html").drop gap'.length else version) =
          versionLeft target gap' version := by
        simp only [versionLeft, hpath, true_and]
      rw [hif] at hleft
      refine str_string hversion hleft ?_
      rw [← hif]
      split
      · rw [List.length_drop]
        omega
      · omega

/-- The scans find the only parts that the rest of a line can have. -/
theorem rest_of_scan {r target c version : List UInt8} {b : UInt8}
    (hr : r.dropWhile blank = target ++ b :: c) (htarget : ∀ b ∈ target, ¬ blank b)
    (hb : blank b) (hversion : c.dropWhile blank = version)
    {gap₁ target₁ gap₁' version₁ : List UInt8} (h : Rest r gap₁ target₁ gap₁' version₁) :
    version = version₁ := by
  have hsc := h.scanned
  have hmid := hsc.drop_target
  rw [hr] at hmid
  obtain ⟨-, hspan⟩ := span_append (p := fun b => !blank b) (a := target) (b := b :: c)
    (fun a ha => by simpa using htarget a ha)
    (fun a ha => by
      obtain rfl : b = a := Option.some.inj ha
      simpa using hb)
  rw [hspan] at hmid
  rw [← hversion, ← hsc.drop_gap', ← hmid, List.dropWhile_cons_of_pos hb]

theorem skipBlanks {m : Mem} {i : Nat} {h : List UInt8} (hs : HasString m i h)
    (hsize : i + h.length < readBufferSize) :
    ∃ j, skipSpan m readBufferSize i blanks = .ok j ∧
      j + (h.dropWhile blank).length = i + h.length ∧ HasString m j (h.dropWhile blank) :=
  skipSpan_string readBufferSize blanks hs hsize

theorem parseTarget_outcome {s : Parser} {url : Nat} {r : List UInt8}
    (hs : HasString s.readBuf url r) (hsize : url + r.length + 2 ≤ readBufferSize) :
    TargetOutcome s r (parseTarget s url) := by
  obtain ⟨p, hp, hplen, hsp⟩ := skipBlanks hs (by omega)
  have hpbrk := strpbrk_string readBufferSize blanks hsp (by omega)
  have hlen := length_dropWhile (fun b => !blank b) (r.dropWhile blank)
  have hsplit := List.takeWhile_append_dropWhile (p := fun b => !blank b) (l := r.dropWhile blank)
  have htarget : ∀ b ∈ (r.dropWhile blank).takeWhile (fun b => !blank b), ¬ blank b := by
    intro b hb
    simpa using List.mem_takeWhile_imp hb
  have hhead := List.head?_dropWhile_not (fun b => !blank b) (r.dropWhile blank)
  have hfirst := List.head?_dropWhile_not blank r
  simp only [parseTarget, hp, hpbrk, bind, Except.bind]
  generalize (r.dropWhile blank).takeWhile (fun b => !blank b) = target at *
  cases hd : (r.dropWhile blank).dropWhile (fun b => !blank b) with
  | nil =>
    rw [if_pos rfl]
    refine .bad ?_ _ rfl
    -- a derivation would have blanks behind its target
    intro gap₁ target₁ gap₁' version₁ h
    have := h.scanned.drop_target
    rw [hd] at this
    exact absurd (List.append_eq_nil_iff.mp this.symm).1 h.gap'.1
  | cons b c =>
    rw [hd] at hhead hsplit hlen
    have hb : blank b = true := by simpa using hhead
    rw [if_neg (List.cons_ne_nil b c)]
    simp only
    rw [List.length_cons] at hlen
    have hsp' : HasString s.readBuf p (target ++ b :: c) := by
      rw [hsplit]
      exact hsp
    obtain ⟨hst, hsc⟩ := hsp'.cut
    obtain ⟨v, hv, hvlen, hsv⟩ := skipBlanks hsc (by omega)
    simp only [hv]
    have hclen := length_dropWhile blank c
    have hver := strcasecmpEq_string hsv version_nonzero
    generalize hversion : c.dropWhile blank = version at hvlen hsv hver hclen
    by_cases hok : EqIgnoreCase version (bytes "HTTP/1.1")
    · rw [if_pos (hver.mpr hok)]
      have hne : target ≠ [] := by
        rintro rfl
        rw [← hsplit] at hfirst
        exact absurd (hb.symm.trans hfirst) (by decide)
      have hrest : Rest r (r.takeWhile blank) target (b :: c.takeWhile blank) version := by
        refine ⟨?_, fun b hb => List.mem_takeWhile_imp hb, ⟨hne, htarget⟩, ⟨by simp, ?_⟩, hok⟩
        · rw [← hversion, List.append_assoc, List.append_assoc, List.cons_append,
            List.takeWhile_append_dropWhile, hsplit, List.takeWhile_append_dropWhile]
        · intro x hx
          rcases List.mem_cons.mp hx with rfl | hx
          · exact hb
          · exact List.mem_takeWhile_imp hx
      have hvlen8 : version.length = 8 := by
        have hlen : (bytes "HTTP/1.1").length = 8 := by decide
        have := congrArg List.length hok
        rw [List.length_map, List.length_map] at this
        omega
      refine target_of_url hrest (parseUrl_outcome hst (by omega)) rfl rfl rfl rfl hsv ?_ (by omega)
      rw [List.length_cons]
      omega
    · rw [if_neg fun h => hok (hver.mp h)]
      refine .bad ?_ _ rfl
      intro gap₁ target₁ gap₁' version₁ h
      rw [rest_of_scan hsplit.symm htarget hb hversion h] at hok
      exact absurd h.version hok

-- ---------------------------------------------------------------------------
-- The method
-- ---------------------------------------------------------------------------

def methodOf (method : List UInt8) : Method :=
  if EqIgnoreCase method (bytes "GET") then .get else .post

/-- What the parser has understood of a line with these parts. -/
structure Understood (s s' : Parser) (t : Tokens) : Prop where
  method : s'.method = methodOf t.method
  cgi : s'.cgi = (s.cgi || decide (methodOf t.method = .post))
  url : ∃ u, urlPath t.target = some u ∧ u.head? = some slash ∧
    s'.str s'.url = some (.ok (pageOf u))
  version : s'.str s'.version = some (.ok (versionLeft t.target t.gap' t.version))
  checkState : s'.checkState = .header

/-- The results of `parse_request_line`. -/
inductive LineOutcome (s : Parser) (l : List UInt8) : Except Fault (HttpCode × Parser) → Prop
  | null (t : Tokens) (h : Derives l t) (hu : Unhosted t.target) :
      LineOutcome s l (.error .nullPointer)
  | bad (hno : ∀ t, Derives l t → Pathless t.target) (s' : Parser)
      (hs' : s'.checkState = s.checkState) : LineOutcome s l (.ok (.badRequest, s'))
  | path (t : Tokens) (h : Derives l t) (hu : ¬ Unhosted t.target) (s' : Parser)
      (ha : Understood s s' t) : LineOutcome s l (.ok (.noRequest, s'))

/-- A line whose method is `method`, and the rest of it behind the blank `b`. -/
theorem derives_of_rest {l method r : List UInt8} {b : UInt8} (hl : method ++ b :: r = l)
    (hb : blank b)
    (hm : EqIgnoreCase method (bytes "GET") ∨ EqIgnoreCase method (bytes "POST"))
    {gap target gap' version : List UInt8} (h : Rest r gap target gap' version) :
    Derives l ⟨method, b :: gap, target, gap', version⟩ where
  text := by
    rw [← hl, ← h.text]
    simp only [Tokens.text, List.append_assoc, List.cons_append]
  method := hm
  gap := by
    refine ⟨by simp, ?_⟩
    intro x hx
    rcases List.mem_cons.mp hx with rfl | hx
    · exact hb
    · exact h.gap x hx
  target := h.target
  gap' := h.gap'
  version := h.version

/-- The parts of a line that begins with `method` and the blank `b`. -/
theorem Derives.of_method {l method r : List UInt8} {b : UInt8} {t : Tokens} (h : Derives l t)
    (hm : l.takeWhile (fun b => !blank b) = method)
    (hr : l.dropWhile (fun b => !blank b) = b :: r) :
    t.method = method ∧ ∃ gap, Rest r gap t.target t.gap' t.version := by
  obtain ⟨b', gap, -, -, hm', hr', hrest⟩ := h.split
  obtain ⟨-, rfl⟩ := List.cons.inj (hr.symm.trans hr')
  exact ⟨hm'.symm.trans hm, gap, hrest⟩

/-- The outcome for the method `s₁` has been set to. -/
theorem line_of_target {s s₁ : Parser} {l method r : List UInt8} {b : UInt8}
    {result : Except Fault (HttpCode × Parser)} (h : TargetOutcome s₁ r result)
    (hm : l.takeWhile (fun b => !blank b) = method)
    (hr : l.dropWhile (fun b => !blank b) = b :: r) (hb : blank b)
    (hword : EqIgnoreCase method (bytes "GET") ∨ EqIgnoreCase method (bytes "POST"))
    (hstate : s₁.checkState = s.checkState) (hmethod : s₁.method = methodOf method)
    (hcgi : s₁.cgi = (s.cgi || decide (methodOf method = .post))) : LineOutcome s l result := by
  have hl : method ++ b :: r = l := by
    rw [← hm, ← hr, List.takeWhile_append_dropWhile]
  cases h with
  | null hrest hu => exact .null _ (derives_of_rest hl hb hword hrest) hu
  | bad hno s' hs' =>
    refine .bad ?_ s' (hs'.trans hstate)
    intro t ht
    obtain ⟨-, gap, hrest⟩ := ht.of_method hm hr
    exact hno gap _ _ _ hrest
  | path hrest hu s' ha =>
    exact .path _ (derives_of_rest hl hb hword hrest) hu s'
      ⟨ha.method.trans hmethod, ha.cgi.trans hcgi, ha.url, ha.version, ha.checkState⟩

/-- **The result of `parse_request_line`**, for the string `l` that the line begins with. -/
theorem parseRequestLine_outcome {s : Parser} {text : Nat} {l : List UInt8}
    (hs : HasString s.readBuf text l) (hsize : text + l.length + 2 ≤ readBufferSize) :
    LineOutcome s l (parseRequestLine s text) := by
  have hpbrk := strpbrk_string readBufferSize blanks hs (by omega)
  have hlen := length_dropWhile (fun b => !blank b) l
  have hhead := List.head?_dropWhile_not (fun b => !blank b) l
  simp only [parseRequestLine, hpbrk, bind, Except.bind]
  cases hd : l.dropWhile (fun b => !blank b) with
  | nil =>
    rw [if_pos rfl]
    refine .bad ?_ _ rfl
    intro t ht
    obtain ⟨b, gap, -, -, -, hd', -⟩ := ht.split
    rw [hd] at hd'
    cases hd'
  | cons b r =>
    rw [hd] at hhead hlen
    have hb : blank b = true := by simpa using hhead
    rw [if_neg (List.cons_ne_nil b r)]
    simp only
    rw [List.length_cons] at hlen
    generalize hm : l.takeWhile (fun b => !blank b) = method at hlen ⊢
    have hs' : HasString s.readBuf text (method ++ b :: r) := by
      rw [← hm, ← hd, List.takeWhile_append_dropWhile]
      exact hs
    obtain ⟨hsm, hsr⟩ := hs'.cut
    have hget := strcasecmpEq_string hsm get_nonzero
    have hpost := strcasecmpEq_string hsm post_nonzero
    by_cases hg : EqIgnoreCase method (bytes "GET")
    · rw [if_pos (hget.mpr hg)]
      refine line_of_target (parseTarget_outcome hsr (by omega)) hm hd hb (Or.inl hg) rfl ?_ ?_
      · exact (if_pos hg).symm
      · rw [methodOf, if_pos hg]
        exact (Bool.or_false _).symm
    rw [if_neg fun h => hg (hget.mp h)]
    by_cases hp : EqIgnoreCase method (bytes "POST")
    · rw [if_pos (hpost.mpr hp)]
      refine line_of_target (parseTarget_outcome hsr (by omega)) hm hd hb (Or.inr hp) rfl ?_ ?_
      · exact (if_neg hg).symm
      · rw [methodOf, if_neg hg]
        exact (Bool.or_true _).symm
    · rw [if_neg fun h => hp (hpost.mp h)]
      refine .bad ?_ _ rfl
      intro t ht
      obtain ⟨rfl, -⟩ := ht.of_method hm hd
      rcases ht.method with h | h
      · exact absurd h hg
      · exact absurd h hp

-- ---------------------------------------------------------------------------
-- Null pointers
-- ---------------------------------------------------------------------------

/-- The NUL that ends the string is one of the line. -/
theorem Line.string_le {s : Parser} {text : Nat} {l : List UInt8} (h : Line s text)
    (hs : HasString s.readBuf text l) : text + l.length + 2 ≤ readBufferSize := by
  have h₁ := h.text_le
  have h₂ := h.checked_le
  have h₃ := h.read_le
  by_contra hlt
  have hk : s.checkedIdx - 2 - text < l.length := by omega
  have hbyte := hs.byte _ hk
  rw [show text + (s.checkedIdx - 2 - text) = s.checkedIdx - 2 by omega, h.nul] at hbyte
  exact hs.nonzero _ (List.getElem_mem hk) hbyte.symm

theorem parseRequestLine_null {s : Parser} {text : Nat} {l : List UInt8} (hl : Line s text)
    (hs : HasString s.readBuf text l) {t : Tokens} (ht : Derives l t) (hu : Unhosted t.target) :
    parseRequestLine s text = .error .nullPointer := by
  have h := parseRequestLine_outcome hs (hl.string_le hs)
  generalize parseRequestLine s text = result at h
  cases h with
  | null t' ht' hu' => rfl
  | bad hno s' hs' => exact absurd hu (hno t ht).1
  | path t' ht' hu' s' ha =>
    obtain rfl := derives_unique ht ht'
    exact absurd hu hu'

/-- No null pointer is handed on, and a target that has no slash where one is
required is turned down. -/
structure NullSafe (s : Parser) (text : Nat) (l : List UInt8) : Prop where
  nonnull : parseRequestLine s text ≠ .error .nullPointer
  rejected : ∀ t, Derives l t → (∀ u, urlPath t.target = some u → u.head? ≠ some slash) →
    ∃ s', parseRequestLine s text = .ok (.badRequest, s')

/-- **Null pointers.** `parse_request_line` hands on a null pointer on the lines whose target is
`http://` and a host, and on no others. -/
theorem nullSafe_iff {s : Parser} {text : Nat} {l : List UInt8} (hl : Line s text)
    (hs : HasString s.readBuf text l) :
    NullSafe s text l ↔ ¬ ∃ t, Derives l t ∧ Unhosted t.target := by
  have h := parseRequestLine_outcome hs (hl.string_le hs)
  constructor
  · rintro ⟨hnonnull, -⟩ ⟨t, ht, hu⟩
    exact hnonnull (parseRequestLine_null hl hs ht hu)
  · intro hno
    generalize hresult : parseRequestLine s text = result at h
    constructor
    · rw [hresult]
      rintro rfl
      cases h with
      | null t ht hu => exact hno ⟨t, ht, hu⟩
    · intro t ht hpath
      rw [hresult]
      cases h with
      | null t ht hu => exact absurd ⟨t, ht, hu⟩ hno
      | bad hno s' hs' => exact ⟨s', rfl⟩
      | path t' ht' hu' s' ha =>
        obtain rfl := derives_unique ht ht'
        obtain ⟨u, hu, hslash, -⟩ := ha.url
        exact absurd hslash (hpath u hu)

/-- The parser that has taken the first line `l` off its buffer. -/
def firstLine (l : List UInt8) : Parser :=
  (Parser.deliver (Parser.init Parser.constructed) (l ++ crlf)).takeLine l.length

theorem firstLine_line {l : List UInt8} (hfit : l.length + 2 ≤ readBufferSize) :
    Line (firstLine l) 0 := by
  have hlen : (l ++ crlf).length = l.length + 2 := by simp [crlf]
  have hread : (Parser.deliver (Parser.init Parser.constructed) (l ++ crlf)).readIdx =
      0 + (l ++ crlf).length := rfl
  have hinv : HeadInv (Parser.deliver (Parser.init Parser.constructed) (l ++ crlf)) := by
    refine (headInv_init _).deliver ?_
    show 0 + (l ++ crlf).length ≤ readBufferSize
    omega
  exact line_takeLine hinv (Nat.zero_le _) (by omega)

theorem firstLine_string {l : List UInt8} (h0 : ∀ b ∈ l, b ≠ 0) :
    HasString (firstLine l).readBuf 0 l where
  byte := by
    intro k hk
    show Function.update (Function.update (writeBytes _ 0 (l ++ crlf)) l.length 0)
      (l.length + 1) 0 (0 + k) = l[k]
    rw [Function.update_of_ne (by omega), Function.update_of_ne (by omega),
      writeBytes_of_mem (by rw [List.length_append]; omega), List.getElem_append_left hk]
  nul := by
    show Function.update (Function.update (writeBytes _ 0 (l ++ crlf)) l.length 0)
      (l.length + 1) 0 (0 + l.length) = 0
    rw [Function.update_of_ne (by omega), Nat.zero_add, Function.update_self]
  nonzero := h0

/-- The parts of `GET target HTTP/1.1`. -/
def getLine (target : List UInt8) : Tokens :=
  ⟨bytes "GET", [32], target, [32], bytes "HTTP/1.1"⟩

theorem derives_getLine (target : List UInt8) (hne : target ≠ [])
    (hblank : ∀ b ∈ target, ¬ blank b) : Derives (getLine target).text (getLine target) :=
  ⟨rfl, Or.inl rfl, ⟨by simp [getLine], by simp [getLine, blanks]⟩, ⟨hne, hblank⟩,
    ⟨by simp [getLine], by simp [getLine, blanks]⟩, rfl⟩

theorem nullSafe_iff_root : NullSafe (firstLine (getLine (bytes "/")).text) 0
      (getLine (bytes "/")).text ↔
    ¬ ∃ t, Derives (getLine (bytes "/")).text t ∧ Unhosted t.target :=
  nullSafe_iff (firstLine_line (by decide)) (firstLine_string (by decide +kernel))

/-- `GET http://a HTTP/1.1` -/
theorem null_pointer_handed_on : ¬ ∀ s text l, Line s text → HasString s.readBuf text l →
    NullSafe s text l := by
  intro h
  have hline : Line (firstLine (getLine (bytes "http://a")).text) 0 := firstLine_line (by decide)
  have hstring := firstLine_string (l := (getLine (bytes "http://a")).text) (by decide +kernel)
  have hderives := derives_getLine (bytes "http://a") (by decide) (by decide +kernel)
  have hunhosted : Unhosted (getLine (bytes "http://a")).target := by
    constructor <;> decide
  exact (h _ 0 _ hline hstring).nonnull (parseRequestLine_null hline hstring hderives hunhosted)

-- ---------------------------------------------------------------------------
-- The grammar
-- ---------------------------------------------------------------------------

/-- The line has these parts, and its target this path. -/
def HasPath (l : List UInt8) (t : Tokens) (u : List UInt8) : Prop :=
  Derives l t ∧ urlPath t.target = some u ∧ u.head? = some slash

/-- The line is understood as the grammar has it: accepted if and only if it is a request line
with a path, its parts then read off, and turned down otherwise. -/
def FollowsGrammar (s : Parser) (text : Nat) (l : List UInt8) : Prop :=
  ∃ ret s', parseRequestLine s text = .ok (ret, s') ∧
    (ret = .noRequest ↔ ∃ t u, HasPath l t u) ∧
    (∀ t u, HasPath l t u →
      s'.method = methodOf t.method ∧ (s'.cgi = true ↔ methodOf t.method = .post) ∧
      s'.str s'.url = some (.ok (pageOf u)) ∧ s'.str s'.version = some (.ok t.version) ∧
      s'.checkState = .header) ∧
    ((¬ ∃ t u, HasPath l t u) → ret = .badRequest ∧ s'.checkState = s.checkState)

/-- What `strcat` leaves in place of a version is no version. -/
theorem judge_not_version : ∀ k < 11,
    ¬ EqIgnoreCase ((bytes "judge.html").drop k) (bytes "HTTP/1.1") := by decide +kernel

/-- On a lone slash, the version is lost unless there are eleven blanks before it. -/
theorem versionLeft_iff (target gap' : List UInt8) {version : List UInt8}
    (hv : EqIgnoreCase version (bytes "HTTP/1.1")) :
    versionLeft target gap' version = version ↔
      (urlPath target = some [slash] → 11 ≤ gap'.length) := by
  unfold versionLeft
  constructor
  · intro h hroot
    by_contra hlt
    rw [if_pos ⟨hroot, by omega⟩] at h
    exact judge_not_version gap'.length (by omega) (h.symm ▸ hv)
  · intro h
    refine if_neg ?_
    rintro ⟨hroot, hle⟩
    have := h hroot
    omega

/-- **The grammar.** But for the lines on which a null pointer is handed on, a line is understood
as the grammar has it exactly when a target that stands for a lone slash has eleven
blanks behind it. -/
theorem followsGrammar_iff {s : Parser} {text : Nat} {l : List UInt8} (hl : Line s text)
    (hs : HasString s.readBuf text l) (hcgi : s.cgi = false)
    (hhost : ¬ ∃ t, Derives l t ∧ Unhosted t.target) :
    FollowsGrammar s text l ↔
      ∀ t, Derives l t → urlPath t.target = some [slash] → 11 ≤ t.gap'.length := by
  have h := parseRequestLine_outcome hs (hl.string_le hs)
  generalize hresult : parseRequestLine s text = result at h
  cases h with
  | null t ht hu => exact absurd ⟨t, ht, hu⟩ hhost
  | bad hno s' hs' =>
    have hnone : ¬ ∃ t u, HasPath l t u := by
      rintro ⟨t, u, ht, hu, hslash⟩
      exact (hno t ht).2 u hu hslash
    constructor
    · intro _ t ht hroot
      exact absurd rfl ((hno t ht).2 _ hroot)
    · intro _
      have hbad : HttpCode.badRequest = .noRequest ↔ ∃ t u, HasPath l t u :=
        ⟨fun h => (by cases h), fun h => absurd h hnone⟩
      refine ⟨_, s', hresult, hbad, ?_, fun _ => ⟨rfl, hs'⟩⟩
      intro t u hu
      exact absurd ⟨t, u, hu⟩ hnone
  | path t ht hu s' ha =>
    obtain ⟨u, hpath, hslash, hurl⟩ := ha.url
    have hunique : ∀ t' u', HasPath l t' u' → t' = t ∧ u' = u := by
      rintro t' u' ⟨ht', hu', -⟩
      obtain rfl := derives_unique ht ht'
      exact ⟨rfl, Option.some.inj (hu'.symm.trans hpath)⟩
    have hversion := versionLeft_iff t.target t.gap' ht.version
    have hpost : s'.cgi = true ↔ methodOf t.method = .post := by
      rw [ha.cgi, hcgi, Bool.false_or, decide_eq_true_eq]
    constructor
    · rintro ⟨ret, s'', hok, -, hparts, -⟩ t' ht' hroot
      obtain rfl := derives_unique ht ht'
      obtain ⟨-, rfl⟩ := Prod.mk.inj (Except.ok.inj (hresult.symm.trans hok))
      obtain ⟨-, -, -, hv, -⟩ := hparts t u ⟨ht, hpath, hslash⟩
      have hleft := Except.ok.inj (Option.some.inj (ha.version.symm.trans hv))
      exact hversion.mp hleft hroot
    · intro hroom
      have hleft := hversion.mpr (hroom t ht)
      refine ⟨_, s', hresult, ⟨fun _ => ⟨t, u, ht, hpath, hslash⟩, fun _ => rfl⟩, ?_, ?_⟩
      · intro t' u' h'
        obtain ⟨rfl, rfl⟩ := hunique t' u' h'
        refine ⟨ha.method, hpost, hurl, ?_, ha.checkState⟩
        rw [ha.version, hleft]
      · intro hnone
        exact absurd ⟨t, u, ht, hpath, hslash⟩ hnone

theorem followsGrammar_iff_page :
    FollowsGrammar (firstLine (getLine (bytes "/a")).text) 0 (getLine (bytes "/a")).text ↔
      ∀ t, Derives (getLine (bytes "/a")).text t → urlPath t.target = some [slash] →
        11 ≤ t.gap'.length := by
  refine followsGrammar_iff (firstLine_line (by decide)) (firstLine_string (by decide +kernel))
    rfl ?_
  rintro ⟨t, ht, hu, -⟩
  obtain rfl := derives_unique ht (derives_getLine (bytes "/a") (by decide) (by decide +kernel))
  exact absurd hu (by decide +kernel)

/-- `GET / HTTP/1.1` is accepted with `udge.html` for its version. -/
theorem version_overwritten : ¬ ∀ s text l, Line s text → HasString s.readBuf text l →
    s.cgi = false → (¬ ∃ t, Derives l t ∧ Unhosted t.target) → FollowsGrammar s text l := by
  intro h
  have hderives := derives_getLine (bytes "/") (by decide) (by decide +kernel)
  have hline : Line (firstLine (getLine (bytes "/")).text) 0 := firstLine_line (by decide)
  have hstring := firstLine_string (l := (getLine (bytes "/")).text) (by decide +kernel)
  have hpath : HasPath (getLine (bytes "/")).text (getLine (bytes "/")) [slash] :=
    ⟨hderives, by decide +kernel, rfl⟩
  obtain ⟨ret, s', hok, -, hparts, -⟩ := h _ 0 _ hline hstring rfl (by
    rintro ⟨t, ht, hu, -⟩
    obtain rfl := derives_unique ht hderives
    exact absurd hu (by decide +kernel))
  obtain ⟨-, -, -, hv, -⟩ := hparts _ _ hpath
  have houtcome := parseRequestLine_outcome hstring (hline.string_le hstring)
  rw [hok] at houtcome
  cases houtcome with
  | bad hno s' hs' => exact (hno _ hderives).2 _ hpath.2.1 rfl
  | path t ht hu s' ha =>
    obtain rfl := derives_unique ht hderives
    have hleft := Except.ok.inj (Option.some.inj (ha.version.symm.trans hv))
    have := (versionLeft_iff _ _ hderives.version).mp hleft hpath.2.1
    exact absurd this (by decide)

end TinyHTTP.Http
