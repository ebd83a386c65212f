import TinyHTTP.Http.Locality

/-!
# TinyHTTP — what parsing a line changes

The results of the parse functions, once for each function (`parseUrl_ok`,
`parseTarget_ok`, `parseRequestLine_ok`, `parseHeaders_ok`), and what they leave
of the buffer: nothing behind the line is written, no CR appears, and every
string that was there still ends inside the line (`Parsed`).
-/

namespace TinyHTTP.Http

open TinyHTTP.Lib

/-- `judge.html` with its NUL, as `strcat` writes it. -/
def judgePage : List UInt8 := bytes "judge.html" ++ [0]

-- ---------------------------------------------------------------------------
-- Memory
-- ---------------------------------------------------------------------------

/-- What the writes of one line, which ends at `n`, leave of the buffer. -/
structure MemKept (n : Nat) (m m' : Mem) : Prop where
  above : ∀ j, n ≤ j → m' j = m j
  cr : ∀ j, m' j = cr → m j = cr
  nul : ∀ i, NulBefore m i n → NulBefore m' i n

theorem MemKept.refl (n : Nat) (m : Mem) : MemKept n m m :=
  ⟨fun _ _ => rfl, fun _ h => h, fun _ h => h⟩

/-- The writes of one line, one after the other. -/
theorem MemKept.trans {n : Nat} {m m' m'' : Mem} (h : MemKept n m m') (h' : MemKept n m' m'') :
    MemKept n m m'' where
  above := fun j hj => (h'.above j hj).trans (h.above j hj)
  cr := fun j hj => h.cr j (h'.cr j hj)
  nul := fun i hi => h'.nul i (h.nul i hi)

/-- A token is cut off by a NUL inside the line. -/
theorem memKept_update {n : Nat} (m : Mem) {e : Nat} (he : e < n) :
    MemKept n m (Function.update m e 0) where
  above := by
    intro j hj
    exact Function.update_of_ne (by omega) ..
  cr := by
    intro j hj
    by_cases hje : j = e
    · subst hje
      rw [Function.update_self] at hj
      exact absurd hj (by decide)
    · rwa [Function.update_of_ne hje] at hj
  nul := fun _ h => h.update e

/-- The page that is appended brings no CR into the buffer, so `parse_line` finds no line in it. -/
theorem judgePage_ne_cr : ∀ b ∈ judgePage, b ≠ cr := by decide +kernel

/-- `strcat` may write over the rest of the line, as far as it stays inside it; it ends with a NUL
of its own, so no string loses its end. -/
theorem memKept_judge {n : Nat} (m : Mem) {e : Nat} (he : e + 11 ≤ n) :
    MemKept n m (writeBytes m e judgePage) where
  above := by
    intro j hj
    have hlen : judgePage.length = 11 := by decide
    exact writeBytes_of_ge (by omega)
  cr := by
    intro j hj
    rcases writeBytes_cases m e judgePage j with hold | hnew
    · exact hold.symm.trans hj
    · exact absurd hj (judgePage_ne_cr _ hnew)
  nul := by
    intro i hi
    have hlen : (bytes "judge.html").length = 10 := by decide
    exact hi.writeBytes (bytes "judge.html") (by omega)

-- ---------------------------------------------------------------------------
-- Results
-- ---------------------------------------------------------------------------

/-- The results of `parse_request_line` once the version has been accepted. The target ends at
the NUL at `z`. -/
inductive UrlResult (s : Parser) (url z : Nat) : HttpCode → Parser → Prop
  | bad (u : Option Nat) (hu : ∀ i, u = some i → url ≤ i ∧ i ≤ z) :
      UrlResult s url z .badRequest { s with url := u }
  | page (u : Nat) (h₁ : url ≤ u) (h₂ : u < z) (hslash : s.readBuf u = slash)
      (hne : s.readBuf (u + 1) ≠ 0) :
      UrlResult s url z .noRequest { s with url := some u, checkState := .header }
  | root (u : Nat) (h₁ : url ≤ u) (h₂ : u < z) (hslash : s.readBuf u = slash)
      (hnul : s.readBuf (u + 1) = 0) :
      UrlResult s url z .noRequest { s with
        readBuf := writeBytes s.readBuf (u + 1) judgePage
        url := some u
        checkState := .header }

/-- The scheme, the slash and the length of the target decide between the three results. The target
ends before the NUL at `z`, whatever is skipped. -/
theorem parseUrl_ok {s s' : Parser} {url z : Nat} {ret : HttpCode}
    (h : parseUrl s url = .ok (ret, s')) (hz : s.readBuf z = 0) (hu : url ≤ z) :
    UrlResult s url z ret s' := by
  obtain ⟨url₁, hr₁, h⟩ := bind_ok.mp h
  obtain ⟨url₂, hr₂, h⟩ := bind_ok.mp h
  have hu₁ : ∀ u, url₁ = some u → url ≤ u ∧ u ≤ z := by
    rintro u rfl
    exact stripScheme_some hr₁ http_nonzero hz hu
  have hu₂ : ∀ u, url₂ = some u → url ≤ u ∧ u ≤ z := by
    rintro u rfl
    cases url₁ with
    | none => simp [stripScheme] at hr₂
    | some u₁ =>
      obtain ⟨h₁, h₂⟩ := hu₁ u₁ rfl
      have := stripScheme_some hr₂ https_nonzero hz h₂
      omega
  cases url₂ with
  | none =>
    obtain ⟨rfl, rfl⟩ : HttpCode.badRequest = ret ∧ { s with url := none } = s' := by
      simpa using h
    exact .bad none (by simp)
  | some u =>
    obtain ⟨h₁, h₂⟩ := hu₂ u rfl
    simp only at h
    split at h
    · obtain ⟨rfl, rfl⟩ : HttpCode.badRequest = ret ∧ { s with url := some u } = s' := by
        simpa using h
      refine .bad (some u) ?_
      rintro i ⟨⟩
      exact ⟨h₁, h₂⟩
    · rename_i hslash
      rw [not_not] at hslash
      have hne : u ≠ z := by
        rintro rfl
        rw [hz] at hslash
        exact absurd hslash (by decide)
      obtain ⟨e, hr₃, h⟩ := bind_ok.mp h
      obtain ⟨h₃, -, h₅⟩ := strEnd_ok hr₃ h₂ hz
      have hue : u ≠ e := by
        rintro rfl
        rw [h₅] at hslash
        exact absurd hslash (by decide)
      split at h
      · rename_i hlen
        obtain rfl : e = u + 1 := by omega
        obtain ⟨buf, hr₄, h⟩ := bind_ok.mp h
        have hbuf : buf = writeBytes s.readBuf (u + 1) judgePage := by
          unfold strcatAt at hr₄
          split at hr₄
          · cases hr₄
            rfl
          · cases hr₄
        subst hbuf
        cases h
        exact .root u h₁ (by omega) hslash h₅
      · rename_i hlen
        cases h
        refine .page u h₁ (by omega) hslash ?_
        intro h0
        -- the scan would have stopped at `u + 1`
        have := (scanFrom_spec hr₃).2.2.2 (u + 1) (by omega) (by omega)
        exact this.1 h0

/-- The results of `parse_request_line` once the method has been recognised, on a line whose
NUL is at `k`. -/
inductive TargetResult (s : Parser) (url k : Nat) : HttpCode → Parser → Prop
  | noVersion (u : Nat) (h₁ : url ≤ u) (h₂ : u ≤ k) :
      TargetResult s url k .badRequest { s with url := some u, version := none }
  | badVersion (u e v : Nat) (h₁ : url ≤ u) (h₂ : u ≤ e) (h₃ : e < v) (h₄ : v ≤ k) :
      TargetResult s url k .badRequest { s with
        readBuf := Function.update s.readBuf e 0
        url := some u
        version := some v }
  | version (u e v : Nat) (h₁ : url ≤ u) (h₂ : u ≤ e) (h₃ : e < v) (h₄ : v + 8 ≤ k)
      {ret : HttpCode} {s' : Parser} (h : UrlResult { s with
        readBuf := Function.update s.readBuf e 0
        url := some u
        version := some v } u e ret s') : TargetResult s url k ret s'

/-- The target is cut off at `e` by a NUL, which is the one that `parse_url` then finds; the version
is compared in full, so eight bytes of it are inside the line. -/
theorem parseTarget_ok {s s' : Parser} {url k : Nat} {ret : HttpCode}
    (h : parseTarget s url = .ok (ret, s')) (hk : s.readBuf k = 0) (hu : url ≤ k) :
    TargetResult s url k ret s' := by
  obtain ⟨u, hr₁, h⟩ := bind_ok.mp h
  obtain ⟨hu₁, hu₂⟩ := skipSpan_ok hr₁ hu hk
  obtain ⟨version, hr₂, h⟩ := bind_ok.mp h
  cases version with
  | none =>
    cases h
    exact .noVersion u hu₁ hu₂
  | some e =>
    obtain ⟨he₁, he₂⟩ := strpbrk_lt hr₂ hu₂ hk
    have hk' : Function.update s.readBuf e 0 k = 0 := by
      rw [Function.update_of_ne (by omega), hk]
    obtain ⟨v, hr₃, h⟩ := bind_ok.mp h
    obtain ⟨hv₁, hv₂⟩ := skipSpan_ok hr₃ (by omega) hk'
    simp only at h
    split at h
    · rename_i hver
      have hfit := strncasecmpEq_le (strncasecmpEq_of_strcasecmpEq hver) version_nonzero hv₂ hk'
      have hlen : (bytes "HTTP/1.1").length = 8 := by decide
      exact .version u e v hu₁ he₁ (by omega) (by omega)
        (parseUrl_ok h (Function.update_self ..) he₁)
    · cases h
      exact .badVersion u e v hu₁ he₁ (by omega) hv₂

/-- The results of `parse_request_line`, on a line whose NUL is at `k`. -/
inductive RequestLineResult (s : Parser) (text k : Nat) : HttpCode → Parser → Prop
  | noUrl : RequestLineResult s text k .badRequest { s with url := none }
  | badMethod (e : Nat) (h₁ : text ≤ e) (h₂ : e < k) :
      RequestLineResult s text k .badRequest { s with
        readBuf := Function.update s.readBuf e 0
        url := some (e + 1) }
  | get (e : Nat) (h₁ : text ≤ e) (h₂ : e < k) {ret : HttpCode} {s' : Parser}
      (h : TargetResult { s with
        readBuf := Function.update s.readBuf e 0
        url := some (e + 1)
        method := .get } (e + 1) k ret s') : RequestLineResult s text k ret s'
  | post (e : Nat) (h₁ : text ≤ e) (h₂ : e < k) {ret : HttpCode} {s' : Parser}
      (h : TargetResult { s with
        readBuf := Function.update s.readBuf e 0
        url := some (e + 1)
        method := .post
        cgi := true } (e + 1) k ret s') : RequestLineResult s text k ret s'

/-- The method is cut off at `e`, and everything else happens behind it. -/
theorem parseRequestLine_ok {s s' : Parser} {text k : Nat} {ret : HttpCode}
    (h : parseRequestLine s text = .ok (ret, s')) (hk : s.readBuf k = 0) (hu : text ≤ k) :
    RequestLineResult s text k ret s' := by
  obtain ⟨url, hr₁, h⟩ := bind_ok.mp h
  cases url with
  | none =>
    cases h
    exact .noUrl
  | some e =>
    obtain ⟨he₁, he₂⟩ := strpbrk_lt hr₁ hu hk
    have hk' : Function.update s.readBuf e 0 k = 0 := by
      rw [Function.update_of_ne (by omega), hk]
    simp only at h
    split at h
    · exact .get e he₁ he₂ (parseTarget_ok h hk' (by omega))
    split at h
    · exact .post e he₁ he₂ (parseTarget_ok h hk' (by omega))
    · cases h
      exact .badMethod e he₁ he₂

/-- The results of `parse_headers`, on a line whose NUL is at `k`. -/
inductive HeadersResult (s : Parser) (text k : Nat) : HttpCode → Parser → Prop
  | content (h : s.readBuf text = 0) (hn : s.contentLength ≠ 0) :
      HeadersResult s text k .noRequest { s with checkState := .content }
  | done (h : s.readBuf text = 0) (hn : s.contentLength = 0) : HeadersResult s text k .getRequest s
  | keepAlive (h : s.readBuf text ≠ 0) :
      HeadersResult s text k .noRequest { s with linger := true }
  | contentLength (h : s.readBuf text ≠ 0) (n : Int) :
      HeadersResult s text k .noRequest { s with contentLength := n }
  | host (h : s.readBuf text ≠ 0) (p : Nat) (hp : text ≤ p ∧ p ≤ k) :
      HeadersResult s text k .noRequest { s with host := some p }
  | other (h : s.readBuf text ≠ 0) : HeadersResult s text k .noRequest s

/-- The headers are tested in the order of the source. Only `Host:` keeps a pointer into the line,
and it points to where the line has not ended yet. -/
theorem parseHeaders_ok {s s' : Parser} {text k : Nat} {ret : HttpCode}
    (h : parseHeaders s text = .ok (ret, s')) (hk : s.readBuf k = 0) (hu : text ≤ k) :
    HeadersResult s text k ret s' := by
  unfold parseHeaders at h
  split at h
  · rename_i h0
    split at h
    · rename_i hn
      cases h
      exact .content h0 hn
    · rename_i hn
      cases h
      exact .done h0 (by simpa using hn)
  rename_i h0
  split at h
  · obtain ⟨p, -, h⟩ := bind_ok.mp h
    split at h
    · cases h
      exact .keepAlive h0
    · cases h
      exact .other h0
  split at h
  · obtain ⟨p, -, h⟩ := bind_ok.mp h
    obtain ⟨n, -, h⟩ := bind_ok.mp h
    cases h
    exact .contentLength h0 _
  split at h
  · rename_i hm
    obtain ⟨p, hp, h⟩ := bind_ok.mp h
    have hle := strncasecmpEq_le hm host_nonzero hu hk
    have hlen : (bytes "Host:").length = 5 := by decide
    obtain ⟨h₁, h₂⟩ := skipSpan_ok hp (by omega) hk
    cases h
    exact .host h0 p ⟨by omega, h₂⟩
  · cases h
    exact .other h0

-- ---------------------------------------------------------------------------
-- What is kept
-- ---------------------------------------------------------------------------

/-- One of the string pointers a head line can set. -/
def Parser.Points (s : Parser) (i : Nat) : Prop :=
  s.url = some i ∨ s.version = some i ∨ s.host = some i

/-- What parsing a line that ends at `m_checked_idx` leaves of the parser. -/
structure Parsed (s s' : Parser) : Prop where
  readIdx : s'.readIdx = s.readIdx
  checkedIdx : s'.checkedIdx = s.checkedIdx
  startLine : s'.startLine = s.startLine
  string : s'.string = s.string
  mem : MemKept s.checkedIdx s.readBuf s'.readBuf
  points : ∀ i, s'.Points i → s.Points i ∨ NulBefore s'.readBuf i s.checkedIdx

/-- A target that is a slash alone has `judge.html` written behind it: the eleven bytes need
`hroom`, which the version of the request line makes. -/
theorem urlResult_parsed {s s' : Parser} {url z : Nat} {ret : HttpCode}
    (h : UrlResult s url z ret s') (hz : s.readBuf z = 0) (hroom : z + 11 ≤ s.checkedIdx) :
    Parsed s s' := by
  cases h with
  | bad u hu =>
    refine ⟨rfl, rfl, rfl, rfl, MemKept.refl _ _, ?_⟩
    rintro i (hi | hi | hi)
    · exact Or.inr ⟨z, (hu i hi).2, by omega, hz⟩
    · exact Or.inl (Or.inr (Or.inl hi))
    · exact Or.inl (Or.inr (Or.inr hi))
  | page u h₁ h₂ hslash hne =>
    refine ⟨rfl, rfl, rfl, rfl, MemKept.refl _ _, ?_⟩
    rintro i (hi | hi | hi)
    · obtain rfl : u = i := Option.some.inj hi
      exact Or.inr ⟨z, by omega, by omega, hz⟩
    · exact Or.inl (Or.inr (Or.inl hi))
    · exact Or.inl (Or.inr (Or.inr hi))
  | root u h₁ h₂ hslash hnul =>
    -- the NUL at `z` may be overwritten, and the pointer keeps the one that `strcat` brings
    have hmem := memKept_judge s.readBuf (e := u + 1) (n := s.checkedIdx) (by omega)
    refine ⟨rfl, rfl, rfl, rfl, hmem, ?_⟩
    rintro i (hi | hi | hi)
    · obtain rfl : u = i := Option.some.inj hi
      exact Or.inr (hmem.nul _ ⟨z, by omega, by omega, hz⟩)
    · exact Or.inl (Or.inr (Or.inl hi))
    · exact Or.inl (Or.inr (Or.inr hi))

/-- The room for `judge.html` is that of a version that was accepted: it takes eight bytes, and CR
and LF two. -/
theorem targetResult_parsed {s s' : Parser} {url k : Nat} {ret : HttpCode}
    (h : TargetResult s url k ret s') (hk : s.readBuf k = 0) (hkc : k + 2 = s.checkedIdx) :
    Parsed s s' := by
  cases h with
  | noVersion u h₁ h₂ =>
    refine ⟨rfl, rfl, rfl, rfl, MemKept.refl _ _, ?_⟩
    rintro i (hi | hi | hi)
    · obtain rfl : u = i := Option.some.inj hi
      exact Or.inr ⟨k, h₂, by omega, hk⟩
    · cases hi
    · exact Or.inl (Or.inr (Or.inr hi))
  | badVersion u e v h₁ h₂ h₃ h₄ =>
    have hmem := memKept_update s.readBuf (e := e) (n := s.checkedIdx) (by omega)
    refine ⟨rfl, rfl, rfl, rfl, hmem, ?_⟩
    have hk' : NulBefore s.readBuf k s.checkedIdx := ⟨k, Nat.le_refl _, by omega, hk⟩
    obtain ⟨k', hkk', hkn', hk0'⟩ := hmem.nul k hk'
    rintro i (hi | hi | hi)
    · obtain rfl : u = i := Option.some.inj hi
      exact Or.inr ⟨k', by omega, hkn', hk0'⟩
    · obtain rfl : v = i := Option.some.inj hi
      exact Or.inr ⟨k', by omega, hkn', hk0'⟩
    · exact Or.inl (Or.inr (Or.inr hi))
  | version u e v h₁ h₂ h₃ h₄ h =>
    have hmem := memKept_update s.readBuf (e := e) (n := s.checkedIdx) (by omega)
    obtain ⟨g₁, g₂, g₃, g₄, g₅, g₆⟩ := urlResult_parsed h (Function.update_self ..)
      (show e + 11 ≤ s.checkedIdx by omega)
    refine ⟨g₁, g₂, g₃, g₄, hmem.trans g₅, ?_⟩
    have hk' : NulBefore s.readBuf k s.checkedIdx := ⟨k, Nat.le_refl _, by omega, hk⟩
    obtain ⟨k', hkk', hkn', hk0'⟩ := g₅.nul k (hmem.nul k hk')
    intro i hi
    rcases g₆ i hi with (hi | hi | hi) | hi
    · obtain rfl : u = i := Option.some.inj hi
      exact Or.inr ⟨k', by omega, hkn', hk0'⟩
    · obtain rfl : v = i := Option.some.inj hi
      exact Or.inr ⟨k', by omega, hkn', hk0'⟩
    · exact Or.inl (Or.inr (Or.inr hi))
    · exact Or.inr hi

/-- The method has been cut off at `e`; what follows keeps what is left. -/
theorem parsed_of_method {s s₁ s' : Parser} {e k : Nat} (h : Parsed s₁ s')
    (hk : s.readBuf k = 0) (hkc : k + 2 = s.checkedIdx) (he : e < k)
    (hbuf : s₁.readBuf = Function.update s.readBuf e 0) (hread : s₁.readIdx = s.readIdx)
    (hchecked : s₁.checkedIdx = s.checkedIdx) (hstart : s₁.startLine = s.startLine)
    (hstring : s₁.string = s.string) (hurl : s₁.url = some (e + 1))
    (hversion : s₁.version = s.version) (hhost : s₁.host = s.host) : Parsed s s' := by
  have hmem := memKept_update s.readBuf (e := e) (n := s.checkedIdx) (by omega)
  obtain ⟨g₁, g₂, g₃, g₄, g₅, g₆⟩ := h
  rw [hchecked, hbuf] at g₅
  refine ⟨g₁.trans hread, g₂.trans hchecked, g₃.trans hstart, g₄.trans hstring, hmem.trans g₅, ?_⟩
  have hk' : NulBefore s.readBuf k s.checkedIdx := ⟨k, Nat.le_refl _, by omega, hk⟩
  -- the NUL of the line, or one in front of it, is still there
  obtain ⟨k', hkk', hkn', hk0'⟩ := g₅.nul k (hmem.nul k hk')
  intro i hi
  rcases g₆ i hi with (hi | hi | hi) | hi
  · rw [hurl] at hi
    obtain rfl : e + 1 = i := Option.some.inj hi
    exact Or.inr ⟨k', by omega, hkn', hk0'⟩
  · exact Or.inl (Or.inr (Or.inl (hversion ▸ hi)))
  · exact Or.inl (Or.inr (Or.inr (hhost ▸ hi)))
  · rw [hchecked] at hi
    exact Or.inr hi

/-- **A request line keeps to itself.** -/
theorem parseRequestLine_parsed {s s' : Parser} {text : Nat} {ret : HttpCode} (hl : Line s text)
    (h : parseRequestLine s text = .ok (ret, s')) : Parsed s s' := by
  obtain ⟨k, hkc, htext, hk⟩ := hl.exists_nul
  cases parseRequestLine_ok h hk (by omega) with
  | noUrl =>
    refine ⟨rfl, rfl, rfl, rfl, MemKept.refl _ _, ?_⟩
    rintro i (hi | hi | hi)
    · cases hi
    · exact Or.inl (Or.inr (Or.inl hi))
    · exact Or.inl (Or.inr (Or.inr hi))
  | badMethod e h₁ h₂ =>
    have hp : Parsed { s with readBuf := Function.update s.readBuf e 0, url := some (e + 1) }
        { s with readBuf := Function.update s.readBuf e 0, url := some (e + 1) } :=
      ⟨rfl, rfl, rfl, rfl, MemKept.refl _ _, fun i hi => Or.inl hi⟩
    exact parsed_of_method hp hk hkc h₂ rfl rfl rfl rfl rfl rfl rfl rfl
  | get e h₁ h₂ h =>
    have hk' : Function.update s.readBuf e 0 k = 0 := by
      rw [Function.update_of_ne (by omega), hk]
    exact parsed_of_method (targetResult_parsed h hk' hkc) hk hkc h₂ rfl rfl rfl rfl rfl rfl rfl rfl
  | post e h₁ h₂ h =>
    have hk' : Function.update s.readBuf e 0 k = 0 := by
      rw [Function.update_of_ne (by omega), hk]
    exact parsed_of_method (targetResult_parsed h hk' hkc) hk hkc h₂ rfl rfl rfl rfl rfl rfl rfl rfl

/-- So does a header: of the buffer it changes nothing at all. -/
theorem parseHeaders_parsed {s s' : Parser} {text : Nat} {ret : HttpCode} (hl : Line s text)
    (h : parseHeaders s text = .ok (ret, s')) : Parsed s s' := by
  obtain ⟨k, hkc, htext, hk⟩ := hl.exists_nul
  cases parseHeaders_ok h hk (by omega) with
  | content | done | keepAlive | contentLength | other =>
    exact ⟨rfl, rfl, rfl, rfl, MemKept.refl _ _, fun i hi => Or.inl hi⟩
  | host _ p hp =>
    refine ⟨rfl, rfl, rfl, rfl, MemKept.refl _ _, ?_⟩
    rintro i (hi | hi | hi)
    · exact Or.inl (Or.inl hi)
    · exact Or.inl (Or.inr (Or.inl hi))
    · obtain rfl : p = i := Option.some.inj hi
      exact Or.inr ⟨k, hp.2, by omega, hk⟩

end TinyHTTP.Http
