import TinyHTTP.Http.Line

/-!
# TinyHTTP — what parsing a line depends on

The parse functions of the head work on one NUL-terminated line. They read
nothing behind its end, so bytes that arrive later change nothing
(`handleLine_deliver`), and they write nothing behind it (`Kept`), not even with
the `strcat` of `judge.html`: an accepted version leaves room for it.
-/

namespace TinyHTTP.Http

open TinyHTTP.Lib

/-- The result of a parse function with more bytes in the buffer. -/
def deliverTo (bs : List UInt8) (r : HttpCode × Parser) : HttpCode × Parser :=
  (r.1, r.2.deliver bs)

def Turn.deliver (bs : List UInt8) : Turn → Turn
  | .again st s => .again st (s.deliver bs)
  | .stop r s => .stop r (s.deliver bs)

/-- What arrives is written behind what has been read. -/
theorem sameBelow_deliver (s : Parser) (bs : List UInt8) :
    SameBelow s.readIdx s.readBuf (s.deliver bs).readBuf :=
  sameBelow_writeBytes s.readBuf bs (Nat.le_refl _)

/-- A write into what has been read, and one behind it, in either order. -/
theorem deliver_update (s : Parser) {i : Nat} (hi : i < s.readIdx) (b : UInt8) (bs : List UInt8) :
    Function.update (s.deliver bs).readBuf i b =
      writeBytes (Function.update s.readBuf i b) s.readIdx bs :=
  (writeBytes_update_comm b hi).symm

-- ---------------------------------------------------------------------------
-- The string functions
-- ---------------------------------------------------------------------------

/-- A scan that starts in front of a NUL does not get behind it. -/
theorem strpbrk_congr {m m' : Mem} {n size i : Nat} {set : List UInt8} (hs : SameBelow n m m')
    (hnul : NulBefore m i n) (hn : n ≤ size) : strpbrk m' size i set = strpbrk m size i set := by
  obtain ⟨j, hj, -, hjn, -⟩ := scanFrom_ok (fun b => set.contains b) hnul hn
  simp only [strpbrk, scanFrom_congr size _ hs hnul, hj, hs j hjn, bind, Except.bind]

theorem strchr_congr {m m' : Mem} {n size i : Nat} {c : UInt8} (hs : SameBelow n m m')
    (hnul : NulBefore m i n) (hn : n ≤ size) : strchr m' size i c = strchr m size i c := by
  obtain ⟨j, hj, -, hjn, -⟩ := scanFrom_ok (fun b => b == c) hnul hn
  simp only [strchr, scanFrom_congr size _ hs hnul, hj, hs j hjn, bind, Except.bind]

theorem skipSpan_congr {m m' : Mem} {n size i : Nat} {set : List UInt8} (hs : SameBelow n m m')
    (hnul : NulBefore m i n) : skipSpan m' size i set = skipSpan m size i set :=
  scanFrom_congr size _ hs hnul

theorem strEnd_congr {m m' : Mem} {n size i : Nat} (hs : SameBelow n m m')
    (hnul : NulBefore m i n) : strEnd m' size i = strEnd m size i :=
  scanFrom_congr size _ hs hnul

/-- Where `strpbrk` finds a byte, the string goes on. -/
theorem strpbrk_some {m : Mem} {size i e : Nat} {set : List UInt8}
    (h : strpbrk m size i set = .ok (some e)) :
    i ≤ e ∧ m e ≠ 0 ∧ ∀ k, i ≤ k → k < e → m k ≠ 0 := by
  obtain ⟨j, hj, hr⟩ := bind_ok.mp h
  obtain ⟨h₁, -, -, h₄⟩ := scanFrom_spec hj
  by_cases h0 : m j = 0
  · simp [h0, pure, Except.pure] at hr
  · obtain rfl : j = e := by simpa [h0, pure, Except.pure] using hr
    exact ⟨h₁, h0, fun k hik hkj => (h₄ k hik hkj).1⟩

/-- The first place, in front of the end of the string. -/
theorem strchr_some {m : Mem} {size i e : Nat} {c : UInt8}
    (h : strchr m size i c = .ok (some e)) :
    i ≤ e ∧ m e = c ∧ ∀ k, i ≤ k → k < e → m k ≠ 0 := by
  obtain ⟨j, hj, hr⟩ := bind_ok.mp h
  obtain ⟨h₁, -, h₃, h₄⟩ := scanFrom_spec hj
  by_cases h0 : m j = 0
  · simp [h0, pure, Except.pure] at hr
  · obtain rfl : j = e := by simpa [h0, pure, Except.pure] using hr
    refine ⟨h₁, ?_, fun k hik hkj => (h₄ k hik hkj).1⟩
    simpa [h0] using h₃

/-- Skipping a set without NUL does not go past the end of the string. -/
theorem skipSpan_ok {m : Mem} {size i j k : Nat} {set : List UInt8}
    (h : skipSpan m size i set = .ok j) (hik : i ≤ k) (hk : m k = 0) : i ≤ j ∧ j ≤ k := by
  obtain ⟨h₁, -, -, h₄⟩ := scanFrom_spec h
  refine ⟨h₁, ?_⟩
  by_contra hlt
  exact (h₄ k hik (by omega)).1 hk

/-- A string ends at its first NUL. -/
theorem strEnd_ok {m : Mem} {size i j k : Nat} (h : strEnd m size i = .ok j) (hik : i ≤ k)
    (hk : m k = 0) : i ≤ j ∧ j ≤ k ∧ m j = 0 := by
  obtain ⟨h₁, -, h₃, h₄⟩ := scanFrom_spec h
  refine ⟨h₁, ?_, by simpa using h₃⟩
  by_contra hlt
  exact (h₄ k hik (by omega)).1 hk

theorem atol_congr {m m' : Mem} {n size i : Nat} (hs : SameBelow n m m') (hnul : NulBefore m i n)
    (hn : n ≤ size) : atol m' size i = atol m size i := by
  obtain ⟨j, hj, hij, hjn, -, hmin⟩ := scanFrom_ok (fun b => !isSpace b) hnul hn
  obtain ⟨k, hik, hkn, hk⟩ := hnul
  have hjk : j ≤ k := by
    by_contra hlt
    exact (hmin k hik (by omega)).1 hk
  -- a sign is not the end of the string
  have hstart : (if m j = 43 ∨ m j = 45 then j + 1 else j) ≤ k := by
    split
    · rename_i hsign
      have hne : j ≠ k := by
        rintro rfl
        rw [hk] at hsign
        revert hsign
        decide
      omega
    · exact hjk
  have hnul' : NulBefore m (if m j = 43 ∨ m j = 45 then j + 1 else j) n := ⟨k, hstart, hkn, hk⟩
  obtain ⟨stop, hstop, -, hstopn, -⟩ := scanFrom_ok (fun b => !isDigit b) hnul' hn
  have hslice : slice m' (if m j = 43 ∨ m j = 45 then j + 1 else j)
      (stop - if m j = 43 ∨ m j = 45 then j + 1 else j) =
      slice m (if m j = 43 ∨ m j = 45 then j + 1 else j)
      (stop - if m j = 43 ∨ m j = 45 then j + 1 else j) := slice_congr hs (by omega)
  simp only [atol, scanFrom_congr size _ hs ⟨k, hik, hkn, hk⟩, hj, bind, Except.bind, hs j hjn,
    scanFrom_congr size _ hs hnul', hstop, hslice]

-- ---------------------------------------------------------------------------
-- Reads
-- ---------------------------------------------------------------------------

/-- The scheme is inside the string, so what is behind it is too. -/
theorem stripScheme_some {m : Mem} {scheme : List UInt8} {url z u : Nat}
    (h : stripScheme m scheme (some url) = .ok (some u)) (h0 : ∀ c ∈ scheme, lower c ≠ 0)
    (hz : m z = 0) (hu : url ≤ z) : url ≤ u ∧ u ≤ z := by
  rw [stripScheme] at h
  split at h
  · rename_i hcmp
    have hle := strncasecmpEq_le hcmp h0 hu hz
    obtain ⟨h₁, -, h₃⟩ := strchr_some h
    refine ⟨by omega, ?_⟩
    by_contra hlt
    exact h₃ z hle (by omega) hz
  · obtain rfl : url = u := by simpa using h
    exact ⟨Nat.le_refl _, hu⟩

theorem stripScheme_congr {m m' : Mem} {n : Nat} {scheme : List UInt8} (url : Option Nat) {z : Nat}
    (hs : SameBelow n m m') (h0 : ∀ c ∈ scheme, lower c ≠ 0) (hz : m z = 0) (hzn : z < n)
    (hn : n ≤ readBufferSize) (hu : ∀ u, url = some u → u ≤ z) :
    stripScheme m' scheme url = stripScheme m scheme url := by
  cases url with
  | none => rfl
  | some u =>
    have huz := hu u rfl
    have h0' : ∀ c ∈ scheme.dropLast, lower c ≠ 0 := fun c hc => h0 c (scheme.dropLast_subset hc)
    rw [stripScheme, stripScheme, strncasecmpEq_congr hs ⟨z, huz, hzn, hz⟩ h0']
    split
    · rename_i hcmp
      exact strchr_congr hs ⟨z, strncasecmpEq_le hcmp h0 huz hz, hzn, hz⟩ hn
    · rfl

/-- A text without NULs, checked byte by byte. -/
theorem lower_nonzero {text : List UInt8} (h : text.all (fun c => lower c != 0) = true) :
    ∀ c ∈ text, lower c ≠ 0 := by simpa using h

theorem http_nonzero : ∀ c ∈ bytes "http://", lower c ≠ 0 :=
  lower_nonzero (by decide)
theorem https_nonzero : ∀ c ∈ bytes "https://", lower c ≠ 0 :=
  lower_nonzero (by decide)

/-- The room `strcat` needs: the NUL at `z` that ends the target has the version behind it. -/
theorem parseUrl_deliver {s : Parser} {url z : Nat} (hz : s.readBuf z = 0) (hu : url ≤ z)
    (hroom : z + 11 ≤ s.readIdx) (hsize : s.readIdx ≤ readBufferSize) (bs : List UInt8) :
    parseUrl (s.deliver bs) url = (parseUrl s url).map (deliverTo bs) := by
  have hs := sameBelow_deliver s bs
  have hzn : z < s.readIdx := by omega
  have h₁ := stripScheme_congr (some url) hs http_nonzero hz hzn hsize
    fun u e => Option.some.inj e ▸ hu
  unfold parseUrl
  rw [h₁]
  cases hr₁ : stripScheme s.readBuf (bytes "http://") (some url) with
  | error f => rfl
  | ok url₁ =>
    have hu₁ : ∀ u, url₁ = some u → u ≤ z := by
      rintro u rfl
      exact (stripScheme_some hr₁ http_nonzero hz hu).2
    have h₂ := stripScheme_congr url₁ hs https_nonzero hz hzn hsize hu₁
    simp only [bind, Except.bind, h₂]
    cases hr₂ : stripScheme s.readBuf (bytes "https://") url₁ with
    | error f => rfl
    | ok url₂ =>
      cases url₂ with
      | none => rfl
      | some u =>
        have huz : u ≤ z := by
          cases url₁ with
          | none => simp [stripScheme] at hr₂
          | some u₁ => exact (stripScheme_some hr₂ https_nonzero hz (hu₁ u₁ rfl)).2
        have hu' : (s.deliver bs).readBuf u = s.readBuf u := hs u (by omega)
        simp only [hu']
        split
        · rfl
        · rw [strEnd_congr hs ⟨z, huz, hzn, hz⟩]
          cases hr₃ : strEnd s.readBuf readBufferSize u with
          | error f => rfl
          | ok e =>
            have hez := (strEnd_ok hr₃ huz hz).2.1
            simp only
            split
            · have hlen : (bytes "judge.html").length = 10 := by decide
              have hfit : e + (bytes "judge.html").length + 1 ≤ readBufferSize := by omega
              simp only [strcatAt, if_pos hfit]
              simp only [Parser.deliver, Except.map, deliverTo]
              rw [← writeBytes_comm]
              rw [List.length_append, hlen, List.length_singleton]
              omega
            · rfl

/-- A line that `parse_line` has taken off the buffer: it starts at `text`, and the CR and LF
before `m_checked_idx` are NULs now. -/
structure Line (s : Parser) (text : Nat) : Prop where
  text_le : text + 2 ≤ s.checkedIdx
  nul : s.readBuf (s.checkedIdx - 2) = 0
  nul' : s.readBuf (s.checkedIdx - 1) = 0
  checked_le : s.checkedIdx ≤ s.readIdx
  read_le : s.readIdx ≤ readBufferSize

/-- The NUL that ends the line. -/
theorem Line.exists_nul {s : Parser} {text : Nat} (h : Line s text) :
    ∃ k, k + 2 = s.checkedIdx ∧ text ≤ k ∧ s.readBuf k = 0 := by
  have htext := h.text_le
  exact ⟨s.checkedIdx - 2, by omega, by omega, h.nul⟩

/-- `strpbrk` finds its byte before the NUL of the line. -/
theorem strpbrk_lt {m : Mem} {size i e k : Nat} {set : List UInt8}
    (h : strpbrk m size i set = .ok (some e)) (hik : i ≤ k) (hk : m k = 0) : i ≤ e ∧ e < k := by
  obtain ⟨h₁, h₂, h₃⟩ := strpbrk_some h
  refine ⟨h₁, ?_⟩
  by_contra hlt
  by_cases hek : e = k
  · exact h₂ (hek ▸ hk)
  · exact h₃ k hik (by omega) hk

theorem version_nonzero : ∀ c ∈ bytes "HTTP/1.1", lower c ≠ 0 :=
  lower_nonzero (by decide)

/-- The target is parsed on the line that is there, whatever arrives behind it. -/
theorem parseTarget_deliver {s : Parser} {url k : Nat} (hk : s.readBuf k = 0) (hu : url ≤ k)
    (hkn : k + 2 ≤ s.readIdx) (hsize : s.readIdx ≤ readBufferSize) (bs : List UInt8) :
    parseTarget (s.deliver bs) url = (parseTarget s url).map (deliverTo bs) := by
  have hs := sameBelow_deliver s bs
  unfold parseTarget
  rw [skipSpan_congr hs ⟨k, hu, by omega, hk⟩]
  cases hr₁ : skipSpan s.readBuf readBufferSize url blanks with
  | error f => rfl
  | ok url₁ =>
    obtain ⟨-, hu₁⟩ := skipSpan_ok hr₁ hu hk
    simp only [bind, Except.bind]
    rw [strpbrk_congr hs ⟨k, hu₁, by omega, hk⟩ hsize]
    cases hr₂ : strpbrk s.readBuf readBufferSize url₁ blanks with
    | error f => rfl
    | ok version =>
      cases version with
      | none => rfl
      | some e =>
        obtain ⟨he₁, hek⟩ := strpbrk_lt hr₂ hu₁ hk
        have hbuf := deliver_update s (i := e) (by omega) 0 bs
        have hs' : SameBelow s.readIdx (Function.update s.readBuf e 0)
            (writeBytes (Function.update s.readBuf e 0) s.readIdx bs) :=
          sameBelow_writeBytes _ bs (Nat.le_refl _)
        have hk' : Function.update s.readBuf e 0 k = 0 := by
          rw [Function.update_of_ne (by omega), hk]
        simp only [hbuf]
        rw [skipSpan_congr hs' ⟨k, by omega, by omega, hk'⟩]
        cases hr₃ : skipSpan (Function.update s.readBuf e 0) readBufferSize (e + 1) blanks with
        | error f => rfl
        | ok version =>
          obtain ⟨hv₁, hv₂⟩ := skipSpan_ok hr₃ (by omega) hk'
          have hcmp : strcasecmpEq (writeBytes (Function.update s.readBuf e 0) s.readIdx bs)
              version (bytes "HTTP/1.1") =
              strcasecmpEq (Function.update s.readBuf e 0) version (bytes "HTTP/1.1") :=
            strncasecmpEq_congr hs' ⟨k, hv₂, by omega, hk'⟩ (by
              rw [List.dropLast_concat]
              exact version_nonzero)
          simp only [hcmp]
          split
          · rename_i hver
            have hfit :=
              strncasecmpEq_le (strncasecmpEq_of_strcasecmpEq hver) version_nonzero hv₂ hk'
            have hlen : (bytes "HTTP/1.1").length = 8 := by decide
            -- the NUL at `e`, the version, and the two NULs of the line
            exact parseUrl_deliver (s := { s with
                readBuf := Function.update s.readBuf e 0
                url := some url₁
                version := some version }) (Function.update_self ..) he₁
              (show e + 11 ≤ s.readIdx by omega) hsize bs
          · rfl

theorem get_nonzero : ∀ c ∈ bytes "GET", lower c ≠ 0 :=
  lower_nonzero (by decide)
theorem post_nonzero : ∀ c ∈ bytes "POST", lower c ≠ 0 :=
  lower_nonzero (by decide)

/-- **A request line** is parsed alike before and after more has arrived. -/
theorem parseRequestLine_deliver {s : Parser} {text : Nat} (h : Line s text) (bs : List UInt8) :
    parseRequestLine (s.deliver bs) text = (parseRequestLine s text).map (deliverTo bs) := by
  have hs := sameBelow_deliver s bs
  obtain ⟨k, hkc, htext, hk⟩ := h.exists_nul
  have hchecked := h.checked_le
  have hsize := h.read_le
  unfold parseRequestLine
  rw [strpbrk_congr hs ⟨k, by omega, by omega, hk⟩ hsize]
  cases hr₁ : strpbrk s.readBuf readBufferSize text blanks with
  | error f => rfl
  | ok url =>
    cases url with
    | none => rfl
    | some e =>
      obtain ⟨he₁, hek⟩ := strpbrk_lt hr₁ (by omega) hk
      have hbuf := deliver_update s (i := e) (by omega) 0 bs
      have hs' : SameBelow s.readIdx (Function.update s.readBuf e 0)
          (writeBytes (Function.update s.readBuf e 0) s.readIdx bs) :=
        sameBelow_writeBytes _ bs (Nat.le_refl _)
      have hk' : Function.update s.readBuf e 0 k = 0 := by
        rw [Function.update_of_ne (by omega), hk]
      have hget : strcasecmpEq (writeBytes (Function.update s.readBuf e 0) s.readIdx bs) text
          (bytes "GET") = strcasecmpEq (Function.update s.readBuf e 0) text (bytes "GET") :=
        strncasecmpEq_congr hs' ⟨k, by omega, by omega, hk'⟩ (by
          rw [List.dropLast_concat]
          exact get_nonzero)
      have hpost : strcasecmpEq (writeBytes (Function.update s.readBuf e 0) s.readIdx bs) text
          (bytes "POST") = strcasecmpEq (Function.update s.readBuf e 0) text (bytes "POST") :=
        strncasecmpEq_congr hs' ⟨k, by omega, by omega, hk'⟩ (by
          rw [List.dropLast_concat]
          exact post_nonzero)
      simp only [bind, Except.bind, hbuf, hget, hpost]
      split
      · exact parseTarget_deliver (s := { s with
            readBuf := Function.update s.readBuf e 0
            url := some (e + 1)
            method := .get }) hk' (by omega) (show k + 2 ≤ s.readIdx by omega) hsize bs
      · split
        · exact parseTarget_deliver (s := { s with
              readBuf := Function.update s.readBuf e 0
              url := some (e + 1)
              method := .post
              cgi := true }) hk' (by omega) (show k + 2 ≤ s.readIdx by omega) hsize bs
        · rfl

theorem connection_nonzero : ∀ c ∈ bytes "Connection:", lower c ≠ 0 :=
  lower_nonzero (by decide)
theorem contentLength_nonzero : ∀ c ∈ bytes "Content-length:", lower c ≠ 0 :=
  lower_nonzero (by decide)
theorem host_nonzero : ∀ c ∈ bytes "Host:", lower c ≠ 0 :=
  lower_nonzero (by decide)
theorem keepAlive_nonzero : ∀ c ∈ bytes "keep-alive", lower c ≠ 0 :=
  lower_nonzero (by decide)

/-- **A header** is parsed alike before and after more has arrived. -/
theorem parseHeaders_deliver {s : Parser} {text : Nat} (h : Line s text) (bs : List UInt8) :
    parseHeaders (s.deliver bs) text = (parseHeaders s text).map (deliverTo bs) := by
  have hs := sameBelow_deliver s bs
  obtain ⟨k, hkc, htext, hk⟩ := h.exists_nul
  have hchecked := h.checked_le
  have hsize := h.read_le
  have hnul : NulBefore s.readBuf text s.readIdx := ⟨k, by omega, by omega, hk⟩
  have hcmp : ∀ t : List UInt8, (∀ c ∈ t, lower c ≠ 0) →
      strncasecmpEq (s.deliver bs).readBuf text t = strncasecmpEq s.readBuf text t := fun t ht =>
    strncasecmpEq_congr hs hnul fun c hc => ht c (t.dropLast_subset hc)
  -- a header name that matches ends before the NUL of the line
  have hskip : ∀ t : List UInt8, (∀ c ∈ t, lower c ≠ 0) → strncasecmpEq s.readBuf text t = true →
      skipSpan (s.deliver bs).readBuf readBufferSize (text + t.length) blanks =
        skipSpan s.readBuf readBufferSize (text + t.length) blanks ∧
      ∀ p, skipSpan s.readBuf readBufferSize (text + t.length) blanks = .ok p →
        NulBefore s.readBuf p s.readIdx := by
    intro t ht hm
    have hle := strncasecmpEq_le hm ht (show text ≤ k by omega) hk
    refine ⟨skipSpan_congr hs ⟨k, hle, by omega, hk⟩, ?_⟩
    intro p hp
    exact ⟨k, (skipSpan_ok hp hle hk).2, by omega, hk⟩
  unfold parseHeaders
  rw [hs text (by omega), hcmp _ connection_nonzero, hcmp _ contentLength_nonzero,
    hcmp _ host_nonzero]
  split
  · rw [show (s.deliver bs).contentLength = s.contentLength from rfl]
    split <;> rfl
  split
  · rename_i hm
    obtain ⟨hcongr, hp⟩ := hskip _ connection_nonzero hm
    rw [show (bytes "Connection:").length = 11 by decide] at hcongr hp
    rw [hcongr]
    cases hr : skipSpan s.readBuf readBufferSize (text + 11) blanks with
    | error f => rfl
    | ok p =>
      have hkeep : strcasecmpEq (s.deliver bs).readBuf p (bytes "keep-alive") =
          strcasecmpEq s.readBuf p (bytes "keep-alive") :=
        strncasecmpEq_congr hs (hp p hr) (by
          rw [List.dropLast_concat]
          exact keepAlive_nonzero)
      simp only [bind, Except.bind, hkeep]
      split <;> rfl
  split
  · rename_i hm
    obtain ⟨hcongr, hp⟩ := hskip _ contentLength_nonzero hm
    rw [show (bytes "Content-length:").length = 15 by decide] at hcongr hp
    rw [hcongr]
    cases hr : skipSpan s.readBuf readBufferSize (text + 15) blanks with
    | error f => rfl
    | ok p =>
      simp only [bind, Except.bind, atol_congr hs (hp p hr) hsize]
      cases atol s.readBuf readBufferSize p <;> rfl
  split
  · rename_i hm
    obtain ⟨hcongr, -⟩ := hskip _ host_nonzero hm
    rw [show (bytes "Host:").length = 5 by decide] at hcongr
    rw [hcongr]
    cases skipSpan s.readBuf readBufferSize (text + 5) blanks <;> rfl
  · rfl

/-- **More input does not change what a head line means.** -/
theorem handleLine_deliver {s : Parser} (h : Line s s.startLine)
    (hhead : s.checkState ≠ .content) (bs : List UInt8) :
    handleLine (s.deliver bs) = (handleLine s).map (Turn.deliver bs) := by
  have hline : Line s.nextLine s.startLine :=
    ⟨h.text_le, h.nul, h.nul', h.checked_le, h.read_le⟩
  have hnext : (s.deliver bs).nextLine = s.nextLine.deliver bs := rfl
  have hstart : (s.deliver bs).startLine = s.startLine := rfl
  have hstate : (s.deliver bs).checkState = s.checkState := rfl
  unfold handleLine
  rw [hstart, hstate, hnext]
  cases hc : s.checkState with
  | content => exact absurd hc hhead
  | requestLine =>
    simp only [parseRequestLine_deliver hline bs]
    cases parseRequestLine s.nextLine s.startLine with
    | error f => rfl
    | ok r =>
      simp only [Except.map, deliverTo, requestLineTurn]
      split <;> rfl
  | header =>
    simp only [parseHeaders_deliver hline bs]
    cases parseHeaders s.nextLine s.startLine with
    | error f => rfl
    | ok r =>
      simp only [Except.map, deliverTo, headerTurn]
      split
      · rfl
      · split <;> rfl

end TinyHTTP.Http
