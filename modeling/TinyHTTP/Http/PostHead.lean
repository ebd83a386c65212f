import TinyHTTP.Lib.CString
import TinyHTTP.Http.Head

/-!
# TinyHTTP — the head of a request with a body

A request as its client means it: a request line, header lines, a blank line and
a body (`Request`). `headRun_request`: on the head of such a request the parser
ends up in `CHECK_STATE_CONTENT`, right behind the blank line, with the length
that the last `Content-length` header announces.
-/

namespace TinyHTTP.Http

open TinyHTTP.Lib

/-- The value of a `Content-length` header line, as `parse_headers` reads it. -/
def headerLength (h : List UInt8) : Option Int :=
  if (h.take 15).map lower = (bytes "Content-length:").map lower then
    some (toInt32 (atolList ((h.drop 15).dropWhile fun b => blanks.contains b)))
  else none

/-- The length the header lines announce: the last `Content-length` counts. -/
def announced (headers : List (List UInt8)) : Int :=
  headers.foldl (fun n h => (headerLength h).getD n) 0

structure Request where
  line : List UInt8
  headers : List (List UInt8)
  body : List UInt8

/-- The header lines, each with its CRLF. -/
def headerBytes (headers : List (List UInt8)) : List UInt8 := headers.flatMap fun h => h ++ crlf

/-- Everything before the body. -/
def Request.head (r : Request) : List UInt8 :=
  r.line ++ crlf ++ headerBytes r.headers ++ crlf

def Request.bytes (r : Request) : List UInt8 := r.head ++ r.body

/-- A byte that can stand in a header line. -/
def Printable (b : UInt8) : Prop := b ≠ cr ∧ b ≠ lf ∧ b ≠ 0

instance (b : UInt8) : Decidable (Printable b) := inferInstanceAs (Decidable (_ ∧ _ ∧ _))

/-- The request is well formed, for a parser that has just been initialised: its request line is
one that `process_read` accepts, and the body has the length its header announces. -/
structure Request.WellFormed (s₀ : Parser) (r : Request) : Prop where
  lineClean : ∀ b ∈ r.line, b ≠ cr ∧ b ≠ lf
  accepted : ∃ s, turn .lineOk (s₀.init.deliver (r.line ++ crlf)) = .ok (.again .lineOk s) ∧
    s.method = .post
  headerClean : ∀ h ∈ r.headers, h ≠ [] ∧ ∀ b ∈ h, Printable b
  length : announced r.headers = r.body.length
  body : r.body ≠ []
  fits : r.bytes.length < readBufferSize

-- ---------------------------------------------------------------------------
-- One header line
-- ---------------------------------------------------------------------------

/-- No header line is both a `Connection` and a `Content-length` header. -/
theorem headerLength_connection {h : List UInt8}
    (hc : (h.take 11).map lower = (bytes "Connection:").map lower) : headerLength h = none := by
  unfold headerLength
  rw [if_neg ?_]
  intro hl
  have h₁ : (h.take 4).map lower = [99, 111, 110, 110] := by
    have := congrArg (List.take 4) hc
    rw [← List.map_take, List.take_take] at this
    exact this.trans (by decide)
  have h₂ : (h.take 4).map lower = [99, 111, 110, 116] := by
    have := congrArg (List.take 4) hl
    rw [← List.map_take, List.take_take] at this
    exact this.trans (by decide)
  rw [h₁] at h₂
  exact absurd h₂ (by decide)

/-- `parse_headers` on a line that is not blank. -/
theorem parseHeaders_string {s : Parser} {text : Nat} {h : List UInt8}
    (hs : HasString s.readBuf text h) (hne : h ≠ [])
    (hsize : text + h.length < readBufferSize) :
    ∃ s', parseHeaders s text = .ok (.noRequest, s') ∧ s'.checkState = s.checkState ∧
      s'.contentLength = (headerLength h).getD s.contentLength := by
  obtain ⟨b, rest, rfl⟩ := List.exists_cons_of_ne_nil hne
  have h0 : s.readBuf text ≠ 0 := by
    have hb : s.readBuf text = b := hs.byte 0 (by simp)
    rw [hb]
    exact hs.nonzero b (by simp)
  generalize b :: rest = h at hs hsize
  -- a header name that matches is a beginning of the line
  have hskip : ∀ t : List UInt8, (∀ c ∈ t, lower c ≠ 0) → strncasecmpEq s.readBuf text t = true →
      ∃ p, skipSpan s.readBuf readBufferSize (text + t.length) blanks = .ok p ∧
        HasString s.readBuf p ((h.drop t.length).dropWhile fun b => blanks.contains b) ∧
        p + ((h.drop t.length).dropWhile fun b => blanks.contains b).length < readBufferSize := by
    intro t ht hm
    have hpre := (strncasecmpEq_string hs ht).mp hm
    have hle : t.length ≤ h.length := by
      have := congrArg List.length hpre
      rw [List.length_map, List.length_map, List.length_take] at this
      omega
    have hd := hs.drop hle
    have hlen : (h.drop t.length).length = h.length - t.length := List.length_drop
    obtain ⟨p, hp, hpl, hps⟩ := skipSpan_string readBufferSize blanks hd (by omega)
    exact ⟨p, hp, hps, by omega⟩
  unfold parseHeaders
  rw [if_neg h0]
  split
  · rename_i hm
    obtain ⟨p, hp, -, -⟩ := hskip _ connection_nonzero hm
    have hnone := headerLength_connection ((strncasecmpEq_string hs connection_nonzero).mp hm)
    rw [show (bytes "Connection:").length = 11 by decide] at hp
    simp only [hp, bind, Except.bind]
    split
    · exact ⟨_, rfl, rfl, by rw [hnone]; rfl⟩
    · exact ⟨_, rfl, rfl, by rw [hnone]; rfl⟩
  split
  · rename_i hm
    obtain ⟨p, hp, hps, hpl⟩ := hskip _ contentLength_nonzero hm
    have hpre := (strncasecmpEq_string hs contentLength_nonzero).mp hm
    rw [show (bytes "Content-length:").length = 15 by decide] at hp hps hpl hpre
    have hatol := atol_string hps hpl
    simp only [hp, hatol, bind, Except.bind]
    refine ⟨_, rfl, rfl, ?_⟩
    rw [headerLength, if_pos hpre]
    rfl
  rename_i hm
  have hnone : headerLength h = none := by
    rw [headerLength, if_neg ?_]
    intro hpre
    exact hm ((strncasecmpEq_string hs contentLength_nonzero).mpr hpre)
  split
  · rename_i hm
    obtain ⟨p, hp, -, -⟩ := hskip _ host_nonzero hm
    rw [show (bytes "Host:").length = 5 by decide] at hp
    simp only [hp, bind, Except.bind]
    exact ⟨_, rfl, rfl, by rw [hnone]; rfl⟩
  · exact ⟨_, rfl, rfl, by rw [hnone]; rfl⟩

-- ---------------------------------------------------------------------------
-- The header lines
-- ---------------------------------------------------------------------------

/-- The parser stands at the start of a header line, with nothing more to read yet. -/
structure AtHeader (s : Parser) (i : Nat) : Prop where
  inv : HeadInv s
  state : s.checkState = .header
  start : s.startLine = i
  checked : s.checkedIdx = i
  read : s.readIdx = i

/-- A clean line in the buffer, followed by its CRLF. -/
theorem deliver_line {s : Parser} (line : List UInt8) (hclean : ∀ b ∈ line, b ≠ cr ∧ b ≠ lf)
    (hchecked : s.checkedIdx = s.readIdx) :
    (s.deliver (line ++ crlf)).CleanTo (s.readIdx + line.length) ∧
      (s.deliver (line ++ crlf)).readBuf (s.readIdx + line.length) = cr ∧
      (s.deliver (line ++ crlf)).readBuf (s.readIdx + line.length + 1) = lf := by
  have hlen : (line ++ crlf).length = line.length + 2 := by simp [crlf]
  refine ⟨?_, ?_, ?_⟩
  · intro k hk hkc
    replace hk : s.checkedIdx ≤ k := hk
    have hk' : k = s.readIdx + (k - s.readIdx) := by omega
    rw [hk']
    show writeBytes s.readBuf s.readIdx (line ++ crlf) (s.readIdx + (k - s.readIdx)) ≠ cr ∧
      writeBytes s.readBuf s.readIdx (line ++ crlf) (s.readIdx + (k - s.readIdx)) ≠ lf
    have hlt : k - s.readIdx < line.length := by omega
    rw [writeBytes_of_mem (by omega), List.getElem_append_left hlt]
    exact hclean _ (List.getElem_mem _)
  · show writeBytes s.readBuf s.readIdx (line ++ crlf) (s.readIdx + line.length) = cr
    rw [writeBytes_of_mem (by omega), List.getElem_append_right (by omega)]
    simp [crlf]
  · show writeBytes s.readBuf s.readIdx (line ++ crlf) (s.readIdx + line.length + 1) = lf
    rw [Nat.add_assoc, writeBytes_of_mem (by omega), List.getElem_append_right (by omega)]
    simp [crlf]

/-- The parser with `line` and its CRLF taken off, as `parse_headers` gets it. -/
def Parser.lineTaken (s : Parser) (line : List UInt8) : Parser :=
  ((s.deliver (line ++ crlf)).takeLine (s.readIdx + line.length)).nextLine

/-- What a turn needs to know about the line: its text, and that parsing it is all that happens. -/
theorem line_turn {s : Parser} {i : Nat} (h : AtHeader s i) {line : List UInt8}
    (hclean : ∀ b ∈ line, Printable b) (hfit : i + line.length + 2 ≤ readBufferSize) :
    HasString (s.lineTaken line).readBuf i line ∧
      ∀ s', parseHeaders (s.lineTaken line) i = .ok (.noRequest, s') →
        (∀ bs, turn .lineOk ((s.deliver (line ++ crlf)).deliver bs) =
          .ok (.again .lineOk (s'.deliver bs))) ∧
        HeadInv s' ∧ s'.startLine = i + (line.length + 2) ∧
        s'.checkedIdx = i + (line.length + 2) ∧ s'.readIdx = i + (line.length + 2) ∧
        s'.string = s.string := by
  obtain ⟨hinv, hstate, hstart, hchecked, hread⟩ := h
  have hlen : (line ++ crlf).length = line.length + 2 := by simp [crlf]
  obtain ⟨hc, hcr, hlf⟩ := deliver_line line (fun b hb => ⟨(hclean b hb).1, (hclean b hb).2.1⟩)
    (hchecked.trans hread.symm)
  have htaken : s.lineTaken line =
      ((s.deliver (line ++ crlf)).takeLine (i + line.length)).nextLine := by
    rw [Parser.lineTaken, hread]
  rw [htaken]
  rw [hread] at hc hcr hlf
  have hinv₁ : HeadInv (s.deliver (line ++ crlf)) := hinv.deliver (by omega)
  have hread₁ : (s.deliver (line ++ crlf)).readIdx = i + (line.length + 2) := by
    show s.readIdx + (line ++ crlf).length = _
    omega
  have hle : (s.deliver (line ++ crlf)).checkedIdx ≤ i + line.length := by
    show s.checkedIdx ≤ _
    omega
  have hhead : (s.deliver (line ++ crlf)).checkState ≠ .content := by
    show s.checkState ≠ _
    rw [hstate]
    decide
  have hlt : i + line.length + 1 < (s.deliver (line ++ crlf)).readIdx := by omega
  obtain ⟨-, hturn⟩ := turn_line hinv₁ hhead hle hlt hc hcr hlf
  constructor
  · refine ⟨?_, ?_, fun b hb => (hclean b hb).2.2⟩
    · intro k hk
      show Function.update (Function.update (writeBytes s.readBuf s.readIdx (line ++ crlf))
        (i + line.length) 0) (i + line.length + 1) 0 (i + k) = (line)[k]
      rw [Function.update_of_ne (by omega), Function.update_of_ne (by omega), hread,
        writeBytes_of_mem (by omega), List.getElem_append_left hk]
    · show Function.update (Function.update (writeBytes s.readBuf s.readIdx (line ++ crlf))
        (i + line.length) 0) (i + line.length + 1) 0 (i + line.length) = 0
      rw [Function.update_of_ne (by omega), Function.update_self]
  · intro s' hparse
    have hl := line_takeLine hinv₁ hle hlt
    have hstart₁ : ((s.deliver (line ++ crlf)).takeLine (i + line.length)).startLine = i := hstart
    rw [show (s.deliver (line ++ crlf)).startLine = i from hstart] at hl
    have hparsed := parseHeaders_parsed (s := ((s.deliver (line ++ crlf)).takeLine
      (i + line.length)).nextLine) ⟨hl.text_le, hl.nul, hl.nul', hl.checked_le, hl.read_le⟩ hparse
    have hhandle : handleLine ((s.deliver (line ++ crlf)).takeLine (i + line.length)) =
        .ok (.again .lineOk s') := by
      have hst : ((s.deliver (line ++ crlf)).takeLine (i + line.length)).checkState = .header :=
        hstate
      unfold handleLine
      simp only [hst, hstart₁, hparse]
      rfl
    refine ⟨?_, headInv_parsed hinv₁ hle hlt hparsed, hparsed.startLine, hparsed.checkedIdx,
      hparsed.readIdx.trans hread₁, hparsed.string⟩
    intro bs
    rw [hturn bs, hhandle]
    rfl

/-- **One header line.** -/
theorem header_turn {s : Parser} {i : Nat} (h : AtHeader s i) {line : List UInt8}
    (hne : line ≠ []) (hclean : ∀ b ∈ line, Printable b)
    (hfit : i + line.length + 2 ≤ readBufferSize) :
    ∃ s', (∀ bs, turn .lineOk ((s.deliver (line ++ crlf)).deliver bs) =
        .ok (.again .lineOk (s'.deliver bs))) ∧ AtHeader s' (i + (line.length + 2)) ∧
      s'.contentLength = (headerLength line).getD s.contentLength ∧ s'.string = s.string := by
  obtain ⟨hs, hparsed⟩ := line_turn h hclean hfit
  obtain ⟨s', hparse, hstate', hlength⟩ := parseHeaders_string hs hne (by omega)
  obtain ⟨hturn, hinv', hstart', hchecked', hread', hstring⟩ := hparsed s' hparse
  exact ⟨s', hturn, ⟨hinv', hstate'.trans h.state, hstart', hchecked', hread'⟩, hlength, hstring⟩

/-- The parser stands at the start of a body of `n` bytes, with nothing more to read yet. -/
structure AtBody (s : Parser) (i : Nat) (n : Int) : Prop where
  inv : HeadInv s
  state : s.checkState = .content
  start : s.startLine = i
  checked : s.checkedIdx = i
  read : s.readIdx = i
  length : s.contentLength = n

/-- **The blank line**, when a length has been announced. -/
theorem blank_turn {s : Parser} {i : Nat} (h : AtHeader s i) (hn : s.contentLength ≠ 0)
    (hfit : i + 2 ≤ readBufferSize) :
    ∃ s', (∀ bs, turn .lineOk ((s.deliver crlf).deliver bs) =
        .ok (.again .lineOk (s'.deliver bs))) ∧ AtBody s' (i + 2) s.contentLength ∧
      s'.string = s.string := by
  have hclean : ∀ b ∈ ([] : List UInt8), Printable b := by simp
  obtain ⟨hs, hparsed⟩ := line_turn h hclean (by simpa using hfit)
  have h0 : (s.lineTaken []).readBuf i = 0 := hs.nul
  have hn' : (s.lineTaken []).contentLength ≠ 0 := hn
  have hparse : parseHeaders (s.lineTaken []) i =
      .ok (.noRequest, { s.lineTaken [] with checkState := .content }) := by
    rw [parseHeaders, if_pos h0, if_pos hn']
  obtain ⟨hturn, hinv', hstart', hchecked', hread', hstring⟩ := hparsed _ hparse
  exact ⟨_, hturn, ⟨hinv', rfl, hstart', hchecked', hread', rfl⟩, hstring⟩

-- ---------------------------------------------------------------------------
-- The whole head
-- ---------------------------------------------------------------------------

/-- The run goes on behind a line that a turn has taken. -/
theorem headRun_line {s s' : Parser} {i n : Nat} (h : AtHeader s i) {line : List UInt8}
    (hlen : line.length = n) (hpos : 0 < n) (hinv : HeadInv s') (hchecked : s'.checkedIdx = i + n)
    (hread : s'.readIdx = i + n)
    (hturn : ∀ bs, turn .lineOk ((s.deliver line).deliver bs) =
      .ok (.again .lineOk (s'.deliver bs)))
    (rest : List UInt8) (hfit : i + n + rest.length ≤ readBufferSize) :
    headRun (s.deliver (line ++ rest)) = headRun (s'.deliver rest) := by
  have hhead : ((s.deliver line).deliver rest).checkState ≠ .content := by
    show s.checkState ≠ _
    rw [h.state]
    decide
  rw [deliver_append]
  refine headRun_again hhead (hinv.deliver (by omega)) (hturn rest) ?_
  have h₁ := h.checked
  have h₂ := h.read
  show s'.readIdx + rest.length - s'.checkedIdx <
    s.readIdx + line.length + rest.length - s.checkedIdx
  omega

/-- The header lines and the blank line; induction on the lines. -/
theorem headRun_headers {s : Parser} {i : Nat} (h : AtHeader s i) (headers : List (List UInt8))
    (hclean : ∀ h ∈ headers, h ≠ [] ∧ ∀ b ∈ h, Printable b)
    (hn : headers.foldl (fun n h => (headerLength h).getD n) s.contentLength ≠ 0)
    (hfit : i + (headerBytes headers ++ crlf).length ≤ readBufferSize) :
    ∃ s', headRun (s.deliver (headerBytes headers ++ crlf)) = .ok (.content, s') ∧
      AtBody s' (i + (headerBytes headers ++ crlf).length)
        (headers.foldl (fun n h => (headerLength h).getD n) s.contentLength) ∧
      s'.string = s.string := by
  induction headers generalizing s i with
  | nil =>
    have hlen : (headerBytes [] ++ crlf).length = 2 := rfl
    rw [hlen] at hfit ⊢
    obtain ⟨s', hturn, hbody, hstring⟩ := blank_turn h hn hfit
    refine ⟨s', ?_, hbody, hstring⟩
    have hrun := headRun_line h (show crlf.length = 2 from rfl) (by decide) hbody.inv
      hbody.checked hbody.read hturn [] (by simpa using hfit)
    rw [deliver_nil, headRun_content hbody.state] at hrun
    exact hrun
  | cons line headers ih =>
    have hsplit : headerBytes (line :: headers) ++ crlf =
        (line ++ crlf) ++ (headerBytes headers ++ crlf) := by
      simp [headerBytes]
    have hlen : (line ++ crlf).length = line.length + 2 := by simp [crlf]
    rw [hsplit, List.length_append, hlen] at hfit ⊢
    obtain ⟨hne, hprint⟩ := hclean line (List.mem_cons_self ..)
    obtain ⟨s₁, hturn, hat, hlength, hstring⟩ := header_turn h hne hprint (by omega)
    rw [List.foldl_cons, ← hlength] at hn ⊢
    obtain ⟨s', hrun, hbody, hstring'⟩ := ih hat
      (fun h hm => hclean h (List.mem_cons_of_mem _ hm)) hn (by omega)
    refine ⟨s', ?_, ?_, hstring'.trans hstring⟩
    · rw [headRun_line h hlen (by omega) hat.inv hat.checked hat.read hturn _ (by omega)]
      exact hrun
    · rw [← Nat.add_assoc]
      exact hbody

theorem targetResult_accepted {s s' : Parser} {url k : Nat} {ret : HttpCode}
    (h : TargetResult s url k ret s') (hret : ret ≠ .badRequest) :
    s'.checkState = .header ∧ s'.contentLength = s.contentLength := by
  cases h with
  | noVersion | badVersion => exact absurd rfl hret
  | version _ _ _ _ _ _ _ hu =>
    cases hu with
    | bad => exact absurd rfl hret
    | page | root => exact ⟨rfl, rfl⟩

/-- What `parse_request_line` leaves when it accepts. -/
theorem requestLineResult_accepted {s s' : Parser} {text k : Nat} {ret : HttpCode}
    (h : RequestLineResult s text k ret s') (hret : ret ≠ .badRequest) :
    s'.checkState = .header ∧ s'.contentLength = s.contentLength := by
  cases h with
  | noUrl | badMethod => exact absurd rfl hret
  | get _ _ _ ht | post _ _ _ ht =>
    have := targetResult_accepted ht hret
    exact this

/-- **The request line.** -/
theorem accepted_turn {s₀ s : Parser} {line : List UInt8}
    (hclean : ∀ b ∈ line, b ≠ cr ∧ b ≠ lf) (hfit : line.length + 2 ≤ readBufferSize)
    (h : turn .lineOk (s₀.init.deliver (line ++ crlf)) = .ok (.again .lineOk s)) :
    (∀ bs, turn .lineOk ((s₀.init.deliver (line ++ crlf)).deliver bs) =
        .ok (.again .lineOk (s.deliver bs))) ∧
      AtHeader s (line.length + 2) ∧ s.contentLength = 0 ∧ s.string = s₀.string := by
  have hlen : (line ++ crlf).length = line.length + 2 := by simp [crlf]
  have hread₀ : s₀.init.readIdx = 0 := rfl
  obtain ⟨hc, hcr, hlf⟩ := deliver_line (s := s₀.init) line hclean rfl
  rw [hread₀, Nat.zero_add] at hc hcr hlf
  have hinv₁ : HeadInv (s₀.init.deliver (line ++ crlf)) :=
    (headInv_init s₀).deliver (by rw [hread₀]; omega)
  have hread₁ : (s₀.init.deliver (line ++ crlf)).readIdx = line.length + 2 := by
    show 0 + (line ++ crlf).length = _
    omega
  have hle : (s₀.init.deliver (line ++ crlf)).checkedIdx ≤ line.length := Nat.zero_le _
  have hstate : (s₀.init.deliver (line ++ crlf)).checkState = .requestLine := rfl
  have hhead : (s₀.init.deliver (line ++ crlf)).checkState ≠ .content := by
    rw [hstate]
    decide
  have hlt : line.length + 1 < (s₀.init.deliver (line ++ crlf)).readIdx := by omega
  obtain ⟨hturn₀, hturn⟩ := turn_line hinv₁ hhead hle hlt hc hcr hlf
  rw [hturn₀] at h
  have hl := line_takeLine hinv₁ hle hlt
  generalize htaken : (s₀.init.deliver (line ++ crlf)).takeLine line.length = t at h hturn hl
  have hst : t.checkState = .requestLine := by rw [← htaken]; rfl
  have hlength : t.contentLength = 0 := by rw [← htaken]; rfl
  have hstring : t.string = s₀.string := by rw [← htaken]; rfl
  have hstart : t.startLine = 0 := by rw [← htaken]; rfl
  have hh := h
  unfold handleLine at h
  simp only [hst] at h
  cases hr : parseRequestLine t.nextLine t.startLine with
  | error f => simp [hr, Except.map] at h
  | ok r =>
    obtain ⟨ret, s'⟩ := r
    simp only [hr, Except.map, requestLineTurn, Except.ok.injEq] at h
    split at h
    · cases h
    rename_i hret
    obtain rfl : s' = s := by cases h; rfl
    have hl' : Line t.nextLine t.startLine := by
      rw [hstart]
      exact ⟨hl.text_le, hl.nul, hl.nul', hl.checked_le, hl.read_le⟩
    have hp := parseRequestLine_parsed hl' hr
    have hk := parseRequestLine_ok hr hl'.nul (by have := hl'.text_le; omega)
    obtain ⟨hstate', hlength'⟩ := requestLineResult_accepted hk hret
    refine ⟨?_, ⟨?_, hstate', ?_, ?_, ?_⟩, hlength'.trans hlength, hp.string.trans hstring⟩
    · intro bs
      rw [hturn bs, hh]
      rfl
    · refine headInv_parsed hinv₁ hle hlt ?_
      rw [htaken]
      exact hp
    · rw [hp.startLine, ← htaken]
      rfl
    · rw [hp.checkedIdx, ← htaken]
      rfl
    · rw [hp.readIdx, ← htaken]
      exact hread₁

/-- **The head of a well-formed request** brings the parser to the start of the body. -/
theorem headRun_request {s₀ : Parser} {r : Request} (h : r.WellFormed s₀) :
    ∃ s, headRun (s₀.init.deliver r.head) = .ok (.content, s) ∧
      AtBody s r.head.length r.body.length := by
  obtain ⟨s₁, haccept, -⟩ := h.accepted
  have hn : 0 < r.body.length := List.length_pos_iff.mpr h.body
  have hfits := h.fits
  have hhead : r.head.length = (r.line.length + 2) + (headerBytes r.headers ++ crlf).length := by
    simp [Request.head, crlf]
    omega
  rw [Request.bytes, List.length_append, hhead] at hfits
  obtain ⟨hturn, hat, hlength, -⟩ := accepted_turn h.lineClean (by omega) haccept
  have hann : r.headers.foldl (fun n h => (headerLength h).getD n) s₁.contentLength =
      r.body.length := by
    rw [hlength]
    exact h.length
  obtain ⟨s, hrun, hbody, -⟩ := headRun_headers hat r.headers h.headerClean
    (by rw [hann]; omega) (by omega)
  rw [hann] at hbody
  refine ⟨s, ?_, by rw [hhead]; exact hbody⟩
  have hsplit : r.head = (r.line ++ crlf) ++ (headerBytes r.headers ++ crlf) := by
    simp [Request.head]
  have hhead₀ : ((s₀.init.deliver (r.line ++ crlf)).deliver
      (headerBytes r.headers ++ crlf)).checkState ≠ .content := by
    show CheckState.requestLine ≠ _
    decide
  rw [hsplit, deliver_append]
  rw [headRun_again hhead₀ (hat.inv.deliver (by rw [hat.read]; omega)) (hturn _) ?_]
  · exact hrun
  · have h₁ := hat.checked
    have h₂ := hat.read
    show s₁.readIdx + (headerBytes r.headers ++ crlf).length - s₁.checkedIdx <
      0 + (r.line ++ crlf).length + (headerBytes r.headers ++ crlf).length - 0
    have hlen : (r.line ++ crlf).length = r.line.length + 2 := by simp [crlf]
    omega

end TinyHTTP.Http
