import TinyHTTP.Http.BodyBounds
import TinyHTTP.Http.RequestedFile

/-!
# TinyHTTP — the request line, rewritten in place

`parse_request_line` cuts its line into strings where it stands, and puts
`judge.html` behind a URL that is a slash. The eleven bytes fit: an accepted line has a
version of eight behind a blank, and ends in two bytes of its own.

* `ReadingInv.turn` — where the line being read and the URL stand, turn by turn.
* `requestLine_inPlace` — no byte of the lines that follow is changed.
-/

namespace TinyHTTP.Http

open TinyHTTP.Lib

-- ---------------------------------------------------------------------------
-- The URL
-- ---------------------------------------------------------------------------

/-- The URL stands in front of the line being read, and ends there: a blank, the version and the
end of its line come after its first byte. -/
def UrlBehind (s : Parser) : Prop :=
  ∃ u, s.url = some u ∧ u + 12 ≤ s.startLine ∧ NulBefore s.readBuf u s.startLine

theorem UrlBehind.kept {s s' : Parser} (h : UrlBehind s) (hk : UrlKept s s')
    (hstart : s.startLine ≤ s'.startLine) : UrlBehind s' := by
  obtain ⟨u, hurl, hu, k, hik, hkn, hnul⟩ := h
  refine ⟨u, hk.url.trans hurl, by omega, k, hik, by omega, ?_⟩
  rcases hk.bytes k with hb | hb
  · exact hb.trans hnul
  · exact hb

theorem UrlBehind.deliver {s : Parser} (h : UrlBehind s) (hstart : s.startLine ≤ s.readIdx)
    (bs : List UInt8) : UrlBehind (s.deliver bs) := by
  obtain ⟨u, hurl, hu, hnul⟩ := h
  refine ⟨u, hurl, hu, hnul.congr fun j hj => ?_⟩
  exact deliver_readBuf_lt (Nat.lt_of_lt_of_le hj hstart)

/-- The URL that an accepted line leaves. -/
theorem urlResult_place {s s' : Parser} {url z : Nat} {ret : HttpCode}
    (h : UrlResult s url z ret s') :
    s'.checkState = s.checkState ∨ ∃ u, s'.url = some u ∧ u < z := by
  cases h with
  | bad u hu => exact Or.inl rfl
  | page u h₁ h₂ hslash hne => exact Or.inr ⟨u, rfl, h₂⟩
  | root u h₁ h₂ hslash hnul => exact Or.inr ⟨u, rfl, h₂⟩

theorem targetResult_place {s s' : Parser} {url k : Nat} {ret : HttpCode}
    (h : TargetResult s url k ret s') :
    s'.checkState = s.checkState ∨ ∃ u, s'.url = some u ∧ u + 10 ≤ k := by
  cases h with
  | noVersion u h₁ h₂ => exact Or.inl rfl
  | badVersion u e v h₁ h₂ h₃ h₄ => exact Or.inl rfl
  | version u e v h₁ h₂ h₃ h₄ h =>
    rcases urlResult_place h with hstate | ⟨u', hurl, hu'⟩
    · exact Or.inl hstate
    · exact Or.inr ⟨u', hurl, by omega⟩

theorem requestLine_place {s s' : Parser} {text : Nat} {ret : HttpCode} (hl : Line s text)
    (h : parseRequestLine s text = .ok (ret, s')) :
    s'.checkState = s.checkState ∨ ∃ u, s'.url = some u ∧ u + 12 ≤ s.checkedIdx := by
  obtain ⟨k, hk, htext, hnul⟩ := hl.exists_nul
  cases parseRequestLine_ok h hnul (by omega) with
  | noUrl => exact Or.inl rfl
  | badMethod e h₁ h₂ => exact Or.inl rfl
  | get e h₁ h₂ h =>
    rcases targetResult_place h with hstate | ⟨u, hurl, hu⟩
    · exact Or.inl hstate
    · exact Or.inr ⟨u, hurl, by omega⟩
  | post e h₁ h₂ h =>
    rcases targetResult_place h with hstate | ⟨u, hurl, hu⟩
    · exact Or.inl hstate
    · exact Or.inr ⟨u, hurl, by omega⟩

/-- An accepted request line leaves its URL in front of the next line. -/
theorem urlBehind_parsed {s s' : Parser} {text : Nat} {ret : HttpCode} (hl : Line s.nextLine text)
    (hstate : s.checkState = .requestLine) (h : parseRequestLine s.nextLine text = .ok (ret, s'))
    (hs' : s'.checkState ≠ .requestLine) : UrlBehind s' := by
  have hp := parseRequestLine_parsed hl h
  have hstart : s'.startLine = s.checkedIdx := hp.startLine
  rcases requestLine_place hl h with hsame | ⟨u, hurl, hu⟩
  · exact absurd (hsame.trans hstate) hs'
  · -- the NUL of the line ends it at the latest
    have htext := hl.text_le
    have hnext : s.nextLine.checkedIdx = s.checkedIdx := rfl
    have hnul := hp.mem.nul u ⟨s.checkedIdx - 2, by omega, by omega, hl.nul⟩
    refine ⟨u, hurl, by rw [hstart]; exact hu, ?_⟩
    rw [hstart]
    exact hnul

-- ---------------------------------------------------------------------------
-- Every state of reading
-- ---------------------------------------------------------------------------

/-- What holds of the parser between two turns. -/
structure ReadingInv (s : Parser) : Prop where
  indices : InBuffer s
  head : s.checkState ≠ .content → HeadInv s
  url : s.checkState ≠ .requestLine → UrlBehind s

theorem readingInv_init (s : Parser) : ReadingInv s.init :=
  ⟨inBuffer_init s, fun _ => headInv_init s, fun h => absurd rfl h⟩

/-- Behind the request line, parsing a line or the body leaves the URL where it is. -/
theorem handleLine_urlBehind {s : Parser} {t : Turn} (h : UrlBehind s)
    (hle : s.startLine ≤ s.checkedIdx) (hstate : s.checkState ≠ .requestLine)
    (ht : handleLine s = .ok t) : UrlBehind t.parser := by
  have hstart := (handleLine_same ht).startLine
  unfold handleLine at ht
  cases hc : s.checkState with
  | requestLine => exact absurd hc hstate
  | header =>
    rw [hc] at ht
    obtain ⟨⟨ret, s'⟩, hparse, rfl⟩ := map_ok.mp ht
    have hkept := (parseHeaders_kept hparse).1
    have hparser : (headerTurn (ret, s')).parser = s' := by
      unfold headerTurn
      split
      · rfl
      · split <;> rfl
    rw [hparser] at hstart ⊢
    refine h.kept ⟨hkept.url, hkept.readIdx, hkept.bytes⟩ ?_
    rw [hstart]
    exact hle
  | content =>
    rw [hc] at ht
    obtain ⟨⟨ret, s'⟩, hparse, rfl⟩ := map_ok.mp ht
    have hkept := (parseContent_kept hparse).1
    have hparser : (contentTurn (ret, s')).parser = s' := by
      unfold contentTurn
      split <;> rfl
    rw [hparser] at hstart ⊢
    refine h.kept ⟨hkept.url, hkept.readIdx, hkept.bytes⟩ ?_
    rw [hstart]
    exact hle

/-- The body is not left. -/
theorem handleLine_content {s : Parser} {t : Turn} (hc : s.checkState = .content)
    (ht : handleLine s = .ok t) : t.parser.checkState = .content := by
  unfold handleLine at ht
  rw [hc] at ht
  obtain ⟨⟨ret, s'⟩, hparse, rfl⟩ := map_ok.mp ht
  have hstate : s'.checkState = .content := (parseContent_kept hparse).2.trans hc
  unfold contentTurn
  split <;> exact hstate

/-- A turn on the head. -/
theorem ReadingInv.turn_head {s : Parser} {st : LineStatus} {t : Turn} (h : ReadingInv s)
    (hhead : s.checkState ≠ .content) (ht : turn st s = .ok t) : ReadingInv t.parser := by
  have hindices := h.indices.turn ht
  have hinv := h.head hhead
  rw [Http.turn_head hhead, ← Http.turn_head hhead .lineOk] at ht
  cases turn_cases hinv hhead with
  | wait c hle hc hinv' hwait _ =>
    rw [hwait] at ht
    obtain rfl := Except.ok.inj ht
    exact ⟨hindices, fun _ => hinv', h.url⟩
  | line c hle hc hline _ =>
    rw [hline] at ht
    have hl := line_takeLine hinv hle hc
    refine ⟨hindices, ?_, ?_⟩
    · intro _
      cases handleLine_ok hl hhead ht with
      | again s' hp => exact headInv_parsed hinv hle hc hp
      | bad s' hp => exact headInv_parsed hinv hle hc hp
      | doRequest s' hp => exact headInv_parsed hinv hle hc hp
    · intro hstate'
      by_cases hstate : s.checkState = .requestLine
      · have hl' : Line (s.takeLine c).nextLine s.startLine :=
          ⟨hl.text_le, hl.nul, hl.nul', hl.checked_le, hl.read_le⟩
        have hcall : handleLine (s.takeLine c) =
            (parseRequestLine (s.takeLine c).nextLine s.startLine).map requestLineTurn := by
          rw [handleLine, show (s.takeLine c).checkState = .requestLine from hstate]
          rfl
        rw [hcall] at ht
        obtain ⟨⟨ret, s'⟩, hparse, rfl⟩ := map_ok.mp ht
        have hparser : (requestLineTurn (ret, s')).parser = s' := by
          unfold requestLineTurn
          split <;> rfl
        rw [hparser] at hstate' ⊢
        exact urlBehind_parsed hl' hstate hparse hstate'
      · have hkept : UrlKept s (s.takeLine c) :=
          ⟨rfl, rfl, fun j => nul_or_update (nul_or_update (fun _ => Or.inl rfl) _) _ j⟩
        have hurl := (h.url hstate).kept hkept (Nat.le_refl _)
        have hle' : (s.takeLine c).startLine ≤ (s.takeLine c).checkedIdx :=
          Nat.le_trans (Nat.le_add_right _ 2) hl.text_le
        exact handleLine_urlBehind hurl hle' hstate ht

/-- **Step lemma.** -/
theorem ReadingInv.turn {s : Parser} {st : LineStatus} {t : Turn} (h : ReadingInv s)
    (ht : turn st s = .ok t) : ReadingInv t.parser := by
  by_cases hhead : s.checkState = .content
  · have hindices := h.indices.turn ht
    have hstate : s.checkState ≠ .requestLine := by
      rw [hhead]
      decide
    obtain ⟨hkept, hline⟩ := parseLine_kept s
    have hstart : (parseLine s).2.startLine = s.startLine := parseLineLoop_startLine _ s
    have hurl := (h.url hstate).kept hkept (Nat.le_of_eq hstart.symm)
    have hinline := h.indices.line
    have hall : t.parser.checkState = .content ∧ UrlBehind t.parser := by
      unfold Http.turn at ht
      split at ht
      · exact ⟨handleLine_content hhead ht,
          handleLine_urlBehind (h.url hstate) h.indices.start_le hstate ht⟩
      · generalize parseLine s = r at ht hline hurl hinline
        obtain ⟨lineStatus, s'⟩ := r
        have hc' : s'.checkState = .content := hline.trans hhead
        cases lineStatus with
        | lineOk =>
          exact ⟨handleLine_content hc' ht, handleLine_urlBehind hurl hinline.start_le
            (by rw [show (LineStatus.lineOk, s').2.checkState = .content from hc']; decide) ht⟩
        | lineBad | lineOpen =>
          cases ht
          exact ⟨hc', hurl⟩
    exact ⟨hindices, fun hne => absurd hall.1 hne, fun _ => hall.2⟩
  · exact h.turn_head hhead ht

theorem ReadingInv.loop {fuel : Nat} {st : LineStatus} {s s' : Parser} {r : ReadEnd}
    (h : ReadingInv s) (hr : processReadLoop fuel st s = .ok (r, s')) : ReadingInv s' := by
  induction fuel generalizing st s with
  | zero =>
    cases hr
    exact h
  | succ fuel ih =>
    rw [processReadLoop, bind_ok] at hr
    obtain ⟨t, ht, hr⟩ := hr
    have hturn := h.turn ht
    cases t with
    | again st' s₁ => exact ih hturn hr
    | stop r' s₁ =>
      cases hr
      exact hturn

theorem ReadingInv.recv {s : Parser} (h : ReadingInv s) (r : Recv)
    (hr : (s.readOnce r).2 = true) : ReadingInv (s.readOnce r).1 := by
  have hindices := h.indices.recv r hr
  unfold Parser.readOnce at hr hindices ⊢
  split at hr
  · cases hr
  · rename_i hroom
    cases r with
    | closed => cases hr
    | error => cases hr
    | data bs =>
      rw [if_neg hroom] at hindices ⊢
      have hstart := Nat.le_trans h.indices.start_le h.indices.checked_le
      refine ⟨hindices, fun hhead => ?_, fun hstate => (h.url hstate).deliver hstart _⟩
      exact (h.head hhead).deliver hindices.read_le

/-- **Run lemma.** -/
theorem reading_inv {s : Parser} (h : Reading s) : ReadingInv s := by
  induction h with
  | init s => exact readingInv_init s
  | recv _ r hr ih => exact ih.recv r hr
  | again _ hr ih => exact ih.loop hr

/-- Where the body of the loop gets to run on the head, a line has been taken off. -/
theorem ReadingInv.line {s t : Parser} {st : LineStatus} (h : ReadingInv s)
    (ht : Enters st s t) (hhead : t.checkState ≠ .content) : Line t t.startLine := by
  induction ht with
  | again hturn _ ih => exact ih (h.turn hturn) hhead
  | here he =>
    rename_i st s t
    unfold entered at he
    split at he
    · rename_i hc
      obtain rfl := Option.some.inj he
      exact absurd hc.1 hhead
    · have hstate := (parseLine_kept s).2
      have hhead' : s.checkState ≠ .content := by
        intro hc
        revert he
        generalize parseLine s = r at hstate
        obtain ⟨lineStatus, s'⟩ := r
        cases lineStatus with
        | lineOk =>
          intro he
          obtain rfl := Option.some.inj he
          exact hhead (hstate.trans hc)
        | lineBad | lineOpen => exact nofun
      have hinv := h.head hhead'
      cases parseLine_cases hinv.checked_le with
      | ok c hle hc hclean hcr hlf =>
        rw [parseLine_ok hle hc hclean hcr hlf] at he
        obtain rfl := Option.some.inj he
        exact line_takeLine hinv hle hc
      | bad c hle hc hclean hbad =>
        rw [parseLine_bad hle hc hclean hinv.noCr hbad] at he
        cases he
      | «open» c hle hc hclean hend =>
        rw [parseLine_open hle hc hclean hend] at he
        cases he

/-- Where it gets to run on the body, the URL is in front of the body. -/
theorem ReadingInv.content {s t : Parser} {st : LineStatus} (h : ReadingInv s)
    (ht : Enters st s t) (hc : t.checkState = .content) : UrlBehind t := by
  induction ht with
  | again hturn _ ih => exact ih (h.turn hturn) hc
  | here he =>
    rename_i st s t
    have hne : t.checkState ≠ .requestLine := by
      rw [hc]
      decide
    unfold entered at he
    split at he
    · obtain rfl := Option.some.inj he
      exact h.url hne
    · obtain ⟨hkept, hstate⟩ := parseLine_kept s
      have hstart : (parseLine s).2.startLine = s.startLine := parseLineLoop_startLine _ s
      generalize parseLine s = r at he hkept hstate hstart
      obtain ⟨lineStatus, s'⟩ := r
      cases lineStatus with
      | lineOk =>
        obtain rfl := Option.some.inj he
        exact (h.url (hstate ▸ hne)).kept hkept (Nat.le_of_eq hstart.symm)
      | lineBad | lineOpen => cases he

-- ---------------------------------------------------------------------------
-- The result
-- ---------------------------------------------------------------------------

/-- **In place.** Wherever `process_read` calls `parse_request_line`, whatever the line, no byte
from `m_start_line` on is changed: the rest of the request stays as it was read. -/
theorem requestLine_inPlace {s t s' : Parser} {ret : HttpCode} (hs : Reading s)
    (ht : Enters .lineOk s t) (hstate : t.checkState = .requestLine)
    (h : parseRequestLine t.nextLine t.startLine = .ok (ret, s')) :
    s'.startLine = t.checkedIdx ∧ ∀ j, s'.startLine ≤ j → s'.readBuf j = t.readBuf j := by
  have hl := (reading_inv hs).line ht (by rw [hstate]; decide)
  have hp := parseRequestLine_parsed (s := t.nextLine)
    ⟨hl.text_le, hl.nul, hl.nul', hl.checked_le, hl.read_le⟩ h
  have hstart : s'.startLine = t.checkedIdx := hp.startLine
  refine ⟨hstart, fun j hj => ?_⟩
  rw [hstart] at hj
  exact hp.mem.above j hj

/-- The shortest line there is, with a header behind it. -/
def shortestGet : List UInt8 := bytes "GET / HTTP/1.1\r\nHost: a\r\n\r\n"

theorem requestLine_inPlace_shortest : ∃ t ret s', entered .lineOk (received shortestGet) = some t ∧
    parseRequestLine t.nextLine t.startLine = .ok (ret, s') ∧ s'.startLine = t.checkedIdx ∧
      ∀ j, s'.startLine ≤ j → s'.readBuf j = t.readBuf j := by
  have hrun : (entered .lineOk (received shortestGet)).any (fun t =>
      decide (t.checkState = .requestLine) &&
        (parseRequestLine t.nextLine t.startLine).toOption.isSome) = true := by decide +kernel
  obtain ⟨t, ht, hcheck⟩ := (Option.any_eq_true _ _).mp hrun
  simp only [Bool.and_eq_true, decide_eq_true_eq] at hcheck
  cases hr : parseRequestLine t.nextLine t.startLine with
  | error f =>
    rw [hr] at hcheck
    cases hcheck.2
  | ok r =>
    obtain ⟨ret, s'⟩ := r
    exact ⟨t, ret, s', ht, hr, requestLine_inPlace (reading_received (by decide) (by decide))
      (.here ht) hcheck.1 hr⟩

end TinyHTTP.Http
