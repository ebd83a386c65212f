import TinyHTTP.Lib.Run
import TinyHTTP.Http.DoRequest
import TinyHTTP.Http.InPlace
import TinyHTTP.Http.KeepAlive
import TinyHTTP.Http.PostHead
import TinyHTTP.Http.RequestLine

/-!
# TinyHTTP — the cursors and the loop of process_read

The loop of `process_read` looks at the body once without asking `parse_line`; every
other turn has taken a line off the buffer before. So it comes to an end, unless
`parse_request_line` hands on a null pointer: this is the only way out of a function that
it calls, as long as the NUL of `parse_content` stays in the buffer. Behind the loop the
call is at its end as well, or it is that of `do_request`.

* `CursorInv.turn` — what one turn keeps, whatever has been answered before.
* `exists_runs` — the loop ends.
* `runs_lines`, `runs_bodies` — how often its body runs.
* `cursors_ordered` — any sequence of calls.
-/

namespace TinyHTTP.Http

open TinyHTTP.Lib

-- ---------------------------------------------------------------------------
-- The loop
-- ---------------------------------------------------------------------------

/-- The three indices into the read buffer are in order. -/
structure Ordered (s : Parser) : Prop where
  start_le : s.startLine ≤ s.checkedIdx
  checked_le : s.checkedIdx ≤ s.readIdx
  read_le : s.readIdx ≤ readBufferSize

/-- The indices at which the `for` loop of `parse_line` reads, one after the other. -/
def lineReads : Nat → Parser → List Nat
  | 0, _ => []
  | remaining + 1, s =>
    s.checkedIdx ::
      (if s.readBuf s.checkedIdx = cr then
        if s.checkedIdx + 1 = s.readIdx then [] else [s.checkedIdx + 1]
      else if s.readBuf s.checkedIdx = lf then
        if s.checkedIdx > 1 then [s.checkedIdx - 1] else []
      else lineReads remaining { s with checkedIdx := s.checkedIdx + 1 })

def parseLineReads (s : Parser) : List Nat := lineReads (s.readIdx - s.checkedIdx) s

/-- The first half of the condition of the loop: the body, without `parse_line`. -/
def BodyFirst (st : LineStatus) (s : Parser) : Prop := s.checkState = .content ∧ st = .lineOk

instance (st : LineStatus) (s : Parser) : Decidable (BodyFirst st s) :=
  inferInstanceAs (Decidable (_ ∧ _))

/-- The loop, with `line_status` at `st`, calls `parse_line` on `t`. -/
inductive Scans : LineStatus → Parser → Parser → Prop
  | here {st : LineStatus} {s : Parser} (h : ¬ BodyFirst st s) : Scans st s s
  | again {st st' : LineStatus} {s s' t : Parser} (h : turn st s = .ok (.again st' s'))
      (ht : Scans st' s' t) : Scans st s t

/-- The loop comes to its end `r`, and its body has run `lines` times behind a `parse_line` and
`bodies` times without one. -/
inductive Runs : LineStatus → Parser → (lines bodies : Nat) → ReadEnd → Parser → Prop
  | out {st : LineStatus} {s : Parser} (h : entered st s = none) :
      Runs st s 0 0 (.code .noRequest) (parseLine s).2
  | stop {st : LineStatus} {s t s' : Parser} {r : ReadEnd} (h : entered st s = some t)
      (ht : handleLine t = .ok (.stop r s')) :
      Runs st s (if BodyFirst st s then 0 else 1) (if BodyFirst st s then 1 else 0) r s'
  | again {st st' : LineStatus} {s t s₁ s' : Parser} {lines bodies : Nat} {r : ReadEnd}
      (h : entered st s = some t) (ht : handleLine t = .ok (.again st' s₁))
      (hr : Runs st' s₁ lines bodies r s') :
      Runs st s (if BodyFirst st s then lines else lines + 1)
        (if BodyFirst st s then bodies + 1 else bodies) r s'

/-- `parse_request_line` gets a line on which it hands on a null pointer. -/
def NullLine (t : Parser) : Prop :=
  ∃ l k, HasString t.readBuf t.startLine l ∧ Derives l k ∧ Unhosted k.target

/-- No request line of the call has `http://` and no slash behind it. -/
def Hosted (s : Parser) : Prop :=
  ∀ t, Enters .lineOk s t → t.checkState = .requestLine → ¬ NullLine t

/-- The loop ends with the call of `do_request`, on the parser `s'`. -/
def Requests (s s' : Parser) : Prop :=
  ∃ lines bodies, Runs .lineOk s lines bodies .doRequest s'

/-- The NUL that `parse_content` writes stays in the buffer, and the sum that it is compared with is
an `int`: a larger sum would wrap around, and the NUL be written far behind the buffer. -/
def NulInside (s : Parser) : Prop :=
  ∀ t, Enters .lineOk s t → t.checkState = .content →
    t.contentLength + t.checkedIdx < 2 ^ 31 ∧
      ∀ i, contentWrite t.nextLine t.startLine = some i → 0 ≤ i ∧ i < readBufferSize

/-- No write of the call leaves the read buffer: not the NUL, and not the page that `do_request`
puts into `m_url`. -/
structure WritesInside (w : World) (s : Parser) : Prop where
  nul : NulInside s
  page : ∀ s', Requests s s' → PageInside w s'

/-- What the call needs to come to its end. -/
structure Endable (s : Parser) : Prop where
  hosted : Hosted s
  fits : ∀ s', Requests s s' → RequestFits s'

/-- What should hold of a call of `process_read`. -/
structure CursorSafe (w : World) (c : HttpConn) : Prop where
  /-- `parse_line` reads what `recv` has written -/
  reads : ∀ t, Scans .lineOk c.parser t → ∀ i ∈ parseLineReads t, i < t.readIdx
  /-- a line that it takes off ends in CR and LF, and is behind `m_checked_idx` -/
  lines : ∀ t u, Scans .lineOk c.parser t → parseLine t = (.lineOk, u) →
    t.checkedIdx + 2 ≤ u.checkedIdx ∧ t.readBuf (u.checkedIdx - 2) = cr ∧
      t.readBuf (u.checkedIdx - 1) = lf
  /-- the loop comes to its end -/
  finishes : ∃ lines bodies r s', Runs .lineOk c.parser lines bodies r s' ∧ bodies ≤ 1 ∧
    c.parser.checkedIdx + lines ≤ s'.checkedIdx ∧ Ordered s' ∧
      Http.processRead c.parser = .ok (r, s')
  /-- and so does the call, with that of `do_request` -/
  returns : ∃ w' c' code, c.processRead w = .ok (w', c', code) ∧ Ordered c'.parser

inductive CursorCall where
  | readOnce (r : Recv)
  | processRead (w : World)

/-- A `read_once` that succeeds, or a `process_read` that has a result. -/
def HttpConn.call (c : HttpConn) : CursorCall → Option HttpConn
  | .readOnce r => if (c.readOnce r).2 then some (c.readOnce r).1 else none
  | .processRead w => (c.processRead w).toOption.map fun r => r.2.1

def Initialized (c : HttpConn) : Prop := ∃ c₀ : HttpConn, c = c₀.init

-- ---------------------------------------------------------------------------
-- One turn
-- ---------------------------------------------------------------------------

/-- What holds between two turns, and between two calls. -/
structure CursorInv (s : Parser) : Prop where
  indices : InBuffer s
  noCr : s.NoCr

theorem CursorInv.ordered {s : Parser} (h : CursorInv s) : Ordered s :=
  ⟨h.indices.start_le, h.indices.checked_le, h.indices.read_le⟩

theorem cursorInv_init (s : Parser) : CursorInv s.init :=
  ⟨inBuffer_init s, fun h => absurd h (Nat.lt_irrefl 0)⟩

theorem CursorInv.recv {s : Parser} (h : CursorInv s) (r : Recv)
    (hr : (s.readOnce r).2 = true) : CursorInv (s.readOnce r).1 := by
  have hindices := h.indices.recv r hr
  refine ⟨hindices, ?_⟩
  unfold Parser.readOnce at hr ⊢
  split at hr
  · cases hr
  · rename_i hroom
    cases r with
    | closed => cases hr
    | error => cases hr
    | data bs =>
      rw [if_neg hroom]
      exact NoCr.deliver h.noCr h.indices.checked_le _

/-- A line that has been taken off. -/
structure Taken (s u : Parser) (c : Nat) : Prop where
  le : s.checkedIdx ≤ c
  lt : c + 1 < s.readIdx
  cr : s.readBuf c = cr
  lf : s.readBuf (c + 1) = lf
  eq : u = s.takeLine c

theorem CursorInv.taken {s u : Parser} (h : CursorInv s) (hu : parseLine s = (.lineOk, u)) :
    ∃ c, Taken s u c := by
  cases parseLine_cases h.indices.checked_le with
  | ok c hle hc hclean hcr hlf =>
    rw [parseLine_ok hle hc hclean hcr hlf] at hu
    exact ⟨c, hle, hc, hcr, hlf, (Prod.mk.inj hu).2.symm⟩
  | bad c hle hc hclean hbad =>
    rw [parseLine_bad hle hc hclean h.noCr hbad] at hu
    cases hu
  | «open» c hle hc hclean hend =>
    rw [parseLine_open hle hc hclean hend] at hu
    cases hu

theorem Taken.line {s u : Parser} {c : Nat} (h : Taken s u c) (hs : InBuffer s) :
    Line u u.startLine := by
  obtain ⟨hle, hlt, -, -, rfl⟩ := h
  exact line_of_start (Nat.le_trans hs.start_le hle) hlt hs.read_le

/-- What the scan has passed is no CR. -/
theorem CursorInv.line {s : Parser} (h : CursorInv s) : CursorInv (parseLine s).2 := by
  refine ⟨h.indices.line, ?_⟩
  cases parseLine_cases h.indices.checked_le with
  | ok c hle hc hclean hcr hlf =>
    have hl := Taken.line ⟨hle, hc, hcr, hlf, rfl⟩ h.indices
    rw [parseLine_ok hle hc hclean hcr hlf]
    intro _ hcr'
    rw [hl.nul'] at hcr'
    exact absurd hcr' (by decide)
  | bad c hle hc hclean hbad =>
    rw [parseLine_bad hle hc hclean h.noCr hbad]
    exact NoCr.scanned h.noCr hle hclean
  | «open» c hle hc hclean hend =>
    rw [parseLine_open hle hc hclean hend]
    exact NoCr.scanned h.noCr hle hclean

/-- Where the body of the loop gets to run on the head, a line has been taken off. -/
theorem CursorInv.entered {st : LineStatus} {s t : Parser} (h : CursorInv s)
    (ht : Http.entered st s = some t) :
    CursorInv t ∧ (t.checkState ≠ .content → Line t t.startLine) := by
  unfold Http.entered at ht
  split at ht
  · rename_i hbody
    obtain rfl := Option.some.inj ht
    exact ⟨h, fun hhead => absurd hbody.1 hhead⟩
  · have hline := h.line
    split at ht
    · rename_i u hu
      obtain rfl := Option.some.inj ht
      obtain ⟨c, hc⟩ := h.taken hu
      rw [hu] at hline
      exact ⟨hline, fun _ => hc.line h.indices⟩
    · cases ht

/-- The parse functions write no CR. -/
theorem handleLine_cr {t : Parser} {u : Turn} (hl : t.checkState ≠ .content → Line t t.startLine)
    (hu : handleLine t = .ok u) {j : Nat} (hj : u.parser.readBuf j = cr) : t.readBuf j = cr := by
  by_cases hc : t.checkState = .content
  · unfold handleLine at hu
    rw [hc] at hu
    obtain ⟨⟨ret, s'⟩, hparse, rfl⟩ := map_ok.mp hu
    have hkept := (parseContent_kept hparse).1.bytes j
    have hparser : (contentTurn (ret, s')).parser = s' := by
      unfold contentTurn
      split <;> rfl
    rw [hparser] at hj
    rcases hkept with hkept | hkept
    · rw [hkept] at hj
      exact hj
    · rw [hkept] at hj
      exact absurd hj (by decide)
  · cases handleLine_ok (hl hc) hc hu with
    | again s' hp => exact hp.mem.cr j hj
    | bad s' hp => exact hp.mem.cr j hj
    | doRequest s' hp => exact hp.mem.cr j hj

theorem CursorInv.handled {t : Parser} {u : Turn} (h : CursorInv t)
    (hl : t.checkState ≠ .content → Line t t.startLine) (hu : handleLine t = .ok u) :
    CursorInv u.parser := by
  refine ⟨h.indices.handled hu, ?_⟩
  have hchecked : u.parser.checkedIdx = t.checkedIdx := (handleLine_same hu).checkedIdx
  intro hpos hcr
  rw [hchecked] at hpos hcr
  exact h.noCr hpos (handleLine_cr hl hu hcr)

/-- **One turn.** -/
theorem CursorInv.turn {st : LineStatus} {s : Parser} {u : Turn} (h : CursorInv s)
    (hu : Http.turn st s = .ok u) : CursorInv u.parser := by
  rw [turn_entered] at hu
  cases he : Http.entered st s with
  | none =>
    rw [he] at hu
    cases hu
    exact h.line
  | some t =>
    rw [he] at hu
    obtain ⟨ht, hl⟩ := h.entered he
    exact ht.handled hl hu

theorem CursorInv.loop {fuel : Nat} {st : LineStatus} {s s' : Parser} {r : ReadEnd}
    (h : CursorInv s) (hr : processReadLoop fuel st s = .ok (r, s')) : CursorInv s' := by
  induction fuel generalizing st s with
  | zero =>
    cases hr
    exact h
  | succ fuel ih =>
    rw [processReadLoop, bind_ok] at hr
    obtain ⟨u, hu, hr⟩ := hr
    have hturn := h.turn hu
    cases u with
    | again st' s₁ => exact ih hturn hr
    | stop r' s₁ =>
      cases hr
      exact hturn

theorem CursorInv.enters {st : LineStatus} {s t : Parser} (h : CursorInv s) (ht : Enters st s t) :
    CursorInv t ∧ (t.checkState ≠ .content → Line t t.startLine) := by
  induction ht with
  | here he => exact h.entered he
  | again hturn _ ih => exact ih (h.turn hturn)

theorem CursorInv.scans {st : LineStatus} {s t : Parser} (h : CursorInv s) (ht : Scans st s t) :
    CursorInv t := by
  induction ht with
  | here => exact h
  | again hturn _ ih => exact ih (h.turn hturn)

-- ---------------------------------------------------------------------------
-- The loop ends
-- ---------------------------------------------------------------------------

/-- The NUL of a line ends the string that begins it. -/
theorem Line.exists_string {t : Parser} (h : Line t t.startLine) :
    ∃ l, HasString t.readBuf t.startLine l ∧ t.startLine + l.length + 2 ≤ readBufferSize := by
  have htext := h.text_le
  obtain ⟨l, hl, hle⟩ :=
    Lib.exists_string (i := t.startLine) (j := t.checkedIdx - 2) (by omega) h.nul
  have hchecked := h.checked_le
  have hread := h.read_le
  exact ⟨l, hl, by omega⟩

theorem parseHeaders_total {t : Parser} (h : Line t t.startLine) :
    ∃ r, parseHeaders t.nextLine t.startLine = .ok r := by
  obtain ⟨l, hl, hsize⟩ := h.exists_string
  by_cases hne : l = []
  · subst hne
    have h0 : t.nextLine.readBuf t.startLine = 0 := hl.nul
    unfold parseHeaders
    rw [if_pos h0]
    split
    · exact ⟨_, rfl⟩
    · exact ⟨_, rfl⟩
  · obtain ⟨s', hs', -⟩ := @parseHeaders_string t.nextLine t.startLine l hl hne (by omega)
    exact ⟨_, hs'⟩

/-- A request line gives a result, or it has a null pointer handed on. -/
theorem parseRequestLine_total {t : Parser} (h : Line t t.startLine) :
    (∃ r, parseRequestLine t.nextLine t.startLine = .ok r) ↔ ¬ NullLine t := by
  obtain ⟨l, hl, hsize⟩ := h.exists_string
  have hout := @parseRequestLine_outcome t.nextLine t.startLine l hl hsize
  generalize parseRequestLine t.nextLine t.startLine = result at hout
  have hnull : NullLine t → ∃ k, Derives l k ∧ Unhosted k.target := by
    rintro ⟨l', k, hl', hk, hu⟩
    obtain rfl := hasString_unique hl hl'
    exact ⟨k, hk, hu⟩
  cases hout with
  | null k hk hu =>
    refine iff_of_false ?_ fun hno => hno ⟨l, k, hl, hk, hu⟩
    rintro ⟨r, hr⟩
    cases hr
  | bad hno s' hs' =>
    refine iff_of_true ⟨_, rfl⟩ fun hn => ?_
    obtain ⟨k, hk, hu⟩ := hnull hn
    exact (hno k hk).1 hu
  | path k hk hu s' ha =>
    refine iff_of_true ⟨_, rfl⟩ fun hn => ?_
    obtain ⟨k', hk', hu'⟩ := hnull hn
    obtain rfl := derives_unique hk hk'
    exact hu hu'

/-- The body of the loop has a result. -/
theorem handleLine_total {t : Parser} (hl : t.checkState ≠ .content → Line t t.startLine)
    (hinside : t.checkState = .content → t.contentLength + t.checkedIdx < 2 ^ 31 ∧
      ∀ i, contentWrite t.nextLine t.startLine = some i → 0 ≤ i ∧ i < readBufferSize)
    (hnull : t.checkState = .requestLine → ¬ NullLine t) : ∃ u, handleLine t = .ok u := by
  unfold handleLine
  cases hc : t.checkState with
  | requestLine =>
    obtain ⟨r, hr⟩ := (parseRequestLine_total (hl (by simp [hc]))).mpr (hnull hc)
    exact ⟨_, map_ok.mpr ⟨r, hr, rfl⟩⟩
  | header =>
    obtain ⟨r, hr⟩ := parseHeaders_total (hl (by simp [hc]))
    exact ⟨_, map_ok.mpr ⟨r, hr, rfl⟩⟩
  | content =>
    obtain ⟨hsum, hwrite⟩ := hinside hc
    have hint : ¬ t.nextLine.contentLength + t.nextLine.checkedIdx ≥ 2 ^ 31 := not_le.mpr hsum
    obtain ⟨r, hr⟩ : ∃ r, parseContent t.nextLine t.startLine = .ok r := by
      rw [parseContent_eq, if_neg hint]
      cases hw : contentWrite t.nextLine t.startLine with
      | none => exact ⟨_, rfl⟩
      | some i => exact ⟨_, if_pos (hwrite i hw)⟩
    exact ⟨_, map_ok.mpr ⟨r, hr, rfl⟩⟩

/-- How far a turn is from the end of the loop. -/
def loopMeasure (st : LineStatus) (s : Parser) : Nat :=
  s.readIdx - s.checkedIdx + if BodyFirst st s then 1 else 0

/-- The body without `parse_line` is a body that is not left. -/
theorem handleLine_again_content {t s₁ : Parser} {st' : LineStatus} (hc : t.checkState = .content)
    (ht : handleLine t = .ok (.again st' s₁)) : st' = .lineOpen ∧ s₁.checkState = .content := by
  have hstate : s₁.checkState = .content := handleLine_content hc ht
  unfold handleLine at ht
  rw [hc] at ht
  obtain ⟨⟨ret, s'⟩, -, hturn⟩ := map_ok.mp ht
  unfold contentTurn at hturn
  split at hturn
  · cases hturn
  · cases hturn
    exact ⟨rfl, hstate⟩

theorem not_bodyFirst_of_again {t s₁ : Parser} {st' : LineStatus} (hc : t.checkState = .content)
    (ht : handleLine t = .ok (.again st' s₁)) : ¬ BodyFirst st' s₁ := by
  rintro ⟨-, rfl⟩
  cases (handleLine_again_content hc ht).1

theorem entered_bodyFirst {st : LineStatus} {s t : Parser} (hb : BodyFirst st s)
    (he : entered st s = some t) : t = s ∧ t.checkState = .content := by
  unfold entered at he
  rw [if_pos (show s.checkState = .content ∧ st = .lineOk from hb)] at he
  obtain rfl := Option.some.inj he
  exact ⟨rfl, hb.1⟩

theorem entered_line {st : LineStatus} {s t : Parser} (hb : ¬ BodyFirst st s)
    (he : entered st s = some t) : parseLine s = (.lineOk, t) := by
  unfold entered at he
  rw [if_neg (show ¬ (s.checkState = .content ∧ st = .lineOk) from hb)] at he
  split at he
  · rename_i u hu
    obtain rfl := Option.some.inj he
    exact hu
  · cases he

/-- The body of the loop moves neither of the two indices. -/
theorem handleLine_indices {t : Parser} {u : Turn} (hu : handleLine t = .ok u) :
    u.parser.checkedIdx = t.checkedIdx ∧ u.parser.readIdx = t.readIdx :=
  ⟨(handleLine_same hu).checkedIdx, (handleLine_same hu).readIdx⟩

theorem Taken.checkedIdx {s u : Parser} {c : Nat} (h : Taken s u c) : u.checkedIdx = c + 2 := by
  rw [h.eq]
  rfl

theorem Taken.readIdx {s u : Parser} {c : Nat} (h : Taken s u c) : u.readIdx = s.readIdx := by
  rw [h.eq]
  rfl

/-- A turn leaves `m_checked_idx` where it is, if it is the one on the body, and has moved it over
a line end otherwise. -/
theorem CursorInv.moved {st : LineStatus} {s t : Parser} {u : Turn} (h : CursorInv s)
    (he : Http.entered st s = some t) (hu : handleLine t = .ok u) :
    CursorInv u.parser ∧ u.parser.readIdx = s.readIdx ∧
      (BodyFirst st s → u.parser.checkedIdx = s.checkedIdx) ∧
      (¬ BodyFirst st s → s.checkedIdx + 2 ≤ u.parser.checkedIdx) := by
  obtain ⟨hchecked, hread⟩ := handleLine_indices hu
  obtain ⟨ht, hl⟩ := h.entered he
  have hinv : CursorInv u.parser := ht.handled hl hu
  by_cases hb : BodyFirst st s
  · obtain ⟨rfl, -⟩ := entered_bodyFirst hb he
    exact ⟨hinv, hread, fun _ => hchecked, fun hno => absurd hb hno⟩
  · obtain ⟨c, hc⟩ := h.taken (entered_line hb he)
    have hle := hc.le
    refine ⟨hinv, hread.trans hc.readIdx, fun hbody => absurd hbody hb, fun _ => ?_⟩
    rw [hchecked, hc.checkedIdx]
    omega

/-- A turn that goes on has taken a line, or was the one on the body. -/
theorem loopMeasure_lt {st st' : LineStatus} {s t s₁ : Parser} (h : CursorInv s)
    (he : entered st s = some t) (ht : handleLine t = .ok (.again st' s₁)) :
    loopMeasure st' s₁ < loopMeasure st s := by
  obtain ⟨hinv, hread, hbody, hline⟩ := h.moved he ht
  replace hread : s₁.readIdx = s.readIdx := hread
  have hchecked : s₁.checkedIdx ≤ s₁.readIdx := hinv.indices.checked_le
  unfold loopMeasure
  by_cases hb : BodyFirst st s
  · have hsame : s₁.checkedIdx = s.checkedIdx := hbody hb
    obtain ⟨rfl, hc⟩ := entered_bodyFirst hb he
    rw [if_pos hb, if_neg (not_bodyFirst_of_again hc ht), hsame, hread]
    omega
  · have hmoved : s.checkedIdx + 2 ≤ s₁.checkedIdx := hline hb
    rw [if_neg hb]
    split <;> omega

/-- **The loop ends**, if the body of the loop has a result wherever it runs. -/
theorem exists_runs {st : LineStatus} {s : Parser} (h : CursorInv s)
    (htotal : ∀ t, Enters st s t → ∃ u, handleLine t = .ok u) :
    ∃ lines bodies r s', Runs st s lines bodies r s' := by
  induction hm : loopMeasure st s using Nat.strong_induction_on generalizing st s with
  | _ m ih =>
    cases he : entered st s with
    | none => exact ⟨0, 0, _, _, .out he⟩
    | some t =>
      obtain ⟨u, hu⟩ := htotal t (.here he)
      cases u with
      | stop r s' => exact ⟨_, _, r, s', .stop he hu⟩
      | again st' s₁ =>
        have hturn : turn st s = .ok (.again st' s₁) := by rw [turn_entered, he]; exact hu
        obtain ⟨lines, bodies, r, s', hr⟩ := ih _ (hm ▸ loopMeasure_lt h he hu) (h.turn hturn)
          (fun t' ht' => htotal t' (.again hturn ht')) rfl
        exact ⟨_, _, r, s', .again he hu hr⟩

/-- Where the loop ends, the body of the loop has had results. -/
theorem runs_total {st : LineStatus} {s s' t : Parser} {lines bodies : Nat} {r : ReadEnd}
    (h : Runs st s lines bodies r s') (ht : Enters st s t) : ∃ u, handleLine t = .ok u := by
  induction h with
  | out he =>
    cases ht with
    | here he' =>
      rw [he] at he'
      cases he'
    | again hturn =>
      rw [turn_entered, he] at hturn
      cases hturn
  | stop he hu =>
    cases ht with
    | here he' =>
      rw [he] at he'
      cases he'
      exact ⟨_, hu⟩
    | again hturn =>
      rw [turn_entered, he] at hturn
      cases hu.symm.trans hturn
  | again he hu _ ih =>
    cases ht with
    | here he' =>
      rw [he] at he'
      cases he'
      exact ⟨_, hu⟩
    | again hturn ht =>
      rw [turn_entered, he] at hturn
      cases hu.symm.trans hturn
      exact ih ht

/-- The body is looked at once without `parse_line`, and not behind a turn on the body. -/
theorem runs_bodies {st : LineStatus} {s s' : Parser} {lines bodies : Nat} {r : ReadEnd}
    (h : Runs st s lines bodies r s') :
    bodies ≤ 1 ∧ (s.checkState = .content → ¬ BodyFirst st s → bodies = 0) := by
  induction h with
  | out he => exact ⟨Nat.zero_le 1, fun _ _ => rfl⟩
  | @stop st s t s' r he hu =>
    refine ⟨?_, fun _ hb => if_neg hb⟩
    split <;> omega
  | @again st st' s t s₁ s' lines bodies r he hu hr ih =>
    by_cases hb : BodyFirst st s
    · obtain ⟨rfl, hc⟩ := entered_bodyFirst hb he
      have hzero := ih.2 (handleLine_again_content hc hu).2 (not_bodyFirst_of_again hc hu)
      exact ⟨by rw [if_pos hb]; omega, fun _ hno => absurd hb hno⟩
    · rw [if_neg hb]
      refine ⟨ih.1, fun hc _ => ?_⟩
      have hstate : t.checkState = .content := by
        have hkept := (parseLine_kept s).2
        rw [entered_line hb he] at hkept
        exact hkept.trans hc
      exact ih.2 (handleLine_again_content hstate hu).2 (not_bodyFirst_of_again hstate hu)

/-- Every turn behind a `parse_line` has moved `m_checked_idx` on. -/
theorem runs_lines {st : LineStatus} {s s' : Parser} {lines bodies : Nat} {r : ReadEnd}
    (hs : CursorInv s) (h : Runs st s lines bodies r s') :
    s.checkedIdx + lines ≤ s'.checkedIdx ∧ s'.readIdx = s.readIdx ∧ CursorInv s' := by
  induction h with
  | @out st s he =>
    obtain ⟨hle, -, hread, -⟩ := parseLine_scan hs.indices.checked_le
    exact ⟨hle, hread, hs.line⟩
  | @stop st s t s' r he hu =>
    obtain ⟨hinv, hread, hbody, hline⟩ := hs.moved he hu
    refine ⟨?_, hread, hinv⟩
    split
    · exact Nat.le_of_eq (hbody ‹_›).symm
    · exact Nat.le_of_succ_le (hline ‹_›)
  | @again st st' s t s₁ s' lines bodies r he hu hr ih =>
    obtain ⟨hinv, hread, hbody, hline⟩ := hs.moved he hu
    obtain ⟨hle, hread', hinv'⟩ := ih hinv
    refine ⟨?_, hread'.trans hread, hinv'⟩
    split
    · have hsame : s₁.checkedIdx = s.checkedIdx := hbody ‹_›
      omega
    · have hmoved : s.checkedIdx + 2 ≤ s₁.checkedIdx := hline ‹_›
      omega

/-- The fuel of `processReadLoop` only has to be more than the turns. -/
theorem processReadLoop_fuel {st : LineStatus} {s s' : Parser} {lines bodies fuel : Nat}
    {r : ReadEnd} (h : Runs st s lines bodies r s') (hfuel : lines + bodies < fuel) :
    processReadLoop fuel st s = .ok (r, s') := by
  induction h generalizing fuel with
  | @out st s he =>
    obtain ⟨fuel, rfl⟩ : ∃ n, fuel = n + 1 := ⟨fuel - 1, by omega⟩
    rw [processReadLoop, turn_entered, he]
    rfl
  | @stop st s t s' r he hu =>
    obtain ⟨fuel, rfl⟩ : ∃ n, fuel = n + 1 := ⟨fuel - 1, by omega⟩
    rw [processReadLoop, turn_entered, he]
    simp only [hu, bind, Except.bind]
  | @again st st' s t s₁ s' lines bodies r he hu hr ih =>
    obtain ⟨fuel, rfl⟩ : ∃ n, fuel = n + 1 := ⟨fuel - 1, by omega⟩
    rw [processReadLoop, turn_entered, he]
    simp only [hu, bind, Except.bind]
    refine ih ?_
    split at hfuel <;> omega

/-- What the loop returns with enough fuel, it ends with. -/
theorem runs_of_loop {fuel : Nat} {st : LineStatus} {s s' : Parser} {r : ReadEnd}
    (h : CursorInv s) (hfuel : loopMeasure st s < fuel)
    (hr : processReadLoop fuel st s = .ok (r, s')) :
    ∃ lines bodies, Runs st s lines bodies r s' := by
  induction fuel generalizing st s with
  | zero => omega
  | succ fuel ih =>
    rw [processReadLoop, bind_ok] at hr
    obtain ⟨u, hu, hr⟩ := hr
    have hturn := hu
    rw [turn_entered] at hu
    cases he : entered st s with
    | none =>
      rw [he] at hu
      cases hu
      cases hr
      exact ⟨0, 0, .out he⟩
    | some t =>
      rw [he] at hu
      cases u with
      | stop r' s₁ =>
        cases hr
        exact ⟨_, _, .stop he hu⟩
      | again st' s₁ =>
        have hlt := loopMeasure_lt h he hu
        have hnext : CursorInv s₁ := h.turn hturn
        obtain ⟨lines, bodies, hruns⟩ := ih hnext (by omega) hr
        exact ⟨_, _, .again he hu hruns⟩

theorem processRead_ok_iff {s s' : Parser} {r : ReadEnd} (h : CursorInv s) :
    processRead s = .ok (r, s') ↔ ∃ lines bodies, Runs .lineOk s lines bodies r s' := by
  constructor
  · intro hr
    refine runs_of_loop h ?_ hr
    unfold loopMeasure
    split <;> omega
  · rintro ⟨lines, bodies, hruns⟩
    obtain ⟨hlines, hread, hinv⟩ := runs_lines h hruns
    have hbodies := (runs_bodies hruns).1
    have hchecked := hinv.indices.checked_le
    exact processReadLoop_fuel hruns (by omega)

-- ---------------------------------------------------------------------------
-- What parse_line reads
-- ---------------------------------------------------------------------------

theorem lineReads_lt {n : Nat} {s : Parser} (hn : s.checkedIdx + n = s.readIdx) :
    ∀ i ∈ lineReads n s, i < s.readIdx := by
  induction n generalizing s with
  | zero =>
    intro i hi
    cases hi
  | succ n ih =>
    intro i hi
    unfold lineReads at hi
    rcases List.mem_cons.mp hi with rfl | hi
    · omega
    split at hi
    · split at hi
      · cases hi
      · rename_i hlast
        rw [List.mem_singleton.mp hi]
        omega
    split at hi
    · split at hi
      · rw [List.mem_singleton.mp hi]
        omega
      · cases hi
    · exact @ih { s with checkedIdx := s.checkedIdx + 1 } (by
        show s.checkedIdx + 1 + n = s.readIdx
        omega) i hi

theorem CursorInv.reads {t : Parser} (h : CursorInv t) : ∀ i ∈ parseLineReads t, i < t.readIdx := by
  have hchecked := h.indices.checked_le
  exact lineReads_lt (by omega)

-- ---------------------------------------------------------------------------
-- One call
-- ---------------------------------------------------------------------------

theorem hosted_of_runs {s s' : Parser} {lines bodies : Nat} {r : ReadEnd} (h : CursorInv s)
    (hr : Runs .lineOk s lines bodies r s') : Hosted s := by
  intro t ht hstate
  obtain ⟨u, hu⟩ := runs_total hr ht
  have hl := (h.enters ht).2 (by simp [hstate])
  refine (parseRequestLine_total hl).mp ?_
  unfold handleLine at hu
  rw [hstate] at hu
  obtain ⟨ret, hparse, -⟩ := map_ok.mp hu
  exact ⟨ret, hparse⟩

theorem nulInside_of_runs {s s' : Parser} {lines bodies : Nat} {r : ReadEnd}
    (hr : Runs .lineOk s lines bodies r s') : NulInside s := by
  intro t ht hstate
  obtain ⟨u, hu⟩ := runs_total hr ht
  unfold handleLine at hu
  rw [hstate] at hu
  obtain ⟨ret, hparse, -⟩ := map_ok.mp hu
  rw [parseContent_eq] at hparse
  split at hparse
  · cases hparse
  · rename_i hsum
    refine ⟨not_le.mp hsum, fun i hi => ?_⟩
    rw [hi] at hparse
    dsimp only at hparse
    split at hparse
    · rename_i hin
      exact hin
    · cases hparse

/-- `do_request` moves no index, and writes no CR. -/
theorem CursorInv.resolved {w w' : World} {s s' : Parser} {real real' : Mem} (h : CursorInv s)
    (hr : resolve w s real = .ok (w', s', real')) : CursorInv s' := by
  obtain ⟨buf, heq, hcr⟩ := resolve_buffer hr
  replace heq : s' = { s with readBuf := buf } := heq
  rw [heq]
  obtain ⟨⟨h₁, h₂, h₃, h₄, h₅⟩, hno⟩ := h
  exact ⟨⟨h₁, h₂, h₃, h₄, h₅⟩, fun hpos hj => hno hpos (hcr _ hj)⟩

/-- What holds of the object between two calls. -/
structure CallInv (c : HttpConn) : Prop where
  cursors : CursorInv c.parser
  /-- the path in `m_real_file` ends in the array -/
  realFile : c.realFile (filenameLen - 1) = 0

/-- **A call** that has a result keeps it. -/
theorem CallInv.processRead {w w' : World} {c c' : HttpConn} {code : HttpCode} (h : CallInv c)
    (hread : c.processRead w = .ok (w', c', code)) : CallInv c' := by
  rcases processRead_cases hread with ⟨s, hparse, rfl⟩ | ⟨s, s', real, path, hparse, hresolve, -,
    hopen⟩
  · exact ⟨h.cursors.loop hparse, h.realFile⟩
  · have hparser := parser_openFile w' { c with parser := s', realFile := real } path
    have hreal := realFile_openFile w' { c with parser := s', realFile := real } path
    rw [hopen] at hparser hreal
    refine ⟨?_, ?_⟩
    · rw [show c'.parser = s' from hparser]
      exact (h.cursors.loop hparse).resolved hresolve
    · rw [show c'.realFile = real from hreal]
      exact (resolve_last hresolve).trans h.realFile

/-- A call whose loop ends has a result exactly if `do_request` has one, where it is called. -/
theorem processRead_returns {w : World} {c : HttpConn} {lines bodies : Nat} {r : ReadEnd}
    {s' : Parser} (h : CallInv c) (hruns : Runs .lineOk c.parser lines bodies r s')
    (hinside : ∀ s', Requests c.parser s' → PageInside w s') :
    (∃ w' c' code, c.processRead w = .ok (w', c', code)) ↔
      ∀ s', Requests c.parser s' → RequestFits s' := by
  have hparse := (processRead_ok_iff h.cursors).mpr ⟨lines, bodies, hruns⟩
  cases r with
  | code code =>
    refine iff_of_true ⟨w, { c with parser := s' }, code, ?_⟩ fun t ht => ?_
    · simp only [HttpConn.processRead, hparse, bind, Except.bind]
      rfl
    · cases hparse.symm.trans ((processRead_ok_iff h.cursors).mpr ht)
  | doRequest =>
    have hcall : c.processRead w = HttpConn.doRequest w { c with parser := s' } := by
      simp only [HttpConn.processRead, hparse, bind, Except.bind]
    have hdo := doRequest_ok_iff (w := w) (c := { c with parser := s' }) h.realFile
      (hinside s' ⟨lines, bodies, hruns⟩)
    rw [hcall]
    constructor
    · rintro ⟨w', c', code, hok⟩ t ht
      cases hparse.symm.trans ((processRead_ok_iff h.cursors).mpr ht)
      exact hdo.mp ⟨_, hok⟩
    · intro hfits
      obtain ⟨⟨w', c', code⟩, hok⟩ := hdo.mpr (hfits s' ⟨lines, bodies, hruns⟩)
      exact ⟨w', c', code, hok⟩

/-- **One call** of `process_read`. -/
theorem cursorSafe_iff {w : World} {c : HttpConn} (h : CallInv c)
    (hinside : WritesInside w c.parser) : CursorSafe w c ↔ Endable c.parser := by
  constructor
  · rintro ⟨-, -, ⟨lines, bodies, r, s', hruns, -⟩, w', c', code, hread, -⟩
    exact ⟨hosted_of_runs h.cursors hruns,
      (processRead_returns h hruns hinside.page).mp ⟨w', c', code, hread⟩⟩
  · rintro ⟨hhosted, hfits⟩
    obtain ⟨lines, bodies, r, s', hruns⟩ := exists_runs h.cursors fun t ht =>
      handleLine_total (h.cursors.enters ht).2 (hinside.nul t ht) (hhosted t ht)
    obtain ⟨hlines, -, hinv⟩ := runs_lines h.cursors hruns
    obtain ⟨w', c', code, hread⟩ := (processRead_returns h hruns hinside.page).mpr hfits
    refine ⟨fun t ht => (h.cursors.scans ht).reads, ?_, ?_, ?_⟩
    · intro t u ht hu
      obtain ⟨k, hk⟩ := (h.cursors.scans ht).taken hu
      have hle := hk.le
      rw [hk.checkedIdx]
      exact ⟨by omega, hk.cr, hk.lf⟩
    · exact ⟨lines, bodies, r, s', hruns, (runs_bodies hruns).1, hlines, hinv.ordered,
        (processRead_ok_iff h.cursors).mpr ⟨lines, bodies, hruns⟩⟩
    · exact ⟨w', c', code, hread, (h.processRead hread).cursors.ordered⟩

-- ---------------------------------------------------------------------------
-- Any calls
-- ---------------------------------------------------------------------------

/-- **One step** of any calls. -/
theorem callInv_call {c c' : HttpConn} {l : CursorCall} (h : CallInv c)
    (hc : c.call l = some c') : CallInv c' := by
  cases l with
  | readOnce r =>
    unfold HttpConn.call at hc
    dsimp only at hc
    split at hc
    · rename_i hok
      obtain rfl := Option.some.inj hc
      exact ⟨h.cursors.recv r hok, h.realFile⟩
    · cases hc
  | processRead w =>
    obtain ⟨⟨w', c₁, code⟩, hread, rfl⟩ := Option.map_eq_some_iff.mp hc
    replace hread : c.processRead w = .ok (w', c₁, code) := by
      cases hresult : c.processRead w with
      | error f =>
        rw [hresult] at hread
        cases hread
      | ok x =>
        rw [hresult] at hread
        exact congrArg Except.ok (Option.some.inj hread)
    exact h.processRead hread

theorem callInv_init (c : HttpConn) : CallInv c.init := ⟨cursorInv_init c.parser, rfl⟩

/-- **The cursors.** They are in order after any calls, and the next call of `process_read` comes
to its end exactly if it meets no request line on which a null pointer is handed on, and
`do_request` no request that does not fit. -/
theorem cursors_ordered {c : HttpConn}
    (h : Reachable Initialized HttpConn.call (fun _ _ => True) c) :
    Ordered c.parser ∧
      ∀ w, WritesInside w c.parser → (CursorSafe w c ↔ Endable c.parser) := by
  have hinv : CallInv c := by
    refine h.invariant (P := CallInv) ?_ fun _ _ _ hs _ hstep => callInv_call hs hstep
    rintro c ⟨c₀, rfl⟩
    exact callInv_init c₀
  exact ⟨hinv.cursors.ordered, fun w => cursorSafe_iff hinv⟩

/-- What has been received is received by one `read_once`. -/
theorem reachable_received {bs : List UInt8}
    (hok : (HttpConn.constructed.init.readOnce (.data bs)).2 = true) :
    Reachable Initialized HttpConn.call (fun _ _ => True) (HttpConn.received bs) :=
  .step (.readOnce (.data bs)) (.init ⟨HttpConn.constructed, rfl⟩) trivial (if_pos hok)

theorem callInv_received {bs : List UInt8}
    (hok : (HttpConn.constructed.init.readOnce (.data bs)).2 = true) :
    CallInv (HttpConn.received bs) :=
  ⟨(cursorInv_init HttpConn.constructed.parser).recv (.data bs) hok, rfl⟩

/-- A call that has a result writes inside the buffer. -/
theorem writesInside_of_ok {w w' : World} {c c' : HttpConn} {code : HttpCode} (h : CallInv c)
    (hread : c.processRead w = .ok (w', c', code)) :
    WritesInside w c.parser ∧ Endable c.parser := by
  obtain ⟨⟨r, s⟩, hparse, -⟩ := bind_ok.mp hread
  obtain ⟨lines, bodies, hruns⟩ := (processRead_ok_iff h.cursors).mp hparse
  have hpage : ∀ s', Requests c.parser s' → PageInside w s' := by
    intro s' hs'
    have hparse' := (processRead_ok_iff h.cursors).mpr hs'
    rcases processRead_cases hread with ⟨t, hcode, -⟩ | ⟨t, t', real, path, hdo, hresolve, -⟩
    · cases hparse'.symm.trans hcode
    · cases hparse'.symm.trans hdo
      exact pageInside_of_resolve hresolve
  exact ⟨⟨nulInside_of_runs hruns, hpage⟩, hosted_of_runs h.cursors hruns,
    (processRead_returns h hruns hpage).mp ⟨w', c', code, hread⟩⟩

/-- A login, with the `&` and the NUL that end its fields. -/
theorem cursors_ordered_login :
    Ordered (HttpConn.received (loginWith "user=a&password=b")).parser ∧
    CursorSafe onePage (HttpConn.received (loginWith "user=a&password=b")) := by
  have hok : (HttpConn.constructed.init.readOnce
      (.data (loginWith "user=a&password=b"))).2 = true := by decide +kernel
  have hinv := callInv_received hok
  have hend : ((HttpConn.received (loginWith "user=a&password=b")).processRead onePage).map
      (fun r => r.2.2) = .ok .noResource := by decide +kernel
  obtain ⟨⟨w', c', code⟩, hread, -⟩ := map_ok.mp hend
  obtain ⟨hinside, hendable⟩ := writesInside_of_ok hinv hread
  obtain ⟨hordered, hsafe⟩ := cursors_ordered (reachable_received hok)
  exact ⟨hordered, (hsafe onePage hinside).mpr hendable⟩

/-- On `GET http://a HTTP/1.1` the call does not come to its end. -/
theorem not_cursorSafe : ¬ ∀ w c, Reachable Initialized HttpConn.call (fun _ _ => True) c →
    WritesInside w c.parser → CursorSafe w c := by
  intro hall
  have hok : (HttpConn.constructed.init.readOnce
      (.data (bytes "GET http://a HTTP/1.1\r\n"))).2 = true := by decide +kernel
  have hend : (Http.processRead (HttpConn.received (bytes "GET http://a HTTP/1.1\r\n")).parser).map
      Prod.fst = .error .nullPointer := by decide +kernel
  have hturn : (turn .lineOk (HttpConn.received (bytes "GET http://a HTTP/1.1\r\n")).parser).map
      (fun _ => ()) = .error .nullPointer := by decide +kernel
  have hinside : WritesInside onePage
      (HttpConn.received (bytes "GET http://a HTTP/1.1\r\n")).parser := by
    refine ⟨fun t ht hstate => ?_, fun s' hs' => ?_⟩
    · cases ht with
      | here he =>
        have hb : ¬ BodyFirst .lineOk
            (HttpConn.received (bytes "GET http://a HTTP/1.1\r\n")).parser := by decide +kernel
        have hkept := (parseLine_kept
          (HttpConn.received (bytes "GET http://a HTTP/1.1\r\n")).parser).2
        rw [entered_line hb he] at hkept
        cases hkept.symm.trans hstate
      | again hagain =>
        rw [hagain] at hturn
        cases hturn
    · rw [(processRead_ok_iff (callInv_received hok).cursors).mpr hs'] at hend
      cases hend
  obtain ⟨-, -, ⟨lines, bodies, r, s', -, -, -, -, hr⟩, -⟩ :=
    hall onePage _ (reachable_received hok) hinside
  rw [hr] at hend
  cases hend

end TinyHTTP.Http
