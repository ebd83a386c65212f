import TinyHTTP.Http.Frame

/-!
# TinyHTTP — the head of a request

The turns of `process_read` up to the body: `headRun` is its loop, stopped where
`CHECK_STATE_CONTENT` is entered. `HeadInv` is what holds of the parser between
two turns.

* `turn_cases` — a turn takes a complete line off the buffer, or waits.
* `headRun_deliver` — the run over more bytes resumes the run over fewer.
* `processReadLoop_head` — the loop of `process_read` in terms of `headRun`.
-/

namespace TinyHTTP.Http

open TinyHTTP.Lib

/-- The parser between two turns on the head. -/
structure HeadInv (s : Parser) : Prop where
  start_le : s.startLine ≤ s.checkedIdx
  checked_le : s.checkedIdx ≤ s.readIdx
  read_le : s.readIdx ≤ readBufferSize
  noCr : s.NoCr
  /-- the strings parsed so far end in the part of the buffer that is done with -/
  strings : ∀ i, s.Points i → NulBefore s.readBuf i s.checkedIdx

theorem headInv_init (s : Parser) : HeadInv s.init where
  start_le := Nat.le_refl _
  checked_le := Nat.le_refl _
  read_le := by simp [Parser.init]
  noCr := fun h => absurd h (Nat.lt_irrefl 0)
  strings := by
    rintro i (h | h | h) <;> cases h

theorem HeadInv.deliver {s : Parser} (h : HeadInv s) {bs : List UInt8}
    (hfit : s.readIdx + bs.length ≤ readBufferSize) : HeadInv (s.deliver bs) where
  start_le := h.start_le
  checked_le := by
    have := h.checked_le
    show s.checkedIdx ≤ s.readIdx + bs.length
    omega
  read_le := hfit
  noCr := NoCr.deliver h.noCr h.checked_le bs
  strings := by
    intro i hi
    have hsame : SameBelow s.checkedIdx s.readBuf (s.deliver bs).readBuf := fun j hj =>
      deliver_readBuf_lt (by have := h.checked_le; omega)
    exact (h.strings i hi).congr hsame

/-- Having scanned on to `c` and found the line incomplete or spoilt. -/
theorem HeadInv.scanned {s : Parser} (h : HeadInv s) {c : Nat} (hle : s.checkedIdx ≤ c)
    (hc : c ≤ s.readIdx) (hclean : s.CleanTo c) : HeadInv { s with checkedIdx := c } where
  start_le := Nat.le_trans h.start_le hle
  checked_le := hc
  read_le := h.read_le
  noCr := NoCr.scanned h.noCr hle hclean
  strings := by
    intro i hi
    obtain ⟨k, h₁, h₂, h₃⟩ := h.strings i hi
    exact ⟨k, h₁, Nat.lt_of_lt_of_le h₂ hle, h₃⟩

-- ---------------------------------------------------------------------------
-- One turn
-- ---------------------------------------------------------------------------

/-- What has been taken off is a line. -/
theorem line_of_start {s : Parser} {c : Nat} (hstart : s.startLine ≤ c) (hc : c + 1 < s.readIdx)
    (hread : s.readIdx ≤ readBufferSize) : Line (s.takeLine c) s.startLine where
  text_le := by
    show s.startLine + 2 ≤ c + 2
    omega
  nul := by
    show Function.update (Function.update s.readBuf c 0) (c + 1) 0 (c + 2 - 2) = 0
    rw [show c + 2 - 2 = c by omega, Function.update_of_ne (by omega), Function.update_self]
  nul' := by
    show Function.update (Function.update s.readBuf c 0) (c + 1) 0 (c + 2 - 1) = 0
    rw [show c + 2 - 1 = c + 1 by omega, Function.update_self]
  checked_le := hc
  read_le := hread

theorem line_takeLine {s : Parser} (h : HeadInv s) {c : Nat} (hle : s.checkedIdx ≤ c)
    (hc : c + 1 < s.readIdx) : Line (s.takeLine c) s.startLine :=
  line_of_start (Nat.le_trans h.start_le hle) hc h.read_le

/-- After a line has been parsed the invariant holds again. -/
theorem headInv_parsed {s s' : Parser} (h : HeadInv s) {c : Nat} (hle : s.checkedIdx ≤ c)
    (hc : c + 1 < s.readIdx) (hp : Parsed (s.takeLine c).nextLine s') : HeadInv s' := by
  have hl := line_takeLine h hle hc
  obtain ⟨g₁, g₂, g₃, -, g₅, g₆⟩ := hp
  replace g₁ : s'.readIdx = s.readIdx := g₁
  replace g₂ : s'.checkedIdx = c + 2 := g₂
  replace g₃ : s'.startLine = c + 2 := g₃
  refine ⟨by omega, by omega, by rw [g₁]; exact h.read_le, ?_, ?_⟩
  · intro _ hcr
    rw [g₂] at hcr
    have h0 : (s.takeLine c).readBuf (c + 2 - 1) = 0 := hl.nul'
    have := g₅.cr _ hcr
    rw [show (s.takeLine c).nextLine.readBuf (c + 2 - 1) = 0 from h0] at this
    exact absurd this (by decide)
  · intro i hi
    rw [g₂]
    rcases g₆ i hi with hi | hi
    · -- a string of an earlier line
      obtain ⟨k, h₁, h₂, h₃⟩ := h.strings i hi
      refine g₅.nul i ?_
      have hk : NulBefore s.readBuf i (c + 2) := ⟨k, h₁, by omega, h₃⟩
      exact (hk.update c).update (c + 1)
    · exact hi

/-- What parsing a line of the head comes to. -/
inductive LineTurn (s : Parser) : Turn → Prop
  | again (s' : Parser) (h : Parsed s.nextLine s') : LineTurn s (.again .lineOk s')
  | bad (s' : Parser) (h : Parsed s.nextLine s') : LineTurn s (.stop (.code .badRequest) s')
  | doRequest (s' : Parser) (h : Parsed s.nextLine s') : LineTurn s (.stop .doRequest s')

theorem handleLine_ok {s : Parser} {t : Turn} (hl : Line s s.startLine)
    (hhead : s.checkState ≠ .content) (h : handleLine s = .ok t) : LineTurn s t := by
  have hl' : Line s.nextLine s.startLine := ⟨hl.text_le, hl.nul, hl.nul', hl.checked_le, hl.read_le⟩
  unfold handleLine at h
  cases hc : s.checkState with
  | content => exact absurd hc hhead
  | requestLine =>
    simp only [hc] at h
    cases hr : parseRequestLine s.nextLine s.startLine with
    | error f => simp [hr, Except.map] at h
    | ok r =>
      have hp := parseRequestLine_parsed hl' hr
      simp only [hr, Except.map, requestLineTurn, Except.ok.injEq] at h
      subst h
      split
      · exact .bad _ hp
      · exact .again _ hp
  | header =>
    simp only [hc] at h
    cases hr : parseHeaders s.nextLine s.startLine with
    | error f => simp [hr, Except.map] at h
    | ok r =>
      have hp := parseHeaders_parsed hl' hr
      simp only [hr, Except.map, headerTurn, Except.ok.injEq] at h
      subst h
      split
      · exact .bad _ hp
      split
      · exact .doRequest _ hp
      · exact .again _ hp

/-- A turn on the head: it parses the line that ends at `c`, whatever follows, or it has scanned
on to `c` and waits for more. -/
inductive HeadTurn (s : Parser) : Prop
  | line (c : Nat) (hle : s.checkedIdx ≤ c) (hc : c + 1 < s.readIdx)
      (h : turn .lineOk s = handleLine (s.takeLine c))
      (hdeliver : ∀ bs, turn .lineOk (s.deliver bs) =
        (handleLine (s.takeLine c)).map (Turn.deliver bs))
  | wait (c : Nat) (hle : s.checkedIdx ≤ c) (hc : c ≤ s.readIdx)
      (hinv : HeadInv { s with checkedIdx := c })
      (h : turn .lineOk s = .ok (.stop (.code .noRequest) { s with checkedIdx := c }))
      (hdeliver : ∀ bs, turn .lineOk (s.deliver bs) =
        turn .lineOk (Parser.deliver { s with checkedIdx := c } bs))

theorem turn_head {s : Parser} (hhead : s.checkState ≠ .content) (st : LineStatus) :
    turn st s = match parseLine s with
      | (.lineOk, s) => handleLine s
      | (_, s) => .ok (.stop (.code .noRequest) s) := by
  have hno : ¬ (s.checkState = .content ∧ st = .lineOk) := fun h => hhead h.1
  refine (if_neg hno).trans ?_
  obtain ⟨lineStatus, s'⟩ := parseLine s
  cases lineStatus <;> rfl

/-- A turn that finds a complete line parses it, whatever bytes follow. -/
theorem turn_line {s : Parser} (hinv : HeadInv s) (hhead : s.checkState ≠ .content) {c : Nat}
    (hle : s.checkedIdx ≤ c) (hc : c + 1 < s.readIdx) (hclean : s.CleanTo c)
    (hcr : s.readBuf c = cr) (hlf : s.readBuf (c + 1) = lf) :
    turn .lineOk s = handleLine (s.takeLine c) ∧
      ∀ bs, turn .lineOk (s.deliver bs) = (handleLine (s.takeLine c)).map (Turn.deliver bs) := by
  constructor
  · simp only [turn_head hhead, parseLine_ok hle hc hclean hcr hlf]
  · intro bs
    have hhead' : (s.deliver bs).checkState ≠ .content := hhead
    simp only [turn_head hhead', parseLine_deliver_ok hle hc hclean hcr hlf]
    exact handleLine_deliver (line_takeLine hinv hle hc) hhead bs

theorem turn_cases {s : Parser} (hinv : HeadInv s) (hhead : s.checkState ≠ .content) :
    HeadTurn s := by
  have hhead' : ∀ bs, (s.deliver bs).checkState ≠ .content := fun _ => hhead
  cases parseLine_cases hinv.checked_le with
  | ok c hle hc hclean hcr hlf =>
    obtain ⟨h, hdeliver⟩ := turn_line hinv hhead hle hc hclean hcr hlf
    exact .line c hle hc h hdeliver
  | bad c hle hc hclean hbad =>
    refine .wait c hle (by omega) (hinv.scanned hle (by omega) hclean) ?_ ?_
    · simp only [turn_head hhead, parseLine_bad hle hc hclean hinv.noCr hbad]
    · intro bs
      simp only [turn_head (hhead' bs), parseLine_deliver_open hle (Nat.le_of_lt hc) hclean]
      rw [turn_head (s := Parser.deliver { s with checkedIdx := c } bs) hhead]
  | «open» c hle hc hclean hend =>
    refine .wait c hle hc (hinv.scanned hle hc hclean) ?_ ?_
    · simp only [turn_head hhead, parseLine_open hle hc hclean hend]
    · intro bs
      simp only [turn_head (hhead' bs), parseLine_deliver_open hle hc hclean]
      rw [turn_head (s := Parser.deliver { s with checkedIdx := c } bs) hhead]

-- ---------------------------------------------------------------------------
-- The run over the head
-- ---------------------------------------------------------------------------

/-- How the run over the head ends: `process_read` is done, or the body comes next. -/
inductive HeadEnd where
  | stop (r : ReadEnd)
  | content
  deriving DecidableEq

def headLoop : Nat → Parser → Except Fault (HeadEnd × Parser)
  | 0, s => .ok (.stop (.code .noRequest), s)
  | fuel + 1, s =>
    if s.checkState = .content then .ok (.content, s)
    else match turn .lineOk s with
      | .error f => .error f
      | .ok (.stop r s) => .ok (.stop r, s)
      | .ok (.again _ s) => headLoop fuel s

/-- The `while` loop of `process_read`, up to the body. -/
def headRun (s : Parser) : Except Fault (HeadEnd × Parser) :=
  headLoop (s.readIdx - s.checkedIdx + 1) s

/-- One turn of `headLoop`, for a fuel that covers the unread bytes. -/
theorem headLoop_fuel {s : Parser} (hinv : HeadInv s) {n n' : Nat}
    (hn : s.readIdx - s.checkedIdx < n) (hn' : s.readIdx - s.checkedIdx < n') :
    headLoop n s = headLoop n' s := by
  induction n generalizing s n' with
  | zero => omega
  | succ n ih =>
    cases n' with
    | zero => omega
    | succ n' =>
      rw [headLoop, headLoop]
      split
      · rfl
      · rename_i hhead
        cases turn_cases hinv hhead with
        | wait c hle hc _ h _ => rw [h]
        | line c hle hc h _ =>
          rw [h]
          cases ht : handleLine (s.takeLine c) with
          | error f => rfl
          | ok t =>
            cases handleLine_ok (line_takeLine hinv hle hc) hhead ht with
            | bad | doRequest => rfl
            | again s' hp =>
              have hchecked : s'.checkedIdx = c + 2 := hp.checkedIdx
              have hread : s'.readIdx = s.readIdx := hp.readIdx
              exact ih (headInv_parsed hinv hle hc hp) (by omega) (by omega)

theorem headRun_content {s : Parser} (h : s.checkState = .content) :
    headRun s = .ok (.content, s) := by
  rw [headRun, headLoop, if_pos h]

theorem headRun_wait {s s' : Parser} (hhead : s.checkState ≠ .content) {r : ReadEnd}
    (h : turn .lineOk s = .ok (.stop r s')) : headRun s = .ok (.stop r, s') := by
  rw [headRun, headLoop, if_neg hhead, h]

theorem headRun_fault {s : Parser} (hhead : s.checkState ≠ .content) {f : Fault}
    (h : turn .lineOk s = .error f) : headRun s = .error f := by
  rw [headRun, headLoop, if_neg hhead, h]

theorem headRun_again {s s' : Parser} (hhead : s.checkState ≠ .content) {st : LineStatus}
    (hinv : HeadInv s') (h : turn .lineOk s = .ok (.again st s'))
    (hlt : s'.readIdx - s'.checkedIdx < s.readIdx - s.checkedIdx) : headRun s = headRun s' := by
  rw [headRun, headLoop, if_neg hhead, h]
  exact headLoop_fuel hinv hlt (Nat.lt_succ_self _)

/-- The states between the turns of `process_read`. -/
inductive Visits : LineStatus → Parser → Parser → Prop
  | here (st : LineStatus) (s : Parser) : Visits st s s
  | again {st st' : LineStatus} {s s' t : Parser} (h : turn st s = .ok (.again st' s'))
      (ht : Visits st' s' t) : Visits st s t

/-- Where the run over the head hands over to the body, `CHECK_STATE_CONTENT` has been entered. -/
theorem headRun_content_visits {s s' : Parser} (hinv : HeadInv s)
    (h : headRun s = .ok (.content, s')) : Visits .lineOk s s' ∧ s'.checkState = .content := by
  obtain ⟨n, hn⟩ : ∃ n, s.readIdx - s.checkedIdx = n := ⟨_, rfl⟩
  induction n using Nat.strongRecOn generalizing s with
  | _ n ih =>
    by_cases hhead : s.checkState = .content
    · rw [headRun_content hhead, Except.ok.injEq, Prod.mk.injEq] at h
      obtain ⟨-, rfl⟩ := h
      exact ⟨.here _ _, hhead⟩
    cases turn_cases hinv hhead with
    | wait c hle hc _ ht _ =>
      rw [headRun_wait hhead ht] at h
      cases h
    | line c hle hc ht _ =>
      cases hl : handleLine (s.takeLine c) with
      | error f =>
        rw [headRun_fault hhead (ht.trans hl)] at h
        cases h
      | ok t =>
        have hr := handleLine_ok (line_takeLine hinv hle hc) hhead hl
        cases hr with
        | bad | doRequest =>
          rw [headRun_wait hhead (ht.trans hl)] at h
          cases h
        | again s₁ hp =>
          have hchecked : s₁.checkedIdx = c + 2 := hp.checkedIdx
          have hread : s₁.readIdx = s.readIdx := hp.readIdx
          have hinv₁ := headInv_parsed hinv hle hc hp
          rw [headRun_again hhead hinv₁ (ht.trans hl) (by omega)] at h
          obtain ⟨hv, hc'⟩ := ih (s₁.readIdx - s₁.checkedIdx) (by omega) hinv₁ h rfl
          exact ⟨.again (ht.trans hl) hv, hc'⟩

/-- The run over the bytes seen so far, and the run with `bs` behind them. -/
inductive Resumes (s : Parser) (bs : List UInt8) : Except Fault (HeadEnd × Parser) → Prop
  /-- it waits: the longer run is the run resumed from there -/
  | wait (s' : Parser) (hinv : HeadInv s') (hhead : s'.checkState ≠ .content)
      (hread : s'.readIdx = s.readIdx) (h : headRun (s.deliver bs) = headRun (s'.deliver bs)) :
      Resumes s bs (.ok (.stop (.code .noRequest), s'))
  /-- it is done: so is the longer run -/
  | done (e : HeadEnd) (s' : Parser) (hinv : HeadInv s') (he : e ≠ .stop (.code .noRequest))
      (hread : s'.readIdx = s.readIdx) (h : headRun (s.deliver bs) = .ok (e, s'.deliver bs)) :
      Resumes s bs (.ok (e, s'))
  | fault (f : Fault) (h : headRun (s.deliver bs) = .error f) : Resumes s bs (.error f)

/-- **More input.** Induction on the bytes not yet scanned. -/
theorem headRun_deliver {s : Parser} (hinv : HeadInv s) (bs : List UInt8)
    (hfit : s.readIdx + bs.length ≤ readBufferSize) : Resumes s bs (headRun s) := by
  obtain ⟨n, hn⟩ : ∃ n, s.readIdx - s.checkedIdx = n := ⟨_, rfl⟩
  induction n using Nat.strongRecOn generalizing s with
  | _ n ih =>
    by_cases hhead : s.checkState = .content
    · rw [headRun_content hhead]
      have h' : (s.deliver bs).checkState = .content := hhead
      exact .done .content s hinv (by simp) rfl (headRun_content h')
    have hhead' : (s.deliver bs).checkState ≠ .content := hhead
    cases turn_cases hinv hhead with
    | wait c hle hc hinv' h hdeliver =>
      rw [headRun_wait hhead h]
      refine .wait _ hinv' hhead rfl ?_
      -- both runs start with the same turn
      have hfuel : ∀ t : Parser, t.checkState ≠ .content → headRun t =
          match turn .lineOk t with
          | .error f => .error f
          | .ok (.stop r t') => .ok (.stop r, t')
          | .ok (.again _ t') => headLoop (t.readIdx - t.checkedIdx) t' := by
        intro t ht
        rw [headRun, headLoop, if_neg ht]
      have hc' : (Parser.deliver { s with checkedIdx := c } bs).checkState ≠ .content := hhead
      rw [hfuel _ hhead', hfuel _ hc', hdeliver bs]
      cases turn_cases (hinv'.deliver hfit) hc' with
      | wait _ _ _ _ h _ => rw [h]
      | line d hle' hd h _ =>
        rw [h]
        cases ht : handleLine
            (Parser.takeLine (Parser.deliver { s with checkedIdx := c } bs) d) with
        | error f => rfl
        | ok t =>
          cases handleLine_ok (line_takeLine (hinv'.deliver hfit) hle' hd) hc' ht with
          | bad | doRequest => rfl
          | again s' hp =>
            have hchecked : s'.checkedIdx = d + 2 := hp.checkedIdx
            have hread : s'.readIdx = s.readIdx + bs.length := hp.readIdx
            replace hle' : c ≤ d := hle'
            replace hd : d + 1 < s.readIdx + bs.length := hd
            have h₁ : (s.deliver bs).readIdx - (s.deliver bs).checkedIdx =
                s.readIdx + bs.length - s.checkedIdx := rfl
            have h₂ : (Parser.deliver { s with checkedIdx := c } bs).readIdx -
                (Parser.deliver { s with checkedIdx := c } bs).checkedIdx =
                s.readIdx + bs.length - c := rfl
            exact headLoop_fuel (headInv_parsed (hinv'.deliver hfit) hle' hd hp) (by omega)
              (by omega)
    | line c hle hc h hdeliver =>
      cases ht : handleLine (s.takeLine c) with
      | error f =>
        rw [headRun_fault hhead (h.trans ht)]
        refine .fault f (headRun_fault hhead' ?_)
        rw [hdeliver, ht]
        rfl
      | ok t =>
        have hdel := hdeliver bs
        rw [ht] at hdel
        cases handleLine_ok (line_takeLine hinv hle hc) hhead ht with
        | bad s' hp =>
          rw [headRun_wait hhead (h.trans ht)]
          exact .done _ s' (headInv_parsed hinv hle hc hp) (by simp) hp.readIdx
            (headRun_wait hhead' hdel)
        | doRequest s' hp =>
          rw [headRun_wait hhead (h.trans ht)]
          exact .done _ s' (headInv_parsed hinv hle hc hp) (by simp) hp.readIdx
            (headRun_wait hhead' hdel)
        | again s' hp =>
          have hchecked : s'.checkedIdx = c + 2 := hp.checkedIdx
          have hread : s'.readIdx = s.readIdx := hp.readIdx
          have hinv' := headInv_parsed hinv hle hc hp
          have hfit' : s'.readIdx + bs.length ≤ readBufferSize := by omega
          rw [headRun_again hhead hinv' (h.trans ht) (by omega)]
          have hrun : headRun (s.deliver bs) = headRun (s'.deliver bs) := by
            refine headRun_again hhead' (hinv'.deliver hfit') hdel ?_
            show s'.readIdx + bs.length - s'.checkedIdx < s.readIdx + bs.length - s.checkedIdx
            omega
          have hrest := ih (s'.readIdx - s'.checkedIdx) (by omega) hinv' hfit' rfl
          generalize headRun s' = r at hrest
          cases hrest with
          | wait t hinv'' hhead'' hr hh =>
            exact .wait t hinv'' hhead'' (hr.trans hread) (hrun.trans hh)
          | done e t hinv'' he hr hh => exact .done e t hinv'' he (hr.trans hread) (hrun.trans hh)
          | fault f hh => exact .fault f (hrun.trans hh)

-- ---------------------------------------------------------------------------
-- process_read
-- ---------------------------------------------------------------------------

/-- The loop of `process_read` from a state of the head: it ends as the head ends, or goes on with
the body with fuel to spare. -/
inductive LoopResult (result : Except Fault (ReadEnd × Parser)) :
    Except Fault (HeadEnd × Parser) → Prop
  | stop (r : ReadEnd) (s' : Parser) (h : result = .ok (r, s')) :
      LoopResult result (.ok (.stop r, s'))
  | content (s' : Parser) (fuel : Nat) (hinv : HeadInv s') (hcontent : s'.checkState = .content)
      (hfuel : s'.readIdx - s'.checkedIdx + 2 ≤ fuel)
      (h : result = processReadLoop fuel .lineOk s') : LoopResult result (.ok (.content, s'))
  | fault (f : Fault) (h : result = .error f) : LoopResult result (.error f)

theorem processReadLoop_head {s : Parser} (hinv : HeadInv s) {n : Nat}
    (hn : s.readIdx - s.checkedIdx + 2 ≤ n) :
    LoopResult (processReadLoop n .lineOk s) (headRun s) := by
  induction n generalizing s with
  | zero => omega
  | succ n ih =>
    by_cases hhead : s.checkState = .content
    · rw [headRun_content hhead]
      exact .content s (n + 1) hinv hhead hn rfl
    rw [processReadLoop]
    cases turn_cases hinv hhead with
    | wait c hle hc hinv' h _ =>
      rw [headRun_wait hhead h, h]
      exact .stop _ _ rfl
    | line c hle hc h _ =>
      cases ht : handleLine (s.takeLine c) with
      | error f =>
        rw [headRun_fault hhead (h.trans ht), h, ht]
        exact .fault f rfl
      | ok t =>
        cases handleLine_ok (line_takeLine hinv hle hc) hhead ht with
        | bad s' hp | doRequest s' hp =>
          rw [headRun_wait hhead (h.trans ht), h, ht]
          exact .stop _ _ rfl
        | again s' hp =>
          have hchecked : s'.checkedIdx = c + 2 := hp.checkedIdx
          have hread : s'.readIdx = s.readIdx := hp.readIdx
          have hinv' := headInv_parsed hinv hle hc hp
          rw [headRun_again hhead hinv' (h.trans ht) (by omega), h, ht]
          exact ih hinv' (by omega)

end TinyHTTP.Http
