import TinyHTTP.Http.BodyBounds

/-!
# TinyHTTP — lines that cannot be completed

`parse_line` answers `LINE_BAD` on a CR without its LF and on a LF without its
CR. The `while` condition of `process_read` tells `LINE_OK` from the rest and
nothing else, so `process_read` returns `NO_REQUEST` and the connection goes on
reading, with the scanner stuck on the byte that spoilt the line (`Spoilt`).

* `parseLine_spoilt` — `LINE_BAD` leaves the scanner stuck.
* `spoilt_feed` — stuck it stays, whatever arrives.
* `bad_line_awaited` — what `process_read` answers on a line that is bad.
-/

namespace TinyHTTP.Http

open TinyHTTP.Lib

/-- The scanner stands on a byte that no later input can make part of a line. -/
structure Spoilt (s : Parser) : Prop where
  lt : s.checkedIdx < s.readIdx
  byte : (s.readBuf s.checkedIdx = cr ∧ s.checkedIdx + 1 < s.readIdx ∧
      s.readBuf (s.checkedIdx + 1) ≠ lf) ∨
    (s.readBuf s.checkedIdx = lf ∧
      ¬ (s.checkedIdx > 1 ∧ s.readBuf (s.checkedIdx - 1) = cr))

/-- `LINE_BAD` leaves the scanner where it is stuck. -/
theorem parseLineLoop_spoilt (n : Nat) (s : Parser) (hn : s.checkedIdx + n = s.readIdx)
    (h : (parseLineLoop n s).1 = .lineBad) : Spoilt (parseLineLoop n s).2 := by
  induction n generalizing s with
  | zero => cases h
  | succ n ih =>
    rw [parseLineLoop] at h ⊢
    split at h
    · rename_i hcr
      rw [if_pos hcr]
      split at h
      · cases h
      rename_i hlast
      rw [if_neg hlast]
      split at h
      · cases h
      · rename_i hlf
        rw [if_neg hlf]
        exact ⟨by simp only; omega, Or.inl ⟨hcr, by simp only; omega, hlf⟩⟩
    · rename_i hcr
      rw [if_neg hcr]
      split at h
      · rename_i hlf
        rw [if_pos hlf]
        split at h
        · cases h
        · rename_i hprev
          rw [if_neg hprev]
          exact ⟨by simp only; omega, Or.inr ⟨hlf, hprev⟩⟩
      · rename_i hlf
        rw [if_neg hlf]
        exact ih _ (by simp only; omega) h

/-- With `m_checked_idx` behind the bytes read there is nothing to scan. -/
theorem checked_le_of_bad {s : Parser} (h : (parseLine s).1 ≠ .lineOpen) :
    s.checkedIdx ≤ s.readIdx := by
  by_contra hlt
  have h0 : s.readIdx - s.checkedIdx = 0 := by omega
  rw [parseLine, h0] at h
  exact h rfl

theorem parseLine_spoilt {s : Parser} (h : (parseLine s).1 = .lineBad) :
    Spoilt (parseLine s).2 := by
  have hle := checked_le_of_bad (s := s) (by rw [h]; decide)
  exact parseLineLoop_spoilt _ s (by omega) h

/-- A stuck scanner stays where it is. -/
theorem Spoilt.line {s : Parser} (h : Spoilt s) : parseLine s = (.lineBad, s) := by
  obtain ⟨hlt, hbyte⟩ := h
  have hrem : s.readIdx - s.checkedIdx = (s.readIdx - (s.checkedIdx + 1)) + 1 := by omega
  rw [parseLine, hrem, parseLineLoop]
  rcases hbyte with ⟨hcr, hnext, hlf⟩ | ⟨hlf, hprev⟩
  · have hne : ¬ s.checkedIdx + 1 = s.readIdx := by omega
    simp only [if_pos hcr, if_neg hne, if_neg hlf]
  · have hcr : ¬ s.readBuf s.checkedIdx = cr := by
      rw [hlf]
      decide
    simp only [if_neg hcr, if_pos hlf, if_neg hprev]

/-- More bytes do not free it. -/
theorem Spoilt.deliver {s : Parser} (h : Spoilt s) (bs : List UInt8) :
    Spoilt (s.deliver bs) := by
  obtain ⟨hlt, hbyte⟩ := h
  have hsame : ∀ k < s.readIdx, (s.deliver bs).readBuf k = s.readBuf k :=
    fun k hk => deliver_readBuf_lt hk
  have hread : (s.deliver bs).readIdx = s.readIdx + bs.length := rfl
  refine ⟨?_, ?_⟩
  · show s.checkedIdx < s.readIdx + bs.length
    omega
  · show ((s.deliver bs).readBuf s.checkedIdx = cr ∧ s.checkedIdx + 1 < s.readIdx + bs.length ∧
        (s.deliver bs).readBuf (s.checkedIdx + 1) ≠ lf) ∨
      ((s.deliver bs).readBuf s.checkedIdx = lf ∧
        ¬ (s.checkedIdx > 1 ∧ (s.deliver bs).readBuf (s.checkedIdx - 1) = cr))
    rw [hsame _ hlt, hsame (s.checkedIdx - 1) (by omega)]
    rcases hbyte with ⟨hcr, hnext, hlf⟩ | hbyte
    · rw [hsame _ hnext]
      exact Or.inl ⟨hcr, by omega, hlf⟩
    · exact Or.inr hbyte

-- ---------------------------------------------------------------------------
-- What process_read answers
-- ---------------------------------------------------------------------------

/-- Outside the body a bad line ends the loop, with `NO_REQUEST`. -/
theorem turn_of_bad {s : Parser} (hhead : s.checkState ≠ .content)
    (h : (parseLine s).1 = .lineBad) (st : LineStatus) :
    turn st s = .ok (.stop (.code .noRequest) (parseLine s).2) := by
  rw [turn_head hhead]
  generalize parseLine s = r at h
  obtain ⟨lineStatus, s'⟩ := r
  obtain rfl : lineStatus = .lineBad := h
  rfl

/-- The state is the head's as long as the scanner is called in the head. -/
theorem parseLine_checkState (s : Parser) : (parseLine s).2.checkState = s.checkState := by
  by_cases hle : s.checkedIdx ≤ s.readIdx
  · exact (parseLine_scan hle).2.2.2.1
  · have h0 : s.readIdx - s.checkedIdx = 0 := by omega
    rw [parseLine, h0]
    rfl

theorem spoilt_processRead {s : Parser} (h : Spoilt s) (hhead : s.checkState ≠ .content) :
    processRead s = .ok (.code .noRequest, s) := by
  have hbad : (parseLine s).1 = .lineBad := by rw [h.line]
  have hturn := turn_of_bad hhead hbad .lineOk
  rw [h.line] at hturn
  rw [processRead, processReadLoop]
  simp only [hturn, bind, Except.bind]

/-- **Stuck.** Whatever arrives, the answer is `NO_REQUEST`, until the buffer is full or nothing
more comes. -/
theorem spoilt_feed {s : Parser} (h : Spoilt s) (hhead : s.checkState ≠ .content)
    (segs : List (List UInt8)) : ∃ code s', feed s segs = .ok (.code code, s') ∧
      (code = .noRequest ∨ code = .closedConnection) := by
  induction segs generalizing s with
  | nil => exact ⟨.noRequest, s, rfl, Or.inl rfl⟩
  | cons seg segs ih =>
    rw [feed]
    by_cases hfull : s.readIdx ≥ readBufferSize
    · simp only [Parser.readOnce, if_pos hfull]
      exact ⟨_, _, rfl, Or.inr rfl⟩
    · simp only [Parser.readOnce, if_neg hfull]
      have hdeliver := h.deliver (seg.take (readBufferSize - s.readIdx))
      split
      · rename_i s₁ hs₁
        obtain ⟨rfl, -⟩ := Prod.mk.inj hs₁
        exact ⟨_, _, rfl, Or.inr rfl⟩
      · rename_i s₁ hs₁
        obtain ⟨rfl, -⟩ := Prod.mk.inj hs₁
        have hhead' : (s.deliver (seg.take (readBufferSize - s.readIdx))).checkState ≠ .content :=
          hhead
        rw [spoilt_processRead hdeliver hhead']
        exact ih hdeliver hhead'

-- ---------------------------------------------------------------------------
-- The loop, up to the bad line
-- ---------------------------------------------------------------------------

/-- A complete line takes bytes off the buffer. -/
theorem parseLineLoop_ok_lt (n : Nat) (s : Parser) (h : (parseLineLoop n s).1 = .lineOk) :
    s.checkedIdx < (parseLineLoop n s).2.checkedIdx := by
  induction n generalizing s with
  | zero => cases h
  | succ n ih =>
    rw [parseLineLoop] at h ⊢
    split at h
    · rename_i hcr
      rw [if_pos hcr]
      split at h
      · cases h
      rename_i hlast
      rw [if_neg hlast]
      split at h
      · rename_i hlf
        rw [if_pos hlf]
        exact Nat.lt_add_of_pos_right (by omega)
      · cases h
    · rename_i hcr
      rw [if_neg hcr]
      split at h
      · rename_i hlf
        rw [if_pos hlf]
        split at h
        · rename_i hprev
          rw [if_pos hprev]
          exact Nat.lt_succ_self _
        · cases h
      · rename_i hlf
        rw [if_neg hlf]
        have := ih _ h
        simp only at this
        omega

/-- A turn that goes on to the next has taken bytes off the buffer, or parsed a body. -/
theorem turn_again_lt {st st' : LineStatus} {s s' : Parser} (hhead : s.checkState ≠ .content)
    (h : turn st s = .ok (.again st' s')) :
    s'.readIdx - s'.checkedIdx < s.readIdx - s.checkedIdx := by
  rw [turn_head hhead] at h
  generalize hp : parseLine s = r at h
  obtain ⟨lineStatus, t⟩ := r
  cases lineStatus with
  | lineBad | lineOpen => cases h
  | lineOk =>
    have hok : (parseLine s).1 = .lineOk := by rw [hp]
    obtain ⟨-, h₁, h₂, -⟩ := parseLine_scan (checked_le_of_bad (by rw [hok]; decide))
    have hlt := parseLineLoop_ok_lt _ s hok
    replace hlt : s.checkedIdx < (parseLine s).2.checkedIdx := hlt
    have hsame := handleLine_same h
    have hread : s'.readIdx = t.readIdx := hsame.readIdx
    have hchecked : s'.checkedIdx = t.checkedIdx := hsame.checkedIdx
    rw [hp] at h₁ h₂ hlt
    simp only at h₁ h₂ hlt
    omega

/-- The body is never left. -/
theorem turn_content {st st' : LineStatus} {s s' : Parser} (hc : s.checkState = .content)
    (h : turn st s = .ok (.again st' s')) : s'.checkState = .content := by
  have hparse : ∀ t : Parser, t.checkState = .content →
      handleLine t = .ok (.again st' s') → s'.checkState = .content := by
    intro t ht hl
    unfold handleLine at hl
    rw [ht] at hl
    obtain ⟨⟨ret, t'⟩, hcontent, hturn⟩ := map_ok.mp hl
    unfold contentTurn at hturn
    rw [parseContent_eq] at hcontent
    split at hcontent
    · cases hcontent
    split at hcontent
    · cases hcontent
      cases hturn
      exact ht
    split at hcontent
    · cases hcontent
      cases hturn
    · cases hcontent
  unfold turn at h
  split at h
  · exact hparse s hc h
  · have hstate := parseLine_checkState s
    generalize parseLine s = r at h hstate
    obtain ⟨lineStatus, t⟩ := r
    cases lineStatus with
    | lineOk => exact hparse t (hstate.trans hc) h
    | lineBad | lineOpen => cases h

theorem visits_content {st : LineStatus} {s t : Parser} (h : Visits st s t)
    (hc : s.checkState = .content) : t.checkState = .content := by
  induction h with
  | here st s => exact hc
  | again hturn _ ih => exact ih (turn_content hc hturn)

/-- Induction on the turns: each but the first has fewer bytes left to scan. -/
theorem loop_of_bad {st : LineStatus} {s t : Parser} (hv : Visits st s t)
    (hhead : t.checkState ≠ .content) (h : (parseLine t).1 = .lineBad) {fuel : Nat}
    (hfuel : s.readIdx - s.checkedIdx < fuel) :
    processReadLoop fuel st s = .ok (.code .noRequest, (parseLine t).2) := by
  induction hv generalizing fuel with
  | here st s =>
    cases fuel with
    | zero => omega
    | succ fuel =>
      rw [processReadLoop]
      simp only [turn_of_bad hhead h, bind, Except.bind]
  | again hturn hv ih =>
    rename_i st st' s s' t
    cases fuel with
    | zero => omega
    | succ fuel =>
      have hs : s.checkState ≠ .content := fun hc => hhead (visits_content (.again hturn hv) hc)
      have hlt := turn_again_lt hs hturn
      rw [processReadLoop]
      simp only [hturn, bind, Except.bind]
      exact ih hhead h (by omega)

-- ---------------------------------------------------------------------------
-- The result
-- ---------------------------------------------------------------------------

/-- `process_read`, called on `s`, has the scanner meet a bad line, outside the body. -/
def MeetsBadLine (s : Parser) : Prop :=
  ∃ t, Visits .lineOk s t ∧ t.checkState ≠ .content ∧ (parseLine t).1 = .lineBad

/-- `process_read` turns the request down. -/
def TurnsDown (s : Parser) : Prop := ∃ s', processRead s = .ok (.code .badRequest, s')

/-- `process_read` waits for more, and goes on to do so whatever arrives. -/
def WaitsForever (s : Parser) : Prop :=
  ∃ s', processRead s = .ok (.code .noRequest, s') ∧ ∀ segs, ∃ code s'',
    feed s' segs = .ok (.code code, s'') ∧ (code = .noRequest ∨ code = .closedConnection)

/-- **A bad line is never turned down.** -/
theorem bad_line_awaited {s : Parser} (h : MeetsBadLine s) : ¬ TurnsDown s ∧ WaitsForever s := by
  obtain ⟨t, hv, hhead, hbad⟩ := h
  have hrun : processRead s = .ok (.code .noRequest, (parseLine t).2) :=
    loop_of_bad hv hhead hbad (by omega)
  have hhead' : (parseLine t).2.checkState ≠ .content := by
    rw [parseLine_checkState]
    exact hhead
  constructor
  · rintro ⟨s', hs'⟩
    rw [hrun] at hs'
    cases hs'
  · exact ⟨_, hrun, fun segs => spoilt_feed (parseLine_spoilt hbad) hhead' segs⟩

theorem meetsBadLine_lf : MeetsBadLine (received (bytes "GET / HTTP/1.1\n")) :=
  ⟨_, .here _ _, by decide, by decide +kernel⟩

theorem bad_line_awaited_lf : ¬ TurnsDown (received (bytes "GET / HTTP/1.1\n")) ∧
    WaitsForever (received (bytes "GET / HTTP/1.1\n")) := bad_line_awaited meetsBadLine_lf

theorem bad_line_not_rejected : ¬ ∀ s, MeetsBadLine s → TurnsDown s := by
  intro h
  obtain ⟨s', hs'⟩ := h _ meetsBadLine_lf
  have hrun := loop_of_bad (.here .lineOk (received (bytes "GET / HTTP/1.1\n"))) (by decide)
    (by decide +kernel) (Nat.lt_succ_of_lt (Nat.lt_succ_self _))
  rw [processRead, hrun] at hs'
  cases hs'

end TinyHTTP.Http
