import TinyHTTP.Http.Parser

/-!
# TinyHTTP — the line scanner

What `parse_line` answers, read off the bytes between `m_checked_idx` and
`m_read_idx`, and how its answer changes when more bytes arrive.

* `parseLine_cases` — the three answers, and the first CR or LF that decides.
* `parseLine_deliver_ok`, `parseLine_deliver_open` — a complete line is found
  again whatever follows it, and an open line is scanned on from where the scan
  stopped.
-/

namespace TinyHTTP.Http

open TinyHTTP.Lib

/-- No line ending between `m_checked_idx` and `c`. -/
def Parser.CleanTo (s : Parser) (c : Nat) : Prop :=
  ∀ k, s.checkedIdx ≤ k → k < c → s.readBuf k ≠ cr ∧ s.readBuf k ≠ lf

/-- The state in which a line ending at the CR at `c` has been taken off. -/
def Parser.takeLine (s : Parser) (c : Nat) : Parser :=
  { s with
    readBuf := Function.update (Function.update s.readBuf c 0) (c + 1) 0
    checkedIdx := c + 2 }

/-- The scanner state the loop keeps between two calls: what it has passed is no CR. -/
def Parser.NoCr (s : Parser) : Prop := 0 < s.checkedIdx → s.readBuf (s.checkedIdx - 1) ≠ cr

/-- Clean bytes are skipped. -/
theorem parseLine_skip {s : Parser} {c : Nat} (hle : s.checkedIdx ≤ c) (hc : c ≤ s.readIdx)
    (h : s.CleanTo c) : parseLine s = parseLine { s with checkedIdx := c } := by
  obtain ⟨d, hd⟩ : ∃ d, c = s.checkedIdx + d := ⟨c - s.checkedIdx, by omega⟩
  induction d generalizing s with
  | zero =>
    obtain rfl : c = s.checkedIdx := by omega
    rfl
  | succ d ih =>
    have hfirst := h s.checkedIdx (Nat.le_refl _) (by omega)
    have hrem : s.readIdx - s.checkedIdx = (s.readIdx - (s.checkedIdx + 1)) + 1 := by omega
    rw [parseLine, hrem, parseLineLoop]
    simp only [if_neg hfirst.1, if_neg hfirst.2]
    refine ih (s := { s with checkedIdx := s.checkedIdx + 1 }) ?_ hc ?_ ?_
    · show s.checkedIdx + 1 ≤ c
      omega
    · intro k hk hkc
      replace hk : s.checkedIdx + 1 ≤ k := hk
      exact h k (by omega) hkc
    · show c = s.checkedIdx + 1 + d
      omega

/-- A CR followed by a LF ends the line. -/
theorem parseLine_ok {s : Parser} {c : Nat} (hle : s.checkedIdx ≤ c) (hc : c + 1 < s.readIdx)
    (h : s.CleanTo c) (hcr : s.readBuf c = cr) (hlf : s.readBuf (c + 1) = lf) :
    parseLine s = (.lineOk, s.takeLine c) := by
  rw [parseLine_skip hle (by omega) h, parseLine]
  have hrem : s.readIdx - c = (s.readIdx - (c + 1)) + 1 := by omega
  have hne : ¬ c + 1 = s.readIdx := by omega
  simp only [hrem, parseLineLoop, if_pos hcr, if_neg hne, if_pos hlf]
  rfl

/-- A CR followed by something else, or a LF on its own, spoils the line. -/
theorem parseLine_bad {s : Parser} {c : Nat} (hle : s.checkedIdx ≤ c) (hc : c < s.readIdx)
    (h : s.CleanTo c) (hno : s.NoCr)
    (hbad : (s.readBuf c = cr ∧ c + 1 < s.readIdx ∧ s.readBuf (c + 1) ≠ lf) ∨ s.readBuf c = lf) :
    parseLine s = (.lineBad, { s with checkedIdx := c }) := by
  rw [parseLine_skip hle (by omega) h, parseLine]
  have hrem : s.readIdx - c = (s.readIdx - (c + 1)) + 1 := by omega
  rcases hbad with ⟨hcr, hlt, hlf⟩ | hlf
  · have hne : ¬ c + 1 = s.readIdx := by omega
    simp only [hrem, parseLineLoop, if_pos hcr, if_neg hne, if_neg hlf]
  · have hcr : ¬ s.readBuf c = cr := by
      rw [hlf]
      decide
    -- the byte before is one the scan has passed, so it is no CR
    have hprev : ¬ (c > 1 ∧ s.readBuf (c - 1) = cr) := by
      rintro ⟨hc1, hcr'⟩
      by_cases hcc : s.checkedIdx = c
      · subst hcc
        exact hno (by omega) hcr'
      · exact (h (c - 1) (by omega) (by omega)).1 hcr'
    simp only [hrem, parseLineLoop, if_neg hcr, if_pos hlf, if_neg hprev]

/-- Without a line ending, or with a CR as the last byte, the line stays open. -/
theorem parseLine_open {s : Parser} {c : Nat} (hle : s.checkedIdx ≤ c) (hc : c ≤ s.readIdx)
    (h : s.CleanTo c) (hend : c = s.readIdx ∨ (c + 1 = s.readIdx ∧ s.readBuf c = cr)) :
    parseLine s = (.lineOpen, { s with checkedIdx := c }) := by
  rw [parseLine_skip hle hc h, parseLine]
  rcases hend with hend | ⟨hend, hcr⟩
  · have hrem : s.readIdx - c = 0 := by omega
    simp only [hrem, parseLineLoop]
  · have hrem : s.readIdx - c = 0 + 1 := by omega
    simp only [hrem, parseLineLoop, if_pos hcr, if_pos hend]

/-- The three answers, and the position that decides. -/
inductive LineAnswer (s : Parser) : Prop
  | ok (c : Nat) (hle : s.checkedIdx ≤ c) (hc : c + 1 < s.readIdx) (h : s.CleanTo c)
      (hcr : s.readBuf c = cr) (hlf : s.readBuf (c + 1) = lf)
  | bad (c : Nat) (hle : s.checkedIdx ≤ c) (hc : c < s.readIdx) (h : s.CleanTo c)
      (hbad : (s.readBuf c = cr ∧ c + 1 < s.readIdx ∧ s.readBuf (c + 1) ≠ lf) ∨ s.readBuf c = lf)
  | open (c : Nat) (hle : s.checkedIdx ≤ c) (hc : c ≤ s.readIdx) (h : s.CleanTo c)
      (hend : c = s.readIdx ∨ (c + 1 = s.readIdx ∧ s.readBuf c = cr))

/-- One of the three answers applies: take the first line ending, if there is one. -/
theorem parseLine_cases {s : Parser} (hs : s.checkedIdx ≤ s.readIdx) : LineAnswer s := by
  by_cases hex : ∃ c, s.checkedIdx ≤ c ∧ c < s.readIdx ∧ (s.readBuf c = cr ∨ s.readBuf c = lf)
  · obtain ⟨hle, hc, hend⟩ := Nat.find_spec hex
    have hmin := fun k => Nat.find_min hex (m := k)
    have h : s.CleanTo (Nat.find hex) := by
      intro k hk hkc
      have := hmin k hkc
      constructor
      · intro hcr
        exact this ⟨hk, by omega, Or.inl hcr⟩
      · intro hlf
        exact this ⟨hk, by omega, Or.inr hlf⟩
    rcases hend with hcr | hlf
    · by_cases hlast : Nat.find hex + 1 = s.readIdx
      · exact .open _ hle (by omega) h (Or.inr ⟨hlast, hcr⟩)
      · by_cases hlf : s.readBuf (Nat.find hex + 1) = lf
        · exact .ok _ hle (by omega) h hcr hlf
        · exact .bad _ hle hc h (Or.inl ⟨hcr, by omega, hlf⟩)
    · exact .bad _ hle hc h (Or.inr hlf)
  · refine .open s.readIdx hs (Nat.le_refl _) ?_ (Or.inl rfl)
    intro k hk hkc
    constructor
    · intro hcr
      exact hex ⟨k, hk, hkc, Or.inl hcr⟩
    · intro hlf
      exact hex ⟨k, hk, hkc, Or.inr hlf⟩

-- ---------------------------------------------------------------------------
-- More input
-- ---------------------------------------------------------------------------

theorem deliver_readBuf_lt {s : Parser} {bs : List UInt8} {k : Nat} (h : k < s.readIdx) :
    (s.deliver bs).readBuf k = s.readBuf k := writeBytes_of_lt h

theorem deliver_nil (s : Parser) : s.deliver [] = s := by simp [Parser.deliver]

theorem deliver_append (s : Parser) (as bs : List UInt8) :
    s.deliver (as ++ bs) = (s.deliver as).deliver bs := by
  simp only [Parser.deliver, writeBytes_append, List.length_append, Nat.add_assoc]

theorem CleanTo.deliver {s : Parser} {c : Nat} (h : s.CleanTo c) (hc : c ≤ s.readIdx)
    (bs : List UInt8) : (s.deliver bs).CleanTo c := by
  intro k hk hkc
  rw [deliver_readBuf_lt (by omega)]
  exact h k hk hkc

/-- The scanner has gone on to `c` over clean bytes. -/
theorem NoCr.scanned {s : Parser} (h : s.NoCr) {c : Nat} (hle : s.checkedIdx ≤ c)
    (hclean : s.CleanTo c) : Parser.NoCr { s with checkedIdx := c } := by
  intro hpos
  show s.readBuf (c - 1) ≠ cr
  replace hpos : 0 < c := hpos
  by_cases hcc : s.checkedIdx = c
  · subst hcc
    exact h hpos
  · exact (hclean (c - 1) (by omega) (by omega)).1

theorem NoCr.deliver {s : Parser} (h : s.NoCr) (hs : s.checkedIdx ≤ s.readIdx) (bs : List UInt8) :
    (s.deliver bs).NoCr := by
  intro hpos
  show (s.deliver bs).readBuf (s.checkedIdx - 1) ≠ cr
  replace hpos : 0 < s.checkedIdx := hpos
  rw [deliver_readBuf_lt (by omega)]
  exact h hpos

theorem takeLine_deliver {s : Parser} {c : Nat} (hc : c + 1 < s.readIdx) (bs : List UInt8) :
    (s.deliver bs).takeLine c = (s.takeLine c).deliver bs := by
  simp only [Parser.takeLine, Parser.deliver, writeBytes_update_comm 0 hc,
    writeBytes_update_comm 0 (Nat.lt_of_succ_lt hc)]

/-- A complete line stays complete. -/
theorem parseLine_deliver_ok {s : Parser} {c : Nat} (hle : s.checkedIdx ≤ c)
    (hc : c + 1 < s.readIdx) (h : s.CleanTo c) (hcr : s.readBuf c = cr)
    (hlf : s.readBuf (c + 1) = lf) (bs : List UInt8) :
    parseLine (s.deliver bs) = (.lineOk, (s.takeLine c).deliver bs) := by
  rw [← takeLine_deliver hc]
  refine parseLine_ok (s := s.deliver bs) hle ?_ (CleanTo.deliver h (by omega) bs) ?_ ?_
  · show c + 1 < s.readIdx + bs.length
    omega
  · rw [deliver_readBuf_lt (by omega), hcr]
  · rw [deliver_readBuf_lt hc, hlf]

/-- An incomplete line is scanned on from where the scan stopped. -/
theorem parseLine_deliver_open {s : Parser} {c : Nat} (hle : s.checkedIdx ≤ c)
    (hc : c ≤ s.readIdx) (h : s.CleanTo c) (bs : List UInt8) :
    parseLine (s.deliver bs) = parseLine (Parser.deliver { s with checkedIdx := c } bs) := by
  refine parseLine_skip (s := s.deliver bs) hle ?_ (CleanTo.deliver h hc bs)
  show c ≤ s.readIdx + bs.length
  omega

end TinyHTTP.Http
