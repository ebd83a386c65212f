import TinyHTTP.Http.PostHead
import TinyHTTP.Http.Segmentation

/-!
# TinyHTTP — request bodies and TCP segmentation

While a body is incomplete, `process_read` lets `parse_line` loose on it before
it gives up (`line_status` is `LINE_OPEN`, so the `while` condition scans).
Whenever that scan gets past the first byte of the body, `m_checked_idx` no
longer marks the start of the body, and `parse_content` waits for more bytes than
the client will ever send.

* `body_reassembly` — the body is reassembled exactly when no cut inside it
  leaves the scan room to move (`Harmless`).
-/

namespace TinyHTTP.Http

open TinyHTTP.Lib

/-- The scan stays at the first byte of `body` when the first `k` bytes have arrived. -/
def Harmless (body : List UInt8) (k : Nat) : Prop :=
  body[0]? = some lf ∨ (body[0]? = some cr ∧ (k = 1 ∨ body[1]? ≠ some lf))

/-- The body has been reassembled: `process_read` answers `NO_REQUEST` up to the last segment, on
which it calls `do_request`, with `m_string` the bytes of the body. -/
def Reassembled (s₀ : Parser) (r : Request) (segs : List (List UInt8)) : Prop :=
  ∃ pre last s s' i, segs = pre ++ [last] ∧ feed s₀.init pre = .ok (.code .noRequest, s) ∧
    feed s [last] = .ok (.doRequest, s') ∧ s'.checkState = .content ∧ s'.string = some i ∧
    slice s'.readBuf i r.body.length = r.body ∧ s'.readBuf (i + r.body.length) = 0

-- ---------------------------------------------------------------------------
-- parse_line on any state
-- ---------------------------------------------------------------------------

/-- Whatever `parse_line` finds, it moves `m_checked_idx` forward, within the bytes read. -/
theorem parseLineLoop_scan (n : Nat) (s : Parser) (hn : s.checkedIdx + n = s.readIdx) :
    s.checkedIdx ≤ (parseLineLoop n s).2.checkedIdx ∧
      (parseLineLoop n s).2.checkedIdx ≤ s.readIdx ∧
      (parseLineLoop n s).2.readIdx = s.readIdx ∧
      (parseLineLoop n s).2.checkState = s.checkState ∧
      (parseLineLoop n s).2.contentLength = s.contentLength := by
  induction n generalizing s with
  | zero => exact ⟨Nat.le_refl _, by simp only [parseLineLoop]; omega, rfl, rfl, rfl⟩
  | succ n ih =>
    rw [parseLineLoop]
    split
    · split
      · exact ⟨Nat.le_refl _, by simp only; omega, rfl, rfl, rfl⟩
      · split
        · exact ⟨Nat.le_add_right _ _, by simp only; omega, rfl, rfl, rfl⟩
        · exact ⟨Nat.le_refl _, by simp only; omega, rfl, rfl, rfl⟩
    · split
      · split
        · exact ⟨Nat.le_add_right _ _, by simp only; omega, rfl, rfl, rfl⟩
        · exact ⟨Nat.le_refl _, by simp only; omega, rfl, rfl, rfl⟩
      · obtain ⟨h₁, h₂, h₃, h₄, h₅⟩ := ih { s with checkedIdx := s.checkedIdx + 1 }
          (by simp only; omega)
        simp only at h₁ h₂
        exact ⟨by omega, h₂, h₃, h₄, h₅⟩

theorem parseLine_scan {s : Parser} (hs : s.checkedIdx ≤ s.readIdx) :
    s.checkedIdx ≤ (parseLine s).2.checkedIdx ∧ (parseLine s).2.checkedIdx ≤ s.readIdx ∧
      (parseLine s).2.readIdx = s.readIdx ∧ (parseLine s).2.checkState = s.checkState ∧
      (parseLine s).2.contentLength = s.contentLength :=
  parseLineLoop_scan _ s (by omega)

-- ---------------------------------------------------------------------------
-- One process_read in the body
-- ---------------------------------------------------------------------------

/-- The parser at a body that starts at `base`, with `k` of its bytes in the buffer, and
`m_checked_idx` where it belongs. -/
structure Ready (body : List UInt8) (base k : Nat) (t : Parser) : Prop where
  state : t.checkState = .content
  start : t.startLine = base
  checked : t.checkedIdx = base
  read : t.readIdx = base + k
  length : t.contentLength = body.length
  le : k ≤ body.length
  bytes : ∀ i (hi : i < body.length), i < k → t.readBuf (base + i) = body[i]
  noCr : t.NoCr

/-- The parser has moved `m_checked_idx` past the start of the body. -/
structure Stuck (body : List UInt8) (base : Nat) (t : Parser) : Prop where
  state : t.checkState = .content
  checked : base < t.checkedIdx
  checked_le : t.checkedIdx ≤ t.readIdx
  read : t.readIdx ≤ base + body.length
  length : t.contentLength = body.length

/-- `parse_content` when bytes are missing. -/
theorem handleLine_missing {t : Parser} (hstate : t.checkState = .content)
    (hsmall : t.contentLength + t.checkedIdx < 2 ^ 31)
    (hmissing : (t.readIdx : Int) < t.contentLength + t.checkedIdx) :
    handleLine t = .ok (.again .lineOpen t.nextLine) := by
  have h₁ : ¬ t.nextLine.contentLength + t.nextLine.checkedIdx ≥ 2 ^ 31 := by
    show ¬ t.contentLength + t.checkedIdx ≥ 2 ^ 31
    omega
  have h₂ : ¬ (t.nextLine.readIdx : Int) ≥ t.nextLine.contentLength + t.nextLine.checkedIdx := by
    show ¬ (t.readIdx : Int) ≥ t.contentLength + t.checkedIdx
    omega
  unfold handleLine
  simp only [hstate, parseContent, if_neg h₁, if_neg h₂, Except.map, contentTurn]
  rfl

theorem turn_lineOpen (t : Parser) : turn .lineOpen t = match parseLine t with
    | (.lineOk, t) => handleLine t
    | (_, t) => .ok (.stop (.code .noRequest) t) := by
  have hno : ¬ (t.checkState = .content ∧ LineStatus.lineOpen = .lineOk) := by simp
  refine (if_neg hno).trans ?_
  obtain ⟨lineStatus, t'⟩ := parseLine t
  cases lineStatus <;> rfl

section
variable {body : List UInt8} {base : Nat} (hfit : base + body.length < readBufferSize)
include hfit

/-- **A stuck parser stays stuck.** Induction on the turns. -/
theorem stuck_loop {t : Parser} (h : Stuck body base t) (fuel : Nat) (st : LineStatus) :
    ∃ t', processReadLoop fuel st t = .ok (.code .noRequest, t') ∧ Stuck body base t' ∧
      t'.readIdx = t.readIdx := by
  induction fuel generalizing t st with
  | zero => exact ⟨t, rfl, h, rfl⟩
  | succ fuel ih =>
    have hsize : readBufferSize = 2048 := rfl
    have hmissing : ∀ {u : Parser}, Stuck body base u → handleLine u =
        .ok (.again .lineOpen u.nextLine) ∧ Stuck body base u.nextLine := by
      intro u hu
      have h₁ := hu.checked
      have h₂ := hu.checked_le
      have h₃ := hu.read
      have h₄ := hu.length
      exact ⟨handleLine_missing hu.state (by omega) (by omega),
        ⟨hu.state, hu.checked, hu.checked_le, hu.read, hu.length⟩⟩
    rw [processReadLoop]
    by_cases hst : st = .lineOk
    · subst hst
      obtain ⟨hl, hn⟩ := hmissing h
      rw [turn, if_pos ⟨h.state, rfl⟩, hl]
      exact ih hn .lineOpen
    · have hturn : turn st t = turn .lineOpen t := by
        rw [turn, turn, if_neg (fun hc => hst hc.2), if_neg (by simp)]
      obtain ⟨g₁, g₂, g₃, g₄, g₅⟩ := parseLine_scan h.checked_le
      have h' : Stuck body base (parseLine t).2 := by
        have h₁ := h.checked
        refine ⟨g₄.trans h.state, by omega, by omega, ?_, g₅.trans h.length⟩
        rw [g₃]
        exact h.read
      rw [hturn, turn_lineOpen]
      generalize parseLine t = r at g₃ h'
      obtain ⟨lineStatus, t'⟩ := r
      cases lineStatus with
      | lineOk =>
        obtain ⟨hl, hn⟩ := hmissing h'
        simp only [hl]
        obtain ⟨t'', hloop, hs, hr⟩ := ih hn .lineOpen
        exact ⟨t'', hloop, hs, hr.trans g₃⟩
      | lineBad | lineOpen => exact ⟨t', rfl, h', g₃⟩

/-- The turns of a parser that waits for the body: `parse_content` declines, `parse_line` scans. -/
theorem ready_turns {t : Parser} {k : Nat} (h : Ready body base k t) (hk : k < body.length)
    (fuel : Nat) : processReadLoop (fuel + 2) .lineOk t =
      (match parseLine t.nextLine with
        | (.lineOk, u) => handleLine u
        | (_, u) => .ok (.stop (.code .noRequest) u)) >>= fun
      | .stop r u => .ok (r, u)
      | .again st u => processReadLoop fuel st u := by
  have hsize : readBufferSize = 2048 := rfl
  have h₁ := h.checked
  have h₂ := h.read
  have h₃ := h.length
  have hl := handleLine_missing h.state (by omega) (by omega)
  rw [processReadLoop, turn, if_pos ⟨h.state, rfl⟩, hl]
  show turn .lineOpen t.nextLine >>= _ = _
  refine (congrArg (fun x => x >>= _) (turn_lineOpen t.nextLine)).trans ?_
  obtain ⟨lineStatus, u⟩ := parseLine t.nextLine
  cases lineStatus with
  | lineOk =>
    rcases handleLine u with f | _ | _
    · rfl
    · rfl
    · rfl
  | lineBad | lineOpen => rfl

/-- The scan of an incomplete body that stays put. -/
theorem ready_wait {t : Parser} {k : Nat} (h : Ready body base k t) (hk : k < body.length)
    (hharm : k = 0 ∨ Harmless body k) {fuel : Nat} (hfuel : 2 ≤ fuel) :
    ∃ t', processReadLoop fuel .lineOk t = .ok (.code .noRequest, t') ∧
      Ready body base k t' := by
  obtain ⟨fuel, rfl⟩ : ∃ n, fuel = n + 2 := ⟨fuel - 2, by omega⟩
  rw [ready_turns hfit h hk]
  have hready : Ready body base k t.nextLine :=
    ⟨h.state, h.checked, h.checked, h.read, h.length, h.le, h.bytes, h.noCr⟩
  generalize t.nextLine = u at hready
  have hchecked := hready.checked
  have hread := hready.read
  have hsame : { u with checkedIdx := base } = u := by rw [← hchecked]
  have hclean : u.CleanTo base := fun j hj hjs => by omega
  have hbody : 0 < body.length := by omega
  by_cases hk0 : k = 0
  · have hopen := parseLine_open (s := u) (by omega) (by omega) hclean (Or.inl (by omega))
    rw [hopen, hsame]
    exact ⟨u, rfl, hready⟩
  have hb0 : u.readBuf base = body[0] := hready.bytes 0 hbody (by omega)
  rcases hharm.resolve_left hk0 with hlf | ⟨hcr, h1⟩
  · rw [List.getElem?_eq_getElem hbody, Option.some.injEq] at hlf
    have hbad := parseLine_bad (s := u) (by omega) (by omega) hclean hready.noCr
      (Or.inr (hb0.trans hlf))
    rw [hbad, hsame]
    exact ⟨u, rfl, hready⟩
  · rw [List.getElem?_eq_getElem hbody, Option.some.injEq] at hcr
    by_cases hk1 : k = 1
    · have hopen := parseLine_open (s := u) (by omega) (by omega) hclean
        (Or.inr ⟨by omega, hb0.trans hcr⟩)
      rw [hopen, hsame]
      exact ⟨u, rfl, hready⟩
    · have hbody1 : 1 < body.length := by omega
      have hb1 : u.readBuf (base + 1) = body[1] := hready.bytes 1 hbody1 (by omega)
      have hne := h1.resolve_left hk1
      rw [List.getElem?_eq_getElem hbody1, Ne, Option.some.injEq] at hne
      have hbad := parseLine_bad (s := u) (by omega) (by omega) hclean hready.noCr
        (Or.inl ⟨hb0.trans hcr, by omega, by rw [hb1]; exact hne⟩)
      rw [hbad, hsame]
      exact ⟨u, rfl, hready⟩

/-- The scan of an incomplete body that moves on. -/
theorem ready_stuck {t : Parser} {k : Nat} (h : Ready body base k t) (hk : k < body.length)
    (hpos : 0 < k) (hharm : ¬ Harmless body k) {fuel : Nat} (hfuel : 2 ≤ fuel) :
    ∃ t', processReadLoop fuel .lineOk t = .ok (.code .noRequest, t') ∧ Stuck body base t' ∧
      t'.readIdx = t.readIdx := by
  obtain ⟨fuel, rfl⟩ : ∃ n, fuel = n + 2 := ⟨fuel - 2, by omega⟩
  rw [ready_turns hfit h hk]
  have hread₀ : t.nextLine.readIdx = t.readIdx := rfl
  have hready : Ready body base k t.nextLine :=
    ⟨h.state, h.checked, h.checked, h.read, h.length, h.le, h.bytes, h.noCr⟩
  rw [← hread₀]
  generalize t.nextLine = u at hready
  have hchecked := hready.checked
  have hread := hready.read
  have hbody : 0 < body.length := by omega
  have hb0 : u.readBuf base = body[0] := hready.bytes 0 hbody (by omega)
  -- wherever the scan stops, it is not where the body starts
  have hmoved : ∀ c, c ≤ u.readIdx → base < c → Stuck body base { u with checkedIdx := c } :=
    fun c hc hsc =>
      ⟨hready.state, hsc, hc, show u.readIdx ≤ _ by omega, hready.length⟩
  cases parseLine_cases (s := u) (by omega) with
  | ok c hle hc hclean hcr hlf =>
    rw [parseLine_ok hle hc hclean hcr hlf]
    have hs : Stuck body base (u.takeLine c) :=
      ⟨hready.state, show base < c + 2 by omega, hc, show u.readIdx ≤ _ by omega, hready.length⟩
    have hsize : readBufferSize = 2048 := rfl
    have hchecked' : (u.takeLine c).checkedIdx = c + 2 := rfl
    have hread' : (u.takeLine c).readIdx = u.readIdx := rfl
    have hlen := hs.length
    simp only [handleLine_missing hs.state (by omega) (by omega)]
    exact stuck_loop hfit (t := (u.takeLine c).nextLine)
      ⟨hs.state, hs.checked, hs.checked_le, hs.read, hs.length⟩ fuel .lineOpen
  | bad c hle hc hclean hbad =>
    rw [parseLine_bad hle hc hclean hready.noCr hbad]
    refine ⟨_, rfl, hmoved c (by omega) ?_, rfl⟩
    by_contra hnot
    obtain rfl : c = base := by omega
    refine hharm ?_
    rcases hbad with ⟨hcr, hlt, hlf⟩ | hlf
    · have hbody1 : 1 < body.length := by omega
      have hb1 : u.readBuf (c + 1) = body[1] := hready.bytes 1 hbody1 (by omega)
      refine Or.inr ⟨?_, Or.inr ?_⟩
      · rw [List.getElem?_eq_getElem hbody, ← hb0, hcr]
      · rw [List.getElem?_eq_getElem hbody1, ← hb1, Ne, Option.some.injEq]
        exact hlf
    · refine Or.inl ?_
      rw [List.getElem?_eq_getElem hbody, ← hb0, hlf]
  | «open» c hle hc hclean hend =>
    rw [parseLine_open hle hc hclean hend]
    refine ⟨_, rfl, hmoved c hc ?_, rfl⟩
    by_contra hnot
    obtain rfl : c = base := by omega
    rcases hend with hend | ⟨hend, hcr⟩
    · omega
    · refine hharm (Or.inr ⟨?_, Or.inl (by omega)⟩)
      rw [List.getElem?_eq_getElem hbody, ← hb0, hcr]

/-- **The complete body.** -/
theorem ready_done {t : Parser} (h : Ready body base body.length t) {fuel : Nat}
    (hfuel : 2 ≤ fuel) :
    ∃ t', processReadLoop fuel .lineOk t = .ok (.doRequest, t') ∧ t'.checkState = .content ∧
      t'.string = some base ∧ slice t'.readBuf base body.length = body ∧
      t'.readBuf (base + body.length) = 0 := by
  obtain ⟨fuel, rfl⟩ : ∃ n, fuel = n + 1 := ⟨fuel - 1, by omega⟩
  have hsize : readBufferSize = 2048 := rfl
  have h₁ := h.checked
  have h₂ := h.read
  have h₃ := h.length
  have hsmall : ¬ t.nextLine.contentLength + t.nextLine.checkedIdx ≥ 2 ^ 31 := by
    show ¬ t.contentLength + t.checkedIdx ≥ 2 ^ 31
    omega
  have hfull : (t.nextLine.readIdx : Int) ≥ t.nextLine.contentLength + t.nextLine.checkedIdx := by
    show (t.readIdx : Int) ≥ t.contentLength + t.checkedIdx
    omega
  have hidx : 0 ≤ (t.startLine : Int) + t.nextLine.contentLength ∧
      (t.startLine : Int) + t.nextLine.contentLength < readBufferSize := by
    have := h.start
    show 0 ≤ (t.startLine : Int) + t.contentLength ∧ (t.startLine : Int) + t.contentLength < _
    omega
  have hto : ((t.startLine : Int) + t.nextLine.contentLength).toNat = base + body.length := by
    have := h.start
    show ((t.startLine : Int) + t.contentLength).toNat = _
    omega
  have hhandle : handleLine t = .ok (.stop .doRequest { t.nextLine with
      readBuf := Function.update t.readBuf (base + body.length) 0
      string := some t.startLine }) := by
    unfold handleLine
    simp only [h.state, parseContent, if_neg hsmall, if_pos hfull, if_pos hidx, hto, Except.map,
      contentTurn]
    rfl
  rw [processReadLoop, turn, if_pos ⟨h.state, rfl⟩, hhandle]
  refine ⟨_, rfl, h.state, by rw [h.start], ?_, ?_⟩
  · refine List.ext_getElem (by simp [slice]) ?_
    intro i hi₁ hi₂
    simp only [slice, List.getElem_map, List.getElem_range]
    rw [Function.update_of_ne (by omega)]
    exact h.bytes i hi₂ hi₂
  · exact Function.update_self ..

end

-- ---------------------------------------------------------------------------
-- Feeding a request
-- ---------------------------------------------------------------------------

theorem AtBody.ready {t : Parser} {i : Nat} {body : List UInt8} (h : AtBody t i body.length) :
    Ready body i 0 t where
  state := h.state
  start := h.start
  checked := h.checked
  read := h.read
  length := h.length
  le := Nat.zero_le _
  bytes := fun _ _ hk => absurd hk (Nat.not_lt_zero _)
  noCr := h.inv.noCr

/-- More bytes of the body. -/
theorem Ready.deliver {t : Parser} {base k : Nat} {body : List UInt8} (h : Ready body base k t)
    (m : Nat) (hm : k + m ≤ body.length) :
    Ready body base (k + m) (t.deliver ((body.drop k).take m)) := by
  have hlen : ((body.drop k).take m).length = m := by
    rw [List.length_take, List.length_drop]
    omega
  have hread := h.read
  refine ⟨h.state, h.start, h.checked, ?_, h.length, hm, ?_, NoCr.deliver h.noCr ?_ _⟩
  · show t.readIdx + ((body.drop k).take m).length = base + (k + m)
    omega
  · intro i hi hik
    show writeBytes t.readBuf t.readIdx ((body.drop k).take m) (base + i) = body[i]
    by_cases hlt : i < k
    · rw [writeBytes_of_lt (by omega)]
      exact h.bytes i hi hlt
    · rw [show base + i = t.readIdx + (i - k) by omega, writeBytes_of_mem (by omega),
        List.getElem_take, List.getElem_drop]
      congr 1
      omega
  · have := h.checked
    omega

/-- The parser waits, with the first `n` bytes of the request in its buffer. -/
def Waiting (r : Request) (n : Nat) (t : Parser) : Prop :=
  (n < r.head.length ∧ HeadInv t ∧ t.checkState ≠ .content ∧ t.readIdx = n ∧
    ∃ s, headRun (t.deliver (r.head.drop n)) = .ok (.content, s) ∧
      AtBody s r.head.length r.body.length) ∨
  (r.head.length ≤ n ∧ Ready r.body r.head.length (n - r.head.length) t)

/-- A segment that ends inside the head. -/
theorem waiting_head {r : Request} {n : Nat} {t : Parser} (h : Waiting r n t) {m : Nat}
    (hm : n + m < r.head.length) (hfit : r.bytes.length < readBufferSize) :
    ∃ t', processRead (t.deliver ((r.bytes.drop n).take m)) = .ok (.code .noRequest, t') ∧
      Waiting r (n + m) t' := by
  have hbytes : r.bytes.length = r.head.length + r.body.length := List.length_append
  obtain ⟨-, hinv, hstate, hread, s, hrun, hbody⟩ := h.resolve_right (fun hc => by omega)
  have hseg : (r.bytes.drop n).take m = (r.head.drop n).take m := by
    rw [Request.bytes, List.drop_append_of_le_length (by omega), List.take_append_of_le_length]
    rw [List.length_drop]
    omega
  have hlen : ((r.head.drop n).take m).length = m := by
    rw [List.length_take, List.length_drop]
    omega
  have hrest : (r.head.drop (n + m)).length = r.head.length - (n + m) := List.length_drop
  rw [hseg]
  have hsplit : r.head.drop n = (r.head.drop n).take m ++ r.head.drop (n + m) := by
    rw [← List.drop_drop, List.take_append_drop]
  rw [hsplit, deliver_append] at hrun
  have hinv₁ : HeadInv (t.deliver ((r.head.drop n).take m)) := hinv.deliver (by omega)
  have hread₁ : (t.deliver ((r.head.drop n).take m)).readIdx = n + m := by
    show t.readIdx + _ = _
    omega
  have hres := headRun_deliver hinv₁ (r.head.drop (n + m)) (by omega)
  generalize hr : headRun (t.deliver ((r.head.drop n).take m)) = res at hres
  cases hres with
  | fault f h => rw [h] at hrun; cases hrun
  | done e s' hinv' he hread' h =>
    -- the body cannot start before the head is complete
    rw [h, Except.ok.injEq, Prod.mk.injEq] at hrun
    obtain ⟨-, rfl⟩ := hrun
    have h₁ : s'.checkedIdx = r.head.length := hbody.checked
    have h₂ := hinv'.checked_le
    omega
  | wait s' hinv' hstate' hread' h =>
    rw [h] at hrun
    refine ⟨s', ?_, Or.inl ⟨hm, hinv', hstate', by omega, s, hrun, hbody⟩⟩
    rw [processRead_head hinv₁ (by rw [hr]; simp), hr]
    rfl

/-- A segment that reaches the body: what is left to do is the loop on the body. -/
theorem waiting_body {r : Request} {n : Nat} {t : Parser} (h : Waiting r n t) {m : Nat}
    (hm : r.head.length ≤ n + m) (hmt : n + m ≤ r.bytes.length)
    (hfit : r.bytes.length < readBufferSize) :
    ∃ u fuel, 2 ≤ fuel ∧ processRead (t.deliver ((r.bytes.drop n).take m)) =
      processReadLoop fuel .lineOk u ∧ Ready r.body r.head.length (n + m - r.head.length) u := by
  have hbytes : r.bytes.length = r.head.length + r.body.length := List.length_append
  rcases h with ⟨hlt, hinv, hstate, hread, s, hrun, hbody⟩ | ⟨hle, hready⟩
  · have hseg : (r.bytes.drop n).take m =
        r.head.drop n ++ (r.body.drop 0).take (n + m - r.head.length) := by
      rw [Request.bytes, List.drop_append_of_le_length (by omega), List.take_append,
        List.length_drop, List.take_of_length_le (by rw [List.length_drop]; omega), List.drop_zero]
      congr 2
      omega
    have hlen : (r.head.drop n).length = r.head.length - n := List.length_drop
    have hlen' : ((r.body.drop 0).take (n + m - r.head.length)).length = n + m - r.head.length := by
      rw [List.length_take, List.length_drop]
      omega
    have hinv₁ : HeadInv (t.deliver (r.head.drop n)) := hinv.deliver (by omega)
    have hread₁ : (t.deliver (r.head.drop n)).readIdx = r.head.length := by
      show t.readIdx + _ = _
      omega
    have hfit₂ : (t.deliver (r.head.drop n)).readIdx +
        ((r.body.drop 0).take (n + m - r.head.length)).length ≤ readBufferSize := by omega
    have hinv₂ := hinv₁.deliver hfit₂
    have hres := headRun_deliver hinv₁ _ hfit₂
    rw [hrun] at hres
    cases hres with
    | done _ _ _ _ _ hdone =>
      have hloop := processReadLoop_head hinv₂ (Nat.le_refl _)
      rw [hdone] at hloop
      cases hloop with
      | content _ fuel _ _ hfuel hproc =>
        refine ⟨s.deliver ((r.body.drop 0).take (n + m - r.head.length)), fuel, by omega, ?_, ?_⟩
        · rw [hseg, deliver_append]
          exact hproc
        · have := hbody.ready.deliver (n + m - r.head.length) (by omega)
          rwa [Nat.zero_add] at this
  · have hseg : (r.bytes.drop n).take m = (r.body.drop (n - r.head.length)).take m := by
      rw [Request.bytes, List.drop_append, List.drop_eq_nil_of_le hle, List.nil_append]
    rw [hseg]
    have hready' := hready.deliver m (by omega)
    refine ⟨t.deliver ((r.body.drop (n - r.head.length)).take m), _, ?_, rfl, ?_⟩
    · omega
    · rwa [show n + m - r.head.length = n - r.head.length + m by omega]

theorem feed_append (s : Parser) (as bs : List (List UInt8)) :
    feed s (as ++ bs) = match feed s as with
      | .ok (.code .noRequest, s') => feed s' bs
      | res => res := by
  induction as generalizing s with
  | nil => rfl
  | cons seg as ih =>
    rw [List.cons_append, feed, feed]
    obtain ⟨s', ok⟩ := s.readOnce (.data seg)
    cases ok with
    | false => rfl
    | true =>
      simp only
      rcases processRead s' with f | ⟨res, t⟩
      · rfl
      · cases res with
        | doRequest => rfl
        | code c =>
          cases c with
          | noRequest => exact ih t
          | _ => rfl

/-- No cut that ends in the body, up to the end of `pre`, gave the scan room to move. -/
def GoodCuts (r : Request) (pre : List (List UInt8)) : Prop :=
  ∀ p q, pre = p ++ q → r.head.length < p.flatten.length →
    Harmless r.body (p.flatten.length - r.head.length)

theorem goodCuts_concat {r : Request} {pre : List (List UInt8)} {seg : List UInt8} :
    GoodCuts r (pre ++ [seg]) ↔ GoodCuts r pre ∧
      (r.head.length < (pre ++ [seg]).flatten.length →
        Harmless r.body ((pre ++ [seg]).flatten.length - r.head.length)) := by
  constructor
  · intro h
    refine ⟨?_, h (pre ++ [seg]) [] (by simp)⟩
    rintro p q rfl
    exact h p (q ++ [seg]) (by simp)
  · rintro ⟨h, hlast⟩ p q hpq
    rcases List.eq_nil_or_concat q with rfl | ⟨q', x, rfl⟩
    · rw [List.append_nil] at hpq
      rw [← hpq]
      exact hlast
    · rw [List.concat_eq_append, ← List.append_assoc] at hpq
      exact h p q' (List.append_inj' hpq rfl).1

/-- **Before the last segment.** The parser waits: in the right place if all cuts were harmless,
past the start of the body otherwise. Induction on the segments, from the last. -/
theorem feed_prefix {s₀ : Parser} {r : Request} (h : r.WellFormed s₀) (pre : List (List UInt8))
    (hne : ∀ seg ∈ pre, seg ≠ []) (rest : List UInt8) (hrest : rest ≠ [])
    (hpre : pre.flatten ++ rest = r.bytes) :
    ∃ t, feed s₀.init pre = .ok (.code .noRequest, t) ∧ t.readIdx = pre.flatten.length ∧
      ((GoodCuts r pre ∧ Waiting r pre.flatten.length t) ∨
        (¬ GoodCuts r pre ∧ Stuck r.body r.head.length t)) := by
  have hfits := h.fits
  have hbytes : r.bytes.length = r.head.length + r.body.length := List.length_append
  induction pre using List.reverseRecOn generalizing rest with
  | nil =>
    obtain ⟨s, hrun, hbody⟩ := headRun_request h
    have hpos : 0 < r.head.length := by
      simp only [Request.head, crlf, List.length_append, List.length_cons, List.length_nil]
      omega
    refine ⟨s₀.init, rfl, rfl, Or.inl ⟨?_, Or.inl ⟨hpos, headInv_init s₀, by simp [Parser.init],
      rfl, s, ?_, hbody⟩⟩⟩
    · intro p q hpq
      obtain ⟨rfl, -⟩ := List.nil_eq_append_iff.mp hpq
      intro hlt
      simp at hlt
    · exact hrun
  | append_singleton pre seg ih =>
    have hseg : seg ≠ [] := hne seg (by simp)
    have hpos : 0 < seg.length := List.length_pos_iff.mpr hseg
    have hrpos : 0 < rest.length := List.length_pos_iff.mpr hrest
    have hflat : (pre ++ [seg]).flatten = pre.flatten ++ seg := by simp
    rw [hflat, List.append_assoc] at hpre
    have htotal : pre.flatten.length + (seg.length + rest.length) = r.bytes.length := by
      rw [← hpre, List.length_append, List.length_append]
    obtain ⟨t, hfeed, hread, hcase⟩ := ih (fun x hx => hne x (by simp [hx])) (seg ++ rest)
      (by simp [hseg]) hpre
    have hfit : t.readIdx + seg.length ≤ readBufferSize := by omega
    have hdel : seg = (r.bytes.drop pre.flatten.length).take seg.length := by
      rw [← hpre, List.drop_left, List.take_left]
    have hnext : feed s₀.init (pre ++ [seg]) = processRead (t.deliver seg) := by
      rw [feed_append, hfeed]
      exact feed_singleton hseg hfit
    rw [hnext, goodCuts_concat, hflat, List.length_append]
    rcases hcase with ⟨hgood, hwait⟩ | ⟨hbad, hstuck⟩
    · by_cases hhead : pre.flatten.length + seg.length < r.head.length
      · obtain ⟨t', hproc, hwait'⟩ := waiting_head hwait hhead hfits
        rw [← hdel] at hproc
        refine ⟨t', hproc, ?_, Or.inl ⟨⟨hgood, fun hlt => by omega⟩, hwait'⟩⟩
        rcases hwait' with ⟨-, -, -, hr, -⟩ | ⟨hle, -⟩
        · exact hr
        · omega
      · obtain ⟨u, fuel, hfuel, hproc, hready⟩ := waiting_body hwait (m := seg.length) (by omega)
          (by omega) hfits
        rw [← hdel] at hproc
        rw [hproc]
        have hk : pre.flatten.length + seg.length - r.head.length < r.body.length := by omega
        have hur := hready.read
        by_cases hharm : pre.flatten.length + seg.length - r.head.length = 0 ∨
            Harmless r.body (pre.flatten.length + seg.length - r.head.length)
        · obtain ⟨t', hloop, hready'⟩ := ready_wait (by omega) hready hk hharm hfuel
          have hr' := hready'.read
          refine ⟨t', hloop, by omega, Or.inl ⟨⟨hgood, fun hlt => ?_⟩, Or.inr ⟨by omega, hready'⟩⟩⟩
          exact hharm.resolve_left (by omega)
        · rw [not_or] at hharm
          obtain ⟨t', hloop, hstuck, hr'⟩ :=
            ready_stuck (by omega) hready hk (by omega) hharm.2 hfuel
          refine ⟨t', hloop, by omega, Or.inr ⟨fun hc => hharm.2 (hc.2 (by omega)), hstuck⟩⟩
    · have hstuck' : Stuck r.body r.head.length (t.deliver seg) := by
        have h₁ := hstuck.checked_le
        refine ⟨hstuck.state, hstuck.checked, ?_, ?_, hstuck.length⟩
        · show t.checkedIdx ≤ t.readIdx + seg.length
          omega
        · show t.readIdx + seg.length ≤ _
          omega
      obtain ⟨t', hloop, hs, hr⟩ := stuck_loop (by omega) hstuck'
        ((t.deliver seg).readIdx - (t.deliver seg).checkedIdx + 2) .lineOk
      have hr' : (t.deliver seg).readIdx = t.readIdx + seg.length := rfl
      exact ⟨t', hloop, by omega, Or.inr ⟨fun hc => hbad hc.1, hs⟩⟩

/-- **Body reassembly.** A well-formed request is reassembled from its segments if and only if
every cut strictly inside the body leaves the scan of the body where it is. -/
theorem body_reassembly (s₀ : Parser) (r : Request) (h : r.WellFormed s₀)
    (segs : List (List UInt8)) (hflat : segs.flatten = r.bytes) (hsegs : ∀ seg ∈ segs, seg ≠ []) :
    Reassembled s₀ r segs ↔ ∀ p q, segs = p ++ q → q ≠ [] → r.head.length < p.flatten.length →
      Harmless r.body (p.flatten.length - r.head.length) := by
  have hfits := h.fits
  have hbytes : r.bytes.length = r.head.length + r.body.length := List.length_append
  have hbody : 0 < r.body.length := List.length_pos_iff.mpr h.body
  have hsegs0 : segs ≠ [] := by
    rintro rfl
    rw [List.flatten_nil] at hflat
    rw [← hflat] at hbytes
    simp only [List.length_nil] at hbytes
    omega
  obtain ⟨pre, last, rfl⟩ : ∃ pre last, segs = pre ++ [last] :=
    ⟨_, _, (List.dropLast_concat_getLast hsegs0).symm⟩
  have hlast : last ≠ [] := hsegs last (by simp)
  have hlpos : 0 < last.length := List.length_pos_iff.mpr hlast
  have hpre : pre.flatten ++ last = r.bytes := by
    rw [← hflat]
    simp
  have hlen : pre.flatten.length + last.length = r.bytes.length := by
    rw [← hpre, List.length_append]
  have hgood : GoodCuts r pre ↔ ∀ p q, pre ++ [last] = p ++ q → q ≠ [] →
      r.head.length < p.flatten.length → Harmless r.body (p.flatten.length - r.head.length) := by
    constructor
    · intro hg p q hpq hq
      obtain ⟨q', x, rfl⟩ := (List.eq_nil_or_concat q).resolve_left hq
      rw [List.concat_eq_append, ← List.append_assoc] at hpq
      exact hg p q' (List.append_inj' hpq rfl).1
    · rintro hg p q rfl
      exact hg p (q ++ [last]) (by simp) (by simp)
  rw [← hgood]
  obtain ⟨t, hfeed, hread, hcase⟩ :=
    feed_prefix h pre (fun x hx => hsegs x (by simp [hx])) last hlast hpre
  have hfit : t.readIdx + last.length ≤ readBufferSize := by omega
  have hproc : feed t [last] = processRead (t.deliver last) := feed_singleton hlast hfit
  rcases hcase with ⟨hg, hwait⟩ | ⟨hbad, hstuck⟩
  · refine ⟨fun _ => hg, fun _ => ?_⟩
    have hdel : last = (r.bytes.drop pre.flatten.length).take last.length := by
      rw [← hpre, List.drop_left, List.take_length]
    obtain ⟨u, fuel, hfuel, hloop, hready⟩ := waiting_body hwait (m := last.length) (by omega)
      (by omega) hfits
    rw [← hdel] at hloop
    rw [show pre.flatten.length + last.length - r.head.length = r.body.length by omega] at hready
    obtain ⟨t', hdone, hstate, hstring, hslice, hnul⟩ := ready_done (by omega) hready hfuel
    exact ⟨pre, last, t, t', _, rfl, hfeed, by rw [hproc, hloop, hdone], hstate, hstring, hslice,
      hnul⟩
  · refine ⟨fun hre => ?_, fun hg => absurd hg hbad⟩
    -- the last segment gets no answer either
    exfalso
    obtain ⟨pre', last', s, s', i, heq, hfeed', hlast', -⟩ := hre
    obtain ⟨rfl, heq⟩ := List.append_inj' heq rfl
    obtain rfl : last = last' := by simpa using heq
    rw [hfeed, Except.ok.injEq, Prod.mk.injEq] at hfeed'
    obtain ⟨-, rfl⟩ := hfeed'
    have hstuck' : Stuck r.body r.head.length (t.deliver last) := by
      have h₁ := hstuck.checked_le
      refine ⟨hstuck.state, hstuck.checked, ?_, ?_, hstuck.length⟩
      · show t.checkedIdx ≤ t.readIdx + last.length
        omega
      · show t.readIdx + last.length ≤ _
        omega
    obtain ⟨t', hloop, -, -⟩ := stuck_loop (by omega) hstuck'
      ((t.deliver last).readIdx - (t.deliver last).checkedIdx + 2) .lineOk
    rw [hproc, processRead, hloop] at hlast'
    cases hlast'

-- ---------------------------------------------------------------------------
-- A login, in two segments
-- ---------------------------------------------------------------------------

def loginRequest : Request where
  line := bytes "POST /2 HTTP/1.1"
  headers := [bytes "Host: a", bytes "Content-length: 2"]
  body := bytes "u="

/-- Whether `process_read` accepts the request line as that of a POST. -/
def acceptedCheck (s₀ : Parser) (line : List UInt8) : Bool :=
  match turn .lineOk (s₀.init.deliver (line ++ crlf)) with
  | .ok (.again .lineOk s) => s.method = .post
  | _ => false

theorem accepted_of_check {s₀ : Parser} {line : List UInt8}
    (h : acceptedCheck s₀ line = true) :
    ∃ s, turn .lineOk (s₀.init.deliver (line ++ crlf)) = .ok (.again .lineOk s) ∧
      s.method = .post := by
  unfold acceptedCheck at h
  split at h
  · rename_i s hturn
    exact ⟨s, hturn, of_decide_eq_true h⟩
  · cases h

theorem loginRequest_wellFormed : loginRequest.WellFormed Parser.constructed where
  lineClean := by decide +kernel
  accepted := accepted_of_check (by decide +kernel)
  headerClean := by decide +kernel
  length := by decide
  body := by decide
  fits := by decide

/-- Cut behind its head, the request is reassembled. -/
theorem body_reassembly_login :
    Reassembled Parser.constructed loginRequest [loginRequest.head, bytes "u="] ↔
      ∀ p q, [loginRequest.head, bytes "u="] = p ++ q → q ≠ [] →
        loginRequest.head.length < p.flatten.length →
          Harmless loginRequest.body (p.flatten.length - loginRequest.head.length) :=
  body_reassembly Parser.constructed loginRequest loginRequest_wellFormed
    [loginRequest.head, bytes "u="] (by decide) (by decide)

/-- Whether `do_request` is called on the segments. -/
def requestReached (segs : List (List UInt8)) : Bool :=
  match feed Parser.constructed.init segs with
  | .ok (.doRequest, _) => true
  | _ => false

/-- Cut inside its body, it never is. -/
theorem body_not_reassembled : ¬ ∀ (s₀ : Parser) (r : Request), r.WellFormed s₀ →
    ∀ segs : List (List UInt8), segs.flatten = r.bytes → (∀ seg ∈ segs, seg ≠ []) →
      Reassembled s₀ r segs := by
  intro hall
  obtain ⟨pre, last, s, s', i, hsegs, hpre, hlast, -⟩ := hall Parser.constructed loginRequest
    loginRequest_wellFormed [loginRequest.head ++ bytes "u", bytes "="] (by decide) (by decide)
  have hfeed : feed Parser.constructed.init [loginRequest.head ++ bytes "u", bytes "="] =
      .ok (.doRequest, s') := by
    rw [hsegs, feed_append, hpre]
    exact hlast
  have hreached : requestReached [loginRequest.head ++ bytes "u", bytes "="] = true := by
    rw [requestReached, hfeed]
  exact absurd hreached (by decide +kernel)

end TinyHTTP.Http
