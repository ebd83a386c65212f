import TinyHTTP.Http.Body

/-!
# TinyHTTP — the arithmetic of the body

`parse_content` adds `m_content_length` to `m_checked_idx` and writes a NUL at
`text[m_content_length]`. The length is what `atol` makes of a header, cut down
to an `int`; it is compared with nothing but zero. `InBuffer` is what
the indices keep to in every state that `process_read` gets to.

* `parseContent_eq` — the write of `parse_content`, as an index.
* `enters_inBuffer` — the indices, wherever `process_read` calls a parse function.
* `contentSafe_iff` — the lengths for which `parse_content` stays in the buffer.
-/

namespace TinyHTTP.Http

open TinyHTTP.Lib

-- ---------------------------------------------------------------------------
-- The states of process_read
-- ---------------------------------------------------------------------------

/-- The parsers on which `process_read` is called, while no request is complete. -/
inductive Reading : Parser → Prop
  | init (s : Parser) : Reading s.init
  | recv {s : Parser} (h : Reading s) (r : Recv) (hr : (s.readOnce r).2 = true) :
      Reading (s.readOnce r).1
  | again {s s' : Parser} (h : Reading s) (hr : processRead s = .ok (.code .noRequest, s')) :
      Reading s'

/-- The parser with which the condition of the `while` loop lets its body run. -/
def entered (st : LineStatus) (s : Parser) : Option Parser :=
  if s.checkState = .content ∧ st = .lineOk then some s
  else match parseLine s with
    | (.lineOk, s) => some s
    | _ => none

/-- The loop, with `line_status` at `st`, gets to run its body on `t`. -/
inductive Enters : LineStatus → Parser → Parser → Prop
  | here {st : LineStatus} {s t : Parser} (h : entered st s = some t) : Enters st s t
  | again {st st' : LineStatus} {s s' t : Parser} (h : turn st s = .ok (.again st' s'))
      (ht : Enters st' s' t) : Enters st s t

/-- One turn of the loop: its condition, then its body. -/
theorem turn_entered (st : LineStatus) (s : Parser) : turn st s = match entered st s with
    | some t => handleLine t
    | none => .ok (.stop (.code .noRequest) (parseLine s).2) := by
  unfold turn entered
  split
  · rfl
  · generalize parseLine s = r
    obtain ⟨lineStatus, s'⟩ := r
    cases lineStatus <;> rfl

-- ---------------------------------------------------------------------------
-- parse_content
-- ---------------------------------------------------------------------------

/-- The index of `text[m_content_length]`, if `parse_content` writes to it. -/
def contentWrite (s : Parser) (text : Nat) : Option Int :=
  if s.readIdx ≥ s.contentLength + s.checkedIdx then some (text + s.contentLength) else none

/-- What `parse_content` should keep to: a sum that is an `int`, and a write behind the
start of the body and inside the buffer. -/
structure ContentSafe (s : Parser) (text : Nat) : Prop where
  le_sum : -2 ^ 31 ≤ s.contentLength + s.checkedIdx
  sum_lt : s.contentLength + s.checkedIdx < 2 ^ 31
  write : ∀ i, contentWrite s text = some i → text ≤ i ∧ i < readBufferSize

/-- `parse_content` has no test of its own: it writes where `contentWrite` says, and nothing keeps
the index inside the buffer. -/
theorem parseContent_eq (s : Parser) (text : Nat) : parseContent s text =
    if s.contentLength + s.checkedIdx ≥ 2 ^ 31 then .error .signedOverflow
    else match contentWrite s text with
      | none => .ok (.noRequest, s)
      | some i =>
        if 0 ≤ i ∧ i < readBufferSize then
          .ok (.getRequest, { s with
            readBuf := Function.update s.readBuf i.toNat 0
            string := some text })
        else .error .outOfBounds := by
  unfold parseContent contentWrite
  split
  · rfl
  split
  · rfl
  · rfl

-- ---------------------------------------------------------------------------
-- The indices
-- ---------------------------------------------------------------------------

/-- The indices into the read buffer are in order, and the length is an `int`. -/
structure InBuffer (s : Parser) : Prop where
  start_le : s.startLine ≤ s.checkedIdx
  checked_le : s.checkedIdx ≤ s.readIdx
  read_le : s.readIdx ≤ readBufferSize
  le_length : -2 ^ 31 ≤ s.contentLength
  length_lt : s.contentLength < 2 ^ 31

/-- The indices are the same, and the length at most set to another `int`. -/
structure SameIndices (s s' : Parser) : Prop where
  startLine : s'.startLine = s.startLine
  checkedIdx : s'.checkedIdx = s.checkedIdx
  readIdx : s'.readIdx = s.readIdx
  contentLength : s'.contentLength = s.contentLength ∨ ∃ n, s'.contentLength = toInt32 n

/-- `parse_headers` may change the length, to another `int`; the indices are those of `parse_line`.
-/
theorem InBuffer.same {s s' : Parser} (h : InBuffer s) (hs : SameIndices s s') : InBuffer s' := by
  obtain ⟨h₁, h₂, h₃, h₄⟩ := hs
  have hlength : -2 ^ 31 ≤ s'.contentLength ∧ s'.contentLength < 2 ^ 31 := by
    rcases h₄ with h₄ | ⟨n, h₄⟩
    · rw [h₄]
      exact ⟨h.le_length, h.length_lt⟩
    · rw [h₄]
      exact ⟨le_toInt32 n, toInt32_lt n⟩
  exact ⟨by rw [h₁, h₂]; exact h.start_le, by rw [h₂, h₃]; exact h.checked_le,
    by rw [h₃]; exact h.read_le, hlength.1, hlength.2⟩

/-- `init` zeroes them all. -/
theorem inBuffer_init (s : Parser) : InBuffer s.init where
  start_le := Nat.le_refl _
  checked_le := Nat.le_refl _
  read_le := Nat.zero_le _
  le_length := by
    show (-2 ^ 31 : Int) ≤ 0
    omega
  length_lt := by
    show (0 : Int) < 2 ^ 31
    omega

/-- `recv` gets what is left of the buffer, and a full buffer fails the read. -/
theorem InBuffer.recv {s : Parser} (h : InBuffer s) (r : Recv)
    (hr : (s.readOnce r).2 = true) : InBuffer (s.readOnce r).1 := by
  unfold Parser.readOnce at hr ⊢
  split at hr
  · cases hr
  rename_i hroom
  rw [if_neg hroom]
  cases r with
  | closed | error => cases hr
  | data bs =>
    have hlen := List.length_take_le (readBufferSize - s.readIdx) bs
    have hchecked := h.checked_le
    refine ⟨h.start_le, ?_, ?_, h.le_length, h.length_lt⟩
    · show s.checkedIdx ≤ s.readIdx + (bs.take (readBufferSize - s.readIdx)).length
      omega
    · show s.readIdx + (bs.take (readBufferSize - s.readIdx)).length ≤ readBufferSize
      omega

/-- `m_start_line` is set by the loop of `process_read` alone. -/
theorem parseLineLoop_startLine (n : Nat) (s : Parser) :
    (parseLineLoop n s).2.startLine = s.startLine := by
  induction n generalizing s with
  | zero => rfl
  | succ n ih =>
    rw [parseLineLoop]
    -- a CR, a LF, or another byte to step over
    split
    · split
      · rfl
      split
      · rfl
      · rfl
    split
    · split
      · rfl
      · rfl
    · exact ih _

/-- `parse_line` moves `m_checked_idx` forward, and not beyond what has been read. -/
theorem InBuffer.line {s : Parser} (h : InBuffer s) : InBuffer (parseLine s).2 := by
  obtain ⟨h₁, h₂, h₃, -, h₅⟩ := parseLine_scan h.checked_le
  have hstart : (parseLine s).2.startLine = s.startLine := parseLineLoop_startLine _ s
  have := h.start_le
  refine ⟨by omega, by omega, by rw [h₃]; exact h.read_le, ?_, ?_⟩
  · rw [h₅]
    exact h.le_length
  · rw [h₅]
    exact h.length_lt

/-- The parse functions write into the buffer and set pointers. None of them moves an index. -/
theorem parseUrl_same {s s' : Parser} {url : Nat} {ret : HttpCode}
    (h : parseUrl s url = .ok (ret, s')) : SameIndices s s' := by
  obtain ⟨url₁, -, h⟩ := bind_ok.mp h
  obtain ⟨url₂, -, h⟩ := bind_ok.mp h
  cases url₂ with
  | none =>
    cases h
    exact ⟨rfl, rfl, rfl, Or.inl rfl⟩
  | some u =>
    simp only at h
    split at h
    · cases h
      exact ⟨rfl, rfl, rfl, Or.inl rfl⟩
    obtain ⟨e, -, h⟩ := bind_ok.mp h
    split at h
    · obtain ⟨buf, -, h⟩ := bind_ok.mp h
      cases h
      exact ⟨rfl, rfl, rfl, Or.inl rfl⟩
    · cases h
      exact ⟨rfl, rfl, rfl, Or.inl rfl⟩

theorem parseTarget_same {s s' : Parser} {url : Nat} {ret : HttpCode}
    (h : parseTarget s url = .ok (ret, s')) : SameIndices s s' := by
  obtain ⟨url₁, -, h⟩ := bind_ok.mp h
  obtain ⟨version, -, h⟩ := bind_ok.mp h
  cases version with
  | none =>
    cases h
    exact ⟨rfl, rfl, rfl, Or.inl rfl⟩
  | some e =>
    obtain ⟨v, -, h⟩ := bind_ok.mp h
    split at h
    · obtain ⟨h₁, h₂, h₃, h₄⟩ := parseUrl_same h
      exact ⟨h₁, h₂, h₃, h₄⟩
    · cases h
      exact ⟨rfl, rfl, rfl, Or.inl rfl⟩

theorem parseRequestLine_same {s s' : Parser} {text : Nat} {ret : HttpCode}
    (h : parseRequestLine s text = .ok (ret, s')) : SameIndices s s' := by
  obtain ⟨url, -, h⟩ := bind_ok.mp h
  cases url with
  | none =>
    cases h
    exact ⟨rfl, rfl, rfl, Or.inl rfl⟩
  | some e =>
    simp only at h
    split at h
    · obtain ⟨h₁, h₂, h₃, h₄⟩ := parseTarget_same h
      exact ⟨h₁, h₂, h₃, h₄⟩
    split at h
    · obtain ⟨h₁, h₂, h₃, h₄⟩ := parseTarget_same h
      exact ⟨h₁, h₂, h₃, h₄⟩
    · cases h
      exact ⟨rfl, rfl, rfl, Or.inl rfl⟩

/-- Not even `parse_content`: it says that the request is complete, and leaves the body to be looked
at again. -/
theorem parseContent_same {s s' : Parser} {text : Nat} {ret : HttpCode}
    (h : parseContent s text = .ok (ret, s')) : SameIndices s s' := by
  rw [parseContent_eq] at h
  split at h
  · cases h
  split at h
  · cases h
    exact ⟨rfl, rfl, rfl, Or.inl rfl⟩
  split at h
  · cases h
    exact ⟨rfl, rfl, rfl, Or.inl rfl⟩
  · cases h

/-- A header can set the length, to an `int`. -/
theorem parseHeaders_same {s s' : Parser} {text : Nat} {ret : HttpCode}
    (h : parseHeaders s text = .ok (ret, s')) : SameIndices s s' := by
  unfold parseHeaders at h
  split at h
  · split at h
    · cases h
      exact ⟨rfl, rfl, rfl, Or.inl rfl⟩
    · cases h
      exact ⟨rfl, rfl, rfl, Or.inl rfl⟩
  split at h
  · obtain ⟨p, -, h⟩ := bind_ok.mp h
    split at h
    · cases h
      exact ⟨rfl, rfl, rfl, Or.inl rfl⟩
    · cases h
      exact ⟨rfl, rfl, rfl, Or.inl rfl⟩
  split at h
  · obtain ⟨p, -, h⟩ := bind_ok.mp h
    obtain ⟨n, -, h⟩ := bind_ok.mp h
    cases h
    exact ⟨rfl, rfl, rfl, Or.inr ⟨n, rfl⟩⟩
  split at h
  · obtain ⟨p, -, h⟩ := bind_ok.mp h
    cases h
    exact ⟨rfl, rfl, rfl, Or.inl rfl⟩
  · cases h
    exact ⟨rfl, rfl, rfl, Or.inl rfl⟩

-- ---------------------------------------------------------------------------
-- The loop
-- ---------------------------------------------------------------------------

def Turn.parser : Turn → Parser
  | .again _ s => s
  | .stop _ s => s

/-- The body of the loop starts a new line, and parses the one before. -/
theorem handleLine_same {s : Parser} {t : Turn} (ht : handleLine s = .ok t) :
    SameIndices s.nextLine t.parser := by
  unfold handleLine at ht
  cases hc : s.checkState with
  | requestLine =>
    rw [hc] at ht
    obtain ⟨⟨ret, s'⟩, hparse, rfl⟩ := map_ok.mp ht
    have hs' := parseRequestLine_same hparse
    unfold requestLineTurn
    split <;> exact hs'
  | header =>
    rw [hc] at ht
    obtain ⟨⟨ret, s'⟩, hparse, rfl⟩ := map_ok.mp ht
    have hs' := parseHeaders_same hparse
    unfold headerTurn
    split
    · exact hs'
    split <;> exact hs'
  | content =>
    rw [hc] at ht
    obtain ⟨⟨ret, s'⟩, hparse, rfl⟩ := map_ok.mp ht
    have hs' := parseContent_same hparse
    unfold contentTurn
    split <;> exact hs'

/-- The next line starts at `m_checked_idx`. -/
theorem InBuffer.handled {s : Parser} (h : InBuffer s) {t : Turn} (ht : handleLine s = .ok t) :
    InBuffer t.parser := by
  have hnext : InBuffer s.nextLine :=
    ⟨Nat.le_refl _, h.checked_le, h.read_le, h.le_length, h.length_lt⟩
  exact hnext.same (handleLine_same ht)

/-- The condition of the loop calls `parse_line`, unless it is in the body. -/
theorem InBuffer.entered {st : LineStatus} {s t : Parser} (h : InBuffer s)
    (ht : Http.entered st s = some t) : InBuffer t := by
  have hline := h.line
  unfold Http.entered at ht
  split at ht
  · cases ht
    exact h
  · generalize parseLine s = r at ht hline
    obtain ⟨lineStatus, s'⟩ := r
    cases lineStatus with
    | lineOk =>
      cases ht
      exact hline
    | lineBad | lineOpen => cases ht

/-- **Step lemma.** -/
theorem InBuffer.turn {st : LineStatus} {s : Parser} {t : Turn} (h : InBuffer s)
    (ht : Http.turn st s = .ok t) : InBuffer t.parser := by
  rw [turn_entered] at ht
  cases he : Http.entered st s with
  | none =>
    rw [he] at ht
    cases ht
    exact h.line
  | some u =>
    rw [he] at ht
    exact (h.entered he).handled ht

/-- **Run lemma**, for one call of `process_read`. -/
theorem InBuffer.loop {fuel : Nat} {st : LineStatus} {s s' : Parser} {r : ReadEnd}
    (h : InBuffer s) (hr : processReadLoop fuel st s = .ok (r, s')) : InBuffer s' := by
  induction fuel generalizing st s with
  | zero =>
    cases hr
    exact h
  | succ fuel ih =>
    rw [processReadLoop, bind_ok] at hr
    obtain ⟨t, ht, hr⟩ := hr
    have hturn := h.turn ht
    cases t with
    | again st' s₁ => exact ih hturn hr
    | stop r' s₁ =>
      cases hr
      exact hturn

/-- **The indices**, over every run of reads. -/
theorem reading_inBuffer {s : Parser} (h : Reading s) : InBuffer s := by
  induction h with
  | init s => exact inBuffer_init s
  | recv _ r hr ih => exact ih.recv r hr
  | again _ hr ih => exact ih.loop hr

/-- And wherever its loop runs its body. -/
theorem enters_inBuffer {st : LineStatus} {s t : Parser} (h : InBuffer s) (ht : Enters st s t) :
    InBuffer t := by
  induction ht with
  | here he => exact h.entered he
  | again hturn _ ih => exact ih (h.turn hturn)

-- ---------------------------------------------------------------------------
-- The result
-- ---------------------------------------------------------------------------

/-- The lengths that are safe: none below zero, none so large that the sum with `m_checked_idx`
is no `int`, and none that puts the end of a body that starts at the line just begun
on the end of the full buffer. -/
def LengthFits (s : Parser) : Prop :=
  0 ≤ s.contentLength ∧ s.contentLength ≤ 2 ^ 31 - 1 - s.checkedIdx ∧
    ¬ (s.startLine = s.checkedIdx ∧ s.readIdx = readBufferSize ∧
      s.contentLength = readBufferSize - s.checkedIdx)

instance (s : Parser) : Decidable (LengthFits s) := by
  unfold LengthFits
  infer_instance

/-- A negative length puts the NUL in front of the body, and is always taken for one that has
arrived. -/
theorem lengthFits_of_safe {s : Parser} (hs : InBuffer s) (h : ContentSafe s s.startLine) :
    LengthFits s := by
  obtain ⟨-, hlt, hwrite⟩ := h
  have hchecked := hs.checked_le
  have hnonneg : 0 ≤ s.contentLength := by
    by_contra hneg
    -- the sum is below `m_checked_idx`, so the test for the whole body is passed
    have hfull : (s.readIdx : Int) ≥ s.contentLength + s.checkedIdx := by omega
    have := (hwrite _ (if_pos hfull)).1
    omega
  refine ⟨hnonneg, by omega, ?_⟩
  rintro ⟨hstart, hread, hlength⟩
  -- the whole buffer is there, so the write happens, right behind it
  have hfull : (s.readIdx : Int) ≥ s.contentLength + s.checkedIdx := by omega
  have := (hwrite _ (if_pos hfull)).2
  omega

/-- The body has arrived when the sum is at most `m_read_idx`, so the write is at most at
`m_read_idx`; it is there only when the line has just begun, and outside only when the buffer is
full. -/
theorem safe_of_lengthFits {s : Parser} (hs : InBuffer s) (h : LengthFits s) :
    ContentSafe s s.startLine := by
  obtain ⟨hnonneg, hle, hend⟩ := h
  refine ⟨by omega, by omega, ?_⟩
  intro i hi
  have hstart := hs.start_le
  have hread := hs.read_le
  unfold contentWrite at hi
  split at hi
  · rename_i hfull
    obtain rfl := Option.some.inj hi
    refine ⟨by omega, ?_⟩
    -- a write behind the buffer is the one that `hend` excludes
    by_contra hge
    exact hend ⟨by omega, by omega, by omega⟩
  · cases hi

/-- `process_read`, called on `s`, calls `parse_content` on `t`. -/
structure ParsesContent (s t : Parser) : Prop where
  enters : Enters .lineOk s t
  checkState : t.checkState = .content

/-- **Body arithmetic.** Wherever `process_read` calls `parse_content`, the call is safe exactly
for the lengths that fit. -/
theorem contentSafe_iff {s t : Parser} (hs : Reading s) (ht : ParsesContent s t) :
    ContentSafe t.nextLine t.startLine ↔ LengthFits t := by
  have hinv := enters_inBuffer (reading_inBuffer hs) ht.enters
  constructor
  · rintro ⟨h₁, h₂, h₃⟩
    exact lengthFits_of_safe hinv ⟨h₁, h₂, h₃⟩
  · intro h
    obtain ⟨h₁, h₂, h₃⟩ := safe_of_lengthFits hinv h
    exact ⟨h₁, h₂, h₃⟩

/-- The parser with which the loop first gets to `parse_content`. -/
def contentCall : Nat → LineStatus → Parser → Option Parser
  | 0, _, _ => none
  | fuel + 1, st, s =>
    match entered st s with
    | none => none
    | some t =>
      if t.checkState = .content then some t
      else match handleLine t with
        | .ok (.again st' s') => contentCall fuel st' s'
        | _ => none

/-- The search follows the loop, turn by turn. -/
theorem enters_of_contentCall {fuel : Nat} {st : LineStatus} {s t : Parser}
    (h : contentCall fuel st s = some t) : Enters st s t ∧ t.checkState = .content := by
  induction fuel generalizing st s with
  | zero => cases h
  | succ fuel ih =>
    rw [contentCall] at h
    split at h
    · cases h
    rename_i u hu
    split at h
    · rename_i hc
      obtain rfl := Option.some.inj h
      exact ⟨.here hu, hc⟩
    split at h
    · rename_i st' s' hl
      obtain ⟨ht, hc⟩ := ih h
      refine ⟨.again ?_ ht, hc⟩
      rw [turn_entered, hu]
      exact hl
    · cases h

theorem parsesContent_of_contentCall {fuel : Nat} {s t : Parser}
    (h : contentCall fuel .lineOk s = some t) : ParsesContent s t :=
  ⟨(enters_of_contentCall h).1, (enters_of_contentCall h).2⟩

/-- The parser of a connection on which `bs` has arrived. -/
def received (bs : List UInt8) : Parser := (Parser.init Parser.constructed).deliver bs

/-- One `recv` of at most the size of the buffer. -/
theorem reading_received {b : List UInt8} (hne : b ≠ []) (hfit : b.length ≤ readBufferSize) :
    Reading (received b) := by
  have hread : (Parser.init Parser.constructed).readOnce (.data b) = (received b, true) :=
    readOnce_data hne (by simpa [Parser.init] using hfit)
  have h := Reading.recv (.init Parser.constructed) (.data b)
  rw [hread] at h
  exact h rfl

/-- A request with a body of one byte and this `Content-length`. -/
def postOfLength (n : String) : List UInt8 :=
  bytes "POST /2 HTTP/1.1\r\nContent-length: " ++ bytes n ++ bytes "\r\n\r\nx"

/-- A body of one byte, with the right length. -/
theorem contentSafe_iff_postOfLength : ∃ t, contentCall 10 .lineOk (received (postOfLength "1")) =
    some t ∧ (ContentSafe t.nextLine t.startLine ↔ LengthFits t) := by
  have hsome : (contentCall 10 .lineOk (received (postOfLength "1"))).isSome := by decide +kernel
  obtain ⟨t, ht⟩ := Option.isSome_iff_exists.mp hsome
  exact ⟨t, ht, contentSafe_iff (reading_received (by decide) (by decide))
    (parsesContent_of_contentCall ht)⟩

/-- `Content-length: -1` has the NUL written in front of the body. -/
theorem negative_length_unsafe : ¬ ∀ s t : Parser, Reading s → ParsesContent s t →
    ContentSafe t.nextLine t.startLine := by
  intro h
  have hcall : (contentCall 10 .lineOk (received (postOfLength "-1"))).any
      (fun t => decide (¬ LengthFits t)) = true := by decide +kernel
  obtain ⟨t, ht, hfits⟩ := (Option.any_eq_true _ _).mp hcall
  have hcontent := parsesContent_of_contentCall ht
  have hreading := reading_received (b := postOfLength "-1") (by decide) (by decide)
  have hinv := enters_inBuffer (reading_inBuffer hreading) hcontent.enters
  obtain ⟨h₁, h₂, h₃⟩ := h _ t hreading hcontent
  exact of_decide_eq_true hfits (lengthFits_of_safe hinv ⟨h₁, h₂, h₃⟩)

end TinyHTTP.Http
