import TinyHTTP.Http.Head

/-!
# TinyHTTP — request heads and TCP segmentation

A client's bytes reach the parser in segments, one `read_once` and one
`process_read` for each. `segmentation_independent`: as long as no body is
involved, how the bytes are cut makes no difference to whether and how parsing
ends, nor to what the parser has understood at that point.
-/

namespace TinyHTTP.Http

open TinyHTTP.Lib

/-- One `read_once` and one `process_read` for each segment, until `process_read` has an answer.
A `read_once` that fails closes the connection. -/
def feed : Parser → List (List UInt8) → Except Fault (ReadEnd × Parser)
  | s, [] => .ok (.code .noRequest, s)
  | s, seg :: segs =>
    match s.readOnce (.data seg) with
    | (s, false) => .ok (.code .closedConnection, s)
    | (s, true) =>
      match processRead s with
      | .error f => .error f
      | .ok (.code .noRequest, s) => feed s segs
      | .ok (r, s) => .ok (r, s)

/-- The string a pointer into the read buffer points to. -/
def Parser.str (s : Parser) (ptr : Option Nat) : Option (Except Fault (List UInt8)) :=
  ptr.map (cstring s.readBuf readBufferSize)

/-- Two parsers that have understood the same. -/
structure SameRequest (s s' : Parser) : Prop where
  checkState : s'.checkState = s.checkState
  method : s'.method = s.method
  cgi : s'.cgi = s.cgi
  linger : s'.linger = s.linger
  contentLength : s'.contentLength = s.contentLength
  url : s'.str s'.url = s.str s.url
  version : s'.str s'.version = s.str s.version
  host : s'.str s'.host = s.str s.host

/-- Two ways parsing can go: both have no defined behaviour for the same reason, or both end in
the same way with the same request understood. -/
def SameOutcome : Except Fault (ReadEnd × Parser) → Except Fault (ReadEnd × Parser) → Prop
  | .error f, .error f' => f' = f
  | .ok (r, s), .ok (r', s') => r' = r ∧ SameRequest s s'
  | _, _ => False

/-- `process_read` does not enter `CHECK_STATE_CONTENT`. -/
def HeadOnly (s : Parser) : Prop := ∀ t, Visits .lineOk s t → t.checkState ≠ .content

/-- `HeadOnly`, checked along the turns. -/
def headOnlyCheck : Nat → LineStatus → Parser → Bool
  | 0, _, _ => false
  | fuel + 1, st, s =>
    s.checkState != .content && match turn st s with
      | .ok (.again st' s') => headOnlyCheck fuel st' s'
      | _ => true

theorem headOnly_of_check {fuel : Nat} {s : Parser} (h : headOnlyCheck fuel .lineOk s = true) :
    HeadOnly s := by
  intro t ht
  generalize LineStatus.lineOk = st at h ht
  induction ht generalizing fuel with
  | here st s =>
    cases fuel with
    | zero => cases h
    | succ fuel =>
      rw [headOnlyCheck, Bool.and_eq_true, bne_iff_ne] at h
      exact h.1
  | again hturn _ ih =>
    cases fuel with
    | zero => cases h
    | succ fuel =>
      rw [headOnlyCheck, Bool.and_eq_true, hturn] at h
      exact ih h.2

theorem SameRequest.refl (s : Parser) : SameRequest s s := ⟨rfl, rfl, rfl, rfl, rfl, rfl, rfl, rfl⟩

theorem SameOutcome.refl (r : Except Fault (ReadEnd × Parser)) : SameOutcome r r := by
  rcases r with f | ⟨e, s⟩
  · exact rfl
  · exact ⟨rfl, .refl s⟩

theorem cstring_congr {m m' : Mem} {n size i : Nat} (hs : SameBelow n m m')
    (hnul : NulBefore m i n) (hn : n ≤ size) : cstring m' size i = cstring m size i := by
  obtain ⟨j, hj, hij, hjn, -⟩ := scanFrom_ok (fun _ => false) hnul hn
  have hstr : strEnd m size i = .ok j := hj
  have hslice : slice m' i (j - i) = slice m i (j - i) := slice_congr hs (by omega)
  simp only [cstring, strEnd_congr hs hnul, hstr, bind, Except.bind, hslice]

/-- Bytes behind the head do not change what has been understood. -/
theorem sameRequest_deliver {s : Parser} (hinv : HeadInv s) (bs : List UInt8) :
    SameRequest (s.deliver bs) s := by
  have hstr : ∀ ptr : Option Nat, (∀ i, ptr = some i → s.Points i) →
      s.str ptr = (s.deliver bs).str ptr := by
    intro ptr hptr
    cases ptr with
    | none => rfl
    | some i =>
      obtain ⟨k, h₁, h₂, h₃⟩ := hinv.strings i (hptr i rfl)
      have := hinv.checked_le
      have hcongr := cstring_congr (sameBelow_deliver s bs)
        ⟨k, h₁, by omega, h₃⟩ hinv.read_le
      simp only [Parser.str, Option.map_some, hcongr]
  exact ⟨rfl, rfl, rfl, rfl, rfl, hstr _ fun i h => Or.inl h,
    hstr _ fun i h => Or.inr (Or.inl h), hstr _ fun i h => Or.inr (Or.inr h)⟩

/-- A segment that fits is read whole. -/
theorem readOnce_data {s : Parser} {seg : List UInt8} (hseg : seg ≠ [])
    (hfit : s.readIdx + seg.length ≤ readBufferSize) :
    s.readOnce (.data seg) = (s.deliver seg, true) := by
  have hpos : 0 < seg.length := List.length_pos_iff.mpr hseg
  have htake : seg.take (readBufferSize - s.readIdx) = seg := List.take_of_length_le (by omega)
  have hlt : ¬ s.readIdx ≥ readBufferSize := by omega
  have hne : seg.isEmpty = false := by simpa using hseg
  simp only [Parser.readOnce, if_neg hlt, htake, hne, Bool.not_false]

/-- The run over the head, as the answer of `process_read`. -/
def headAnswer : Except Fault (HeadEnd × Parser) → Except Fault (ReadEnd × Parser)
  | .error f => .error f
  | .ok (.stop r, s) => .ok (r, s)
  | .ok (.content, s) => .ok (.code .noRequest, s)

theorem processRead_head {s : Parser} (hinv : HeadInv s)
    (h : ∀ s', headRun s ≠ .ok (.content, s')) : processRead s = headAnswer (headRun s) := by
  have hloop := processReadLoop_head hinv (Nat.le_refl _)
  generalize headRun s = r at h hloop
  cases hloop with
  | stop r s' h' => exact h'
  | content s' => exact absurd rfl (h s')
  | fault f h' => exact h'

/-- A parser that waits goes on waiting until more bytes arrive. -/
theorem headRun_waiting {s s' : Parser} (hinv : HeadInv s)
    (h : headRun s = .ok (.stop (.code .noRequest), s')) :
    headRun s' = .ok (.stop (.code .noRequest), s') := by
  have hres := headRun_deliver hinv [] (by simpa using hinv.read_le)
  rw [h] at hres
  cases hres with
  | wait _ _ _ _ h' =>
    rw [deliver_nil, deliver_nil] at h'
    exact h'.symm.trans h
  | done _ _ _ he => exact absurd rfl he

/-- **Feeding in segments.** Against the run over all the bytes at once; induction on the
segments. -/
theorem feed_head {s : Parser} (hinv : HeadInv s) (hhead : s.checkState ≠ .content)
    (segs : List (List UInt8)) (hsegs : ∀ seg ∈ segs, seg ≠ [])
    (hfit : s.readIdx + segs.flatten.length ≤ readBufferSize)
    (hwait : segs = [] → headRun s = .ok (.stop (.code .noRequest), s))
    (hno : ∀ s', headRun (s.deliver segs.flatten) ≠ .ok (.content, s')) :
    SameOutcome (headAnswer (headRun (s.deliver segs.flatten))) (feed s segs) := by
  induction segs generalizing s with
  | nil =>
    rw [List.flatten_nil, deliver_nil, hwait rfl]
    exact .refl _
  | cons seg segs ih =>
    rw [List.flatten_cons, List.length_append] at hfit
    rw [List.flatten_cons, deliver_append] at hno ⊢
    have hseg := hsegs seg (List.mem_cons_self ..)
    have hfit₁ : s.readIdx + seg.length ≤ readBufferSize := by omega
    have hinv₁ := hinv.deliver hfit₁
    have hfit₂ : (s.deliver seg).readIdx + segs.flatten.length ≤ readBufferSize := by
      show s.readIdx + seg.length + segs.flatten.length ≤ readBufferSize
      omega
    have hres := headRun_deliver hinv₁ segs.flatten hfit₂
    rw [feed, readOnce_data hseg hfit₁]
    simp only
    -- the body is not reached by the first segment alone
    have hno₁ : ∀ s', headRun (s.deliver seg) ≠ .ok (.content, s') := by
      intro s' h
      rw [h] at hres
      cases hres with
      | done _ _ _ _ _ h' => exact hno _ h'
    rw [processRead_head hinv₁ hno₁]
    generalize hr : headRun (s.deliver seg) = r at hres hno₁
    cases hres with
    | fault f h =>
      rw [h]
      exact .refl _
    | wait s' hinv' hhead' hread h =>
      rw [h] at hno ⊢
      simp only [headAnswer]
      refine ih hinv' hhead' (fun t ht => hsegs t (List.mem_cons_of_mem _ ht)) (by omega) ?_ hno
      intro _
      exact headRun_waiting hinv₁ hr
    | done e s' hinv' he hread h =>
      rw [h]
      cases e with
      | content => exact absurd rfl (hno₁ s')
      | stop r =>
        have hsame := sameRequest_deliver hinv' segs.flatten
        cases r with
        | doRequest => exact ⟨rfl, hsame⟩
        | code c =>
          cases c with
          | noRequest => exact absurd rfl he
          | _ => exact ⟨rfl, hsame⟩

/-- One segment: the answer of `process_read`. -/
theorem feed_singleton {s : Parser} {bs : List UInt8} (hbs : bs ≠ [])
    (hfit : s.readIdx + bs.length ≤ readBufferSize) :
    feed s [bs] = processRead (s.deliver bs) := by
  rw [feed, readOnce_data hbs hfit]
  simp only
  rcases processRead (s.deliver bs) with f | ⟨r, s'⟩
  · rfl
  · cases r with
    | doRequest => rfl
    | code c => cases c <;> rfl

/-- **Segmentation of a request head.** However a sequence of bytes is cut into segments, parsing
ends the same way, with the same request understood, as when it arrives in one segment. -/
theorem segmentation_independent (s₀ : Parser) (bs : List UInt8) (segs : List (List UInt8))
    (hlen : bs.length ≤ readBufferSize) (hne : bs ≠ []) (hflat : segs.flatten = bs)
    (hsegs : ∀ seg ∈ segs, seg ≠ []) (hhead : HeadOnly (s₀.init.deliver bs)) :
    SameOutcome (feed s₀.init [bs]) (feed s₀.init segs) := by
  have hinv := headInv_init s₀
  have hfit : s₀.init.readIdx + bs.length ≤ readBufferSize := by
    show 0 + bs.length ≤ readBufferSize
    omega
  have hinv' := hinv.deliver hfit
  rw [feed_singleton hne hfit]
  -- the body is not reached
  have hno : ∀ s', headRun (s₀.init.deliver bs) ≠ .ok (.content, s') := by
    intro s' h
    obtain ⟨hv, hcontent⟩ := headRun_content_visits hinv' h
    exact hhead s' hv hcontent
  rw [processRead_head hinv' hno]
  subst hflat
  refine feed_head hinv (by simp [Parser.init]) segs hsegs hfit ?_ hno
  rintro rfl
  exact absurd rfl hne

/-- A request cut between the CR and the LF of its first line. -/
theorem segmentation_independent_cut :
    SameOutcome (feed Parser.constructed.init [bytes "GET / HTTP/1.1\r\nHost: a\r\n\r\n"])
      (feed Parser.constructed.init
        [bytes "GET / HTTP/1.1\r", bytes "\nHost", bytes ": a\r\n\r\n"]) :=
  segmentation_independent Parser.constructed (bytes "GET / HTTP/1.1\r\nHost: a\r\n\r\n")
    [bytes "GET / HTTP/1.1\r", bytes "\nHost", bytes ": a\r\n\r\n"]
    (by decide) (by decide) (by decide) (by decide)
    (@headOnly_of_check 4 _ (by decide +kernel))

end TinyHTTP.Http
