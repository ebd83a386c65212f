import TinyHTTP.Http.Conversation

/-!
# TinyHTTP — requests on one connection

When a response is sent, `init` clears the read buffer. The bytes that have arrived
behind the request are gone, though the client has sent them; what comes of the
requests depends on where the segments end.

* `converses_merge` — a segment that does not complete the request can as well come
  together with the next.
* `converses_completed` — what has come behind the request is dropped.
* `answeredInTurn_iff` — every request is answered if and only if it is when it comes
  alone, and every request ends with a segment.
* `answers_of_servable` — alone, a request gets its whole response if it gets any, where
  the files can be mapped and their sizes fit the counters.
-/

namespace TinyHTTP.Http

open TinyHTTP.Lib

/-- The bytes complete the request that `s` has begun, and it has no body. -/
def Parser.CompletedBy (s : Parser) (r : List UInt8) : Prop :=
  ∃ t, headRun (s.deliver r) = .ok (.stop .doRequest, t) ∧ t.checkedIdx = t.readIdx

/-- A request without a body: `process_read` calls `do_request` with the last byte. -/
def Complete (r : List UInt8) : Prop := Parser.constructed.init.CompletedBy r

/-- Every request ends where a segment ends. -/
def Aligned (requests segs : List (List UInt8)) : Prop :=
  ∃ groups : List (List (List UInt8)), groups.flatten = segs ∧ groups.map List.flatten = requests

/-- What comes of the segments, whatever each `writev` sends: these replies, each of them whole. -/
structure Answers (w : World) (c : HttpConn) (segs : List (List UInt8)) (replies : List Reply) :
    Prop where
  reached : Converses w c segs replies
  only : ∀ replies', Converses w c segs replies' → replies' = replies
  whole : ∀ reply ∈ replies, reply.Whole

/-- Every request gets its reply when it arrives alone, after the previous response. -/
def AnsweredAlone (w : World) (c : HttpConn) (requests : List (List UInt8)) : Prop :=
  ∃ replies, Answers w c requests replies ∧ replies.length = requests.length

/-- The segments get one reply for each request, and the one that it gets when it arrives alone. -/
def AnsweredInTurn (w : World) (c : HttpConn) (requests segs : List (List UInt8)) : Prop :=
  ∃ replies, Answers w c requests replies ∧ replies.length = requests.length ∧
    Answers w c segs replies

-- ---------------------------------------------------------------------------
-- Complete requests
-- ---------------------------------------------------------------------------

/-- The run over the head does not look at `m_string`. -/
theorem headLoop_orString (x : Option Nat) (n : Nat) {s : Parser} (hs : s.string = none) :
    headLoop n (s.withString x) = (headLoop n s).map fun r => (r.1, r.2.orString x) := by
  induction n generalizing s with
  | zero => simp only [headLoop, Except.map, orString_none x hs]
  | succ n ih =>
    rw [headLoop, headLoop, show (s.withString x).checkState = s.checkState from rfl]
    split
    · simp only [Except.map, orString_none x hs]
    · rw [turn_orString x .lineOk hs]
      cases h : turn .lineOk s with
      | error f => rfl
      | ok t =>
        have hunset := turn_unset hs h
        cases t with
        | stop r s' => rfl
        | again st s' =>
          have hs' : s'.string = none := hunset
          simp only [Except.map, Turn.orString, orString_none x hs']
          exact ih hs'

/-- A request is complete for every connection. -/
theorem Complete.init {r : List UInt8} (h : Complete r) (s : Parser) : s.init.CompletedBy r := by
  obtain ⟨t, hrun, hall⟩ := h
  have hinit : s.init.deliver r = (Parser.constructed.init.deliver r).withString s.string := rfl
  have hstring : (Parser.constructed.init.deliver r).string = none := rfl
  generalize Parser.constructed.init.deliver r = q at hinit hstring hrun
  have hloop := headLoop_orString s.string (q.readIdx - q.checkedIdx + 1) hstring
  refine ⟨t.orString s.string, ?_, ?_⟩
  · rw [hinit]
    unfold headRun at hrun ⊢
    rw [hrun] at hloop
    exact hloop
  · unfold Parser.orString
    split
    · exact hall
    · exact hall

theorem stop_ne_content (r : ReadEnd) (s t : Parser) :
    (Except.ok (.stop r, s) : Except Fault (HeadEnd × Parser)) ≠ .ok (.content, t) := by
  intro h
  injection h with h
  injection h with h
  cases h

section
variable {s : Parser} {r : List UInt8}

/-- More bytes behind a complete request are not looked at. -/
theorem Parser.CompletedBy.behind (hinv : HeadInv s) (h : s.CompletedBy r) (extra : List UInt8)
    (hfit : s.readIdx + (r ++ extra).length ≤ readBufferSize) :
    ∃ t, headRun (s.deliver (r ++ extra)) = .ok (.stop .doRequest, t) ∧
      t.readIdx = t.checkedIdx + extra.length := by
  obtain ⟨t, hrun, hall⟩ := h
  rw [List.length_append, ← Nat.add_assoc] at hfit
  have hr : s.readIdx + r.length ≤ readBufferSize := Nat.le_of_add_right_le hfit
  have hres := headRun_deliver (hinv.deliver hr) extra hfit
  rw [hrun] at hres
  cases hres with
  | done e t hinv' he hread hdone =>
    rw [deliver_append]
    refine ⟨t.deliver extra, hdone, ?_⟩
    change t.readIdx + extra.length = t.checkedIdx + extra.length
    rw [hall]

/-- A part of a request is waited behind. -/
theorem Parser.CompletedBy.piece (hinv : HeadInv s) {seg rest : List UInt8}
    (h : s.CompletedBy (seg ++ rest)) (hrest : rest ≠ [])
    (hfit : s.readIdx + (seg ++ rest).length ≤ readBufferSize) :
    ∃ s', headRun (s.deliver seg) = .ok (.stop (.code .noRequest), s') := by
  obtain ⟨t, hrun, hall⟩ := h
  rw [List.length_append, ← Nat.add_assoc] at hfit
  rw [deliver_append] at hrun
  have hseg : s.readIdx + seg.length ≤ readBufferSize := Nat.le_of_add_right_le hfit
  have hres := headRun_deliver (hinv.deliver hseg) rest hfit
  generalize headRun (s.deliver seg) = q at hres
  cases hres with
  | wait s' => exact ⟨s', rfl⟩
  | done e s' hinv' he hread hdone =>
    -- the rest would not have been looked at
    rw [hrun] at hdone
    cases hdone
    have hpos : 0 < rest.length := List.length_pos_iff.mpr hrest
    have hchecked := hinv'.checked_le
    change s'.checkedIdx = s'.readIdx + rest.length at hall
    omega
  | fault f hfault =>
    rw [hrun] at hfault
    cases hfault

/-- `CHECK_STATE_CONTENT` is not entered, in the request or behind it. -/
theorem Parser.CompletedBy.not_content (hinv : HeadInv s) (h : s.CompletedBy r)
    {p more rest : List UInt8} (hp : p ++ more = r ++ rest)
    (hfit : s.readIdx + (r ++ rest).length ≤ readBufferSize) (t : Parser) :
    headRun (s.deliver p) ≠ .ok (.content, t) := by
  rw [List.length_append] at hfit
  rcases List.append_eq_append_iff.mp hp with ⟨mid, rfl, -⟩ | ⟨extra, rfl, rfl⟩
  · by_cases hmid : mid = []
    · subst hmid
      rw [List.append_nil] at h
      obtain ⟨t', hrun, -⟩ := h
      rw [hrun]
      exact stop_ne_content _ t' t
    · obtain ⟨s', hrun⟩ := h.piece hinv hmid (by omega)
      rw [hrun]
      exact stop_ne_content _ s' t
  · rw [List.length_append] at hfit
    obtain ⟨t', hrun, -⟩ := h.behind hinv extra (by rw [List.length_append]; omega)
    rw [hrun]
    exact stop_ne_content _ t' t

end

-- ---------------------------------------------------------------------------
-- Connections without a request
-- ---------------------------------------------------------------------------

/-- The connection is about to receive a request. -/
def HttpConn.Fresh (c : HttpConn) : Prop := ∃ s : Parser, c.parser = s.init

theorem fresh_init (c : HttpConn) : c.init.Fresh := ⟨c.parser, rfl⟩

/-- A response that is sent to the end leaves an object that has read nothing. -/
theorem HandsOver.fresh {c c' : HttpConn} {bs : List UInt8} (h : HandsOver c c' true bs) :
    c'.Fresh := ⟨c.parser, h.parser⟩

section
variable {c : HttpConn} {r : List UInt8}

theorem HttpConn.Fresh.headInv (h : c.Fresh) : HeadInv c.parser := by
  obtain ⟨s, hs⟩ := h
  rw [hs]
  exact headInv_init s

theorem HttpConn.Fresh.readIdx (h : c.Fresh) : c.parser.readIdx = 0 := by
  obtain ⟨s, hs⟩ := h
  rw [hs]
  rfl

/-- A complete request completes what is empty. -/
theorem HttpConn.Fresh.completedBy (h : c.Fresh) (hr : Complete r) : c.parser.CompletedBy r := by
  obtain ⟨s, hs⟩ := h
  rw [hs]
  exact hr.init s

end

/-- An empty request is none. -/
theorem Complete.ne_nil {r : List UInt8} (h : Complete r) : r ≠ [] := by
  rintro rfl
  obtain ⟨t, hrun, -⟩ := h
  cases hrun

theorem flatten_eq_nil {segs : List (List UInt8)} (hsegs : ∀ seg ∈ segs, seg ≠ [])
    (h : segs.flatten = []) : segs = [] := by
  cases segs with
  | nil => rfl
  | cons seg segs =>
    rw [List.flatten_cons, List.append_eq_nil_iff] at h
    exact absurd h.1 (hsegs seg (List.mem_cons_self ..))

-- ---------------------------------------------------------------------------
-- Segments that belong together
-- ---------------------------------------------------------------------------

/-- A segment that fits is read whole. -/
theorem HttpConn.readOnce_data {c : HttpConn} {seg : List UInt8} (hseg : seg ≠ [])
    (hfit : c.parser.readIdx + seg.length ≤ readBufferSize) :
    c.readOnce (.data seg) = ({ c with parser := c.parser.deliver seg }, true) := by
  rw [HttpConn.readOnce, Http.readOnce_data hseg hfit]

/-- `process` depends on the parser by way of `process_read` only. -/
theorem process_congr (w : World) (c : HttpConn) {s s' : Parser}
    (h : Http.processRead s = Http.processRead s') :
    HttpConn.process w { c with parser := s } = HttpConn.process w { c with parser := s' } := by
  unfold HttpConn.process HttpConn.processRead
  dsimp only
  rw [h]

/-- Where the run over the head ends the loop, `process_read` ends. -/
theorem processRead_stop {s s' : Parser} {r : ReadEnd} (hinv : HeadInv s)
    (h : headRun s = .ok (.stop r, s')) : Http.processRead s = .ok (r, s') := by
  have hno : ∀ t, headRun s ≠ .ok (.content, t) := by
    rw [h]
    exact stop_ne_content r s'
  rw [processRead_head hinv hno, h]
  rfl

/-- The object is left to wait for more, with the parser where it is. -/
theorem process_wait (w : World) {c : HttpConn} {s : Parser}
    (h : Http.processRead c.parser = .ok (.code .noRequest, s)) :
    c.process w = .ok (w, { c with parser := s }, .modfd .epollin) := by
  unfold HttpConn.process HttpConn.processRead
  rw [h]
  rfl

/-- **A segment that does not complete the request** can as well come together with the next. -/
theorem converses_merge {w : World} {c : HttpConn} {s' : Parser} {seg next : List UInt8}
    {segs : List (List UInt8)} {replies : List Reply} (hinv : HeadInv c.parser) (hseg : seg ≠ [])
    (hnext : next ≠ []) (hfit : c.parser.readIdx + (seg ++ next).length ≤ readBufferSize)
    (hwait : headRun (c.parser.deliver seg) = .ok (.stop (.code .noRequest), s'))
    (hno : ∀ t, headRun (c.parser.deliver (seg ++ next)) ≠ .ok (.content, t)) :
    Converses w c (seg :: next :: segs) replies ↔
      Converses w c ((seg ++ next) :: segs) replies := by
  have hboth : seg ++ next ≠ [] := List.append_ne_nil_of_left_ne_nil hseg next
  have hread := HttpConn.readOnce_data hboth hfit
  rw [List.length_append, ← Nat.add_assoc] at hfit
  have hfit₁ : c.parser.readIdx + seg.length ≤ readBufferSize := Nat.le_of_add_right_le hfit
  have hinv₁ := hinv.deliver hfit₁
  have hres := headRun_deliver hinv₁ next hfit
  rw [hwait] at hres
  cases hres with
  | done _ _ _ he => exact absurd rfl he
  | wait _ hinv' hhead' hread' hrun =>
    have hfit₂ : s'.readIdx + next.length ≤ readBufferSize := by
      rw [hread']
      exact hfit
    -- `process_read` sees the same bytes
    have hparse : Http.processRead (s'.deliver next) =
        Http.processRead (c.parser.deliver (seg ++ next)) := by
      rw [deliver_append] at hno ⊢
      rw [processRead_head (hinv₁.deliver hfit) hno, hrun]
      refine processRead_head (hinv'.deliver hfit₂) fun t => ?_
      rw [← hrun]
      exact hno t
    have hstop := processRead_stop hinv₁ hwait
    have hread₂ : HttpConn.readOnce { c with parser := s' } (.data next) =
        ({ c with parser := s'.deliver next }, true) := HttpConn.readOnce_data hnext hfit₂
    have hfirst : Converses w c (seg :: next :: segs) replies ↔
        Converses w { c with parser := s' } (next :: segs) replies := by
      rw [Converses, HttpConn.readOnce_data hseg hfit₁]
      dsimp only
      rw [process_wait w hstop]
      constructor
      · rintro ⟨w', c₁, effect, hp, h⟩
        cases hp
        exact h
      · exact fun h => ⟨w, _, _, rfl, h⟩
    rw [hfirst, Converses, Converses, hread₂, hread]
    dsimp only
    rw [process_congr w c hparse]

/-- **The segments that a request arrives in** can as well come together, up to the one that
completes it. -/
theorem converses_gather {c : HttpConn} {r : List UInt8} (hinv : HeadInv c.parser)
    (h : c.parser.CompletedBy r) {segs : List (List UInt8)} {first rest : List UInt8}
    (hfirst : first ≠ []) (hsegs : ∀ seg ∈ segs, seg ≠ [])
    (hflat : first ++ segs.flatten = r ++ rest)
    (hfit : c.parser.readIdx + (r ++ rest).length ≤ readBufferSize) :
    ∃ g extra later, segs = g ++ later ∧ first ++ g.flatten = r ++ extra ∧ extra <+: rest ∧
      ∀ w more replies, Converses w c (first :: segs ++ more) replies ↔
        Converses w c ((r ++ extra) :: later ++ more) replies := by
  induction segs generalizing first with
  | nil =>
    rw [List.flatten_nil, List.append_nil] at hflat
    refine ⟨[], rest, [], rfl, ?_, List.prefix_refl _, fun w more replies => ?_⟩
    · rw [List.flatten_nil, List.append_nil, hflat]
    · rw [hflat]
  | cons seg segs ih =>
    rw [List.forall_mem_cons] at hsegs
    rw [List.flatten_cons, ← List.append_assoc] at hflat
    have hwhole := hflat
    rw [List.append_assoc] at hwhole
    rcases List.append_eq_append_iff.mp hwhole with ⟨mid, hr, hmore⟩ | ⟨extra, rfl, hrest⟩
    · by_cases hmid : mid = []
      · subst hmid
        rw [List.append_nil] at hr
        subst hr
        refine ⟨[], [], seg :: segs, rfl, by simp, List.nil_prefix, fun w more replies => ?_⟩
        rw [List.append_nil]
      · have hlen : (first ++ mid).length ≤ (r ++ rest).length := by
          rw [hr, List.length_append, List.length_append, List.length_append]
          omega
        have hparts : c.parser.CompletedBy (first ++ mid) := hr ▸ h
        obtain ⟨s', hwait⟩ := hparts.piece hinv hmid (by omega)
        have hno := h.not_content hinv hflat hfit
        have hfit' : c.parser.readIdx + (first ++ seg).length ≤ readBufferSize := by
          have := congrArg List.length hflat
          rw [List.length_append] at this
          omega
        obtain ⟨g, extra, later, rfl, hg, hextra, hmerged⟩ := ih
          (List.append_ne_nil_of_left_ne_nil hfirst seg) hsegs.2 hflat
        refine ⟨seg :: g, extra, later, rfl, ?_, hextra, fun w more replies => ?_⟩
        · rw [List.flatten_cons, ← List.append_assoc, hg]
        · rw [← hmerged w more replies]
          exact converses_merge hinv hfirst hsegs.1 hfit' hwait hno
    · refine ⟨[], extra, seg :: segs, rfl, by simp, ?_, fun w more replies => Iff.rfl⟩
      exact ⟨seg ++ segs.flatten, hrest.symm⟩

/-- The segments of the first request, up to the one that completes it. -/
theorem converses_first {c : HttpConn} {r rest : List UInt8} (hc : c.Fresh) (hr : Complete r)
    {segs : List (List UInt8)} (hsegs : ∀ seg ∈ segs, seg ≠ []) (hflat : segs.flatten = r ++ rest)
    (hfit : (r ++ rest).length ≤ readBufferSize) :
    ∃ g extra later, segs = g ++ later ∧ g.flatten = r ++ extra ∧ extra <+: rest ∧
      ∀ w more replies, Converses w c (segs ++ more) replies ↔
        Converses w c ((r ++ extra) :: (later ++ more)) replies := by
  cases segs with
  | nil => exact absurd (List.append_eq_nil_iff.mp hflat.symm).1 hr.ne_nil
  | cons first segs =>
    rw [List.forall_mem_cons] at hsegs
    rw [List.flatten_cons] at hflat
    have hread := hc.readIdx
    obtain ⟨g, extra, later, rfl, hg, hextra, hmerged⟩ := converses_gather hc.headInv
      (hc.completedBy hr) hsegs.1 hsegs.2 hflat (by omega)
    exact ⟨first :: g, extra, later, rfl, hg, hextra, hmerged⟩

/-- The segments of a request that ends with a segment can as well come together. -/
theorem converses_group {w : World} {c : HttpConn} {g segs : List (List UInt8)}
    {replies : List Reply} (hc : c.Fresh) (hcomplete : Complete g.flatten)
    (hg : ∀ seg ∈ g, seg ≠ []) (hfit : g.flatten.length ≤ readBufferSize) :
    Converses w c (g ++ segs) replies ↔ Converses w c (g.flatten :: segs) replies := by
  have hwhole : g.flatten = g.flatten ++ [] := (List.append_nil _).symm
  obtain ⟨g', extra, later, hsplit, hflat, hextra, hmerged⟩ := converses_first hc hcomplete hg
    hwhole (by rw [List.append_nil]; exact hfit)
  obtain rfl := List.prefix_nil.mp hextra
  have hlater : later = [] := by
    refine flatten_eq_nil (fun seg hseg => hg seg ?_) ?_
    · rw [hsplit]
      exact List.mem_append_right _ hseg
    · rw [hsplit, List.flatten_append, List.append_nil] at hflat
      exact List.self_eq_append_right.mp hflat
  rw [hlater, List.append_nil] at hmerged
  exact hmerged w segs replies

-- ---------------------------------------------------------------------------
-- The reply to a complete request
-- ---------------------------------------------------------------------------

/-- `do_request` takes no bytes off the buffer. -/
theorem resolve_indices {w : World} {s : Parser} {real : Mem} {r : World × Parser × Mem}
    (h : resolve w s real = .ok r) :
    r.2.1.readIdx = s.readIdx ∧ r.2.1.checkedIdx = s.checkedIdx := by
  obtain ⟨buf, hr, -⟩ := resolve_buffer h
  rw [hr]
  exact ⟨rfl, rfl⟩

/-- A request that `process_read` has completed is answered, or the connection is closed. The bytes
behind it stay where they are. -/
theorem process_doRequest {w w' : World} {c c' : HttpConn} {effect : ProcessEffect} {t : Parser}
    (hrun : Http.processRead c.parser = .ok (.doRequest, t))
    (h : c.process w = .ok (w', c', effect)) :
    effect ≠ .modfd .epollin ∧ c'.parser.readIdx = t.readIdx ∧
      c'.parser.checkedIdx = t.checkedIdx := by
  obtain ⟨c₁, code, hread, hanswer⟩ := process_ok_iff.mp h
  rcases processRead_cases hread with ⟨s, hparse, -⟩ | ⟨s, s', real, path, hparse, hresolve, -,
    hopen⟩
  · rw [hrun] at hparse
    cases hparse
  · rw [hrun] at hparse
    cases hparse
    have hindices := resolve_indices hresolve
    have hcode := openFile_code w' { c with parser := s', realFile := real } path
    have hparser := parser_openFile w' { c with parser := s', realFile := real } path
    rw [hopen] at hcode hparser
    have hkept := parser_answer c₁ code
    rw [hanswer] at hkept
    rw [show c'.parser = s' from hkept.trans hparser]
    refine ⟨?_, hindices⟩
    have hend : (c₁.answer code).2 ≠ .modfd .epollin := by
      cases hok : (c₁.processWrite code).2 with
      | true =>
        rw [answer_ok hcode hok]
        nofun
      | false =>
        rw [answer_failed hcode hok]
        nofun
    rw [hanswer] at hend
    exact hend

/-- What `Converses` says of a reply that is sent. -/
structure Replied (w : World) (c : HttpConn) (bs : List UInt8) (segs : List (List UInt8))
    (reply : Reply) (replies : List Reply) (w' : World) (c₁ c₂ : HttpConn) (ok : Bool) : Prop where
  process : HttpConn.process w { c with parser := c.parser.deliver bs } =
    .ok (w', c₁, .modfd .epollout)
  handsOver : HandsOver c₁ c₂ ok reply.sent
  reply : reply = c₁.reply reply.sent
  later : if ok then Converses w' c₂ segs replies else replies = []

/-- **The reply to a complete request**: the bytes behind it are dropped. -/
theorem converses_completed {w : World} {c : HttpConn} {r extra : List UInt8}
    {segs : List (List UInt8)} {replies : List Reply} (hc : c.Fresh) (hr : Complete r)
    (hlen : (r ++ extra).length ≤ readBufferSize) :
    Converses w c ((r ++ extra) :: segs) replies ↔
      (∃ reply rest w' c₁ c₂ ok, replies = reply :: rest ∧ reply.dropped = extra.length ∧
        Replied w c (r ++ extra) segs reply rest w' c₁ c₂ ok) ∨
      (∃ w' c₁, HttpConn.process w { c with parser := c.parser.deliver (r ++ extra) } =
        .ok (w', c₁, .closeConn) ∧ replies = []) := by
  have hne : r ++ extra ≠ [] := List.append_ne_nil_of_left_ne_nil hr.ne_nil extra
  have hinv := hc.headInv
  have hfit : c.parser.readIdx + (r ++ extra).length ≤ readBufferSize := by
    rw [hc.readIdx, Nat.zero_add]
    exact hlen
  obtain ⟨t, hrun, hdropped⟩ := (hc.completedBy hr).behind hinv extra hfit
  have hparse := processRead_stop (hinv.deliver hfit) hrun
  rw [Converses, HttpConn.readOnce_data hne hfit]
  dsimp only
  constructor
  · rintro ⟨w', c₁, effect, hprocess, hends⟩
    obtain ⟨heffect, hread, hchecked⟩ := process_doRequest hparse hprocess
    cases effect with
    | closeConn => exact Or.inr ⟨w', c₁, hprocess, hends⟩
    | modfd ev =>
      cases ev with
      | epollin => exact absurd rfl heffect
      | epollout =>
        obtain ⟨c₂, ok, sent, rest, ht, rfl, hrest⟩ := hends
        refine Or.inl ⟨c₁.reply sent, rest, w', c₁, c₂, ok, rfl, ?_, hprocess, ht, rfl, hrest⟩
        change c₁.parser.readIdx - c₁.parser.checkedIdx = extra.length
        omega
  · rintro (⟨reply, rest, w', c₁, c₂, ok, rfl, -, hreplied⟩ | ⟨w', c₁, hprocess, rfl⟩)
    · exact ⟨w', c₁, _, hreplied.process, c₂, ok, reply.sent, rest, hreplied.handsOver,
        congrArg (· :: rest) hreplied.reply, hreplied.later⟩
    · exact ⟨w', c₁, _, hprocess, rfl⟩

/-- Twins that reply to the same bytes are twins again. -/
theorem Replied.twin {w w₁ w₂ : World} {c c' c₁ c₁' c₂ c₂' : HttpConn} {bs : List UInt8}
    {segs segs' : List (List UInt8)} {reply reply' : Reply} {rest rest' : List Reply}
    {ok ok' : Bool} (h : Replied w c bs segs reply rest w₁ c₁ c₂ ok)
    (h' : Replied w c' bs segs' reply' rest' w₂ c₁' c₂' ok') (htwin : Twin c c') :
    w₁ = w₂ ∧ ok = ok' ∧ (ok = true → Twin c₂ c₂') := by
  have hparser : Twin { c with parser := c.parser.deliver bs }
      { c' with parser := c'.parser.deliver bs } := by
    rw [← htwin.parser]
    exact htwin.withParser _
  obtain ⟨hw, -, htwin₁, -⟩ := process_twin hparser h.process h'.process
  exact ⟨hw, handsOver_twin htwin₁ h.handsOver h'.handsOver⟩

-- ---------------------------------------------------------------------------
-- One request after another
-- ---------------------------------------------------------------------------

/-- The replies to requests that end with segments are those to the requests, arriving alone. -/
theorem converses_groups {groups : List (List (List UInt8))}
    (hcomplete : ∀ g ∈ groups, Complete g.flatten) (hsegs : ∀ g ∈ groups, ∀ seg ∈ g, seg ≠ [])
    (hfit : (groups.map List.flatten).flatten.length ≤ readBufferSize) {w : World} {c : HttpConn}
    (hc : c.Fresh) {replies : List Reply} :
    Converses w c groups.flatten replies ↔ Converses w c (groups.map List.flatten) replies := by
  induction groups generalizing w c replies with
  | nil => exact Iff.rfl
  | cons g groups ih =>
    rw [List.forall_mem_cons] at hcomplete hsegs
    rw [List.map_cons, List.flatten_cons, List.length_append] at hfit
    have hstep (segs : List (List UInt8)) (replies : List Reply) :
        Converses w c ((g.flatten ++ []) :: segs) replies ↔ _ :=
      converses_completed hc hcomplete.1 (by rw [List.append_nil]; omega)
    rw [List.append_nil] at hstep
    -- only what comes behind the first reply is different
    have hlater {reply : Reply} {rest : List Reply} {w' : World} {c₁ c₂ : HttpConn} {ok : Bool} :
        Replied w c g.flatten groups.flatten reply rest w' c₁ c₂ ok ↔
          Replied w c g.flatten (groups.map List.flatten) reply rest w' c₁ c₂ ok := by
      have hrest (hover : HandsOver c₁ c₂ ok reply.sent) :
          (if ok then Converses w' c₂ groups.flatten rest else rest = []) ↔
            if ok then Converses w' c₂ (groups.map List.flatten) rest else rest = [] := by
        cases ok with
        | false => exact Iff.rfl
        | true => exact ih hcomplete.2 hsegs.2 (by omega) hover.fresh
      constructor
      · exact fun h => ⟨h.process, h.handsOver, h.reply, (hrest h.handsOver).mp h.later⟩
      · exact fun h => ⟨h.process, h.handsOver, h.reply, (hrest h.handsOver).mpr h.later⟩
    rw [List.flatten_cons, converses_group hc hcomplete.1 hsegs.1 (by omega), hstep,
      List.map_cons, hstep]
    simp only [hlater]

/-- Where the replies to the segments are those to the requests, the requests end with segments. -/
theorem aligned_of_converses {requests segs : List (List UInt8)}
    (hcomplete : ∀ r ∈ requests, Complete r) (hsegs : ∀ seg ∈ segs, seg ≠ [])
    (hflat : segs.flatten = requests.flatten) (hfit : requests.flatten.length ≤ readBufferSize)
    {w : World} {c c' : HttpConn} (hc : c.Fresh) (htwin : Twin c c') {replies : List Reply}
    (hlen : replies.length = requests.length) (hr : Converses w c requests replies)
    (hs : Converses w c' segs replies) : Aligned requests segs := by
  induction requests generalizing segs w c c' replies with
  | nil =>
    obtain rfl := flatten_eq_nil hsegs hflat
    exact ⟨[], rfl, rfl⟩
  | cons r requests ih =>
    rw [List.forall_mem_cons] at hcomplete
    rw [List.flatten_cons] at hflat hfit
    have hc' : c'.Fresh := by
      obtain ⟨s, h⟩ := hc
      exact ⟨s, htwin.parser.symm.trans h⟩
    obtain ⟨g, extra, later, rfl, hg, hextra, hmerged⟩ := converses_first hc' hcomplete.1 hsegs
      hflat hfit
    rw [List.length_append] at hfit
    have hlen₁ : (r ++ []).length ≤ readBufferSize := by
      rw [List.append_nil]
      omega
    have hlen₂ : (r ++ extra).length ≤ readBufferSize := by
      have := hextra.length_le
      rw [List.length_append]
      omega
    rw [← List.append_nil (g ++ later), hmerged, List.append_nil,
      converses_completed hc' hcomplete.1 hlen₂] at hs
    rw [← List.append_nil r, converses_completed hc hcomplete.1 hlen₁] at hr
    rcases hr with ⟨reply, rest, w₁, c₁, c₂, ok, rfl, hdropped, hreplied⟩ | ⟨-, -, -, rfl⟩
    swap
    · cases hlen
    rcases hs with ⟨reply', rest', w₂, c₁', c₂', ok', hsame, hdropped', hreplied'⟩ |
      ⟨-, -, -, hnone⟩
    swap
    · cases hnone
    cases hsame
    -- nothing is dropped, so the request ends with its last segment
    obtain rfl : extra = [] := List.eq_nil_of_length_eq_zero (hdropped'.symm.trans hdropped)
    obtain ⟨rfl, rfl, htwin₂⟩ := hreplied.twin hreplied' htwin
    rw [List.append_nil] at hg
    have hrest : later.flatten = requests.flatten := by
      rw [List.flatten_append, hg] at hflat
      exact List.append_cancel_left hflat
    have hlater : ∀ seg ∈ later, seg ≠ [] := fun seg hseg =>
      hsegs seg (List.mem_append_right _ hseg)
    have hends : Aligned requests later := by
      have hr := hreplied.later
      have hs := hreplied'.later
      rw [List.length_cons, List.length_cons, Nat.add_right_cancel_iff] at hlen
      cases ok with
      | true =>
        exact ih hcomplete.2 hlater hrest (by omega) hreplied.handsOver.fresh (htwin₂ rfl) hlen hr
          hs
      | false =>
        obtain rfl : rest = [] := hr
        obtain rfl := List.eq_nil_of_length_eq_zero hlen.symm
        obtain rfl := flatten_eq_nil hlater hrest
        exact ⟨[], rfl, rfl⟩
    obtain ⟨groups, rfl, rfl⟩ := hends
    exact ⟨g :: groups, rfl, by rw [List.map_cons, hg]⟩

section
variable {c : HttpConn} {requests segs : List (List UInt8)}

/-- **Keep-alive.** However the bytes of the requests are cut into segments, and however much each
`writev` sends, every request is answered as if it came alone if and only if it is answered when it
does, and every request ends with a segment. -/
theorem answeredInTurn_iff (w : World) (c : HttpConn) (hcomplete : ∀ r ∈ requests, Complete r)
    (hflat : segs.flatten = requests.flatten) (hsegs : ∀ seg ∈ segs, seg ≠ [])
    (hfit : requests.flatten.length ≤ readBufferSize) :
    AnsweredInTurn w c.init requests segs ↔
      AnsweredAlone w c.init requests ∧ Aligned requests segs := by
  constructor
  · rintro ⟨replies, hr, hlen, hs⟩
    exact ⟨⟨replies, hr, hlen⟩, aligned_of_converses hcomplete hsegs hflat hfit (fresh_init c)
      (Eq.refl _) hlen hr.reached hs.reached⟩
  · rintro ⟨⟨replies, hr, hlen⟩, groups, rfl, rfl⟩
    have hsame (replies : List Reply) : Converses w c.init groups.flatten replies ↔
        Converses w c.init (groups.map List.flatten) replies := by
      refine converses_groups ?_ ?_ hfit (fresh_init c)
      · exact fun g hg => hcomplete _ (List.mem_map_of_mem hg)
      · exact fun g hg seg hseg => hsegs seg (List.mem_flatten.mpr ⟨g, hg, hseg⟩)
    refine ⟨replies, hr, hlen, (hsame _).mpr hr.reached, fun replies' h => ?_, hr.whole⟩
    exact hr.only replies' ((hsame _).mp h)

/-- **Where the files can be mapped** and their sizes fit the counters of `write`, there is nothing
more to show for a request that arrives alone than that it gets a reply. -/
theorem answers_of_servable {w : World} (hserv : w.Servable) {replies : List Reply}
    (h : Converses w c.init requests replies) : Answers w c.init requests replies where
  reached := h
  only := fun _ h' => ((converses_unique hserv ⟨rfl, rfl⟩ h h').1).symm
  whole := (converses_unique hserv ⟨rfl, rfl⟩ h h).2

end

instance decidableHeadOk (H : Nat) : ∀ (c σ : Nat) (ns : List Nat), Decidable (HeadOk H c σ ns)
  | _, _, [] => inferInstanceAs (Decidable True)
  | c, σ, n :: ns =>
    have := decidableHeadOk H (c + n) (σ + (c + n)) ns
    inferInstanceAs (Decidable (_ ∧ _))

/-- `Complete`, evaluated. -/
def completeCheck (r : List UInt8) : Bool :=
  match headRun (Parser.constructed.init.deliver r) with
  | .ok (.stop .doRequest, t) => t.checkedIdx == t.readIdx
  | _ => false

theorem complete_of_check {r : List UInt8} (h : completeCheck r = true) : Complete r := by
  unfold completeCheck at h
  split at h
  · rename_i t hrun
    exact ⟨t, hrun, beq_iff_eq.mp h⟩
  · cases h

/-- `Converses`, evaluated: with each segment come the results of the `writev` calls of the `write`
that sends the response. -/
def converse : World → HttpConn → List (List UInt8 × List Writev) → Option (List Reply)
  | _, _, [] => some []
  | w, c, (seg, outs) :: rest =>
    match c.readOnce (.data seg) with
    | (_, false) => some []
    | (c, true) =>
      match c.process w with
      | .error _ => none
      | .ok (_, _, .closeConn) => some []
      | .ok (w, c, .modfd .epollin) => converse w c rest
      | .ok (w, c, .modfd .epollout) =>
        if HeadOk c.writeBuf.length 0 0 (counts [outs].flatten) then
          match c.write outs, (Outgoing.mk c [outs]).stream with
          | some ⟨c', _, some .epollin, true⟩, some sent =>
            (converse w c' rest).map (c.reply sent :: ·)
          | some ⟨_, _, some .epollin, false⟩, some sent => some [c.reply sent]
          | _, _ => none
        else none

/-- What the plan computes is a conversation. -/
theorem converses_of_converse {plan : List (List UInt8 × List Writev)} {w : World} {c : HttpConn}
    {replies : List Reply} (h : converse w c plan = some replies) :
    Converses w c (plan.map Prod.fst) replies := by
  induction plan generalizing w c replies with
  | nil => exact (Option.some.inj h).symm
  | cons call plan ih =>
    obtain ⟨seg, outs⟩ := call
    rw [converse] at h
    rw [List.map_cons, Converses]
    split at h
    · rename_i hread
      rw [hread]
      exact (Option.some.inj h).symm
    · rename_i c₁ hread
      rw [hread]
      dsimp only
      split at h
      · cases h
      · rename_i hprocess
        exact ⟨_, _, _, hprocess, (Option.some.inj h).symm⟩
      · rename_i hprocess
        exact ⟨_, _, _, hprocess, ih h⟩
      · rename_i w₁ c₂ hprocess
        refine ⟨_, _, _, hprocess, ?_⟩
        split at h
        · rename_i hok
          split at h
          · rename_i hwrite hstream
            obtain ⟨rest, hrest, rfl⟩ := Option.map_eq_some_iff.mp h
            exact ⟨_, true, _, rest, ⟨[outs], .done hwrite rfl, hok, hstream⟩, rfl, ih hrest⟩
          · rename_i hwrite hstream
            obtain rfl := Option.some.inj h
            exact ⟨_, false, _, [], ⟨[outs], .done hwrite rfl, hok, hstream⟩, rfl, rfl⟩
          · cases h
        · cases h

/-- There are no more replies than segments. -/
theorem Converses.length_le {w : World} {c : HttpConn} {segs : List (List UInt8)}
    {replies : List Reply} (h : Converses w c segs replies) : replies.length ≤ segs.length := by
  induction segs generalizing w c replies with
  | nil =>
    obtain rfl : replies = [] := h
    exact Nat.le_refl 0
  | cons seg segs ih =>
    rw [Converses] at h
    split at h
    · subst h
      exact Nat.zero_le _
    · obtain ⟨w', c₁, effect, -, h⟩ := h
      split at h
      · exact Nat.le_succ_of_le (ih h)
      · obtain ⟨c₂, ok, sent, rest, -, rfl, hrest⟩ := h
        refine Nat.succ_le_succ ?_
        cases ok with
        | true => exact ih hrest
        | false =>
          obtain rfl : rest = [] := hrest
          exact Nat.zero_le _
      · subst h
        exact Nat.zero_le _

def keepAliveRequest : List UInt8 := bytes "GET /1 HTTP/1.1\r\nConnection: keep-alive\r\n\r\n"

theorem complete_keepAliveRequest : ∀ r ∈ [keepAliveRequest, keepAliveRequest], Complete r := by
  have h : Complete keepAliveRequest := complete_of_check (by decide +kernel)
  intro r hr
  obtain rfl : r = keepAliveRequest := by simpa using hr
  exact h

theorem onePage_servable : onePage.Servable := by
  intro path node hnode _ _ _
  simp only [onePage] at hnode
  split at hnode
  · obtain rfl := Option.some.inj hnode
    exact ⟨rfl, by decide⟩
  · cases hnode

theorem answeredAlone_keepAliveRequest :
    AnsweredAlone onePage HttpConn.constructed.init [keepAliveRequest, keepAliveRequest] := by
  have hlen : (converse onePage HttpConn.constructed.init
      [(keepAliveRequest, [.sent 62]), (keepAliveRequest, [.sent 62])]).map List.length =
        some 2 := by
    decide +kernel
  obtain ⟨replies, h, htwo⟩ := Option.map_eq_some_iff.mp hlen
  exact ⟨replies, answers_of_servable onePage_servable (converses_of_converse h), htwo⟩

/-- The first of two requests comes in two segments. -/
theorem answeredInTurn_cut :
    AnsweredInTurn onePage HttpConn.constructed.init [keepAliveRequest, keepAliveRequest]
      [keepAliveRequest.take 10, keepAliveRequest.drop 10, keepAliveRequest] :=
  (answeredInTurn_iff onePage HttpConn.constructed complete_keepAliveRequest (by decide +kernel)
    (by decide +kernel) (by decide +kernel)).mpr
    ⟨answeredAlone_keepAliveRequest,
      [[keepAliveRequest.take 10, keepAliveRequest.drop 10], [keepAliveRequest]], rfl,
      by decide +kernel⟩

/-- Two requests in one segment get one response. -/
theorem not_answeredInTurn : ¬ ∀ (w : World) (c : HttpConn) (requests segs : List (List UInt8)),
    (∀ r ∈ requests, Complete r) → AnsweredAlone w c.init requests →
    segs.flatten = requests.flatten → (∀ seg ∈ segs, seg ≠ []) →
    requests.flatten.length ≤ readBufferSize → AnsweredInTurn w c.init requests segs := by
  intro hall
  obtain ⟨replies, -, hlen, hs⟩ := hall onePage HttpConn.constructed
    [keepAliveRequest, keepAliveRequest] [keepAliveRequest ++ keepAliveRequest]
    complete_keepAliveRequest answeredAlone_keepAliveRequest (by decide +kernel)
    (by decide +kernel) (by decide +kernel)
  have hle := hs.reached.length_le
  rw [hlen] at hle
  exact absurd hle (by decide)

end TinyHTTP.Http
