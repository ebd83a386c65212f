import TinyHTTP.Http.Outgoing

/-!
# TinyHTTP — a connection from its first byte on

What the client gets when its bytes arrive in segments: one `read_once` and one
`process` for each, and the calls of `write` for each response, with the bytes that they
hand to the socket. `init` then starts over with an empty buffer, whatever has not been
looked at. Calls of `write` whose counts spoil a head are left out: what they send is
the subject of `send_exact`.

* `HandsOver.whole` — what is handed to the socket is the response that was prepared.
* `converses_unique` — the replies depend on the segments only, and not on how much
  each `writev` sends.
-/

namespace TinyHTTP.Http

open TinyHTTP.Lib

/-- The calls of `write` that send a response, by the results of their `writev`s, and the result
of the last. -/
inductive Transmits : HttpConn → List (List Writev) → HttpConn → Bool → Prop
  | again {c c' : HttpConn} {ok : Bool} {outs : List Writev} {calls : List (List Writev)}
      {r : WriteResult} (h : c.write outs = some r) (harmed : r.armed = some .epollout)
      (ht : Transmits r.conn calls c' ok) : Transmits c (outs :: calls) c' ok
  | done {c : HttpConn} {outs : List Writev} {r : WriteResult}
      (h : c.write outs = some r) (harmed : r.armed = some .epollin) :
      Transmits c [outs] r.conn r.ok

/-- The calls of `write` that send the response in `c` hand the bytes `bs` to the socket. No count
spoils the head. -/
def HandsOver (c c' : HttpConn) (ok : Bool) (bs : List UInt8) : Prop :=
  ∃ calls, Transmits c calls c' ok ∧ HeadOk c.writeBuf.length 0 0 (counts calls.flatten) ∧
    (Outgoing.mk c calls).stream = some bs

/-- What is sent for a request. -/
structure Reply where
  /-- the bytes that the calls of `write` have handed to the socket -/
  sent : List UInt8
  /-- the response that `process_write` has prepared -/
  prepared : Option (List UInt8)
  /-- how many bytes have been received and not looked at -/
  dropped : Nat
  deriving DecidableEq

/-- The reply, when `sent` has been handed to the socket. -/
def HttpConn.reply (c : HttpConn) (sent : List UInt8) : Reply :=
  ⟨sent, c.described, c.parser.readIdx - c.parser.checkedIdx⟩

/-- The client gets the response, and nothing else. -/
def Reply.Whole (r : Reply) : Prop := r.prepared = some r.sent

/-- The client sends the segments, and gets the replies. A response after which `write` returns
false is the last, and a `close_conn` takes its place. -/
def Converses : World → HttpConn → List (List UInt8) → List Reply → Prop
  | _, _, [], replies => replies = []
  | w, c, seg :: segs, replies =>
    match c.readOnce (.data seg) with
    | (_, false) => replies = []
    | (c, true) => ∃ w' c₁ effect, c.process w = .ok (w', c₁, effect) ∧
      match effect with
      | .modfd .epollin => Converses w' c₁ segs replies
      | .modfd .epollout => ∃ c₂ ok sent rest, HandsOver c₁ c₂ ok sent ∧
          replies = c₁.reply sent :: rest ∧ if ok then Converses w' c₂ segs rest else rest = []
      | .closeConn => replies = []

-- ---------------------------------------------------------------------------
-- Objects that differ in m_iv
-- ---------------------------------------------------------------------------

def HttpConn.clearIov (c : HttpConn) : HttpConn :=
  { c with iv0 := ⟨.writeBuf 0, 0⟩, iv1 := ⟨.writeBuf 0, 0⟩, ivCount := 0 }

/-- The objects differ in `m_iv` and `m_iv_count` at most. -/
def Twin (c c' : HttpConn) : Prop := c.clearIov = c'.clearIov

theorem Twin.eq {c c' : HttpConn} (h : Twin c c') : c.clearIov = c'.clearIov := h

theorem twin_clearIov (c : HttpConn) : Twin c.clearIov c := rfl

/-- What `process_read` works on is the same. -/
theorem Twin.parser {c c' : HttpConn} (h : Twin c c') : c.parser = c'.parser := by
  have heq := congrArg HttpConn.parser h.eq
  exact heq

theorem Twin.bytesToSend {c c' : HttpConn} (h : Twin c c') : c.bytesToSend = c'.bytesToSend := by
  have heq := congrArg HttpConn.bytesToSend h.eq
  exact heq

/-- Nothing has been sent of the one when nothing has been sent of the other. -/
theorem Twin.unsent {c c' : HttpConn} (h : Twin c c') (hc : c.Unsent) : c'.Unsent := by
  have hbuf := congrArg HttpConn.writeBuf h.eq
  have hsend := congrArg HttpConn.bytesHaveSend h.eq
  exact ⟨hbuf.symm.trans hc.1, hsend.symm.trans hc.2⟩

/-- `read_once` does not look at `m_iv`. -/
theorem Twin.readOnce {c c' : HttpConn} (h : Twin c c') (recv : Recv) :
    (c.readOnce recv).2 = (c'.readOnce recv).2 ∧ Twin (c.readOnce recv).1 (c'.readOnce recv).1 := by
  have hfst (d : HttpConn) : (d.readOnce recv).1.clearIov = (d.clearIov.readOnce recv).1 := rfl
  have hsnd (d : HttpConn) : (d.readOnce recv).2 = (d.clearIov.readOnce recv).2 := rfl
  refine ⟨by rw [hsnd c, hsnd c', h.eq], ?_⟩
  rw [Twin, hfst c, hfst c', h.eq]

theorem Twin.withParser {c c' : HttpConn} (h : Twin c c') (s : Parser) :
    Twin { c with parser := s } { c' with parser := s } := by
  have heq := congrArg (fun d : HttpConn => { d with parser := s }) h.eq
  exact heq

/-- `init` leaves `m_iv` as it is, so twins stay twins and are not made equal. -/
theorem Twin.init {c c' : HttpConn} (h : Twin c c') : Twin c.init c'.init := by
  have hinit (d : HttpConn) : d.init.clearIov = d.clearIov.init := rfl
  rw [Twin, hinit c, hinit c', h.eq]

theorem Twin.unmap {c c' : HttpConn} (h : Twin c c') : Twin c.unmap c'.unmap := by
  have hunmap (d : HttpConn) : d.unmap.clearIov = d.clearIov.unmap := rfl
  rw [Twin, hunmap c, hunmap c', h.eq]

/-- `process_read` neither reads nor sets `m_iv`: neither in the parser nor in `do_request`, which
maps the file. -/
theorem processRead_clearIov (w : World) (c : HttpConn) :
    c.clearIov.processRead w = (c.processRead w).map fun r => (r.1, r.2.1.clearIov, r.2.2) := by
  unfold HttpConn.processRead
  rw [show c.clearIov.parser = c.parser from rfl]
  cases Http.processRead c.parser with
  | error f => rfl
  | ok r =>
    obtain ⟨e, s⟩ := r
    cases e with
    | code code => rfl
    | doRequest =>
      simp only [bind, Except.bind, HttpConn.doRequest]
      rw [show ({ c.clearIov with parser := s } : HttpConn).realFile = c.realFile from rfl]
      cases resolve w s c.realFile with
      | error f => rfl
      | ok r =>
        obtain ⟨w', s', real⟩ := r
        dsimp only
        cases cstring real filenameLen 0 with
        | error f => rfl
        | ok path =>
          simp only [HttpConn.openFile]
          cases w'.file path with
          | none => rfl
          | some node =>
            dsimp only
            split
            · rfl
            split
            · rfl
            · rfl

/-- The text goes to the write buffer, and what is refused is refused by its length alone. -/
theorem addResponse_clearIov (c : HttpConn) (text : List UInt8) :
    c.clearIov.addResponse text = ((c.addResponse text).1.clearIov, (c.addResponse text).2) := by
  unfold HttpConn.addResponse
  rw [show c.clearIov.writeBuf = c.writeBuf from rfl]
  split
  · rfl
  split
  · rfl
  · rfl

theorem addHeaders_clearIov (c : HttpConn) (n : Int) :
    c.clearIov.addHeaders n = (c.addHeaders n).clearIov := by
  unfold HttpConn.addHeaders HttpConn.addContentLength HttpConn.addLinger HttpConn.addBlankLine
  rw [addResponse_clearIov]
  dsimp only
  rw [show (c.addResponse (contentLengthLine n)).1.clearIov.parser =
    (c.addResponse (contentLengthLine n)).1.parser from rfl, addResponse_clearIov,
    addResponse_clearIov]

/-- The two ends of `process_write`: the same result and the same response. -/
structure SameAnswer (r r' : HttpConn × Bool) : Prop where
  ok : r.2 = r'.2
  twin : Twin r.1 r'.1
  described : r.2 = true → r.1.described = r'.1.described

/-- An error page is in the write buffer, and `m_iv` is set to it at the end. -/
theorem sameAnswer_addError (c : HttpConn) (status : Nat) (title form : List UInt8) :
    SameAnswer (c.clearIov.addError status title form) (c.addError status title form) := by
  unfold HttpConn.addError HttpConn.addStatusLine HttpConn.addContent
  rw [addResponse_clearIov]
  dsimp only
  rw [addHeaders_clearIov, addResponse_clearIov]
  generalize ((c.addResponse (statusLine status title)).1.addHeaders form.length).addResponse
    form = r
  obtain ⟨d, ok⟩ := r
  cases ok with
  | false => exact ⟨rfl, rfl, nofun⟩
  | true =>
    refine ⟨rfl, rfl, fun _ => ?_⟩
    exact (described_useWriteBuf d.clearIov).trans (described_useWriteBuf d).symm

/-- Every branch of `process_write` that returns true sets `m_iv` before it does, so nothing is left
of what it was. The branch of an empty file returns false after its text: there is nothing to
describe then. -/
theorem sameAnswer_processWrite (c : HttpConn) (code : HttpCode) :
    SameAnswer (c.clearIov.processWrite code) (c.processWrite code) := by
  unfold HttpConn.processWrite
  cases code with
  | internalError => exact sameAnswer_addError c 500 error500Title error500Form
  | badRequest => exact sameAnswer_addError c 404 error404Title error404Form
  | forbiddenRequest => exact sameAnswer_addError c 403 error403Title error403Form
  | fileRequest =>
    dsimp only
    unfold HttpConn.addStatusLine
    rw [addResponse_clearIov]
    dsimp only
    generalize (c.addResponse (statusLine 200 ok200Title)).1 = d
    rw [show d.clearIov.fileStat = d.fileStat from rfl, addHeaders_clearIov, addHeaders_clearIov]
    by_cases hsize : d.fileStat.size = 0
    · rw [if_neg (fun h => h hsize), if_neg (fun h => h hsize)]
      refine ⟨rfl, ?_, nofun⟩
      unfold HttpConn.addContent
      rw [addResponse_clearIov]
      exact twin_clearIov _
    · rw [if_pos hsize, if_pos hsize]
      generalize d.addHeaders (toInt32 d.fileStat.size) = e
      exact ⟨rfl, rfl, fun _ => rfl⟩
  | noRequest | getRequest | noResource | closedConnection => exact ⟨rfl, rfl, nofun⟩

/-- Twins answer alike: both answer like their common `clearIov`. -/
theorem Twin.sameAnswer {c c' : HttpConn} (h : Twin c c') (code : HttpCode) :
    SameAnswer (c.processWrite code) (c'.processWrite code) := by
  have hc := sameAnswer_processWrite c code
  have hc' := sameAnswer_processWrite c' code
  rw [← h.eq] at hc'
  refine ⟨hc.ok.symm.trans hc'.ok, hc.twin.eq.symm.trans hc'.twin.eq, fun hok => ?_⟩
  rw [← hc.ok] at hok
  exact (hc.described hok).symm.trans (hc'.described hok)

/-- `process` behind `process_read`. Where it arms the socket for `EPOLLOUT`, the two responses are
described by the same bytes. -/
theorem answer_twin {c c' : HttpConn} (h : Twin c c') (code : HttpCode) :
    (c.answer code).2 = (c'.answer code).2 ∧ Twin (c.answer code).1 (c'.answer code).1 ∧
      ((c.answer code).2 = .modfd .epollout → ∀ sent,
        (c.answer code).1.reply sent = (c'.answer code).1.reply sent) := by
  have hanswer := h.sameAnswer code
  unfold HttpConn.answer
  split
  · exact ⟨rfl, h, nofun⟩
  · generalize c.processWrite code = r at hanswer
    generalize c'.processWrite code = r' at hanswer
    obtain ⟨d, ok⟩ := r
    obtain ⟨d', ok'⟩ := r'
    obtain ⟨hok, htwin, hdescribed⟩ := hanswer
    obtain rfl : ok = ok' := hok
    cases ok with
    | false => exact ⟨rfl, htwin, nofun⟩
    | true =>
      refine ⟨rfl, htwin, fun _ sent => ?_⟩
      have hparser : d.parser = d'.parser := htwin.parser
      have hsame : d.described = d'.described := hdescribed rfl
      dsimp only
      rw [HttpConn.reply, HttpConn.reply, hparser, hsame]

/-- Twins have twin results, and the same reply if the same is sent. -/
theorem process_twin {w w₁ w₂ : World} {c c' d d' : HttpConn} {effect effect' : ProcessEffect}
    (h : Twin c c') (hd : c.process w = .ok (w₁, d, effect))
    (hd' : c'.process w = .ok (w₂, d', effect')) :
    w₁ = w₂ ∧ effect = effect' ∧ Twin d d' ∧
      (effect = .modfd .epollout → ∀ sent, d.reply sent = d'.reply sent) := by
  obtain ⟨c₁, code, hread, hanswer⟩ := process_ok_iff.mp hd
  obtain ⟨c₁', code', hread', hanswer'⟩ := process_ok_iff.mp hd'
  have hc := processRead_clearIov w c
  have hc' := processRead_clearIov w c'
  rw [hread] at hc
  rw [hread', ← h.eq, hc] at hc'
  simp only [Except.map, Except.ok.injEq, Prod.mk.injEq] at hc'
  obtain ⟨rfl, htwin, rfl⟩ := hc'
  obtain ⟨heffect, htwin', hreply⟩ := answer_twin htwin code
  rw [hanswer, hanswer'] at heffect htwin' hreply
  exact ⟨rfl, heffect, htwin', hreply⟩

-- ---------------------------------------------------------------------------
-- What is left when a response is sent
-- ---------------------------------------------------------------------------

/-- `r` is left behind by `write`, for the response in `c`. -/
structure WriteLeaves (c : HttpConn) (r : WriteResult) : Prop where
  done : r.armed = some .epollin → r.ok = c.parser.linger ∧ (r.ok = true → Twin r.conn c.unmap.init)
  again : r.armed = some .epollout →
    r.conn.parser = c.parser ∧ r.conn.bytesToSend ≠ 0 ∧ Twin r.conn.unmap.init c.unmap.init

theorem parser_advance (c : HttpConn) (n : Nat) : (c.advance n).parser = c.parser := by
  unfold HttpConn.advance
  dsimp only
  split
  · rfl
  · rfl

/-- What a `writev` sends changes only the fields that `init` sets, and `m_iv`. -/
theorem twin_advance (c : HttpConn) (n : Nat) : Twin (c.advance n).unmap.init c.unmap.init := by
  unfold HttpConn.advance
  dsimp only
  split
  · rfl
  · rfl

/-- The loop of `write` ends with everything sent, with `EAGAIN` or with an error; the connection
goes on in the first two. -/
theorem writeLoop_leaves {outs : List Writev} {c : HttpConn} {r : WriteResult}
    (hne : c.bytesToSend ≠ 0) (h : writeLoop outs c = some r) : WriteLeaves c r := by
  induction outs generalizing c r with
  | nil => cases h
  | cons out rest ih =>
    cases out with
    | eagain =>
      simp only [writeLoop] at h
      split at h
      · cases h
        refine ⟨fun harmed => ?_, fun _ => ⟨rfl, hne, rfl⟩⟩
        cases harmed
      · cases h
    | error =>
      simp only [writeLoop] at h
      split at h
      · cases h
        refine ⟨fun harmed => ?_, fun harmed => ?_⟩
        · cases harmed
        · cases harmed
      · cases h
    | sent n =>
      have hparser := parser_advance c n
      have htwin := twin_advance c n
      simp only [writeLoop] at h
      split at h
      · split at h
        · split at h
          · cases h
            refine ⟨fun _ => ⟨congrArg Parser.linger hparser, fun hok => ?_⟩, fun harmed => ?_⟩
            · dsimp only at hok ⊢
              rw [if_pos hok]
              exact htwin
            · cases harmed
          · cases h
        · rename_i hmore
          obtain ⟨r', hr', rfl⟩ := Option.map_eq_some_iff.mp h
          -- there is more to send: the next turn starts with what is left
          have hrest := ih (fun hzero => hmore (Int.le_of_eq hzero)) hr'
          refine ⟨fun harmed => ?_, fun harmed => ?_⟩
          · obtain ⟨hok, hconn⟩ := hrest.done harmed
            exact ⟨hok.trans (congrArg Parser.linger hparser),
              fun h => (hconn h).eq.trans htwin.eq⟩
          · obtain ⟨hp, hbytes, hconn⟩ := hrest.again harmed
            exact ⟨hp.trans hparser, hbytes, hconn.eq.trans htwin.eq⟩
      · cases h

/-- What is left when a response is sent does not depend on the calls that send it. -/
theorem Transmits.leaves {c c' : HttpConn} {calls : List (List Writev)} {ok : Bool}
    (h : Transmits c calls c' ok) (hne : c.bytesToSend ≠ 0) :
    ok = c.parser.linger ∧ (ok = true → Twin c' c.unmap.init) := by
  induction h with
  | again h harmed ht ih =>
    rw [HttpConn.write, if_neg hne] at h
    obtain ⟨hparser, hbytes, hconn⟩ := (writeLoop_leaves hne h).again harmed
    obtain ⟨hok, htwin⟩ := ih hbytes
    exact ⟨hok.trans (congrArg Parser.linger hparser), fun h => (htwin h).eq.trans hconn.eq⟩
  | done h harmed =>
    rw [HttpConn.write, if_neg hne] at h
    exact (writeLoop_leaves hne h).done harmed

/-- Without anything to send, `write` only calls `init`. -/
theorem Transmits.of_zero {c c' : HttpConn} {calls : List (List Writev)} {ok : Bool}
    (h : Transmits c calls c' ok) (hzero : c.bytesToSend = 0) : ok = true ∧ c' = c.init := by
  cases h with
  | again h harmed ht =>
    rw [HttpConn.write, if_pos hzero] at h
    split at h
    · cases h
      cases harmed
    · cases h
  | done h harmed =>
    rw [HttpConn.write, if_pos hzero] at h
    split at h
    · cases h
      exact ⟨rfl, rfl⟩
    · cases h

/-- However the two responses are cut up by their `writev`s, the connections are left in twin
states. -/
theorem handsOver_twin {c c' d d' : HttpConn} {ok ok' : Bool} {bs bs' : List UInt8}
    (h : Twin c d) (hc : HandsOver c c' ok bs) (hd : HandsOver d d' ok' bs') :
    ok = ok' ∧ (ok = true → Twin c' d') := by
  obtain ⟨calls, hc, -⟩ := hc
  obtain ⟨calls', hd, -⟩ := hd
  -- a connection without anything to send is not looked at by the loop of `write`
  by_cases hzero : c.bytesToSend = 0
  · obtain ⟨rfl, rfl⟩ := hc.of_zero hzero
    obtain ⟨rfl, rfl⟩ := hd.of_zero (h.bytesToSend ▸ hzero)
    exact ⟨rfl, fun _ => h.init⟩
  · obtain ⟨hok, htwin⟩ := hc.leaves hzero
    obtain ⟨hok', htwin'⟩ := hd.leaves (h.bytesToSend ▸ hzero)
    have hsame : ok = ok' := by rw [hok, hok', h.parser]
    refine ⟨hsame, fun h' => ?_⟩
    exact (htwin h').eq.trans (h.unmap.init.eq.trans (htwin' (hsame ▸ h')).eq.symm)

/-- A connection that goes on has a parser that starts over. -/
theorem HandsOver.parser {c c' : HttpConn} {bs : List UInt8} (h : HandsOver c c' true bs) :
    c'.parser = c.parser.init := by
  obtain ⟨calls, h, -⟩ := h
  by_cases hzero : c.bytesToSend = 0
  · rw [(h.of_zero hzero).2]
    rfl
  · exact ((h.leaves hzero).2 rfl).parser

/-- The connection waits for its next request. -/
def HttpConn.Ready (c : HttpConn) : Prop := ∃ d : HttpConn, Twin c d.init

theorem ready_init (c : HttpConn) : c.init.Ready := ⟨c, Eq.refl _⟩

/-- Nothing of the next response has been sent. -/
theorem HttpConn.Ready.unsent {c : HttpConn} (h : c.Ready) : c.Unsent := by
  obtain ⟨d, h⟩ := h
  exact Twin.unsent h.eq.symm ⟨rfl, rfl⟩

/-- And it is ready for the next request. -/
theorem HandsOver.ready {c c' : HttpConn} {bs : List UInt8} (h : HandsOver c c' true bs) :
    c'.Ready := by
  obtain ⟨calls, h, -⟩ := h
  by_cases hzero : c.bytesToSend = 0
  · rw [(h.of_zero hzero).2]
    exact ready_init c
  · exact ⟨c.unmap, (h.leaves hzero).2 rfl⟩

-- ---------------------------------------------------------------------------
-- What has been sent
-- ---------------------------------------------------------------------------

/-- The last of the calls reports completion. -/
theorem Transmits.sendRun {c c' : HttpConn} {calls : List (List Writev)} {ok : Bool}
    (h : Transmits c calls c' ok) : ∃ sent, sendRun calls c = some (sent, .completed) := by
  induction h with
  | @again c c' ok outs calls r h harmed ht ih =>
    obtain ⟨sent, hsent⟩ := ih
    refine ⟨r.sent ++ sent, ?_⟩
    simp only [Http.sendRun, h, harmed, hsent, Option.map_some]
  | @done c outs r h harmed =>
    refine ⟨r.sent, ?_⟩
    simp only [Http.sendRun, h, harmed, if_true]

/-- **What is handed to the socket** is the response, to the last byte. -/
theorem HandsOver.whole {c c' : HttpConn} {r : Response} {ok : Bool} {bs : List UInt8}
    (h : HandsOver c c' ok bs) (hcarries : Carries c r) : c.described = some bs := by
  obtain ⟨calls, htransmits, hok, hstream⟩ := h
  obtain ⟨sent, hsent⟩ := htransmits.sendRun
  obtain ⟨stream, hstream', -, hdone⟩ :=
    Outgoing.stream_eq (s := ⟨c, calls⟩) hcarries hok hsent
  obtain rfl := Option.some.inj (hstream.symm.trans hstream')
  rw [hcarries.described, hdone.mp rfl]

-- ---------------------------------------------------------------------------
-- Replies
-- ---------------------------------------------------------------------------

/-- Twins get the same replies, whatever each `writev` sends, and each of them is whole. -/
theorem converses_twin {w : World} {c c' : HttpConn} {segs : List (List UInt8)}
    {replies replies' : List Reply} (hserv : w.Servable) (hunsent : c.Unsent) (h : Twin c c')
    (hc : Converses w c segs replies) (hc' : Converses w c' segs replies') :
    replies = replies' ∧ ∀ reply ∈ replies, reply.Whole := by
  have hnone {replies replies' : List Reply} (h : replies = []) (h' : replies' = []) :
      replies = replies' ∧ ∀ reply ∈ replies, reply.Whole := by
    subst h h'
    exact ⟨rfl, fun _ hr => absurd hr List.not_mem_nil⟩
  -- on the segments: one of them is read, answered and sent, and twins are left behind
  induction segs generalizing w c c' replies replies' with
  | nil => exact hnone hc hc'
  | cons seg segs ih =>
    obtain ⟨hok, htwin⟩ := h.readOnce (.data seg)
    have hunsent₁ := unsent_readOnce hunsent (.data seg)
    have hunsent₁' : (c'.readOnce (.data seg)).1.Unsent := unsent_readOnce (h.unsent hunsent) _
    unfold Converses at hc hc'
    generalize c.readOnce (.data seg) = r at hok htwin hunsent₁ hc
    generalize c'.readOnce (.data seg) = r' at hok htwin hunsent₁' hc'
    obtain ⟨c₁, ok⟩ := r
    obtain ⟨c₁', ok'⟩ := r'
    obtain rfl : ok = ok' := hok
    cases ok with
    | false => exact hnone hc hc'
    | true =>
      obtain ⟨w₁, c₂, effect, hprocess, hc⟩ := hc
      obtain ⟨w₂, c₂', effect', hprocess', hc'⟩ := hc'
      obtain ⟨rfl, rfl, htwin₂, hreply⟩ := process_twin htwin hprocess hprocess'
      have hserv₁ := hserv.congr (process_file hprocess)
      cases effect with
      | closeConn => exact hnone hc hc'
      | modfd ev =>
        cases ev with
        | epollin => exact ih hserv₁ (unsent_wait hunsent₁ hprocess) htwin₂ hc hc'
        | epollout =>
          obtain ⟨c₃, ok, sent, rest, ht, rfl, hrest⟩ := hc
          obtain ⟨c₃', ok', sent', rest', ht', rfl, hrest'⟩ := hc'
          obtain ⟨rfl, htwin₃⟩ := handsOver_twin htwin₂ ht ht'
          obtain ⟨r, hcarries⟩ := process_carries hunsent₁ hserv hprocess
          obtain ⟨r', hcarries'⟩ := process_carries hunsent₁' hserv hprocess'
          have hwhole := ht.whole hcarries
          have hwhole' := ht'.whole hcarries'
          -- the two objects describe the same bytes
          obtain rfl : sent = sent' := by
            have hdescribed := congrArg Reply.prepared (hreply rfl [])
            exact Option.some.inj (hwhole.symm.trans (Eq.trans hdescribed hwhole'))
          -- a connection without `keep-alive` is closed, and the replies end here
          have hlater : rest = rest' ∧ ∀ reply ∈ rest, reply.Whole := by
            cases ok with
            | false => exact hnone hrest hrest'
            | true => exact ih hserv₁ ht.ready.unsent (htwin₃ rfl) hrest hrest'
          obtain ⟨rfl, hall⟩ := hlater
          refine ⟨by rw [hreply rfl], fun reply hr => ?_⟩
          rcases List.mem_cons.mp hr with rfl | hr
          · exact hwhole
          · exact hall reply hr

/-- **The replies are those of the segments**, whatever each `writev` sends, and each is sent to the
last byte. -/
theorem converses_unique {w : World} {c : HttpConn} {segs : List (List UInt8)}
    {replies replies' : List Reply} (hserv : w.Servable) (hunsent : c.Unsent)
    (h : Converses w c segs replies) (h' : Converses w c segs replies') :
    replies = replies' ∧ ∀ reply ∈ replies, reply.Whole :=
  converses_twin hserv hunsent (Eq.refl _) h h'

end TinyHTTP.Http
