import TinyHTTP.Http.Send
import TinyHTTP.Http.Segmentation

/-!
# TinyHTTP — requests on a reused object

`init` resets most members of a connection object, and leaves `m_string` and the
members that describe the last file. Parsing never looks at `m_string`, and sets
it when it takes a body; `do_request` reads it for every POST to a page whose
name starts with 2 or 3, body or not. For a request that gets there without a
body the bytes read are where the last body was (`StaleRead`).

* `isolated_iff` — all other requests are answered alike on every object.
-/

namespace TinyHTTP.Http

open TinyHTTP.Lib

/-- The objects that have served some requests, in the world that they have left behind. A fresh
object has no `m_string` yet. -/
inductive History : World → HttpConn → Prop where
  | fresh {w : World} {c : HttpConn} : c.parser.string = none → History w c
  | init {w : World} {c : HttpConn} : History w c → History w c.init
  | read {w : World} {c : HttpConn} (recv : Recv) : History w c → History w (c.readOnce recv).1
  | process {w w' : World} {c c' : HttpConn} {effect : ProcessEffect} : History w c →
      c.process w = .ok (w', c', effect) → History w' c'
  | write {w : World} {c : HttpConn} {outs : List Writev} {r : WriteResult} : History w c →
      c.write outs = some r → History w r.conn

/-- What comes of a request: the code, the file, and the bytes that `process_write` prepares if it
prepares any. -/
structure Outcome where
  code : HttpCode
  realFile : Mem
  response : Option (Option (List UInt8))

def HttpConn.outcome (c : HttpConn) (code : HttpCode) : Outcome where
  code := code
  realFile := c.realFile
  response :=
    match c.processWrite code with
    | (c, true) => some c.described
    | (_, false) => none

/-- One `read_once` and one `process_read` for each segment, until `process_read` has an answer;
then `process_write`. -/
def serve (w : World) (c : HttpConn) : List (List UInt8) → Except Fault Outcome
  | [] => .ok (c.outcome .noRequest)
  | seg :: segs =>
    match c.readOnce (.data seg) with
    | (c, false) => .ok (c.outcome .closedConnection)
    | (c, true) =>
      match c.processRead w with
      | .error f => .error f
      | .ok (w, c, .noRequest) => serve w c segs
      | .ok (_, c, code) => .ok (c.outcome code)

/-- `do_request` gets to the loop over `m_string`. -/
def ReadsString (s : Parser) : Prop :=
  s.cgi = true ∧ ∃ url p rest, s.url = some url ∧
    strrchr s.readBuf readBufferSize url slash = .ok (some p) ∧
    (s.readBuf (p + 1) = 50 ∨ s.readBuf (p + 1) = 51) ∧
    cstring s.readBuf readBufferSize (url + 2) = .ok rest ∧ rest.length + 2 ≤ 200

/-- The request is complete without a body, and `do_request` gets to the loop over `m_string`. -/
def StaleRead (segs : List (List UInt8)) : Prop :=
  ∃ s, feed Parser.constructed.init segs = .ok (.doRequest, s) ∧ s.string = none ∧ ReadsString s

-- ---------------------------------------------------------------------------
-- Parsing does not look at m_string
-- ---------------------------------------------------------------------------

/-- The parser with another `m_string`. -/
def Parser.withString (x : Option Nat) (s : Parser) : Parser := { s with string := x }

/-- The same in the result of a `parse_` function. -/
def withString (x : Option Nat) (r : HttpCode × Parser) : HttpCode × Parser :=
  (r.1, r.2.withString x)

/-- The parse functions of the head do not look at `m_string`, which `init` leaves as it was. -/
theorem parseUrl_withString (x : Option Nat) (s : Parser) (url : Nat) :
    parseUrl (s.withString x) url = (parseUrl s url).map (withString x) := by
  have hbuf : (s.withString x).readBuf = s.readBuf := rfl
  unfold parseUrl
  rw [hbuf]
  cases stripScheme s.readBuf (bytes "http://") (some url) with
  | error f => rfl
  | ok url =>
    simp only [bind, Except.bind]
    cases stripScheme s.readBuf (bytes "https://") url with
    | error f => rfl
    | ok url =>
      cases url with
      | none => rfl
      | some url =>
        simp only
        split
        · rfl
        · cases strEnd s.readBuf readBufferSize url with
          | error f => rfl
          | ok e =>
            simp only
            split
            · cases strcatAt s.readBuf e (bytes "judge.html") with
              | error f => rfl
              | ok buf => rfl
            · rfl

theorem parseTarget_withString (x : Option Nat) (s : Parser) (url : Nat) :
    parseTarget (s.withString x) url = (parseTarget s url).map (withString x) := by
  have hbuf : (s.withString x).readBuf = s.readBuf := rfl
  unfold parseTarget
  rw [hbuf]
  cases skipSpan s.readBuf readBufferSize url blanks with
  | error f => rfl
  | ok url =>
    simp only [bind, Except.bind]
    cases strpbrk s.readBuf readBufferSize url blanks with
    | error f => rfl
    | ok version =>
      cases version with
      | none => rfl
      | some e =>
        simp only
        cases skipSpan (Function.update s.readBuf e 0) readBufferSize (e + 1) blanks with
        | error f => rfl
        | ok version =>
          simp only
          split
          · exact parseUrl_withString x { s with
              readBuf := Function.update s.readBuf e 0
              url := some url
              version := some version } url
          · rfl

theorem parseRequestLine_withString (x : Option Nat) (s : Parser) (text : Nat) :
    parseRequestLine (s.withString x) text = (parseRequestLine s text).map (withString x) := by
  have hbuf : (s.withString x).readBuf = s.readBuf := rfl
  unfold parseRequestLine
  rw [hbuf]
  cases strpbrk s.readBuf readBufferSize text blanks with
  | error f => rfl
  | ok url =>
    cases url with
    | none => rfl
    | some e =>
      simp only [bind, Except.bind]
      split
      · exact parseTarget_withString x { s with
          readBuf := Function.update s.readBuf e 0
          url := some (e + 1)
          method := .get } (e + 1)
      split
      · exact parseTarget_withString x { s with
          readBuf := Function.update s.readBuf e 0
          url := some (e + 1)
          method := .post
          cgi := true } (e + 1)
      · rfl

theorem parseHeaders_withString (x : Option Nat) (s : Parser) (text : Nat) :
    parseHeaders (s.withString x) text = (parseHeaders s text).map (withString x) := by
  have hbuf : (s.withString x).readBuf = s.readBuf := rfl
  have hlength : (s.withString x).contentLength = s.contentLength := rfl
  unfold parseHeaders
  rw [hbuf, hlength]
  split
  · split
    · rfl
    · rfl
  split
  · cases skipSpan s.readBuf readBufferSize (text + 11) blanks with
    | error f => rfl
    | ok text =>
      simp only [bind, Except.bind]
      split
      · rfl
      · rfl
  split
  · cases skipSpan s.readBuf readBufferSize (text + 15) blanks with
    | error f => rfl
    | ok text =>
      simp only [bind, Except.bind]
      cases atol s.readBuf readBufferSize text with
      | error f => rfl
      | ok n => rfl
  split
  · cases skipSpan s.readBuf readBufferSize (text + 5) blanks with
    | error f => rfl
    | ok text => rfl
  · rfl

/-- The parser with `m_string` filled in, if parsing has not set it. -/
def Parser.orString (x : Option Nat) (s : Parser) : Parser :=
  match s.string with
  | none => s.withString x
  | some _ => s

/-- A pointer that is not set takes the old value. -/
theorem orString_none (x : Option Nat) {s : Parser} (h : s.string = none) :
    s.orString x = s.withString x := by
  rw [Parser.orString, h]

def Turn.orString (x : Option Nat) : Turn → Turn
  | .again st s => .again st (s.orString x)
  | .stop r s => .stop r (s.orString x)

/-- What a `parse_` function that does not look at `m_string` leaves in it. -/
theorem string_of_withString {f : Parser → Except Fault (HttpCode × Parser)}
    (hf : ∀ x s, f (s.withString x) = (f s).map (withString x)) {s : Parser}
    (hs : s.string = none) {r : HttpCode × Parser} (h : f s = .ok r) : r.2.string = none := by
  have hsame : s.withString none = s := by rw [← hs, Parser.withString]
  have := hf none s
  rw [hsame, h] at this
  exact congrArg (fun r => r.2.string) (Except.ok.inj this)

/-- Nor does the turn of the loop around them. -/
theorem requestLineTurn_withString (x : Option Nat) {r : HttpCode × Parser}
    (hr : r.2.string = none) :
    requestLineTurn (withString x r) = (requestLineTurn r).orString x := by
  obtain ⟨code, s⟩ := r
  unfold requestLineTurn
  rw [show (withString x (code, s)).1 = code from rfl]
  split
  · rw [Turn.orString, orString_none x hr]
    rfl
  · rw [Turn.orString, orString_none x hr]
    rfl

theorem headerTurn_withString (x : Option Nat) {r : HttpCode × Parser} (hr : r.2.string = none) :
    headerTurn (withString x r) = (headerTurn r).orString x := by
  obtain ⟨code, s⟩ := r
  unfold headerTurn
  rw [show (withString x (code, s)).1 = code from rfl]
  split
  · rw [Turn.orString, orString_none x hr]
    rfl
  split
  · rw [Turn.orString, orString_none x hr]
    rfl
  · rw [Turn.orString, orString_none x hr]
    rfl

/-- `parse_content` sets `m_string`, or leaves everything as it is. -/
theorem parseContent_withString (x : Option Nat) {s : Parser} (hs : s.string = none) (text : Nat) :
    (parseContent (s.withString x) text).map contentTurn =
      ((parseContent s text).map contentTurn).map (Turn.orString x) := by
  obtain ⟨u, hu⟩ : ∃ u, u = s.withString x := ⟨_, rfl⟩
  have hlength : u.contentLength = s.contentLength := by rw [hu]; rfl
  have hchecked : u.checkedIdx = s.checkedIdx := by rw [hu]; rfl
  have hread : u.readIdx = s.readIdx := by rw [hu]; rfl
  rw [← hu]
  unfold parseContent
  rw [hlength, hchecked, hread, hu]
  split
  · rfl
  split
  · dsimp only
    split
    · rfl
    · rfl
  · simp only [Except.map, contentTurn, reduceCtorEq, if_false, Turn.orString, orString_none x hs]

/-- Filling in `m_string` and one turn commute. -/
theorem map_turn_orString (x : Option Nat) {f : Parser → Except Fault (HttpCode × Parser)}
    (hf : ∀ x s, f (s.withString x) = (f s).map (withString x)) {t : HttpCode × Parser → Turn}
    (ht : ∀ {r : HttpCode × Parser}, r.2.string = none → t (withString x r) = (t r).orString x)
    {s : Parser} (hs : s.string = none) :
    (f (s.withString x)).map t = ((f s).map t).map (Turn.orString x) := by
  rw [hf]
  cases h : f s with
  | error e => rfl
  | ok r => exact congrArg Except.ok (ht (string_of_withString hf hs h))

/-- Only `parse_content` sets `m_string`; a turn that does not reach it carries the old value along.
-/
theorem handleLine_orString (x : Option Nat) {s : Parser} (hs : s.string = none) :
    handleLine (s.withString x) = (handleLine s).map (Turn.orString x) := by
  unfold handleLine
  rw [show (s.withString x).checkState = s.checkState from rfl]
  cases s.checkState with
  | requestLine =>
    exact map_turn_orString x (f := fun s' => parseRequestLine s' s.startLine)
      (fun x s' => parseRequestLine_withString x s' s.startLine)
      (requestLineTurn_withString x) (s := s.nextLine) hs
  | header =>
    exact map_turn_orString x (f := fun s' => parseHeaders s' s.startLine)
      (fun x s' => parseHeaders_withString x s' s.startLine)
      (headerTurn_withString x) (s := s.nextLine) hs
  | content => exact parseContent_withString x (s := s.nextLine) hs s.startLine

/-- `parse_line` looks at the buffer alone. -/
theorem parseLine_withString (x : Option Nat) (s : Parser) :
    parseLine (s.withString x) = ((parseLine s).1, (parseLine s).2.withString x) := by
  have hloop : ∀ (n : Nat) (s : Parser), parseLineLoop n (s.withString x) =
      ((parseLineLoop n s).1, (parseLineLoop n s).2.withString x) := by
    intro n
    induction n with
    | zero => exact fun s => rfl
    | succ n ih =>
      intro s
      obtain ⟨u, hu⟩ : ∃ u, u = s.withString x := ⟨_, rfl⟩
      have hbuf : u.readBuf = s.readBuf := by rw [hu]; rfl
      have hchecked : u.checkedIdx = s.checkedIdx := by rw [hu]; rfl
      have hread : u.readIdx = s.readIdx := by rw [hu]; rfl
      rw [← hu, parseLineLoop, parseLineLoop, hbuf, hchecked, hread, hu]
      split
      · split
        · rfl
        split
        · rfl
        · rfl
      split
      · split
        · rfl
        · rfl
      · exact ih { s with checkedIdx := s.checkedIdx + 1 }
  exact hloop _ s

theorem parseLine_string {s : Parser} (hs : s.string = none) : (parseLine s).2.string = none := by
  have hsame : s.withString none = s := by rw [← hs, Parser.withString]
  have := parseLine_withString none s
  rw [hsame] at this
  exact congrArg (fun r => r.2.string) this

/-- **Step lemma**: a turn with the old pointer, and one without. -/
theorem turn_orString (x : Option Nat) (st : LineStatus) {s : Parser} (hs : s.string = none) :
    turn st (s.withString x) = (turn st s).map (Turn.orString x) := by
  unfold turn
  rw [show (s.withString x).checkState = s.checkState from rfl]
  split
  · exact handleLine_orString x hs
  · have hstring := parseLine_string hs
    rw [parseLine_withString]
    generalize parseLine s = r at hstring
    obtain ⟨lineStatus, t⟩ := r
    cases lineStatus with
    | lineOk => exact handleLine_orString x hstring
    | lineBad | lineOpen =>
      simp only [Except.map, Turn.orString, orString_none x hstring]

/-- `m_string` is unset, unless `do_request` has been called. -/
def Turn.Unset : Turn → Prop
  | .again _ s => s.string = none
  | .stop (.code _) s => s.string = none
  | .stop .doRequest _ => True

/-- As long as no body is complete, the pointer is not set. -/
theorem turn_unset {st : LineStatus} {s : Parser} (hs : s.string = none) {t : Turn}
    (h : turn st s = .ok t) : t.Unset := by
  have hhandle : ∀ {s : Parser}, s.string = none → handleLine s = .ok t → t.Unset := by
    intro s hs h
    unfold handleLine at h
    cases hstate : s.checkState with
    | requestLine =>
      simp only [hstate] at h
      obtain ⟨r, hr, rfl⟩ := map_ok.mp h
      have hstring := string_of_withString (f := fun s' => parseRequestLine s' s.startLine)
        (fun x s' => parseRequestLine_withString x s' s.startLine) (s := s.nextLine) hs hr
      unfold requestLineTurn
      split
      · exact hstring
      · exact hstring
    | header =>
      simp only [hstate] at h
      obtain ⟨r, hr, rfl⟩ := map_ok.mp h
      have hstring := string_of_withString (f := fun s' => parseHeaders s' s.startLine)
        (fun x s' => parseHeaders_withString x s' s.startLine) (s := s.nextLine) hs hr
      unfold headerTurn
      split
      · exact hstring
      split
      · trivial
      · exact hstring
    | content =>
      simp only [hstate] at h
      obtain ⟨r, hr, rfl⟩ := map_ok.mp h
      unfold contentTurn
      split
      · trivial
      · rename_i hcode
        unfold parseContent at hr
        split at hr
        · cases hr
        split at hr
        · dsimp only at hr
          split at hr
          · cases hr
            exact absurd rfl hcode
          · cases hr
        · cases hr
          exact hs
  unfold turn at h
  split at h
  · exact hhandle hs h
  · have hstring := parseLine_string hs
    generalize parseLine s = r at hstring h
    obtain ⟨lineStatus, t'⟩ := r
    cases lineStatus with
    | lineOk => exact hhandle hstring h
    | lineBad | lineOpen =>
      cases h
      exact hstring

/-- Filling in `m_string` in the result of `process_read`. -/
def endOrString (x : Option Nat) (r : ReadEnd × Parser) : ReadEnd × Parser := (r.1, r.2.orString x)

/-- **Run lemma**, for one call of `process_read`. -/
theorem processReadLoop_orString (x : Option Nat) (fuel : Nat) (st : LineStatus) {s : Parser}
    (hs : s.string = none) : processReadLoop fuel st (s.withString x) =
      (processReadLoop fuel st s).map (endOrString x) := by
  induction fuel generalizing st s with
  | zero =>
    simp only [processReadLoop, Except.map, endOrString, orString_none x hs]
  | succ fuel ih =>
    rw [processReadLoop, processReadLoop, turn_orString x st hs]
    cases h : turn st s with
    | error f => rfl
    | ok t =>
      have hunset := turn_unset hs h
      cases t with
      | stop r s' => rfl
      | again st' s' =>
        have hs' : s'.string = none := hunset
        simp only [Except.map, Turn.orString, orString_none x hs', bind, Except.bind]
        exact ih st' hs'

theorem processReadLoop_unset {fuel : Nat} {st : LineStatus} {s s' : Parser} {code : HttpCode}
    (hs : s.string = none) (h : processReadLoop fuel st s = .ok (.code code, s')) :
    s'.string = none := by
  induction fuel generalizing st s with
  | zero =>
    cases h
    exact hs
  | succ fuel ih =>
    rw [processReadLoop, bind_ok] at h
    obtain ⟨t, ht, h⟩ := h
    have hunset := turn_unset hs ht
    cases t with
    | again st' s₁ => exact ih hunset h
    | stop r s₁ =>
      cases h
      exact hunset

/-- **`feed` does not look at `m_string`**; induction on the segments. -/
theorem feed_orString (x : Option Nat) (segs : List (List UInt8)) {s : Parser}
    (hs : s.string = none) :
    feed (s.withString x) segs = (feed s segs).map (endOrString x) := by
  induction segs generalizing s with
  | nil => simp only [feed, Except.map, endOrString, orString_none x hs]
  | cons seg segs ih =>
    have hread : (s.withString x).readOnce (.data seg) =
        ((s.readOnce (.data seg)).1.withString x, (s.readOnce (.data seg)).2) := by
      unfold Parser.readOnce
      rw [show (s.withString x).readIdx = s.readIdx from rfl]
      split
      · rfl
      · rfl
    have hstring : (s.readOnce (.data seg)).1.string = none := by
      unfold Parser.readOnce
      split
      · exact hs
      · exact hs
    rw [feed, feed, hread]
    generalize s.readOnce (.data seg) = r at hstring
    obtain ⟨s₁, ok⟩ := r
    replace hstring : s₁.string = none := hstring
    cases ok with
    | false => simp only [Except.map, endOrString, orString_none x hstring]
    | true =>
      have hproc : processRead (s₁.withString x) = (processRead s₁).map (endOrString x) :=
        processReadLoop_orString x _ .lineOk hstring
      simp only [hproc]
      cases h : processRead s₁ with
      | error f => rfl
      | ok r =>
        obtain ⟨e, s₂⟩ := r
        cases e with
        | doRequest => rfl
        | code code =>
          have hs₂ := processReadLoop_unset hstring h
          cases code with
          | noRequest =>
            simp only [Except.map, endOrString, orString_none x hs₂]
            exact ih hs₂
          | _ => rfl

-- ---------------------------------------------------------------------------
-- serve, in terms of feed
-- ---------------------------------------------------------------------------

/-- What follows the parsing of a request. -/
def HttpConn.finish (w : World) (c : HttpConn) (r : ReadEnd × Parser) : Except Fault Outcome :=
  match r.1 with
  | .code code => .ok (HttpConn.outcome { c with parser := r.2 } code)
  | .doRequest => (HttpConn.doRequest w { c with parser := r.2 }).map fun r => r.2.1.outcome r.2.2

/-- A file is found or it is not: none of the codes asks for more of the request. -/
theorem openFile_code (w : World) (c : HttpConn) (path : List UInt8) :
    (HttpConn.openFile w c path).2 ≠ .noRequest := by
  intro h
  unfold HttpConn.openFile at h
  split at h
  · cases h
  · dsimp only at h
    split at h
    · cases h
    split at h
    · cases h
    · cases h

theorem doRequest_code {w w' : World} {c c' : HttpConn} {code : HttpCode}
    (h : c.doRequest w = .ok (w', c', code)) : code ≠ .noRequest := by
  unfold HttpConn.doRequest at h
  rw [bind_ok] at h
  obtain ⟨⟨w₁, s, real⟩, -, h⟩ := h
  rw [bind_ok] at h
  obtain ⟨path, -, h⟩ := h
  have hcode := openFile_code w₁ { c with parser := s, realFile := real } path
  cases h
  exact hcode

/-- The segments are parsed first, then the last of them is answered. -/
theorem serve_eq (w : World) (c : HttpConn) (segs : List (List UInt8)) :
    serve w c segs = feed c.parser segs >>= c.finish w := by
  induction segs generalizing c with
  | nil => rfl
  | cons seg segs ih =>
    rw [serve, feed, HttpConn.readOnce]
    generalize c.parser.readOnce (.data seg) = r
    obtain ⟨s, ok⟩ := r
    cases ok with
    | false => rfl
    | true =>
      simp only [HttpConn.processRead]
      cases h : Http.processRead s with
      | error f => rfl
      | ok r =>
        obtain ⟨e, s'⟩ := r
        cases e with
        | code code =>
          cases code with
          | noRequest => exact ih { c with parser := s' }
          | _ => rfl
        | doRequest =>
          simp only [bind, Except.bind, HttpConn.finish]
          cases hdo : HttpConn.doRequest w { c with parser := s' } with
          | error f => rfl
          | ok r =>
            obtain ⟨w', c', code⟩ := r
            have hcode := doRequest_code hdo
            cases code with
            | noRequest => exact absurd rfl hcode
            | _ => rfl

/-- A request on an object that has just been initialised. -/
theorem serve_init (w : World) (c : HttpConn) (segs : List (List UInt8)) :
    serve w c.init segs = (feed Parser.constructed.init segs).map (endOrString c.parser.string) >>=
      c.init.finish w := by
  have hinit : c.init.parser = Parser.constructed.init.withString c.parser.string := rfl
  rw [serve_eq, hinit, feed_orString _ _ rfl]

/-- `FILE_REQUEST` is a result of `do_request`, never of the parser. -/
theorem feed_code {s s' : Parser} {segs : List (List UInt8)} {code : HttpCode}
    (h : feed s segs = .ok (.code code, s')) : code ≠ .fileRequest := by
  induction segs generalizing s with
  | nil =>
    cases h
    decide
  | cons seg segs ih =>
    rw [feed] at h
    generalize s.readOnce (.data seg) = r at h
    obtain ⟨s₁, ok⟩ := r
    cases ok with
    | false =>
      cases h
      decide
    | true =>
      cases hp : processRead s₁ with
      | error f => simp [hp] at h
      | ok r =>
        obtain ⟨e, s₂⟩ := r
        simp only [hp] at h
        cases e with
        | doRequest => cases h
        | code code' =>
          rcases processReadLoop_code hp with rfl | rfl
          · exact ih h
          · cases h
            decide

-- ---------------------------------------------------------------------------
-- What an outcome depends on
-- ---------------------------------------------------------------------------

/-- Two objects, about to answer the same request. -/
structure Alike (c₁ c₂ : HttpConn) : Prop where
  writeBuf₁ : c₁.writeBuf = []
  writeBuf₂ : c₂.writeBuf = []
  linger : c₁.parser.linger = c₂.parser.linger
  realFile : c₁.realFile = c₂.realFile

/-- An error page depends on `m_linger`, and on nothing else of the object. -/
theorem outcome_addError {c₁ c₂ : HttpConn} (h : Alike c₁ c₂) {code : HttpCode} (status : Nat)
    (title form : List UInt8)
    (hcase : ∀ c : HttpConn, c.processWrite code = c.addError status title form)
    (hfit : ∀ linger, (responseHead status title form.length linger).length + form.length <
      writeBufferSize - 1) : c₁.outcome code = c₂.outcome code := by
  obtain ⟨text₁, htext₁, hwrite₁⟩ := addError_ok h.writeBuf₁ status title form (hfit _)
  obtain ⟨text₂, htext₂, hwrite₂⟩ := addError_ok h.writeBuf₂ status title form (hfit _)
  have htext : text₁ = text₂ := by rw [htext₁, htext₂, h.linger]
  unfold HttpConn.outcome
  rw [hcase, hcase, hwrite₁, hwrite₂, h.realFile]
  simp only [described_useWriteBuf, htext]

/-- The outcome is determined by `m_linger` and the path, and by the file when there is one. -/
theorem outcome_alike {c₁ c₂ : HttpConn} (h : Alike c₁ c₂) (code : HttpCode)
    (hfile : code = .fileRequest →
      c₁.fileStat = c₂.fileStat ∧ c₁.fileAddress = c₂.fileAddress) :
    c₁.outcome code = c₂.outcome code := by
  cases code with
  | noRequest | getRequest | noResource | closedConnection =>
    simp only [HttpConn.outcome, HttpConn.processWrite, h.realFile]
  | badRequest =>
    exact outcome_addError h 404 error404Title error404Form (fun _ => rfl) fits_badRequest
  | forbiddenRequest =>
    exact outcome_addError h 403 error403Title error403Form (fun _ => rfl) fits_forbidden
  | internalError =>
    exact outcome_addError h 500 error500Title error500Form (fun _ => rfl) fits_internalError
  | fileRequest =>
    obtain ⟨hstat, haddress⟩ := hfile rfl
    by_cases hsize : c₁.fileStat.size = 0
    · have h₁ := processWrite_empty hsize
      have h₂ := processWrite_empty (hstat ▸ hsize)
      unfold HttpConn.outcome
      generalize c₁.processWrite .fileRequest = r₁ at h₁
      generalize c₂.processWrite .fileRequest = r₂ at h₂
      obtain ⟨d₁, ok₁⟩ := r₁
      obtain ⟨d₂, ok₂⟩ := r₂
      obtain rfl : ok₁ = false := h₁
      obtain rfl : ok₂ = false := h₂
      rw [h.realFile]
    · obtain ⟨head₁, hhead₁, hwrite₁⟩ := processWrite_file h.writeBuf₁ hsize
      obtain ⟨head₂, hhead₂, hwrite₂⟩ := processWrite_file h.writeBuf₂ (hstat ▸ hsize)
      have hhead : head₁ = head₂ := by rw [hhead₁, hhead₂, hstat, h.linger]
      unfold HttpConn.outcome
      rw [hwrite₁, hwrite₂, h.realFile]
      dsimp only
      rw [described_file rfl rfl rfl, described_file rfl rfl rfl]
      simp only [haddress, hstat, hhead]

/-- The answer depends on the file that is found, and not on the one that the object had before. -/
theorem outcome_openFile {c₁ c₂ : HttpConn} (h : Alike c₁ c₂) (w : World) (path : List UInt8) :
    (HttpConn.openFile w c₁ path).1.outcome (HttpConn.openFile w c₁ path).2 =
      (HttpConn.openFile w c₂ path).1.outcome (HttpConn.openFile w c₂ path).2 := by
  unfold HttpConn.openFile
  cases w.file path with
  | none => exact outcome_alike h .noResource (fun hc => by cases hc)
  | some node =>
    dsimp only
    have h' : Alike { c₁ with fileStat := node.stat } { c₂ with fileStat := node.stat } :=
      ⟨h.writeBuf₁, h.writeBuf₂, h.linger, h.realFile⟩
    split
    · exact outcome_alike h' .forbiddenRequest (fun hc => by cases hc)
    split
    · exact outcome_alike h' .badRequest (fun hc => by cases hc)
    · have h'' : Alike { c₁ with fileStat := node.stat, fileAddress := node.mmap }
          { c₂ with fileStat := node.stat, fileAddress := node.mmap } :=
        ⟨h.writeBuf₁, h.writeBuf₂, h.linger, h.realFile⟩
      exact outcome_alike h'' .fileRequest (fun _ => ⟨rfl, rfl⟩)

-- ---------------------------------------------------------------------------
-- do_request and m_string
-- ---------------------------------------------------------------------------

/-- The result of `resolve`, with another `m_string`. -/
def resolvedWithString (x : Option Nat) (r : World × Parser × Mem) : World × Parser × Mem :=
  (r.1, r.2.1.withString x, r.2.2)

theorem pageFile_withString (x : Option Nat) (s : Parser) (real : Mem) (url p : Nat) :
    pageFile (s.withString x) real url p = pageFile s real url p := rfl

/-- Without the two pages that look at a form, or with a URL behind the flag that overflows its
buffer before, `m_string` does not matter. -/
theorem cgiBranch_withString (w : World) (x : Option Nat) {s : Parser} (real : Mem) {url p : Nat}
    (h : s.cgi = true → (s.readBuf (p + 1) = 50 ∨ s.readBuf (p + 1) = 51) →
      ∀ rest, cstring s.readBuf readBufferSize (url + 2) = .ok rest → ¬ rest.length + 2 ≤ 200) :
    cgiBranch w (s.withString x) real url p =
      (cgiBranch w s real url p).map (resolvedWithString x) := by
  unfold cgiBranch
  rw [show (s.withString x).cgi = s.cgi from rfl,
    show (s.withString x).readBuf = s.readBuf from rfl]
  split
  · rename_i hcgi
    unfold cgiRequest
    rw [show (s.withString x).readBuf = s.readBuf from rfl]
    cases hrest : cstring s.readBuf readBufferSize (url + 2) with
    | error f => rfl
    | ok rest =>
      simp only [bind, Except.bind, if_neg (h hcgi.1 hcgi.2 rest hrest)]
      rfl
  · rfl

/-- Where `do_request` does not get to the loop over `m_string`, it does not look at it. -/
theorem resolve_withString (w : World) (x : Option Nat) {s : Parser} (real : Mem)
    (h : ¬ ReadsString s) :
    resolve w (s.withString x) real = (resolve w s real).map (resolvedWithString x) := by
  unfold resolve
  dsimp only
  rw [show (s.withString x).url = s.url from rfl]
  cases hurl : s.url with
  | none => rfl
  | some url =>
    simp only [show (s.withString x).readBuf = s.readBuf from rfl]
    cases hp : strrchr s.readBuf readBufferSize url slash with
    | error f => rfl
    | ok p =>
      cases p with
      | none => rfl
      | some p =>
        have hbranch := cgiBranch_withString w x (writeBytes real 0 (docRoot ++ [0]))
          (fun hcgi hflag rest hrest hle => h ⟨hcgi, url, p, rest, hurl, hp, hflag, hrest, hle⟩)
        simp only [bind, Except.bind, hbranch]
        cases cgiBranch w s (writeBytes real 0 (docRoot ++ [0])) url p with
        | error f => rfl
        | ok r =>
          simp only [Except.map, resolvedWithString, pageFile_withString]
          cases pageFile r.2.1 r.2.2 url p with
          | error f => rfl
          | ok real' => rfl

/-- Without an `m_string` the loop reads an uninitialised pointer. -/
theorem resolve_uninitialized (w : World) {s : Parser} (real : Mem) (hs : s.string = none)
    (h : ReadsString s) : resolve w s real = .error .uninitialized := by
  obtain ⟨hcgi, url, p, rest, hurl, hp, hflag, hrest, hle⟩ := h
  unfold resolve
  simp only [hurl, hp, bind, Except.bind, cgiBranch, if_pos (And.intro hcgi hflag),
    cgiRequest, hrest, if_pos hle, hs]

/-- The string functions fault by running out of the buffer, never by a pointer that has not been
set. -/
theorem cstring_error {m : Mem} {size i : Nat} {f : Fault} (h : cstring m size i = .error f) :
    f = .outOfBounds := by
  unfold cstring at h
  rcases bind_error.mp h with h | ⟨j, -, h⟩
  · unfold strEnd scanFrom at h
    split at h
    · cases h
      rfl
    · cases h
  · cases h

theorem copyField_error {buf : Mem} {stop : UInt8} {room i : Nat} {f : Fault}
    (h : copyField buf stop room i = .error f) : f = .outOfBounds := by
  induction room generalizing i with
  | zero =>
    cases h
    rfl
  | succ room ih =>
    rw [copyField] at h
    split at h
    · cases h
      rfl
    split at h
    · cases h
    · cases hrest : copyField buf stop room (i + 1) with
      | error f' =>
        rw [hrest] at h
        cases h
        exact ih hrest
      | ok rest =>
        rw [hrest] at h
        cases h

theorem credentials_error {buf : Mem} {text : Nat} {f : Fault}
    (h : credentials buf text = .error f) : f = .outOfBounds := by
  unfold credentials at h
  rcases bind_error.mp h with h | ⟨name, -, h⟩
  · exact copyField_error h
  rcases bind_error.mp h with h | ⟨password, -, h⟩
  · exact copyField_error h
  · cases h

theorem check_error {w : World} {flag : UInt8} {name password : List UInt8} {f : Fault}
    (h : w.check flag name password = .error f) : f = .outOfBounds := by
  unfold World.check at h
  split at h
  · split at h
    · cases h
    · cases h
      rfl
  · cases h

theorem strcatAt_error {buf : Mem} {e : Nat} {src : List UInt8} {f : Fault}
    (h : strcatAt buf e src = .error f) : f = .outOfBounds := by
  unfold strcatAt at h
  split at h
  · cases h
  · cases h
    rfl

/-- With an `m_string` nothing uninitialised is read. -/
theorem cgiRequest_error {w : World} {s : Parser} {real : Mem} {url p : Nat} {f : Fault}
    (hs : s.string ≠ none) (h : cgiRequest w s real url p = .error f) : f = .outOfBounds := by
  unfold cgiRequest at h
  rcases bind_error.mp h with h | ⟨rest, -, h⟩
  · exact cstring_error h
  split at h
  · cases hstring : s.string with
    | none => exact absurd hstring hs
    | some text =>
      simp only [hstring] at h
      rcases bind_error.mp h with h | ⟨⟨name, password⟩, -, h⟩
      · exact credentials_error h
      rcases bind_error.mp h with h | ⟨⟨w', page⟩, -, h⟩
      · exact check_error h
      rcases bind_error.mp h with h | ⟨buf, -, h⟩
      · exact strcatAt_error h
      · cases h
  · cases h
    rfl

theorem strrchr_error {m : Mem} {size i : Nat} {c : UInt8} {f : Fault}
    (h : strrchr m size i c = .error f) : f = .outOfBounds := by
  unfold strrchr at h
  rcases bind_error.mp h with h | ⟨s, -, h⟩
  · exact cstring_error h
  · cases h

/-- Where `m_string` is set, `do_request` reads nothing that has not been initialised. -/
theorem resolve_error {w : World} {s : Parser} {real : Mem} {f : Fault}
    (hs : s.string ≠ none) (h : resolve w s real = .error f) : f ≠ .uninitialized := by
  unfold resolve at h
  dsimp only at h
  split at h
  · cases h
    decide
  rcases bind_error.mp h with h | ⟨p, -, h⟩
  · rw [strrchr_error h]
    decide
  split at h
  · cases h
    decide
  rcases bind_error.mp h with h | ⟨⟨w', s', real'⟩, -, h⟩
  · unfold cgiBranch at h
    split at h
    · rw [cgiRequest_error hs h]
      decide
    · cases h
  rcases bind_error.mp h with h | ⟨real'', -, h⟩
  · unfold pageFile at h
    split at h
    · cases h
    · rcases bind_error.mp h with h | ⟨u, -, h⟩
      · rw [cstring_error h]
        decide
      · cases h
  · cases h

theorem doRequest_error {w : World} {c : HttpConn} {f : Fault} (hs : c.parser.string ≠ none)
    (h : c.doRequest w = .error f) : f ≠ .uninitialized := by
  unfold HttpConn.doRequest at h
  rcases bind_error.mp h with h | ⟨⟨w', s, real⟩, -, h⟩
  · exact resolve_error hs h
  rcases bind_error.mp h with h | ⟨path, -, h⟩
  · rw [cstring_error h]
    decide
  · cases h

-- ---------------------------------------------------------------------------
-- An object that has taken a body
-- ---------------------------------------------------------------------------

/-- The answer leaves the parser alone. -/
theorem parser_addResponse (c : HttpConn) (text : List UInt8) :
    (c.addResponse text).1.parser = c.parser := by
  unfold HttpConn.addResponse
  split
  · rfl
  split
  · rfl
  · rfl

theorem parser_addHeaders (c : HttpConn) (n : Int) : (c.addHeaders n).parser = c.parser := by
  unfold HttpConn.addHeaders HttpConn.addBlankLine HttpConn.addLinger HttpConn.addContentLength
  rw [parser_addResponse, parser_addResponse, parser_addResponse]

theorem parser_addError (c : HttpConn) (status : Nat) (title form : List UInt8) :
    (c.addError status title form).1.parser = c.parser := by
  have hcontent : (((c.addStatusLine status title).1.addHeaders form.length).addContent
      form).1.parser = c.parser := by
    unfold HttpConn.addContent HttpConn.addStatusLine
    rw [parser_addResponse, parser_addHeaders, parser_addResponse]
  unfold HttpConn.addError
  generalize ((c.addStatusLine status title).1.addHeaders form.length).addContent form = r
    at hcontent
  obtain ⟨c', ok⟩ := r
  cases ok with
  | true => exact hcontent
  | false => exact hcontent

theorem parser_processWrite (c : HttpConn) (code : HttpCode) :
    (c.processWrite code).1.parser = c.parser := by
  cases code with
  | noRequest | getRequest | noResource | closedConnection => rfl
  | internalError =>
    have hcase : c.processWrite .internalError = c.addError 500 error500Title error500Form := rfl
    rw [hcase, parser_addError]
  | badRequest =>
    have hcase : c.processWrite .badRequest = c.addError 404 error404Title error404Form := rfl
    rw [hcase, parser_addError]
  | forbiddenRequest =>
    have hcase : c.processWrite .forbiddenRequest = c.addError 403 error403Title error403Form := rfl
    rw [hcase, parser_addError]
  | fileRequest =>
    have hstatus : (c.addStatusLine 200 ok200Title).1.parser = c.parser := parser_addResponse ..
    unfold HttpConn.processWrite
    dsimp only
    generalize (c.addStatusLine 200 ok200Title).1 = d at hstatus ⊢
    have hheaders := parser_addHeaders d (toInt32 d.fileStat.size)
    generalize d.addHeaders (toInt32 d.fileStat.size) = e at hheaders ⊢
    split
    · exact hheaders.trans hstatus
    · rw [HttpConn.addContent, parser_addResponse, parser_addHeaders, hstatus]

theorem parser_answer (c : HttpConn) (code : HttpCode) : (c.answer code).1.parser = c.parser := by
  have hwrite := parser_processWrite c code
  unfold HttpConn.answer
  split
  · rfl
  · generalize c.processWrite code = r at hwrite
    obtain ⟨c', ok⟩ := r
    cases ok with
    | true => exact hwrite
    | false => exact hwrite

theorem parser_openFile (w : World) (c : HttpConn) (path : List UInt8) :
    (HttpConn.openFile w c path).1.parser = c.parser := by
  unfold HttpConn.openFile
  split
  · rfl
  · dsimp only
    split
    · rfl
    split
    · rfl
    · rfl

/-- A GET does not touch the users, and `do_request` leaves its parser as it is. -/
theorem resolve_get {w : World} {s : Parser} {real : Mem} {r : World × Parser × Mem}
    (hs : s.cgi = false) (h : resolve w s real = .ok r) :
    r.2.1 = s ∧ ∀ w', resolve w' s real = .ok (w', s, r.2.2) := by
  unfold resolve at h ⊢
  dsimp only at h ⊢
  cases hurl : s.url with
  | none =>
    simp only [hurl] at h
    cases h
  | some url =>
    simp only [hurl] at h ⊢
    rw [bind_ok] at h
    obtain ⟨p, hp, h⟩ := h
    cases p with
    | none => cases h
    | some p =>
      have hbranch : ∀ w', cgiBranch w' s (writeBytes real 0 (docRoot ++ [0])) url p =
          .ok (w', s, writeBytes real 0 (docRoot ++ [0])) := by
        intro w'
        rw [cgiBranch, if_neg (by simp [hs])]
      simp only [hbranch, bind, Except.bind] at h
      cases hfile : pageFile s (writeBytes real 0 (docRoot ++ [0])) url p with
      | error f =>
        rw [hfile] at h
        cases h
      | ok real' =>
        rw [hfile] at h
        cases h
        refine ⟨rfl, fun w' => ?_⟩
        simp only [hp, hbranch, hfile, bind, Except.bind]
        rfl

def bodyRequest : List UInt8 := bytes "GET /a HTTP/1.1\r\nContent-length: 1\r\n\r\nx"

/-- Whether the parser calls `do_request` for a GET with a body. -/
def bodyTaken (s : Parser) : Bool :=
  match Http.processRead s with
  | .ok (.doRequest, s) => !s.cgi && s.string.isSome
  | _ => false

/-- In every world there is an object that has taken a body. -/
theorem exists_history_string (w : World) : ∃ c, History w c ∧ c.parser.string ≠ none := by
  have hcode : (HttpConn.received bodyRequest).codeOf onePage = some .noResource := by
    decide +kernel
  have htaken : bodyTaken (HttpConn.received bodyRequest).parser = true := by decide +kernel
  have hreceived : History w (HttpConn.received bodyRequest) :=
    .read _ (.init (.fresh rfl))
  generalize HttpConn.received bodyRequest = c at *
  obtain ⟨w₁, c₁, hread⟩ := processRead_of_codeOf hcode
  unfold bodyTaken at htaken
  rcases processRead_cases hread with ⟨s, hparse, -⟩ | ⟨s, s', real, path, hparse, hresolve,
    hpath, -⟩
  · rw [hparse] at htaken
    cases htaken
  · rw [hparse] at htaken
    simp only [Bool.and_eq_true, Bool.not_eq_true'] at htaken
    obtain ⟨hcgi, hstring⟩ := htaken
    obtain ⟨-, hany⟩ := resolve_get hcgi hresolve
    have hread' : c.processRead w = .ok (w,
        (HttpConn.openFile w { c with parser := s, realFile := real } path).1,
        (HttpConn.openFile w { c with parser := s, realFile := real } path).2) := by
      unfold HttpConn.processRead HttpConn.doRequest
      simp only [hparse, hany w, hpath, bind, Except.bind]
      rfl
    refine ⟨_, .process hreceived (process_of_processRead hread'), ?_⟩
    rw [parser_answer, parser_openFile]
    exact Option.isSome_iff_ne_none.mp hstring

-- ---------------------------------------------------------------------------
-- Isolation
-- ---------------------------------------------------------------------------

theorem orString_linger (x : Option Nat) (s : Parser) : (s.orString x).linger = s.linger := by
  unfold Parser.orString
  split
  · rfl
  · rfl

/-- What `openFile` gets out of `resolve`. -/
def resolvedFile (r : World × Parser × Mem) : World × Bool × Mem := (r.1, r.2.1.linger, r.2.2)

/-- The same file for both, the same outcome. -/
theorem doRequest_alike {w : World} {c₁ c₂ : HttpConn} (h : Alike c₁ c₂)
    (hres : (resolve w c₁.parser c₁.realFile).map resolvedFile =
      (resolve w c₂.parser c₂.realFile).map resolvedFile) :
    (c₁.doRequest w).map (fun r => r.2.1.outcome r.2.2) =
      (c₂.doRequest w).map fun r => r.2.1.outcome r.2.2 := by
  unfold HttpConn.doRequest
  cases h₁ : resolve w c₁.parser c₁.realFile with
  | error f₁ =>
    cases h₂ : resolve w c₂.parser c₂.realFile with
    | error f₂ =>
      rw [h₁, h₂] at hres
      cases hres
      rfl
    | ok r₂ =>
      rw [h₁, h₂] at hres
      cases hres
  | ok r₁ =>
    cases h₂ : resolve w c₂.parser c₂.realFile with
    | error f₂ =>
      rw [h₁, h₂] at hres
      cases hres
    | ok r₂ =>
      obtain ⟨w₁, s₁, real₁⟩ := r₁
      obtain ⟨w₂, s₂, real₂⟩ := r₂
      rw [h₁, h₂] at hres
      simp only [Except.map, resolvedFile, Except.ok.injEq, Prod.mk.injEq] at hres
      obtain ⟨rfl, hlinger, rfl⟩ := hres
      simp only [bind, Except.bind]
      cases hpath : cstring real₁ filenameLen 0 with
      | error f => rfl
      | ok path =>
        have halike : Alike { c₁ with parser := s₁, realFile := real₁ }
            { c₂ with parser := s₂, realFile := real₁ } :=
          ⟨h.writeBuf₁, h.writeBuf₂, hlinger, rfl⟩
        have hout := outcome_openFile halike w₁ path
        simp only [pure, Except.pure, Except.map, Except.ok.injEq]
        exact hout

/-- A request that does not read a stale `m_string` is answered alike on every object. -/
theorem serve_alike (w : World) (c₁ c₂ : HttpConn) {segs : List (List UInt8)}
    (h : ¬ StaleRead segs) : serve w c₁.init segs = serve w c₂.init segs := by
  rw [serve_init, serve_init]
  cases hf : feed Parser.constructed.init segs with
  | error f => simp only [Except.map, bind, Except.bind]
  | ok r =>
    obtain ⟨e, s⟩ := r
    have halike : ∀ x y, Alike { c₁.init with parser := s.orString x }
        { c₂.init with parser := s.orString y } := fun x y =>
      ⟨rfl, rfl, by rw [orString_linger, orString_linger], rfl⟩
    simp only [Except.map, endOrString, bind, Except.bind, HttpConn.finish]
    cases e with
    | code code =>
      simp only [Except.ok.injEq]
      exact outcome_alike (halike _ _) code fun hc => absurd hc (feed_code hf)
    | doRequest =>
      refine doRequest_alike (halike _ _) ?_
      by_cases hs : s.string = none
      · have hreads : ¬ ReadsString s := fun hr => h ⟨s, hf, hs, hr⟩
        rw [orString_none _ hs, orString_none _ hs]
        show (resolve w (s.withString _) fun _ => 0).map resolvedFile =
          (resolve w (s.withString _) fun _ => 0).map resolvedFile
        rw [resolve_withString w _ _ hreads, resolve_withString w _ _ hreads]
        cases resolve w s fun _ => 0 with
        | error f => rfl
        | ok r => rfl
      · have hsame : ∀ x, s.orString x = s := by
          intro x
          unfold Parser.orString
          cases hstring : s.string with
          | none => exact absurd hstring hs
          | some i => rfl
        rw [hsame, hsame]
        rfl

/-- A request that reads a stale `m_string` is not: on a fresh object there is none to read. -/
theorem serve_differs (w : World) {segs : List (List UInt8)} (h : StaleRead segs) :
    ∃ c₁ c₂, History w c₁ ∧ History w c₂ ∧ serve w c₁.init segs ≠ serve w c₂.init segs := by
  obtain ⟨s, hfeed, hs, hreads⟩ := h
  obtain ⟨c, hc, hstring⟩ := exists_history_string w
  refine ⟨HttpConn.constructed, c, .fresh rfl, hc, ?_⟩
  intro heq
  rw [serve_init, serve_init, hfeed] at heq
  have hfresh : HttpConn.constructed.init.finish w
      (endOrString HttpConn.constructed.parser.string (.doRequest, s)) =
      .error .uninitialized := by
    have hsame : s.orString HttpConn.constructed.parser.string = s := by
      have hnone : HttpConn.constructed.parser.string = s.string := hs.symm
      rw [orString_none _ hs, hnone, Parser.withString]
    rw [endOrString, hsame]
    simp only [HttpConn.finish, HttpConn.doRequest, bind, Except.bind,
      resolve_uninitialized w _ hs hreads]
    rfl
  have heq' : c.init.finish w (endOrString c.parser.string (.doRequest, s)) =
      .error .uninitialized := heq.symm.trans hfresh
  simp only [HttpConn.finish, endOrString] at heq'
  cases hdo : HttpConn.doRequest w { c.init with parser := s.orString c.parser.string } with
  | error f =>
    rw [hdo] at heq'
    cases heq'
    refine doRequest_error ?_ hdo rfl
    rw [orString_none _ hs]
    exact hstring
  | ok r =>
    rw [hdo] at heq'
    cases heq'

/-- **Isolation.** A request is answered alike after every two histories if and only if it does
not read a stale `m_string`. -/
theorem isolated_iff (w : World) (segs : List (List UInt8)) :
    (∀ c₁ c₂, History w c₁ → History w c₂ → serve w c₁.init segs = serve w c₂.init segs) ↔
      ¬ StaleRead segs := by
  constructor
  · intro hall hstale
    obtain ⟨c₁, c₂, h₁, h₂, hne⟩ := serve_differs w hstale
    exact hne (hall c₁ c₂ h₁ h₂)
  · exact fun h c₁ c₂ _ _ => serve_alike w c₁ c₂ h

/-- `StaleRead`, evaluated. -/
def staleReadCheck (segs : List (List UInt8)) : Bool :=
  match feed Parser.constructed.init segs with
  | .ok (.doRequest, s) =>
    s.string.isNone && s.cgi && match s.url with
      | none => false
      | some url =>
        match strrchr s.readBuf readBufferSize url slash,
          cstring s.readBuf readBufferSize (url + 2) with
        | .ok (some p), .ok rest =>
          (s.readBuf (p + 1) == 50 || s.readBuf (p + 1) == 51) && decide (rest.length + 2 ≤ 200)
        | _, _ => false
  | _ => false

theorem staleRead_of_check {segs : List (List UInt8)} (h : staleReadCheck segs = true) :
    StaleRead segs := by
  unfold staleReadCheck at h
  split at h
  · rename_i s hfeed
    rw [Bool.and_eq_true, Bool.and_eq_true] at h
    obtain ⟨⟨hstring, hcgi⟩, h⟩ := h
    split at h
    · cases h
    · rename_i url hurl
      split at h
      · rename_i p rest hp hrest
        simp only [Bool.and_eq_true, Bool.or_eq_true, beq_iff_eq, decide_eq_true_eq] at h
        exact ⟨s, hfeed, Option.isNone_iff_eq_none.mp hstring, hcgi, url, p, rest, hurl, hp, h.1,
          hrest, h.2⟩
      · cases h
  · cases h

/-- A login without a body. -/
theorem not_isolated : ¬ ∀ (w : World) (segs : List (List UInt8)) (c₁ c₂ : HttpConn),
    History w c₁ → History w c₂ → serve w c₁.init segs = serve w c₂.init segs := by
  intro hall
  have hstale : StaleRead [bytes "POST /2 HTTP/1.1\r\n\r\n"] :=
    staleRead_of_check (by decide +kernel)
  obtain ⟨c₁, c₂, h₁, h₂, hne⟩ := serve_differs onePage hstale
  exact hne (hall _ _ c₁ c₂ h₁ h₂)

end TinyHTTP.Http
