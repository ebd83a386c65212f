import TinyHTTP.Lib.Memory

/-!
# TinyHTTP — the request parser

The two state machines of `http_conn`: `parse_line` cuts the read buffer into
lines, `process_read` drives `parse_request_line`, `parse_headers` and
`parse_content` over them. Pointers into the read buffer are indices into it;
the string functions run over the buffer in place, as they do in the source.

A result `.error` is a step that C++ leaves undefined: a null pointer handed to
a string function, an index outside the buffer, an `int` overflow.

The `LOG_INFO` calls are left out. They hand each line of the request, and the
response, to the logger, which copies a line into a buffer of 2000 bytes whatever
its length is (`Log.LineBuffer`); a line of 1964 bytes or more overflows it. What is
said of a request is said of a server whose logger has room for its lines.
-/

namespace TinyHTTP.Http

open TinyHTTP.Lib

def readBufferSize : Nat := 2048

inductive Method where
  | get
  | post
  deriving DecidableEq, Repr

inductive CheckState where
  | requestLine
  | header
  | content
  deriving DecidableEq, Repr

inductive HttpCode where
  | noRequest
  | getRequest
  | badRequest
  | noResource
  | forbiddenRequest
  | fileRequest
  | internalError
  | closedConnection
  deriving DecidableEq, Repr

inductive LineStatus where
  | lineOk
  | lineBad
  | lineOpen
  deriving DecidableEq, Repr

/-- The members of `http_conn` that parsing reads and writes. -/
structure Parser where
  readBuf : Mem
  readIdx : Nat
  checkedIdx : Nat
  startLine : Nat
  checkState : CheckState
  method : Method
  /-- `none` is `NULL`, here and in the next two -/
  url : Option Nat
  version : Option Nat
  host : Option Nat
  contentLength : Int
  linger : Bool
  cgi : Bool
  /-- `m_string`; `none` until it is first assigned, since no `init` sets it -/
  string : Option Nat

def cr : UInt8 := 13
def lf : UInt8 := 10
def crlf : List UInt8 := [cr, lf]
def slash : UInt8 := 47

/-- `" \t"` -/
def blanks : List UInt8 := [32, 9]

/-- A parser of `new http_conn[MAX_FD]`. The constructor sets no member, and `init` all but
`m_string`; the values here stand for any. -/
def Parser.constructed : Parser where
  readBuf := fun _ => 0
  readIdx := 0
  checkedIdx := 0
  startLine := 0
  checkState := .requestLine
  method := .get
  url := none
  version := none
  host := none
  contentLength := 0
  linger := false
  cgi := false
  string := none

/-- The parsing part of `init()`. -/
def Parser.init (s : Parser) : Parser :=
  { s with
    readBuf := fun _ => 0
    readIdx := 0
    checkedIdx := 0
    startLine := 0
    checkState := .requestLine
    method := .get
    url := none
    version := none
    host := none
    contentLength := 0
    linger := false
    cgi := false }

-- ---------------------------------------------------------------------------
-- Input
-- ---------------------------------------------------------------------------

/-- What the socket answers to `recv`. -/
inductive Recv where
  /-- these bytes are waiting -/
  | data (bs : List UInt8)
  | closed
  | error

/-- The bytes `bs` appended to the read buffer. -/
def Parser.deliver (s : Parser) (bs : List UInt8) : Parser :=
  { s with readBuf := writeBytes s.readBuf s.readIdx bs, readIdx := s.readIdx + bs.length }

/-- `read_once()`, level triggered. -/
def Parser.readOnce (s : Parser) : Recv → Parser × Bool
  | recv =>
    if s.readIdx ≥ readBufferSize then (s, false)
    else match recv with
      | .data bs =>
        let bytesRead := bs.take (readBufferSize - s.readIdx)
        (s.deliver bytesRead, !bytesRead.isEmpty)
      | .closed => (s, false)
      -- `m_read_idx += -1`; nothing distinguishes an index of `-1` from `0`
      | .error => ({ s with readIdx := s.readIdx - 1 }, false)

-- ---------------------------------------------------------------------------
-- parse_line
-- ---------------------------------------------------------------------------

/-- The `for` loop of `parse_line`, with `remaining` bytes up to `m_read_idx`. -/
def parseLineLoop : Nat → Parser → LineStatus × Parser
  | 0, s => (.lineOpen, s)
  | remaining + 1, s =>
    let temp := s.readBuf s.checkedIdx
    if temp = cr then
      if s.checkedIdx + 1 = s.readIdx then (.lineOpen, s)
      else if s.readBuf (s.checkedIdx + 1) = lf then
        (.lineOk, { s with
          readBuf := Function.update (Function.update s.readBuf s.checkedIdx 0)
            (s.checkedIdx + 1) 0
          checkedIdx := s.checkedIdx + 2 })
      else (.lineBad, s)
    else if temp = lf then
      if s.checkedIdx > 1 ∧ s.readBuf (s.checkedIdx - 1) = cr then
        (.lineOk, { s with
          readBuf := Function.update (Function.update s.readBuf (s.checkedIdx - 1) 0)
            s.checkedIdx 0
          checkedIdx := s.checkedIdx + 1 })
      else (.lineBad, s)
    else parseLineLoop remaining { s with checkedIdx := s.checkedIdx + 1 }

def parseLine (s : Parser) : LineStatus × Parser := parseLineLoop (s.readIdx - s.checkedIdx) s

-- ---------------------------------------------------------------------------
-- parse_request_line
-- ---------------------------------------------------------------------------

/-- `if (strncasecmp(m_url, scheme, |scheme|) == 0)`
`{ m_url += |scheme|; m_url = strchr(m_url, '/'); }` -/
def stripScheme (buf : Mem) (scheme : List UInt8) : Option Nat → Except Fault (Option Nat)
  | none => .error .nullPointer
  | some url =>
    if strncasecmpEq buf url scheme then strchr buf readBufferSize (url + scheme.length) slash
    else .ok (some url)

/-- `strcat(dst, src)`, where `e` is the end of the string at `dst`. -/
def strcatAt (buf : Mem) (e : Nat) (src : List UInt8) : Except Fault Mem :=
  if e + src.length + 1 ≤ readBufferSize then .ok (writeBytes buf e (src ++ [0]))
  else .error .outOfBounds

/-- `parse_request_line` once the version has been accepted. -/
def parseUrl (s : Parser) (url : Nat) : Except Fault (HttpCode × Parser) := do
  let url ← stripScheme s.readBuf (bytes "http://") (some url)
  let url ← stripScheme s.readBuf (bytes "https://") url
  let s := { s with url := url }
  match url with
  | none => .ok (.badRequest, s)
  | some url =>
    if s.readBuf url ≠ slash then .ok (.badRequest, s)
    else
      let e ← strEnd s.readBuf readBufferSize url
      if e - url = 1 then
        let buf ← strcatAt s.readBuf e (bytes "judge.html")
        .ok (.noRequest, { s with readBuf := buf, checkState := .header })
      else .ok (.noRequest, { s with checkState := .header })

/-- `parse_request_line` once the method has been recognised. -/
def parseTarget (s : Parser) (url : Nat) : Except Fault (HttpCode × Parser) := do
  let url ← skipSpan s.readBuf readBufferSize url blanks
  let version ← strpbrk s.readBuf readBufferSize url blanks
  let s := { s with url := some url, version := version }
  match version with
  | none => .ok (.badRequest, s)
  | some e =>
    let buf := Function.update s.readBuf e 0
    let version ← skipSpan buf readBufferSize (e + 1) blanks
    let s := { s with readBuf := buf, version := some version }
    if strcasecmpEq buf version (bytes "HTTP/1.1") then parseUrl s url
    else .ok (.badRequest, s)

def parseRequestLine (s : Parser) (text : Nat) : Except Fault (HttpCode × Parser) := do
  let url ← strpbrk s.readBuf readBufferSize text blanks
  match url with
  | none => .ok (.badRequest, { s with url := none })
  | some e =>
    let s := { s with readBuf := Function.update s.readBuf e 0, url := some (e + 1) }
    if strcasecmpEq s.readBuf text (bytes "GET") then
      parseTarget { s with method := .get } (e + 1)
    else if strcasecmpEq s.readBuf text (bytes "POST") then
      parseTarget { s with method := .post, cgi := true } (e + 1)
    else .ok (.badRequest, s)

-- ---------------------------------------------------------------------------
-- parse_headers
-- ---------------------------------------------------------------------------

def parseHeaders (s : Parser) (text : Nat) : Except Fault (HttpCode × Parser) :=
  if s.readBuf text = 0 then
    if s.contentLength ≠ 0 then .ok (.noRequest, { s with checkState := .content })
    else .ok (.getRequest, s)
  else if strncasecmpEq s.readBuf text (bytes "Connection:") then do
    let text ← skipSpan s.readBuf readBufferSize (text + 11) blanks
    if strcasecmpEq s.readBuf text (bytes "keep-alive") then
      .ok (.noRequest, { s with linger := true })
    else .ok (.noRequest, s)
  else if strncasecmpEq s.readBuf text (bytes "Content-length:") then do
    let text ← skipSpan s.readBuf readBufferSize (text + 15) blanks
    let n ← atol s.readBuf readBufferSize text
    .ok (.noRequest, { s with contentLength := toInt32 n })
  else if strncasecmpEq s.readBuf text (bytes "Host:") then do
    let text ← skipSpan s.readBuf readBufferSize (text + 5) blanks
    .ok (.noRequest, { s with host := some text })
  else .ok (.noRequest, s)

-- ---------------------------------------------------------------------------
-- parse_content
-- ---------------------------------------------------------------------------

def parseContent (s : Parser) (text : Nat) : Except Fault (HttpCode × Parser) :=
  if s.contentLength + s.checkedIdx ≥ 2 ^ 31 then .error .signedOverflow
  else if s.readIdx ≥ s.contentLength + s.checkedIdx then
    let i := text + s.contentLength
    if 0 ≤ i ∧ i < readBufferSize then
      .ok (.getRequest, { s with
        readBuf := Function.update s.readBuf i.toNat 0
        string := some text })
    else .error .outOfBounds
  else .ok (.noRequest, s)

-- ---------------------------------------------------------------------------
-- process_read
-- ---------------------------------------------------------------------------

/-- How `process_read` ends: it returns a code, or calls `do_request`. -/
inductive ReadEnd where
  | code (c : HttpCode)
  | doRequest
  deriving DecidableEq, Repr

/-- One turn of the `while` loop: on to the next turn with this `line_status`, or out. -/
inductive Turn where
  | again (lineStatus : LineStatus) (s : Parser)
  | stop (r : ReadEnd) (s : Parser)

/-- `m_start_line = m_checked_idx` -/
def Parser.nextLine (s : Parser) : Parser := { s with startLine := s.checkedIdx }

/-- `case CHECK_STATE_REQUESTLINE`, after the call. -/
def requestLineTurn (r : HttpCode × Parser) : Turn :=
  if r.1 = .badRequest then .stop (.code .badRequest) r.2 else .again .lineOk r.2

/-- `case CHECK_STATE_HEADER`, after the call. -/
def headerTurn (r : HttpCode × Parser) : Turn :=
  if r.1 = .badRequest then .stop (.code .badRequest) r.2
  else if r.1 = .getRequest then .stop .doRequest r.2
  else .again .lineOk r.2

/-- `case CHECK_STATE_CONTENT`, after the call. -/
def contentTurn (r : HttpCode × Parser) : Turn :=
  if r.1 = .getRequest then .stop .doRequest r.2 else .again .lineOpen r.2

/-- The body of the `while` loop. -/
def handleLine (s : Parser) : Except Fault Turn :=
  match s.checkState with
  | .requestLine => (parseRequestLine s.nextLine s.startLine).map requestLineTurn
  | .header => (parseHeaders s.nextLine s.startLine).map headerTurn
  | .content => (parseContent s.nextLine s.startLine).map contentTurn

/-- The condition of the `while` loop, then its body. -/
def turn (lineStatus : LineStatus) (s : Parser) : Except Fault Turn :=
  if s.checkState = .content ∧ lineStatus = .lineOk then handleLine s
  else match parseLine s with
    | (.lineOk, s) => handleLine s
    | (_, s) => .ok (.stop (.code .noRequest) s)

/-- The `while` loop of `process_read`, less its `LOG_INFO`; `fuel` bounds the number of turns. -/
def processReadLoop : Nat → LineStatus → Parser → Except Fault (ReadEnd × Parser)
  | 0, _, s => .ok (.code .noRequest, s)
  | fuel + 1, lineStatus, s => do
    match ← turn lineStatus s with
    | .stop r s => .ok (r, s)
    | .again lineStatus s => processReadLoop fuel lineStatus s

/-- `process_read` up to the call of `do_request`. Every turn but the first takes a byte off the
buffer, see `processReadLoop_fuel`. -/
def processRead (s : Parser) : Except Fault (ReadEnd × Parser) :=
  processReadLoop (s.readIdx - s.checkedIdx + 2) .lineOk s

end TinyHTTP.Http
