import TinyHTTP.Lib.Decimal
import TinyHTTP.Http.Parser

/-!
# TinyHTTP — the connection object

`http_conn` beyond the parser: `do_request` finds the file that a request is
about, `process_write` prepares the answer, `process` does both after
`process_read`. What lies outside the object is the `World`: the file system, the
`users` map and the database. Sending the answer is in `Http/Send`.
-/

namespace TinyHTTP.Http

open TinyHTTP.Lib

def filenameLen : Nat := 200
def writeBufferSize : Nat := 1024

def docRoot : List UInt8 := bytes "/root/TinyHTTP/version_03/root"

def ok200Title : List UInt8 := bytes "OK"
def error403Title : List UInt8 := bytes "Forbidden"
def error403Form : List UInt8 :=
  bytes "You do not have permission to get file form this server.\n"
def error404Title : List UInt8 := bytes "Not Found"
def error404Form : List UInt8 := bytes "The requested file was not found on this server.\n"
def error500Title : List UInt8 := bytes "Internal Error"
def error500Form : List UInt8 := bytes "There was an unusual problem serving the request file.\n"

-- ---------------------------------------------------------------------------
-- The world
-- ---------------------------------------------------------------------------

/-- What the code reads of a `struct stat`. -/
structure FileStat where
  size : Nat
  /-- `S_IROTH` -/
  othersRead : Bool
  isDir : Bool

/-- A file, as `stat`, `open` and `mmap` find it. -/
structure FileNode where
  stat : FileStat
  /-- the bytes that `mmap` maps; `none` when it fails, or `open` before it -/
  mapping : Option (List UInt8)
  /-- `mmap` maps `st_size` bytes, and fails for none -/
  mapping_length : ∀ content, mapping = some content →
    content.length = stat.size ∧ 0 < stat.size

structure World where
  /-- the file at a path -/
  file : List UInt8 → Option FileNode
  users : List UInt8 → Option (List UInt8)
  /-- whether `mysql_query` succeeds -/
  mysqlQuery : List UInt8 → Bool

-- ---------------------------------------------------------------------------
-- The object
-- ---------------------------------------------------------------------------

/-- `m_file_address` -/
inductive FileAddress where
  | null
  /-- `MAP_FAILED` -/
  | mapFailed
  | mapped (content : List UInt8)

/-- An `iov_base`: a place in `m_write_buf`, or one relative to `m_file_address`. -/
inductive IoBase where
  | writeBuf (i : Nat)
  | file (i : Int)
  deriving DecidableEq, Repr

structure Iovec where
  base : IoBase
  len : Nat
  deriving DecidableEq, Repr

structure HttpConn where
  parser : Parser
  realFile : Mem
  /-- the first `m_write_idx` bytes of `m_write_buf`; none of the others is ever sent -/
  writeBuf : List UInt8
  fileAddress : FileAddress
  fileStat : FileStat
  iv0 : Iovec
  iv1 : Iovec
  ivCount : Nat
  bytesToSend : Int
  bytesHaveSend : Int

/-- An object of `new http_conn[MAX_FD]`. The constructor sets no member; but for `m_string`, the
values here stand for any. -/
def HttpConn.constructed : HttpConn where
  parser := Parser.constructed
  realFile := fun _ => 0
  writeBuf := []
  fileAddress := .null
  fileStat := ⟨0, false, false⟩
  iv0 := ⟨.writeBuf 0, 0⟩
  iv1 := ⟨.writeBuf 0, 0⟩
  ivCount := 0
  bytesToSend := 0
  bytesHaveSend := 0

/-- The private `init()`. -/
def HttpConn.init (c : HttpConn) : HttpConn :=
  { c with
    parser := c.parser.init
    realFile := fun _ => 0
    writeBuf := []
    bytesToSend := 0
    bytesHaveSend := 0 }

/-- The iovecs that are in use. -/
def HttpConn.iovecs (c : HttpConn) : List Iovec := [c.iv0, c.iv1].take c.ivCount

def HttpConn.readOnce (c : HttpConn) (recv : Recv) : HttpConn × Bool :=
  let (s, ok) := c.parser.readOnce recv
  ({ c with parser := s }, ok)

-- ---------------------------------------------------------------------------
-- do_request
-- ---------------------------------------------------------------------------

/-- `for (; m_string[i] != stop; ++i)` copying into an array with `room` bytes left, the NUL
included. -/
def copyField (buf : Mem) (stop : UInt8) : Nat → Nat → Except Fault (List UInt8)
  | 0, _ => .error .outOfBounds
  | room + 1, i =>
    if i ≥ readBufferSize then .error .outOfBounds
    else if buf i = stop then .ok []
    else (copyField buf stop room (i + 1)).map (buf i :: ·)

/-- An array that a loop has filled, read as a C string. -/
def asString (bs : List UInt8) : List UInt8 := bs.takeWhile fun b => b ≠ 0

/-- The name and the password in `m_string`, which is at `text`. -/
def credentials (buf : Mem) (text : Nat) : Except Fault (List UInt8 × List UInt8) := do
  let name ← copyField buf 38 100 (text + 5)
  let password ← copyField buf 0 100 (text + 5 + name.length + 10)
  return (asString name, password)

def sqlInsert (name password : List UInt8) : List UInt8 :=
  bytes "INSERT INTO user(username, passwd) VALUES(" ++ bytes "'" ++ name ++ bytes "', '" ++
    password ++ bytes "')"

/-- Registration: the new `users` map, and the page that answers. -/
def World.register (w : World) (name password : List UInt8) : World × List UInt8 :=
  match w.users name with
  | some _ => (w, bytes "/registerError.html")
  | none =>
    let page := if w.mysqlQuery (sqlInsert name password) then bytes "/log.html"
      else bytes "/registerError.html"
    ({ w with users := Function.update w.users name (some password) }, page)

/-- Login: the page that answers. -/
def World.login (w : World) (name password : List UInt8) : List UInt8 :=
  if w.users name = some password then bytes "/welcome.html" else bytes "/logError.html"

/-- `flag` is `*(p + 1)`: `'3'` registers, `'2'` logs in. -/
def World.check (w : World) (flag : UInt8) (name password : List UInt8) :
    Except Fault (World × List UInt8) :=
  if flag = 51 then
    -- `sql_insert` has 200 bytes
    if (sqlInsert name password).length + 1 ≤ 200 then .ok (w.register name password)
    else .error .outOfBounds
  else .ok (w, w.login name password)

/-- Login and registration: `strcpy(m_url, page)` leaves the page to be served. -/
def cgiRequest (w : World) (s : Parser) (real : Mem) (url p : Nat) :
    Except Fault (World × Parser × Mem) := do
  let rest ← cstring s.readBuf readBufferSize (url + 2)
  -- `m_url_real` has 200 bytes
  if rest.length + 2 ≤ 200 then
    let real := strncpy real docRoot.length (bytes "/" ++ rest) (filenameLen - docRoot.length - 1)
    match s.string with
    | none => .error .uninitialized
    | some text =>
      let (name, password) ← credentials s.readBuf text
      let (w, page) ← w.check (s.readBuf (p + 1)) name password
      let buf ← strcatAt s.readBuf url page
      return (w, { s with readBuf := buf }, real)
  else .error .outOfBounds

/-- `if (cgi == 1 && (*(p + 1) == '2' || *(p + 1) == '3'))` -/
def cgiBranch (w : World) (s : Parser) (real : Mem) (url p : Nat) :
    Except Fault (World × Parser × Mem) :=
  if s.cgi = true ∧ (s.readBuf (p + 1) = 50 ∨ s.readBuf (p + 1) = 51) then
    cgiRequest w s real url p
  else .ok (w, s, real)

/-- The page that `*(p + 1)` stands for. -/
def flagPage (flag : UInt8) : Option (List UInt8) :=
  if flag = 48 then some (bytes "/register.html")
  else if flag = 49 then some (bytes "/log.html")
  else if flag = 53 then some (bytes "/picture.html")
  else if flag = 54 then some (bytes "/video.html")
  else if flag = 55 then some (bytes "/fans.html")
  else none

/-- The `if` chain on `*(p + 1)`. A page is copied by `strncpy` with its own length, so without a
NUL. -/
def pageFile (s : Parser) (real : Mem) (url p : Nat) : Except Fault Mem :=
  match flagPage (s.readBuf (p + 1)) with
  | some page => .ok (strncpy real docRoot.length page page.length)
  | none => do
    let u ← cstring s.readBuf readBufferSize url
    return strncpy real docRoot.length u (filenameLen - docRoot.length - 1)

/-- `do_request` up to `stat`: the path ends up in `m_real_file`. -/
def resolve (w : World) (s : Parser) (real : Mem) : Except Fault (World × Parser × Mem) := do
  let real := writeBytes real 0 (docRoot ++ [0])
  match s.url with
  | none => .error .nullPointer
  | some url =>
    match ← strrchr s.readBuf readBufferSize url slash with
    | none => .error .nullPointer
    | some p =>
      let (w, s, real) ← cgiBranch w s real url p
      let real ← pageFile s real url p
      return (w, s, real)

/-- `open` and `mmap`. -/
def FileNode.mmap (node : FileNode) : FileAddress :=
  match node.mapping with
  | none => .mapFailed
  | some content => .mapped content

/-- `do_request` from `stat` on. -/
def HttpConn.openFile (w : World) (c : HttpConn) (path : List UInt8) : HttpConn × HttpCode :=
  match w.file path with
  | none => (c, .noResource)
  | some node =>
    let c := { c with fileStat := node.stat }
    if node.stat.othersRead = false then (c, .forbiddenRequest)
    else if node.stat.isDir = true then (c, .badRequest)
    else
      ({ c with fileAddress := node.mmap }, .fileRequest)

def HttpConn.doRequest (w : World) (c : HttpConn) : Except Fault (World × HttpConn × HttpCode) := do
  let (w, s, real) ← resolve w c.parser c.realFile
  let path ← cstring real filenameLen 0
  let (c, code) := HttpConn.openFile w { c with parser := s, realFile := real } path
  return (w, c, code)

/-- `process_read`, with the call of `do_request`. -/
def HttpConn.processRead (w : World) (c : HttpConn) :
    Except Fault (World × HttpConn × HttpCode) := do
  let (r, s) ← Http.processRead c.parser
  match r with
  | .code code => return (w, { c with parser := s }, code)
  | .doRequest => HttpConn.doRequest w { c with parser := s }

-- ---------------------------------------------------------------------------
-- process_write
-- ---------------------------------------------------------------------------

/-- `add_response`, with the text that the format gives. -/
def HttpConn.addResponse (c : HttpConn) (text : List UInt8) : HttpConn × Bool :=
  if c.writeBuf.length ≥ writeBufferSize then (c, false)
  else if text.length ≥ writeBufferSize - 1 - c.writeBuf.length then (c, false)
  else ({ c with writeBuf := c.writeBuf ++ text }, true)

def statusLine (status : Nat) (title : List UInt8) : List UInt8 :=
  bytes "HTTP/1.1" ++ [32] ++ digits status ++ [32] ++ title ++ crlf

def contentLengthLine (n : Int) : List UInt8 := bytes "Content-Length:" ++ formatInt n ++ crlf

def lingerLine (linger : Bool) : List UInt8 :=
  bytes "Connection:" ++ (if linger then bytes "keep-alive" else bytes "close") ++ crlf

def HttpConn.addStatusLine (c : HttpConn) (status : Nat) (title : List UInt8) :
    HttpConn × Bool := c.addResponse (statusLine status title)

def HttpConn.addContentLength (c : HttpConn) (n : Int) : HttpConn × Bool :=
  c.addResponse (contentLengthLine n)

def HttpConn.addLinger (c : HttpConn) : HttpConn × Bool :=
  c.addResponse (lingerLine c.parser.linger)

def HttpConn.addBlankLine (c : HttpConn) : HttpConn × Bool := c.addResponse crlf

def HttpConn.addContent (c : HttpConn) (content : List UInt8) : HttpConn × Bool :=
  c.addResponse content

/-- `add_headers`, which looks at none of the three results. It is declared to return a `bool` and
has no `return`; no caller uses its value. -/
def HttpConn.addHeaders (c : HttpConn) (contentLen : Int) : HttpConn :=
  (c.addContentLength contentLen).1.addLinger.1.addBlankLine.1

/-- What follows the `switch`: one iovec, for the write buffer. -/
def HttpConn.useWriteBuf (c : HttpConn) : HttpConn :=
  { c with
    iv0 := ⟨.writeBuf 0, c.writeBuf.length⟩
    ivCount := 1
    bytesToSend := c.writeBuf.length }

/-- `if (!add_content(...)) return false; break;`, and what follows the `switch`. -/
def useIfAdded : HttpConn × Bool → HttpConn × Bool
  | (c, true) => (c.useWriteBuf, true)
  | (c, false) => (c, false)

/-- The `case` of an error. -/
def HttpConn.addError (c : HttpConn) (status : Nat) (title form : List UInt8) : HttpConn × Bool :=
  useIfAdded (((c.addStatusLine status title).1.addHeaders form.length).addContent form)

def okString : List UInt8 := bytes "<html><body></body></html>"

def HttpConn.processWrite (c : HttpConn) : HttpCode → HttpConn × Bool
  | .internalError => c.addError 500 error500Title error500Form
  | .badRequest => c.addError 404 error404Title error404Form
  | .forbiddenRequest => c.addError 403 error403Title error403Form
  | .fileRequest =>
    let c := (c.addStatusLine 200 ok200Title).1
    if c.fileStat.size ≠ 0 then
      let c := c.addHeaders (toInt32 c.fileStat.size)
      ({ c with
        iv0 := ⟨.writeBuf 0, c.writeBuf.length⟩
        iv1 := ⟨.file 0, c.fileStat.size⟩
        ivCount := 2
        bytesToSend := toInt32 (c.writeBuf.length + c.fileStat.size) }, true)
    else
      -- there is no `break`: what follows is `default`
      let c := c.addHeaders okString.length
      ((c.addContent okString).1, false)
  | .noRequest | .getRequest | .noResource | .closedConnection => (c, false)

-- ---------------------------------------------------------------------------
-- process
-- ---------------------------------------------------------------------------

/-- The event a `modfd` arms a socket for. -/
inductive Interest where
  | epollin
  | epollout
  deriving DecidableEq, Repr

/-- How `process()` ends: with a `modfd`, or with `close_conn()` (whose `modfd` then names the
socket number `-1`). -/
inductive ProcessEffect where
  | modfd (ev : Interest)
  | closeConn
  deriving DecidableEq, Repr

/-- `process()`, once `process_read` has returned `code`. -/
def HttpConn.answer (c : HttpConn) (code : HttpCode) : HttpConn × ProcessEffect :=
  if code = .noRequest then (c, .modfd .epollin)
  else match c.processWrite code with
    | (c, true) => (c, .modfd .epollout)
    | (c, false) => (c, .closeConn)

def HttpConn.process (w : World) (c : HttpConn) :
    Except Fault (World × HttpConn × ProcessEffect) := do
  let (w, c, code) ← HttpConn.processRead w c
  let (c, effect) := c.answer code
  return (w, c, effect)

end TinyHTTP.Http
