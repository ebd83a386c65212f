import TinyHTTP.Http.Conn

/-!
# TinyHTTP — version_01: the request line

`get_line` and the first half of `accept_request`: what the server understands of
the first line of a request, and the path it then asks `stat` for.
-/

namespace TinyHTTP.Version01

open TinyHTTP.Lib
open TinyHTTP.Http (asString cr lf slash)

def bufSize : Nat := 1024

-- ---------------------------------------------------------------------------
-- get_line
-- ---------------------------------------------------------------------------

/-- The loop of `get_line`, with room for so many bytes: the line, and what stays in the socket.
At the end of the input `recv` fails. -/
def getLineLoop : Nat → List UInt8 → List UInt8 × List UInt8
  | 0, input => ([], input)
  | _ + 1, [] => ([], [])
  | room + 1, c :: input =>
    if c = lf then ([c], input)
    else
      let (line, rest) := getLineLoop room input
      (c :: line, rest)

/-- `get_line`: the buffer, how many characters the line has, what stays in the socket. -/
def getLine (buf : Mem) (size : Nat) (input : List UInt8) :
    Except Fault (Mem × Nat × List UInt8) :=
  let (line, rest) := getLineLoop (size - 1) input
  let buf := writeBytes buf 0 line
  let i := line.length
  -- `buf[i-1]`, and behind a `\n` also `buf[i-2]`
  if i = 0 then .error .outOfBounds
  else if buf (i - 1) = lf then
    if i = 1 then .error .outOfBounds
    else if buf (i - 2) = cr then
      .ok (Function.update (Function.update buf (i - 2) lf) (i - 1) 0, i - 1, rest)
    else .ok (Function.update buf i 0, i, rest)
  else .ok (Function.update buf i 0, i, rest)

-- ---------------------------------------------------------------------------
-- accept_request
-- ---------------------------------------------------------------------------

/-- What `isspace` accepts. -/
def spaces : List UInt8 := [32, 9, 10, 11, 12, 13]

def questionMark : UInt8 := 63

/-- The locals of `accept_request` when it calls `stat`. -/
structure Request where
  method : List UInt8
  url : List UInt8
  /-- `none` is `NULL` -/
  queryString : Option (List UInt8)
  cgi : Bool
  path : List UInt8
  deriving DecidableEq, Repr

/-- `sprintf(path, "etc%s", url)`, and the default page of a directory. -/
def buildPath (url : List UInt8) : Except Fault (List UInt8) :=
  let path := bytes "etc" ++ url
  let path := if path.getLast? = some slash then path ++ bytes "index.html" else path
  if path.length + 1 ≤ 512 then .ok path else .error .outOfBounds

/-- What is copied to `method`. -/
def methodWord (buf : Mem) : Except Fault (List UInt8) :=
  copyWhile buf bufSize isSpace bufSize 254 0

/-- What is copied to `url`, from index `i` of a line of `numchars` characters on. -/
def urlWord (buf : Mem) (numchars i : Nat) : Except Fault (List UInt8) := do
  let i ← skipSpan buf bufSize i spaces
  copyWhile buf bufSize isSpace numchars 254 i

/-- `accept_request` up to `stat`, and what stays in the socket; `none` is `unimplemented`. -/
def acceptRequest (buf : Mem) (input : List UInt8) :
    Except Fault (Option Request × List UInt8) := do
  let (buf, numchars, rest) ← getLine buf bufSize input
  let word ← methodWord buf
  let method := asString word
  if method ≠ bytes "GET" ∧ method ≠ bytes "POST" then return (none, rest)
  let url := asString (← urlWord buf numchars word.length)
  if method = bytes "GET" then
    -- the URL ends at the first `?`, what follows is the query
    let path ← buildPath (url.takeWhile fun b => b ≠ questionMark)
    return (some {
      method := method
      url := url.takeWhile fun b => b ≠ questionMark
      queryString := some ((url.dropWhile fun b => b ≠ questionMark).drop 1)
      cgi := url.contains questionMark
      path := path }, rest)
  else
    let path ← buildPath url
    return (some { method := method, url := url, queryString := none, cgi := true, path := path },
      rest)

/-- The path is made of the URL. -/
theorem buildPath_ok {url path : List UInt8} (h : buildPath url = .ok path) :
    (url.getLast? ≠ some slash ∧ path = bytes "etc" ++ url) ∨
      (url.getLast? = some slash ∧ path = bytes "etc" ++ url ++ bytes "index.html") := by
  have hlast : (bytes "etc" ++ url).getLast? = some slash ↔ url.getLast? = some slash := by
    rw [List.getLast?_append]
    cases url.getLast? with
    | none => decide
    | some b => rfl
  unfold buildPath at h
  dsimp only at h
  split at h
  · rename_i hslash
    split at h
    · exact Or.inr ⟨hlast.mp hslash, (Except.ok.inj h).symm⟩
    · cases h
  · rename_i hslash
    split at h
    · exact Or.inl ⟨fun hurl => hslash (hlast.mpr hurl), (Except.ok.inj h).symm⟩
    · cases h

/-- The path that is looked for is the one of the URL. -/
theorem acceptRequest_path {buf : Mem} {input rest : List UInt8} {r : Request}
    (h : acceptRequest buf input = .ok (some r, rest)) : buildPath r.url = .ok r.path := by
  unfold acceptRequest at h
  obtain ⟨⟨buf₁, numchars, rest₁⟩, -, h⟩ := bind_ok.mp h
  obtain ⟨word, -, h⟩ := bind_ok.mp h
  dsimp only at h
  split at h
  · cases h
  obtain ⟨url, -, h⟩ := bind_ok.mp h
  split at h
  · obtain ⟨path, hpath, h⟩ := bind_ok.mp h
    cases h
    exact hpath
  · obtain ⟨path, hpath, h⟩ := bind_ok.mp h
    cases h
    exact hpath

end TinyHTTP.Version01
