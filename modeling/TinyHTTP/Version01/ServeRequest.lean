import TinyHTTP.Lib.CString
import TinyHTTP.Version01.AcceptRequest

/-!
# TinyHTTP — version_01: the answer to a request

The second half of `accept_request`, and what a whole request does to its socket: the
calls that read from it, write to it and close it. Every way through `accept_request`
ends in `close`, but for the one of a method it does not know.

* `acceptRequest_method` — the method is the first word of the request.
* `socketCalls_close` — a `GET` or `POST` request closes its socket, at its end and only
  there; no other request does.
-/

namespace TinyHTTP.Version01

open TinyHTTP.Lib
open TinyHTTP.Http (asString cr lf)

/-- What a thread does with its socket. -/
inductive SockCall where
  /-- `get_line` -/
  | getLine
  /-- `recv` of one byte of the body -/
  | recv
  | send (text : List UInt8)
  | close
  deriving DecidableEq, Repr

-- ---------------------------------------------------------------------------
-- Texts
-- ---------------------------------------------------------------------------

def serverString : String := "Server: tinyhttpd/1.0.0\r\n"

def sendAll (texts : List String) : List SockCall := texts.map fun text => .send (bytes text)

def unimplemented : List SockCall := sendAll [
  "HTTP/1.1 501 Method Not Implemented\r\n",
  serverString,
  "Content-Type: text/html\r\n",
  "\r\n",
  "<HTML><HEAD><TITLE>Method Not Implemented\r\n",
  "</TITLE></HEAD>\r\n",
  "<BODY><P>HTTP request method not supported.\r\n",
  "</BODY></HTML>\r\n"]

def notFound : List SockCall := sendAll [
  "HTTP/1.1 404 NOT FOUND\r\n",
  serverString,
  "Content-Type: text/html\r\n",
  "\r\n",
  "<HTML><TITLE>Not Found</TITLE>\r\n",
  "<BODY><P>The server could not fulfill\r\n",
  "your request because the resource specified\r\n",
  "is unavailable or nonexistent.\r\n",
  "</BODY></HTML>\r\n"]

def badRequest : List SockCall := sendAll [
  "HTTP/1.1 400 BAD REQUEST\r\n",
  "Content-type: text/html\r\n",
  "\r\n",
  "<P>Your browser sent a bad request, ",
  "such as a POST without a Content-Length.\r\n"]

def cannotExecute : List SockCall := sendAll [
  "HTTP/1.1 500 Internal Server Error\r\n",
  "Content-type: text/html\r\n",
  "\r\n",
  "<P>Error prohibited CGI execution.\r\n"]

def headers : List SockCall := sendAll [
  "HTTP/1.1 200 OK\r\n",
  serverString,
  "Content-Type: text/html\r\n",
  "\r\n"]

-- ---------------------------------------------------------------------------
-- The rest of the head
-- ---------------------------------------------------------------------------

/-- What `get_line` takes is not left in the socket. -/
theorem getLineLoop_append (room : Nat) (input : List UInt8) :
    (getLineLoop room input).1 ++ (getLineLoop room input).2 = input := by
  induction room generalizing input with
  | zero => rfl
  | succ room ih =>
    cases input with
    | nil => rfl
    | cons c input =>
      unfold getLineLoop
      split
      · rfl
      · exact congrArg (c :: ·) (ih input)

theorem getLine_ok {buf buf' : Mem} {size : Nat} {input rest : List UInt8} {numchars : Nat}
    (h : getLine buf size input = .ok (buf', numchars, rest)) :
    (getLineLoop (size - 1) input).1 ≠ [] ∧ rest = (getLineLoop (size - 1) input).2 := by
  unfold getLine at h
  generalize getLineLoop (size - 1) input = r at h
  obtain ⟨line, left⟩ := r
  simp only [List.length_eq_zero_iff] at h
  split at h
  · cases h
  · rename_i hne
    refine ⟨hne, ?_⟩
    split at h
    · split at h
      · cases h
      split at h <;> cases h <;> rfl
    · cases h
      rfl

theorem getLine_shorter {buf buf' : Mem} {size : Nat} {input rest : List UInt8} {numchars : Nat}
    (h : getLine buf size input = .ok (buf', numchars, rest)) : rest.length < input.length := by
  obtain ⟨hne, hrest⟩ := getLine_ok h
  have happend := congrArg List.length (getLineLoop_append (size - 1) input)
  have hpos := List.length_pos_iff.mpr hne
  rw [List.length_append] at happend
  rw [hrest]
  omega

/-- `strcmp("\n", buf) == 0` -/
def isBlank (buf : Mem) : Bool := buf 0 == lf && buf 1 == 0

/-- `char buf[1024] = "A"` -/
def initialBuf : Mem := writeBytes (fun _ => 0) 0 (bytes "A")

/-- The loop that reads the head and drops it. -/
def discardHeaders (buf : Mem) (numchars : Nat) (input : List UInt8) :
    Except Fault (List SockCall × List UInt8) :=
  if 0 < numchars ∧ isBlank buf = false then
    match _h : getLine buf bufSize input with
    | .error e => .error e
    | .ok (buf, numchars, rest) =>
      (discardHeaders buf numchars rest).map fun r => (.getLine :: r.1, r.2)
  else .ok ([], input)
termination_by input.length
decreasing_by exact getLine_shorter _h

/-- `atoi(m + i)` -/
def atoi (m : Mem) (size i : Nat) : Except Fault Int := (atol m size i).map toInt32

/-- One turn of the loop that looks for `Content-Length:`. -/
def headerLine (buf : Mem) (contentLength : Int) : Except Fault (Mem × Int) := do
  let buf := Function.update buf 15 0
  let name ← cstring buf bufSize 0
  if name = bytes "Content-Length:" then
    return (buf, ← atoi buf bufSize 16)
  else return (buf, contentLength)

/-- The loop that reads the head of a `POST` request: `content_length`. -/
def postHeaders (buf : Mem) (numchars : Nat) (contentLength : Int) (input : List UInt8) :
    Except Fault (List SockCall × Int × List UInt8) :=
  if 0 < numchars ∧ isBlank buf = false then
    match headerLine buf contentLength with
    | .error e => .error e
    | .ok (buf, contentLength) =>
      match _h : getLine buf bufSize input with
      | .error e => .error e
      | .ok (buf, numchars, rest) =>
        (postHeaders buf numchars contentLength rest).map fun r => (.getLine :: r.1, r.2)
  else .ok ([], contentLength, input)
termination_by input.length
decreasing_by exact getLine_shorter _h

-- ---------------------------------------------------------------------------
-- Answers
-- ---------------------------------------------------------------------------

/-- What the operating system answers. -/
structure System where
  /-- `stat`: whether the file has an `x` in its mode; `none` is −1. -/
  stat : List UInt8 → Option Bool
  /-- `fopen` and the bytes behind it; `none` is `NULL`. -/
  fopen : List UInt8 → Option (List UInt8)
  /-- both `pipe`s and `fork` succeed -/
  fork : Bool
  /-- what the script writes to its standard output -/
  script : Request → Int → List UInt8 → List UInt8

/-- A file system with nothing in it. -/
def noFiles : System where
  stat := fun _ => none
  fopen := fun _ => none
  fork := true
  script := fun _ _ _ => []

/-- `fgets` and `feof` over a file: the lines, cut after 1023 bytes. The bytes that are no line, at
the end of the file, are not sent. -/
def fgetsLines (room : Nat) (line : List UInt8) : List UInt8 → List (List UInt8)
  | [] => []
  | c :: file =>
    if c = lf ∨ room = 1 then (line ++ [c]) :: fgetsLines (bufSize - 1) [] file
    else fgetsLines (room - 1) (line ++ [c]) file

def cat (file : List UInt8) : List SockCall :=
  (fgetsLines (bufSize - 1) [] file).map fun line => .send (asString line)

/-- `server_file`; behind `not_found` it calls `fclose(NULL)`. -/
def serverFile (sys : System) (path input : List UInt8) : Except Fault (List SockCall) := do
  let (head, _) ← discardHeaders initialBuf 1 input
  match sys.fopen path with
  | none => .error .nullPointer
  | some file => return head ++ headers ++ cat file

/-- What the process that has forked does. -/
def runScript (sys : System) (r : Request) (contentLength : Int) (input : List UInt8) :
    List SockCall :=
  let body := if r.method = bytes "POST" then List.replicate contentLength.toNat .recv else []
  let output := (sys.script r contentLength input).map fun c => .send [c]
  .send (bytes "HTTP/1.1 200 OK\r\n") :: (body ++ output)

def executeCgi (sys : System) (r : Request) (input : List UInt8) :
    Except Fault (List SockCall) := do
  if r.method = bytes "GET" then
    let (head, input) ← discardHeaders initialBuf 1 input
    if sys.fork then return head ++ runScript sys r (-1) input else return head ++ cannotExecute
  else
    let (buf, numchars, input) ← getLine initialBuf bufSize input
    let (head, contentLength, input) ← postHeaders buf numchars (-1) input
    if contentLength = -1 then return .getLine :: (head ++ badRequest)
    else if sys.fork then return .getLine :: (head ++ runScript sys r contentLength input)
    else return .getLine :: (head ++ cannotExecute)

/-- `accept_request` behind the first line, up to `close`. -/
def answer (sys : System) (buf : Mem) (numchars : Nat) (r : Request) (input : List UInt8) :
    Except Fault (List SockCall) :=
  match sys.stat r.path with
  | none => do
    let (head, _) ← discardHeaders buf numchars input
    return head ++ notFound
  | some executable =>
    if r.cgi || executable then executeCgi sys r input else serverFile sys r.path input

/-- All of `accept_request`. -/
def socketCalls (sys : System) (garbage : Mem) (input : List UInt8) :
    Except Fault (List SockCall) := do
  let (buf, numchars, _) ← getLine garbage bufSize input
  let (request, rest) ← acceptRequest garbage input
  match request with
  -- `return NULL`
  | none => return .getLine :: unimplemented
  | some r =>
    let calls ← answer sys buf numchars r rest
    return .getLine :: (calls ++ [.close])

-- ---------------------------------------------------------------------------
-- The method
-- ---------------------------------------------------------------------------

/-- The bytes of a word: no NUL and no white space. -/
def inWord (b : UInt8) : Bool := b ≠ 0 && !isSpace b

/-- The request up to the first byte that is no part of a word. -/
def firstWord (input : List UInt8) : List UInt8 := input.takeWhile inWord

/-- The methods that `accept_request` knows. -/
def Supported (input : List UInt8) : Prop :=
  firstWord input = bytes "GET" ∨ firstWord input = bytes "POST"

instance (input : List UInt8) : Decidable (Supported input) :=
  inferInstanceAs (Decidable (_ ∨ _))

/-- The first word ends before a byte that is in none. -/
theorem firstWord_append {c : UInt8} (hc : inWord c = false) (bs cs : List UInt8) :
    firstWord (bs ++ c :: cs) = firstWord bs := by
  induction bs with
  | nil => simp [firstWord, hc]
  | cons b bs ih =>
    unfold firstWord at ih ⊢
    simp only [List.cons_append, List.takeWhile_cons, ih]

theorem firstWord_getLineLoop (room : Nat) (input : List UInt8) :
    firstWord (getLineLoop room input).1 = (firstWord input).take room := by
  induction room generalizing input with
  | zero => rfl
  | succ room ih =>
    cases input with
    | nil => rfl
    | cons c input =>
      unfold getLineLoop
      split
      · rename_i hc
        rw [hc]
        rfl
      · have htail := ih input
        unfold firstWord at htail ⊢
        simp only [List.takeWhile_cons, htail]
        split
        · rfl
        · rfl

/-- The word of a list is that of its string. -/
theorem asString_word (bs : List UInt8) :
    (asString bs).takeWhile (fun b => !isSpace b) = firstWord bs := by
  rw [asString, List.takeWhile_takeWhile]
  refine congrArg (fun p => List.takeWhile p bs) (funext fun b => ?_)
  rw [inWord]
  cases isSpace b <;> simp

/-- Whether a line ends with `\r\n` or `\n` makes no difference to its first word. -/
theorem firstWord_newline {taken : List UInt8} (hlen : 2 ≤ taken.length)
    (hcr : taken[taken.length - 2] = cr) (hlast : taken[taken.length - 1] = lf) :
    firstWord (taken.take (taken.length - 2) ++ [lf]) = firstWord taken := by
  have hdrop : taken.drop (taken.length - 2) = [cr, lf] := by
    rw [List.drop_eq_getElem_cons (by omega), hcr,
      show taken.length - 2 + 1 = taken.length - 1 by omega,
      List.drop_eq_getElem_cons (by omega), hlast, List.drop_eq_nil_of_le (by omega)]
  have hsplit : taken = taken.take (taken.length - 2) ++ [cr, lf] := by
    rw [← hdrop, List.take_append_drop]
  rw [firstWord_append (by decide)]
  conv_rhs => rw [hsplit]
  rw [firstWord_append (by decide)]

/-- The buffer of `get_line` holds a string with the first word of the line. -/
theorem getLine_string {buf buf' : Mem} {size : Nat} {input rest : List UInt8} {numchars : Nat}
    (h : getLine buf size input = .ok (buf', numchars, rest)) :
    ∃ h, HasString buf' 0 h ∧
      h.takeWhile (fun b => !isSpace b) = (firstWord input).take (size - 1) := by
  have hword := firstWord_getLineLoop (size - 1) input
  unfold getLine at h
  generalize getLineLoop (size - 1) input = r at h hword
  obtain ⟨taken, left⟩ := r
  dsimp only at h hword
  have hfresh (k : Nat) (hk : k < taken.length) : writeBytes buf 0 taken (0 + k) = taken[k] :=
    writeBytes_of_mem hk
  -- without `\r\n` at its end, the bytes are as they came
  have hasis : ∃ h, HasString (Function.update (writeBytes buf 0 taken) taken.length 0) 0 h ∧
      h.takeWhile (fun b => !isSpace b) = firstWord taken := by
    refine ⟨asString taken, hasString_takeWhile ?_ ?_, asString_word taken⟩
    · intro k hk
      rw [Function.update_of_ne (by omega)]
      exact hfresh k hk
    · rw [Nat.zero_add, Function.update_self]
  -- with it, the newline stands where the `\r` was
  have hnewline (hlen : 2 ≤ taken.length) (hlast : writeBytes buf 0 taken (taken.length - 1) = lf)
      (hcr : writeBytes buf 0 taken (taken.length - 2) = cr) :
      ∃ h, HasString
          (Function.update (Function.update (writeBytes buf 0 taken) (taken.length - 2) lf)
            (taken.length - 1) 0) 0 h ∧
        h.takeWhile (fun b => !isSpace b) = firstWord taken := by
    rw [← Nat.zero_add (_ - 1), hfresh _ (by omega)] at hlast
    rw [← Nat.zero_add (_ - 2), hfresh _ (by omega)] at hcr
    have hlength : (taken.take (taken.length - 2) ++ [lf]).length = taken.length - 1 := by
      simp only [List.length_append, List.length_take, List.length_singleton]
      omega
    refine ⟨asString (taken.take (taken.length - 2) ++ [lf]), hasString_takeWhile ?_ ?_, ?_⟩
    · intro k hk
      rw [hlength] at hk
      rw [Function.update_of_ne (by omega)]
      by_cases hk2 : k = taken.length - 2
      · subst hk2
        rw [Nat.zero_add, Function.update_self, List.getElem_append_right (by simp)]
        simp
      · rw [Function.update_of_ne (by omega), hfresh k (by omega),
          List.getElem_append_left (by rw [List.length_take]; omega), List.getElem_take]
    · rw [hlength, Nat.zero_add, Function.update_self]
    · rw [asString_word, firstWord_newline hlen hcr hlast]
  rw [← hword]
  split at h
  · cases h
  rename_i hpos
  split at h
  · rename_i hlast
    split at h
    · cases h
    rename_i hone
    split at h
    · rename_i hcr
      cases h
      exact hnewline (by omega) hlast hcr
    · cases h
      exact hasis
  · cases h
    exact hasis

/-- The method is the first word of the request. -/
theorem methodWord_eq {garbage buf : Mem} {input rest word : List UInt8} {numchars : Nat}
    (hline : getLine garbage bufSize input = .ok (buf, numchars, rest))
    (hmethod : methodWord buf = .ok word) : asString word = (firstWord input).take 254 := by
  obtain ⟨h, hs, hword⟩ := getLine_string hline
  have hcopied := copyWhile_string hs hmethod
  rw [hword, List.take_take] at hcopied
  exact hcopied

/-- A short word is the method if it is the first word. -/
theorem take_eq_iff {α : Type} {n : Nat} {w word : List α} (h : word.length < n) :
    w.take n = word ↔ w = word := by
  constructor
  · intro htake
    have hlen := congrArg List.length htake
    rw [List.length_take] at hlen
    rwa [List.take_of_length_le (by omega)] at htake
  · rintro rfl
    exact List.take_of_length_le (by omega)

/-- The comparison of the method with the two names. -/
theorem supported_iff {garbage buf : Mem} {input rest word : List UInt8} {numchars : Nat}
    (hline : getLine garbage bufSize input = .ok (buf, numchars, rest))
    (hmethod : methodWord buf = .ok word) :
    asString word = bytes "GET" ∨ asString word = bytes "POST" ↔ Supported input := by
  rw [methodWord_eq hline hmethod]
  exact or_congr (take_eq_iff (by decide)) (take_eq_iff (by decide))

theorem acceptRequest_method {garbage : Mem} {input rest : List UInt8} {request : Option Request}
    (h : acceptRequest garbage input = .ok (request, rest)) :
    request.isSome ↔ Supported input := by
  unfold acceptRequest at h
  obtain ⟨⟨buf, numchars, left⟩, hline, h⟩ := bind_ok.mp h
  obtain ⟨word, hmethod, h⟩ := bind_ok.mp h
  rw [← supported_iff hline hmethod]
  dsimp only at h
  split at h
  · rename_i hneither
    cases h
    simp [hneither]
  rename_i hknown
  obtain ⟨url, -, h⟩ := bind_ok.mp h
  have hsupported : asString word = bytes "GET" ∨ asString word = bytes "POST" := by
    simpa only [ne_eq, not_and_or, not_not] using hknown
  split at h
  · obtain ⟨path, -, h⟩ := bind_ok.mp h
    cases h
    simp [hsupported]
  · obtain ⟨path, -, h⟩ := bind_ok.mp h
    cases h
    simp [hsupported]

-- ---------------------------------------------------------------------------
-- close
-- ---------------------------------------------------------------------------

theorem not_close_sendAll (texts : List String) : SockCall.close ∉ sendAll texts := by
  simp [sendAll]

theorem not_close_getLine {calls : List SockCall} (h : SockCall.close ∉ calls) :
    SockCall.close ∉ SockCall.getLine :: calls := by
  simpa using h

theorem not_close_discardHeaders {buf : Mem} {numchars : Nat} {input rest : List UInt8}
    {calls : List SockCall} (h : discardHeaders buf numchars input = .ok (calls, rest)) :
    .close ∉ calls := by
  fun_induction discardHeaders buf numchars input generalizing calls rest with
  | case1 => cases h
  | case2 buf numchars input hcond buf' numchars' rest' hline ih =>
    obtain ⟨r, hr, h⟩ := map_ok.mp h
    cases h
    simpa using ih hr
  | case3 =>
    cases h
    exact List.not_mem_nil

theorem not_close_postHeaders {buf : Mem} {numchars : Nat} {contentLength length : Int}
    {input rest : List UInt8} {calls : List SockCall}
    (h : postHeaders buf numchars contentLength input = .ok (calls, length, rest)) :
    .close ∉ calls := by
  fun_induction postHeaders buf numchars contentLength input generalizing calls rest length with
  | case1 => cases h
  | case2 => cases h
  | case3 buf numchars contentLength input hcond buf' contentLength' hheader buf'' numchars' rest'
      hline ih =>
    obtain ⟨⟨tail, r⟩, hr, h⟩ := map_ok.mp h
    cases h
    simpa using ih hr
  | case4 =>
    cases h
    exact List.not_mem_nil

theorem not_close_runScript (sys : System) (r : Request) (contentLength : Int)
    (input : List UInt8) : .close ∉ runScript sys r contentLength input := by
  simp only [runScript, List.mem_cons, List.mem_append, List.mem_map, not_or, reduceCtorEq,
    not_false_eq_true, and_false, exists_false, true_and, and_true]
  split <;> simp

theorem not_close_executeCgi {sys : System} {r : Request} {input : List UInt8}
    {calls : List SockCall} (h : executeCgi sys r input = .ok calls) : .close ∉ calls := by
  unfold executeCgi at h
  split at h
  · obtain ⟨⟨head, rest⟩, hhead, h⟩ := bind_ok.mp h
    have hh := not_close_discardHeaders hhead
    dsimp only at h
    split at h
    · cases h
      exact List.not_mem_append hh (not_close_runScript _ _ _ _)
    · cases h
      exact List.not_mem_append hh (not_close_sendAll _)
  · obtain ⟨⟨buf, numchars, rest⟩, -, h⟩ := bind_ok.mp h
    obtain ⟨⟨head, contentLength, rest'⟩, hhead, h⟩ := bind_ok.mp h
    have hh := not_close_postHeaders hhead
    dsimp only at h
    split at h
    · cases h
      exact not_close_getLine (List.not_mem_append hh (not_close_sendAll _))
    split at h
    · cases h
      exact not_close_getLine (List.not_mem_append hh (not_close_runScript _ _ _ _))
    · cases h
      exact not_close_getLine (List.not_mem_append hh (not_close_sendAll _))

theorem not_close_serverFile {sys : System} {path input : List UInt8} {calls : List SockCall}
    (h : serverFile sys path input = .ok calls) : .close ∉ calls := by
  unfold serverFile at h
  obtain ⟨⟨head, rest⟩, hhead, h⟩ := bind_ok.mp h
  have hh := not_close_discardHeaders hhead
  dsimp only at h
  split at h
  · cases h
  · cases h
    have hheaders : SockCall.close ∉ headers := not_close_sendAll _
    simp [hh, hheaders, cat]

theorem not_close_answer {sys : System} {buf : Mem} {numchars : Nat} {r : Request}
    {input : List UInt8} {calls : List SockCall} (h : answer sys buf numchars r input = .ok calls) :
    .close ∉ calls := by
  unfold answer at h
  split at h
  · obtain ⟨⟨head, rest⟩, hhead, h⟩ := bind_ok.mp h
    cases h
    exact List.not_mem_append (not_close_discardHeaders hhead) (not_close_sendAll _)
  · split at h
    · exact not_close_executeCgi h
    · exact not_close_serverFile h

/-- A request with a method that the server knows ends with `close`, and has no other; one with
another method has none. -/
theorem socketCalls_close {sys : System} {garbage : Mem} {input : List UInt8}
    {calls : List SockCall} (h : socketCalls sys garbage input = .ok calls) :
    if Supported input then ∃ before, calls = before ++ [.close] ∧ .close ∉ before
    else .close ∉ calls := by
  unfold socketCalls at h
  obtain ⟨⟨buf, numchars, left⟩, hline, h⟩ := bind_ok.mp h
  obtain ⟨⟨request, rest⟩, haccept, h⟩ := bind_ok.mp h
  have hmethod := acceptRequest_method haccept
  cases request with
  | none =>
    rw [if_neg (by simpa using hmethod)]
    cases h
    exact not_close_getLine (not_close_sendAll _)
  | some r =>
    rw [if_pos (hmethod.mp rfl)]
    obtain ⟨answered, hanswer, h⟩ := bind_ok.mp h
    cases h
    exact ⟨.getLine :: answered, rfl, not_close_getLine (not_close_answer hanswer)⟩

end TinyHTTP.Version01
