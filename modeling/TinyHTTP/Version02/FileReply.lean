import TinyHTTP.Lib.Decimal
import TinyHTTP.Lib.Taking
import TinyHTTP.Version02.HandleRequest

/-!
# TinyHTTP — version_02: the reply

`write_200` hands a header and then a file to a non-blocking socket, which may take
only a part of either. `write` and `sendfile` are tested for -1 alone, and the exit
behind a failed `sendfile` skips the `close`.

* `write200_cases` — what a call sends, opens, closes and returns.
* `write200_accounted_iff` — when the reply is complete or reported as failed, and
  nothing stays open.
-/

namespace TinyHTTP.Version02

open TinyHTTP.Lib

-- ---------------------------------------------------------------------------
-- The file and the calls
-- ---------------------------------------------------------------------------

/-- The most that one `sendfile` takes. -/
def sendfileMax : Nat := 0x7ffff000

/-- A regular file; its size is an `off_t`. -/
structure RegularFile where
  content : List UInt8
  fits : content.length < 2 ^ 63

/-- What `stat` finds under a file name. -/
inductive Found where
  | missing
  | directory
  | regular (file : RegularFile)

/-- What the calls of one reply meet; the socket does not block. -/
structure Outcomes where
  write : Taking
  /-- the descriptor that `open` returns, if it is not -1 -/
  opened : Option Nat
  sendfile : Taking
  /-- the `write` of the body of `write_405` -/
  body : Taking

-- ---------------------------------------------------------------------------
-- The texts
-- ---------------------------------------------------------------------------

def http200Nonkeep (size : Int) : List UInt8 :=
  bytes "HTTP/1.1 200 OK\r\nContent-Type: text/html\r\nContent-Length: " ++ formatInt size ++
    bytes "\r\n\r\n"

def http200Keep (size : Int) : List UInt8 :=
  bytes ("HTTP/1.1 200 OK\r\nConnection: Keep-Alive\r\n" ++
    "Keep-Alive: timeout=30\r\nContent-Type: text/html\r\nContent-Length: ") ++ formatInt size ++
    bytes "\r\n\r\n"

def http405Keep : List UInt8 :=
  bytes ("HTTP/1.1 405 Request not allow\r\nConnection: keep-alive\r\n" ++
    "Server: dblank/1.0.0\r\nContent-Type: text/html\r\nContent-Length : 76\r\n\r\n")

def http405Nonkeep : List UInt8 :=
  bytes ("HTTP/1.1 405 Request not allow\r\nConnection: close\r\n" ++
    "Server: dblank/1.0.0\r\nContent-Type: text/html\r\nContent-Length : 76\r\n\r\n")

def body405 : List UInt8 :=
  bytes "<html> <h1>Hahahaha, we only accept GET because the maker is too low!</h1>\r\n"

/-- The header that `write_200` prints for a file of `size` bytes. -/
def header200 (alive : Bool) (size : Int) : List UInt8 :=
  if alive then http200Keep size else http200Nonkeep size

-- ---------------------------------------------------------------------------
-- write_405, write_200, send_http
-- ---------------------------------------------------------------------------

/-- What a reply has done by the time its function returns. -/
structure Reply where
  sent : List UInt8
  opened : List Nat
  closed : List Nat
  ret : Int
  deriving DecidableEq, Repr

/-- `write_405`: the bytes that are sent. -/
def write405 (alive : Bool) (io : Outcomes) : List UInt8 :=
  let header := if alive then http405Keep else http405Nonkeep
  (io.write.of header).getD [] ++ (io.body.of body405).getD []

def write200 (alive : Bool) (found : Found) (io : Outcomes) : Except Fault Reply :=
  match found with
  | .missing => .ok ⟨write405 alive io, [], [], -1⟩
  | .directory => .ok ⟨write405 alive io, [], [], -1⟩
  | .regular file =>
    let header := header200 alive file.content.length
    -- `char header[2048]`
    if header.length < 2048 then
      match io.write.of header with
      | none => .ok ⟨[], [], [], -1⟩
      | some head =>
        match io.opened with
        | none => .ok ⟨head, [], [], -1⟩
        | some fd =>
          match io.sendfile.of (file.content.take sendfileMax) with
          -- this `return -1` is in front of the `close`
          | none => .ok ⟨head, [fd], [], -1⟩
          | some body => .ok ⟨head ++ body, [fd], [fd], 0⟩
    else .error .outOfBounds

/-- `check_alive`: what happens to the socket. -/
inductive Afterwards where
  | epollIn
  | close
  deriving DecidableEq, Repr

def checkAlive (alive : Bool) : Afterwards := if alive then .epollIn else .close

/-- `send_http`, on a disk that holds `files`. -/
def sendHttpReply (conf : ConfHttp) (r : HttpRequest) (files : List UInt8 → Found)
    (io : Outcomes) : Except Fault (Reply × Afterwards) := do
  match ← sendHttp conf r with
  | none => return (⟨write405 r.alive io, [], [], -1⟩, checkAlive r.alive)
  | some path =>
    let mark ← write200 r.alive (files path) io
    return (mark, checkAlive r.alive)

-- ---------------------------------------------------------------------------
-- What one call does
-- ---------------------------------------------------------------------------

theorem length_header200_lt (alive : Bool) {size : Nat} (h : size < 2 ^ 63) :
    (header200 alive size).length < 2048 := by
  have hdigits : (formatInt size).length ≤ 19 := by
    rw [formatInt, if_neg (Int.not_lt.mpr (Int.natCast_nonneg size)), Int.natAbs_natCast,
      length_digits_iff (by decide)]
    exact Nat.lt_trans h (by decide)
  have hkeep : (bytes ("HTTP/1.1 200 OK\r\nConnection: Keep-Alive\r\n" ++
      "Keep-Alive: timeout=30\r\nContent-Type: text/html\r\nContent-Length: ")).length = 106 := by
    decide +kernel
  have hnonkeep : (bytes "HTTP/1.1 200 OK\r\nContent-Type: text/html\r\nContent-Length: ").length =
      58 := by decide +kernel
  have hend : (bytes "\r\n\r\n").length = 4 := by decide +kernel
  cases alive with
  | true =>
    simp only [header200, if_true, http200Keep, List.length_append, hkeep, hend]
    omega
  | false =>
    simp only [header200, Bool.false_eq_true, if_false, http200Nonkeep, List.length_append,
      hnonkeep, hend]
    omega

/-- The four ends of `write_200` on a regular file. -/
theorem write200_cases (alive : Bool) (file : RegularFile) (io : Outcomes) :
    ∃ r, write200 alive (.regular file) io = .ok r ∧
      ((io.write.Fails ∧ r = ⟨[], [], [], -1⟩) ∨
        ∃ head, io.write.of (header200 alive file.content.length) = some head ∧
          ((io.opened = none ∧ r = ⟨head, [], [], -1⟩) ∨
            ∃ fd, io.opened = some fd ∧
              ((io.sendfile.Fails ∧ r = ⟨head, [fd], [], -1⟩) ∨
                ∃ body, io.sendfile.of (file.content.take sendfileMax) = some body ∧
                  r = ⟨head ++ body, [fd], [fd], 0⟩))) := by
  simp only [write200, length_header200_lt alive file.fits, if_true]
  cases hwrite : io.write.of (header200 alive file.content.length) with
  | none => exact ⟨_, rfl, .inl ⟨Taking.of_eq_none_iff.mp hwrite, rfl⟩⟩
  | some head =>
    cases hopen : io.opened with
    | none => exact ⟨_, rfl, .inr ⟨head, rfl, .inl ⟨rfl, rfl⟩⟩⟩
    | some fd =>
      cases hsend : io.sendfile.of (file.content.take sendfileMax) with
      | none =>
        exact ⟨_, rfl, .inr ⟨head, rfl, .inr ⟨fd, rfl,
          .inl ⟨Taking.of_eq_none_iff.mp hsend, rfl⟩⟩⟩⟩
      | some body => exact ⟨_, rfl, .inr ⟨head, rfl, .inr ⟨fd, rfl, .inr ⟨body, rfl, rfl⟩⟩⟩⟩

-- ---------------------------------------------------------------------------
-- Replies that are complete or reported as failed
-- ---------------------------------------------------------------------------

/-- A reply with `file` is complete or reported as failed, and leaves no descriptor open. -/
structure Reply.Accounted (r : Reply) (alive : Bool) (file : RegularFile) : Prop where
  complete : r.ret = 0 → r.sent = header200 alive file.content.length ++ file.content
  failed : r.ret ≠ 0 → r.ret = -1
  closed : ∀ fd ∈ r.opened, fd ∈ r.closed

/-- Two prefixes make up the whole exactly if both are the whole. -/
theorem append_eq_iff_whole {α : Type} {head header body content : List α}
    (hhead : head <+: header) (hbody : body <+: content) :
    head ++ body = header ++ content ↔ head = header ∧ body = content := by
  constructor
  · intro h
    have hlen := congrArg List.length h
    rw [List.length_append, List.length_append] at hlen
    have hle := hhead.length_le
    have hle' := hbody.length_le
    exact ⟨hhead.eq_of_length (by omega), hbody.eq_of_length (by omega)⟩
  · rintro ⟨rfl, rfl⟩
    rfl

/-- `sendfile` takes the whole file if there is room for it, and if it is not too long for one
call. -/
theorem sendfile_whole_iff {io : Outcomes} {content body : List UInt8}
    (h : io.sendfile.of (content.take sendfileMax) = some body) :
    body = content ↔ io.sendfile.All content.length ∧ content.length ≤ sendfileMax := by
  have hprefix := Taking.isPrefix h
  constructor
  · rintro rfl
    have hle : body.length ≤ sendfileMax := by
      have hlen := hprefix.length_le
      rw [List.length_take] at hlen
      omega
    rw [List.take_of_length_le hle] at h
    exact ⟨(Taking.eq_self_iff h).mp rfl, hle⟩
  · rintro ⟨hall, hle⟩
    rw [List.take_of_length_le hle] at h
    exact (Taking.eq_self_iff h).mpr hall

/-- A call that returns -1 before `open` has succeeded. -/
theorem accounted_unopened (alive : Bool) (file : RegularFile) (sent : List UInt8) :
    Reply.Accounted ⟨sent, [], [], -1⟩ alive file where
  complete := fun h => absurd (show (-1 : Int) = 0 from h) (by decide)
  failed := fun _ => rfl
  closed := fun _ h => absurd h List.not_mem_nil

theorem write200_accounted_iff (alive : Bool) (file : RegularFile) (io : Outcomes) :
    (∃ r, write200 alive (.regular file) io = .ok r ∧ r.Accounted alive file) ↔
      io.write.Fails ∨ io.opened = none ∨
        (io.write.All (header200 alive file.content.length).length ∧
          io.sendfile.All file.content.length ∧ file.content.length ≤ sendfileMax) := by
  obtain ⟨r, hr, hcases⟩ := write200_cases alive file io
  have hexists : (∃ r, write200 alive (.regular file) io = .ok r ∧ r.Accounted alive file) ↔
      r.Accounted alive file := by
    rw [hr]
    constructor
    · rintro ⟨_, he, hacc⟩
      cases he
      exact hacc
    · intro hacc
      exact ⟨r, rfl, hacc⟩
  rw [hexists]
  rcases hcases with ⟨hfails, rfl⟩ | ⟨head, hwrite, ⟨hopen, rfl⟩ | ⟨fd, hopen, hsend⟩⟩
  · exact iff_of_true (accounted_unopened alive file []) (.inl hfails)
  · exact iff_of_true (accounted_unopened alive file head) (.inr (.inl hopen))
  have hgoes := Taking.not_fails_of_some hwrite
  rcases hsend with ⟨hfails, rfl⟩ | ⟨body, hsend, rfl⟩
  · -- the descriptor stays open
    refine iff_of_false ?_ ?_
    · intro hacc
      exact List.not_mem_nil (hacc.closed fd (List.mem_cons_self ..))
    · rintro (h | h | ⟨_, hall, _⟩)
      · exact hgoes h
      · rw [hopen] at h
        cases h
      · exact Taking.not_all_of_fails hfails hall
  · have hcomplete : head ++ body = header200 alive file.content.length ++ file.content ↔
        io.write.All (header200 alive file.content.length).length ∧
          io.sendfile.All file.content.length ∧ file.content.length ≤ sendfileMax := by
      rw [append_eq_iff_whole (Taking.isPrefix hwrite)
        ((Taking.isPrefix hsend).trans (List.take_prefix ..)), Taking.eq_self_iff hwrite,
        sendfile_whole_iff hsend]
    constructor
    · intro hacc
      exact .inr (.inr (hcomplete.mp (hacc.complete rfl)))
    · rintro (h | h | hall)
      · exact absurd h hgoes
      · rw [hopen] at h
        cases h
      · exact ⟨fun _ => hcomplete.mpr hall, fun h => absurd rfl h, fun _ h => h⟩

/-- A socket that is full behind the header leaves the descriptor open. -/
theorem not_write200_accounted :
    ¬ ∀ (alive : Bool) (file : RegularFile) (io : Outcomes),
      ∃ r, write200 alive (.regular file) io = .ok r ∧ r.Accounted alive file := by
  intro hall
  obtain ⟨r, hr, hacc⟩ := hall false ⟨bytes "hi", by decide +kernel⟩
    ⟨.upTo 4096, some 7, .eagain, .eagain⟩
  have hleak : write200 false (.regular ⟨bytes "hi", by decide +kernel⟩)
      ⟨.upTo 4096, some 7, .eagain, .eagain⟩ = .ok ⟨header200 false 2, [7], [], -1⟩ := by
    decide +kernel
  rw [hleak] at hr
  cases hr
  exact List.not_mem_nil (hacc.closed 7 (List.mem_cons_self ..))

-- Four bytes of the header and the file are a reply that returns 0.
example : write200 false (.regular ⟨bytes "hi", by decide +kernel⟩)
    ⟨.upTo 4, some 7, .upTo 2, .eagain⟩ = .ok ⟨bytes "HTTPhi", [7], [7], 0⟩ := by decide +kernel

-- ---------------------------------------------------------------------------
-- What send_http returns
-- ---------------------------------------------------------------------------

theorem write200_ret {alive : Bool} {found : Found} {io : Outcomes} {r : Reply}
    (h : write200 alive found io = .ok r) :
    r.ret = -1 ∨ r.ret = 0 ∧ ∃ file, found = .regular file := by
  cases found with
  | missing => cases h; exact .inl rfl
  | directory => cases h; exact .inl rfl
  | regular file =>
    obtain ⟨r', hr', hcases⟩ := write200_cases alive file io
    cases hr'.symm.trans h
    rcases hcases with ⟨_, rfl⟩ | ⟨_, _, ⟨_, rfl⟩ | ⟨_, _, ⟨_, rfl⟩ | ⟨_, _, rfl⟩⟩⟩
    · exact .inl rfl
    · exact .inl rfl
    · exact .inl rfl
    · exact .inr ⟨rfl, file, rfl⟩

/-- `send_http` returns 0 for a regular file only, and -1 otherwise; whether the connection goes
on does not depend on it. -/
theorem sendHttpReply_ret {conf : ConfHttp} {r : HttpRequest} {files : List UInt8 → Found}
    {io : Outcomes} {reply : Reply} {after : Afterwards}
    (h : sendHttpReply conf r files io = .ok (reply, after)) :
    after = checkAlive r.alive ∧
      (reply.ret = -1 ∨ reply.ret = 0 ∧ ∃ path file,
        sendHttp conf r = .ok (some path) ∧ files path = .regular file) := by
  obtain ⟨found, hfound, h⟩ := bind_ok.mp h
  cases found with
  | none =>
    cases h
    exact ⟨rfl, .inl rfl⟩
  | some path =>
    obtain ⟨mark, hmark, h⟩ := bind_ok.mp h
    cases h
    refine ⟨rfl, (write200_ret hmark).imp_right ?_⟩
    rintro ⟨hret, file, hfile⟩
    exact ⟨hret, path, file, hfound, hfile⟩

end TinyHTTP.Version02
