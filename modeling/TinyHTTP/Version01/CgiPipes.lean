import TinyHTTP.Lib.Filter
import TinyHTTP.Lib.Inevitable
import TinyHTTP.Version01.CgiInput

/-!
# TinyHTTP — version_01: a script and its pipes

`execute_cgi` behind `fork`: two processes that run side by side, with a pipe for the
input of the script and one for its output. The server relays the whole body before
it reads a byte of the output, and keeps its end of the first pipe open until the second one
ends. Both processes send the status line, as the `send` of it stands behind `fork`.

The client stays connected and reads: no `send` blocks, fails or raises `SIGPIPE`.

* `Cgi.Follows.next` — what the two processes have done together is what the script does
  with the body alone.
* `client_stream` — what the client gets, in every order of steps.
-/

namespace TinyHTTP.Version01

open TinyHTTP.Lib

/-- Where the server is in `execute_cgi`; `n` counts turns of the loop that relays the body. -/
inductive Parent where
  /-- at the `send` of the status line, with `n` turns to come -/
  | forked (n : Nat)
  /-- at `recv`, with `n` turns behind this one -/
  | recv (n : Nat)
  /-- at `write(input[1], &c, 1)` -/
  | write (n : Nat)
  /-- at `read(output[0], &c, 1)` -/
  | copy
  /-- at `send(client_sock, &c, 1, 0)` -/
  | send
  /-- both pipes are closed: at `waitpid` -/
  | wait
  | returned
  /-- by `SIGPIPE`, in `write` -/
  | killed (n : Nat)
  deriving DecidableEq

/-- Where the forked process is. -/
inductive Child (Q : Type*) where
  /-- at the `send` of the status line -/
  | forked
  | running (q : Q)
  | exited

/-- The loop that relays the body, with `n` turns to go. -/
def Parent.feed : Nat → Parent
  | 0 => .copy
  | n + 1 => .recv n

/-- The server's ends of the pipes are closed. -/
def Parent.closed : Parent → Bool
  | .wait | .returned | .killed _ => true
  | _ => false

def Child.hasExited {Q : Type*} : Child Q → Bool
  | .exited => true
  | _ => false

/-- A request that runs a script. -/
structure Cgi (Q : Type*) where
  parent : Parent
  child : Child Q
  /-- `char c` -/
  c : UInt8
  /-- what the client has sent and nobody has received -/
  socket : List UInt8
  /-- what has been sent to the client, by the two processes -/
  client : List UInt8
  /-- the bytes in the pipe to the script -/
  input : List UInt8
  /-- the bytes in the pipe from the script -/
  output : List UInt8
  /-- the scripts that threads of other requests have forked while the server had all four ends of
  these pipes open, and that are running -/
  others : Nat
  /-- what the server has done with the socket -/
  calls : List SockCall

inductive CgiLabel where
  | parent
  | child
  /-- a script of another request ends -/
  | leave
  deriving DecidableEq

def statusLine : List UInt8 := bytes "HTTP/1.1 200 OK\r\n"

/-- `fork` has returned. -/
def Cgi.start {Q : Type*} (r : Request) (contentLength : Int) (c : UInt8) (socket : List UInt8)
    (others : Nat) : Cgi Q where
  parent := .forked (if r.method = bytes "POST" then contentLength.toNat else 0)
  child := .forked
  c := c
  socket := socket
  client := []
  input := []
  output := []
  others := others
  calls := []

section
variable {Q : Type*} (cap : Nat) (script : Q → Turn Q UInt8) (main : Q)

/-- The next call of the server. -/
def Cgi.parentStep (s : Cgi Q) : Option (Cgi Q) :=
  match s.parent with
  | .forked n => some { s with
      parent := .feed n
      client := s.client ++ statusLine
      calls := s.calls ++ [.send statusLine] }
  | .recv n => some { s with
      parent := .write n
      c := s.socket.headD s.c
      socket := s.socket.tail
      calls := s.calls ++ [.recv] }
  | .write n =>
    -- nobody can read from the pipe any more
    if s.child.hasExited ∧ s.others = 0 then some { s with parent := .killed n }
    else if s.input.length < cap then
      some { s with parent := .feed n, input := s.input ++ [s.c] }
    else none
  | .copy =>
    match s.output with
    | b :: output => some { s with parent := .send, c := b, output }
    -- nobody can write into the pipe any more
    | [] => if s.child.hasExited ∧ s.others = 0 then some { s with parent := .wait } else none
  | .send => some { s with
      parent := .copy
      client := s.client ++ [s.c]
      calls := s.calls ++ [.send [s.c]] }
  | .wait => if s.child.hasExited then some { s with parent := .returned } else none
  | .returned | .killed _ => none

/-- The next call of the forked process. -/
def Cgi.childStep (s : Cgi Q) : Option (Cgi Q) :=
  match s.child with
  | .forked => some { s with child := .running main, client := s.client ++ statusLine }
  | .running q =>
    match script q with
    | .exit => some { s with child := .exited }
    | .write b q =>
      if s.parent.closed ∧ s.others = 0 then some { s with child := .exited }
      else if s.output.length < cap then
        some { s with child := .running q, output := s.output ++ [b] }
      else none
    | .read k =>
      match s.input with
      | b :: input => some { s with child := .running (k (some b)), input }
      | [] =>
        if s.parent.closed ∧ s.others = 0 then some { s with child := .running (k none) } else none
  | .exited => none

def Cgi.step (s : Cgi Q) : CgiLabel → Option (Cgi Q)
  | .parent => s.parentStep cap
  | .child => s.childStep cap script main
  | .leave => if 0 < s.others then some { s with others := s.others - 1 } else none

end

-- ---------------------------------------------------------------------------
-- Steps
-- ---------------------------------------------------------------------------

section
variable {Q : Type*} {cap : Nat} {script : Q → Turn Q UInt8} {main : Q}

/-- What a step does. -/
inductive CgiCase (cap : Nat) (script : Q → Turn Q UInt8) (main : Q) (s : Cgi Q) :
    CgiLabel → Cgi Q → Prop
  | status {n : Nat} (hp : s.parent = .forked n) :
      CgiCase cap script main s .parent { s with
        parent := .feed n
        client := s.client ++ statusLine
        calls := s.calls ++ [.send statusLine] }
  | recv {n : Nat} (hp : s.parent = .recv n) :
      CgiCase cap script main s .parent { s with
        parent := .write n
        c := s.socket.headD s.c
        socket := s.socket.tail
        calls := s.calls ++ [.recv] }
  | kill {n : Nat} (hp : s.parent = .write n) (hc : s.child.hasExited) (ho : s.others = 0) :
      CgiCase cap script main s .parent { s with parent := .killed n }
  | write {n : Nat} (hp : s.parent = .write n) (hroom : s.input.length < cap)
      (halive : ¬ (s.child.hasExited ∧ s.others = 0)) :
      CgiCase cap script main s .parent { s with parent := .feed n, input := s.input ++ [s.c] }
  | read {b : UInt8} {output : List UInt8} (hp : s.parent = .copy) (hout : s.output = b :: output) :
      CgiCase cap script main s .parent { s with parent := .send, c := b, output }
  | eof (hp : s.parent = .copy) (hout : s.output = []) (hc : s.child.hasExited)
      (ho : s.others = 0) : CgiCase cap script main s .parent { s with parent := .wait }
  | send (hp : s.parent = .send) :
      CgiCase cap script main s .parent { s with
        parent := .copy
        client := s.client ++ [s.c]
        calls := s.calls ++ [.send [s.c]] }
  | reap (hp : s.parent = .wait) (hc : s.child.hasExited) :
      CgiCase cap script main s .parent { s with parent := .returned }
  | exec (hc : s.child = .forked) :
      CgiCase cap script main s .child
        { s with child := .running main, client := s.client ++ statusLine }
  | exit {q : Q} (hc : s.child = .running q) (hq : script q = .exit) :
      CgiCase cap script main s .child { s with child := .exited }
  | print {q q' : Q} {b : UInt8} (hc : s.child = .running q) (hq : script q = .write b q')
      (hopen : ¬ (s.parent.closed ∧ s.others = 0)) (hroom : s.output.length < cap) :
      CgiCase cap script main s .child
        { s with child := .running q', output := s.output ++ [b] }
  | take {q : Q} {k : Option UInt8 → Q} {b : UInt8} {input : List UInt8}
      (hc : s.child = .running q) (hq : script q = .read k) (hin : s.input = b :: input) :
      CgiCase cap script main s .child { s with child := .running (k (some b)), input }
  | broken {q q' : Q} {b : UInt8} (hc : s.child = .running q) (hq : script q = .write b q')
      (hclosed : s.parent.closed) (ho : s.others = 0) :
      CgiCase cap script main s .child { s with child := .exited }
  | starve {q : Q} {k : Option UInt8 → Q} (hc : s.child = .running q) (hq : script q = .read k)
      (hin : s.input = []) (hclosed : s.parent.closed) (ho : s.others = 0) :
      CgiCase cap script main s .child { s with child := .running (k none) }
  | leave (ho : 0 < s.others) : CgiCase cap script main s .leave { s with others := s.others - 1 }

/-- **Inversion**, for the server. -/
theorem cgi_parent {s s' : Cgi Q} (hs : s.parentStep cap = some s') :
    CgiCase cap script main s .parent s' := by
  unfold Cgi.parentStep at hs
  split at hs
  · rename_i hp
    cases hs
    exact .status hp
  · rename_i hp
    cases hs
    exact .recv hp
  · rename_i hp
    split at hs
    · rename_i hkill
      cases hs
      exact .kill hp hkill.1 hkill.2
    · rename_i halive
      split at hs
      · rename_i hroom
        cases hs
        exact .write hp hroom halive
      · cases hs
  · rename_i hp
    split at hs
    · rename_i hout
      cases hs
      exact .read hp hout
    · rename_i hout
      split at hs
      · rename_i hend
        cases hs
        exact .eof hp hout hend.1 hend.2
      · cases hs
  · rename_i hp
    cases hs
    exact .send hp
  · rename_i hp
    split at hs
    · rename_i hc
      cases hs
      exact .reap hp hc
    · cases hs
  · cases hs
  · cases hs

/-- **Inversion**, for the script. -/
theorem cgi_child {s s' : Cgi Q} (hs : s.childStep cap script main = some s') :
    CgiCase cap script main s .child s' := by
  unfold Cgi.childStep at hs
  split at hs
  · rename_i hc
    cases hs
    exact .exec hc
  · rename_i q hc
    split at hs
    · rename_i hq
      cases hs
      exact .exit hc hq
    · rename_i hq
      split at hs
      · rename_i hend
        cases hs
        exact .broken hc hq hend.1 hend.2
      · rename_i hopen
        split at hs
        · rename_i hroom
          cases hs
          exact .print hc hq hopen hroom
        · cases hs
    · rename_i hq
      split at hs
      · rename_i hin
        cases hs
        exact .take hc hq hin
      · rename_i hin
        split at hs
        · rename_i hend
          cases hs
          exact .starve hc hq hin hend.1 hend.2
        · cases hs
  · cases hs

/-- The steps and their cases are the same. -/
theorem cgi_step_iff {s s' : Cgi Q} {l : CgiLabel} :
    s.step cap script main l = some s' ↔ CgiCase cap script main s l s' := by
  constructor
  · intro hs
    cases l with
    | parent => exact cgi_parent hs
    | child => exact cgi_child hs
    | leave =>
      unfold Cgi.step at hs
      dsimp only at hs
      split at hs
      · rename_i ho
        cases hs
        exact .leave ho
      · cases hs
  · intro h
    cases h with
    | status hp | recv hp | send hp =>
      rw [Cgi.step, Cgi.parentStep, hp]
    | kill hp hc ho =>
      rw [Cgi.step, Cgi.parentStep, hp]
      exact if_pos ⟨hc, ho⟩
    | write hp hroom halive =>
      rw [Cgi.step, Cgi.parentStep, hp]
      exact (if_neg halive).trans (if_pos hroom)
    | read hp hout =>
      rw [Cgi.step, Cgi.parentStep, hp]
      simp only [hout]
    | eof hp hout hc ho =>
      rw [Cgi.step, Cgi.parentStep, hp]
      simp only [hout]
      exact if_pos ⟨hc, ho⟩
    | reap hp hc =>
      rw [Cgi.step, Cgi.parentStep, hp]
      exact if_pos hc
    | exec hc => rw [Cgi.step, Cgi.childStep, hc]
    | exit hc hq =>
      rw [Cgi.step, Cgi.childStep, hc]
      simp only [hq]
    | print hc hq hopen hroom =>
      rw [Cgi.step, Cgi.childStep, hc]
      simp only [hq]
      exact (if_neg hopen).trans (if_pos hroom)
    | take hc hq hin =>
      rw [Cgi.step, Cgi.childStep, hc]
      simp only [hq, hin]
    | broken hc hq hclosed ho =>
      rw [Cgi.step, Cgi.childStep, hc]
      simp only [hq]
      exact if_pos ⟨hclosed, ho⟩
    | starve hc hq hin hclosed ho =>
      rw [Cgi.step, Cgi.childStep, hc]
      simp only [hq, hin]
      exact if_pos ⟨hclosed, ho⟩
    | leave ho => exact if_pos ho

-- ---------------------------------------------------------------------------
-- The script alone
-- ---------------------------------------------------------------------------

/-- What is left of the body to be written to the script. -/
def Parent.unfed (c : UInt8) (socket : List UInt8) : Parent → List UInt8
  | .forked n => relay n c socket
  | .recv n => relay (n + 1) c socket
  | .write n | .killed n => c :: relay n c socket
  | _ => []

/-- What has been read from the script and not been sent. -/
def Parent.unsent (c : UInt8) : Parent → List UInt8
  | .send => [c]
  | _ => []

/-- The server has not begun to read what the script writes. -/
def Parent.feeding : Parent → Bool
  | .forked _ | .recv _ | .write _ | .killed _ => true
  | _ => false

/-- The turns of the loop over the body that are to come. -/
def Parent.turns : Parent → Nat
  | .forked n | .write n | .killed n => n
  | .recv n => n + 1
  | _ => 0

/-- The status line is sent. -/
def Parent.begun : Parent → Bool
  | .forked _ => false
  | _ => true

def Child.begun : Child Q → Bool
  | .forked => false
  | _ => true

/-- The status lines that the client has. -/
def Cgi.statusLines (s : Cgi Q) : List UInt8 :=
  (if s.parent.begun then statusLine else []) ++ (if s.child.begun then statusLine else [])

/-- The script has come as far as `a`. -/
def Child.At (script : Q → Turn Q UInt8) (main : Q) (a : Alone Q UInt8) : Child Q → Prop
  | .forked => a.state = main ∧ a.written = []
  | .running q => a.state = q
  | .exited => script a.state = .exit

/-- Both processes together have done what the script does alone up to `a`, and the client has
`relayed` of its output. `n` is the number of bytes that are relayed to the script. -/
structure Cgi.Follows (cap : Nat) (s : Cgi Q) (script : Q → Turn Q UInt8) (main : Q) (n : Nat)
    (a : Alone Q UInt8) (relayed : List UInt8) : Prop where
  child : s.child.At script main a
  unread : a.unread = s.input ++ s.parent.unfed s.c s.socket
  written : a.written = relayed ++ s.parent.unsent s.c ++ s.output
  client : s.client = s.statusLines ++ relayed
  feeding : s.parent.feeding → relayed = []
  closed : s.parent.closed → s.child.hasExited
  drained : s.parent = .wait ∨ s.parent = .returned → s.output = []
  room : s.input.length ≤ cap ∧ s.output.length ≤ cap
  killed : ∀ m, s.parent = .killed m → s.others = 0
  calls : if s.parent.begun then
      s.calls ++ List.replicate s.parent.turns .recv =
        .send statusLine :: (List.replicate n .recv ++ relayed.map fun b => .send [b])
    else s.calls = [] ∧ s.parent.turns = n

@[simp] theorem unfed_feed (n : Nat) (c : UInt8) (socket : List UInt8) :
    (Parent.feed n).unfed c socket = relay n c socket := by
  cases n with
  | zero => rfl
  | succ n => rfl

@[simp] theorem turns_feed (n : Nat) : (Parent.feed n).turns = n := by
  cases n with
  | zero => rfl
  | succ n => rfl

@[simp] theorem begun_feed (n : Nat) : (Parent.feed n).begun = true := by
  cases n with
  | zero => rfl
  | succ n => rfl

@[simp] theorem begun_forked (n : Nat) : (Parent.forked n).begun = false := rfl

@[simp] theorem unsent_feed (n : Nat) (c : UInt8) : (Parent.feed n).unsent c = [] := by
  cases n with
  | zero => rfl
  | succ n => rfl

@[simp] theorem closed_feed (n : Nat) : (Parent.feed n).closed = false := by
  cases n with
  | zero => rfl
  | succ n => rfl

theorem feed_ne (n : Nat) : ¬ (Parent.feed n = .wait ∨ Parent.feed n = .returned) := by
  cases n with
  | zero => exact nofun
  | succ n => exact nofun

theorem feed_ne_killed (n k : Nat) : Parent.feed n ≠ .killed k := by
  cases n with
  | zero => exact nofun
  | succ n => exact nofun

/-- A `recv` that gets nothing leaves the byte of the turn before, and that is relayed again. -/
theorem relay_succ (n : Nat) (c : UInt8) (socket : List UInt8) :
    relay (n + 1) c socket = socket.headD c :: relay n (socket.headD c) socket.tail := by
  cases socket with
  | nil => rfl
  | cons b socket => rfl

/-- The body that is relayed. -/
def Cgi.body (r : Request) (contentLength : Int) (c : UInt8) (socket : List UInt8) : List UInt8 :=
  relay (if r.method = bytes "POST" then contentLength.toNat else 0) c socket

/-- Behind `fork`, nothing has been read, written or sent. -/
theorem follows_start (cap : Nat) (script : Q → Turn Q UInt8) (main : Q) (r : Request)
    (contentLength : Int) (c : UInt8) (socket : List UInt8) (others : Nat) :
    (Cgi.start r contentLength c socket others).Follows cap script main
      (if r.method = bytes "POST" then contentLength.toNat else 0)
      ⟨main, Cgi.body r contentLength c socket, []⟩ [] where
  child := ⟨rfl, rfl⟩
  unread := rfl
  written := rfl
  client := rfl
  feeding := fun _ => rfl
  closed := nofun
  drained := fun _ => rfl
  room := ⟨Nat.zero_le _, Nat.zero_le _⟩
  killed := nofun
  calls := ⟨rfl, rfl⟩

/-- The steps that the server has before it. -/
def Parent.pending : Parent → Nat
  | .forked n => 2 * n + 3
  | .recv n => 2 * n + 4
  | .write n => 2 * n + 3
  | .copy => 2
  | .send => 3
  | .wait => 1
  | .returned | .killed _ => 0

def Child.pending : Child Q → Nat
  | .forked => 2
  | .running _ => 1
  | .exited => 0

/-- The steps to come, but for what the script still does. -/
def Cgi.pending (s : Cgi Q) : Nat :=
  s.parent.pending + s.child.pending + 2 * s.output.length + s.others

theorem pending_feed (n : Nat) : (Parent.feed n).pending = 2 * n + 2 := by
  cases n with
  | zero => rfl
  | succ n => rfl

section
variable {s s' : Cgi Q} {n : Nat} {a : Alone Q UInt8} {relayed : List UInt8}

/-- The script has not ended. -/
theorem Cgi.Follows.open (h : s.Follows cap script main n a relayed) {q : Q}
    (hc : s.child = .running q) : s.parent.closed = false := by
  cases hclosed : s.parent.closed with
  | false => rfl
  | true =>
    have hexited := h.closed hclosed
    rw [hc] at hexited
    cases hexited

/-- A step of the server brings it nearer to the end. -/
theorem pending_parent (hs : CgiCase cap script main s .parent s') : s'.pending < s.pending := by
  cases hs with
  | status hp =>
    simp only [Cgi.pending, hp, pending_feed]
    simp only [Parent.pending]
    omega
  | recv hp =>
    simp only [Cgi.pending, hp, Parent.pending]
    omega
  | kill hp =>
    simp only [Cgi.pending, hp, Parent.pending]
    omega
  | write hp =>
    simp only [Cgi.pending, hp, pending_feed]
    simp only [Parent.pending]
    omega
  | read hp hout =>
    simp only [Cgi.pending, hp, hout, Parent.pending, List.length_cons]
    omega
  | eof hp =>
    simp only [Cgi.pending, hp, Parent.pending]
    omega
  | send hp =>
    simp only [Cgi.pending, hp, Parent.pending]
    omega
  | reap hp =>
    simp only [Cgi.pending, hp, Parent.pending]
    omega

/-- The server moves. -/
theorem Cgi.Follows.parent (h : s.Follows cap script main n a relayed)
    (hs : CgiCase cap script main s .parent s') :
    ∃ relayed', s'.Follows cap script main n a relayed' := by
  obtain ⟨hchild, hunread, hwritten, hclient, hfeeding, hclosed, hdrained, hroom, hkilled,
    hcalls⟩ := h
  cases hs with
  | @status m hp =>
    obtain rfl := hfeeding (by rw [hp]; rfl)
    rw [hp] at hunread hwritten hcalls
    obtain ⟨hnone, hturns⟩ := hcalls
    refine ⟨[], hchild, ?_, ?_, ?_, fun _ => rfl, ?_, ?_, hroom, ?_, ?_⟩
    · rw [unfed_feed]
      exact hunread
    · rw [unsent_feed]
      exact hwritten
    · -- the two lines are the same
      rw [hclient, Cgi.statusLines, Cgi.statusLines, begun_feed, hp, begun_forked]
      cases s.child.begun <;> simp
    · simp
    · exact fun hlast => absurd hlast (feed_ne m)
    · exact fun k hlast => absurd hlast (feed_ne_killed m k)
    · rw [begun_feed, turns_feed, hnone, ← hturns]
      simp [Parent.turns]
  | @recv m hp =>
    obtain rfl := hfeeding (by rw [hp]; rfl)
    rw [hp] at hunread hwritten hcalls
    refine ⟨[], hchild, ?_, hwritten, ?_, fun _ => rfl, nofun, nofun, hroom, nofun, ?_⟩
    · rw [hunread, Parent.unfed, relay_succ]
      rfl
    · rw [hclient, Cgi.statusLines, Cgi.statusLines, hp]
      rfl
    · simpa [Parent.begun, Parent.turns, List.replicate_succ] using hcalls
  | @kill m hp hexited ho =>
    obtain rfl := hfeeding (by rw [hp]; rfl)
    rw [hp] at hunread hwritten hcalls
    refine ⟨[], hchild, hunread, hwritten, ?_, fun _ => rfl, fun _ => hexited, nofun, hroom,
      fun _ _ => ho, hcalls⟩
    rw [hclient, Cgi.statusLines, Cgi.statusLines, hp]
    rfl
  | @write m hp hless halive =>
    obtain rfl := hfeeding (by rw [hp]; rfl)
    rw [hp] at hunread hwritten hcalls
    refine ⟨[], hchild, ?_, ?_, ?_, fun _ => rfl, ?_, ?_, ⟨?_, hroom.2⟩, ?_, ?_⟩
    · rw [hunread, unfed_feed, Parent.unfed]
      simp
    · rw [unsent_feed]
      exact hwritten
    · rw [hclient, Cgi.statusLines, Cgi.statusLines, begun_feed, hp]
      rfl
    · simp
    · exact fun hlast => absurd hlast (feed_ne m)
    · rw [List.length_append, List.length_singleton]
      exact hless
    · exact fun k hlast => absurd hlast (feed_ne_killed m k)
    · rw [begun_feed, turns_feed]
      exact hcalls
  | @read b output hp hout =>
    rw [hp] at hunread hwritten hcalls
    rw [hout] at hwritten hroom
    refine ⟨relayed, hchild, hunread, ?_, ?_, nofun, nofun, nofun, ⟨hroom.1, ?_⟩, nofun, hcalls⟩
    · simpa [Parent.unsent] using hwritten
    · rw [hclient, Cgi.statusLines, Cgi.statusLines, hp]
      rfl
    · exact Nat.le_of_succ_le hroom.2
  | eof hp hout hexited ho =>
    rw [hp] at hunread hwritten hcalls
    refine ⟨relayed, hchild, hunread, hwritten, ?_, nofun, fun _ => hexited, fun _ => hout, hroom,
      nofun, hcalls⟩
    rw [hclient, Cgi.statusLines, Cgi.statusLines, hp]
    rfl
  | send hp =>
    rw [hp] at hunread hwritten hcalls
    refine ⟨relayed ++ [s.c], hchild, hunread, ?_, ?_, nofun, nofun, nofun, hroom, nofun, ?_⟩
    · simpa [Parent.unsent] using hwritten
    · rw [hclient, Cgi.statusLines, Cgi.statusLines, hp]
      simp [Parent.begun]
    · simp only [Parent.begun, if_true, Parent.turns, List.replicate_zero, List.append_nil]
        at hcalls ⊢
      simp [hcalls]
  | reap hp hexited =>
    rw [hp] at hunread hwritten hcalls hdrained
    refine ⟨relayed, hchild, hunread, hwritten, ?_, nofun, fun _ => hexited,
      fun _ => hdrained (.inl rfl), hroom, nofun, hcalls⟩
    rw [hclient, Cgi.statusLines, Cgi.statusLines, hp]
    rfl

/-- The forked process moves: the script makes a turn, or it begins or ends. -/
theorem Cgi.Follows.forked (h : s.Follows cap script main n a relayed)
    (hs : CgiCase cap script main s .child s') :
    ∃ a', s'.Follows cap script main n a' relayed ∧
      (a' = a ∧ s'.pending < s.pending ∨
        advance script a = some a' ∧ s'.pending ≤ s.pending + 2) := by
  have hopen {q : Q} (hc : s.child = .running q) := h.open hc
  obtain ⟨hchild, hunread, hwritten, hclient, hfeeding, hclosed, hdrained, hroom, hkilled,
    hcalls⟩ := h
  cases hs with
  | exec hc =>
    rw [hc] at hchild
    obtain ⟨hstate, hnil⟩ := hchild
    obtain rfl : relayed = [] := by
      rw [hnil] at hwritten
      have hlen := congrArg List.length hwritten
      simp only [List.length_nil, List.length_append] at hlen
      exact List.length_eq_zero_iff.mp (by omega)
    refine ⟨a, ⟨hstate, hunread, hwritten, ?_, fun _ => rfl, fun hp => ?_, hdrained, hroom, hkilled,
      hcalls⟩, .inl ⟨rfl, ?_⟩⟩
    · rw [hclient, Cgi.statusLines, Cgi.statusLines, hc]
      simp [Child.begun]
    · have hexited := hclosed hp
      rw [hc] at hexited
      cases hexited
    · simp only [Cgi.pending, hc, Child.pending]
      omega
  | @exit q hc hq =>
    rw [hc] at hchild
    refine ⟨a, ⟨?_, hunread, hwritten, ?_, hfeeding, fun _ => rfl, hdrained, hroom, hkilled,
      hcalls⟩, .inl ⟨rfl, ?_⟩⟩
    · exact (congrArg script hchild).trans hq
    · rw [hclient, Cgi.statusLines, Cgi.statusLines, hc]
      rfl
    · simp only [Cgi.pending, hc, Child.pending]
      omega
  | @print q q' b hc hq hnotEnd hless =>
    have hrunning := hopen hc
    rw [hc] at hchild
    obtain rfl : a.state = q := hchild
    refine ⟨{ a with state := q', written := a.written ++ [b] }, ⟨rfl, hunread, ?_, ?_, hfeeding,
      fun hp => ?_, fun hlast => ?_, ⟨hroom.1, ?_⟩, hkilled, hcalls⟩, .inr ⟨advance_write hq, ?_⟩⟩
    · simp only [hwritten, List.append_assoc]
    · rw [hclient, Cgi.statusLines, Cgi.statusLines, hc]
      rfl
    · rw [hrunning] at hp
      cases hp
    · rcases hlast with hlast | hlast
      · rw [hlast] at hrunning
        cases hrunning
      · rw [hlast] at hrunning
        cases hrunning
    · rw [List.length_append, List.length_singleton]
      exact hless
    · simp only [Cgi.pending, hc, Child.pending, List.length_append, List.length_singleton]
      omega
  | @take q k b input hc hq hin =>
    rw [hc] at hchild
    obtain rfl : a.state = q := hchild
    rw [hin, List.cons_append] at hunread
    rw [hin] at hroom
    refine ⟨{ a with state := k (some b), unread := input ++ s.parent.unfed s.c s.socket },
      ⟨rfl, rfl, hwritten, ?_, hfeeding, fun hp => ?_, hdrained,
        ⟨Nat.le_of_succ_le hroom.1, hroom.2⟩, hkilled, hcalls⟩,
      .inr ⟨advance_read hq hunread, ?_⟩⟩
    · rw [hclient, Cgi.statusLines, Cgi.statusLines, hc]
      rfl
    · rw [hopen hc] at hp
      cases hp
    · simp only [Cgi.pending, hc, Child.pending]
      omega
  | @broken q q' b hc hq hp ho =>
    rw [hopen hc] at hp
    cases hp
  | @starve q k hc hq hin hp ho =>
    rw [hopen hc] at hp
    cases hp

/-- **Both processes together do what the script does alone.** -/
theorem Cgi.Follows.next (h : s.Follows cap script main n a relayed) {l : CgiLabel}
    (hs : s.step cap script main l = some s') :
    ∃ a' relayed', s'.Follows cap script main n a' relayed' ∧
      (a' = a ∧ s'.pending < s.pending ∨
        advance script a = some a' ∧ s'.pending ≤ s.pending + 2) := by
  cases l with
  | parent =>
    have hcase := cgi_step_iff.mp hs
    obtain ⟨relayed', h'⟩ := h.parent hcase
    exact ⟨a, relayed', h', .inl ⟨rfl, pending_parent hcase⟩⟩
  | child =>
    obtain ⟨a', h', hturn⟩ := h.forked (cgi_step_iff.mp hs)
    exact ⟨a', relayed, h', hturn⟩
  | leave =>
    cases cgi_step_iff.mp hs with
    | leave ho =>
      obtain ⟨hchild, hunread, hwritten, hclient, hfeeding, hclosed, hdrained, hroom, hkilled,
        hcalls⟩ := h
      refine ⟨a, relayed, ⟨hchild, hunread, hwritten, hclient, hfeeding, hclosed, hdrained, hroom,
        fun m hm => ?_, hcalls⟩, .inl ⟨rfl, ?_⟩⟩
      · change s.others - 1 = 0
        rw [hkilled m hm]
      · simp only [Cgi.pending]
        omega

end

-- ---------------------------------------------------------------------------
-- The client
-- ---------------------------------------------------------------------------

section
variable {r : Request} {contentLength : Int} {c : UInt8} {socket : List UInt8} {others : Nat}
  {s : Cgi Q}

/-- The script with its input before it. -/
def Cgi.alone (main : Q) (r : Request) (contentLength : Int) (c : UInt8) (socket : List UInt8) :
    Alone Q UInt8 where
  state := main
  unread := Cgi.body r contentLength c socket
  written := []

/-- Every state of a run. -/
theorem follows_from
    (h : From (Cgi.step cap script main) (Cgi.start r contentLength c socket others) s) :
    ∃ a relayed, Leads script (Cgi.alone main r contentLength c socket) a ∧
      s.Follows cap script main (if r.method = bytes "POST" then contentLength.toNat else 0)
        a relayed := by
  induction h with
  | init h =>
    subst h
    exact ⟨_, [], .refl _, follows_start cap script main r contentLength c socket others⟩
  | step l _ _ hs ih =>
    obtain ⟨a, relayed, hleads, hfollows⟩ := ih
    obtain ⟨a', relayed', hfollows', ⟨rfl, -⟩ | ⟨hturn, -⟩⟩ := hfollows.next hs
    · exact ⟨a', relayed', hleads, hfollows'⟩
    · exact ⟨a', relayed', hleads.turn hturn, hfollows'⟩

/-- **What the client gets from a script**, in every order of steps: the status line of the server,
that of the forked process, and the output of the script on the body alone. A request that is done
has all of the output, and its calls are those of the sequential model. -/
theorem client_stream
    (h : From (Cgi.step cap script main) (Cgi.start r contentLength c socket others) s) :
    ∃ a, Leads script (Cgi.alone main r contentLength c socket) a ∧
      s.client <+: statusLine ++ statusLine ++ a.written ∧
      (s.parent = .returned → script a.state = .exit ∧
        s.client = statusLine ++ statusLine ++ a.written ∧
        ∀ sys : System, sys.script r contentLength socket = a.written →
          s.calls = runScript sys r contentLength socket) := by
  obtain ⟨a, relayed, hleads, hfollows⟩ := follows_from h
  obtain ⟨hchild, hunread, hwritten, hclient, hfeeding, hclosed, hdrained, hroom, hkilled,
    hcalls⟩ := hfollows
  refine ⟨a, hleads, ?_, fun hp => ?_⟩
  · rw [hclient]
    by_cases hrelayed : relayed = []
    · -- one line or two, which are the same
      rw [hrelayed, List.append_nil, Cgi.statusLines]
      cases s.parent.begun
      · cases s.child.begun
        · exact List.nil_prefix
        · simp
      · cases s.child.begun
        · simp
        · simp
    · have hparent : s.parent.begun = true := by
        cases hp : s.parent with
        | forked m => exact absurd (hfeeding (by rw [hp]; rfl)) hrelayed
        | recv | write | copy | send | wait | returned | killed => rfl
      have hbegun : s.child.begun = true := by
        cases hc : s.child with
        | forked =>
          rw [hc] at hchild
          rw [hchild.2] at hwritten
          have hlen := congrArg List.length hwritten
          simp only [List.length_nil, List.length_append] at hlen
          exact absurd (List.length_eq_zero_iff.mp (by omega)) hrelayed
        | running | exited => rfl
      rw [Cgi.statusLines, hparent, hbegun, hwritten, List.append_assoc relayed]
      exact (List.prefix_append_right_inj _).mpr (List.prefix_append ..)
  · have hexited := hclosed (by rw [hp]; rfl)
    rw [hp, hdrained (.inr hp)] at hwritten
    rw [hp] at hcalls
    cases hc : s.child with
    | forked | running =>
      rw [hc] at hexited
      cases hexited
    | exited =>
      rw [hc] at hchild
      have hall : a.written = relayed := by simpa [Parent.unsent] using hwritten
      refine ⟨hchild, ?_, fun sys hsys => ?_⟩
      · rw [hclient, Cgi.statusLines, hp, hc, hall]
        rfl
      · simp only [Parent.begun, if_true, Parent.turns, List.replicate_zero, List.append_nil]
          at hcalls
        rw [hcalls, runScript, hsys, hall, statusLine]
        split <;> simp

/-- A script that sends a byte back. -/
def echoByte : Option (Option UInt8) → Turn (Option (Option UInt8)) UInt8
  | none => .read some
  | some (some b) => .write b (some none)
  | some none => .exit

def formRequest : Request where
  method := bytes "POST"
  url := bytes "/index.html"
  queryString := none
  cgi := true
  path := bytes "etc/index.html"

/-- One byte there and back. -/
theorem client_stream_echo : ∃ s a,
    Leads echoByte (Cgi.alone none formRequest 1 0 (bytes "a")) a ∧ echoByte a.state = .exit ∧
      s.client = statusLine ++ statusLine ++ a.written ∧
      s.client = statusLine ++ statusLine ++ [97] ∧
      From (Cgi.step 1 echoByte none) (Cgi.start formRequest 1 0 (bytes "a") 0) s := by
  have hrun : (runSteps (Cgi.step 1 echoByte none) (Cgi.start formRequest 1 0 (bytes "a") 0)
      [.child, .parent, .parent, .parent, .child, .child, .parent, .child, .parent, .parent,
        .parent]).any (fun s => decide (s.parent = .returned ∧
          s.client = statusLine ++ statusLine ++ [97])) = true := by
    decide +kernel
  obtain ⟨s, hs, hval⟩ := (Option.any_eq_true _ _).mp hrun
  obtain ⟨hreturned, hclient⟩ := of_decide_eq_true hval
  have hfrom : From (Cgi.step 1 echoByte none) (Cgi.start formRequest 1 0 (bytes "a") 0) s :=
    Reachable.of_run (fun _ _ _ => trivial) (.init rfl) hs
  obtain ⟨a, hleads, -, hdone⟩ := client_stream hfrom
  obtain ⟨hexit, hall, -⟩ := hdone hreturned
  exact ⟨s, a, hleads, hexit, hall, hclient, hfrom⟩

end

end

end TinyHTTP.Version01
