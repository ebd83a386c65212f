import TinyHTTP.Version02.Dialogue

/-!
# TinyHTTP — version_02: main and the threads

`main` accepts sockets and puts each into the epoll set of one thread; the threads run
`wait_task`, each on its own set. Nothing is locked: a record belongs to the thread
whose set has its socket, and it is never freed. An event is handled when its bits are
`EPOLLIN` or `EPOLLOUT` and nothing else.

* `loop_cases` — what each step does.
-/

namespace TinyHTTP.Version02

open TinyHTTP.Lib

abbrev Fd := Nat

/-- What epoll waits for on a socket. -/
inductive Interest where
  | epollIn
  | epollOut
  deriving DecidableEq

/-- `evlist[i].events` -/
inductive Events where
  | epollIn
  | epollOut
  /-- with bits that nobody has asked for: `EPOLLHUP`, `EPOLLERR` -/
  | other
  deriving DecidableEq

/-- The events that a socket may have. -/
def Events.fits : Events → Interest → Bool
  | .epollIn, .epollIn | .epollOut, .epollOut | .other, _ => true
  | _, _ => false

/-- What `epoll_ctl` keeps of an `epoll_event`; a record has the number of its connection. -/
structure Registration where
  ptr : Nat
  interest : Interest
  deriving DecidableEq

/-- `http_request_t`; what `get_url_method` sets is `none` before. -/
structure Record where
  fd : Fd
  request : Option HttpRequest

inductive MainPc where
  /-- at `accept`, in turn `i` of the loop -/
  | accepting (i : Nat)
  /-- at `epoll_add(epfds[i], ptr, EPOLLIN)` -/
  | adding (i ptr : Nat)
  deriving DecidableEq

/-- Where a thread is in `wait_task`, with the events it has still to look at. -/
inductive WorkerPc where
  /-- at the next event, or at `epoll_wait` if there is none -/
  | next (evlist : List (Nat × Events))
  /-- at `epoll_mod` -/
  | modifying (ptr : Nat) (interest : Interest) (evlist : List (Nat × Events))
  /-- at `close(sockfd)` -/
  | closing (ptr : Nat) (evlist : List (Nat × Events))

structure Loop where
  threads : Nat
  eventNum : Nat
  conf : ConfHttp
  /-- the connection behind each open descriptor -/
  sockets : Fd → Option Nat
  record : Nat → Record
  accepted : Nat
  /-- the calls of `accept` that have returned −1 -/
  failed : Nat
  main : MainPc
  /-- the epoll sets -/
  sets : Nat → Fd → Option Registration
  worker : Nat → WorkerPc
  /-- the set that `main` has chosen for a connection -/
  home : Nat → Nat
  /-- the connections that each set has been given -/
  given : Nat → List Nat
  /-- the calls of `epoll_add` that have failed -/
  unplaced : Nat
  /-- what `recv` has returned on a connection -/
  taken : Nat → List Received
  /-- what has been sent on it -/
  sent : Nat → List UInt8
  /-- the connections behind the descriptors that have been closed -/
  closes : List (Option Nat)

inductive LoopLabel where
  | accept (sock : Fd)
  /-- `accept` returns −1 -/
  | acceptFails
  /-- `epoll_add`; whether there is memory for it -/
  | add (memory : Bool)
  | wait (t : Nat) (ready : List (Fd × Events))
  | recv (t : Nat) (stale : Mem) (received : Received)
  | send (t : Nat) (files : List UInt8 → Found) (io : Outcomes)
  /-- an event that is neither `EPOLLIN` nor `EPOLLOUT` -/
  | ignore (t : Nat)
  | mod (t : Nat)
  | close (t : Nat)

/-- The next turn of the loop of `main`. -/
def Loop.nextTurn (s : Loop) (i : Nat) : Nat := if i + 1 < s.threads then i + 1 else 0

def Loop.goto (s : Loop) (t : Nat) (pc : WorkerPc) : Loop :=
  { s with worker := Function.update s.worker t pc }

/-- What `epoll_wait` may return. -/
def Loop.mayReport (s : Loop) (t : Nat) (ready : List (Fd × Events)) : Bool :=
  decide (ready.length ≤ s.eventNum) && decide (ready.map Prod.fst).Nodup &&
    ready.all fun e => (s.sets t e.1).any fun r => e.2.fits r.interest

/-- `evlist` -/
def Loop.report (s : Loop) (t : Nat) (ready : List (Fd × Events)) : List (Nat × Events) :=
  ready.filterMap fun e => (s.sets t e.1).map fun r => (r.ptr, e.2)

/-- Note what has come from the connection behind a descriptor. -/
def Loop.noteTaken (s : Loop) (fd : Fd) (received : Received) : Loop :=
  match s.sockets fd with
  | none => s
  | some k => { s with taken := Function.update s.taken k (s.taken k ++ [received]) }

/-- Note what has been sent on the connection behind a descriptor. -/
def Loop.noteSent (s : Loop) (fd : Fd) (sent : List UInt8) : Loop :=
  match s.sockets fd with
  | none => s
  | some k => { s with sent := Function.update s.sent k (s.sent k ++ sent) }

/-- `http_ptr->url`, `->method` and `->alive` -/
def Loop.setRequest (s : Loop) (ptr : Nat) (r : HttpRequest) : Loop :=
  { s with record := Function.update s.record ptr { s.record ptr with request := some r } }

/-- `close`: the descriptor is in no set any more. -/
def Loop.close (s : Loop) (fd : Fd) : Loop :=
  { s with
    sockets := Function.update s.sockets fd none
    sets := fun t => Function.update (s.sets t) fd none
    closes := s.closes ++ [s.sockets fd] }

/-- `recv_http` -/
def Loop.recvHttp (s : Loop) (t ptr : Nat) (rest : List (Nat × Events)) (stale : Mem)
    (received : Received) : Option Loop :=
  match Version02.recvHttp stale received with
  | .ok .close => some ((s.noteTaken (s.record ptr).fd received).goto t (.closing ptr rest))
  | .ok (.rearm r) =>
    some (((s.noteTaken (s.record ptr).fd received).setRequest ptr r).goto t
      (.modifying ptr .epollOut rest))
  | .error _ => none

/-- `send_http` -/
def Loop.sendHttp (s : Loop) (t ptr : Nat) (rest : List (Nat × Events))
    (files : List UInt8 → Found) (io : Outcomes) : Option Loop :=
  match (s.record ptr).request with
  -- nobody has set the method
  | none => none
  | some r =>
    match sendHttpReply s.conf r files io with
    | .ok (reply, .epollIn) =>
      some ((s.noteSent (s.record ptr).fd reply.sent).goto t (.modifying ptr .epollIn rest))
    | .ok (reply, .close) =>
      some ((s.noteSent (s.record ptr).fd reply.sent).goto t (.closing ptr rest))
    | .error _ => none

def Loop.step (s : Loop) : LoopLabel → Option Loop
  | .accept sock =>
    match s.main with
    | .accepting i =>
      if s.sockets sock = none then
        some { s with
          sockets := Function.update s.sockets sock (some s.accepted)
          record := Function.update s.record s.accepted ⟨sock, none⟩
          home := Function.update s.home s.accepted i
          main := .adding i s.accepted
          accepted := s.accepted + 1 }
      else none
    | _ => none
  | .acceptFails =>
    match s.main with
    | .accepting i =>
      some { s with main := .accepting (s.nextTurn i), failed := s.failed + 1 }
    | _ => none
  | .add memory =>
    match s.main with
    | .adding i ptr =>
      let s' : Loop := { s with main := .accepting (s.nextTurn i) }
      -- `epoll_ctl` fails for a descriptor that the set has
      if memory = true ∧ s.sets i (s.record ptr).fd = none then
        some { s' with
          sets := Function.update s.sets i
            (Function.update (s.sets i) (s.record ptr).fd (some ⟨ptr, .epollIn⟩))
          given := Function.update s.given i (s.given i ++ [ptr]) }
      else some { s' with unplaced := s.unplaced + 1 }
    | _ => none
  | .wait t ready =>
    match s.worker t with
    | .next [] => if s.mayReport t ready then some (s.goto t (.next (s.report t ready))) else none
    | _ => none
  | .recv t stale received =>
    match s.worker t with
    | .next ((ptr, .epollIn) :: rest) => s.recvHttp t ptr rest stale received
    | _ => none
  | .send t files io =>
    match s.worker t with
    | .next ((ptr, .epollOut) :: rest) => s.sendHttp t ptr rest files io
    | _ => none
  | .ignore t =>
    match s.worker t with
    | .next ((_, .other) :: rest) => some (s.goto t (.next rest))
    | _ => none
  | .mod t =>
    match s.worker t with
    | .modifying ptr interest rest =>
      let fd := (s.record ptr).fd
      -- `epoll_ctl` fails for a descriptor that the set does not have
      if (s.sets t fd).isSome then
        some { s.goto t (.next rest) with
          sets := Function.update s.sets t
            (Function.update (s.sets t) fd (some ⟨ptr, interest⟩)) }
      else some (s.goto t (.next rest))
    | _ => none
  | .close t =>
    match s.worker t with
    | .closing ptr rest => some ((s.close (s.record ptr).fd).goto t (.next rest))
    | _ => none

/-- Nothing has been accepted. -/
structure LoopInitial (s : Loop) : Prop where
  sockets : ∀ fd, s.sockets fd = none
  accepted : s.accepted = 0
  failed : s.failed = 0
  main : s.main = .accepting 0
  sets : ∀ t fd, s.sets t fd = none
  worker : ∀ t, s.worker t = .next []
  given : ∀ t, s.given t = []
  unplaced : s.unplaced = 0
  taken : ∀ k, s.taken k = []
  sent : ∀ k, s.sent k = []
  closes : s.closes = []

/-- The states of the runs of the server. -/
def Loop.Runs (conf : ConfHttp) : Loop → Prop :=
  Reachable (fun s => LoopInitial s ∧ s.conf = conf) Loop.step fun _ _ => True

-- ---------------------------------------------------------------------------
-- Steps
-- ---------------------------------------------------------------------------

section
variable {s s' : Loop} {t ptr : Nat} {e : Events} {rest : List (Nat × Events)}

/-- `recv_http` and `send_http` leave the thread with something to do to the socket. -/
def WorkerPc.then (ptr : Nat) (rest : List (Nat × Events)) : Life → WorkerPc
  | .reading => .modifying ptr .epollIn rest
  | .writing _ => .modifying ptr .epollOut rest
  | .closed => .closing ptr rest

/-- What a step does. -/
inductive LoopCase (s : Loop) : LoopLabel → Loop → Prop
  | accept {i : Nat} {sock : Fd} (hmain : s.main = .accepting i) (hfree : s.sockets sock = none) :
      LoopCase s (.accept sock) { s with
        sockets := Function.update s.sockets sock (some s.accepted)
        record := Function.update s.record s.accepted ⟨sock, none⟩
        home := Function.update s.home s.accepted i
        main := .adding i s.accepted
        accepted := s.accepted + 1 }
  | acceptFails {i : Nat} (hmain : s.main = .accepting i) :
      LoopCase s .acceptFails
        { s with main := .accepting (s.nextTurn i), failed := s.failed + 1 }
  | added {i ptr : Nat} (hmain : s.main = .adding i ptr)
      (hnone : s.sets i (s.record ptr).fd = none) :
      LoopCase s (.add true) { s with
        main := .accepting (s.nextTurn i)
        sets := Function.update s.sets i
          (Function.update (s.sets i) (s.record ptr).fd (some ⟨ptr, .epollIn⟩))
        given := Function.update s.given i (s.given i ++ [ptr]) }
  | notAdded {i ptr : Nat} {memory : Bool} (hmain : s.main = .adding i ptr) :
      LoopCase s (.add memory)
        { s with main := .accepting (s.nextTurn i), unplaced := s.unplaced + 1 }
  | wait {t : Nat} {ready : List (Fd × Events)} (hw : s.worker t = .next [])
      (hready : s.mayReport t ready = true) :
      LoopCase s (.wait t ready) (s.goto t (.next (s.report t ready)))
  | recvClose {t ptr : Nat} {rest : List (Nat × Events)} {stale : Mem} {received : Received}
      (hw : s.worker t = .next ((ptr, .epollIn) :: rest))
      (hrecv : Version02.recvHttp stale received = .ok .close) :
      LoopCase s (.recv t stale received)
        ((s.noteTaken (s.record ptr).fd received).goto t (.closing ptr rest))
  | recvData {t ptr : Nat} {rest : List (Nat × Events)} {stale : Mem} {received : Received}
      {r : HttpRequest} (hw : s.worker t = .next ((ptr, .epollIn) :: rest))
      (hrecv : Version02.recvHttp stale received = .ok (.rearm r)) :
      LoopCase s (.recv t stale received)
        (((s.noteTaken (s.record ptr).fd received).setRequest ptr r).goto t
          (.modifying ptr .epollOut rest))
  | send {t ptr : Nat} {rest : List (Nat × Events)} {files : List UInt8 → Found} {io : Outcomes}
      {r : HttpRequest} {reply : Reply} {after : Afterwards}
      (hw : s.worker t = .next ((ptr, .epollOut) :: rest)) (hr : (s.record ptr).request = some r)
      (hreply : sendHttpReply s.conf r files io = .ok (reply, after)) :
      LoopCase s (.send t files io)
        ((s.noteSent (s.record ptr).fd reply.sent).goto t (.then ptr rest after.life))
  | ignore {t ptr : Nat} {rest : List (Nat × Events)}
      (hw : s.worker t = .next ((ptr, .other) :: rest)) :
      LoopCase s (.ignore t) (s.goto t (.next rest))
  | mod {t ptr : Nat} {interest : Interest} {rest : List (Nat × Events)}
      (hw : s.worker t = .modifying ptr interest rest)
      (hsome : (s.sets t (s.record ptr).fd).isSome = true) :
      LoopCase s (.mod t) { s.goto t (.next rest) with
        sets := Function.update s.sets t
          (Function.update (s.sets t) (s.record ptr).fd (some ⟨ptr, interest⟩)) }
  | notMod {t ptr : Nat} {interest : Interest} {rest : List (Nat × Events)}
      (hw : s.worker t = .modifying ptr interest rest)
      (hnone : s.sets t (s.record ptr).fd = none) :
      LoopCase s (.mod t) (s.goto t (.next rest))
  | close {t ptr : Nat} {rest : List (Nat × Events)} (hw : s.worker t = .closing ptr rest) :
      LoopCase s (.close t) ((s.close (s.record ptr).fd).goto t (.next rest))

/-- A worker that reads a request: it closes the socket, or has `epoll_ctl` to call next. -/
theorem loop_recv {stale : Mem} {received : Received}
    (hs : s.step (.recv t stale received) = some s') :
    LoopCase s (.recv t stale received) s' := by
  unfold Loop.step at hs
  dsimp only at hs
  split at hs
  · rename_i hw
    unfold Loop.recvHttp at hs
    split at hs
    · rename_i hrecv
      cases hs
      exact .recvClose hw hrecv
    · rename_i hrecv
      cases hs
      exact .recvData hw hrecv
    · cases hs
  · cases hs

/-- A worker that answers goes on with what the reply leaves of the connection. -/
theorem loop_send {files : List UInt8 → Found} {io : Outcomes}
    (hs : s.step (.send t files io) = some s') : LoopCase s (.send t files io) s' := by
  unfold Loop.step at hs
  dsimp only at hs
  split at hs
  · rename_i hw
    unfold Loop.sendHttp at hs
    split at hs
    · cases hs
    · rename_i hr
      split at hs
      · rename_i hreply
        cases hs
        exact .send hw hr hreply
      · rename_i hreply
        cases hs
        exact .send hw hr hreply
      · cases hs
  · cases hs

/-- **Inversion.** Every invariant of the loop is proved from this. -/
theorem loop_cases {l : LoopLabel} (hs : s.step l = some s') : LoopCase s l s' := by
  cases l with
  | accept sock =>
    unfold Loop.step at hs
    dsimp only at hs
    split at hs
    · rename_i hmain
      split at hs
      · rename_i hfree
        cases hs
        exact .accept hmain hfree
      · cases hs
    · cases hs
  | acceptFails =>
    unfold Loop.step at hs
    dsimp only at hs
    split at hs
    · rename_i hmain
      cases hs
      exact .acceptFails hmain
    · cases hs
  | add memory =>
    unfold Loop.step at hs
    dsimp only at hs
    split at hs
    · rename_i hmain
      split at hs
      · rename_i hadd
        obtain ⟨rfl, hnone⟩ := hadd
        cases hs
        exact .added hmain hnone
      · cases hs
        exact .notAdded hmain
    · cases hs
  | wait t ready =>
    unfold Loop.step at hs
    dsimp only at hs
    split at hs
    · rename_i hw
      split at hs
      · rename_i hready
        cases hs
        exact .wait hw hready
      · cases hs
    · cases hs
  | recv t stale received => exact loop_recv hs
  | send t files io => exact loop_send hs
  | ignore t =>
    unfold Loop.step at hs
    dsimp only at hs
    split at hs
    · rename_i hw
      cases hs
      exact .ignore hw
    · cases hs
  | mod t =>
    unfold Loop.step at hs
    dsimp only at hs
    split at hs
    · rename_i hw
      split at hs
      · rename_i hsome
        cases hs
        exact .mod hw hsome
      · rename_i hnone
        cases hs
        exact .notMod hw (by simpa using hnone)
    · cases hs
  | close t =>
    unfold Loop.step at hs
    dsimp only at hs
    split at hs
    · rename_i hw
      cases hs
      exact .close hw
    · cases hs

end

end TinyHTTP.Version02
