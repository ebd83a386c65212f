import Mathlib.Data.Finset.Card
import TinyHTTP.Timer.LstTimer
import TinyHTTP.Http.Conn

/-!
# TinyHTTP — the event loop and the worker threads

`main` of version 3 as a labelled transition function. One label is one handler
run to its end: an event of the current `epoll_wait` batch, the timer handler
after the batch, or `process()` on a worker thread. The kernel and the clients
choose the labels: which events arrive, which number `accept` returns, what the
sockets answer, how the worker threads interleave.

The connection objects `users[fd]` enter through `ConnOps`: what the loop calls,
and what those calls tell it. `none` is a label that is not enabled, or a step
whose behaviour C++ leaves undefined.
-/

namespace TinyHTTP.Server

open TinyHTTP.Timer TinyHTTP.Http

/-- A client socket's number, which is also its index in `users` and `users_timer`. -/
abbrev Fd := Nat

/-- What the event loop uses of a connection object of type `C`. The environment's part of a call
(received bytes, `writev` results, the file system) is an `I`. -/
structure ConnOps (C I : Type) where
  /-- the private `init()` -/
  init : C → C
  readOnce : C → I → C × Bool
  process : C → I → Option (C × ProcessEffect)
  /-- the `modfd` that `write()` issues, if any, and its result -/
  write : C → I → Option (C × Option Interest × Bool)

/-- `struct client_data`, less the address. -/
structure ClientData where
  sockfd : Fd
  timer : Option Addr

/-- `events[i].events` of a client socket; `hangup` is `EPOLLRDHUP | EPOLLHUP | EPOLLERR`. -/
structure EventMask where
  hangup : Bool
  epollin : Bool
  epollout : Bool

inductive Signal where
  | sigalrm
  | sigterm
  | other

/-- One element of `events`. -/
inductive Event where
  | listen
  /-- the signal pipe, with the bytes `recv` returns (none when it fails) -/
  | pipe (signals : List Signal)
  | client (fd : Fd) (mask : EventMask)

def Event.fd? : Event → Option Fd
  | .client fd _ => some fd
  | _ => none

/-- The client sockets that have an event in a batch. -/
def clientFds (events : List Event) : List Fd := events.filterMap Event.fd?

structure State (C : Type) where
  /-- `users[fd]`, less `m_sockfd` -/
  users : Fd → C
  /-- `users[fd].m_sockfd`; `none` is `-1` -/
  sockfd : Fd → Option Fd
  /-- `http_conn::m_user_count` -/
  userCount : Int
  usersTimer : Fd → ClientData
  /-- the user data of a timer is `&users_timer[fd]`, given by its index -/
  timerLst : SortTimerLst Fd
  /-- the client sockets that are open -/
  openFds : Finset Fd
  /-- what `EPOLLONESHOT` has left armed -/
  armed : Fd → Option Interest
  /-- `pool->m_workqueue` -/
  workqueue : List Fd
  /-- the requests that worker threads have taken and not finished -/
  running : List Fd
  /-- the events of this `epoll_wait` that are still to be handled -/
  batch : List Event
  timeout : Bool
  stopServer : Bool
  /-- `time(NULL)` -/
  clock : Int
  /-- when the socket was accepted -/
  acceptedAt : Fd → Int
  /-- when the socket was accepted, or last had a successful `read_once` or `write` -/
  lastActive : Fd → Int
  /-- `close` was called on the number of a client socket that was not open -/
  badClose : Bool

/-- What the environment answers while one event is handled. -/
structure Env (I : Type) where
  /-- the result of `accept` -/
  connfd : Option Fd
  /-- the address `new util_timer` returns -/
  timer : Addr
  input : I

inductive Label (I : Type) where
  | elapse (seconds : Nat)
  | epollWait (events : List Event)
  | handle (env : Env I)
  | timerHandler
  /-- a worker thread takes the front of the queue -/
  | takeRequest
  /-- the worker thread that is `i`-th in `running` finishes `process()`, in one step;
  `workStep` takes the end of it apart -/
  | finishRequest (i : Nat) (input : I)

def maxFd : Nat := 65536
def maxEventNumber : Nat := 10000
def timeslot : Int := 5
def threadNumber : Nat := 8
def maxRequests : Nat := 10000

section
variable {C I : Type}

-- ---------------------------------------------------------------------------
-- Sockets
-- ---------------------------------------------------------------------------

/-- `epoll_ctl(epollfd, EPOLL_CTL_DEL, fd, 0); close(fd)` -/
def State.closeFd (s : State C) (fd : Fd) : State C :=
  if fd ∈ s.openFds then
    { s with openFds := s.openFds.erase fd, armed := Function.update s.armed fd none }
  else
    { s with badClose := true }

/-- `modfd`: `epoll_ctl` fails on a number that is not an open socket. -/
def State.modfd (s : State C) (fd : Option Fd) (ev : Interest) : State C :=
  match fd with
  | none => s
  | some fd =>
    if fd ∈ s.openFds then { s with armed := Function.update s.armed fd (some ev) } else s

/-- `cb_func(&users_timer[slot])` -/
def State.cbFunc (s : State C) (slot : Fd) : State C :=
  let s := s.closeFd (s.usersTimer slot).sockfd
  { s with userCount := s.userCount - 1 }

/-- `http_conn::close_conn(true)` of `users[slot]` -/
def State.closeConn (s : State C) (slot : Fd) : State C :=
  match s.sockfd slot with
  | none => s
  | some fd =>
    let s := s.closeFd fd
    { s with sockfd := Function.update s.sockfd slot none, userCount := s.userCount - 1 }

-- ---------------------------------------------------------------------------
-- The branches of the event loop
-- ---------------------------------------------------------------------------

/-- `pool->append(users + fd)` -/
def State.append (s : State C) (fd : Fd) : State C :=
  if s.workqueue.length > maxRequests then s else { s with workqueue := s.workqueue ++ [fd] }

/-- `timer->cb_func(&users_timer[fd])`, then `del_timer(timer)`. The call goes through the
timer, before the test for `NULL`. -/
def State.dropClient (s : State C) (fd : Fd) : Option (State C) := do
  let timer ← (s.usersTimer fd).timer
  let _ ← s.timerLst.deref timer
  let s := s.cbFunc fd
  let lst ← s.timerLst.delTimer (some timer)
  some { s with timerLst := lst }

/-- `timer->expire = cur + 3 * TIMESLOT; adjust_timer(timer)`, after traffic on `fd`. -/
def State.adjustTimer (s : State C) (fd : Fd) : Option (State C) := do
  let s := { s with lastActive := Function.update s.lastActive fd s.clock }
  match (s.usersTimer fd).timer with
  | none => some s
  | some timer =>
    let lst ← (s.timerLst.setExpire timer (s.clock + 3 * timeslot)).bind fun l =>
      l.adjustTimer (some timer)
    some { s with timerLst := lst }

/-- The accept branch, once `accept` has returned `connfd`. -/
def State.accept (ops : ConnOps C I) (s : State C) (connfd : Fd) (timer : Addr) :
    Option (State C) :=
  -- the kernel returns a number that is not in use
  if connfd ∈ s.openFds then none
  -- `show_error` closes the new socket again
  else if s.userCount ≥ maxFd then some s
  -- `users[connfd]` and `users_timer[connfd]` are arrays of `MAX_FD` elements
  else if connfd ≥ maxFd then none
  -- `new` returns a block that is not in use
  else if timer ∈ s.timerLst.live then none
  else do
    let lst ← (s.timerLst.alloc timer (s.clock + 3 * timeslot) connfd).addTimer (some timer)
    some { s with
      users := Function.update s.users connfd (ops.init (s.users connfd))
      sockfd := Function.update s.sockfd connfd (some connfd)
      openFds := insert connfd s.openFds
      armed := Function.update s.armed connfd (some .epollin)
      userCount := s.userCount + 1
      usersTimer := Function.update s.usersTimer connfd ⟨connfd, some timer⟩
      timerLst := lst
      acceptedAt := Function.update s.acceptedAt connfd s.clock
      lastActive := Function.update s.lastActive connfd s.clock }

/-- The `EPOLLIN` branch. -/
def State.readBranch (ops : ConnOps C I) (s : State C) (fd : Fd) (input : I) : Option (State C) :=
  let (conn, ok) := ops.readOnce (s.users fd) input
  let s := { s with users := Function.update s.users fd conn }
  if ok then (s.append fd).adjustTimer fd else s.dropClient fd

/-- The `EPOLLOUT` branch. -/
def State.writeBranch (ops : ConnOps C I) (s : State C) (fd : Fd) (input : I) :
    Option (State C) := do
  let (conn, ev, ok) ← ops.write (s.users fd) input
  let s := { s with users := Function.update s.users fd conn }
  let s := match ev with
    | none => s
    | some ev => s.modfd (s.sockfd fd) ev
  if ok then s.adjustTimer fd else s.dropClient fd

def State.signal (s : State C) : Signal → State C
  | .sigalrm => { s with timeout := true }
  | .sigterm => { s with stopServer := true }
  | .other => s

/-- The body of `for (int i = 0; i < number; i++)`, in the order of its `else if`s. -/
def State.handleEvent (ops : ConnOps C I) (s : State C) (ev : Event) (env : Env I) :
    Option (State C) :=
  match ev with
  | .listen =>
    match env.connfd with
    | none => some s
    | some connfd => s.accept ops connfd env.timer
  | .pipe signals => some (signals.foldl State.signal s)
  | .client fd mask =>
    if mask.hangup then s.dropClient fd
    else if mask.epollin then s.readBranch ops fd env.input
    else if mask.epollout then s.writeBranch ops fd env.input
    else some s

/-- `timer_handler()`: the callbacks `tick` makes close their sockets. The callbacks are
returned with the new state. -/
def State.timerHandler (s : State C) : Option (List (Addr × Fd) × State C) := do
  let (calls, lst) ← s.timerLst.tick s.clock
  let s := { s with timerLst := lst, timeout := false }
  some (calls, calls.foldl (fun s call => s.cbFunc call.2) s)

/-- A worker thread's `process()` of `users[slot]`. -/
def State.finish (ops : ConnOps C I) (s : State C) (slot : Fd) (input : I) :
    Option (State C) := do
  let (conn, effect) ← ops.process (s.users slot) input
  let s := { s with users := Function.update s.users slot conn }
  some (match effect with
    | .modfd ev => s.modfd (s.sockfd slot) ev
    | .closeConn => s.closeConn slot)

-- ---------------------------------------------------------------------------
-- Steps
-- ---------------------------------------------------------------------------

/-- `epoll_wait` reports a socket with at least one event. -/
def EventMask.Reports (mask : EventMask) : Prop :=
  mask.hangup = true ∨ mask.epollin = true ∨ mask.epollout = true

instance (mask : EventMask) : Decidable mask.Reports := inferInstanceAs (Decidable (_ ∨ _ ∨ _))

/-- Whether `epoll_wait` can report an event: a client socket must be open and armed, and reports
`EPOLLIN` or `EPOLLOUT` only when armed for it. -/
def State.Deliverable (s : State C) : Event → Prop
  | .client fd mask => fd ∈ s.openFds ∧ ∃ ev, s.armed fd = some ev ∧ mask.Reports ∧
      (mask.epollin = true → ev = .epollin) ∧ (mask.epollout = true → ev = .epollout)
  | _ => True

instance (s : State C) (ev : Event) : Decidable (s.Deliverable ev) :=
  match ev with
  | .listen | .pipe _ => .isTrue trivial
  | .client fd mask =>
    match h : s.armed fd with
    | none => .isFalse fun hd => by simp [State.Deliverable, h] at hd
    | some ev =>
      decidable_of_iff (fd ∈ s.openFds ∧ mask.Reports ∧ (mask.epollin = true → ev = .epollin) ∧
        (mask.epollout = true → ev = .epollout)) (by simp [State.Deliverable, h])

/-- `epoll_wait` is called between two batches, after the timer handler has run. -/
def State.CanWait (s : State C) (events : List Event) : Prop :=
  s.batch = [] ∧ s.timeout = false ∧ s.stopServer = false ∧ events.length ≤ maxEventNumber ∧
    (clientFds events).Nodup ∧ ∀ ev ∈ events, s.Deliverable ev

instance (s : State C) (events : List Event) : Decidable (s.CanWait events) :=
  match h : s.batch with
  | [] => decidable_of_iff (s.timeout = false ∧ s.stopServer = false ∧
      events.length ≤ maxEventNumber ∧ (clientFds events).Nodup ∧ ∀ ev ∈ events, s.Deliverable ev)
      (by simp [State.CanWait, h])
  | _ :: _ => .isFalse fun hc => by simp [State.CanWait, h] at hc

def step (ops : ConnOps C I) (s : State C) : Label I → Option (State C)
  | .elapse seconds => some { s with clock := s.clock + seconds }
  | .epollWait events =>
    if s.CanWait events then
      some { s with
        batch := events
        armed := fun fd => if fd ∈ clientFds events then none else s.armed fd }
    else none
  | .handle env =>
    match s.batch with
    | [] => none
    | ev :: rest => State.handleEvent ops { s with batch := rest } ev env
  | .timerHandler =>
    match s.batch with
    | [] => if s.timeout then s.timerHandler.map Prod.snd else none
    | _ :: _ => none
  | .takeRequest =>
    match s.workqueue with
    | [] => none
    | fd :: rest =>
      if s.running.length < threadNumber then
        some { s with workqueue := rest, running := s.running ++ [fd] }
      else none
  | .finishRequest i input =>
    match s.running[i]? with
    | none => none
    | some slot => State.finish ops { s with running := s.running.eraseIdx i } slot input

/-- The state in which the event loop starts: no client, over objects and arrays that hold
anything. -/
structure Initial (s : State C) : Prop where
  userCount : s.userCount = 0
  timerLst : ∃ garbage, s.timerLst = SortTimerLst.empty garbage
  openFds : s.openFds = ∅
  workqueue : s.workqueue = []
  running : s.running = []
  batch : s.batch = []
  timeout : s.timeout = false
  stopServer : s.stopServer = false
  badClose : s.badClose = false

end

end TinyHTTP.Server
