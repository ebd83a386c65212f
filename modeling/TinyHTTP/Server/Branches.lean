import TinyHTTP.Server.State

/-!
# TinyHTTP — what the branches of the event loop do

One inversion lemma for each branch: the state it leaves, as an update of the
state it starts in. Every invariant of the server is proved from these.

* `dropClient_eq`, `adjustTimer_eq`, `accept_eq`, `timerHandler_eq` — the branches
  that change the timer list.
* `client_cases` — an event of a client socket.
* `finish_cases` — a worker that finishes `process()`.
-/

namespace TinyHTTP.Server

open TinyHTTP.Timer TinyHTTP.Http

variable {C I : Type}

/-- Whether or not the number is open, `modfd` changes nothing but what is armed. -/
theorem modfd_eq (s : State C) (fd : Option Fd) (ev : Interest) :
    ∃ armed, s.modfd fd ev = { s with armed := armed } := by
  unfold State.modfd
  split
  · exact ⟨s.armed, rfl⟩
  · split
    · exact ⟨_, rfl⟩
    · exact ⟨s.armed, rfl⟩

theorem modfd_of_open {s : State C} {fd : Fd} (h : fd ∈ s.openFds) (ev : Interest) :
    s.modfd (some fd) ev = { s with armed := Function.update s.armed fd (some ev) } := by
  simp only [State.modfd, if_pos h]

/-- An open socket is closed, and its `EPOLLONESHOT` goes with it. -/
theorem closeFd_of_open {s : State C} {fd : Fd} (h : fd ∈ s.openFds) : s.closeFd fd =
    { s with openFds := s.openFds.erase fd, armed := Function.update s.armed fd none } := by
  simp only [State.closeFd, if_pos h]

/-- The callback of a slot whose table entry names the slot itself closes the socket of the slot. -/
theorem cbFunc_of_open {s : State C} {fd : Fd} (hslot : (s.usersTimer fd).sockfd = fd)
    (hfd : fd ∈ s.openFds) : s.cbFunc fd =
      { s with openFds := s.openFds.erase fd, armed := Function.update s.armed fd none,
               userCount := s.userCount - 1 } := by
  simp only [State.cbFunc, hslot, closeFd_of_open hfd]

/-- The slot has a timer, the timer is linked, and the socket of the slot is closed before the timer
is deleted: the source calls `cb_func` through the timer, so there is no run without one. -/
theorem dropClient_eq {s s' : State C} {fd : Fd} (hs : s.dropClient fd = some s') :
    ∃ a lst, (s.usersTimer fd).timer = some a ∧ a ∈ s.timerLst.live ∧
      (s.cbFunc fd).timerLst.delTimer (some a) = some lst ∧
      s' = { s.cbFunc fd with timerLst := lst } := by
  unfold State.dropClient at hs
  cases hut : (s.usersTimer fd).timer with
  | none => simp [hut] at hs
  | some a =>
    -- a timer that is not linked has been deleted, and the call through it is undefined
    by_cases hlive : a ∈ s.timerLst.live
    · simp only [hut, SortTimerLst.deref_live hlive, Option.bind_eq_bind, Option.bind_some] at hs
      obtain ⟨lst, hlst, hs⟩ := Option.bind_eq_some_iff.mp hs
      exact ⟨a, lst, rfl, hlive, hlst, (Option.some.inj hs).symm⟩
    · simp [hut, SortTimerLst.deref, hlive] at hs

/-- Traffic on a slot is noted, and its timer, if it has one, is due three time slots from now. -/
theorem adjustTimer_eq {s s' : State C} {fd : Fd} (hs : s.adjustTimer fd = some s') :
    ∃ lst,
      s' = { s with lastActive := Function.update s.lastActive fd s.clock, timerLst := lst } ∧
      ((s.usersTimer fd).timer = none ∧ lst = s.timerLst ∨
        ∃ a, (s.usersTimer fd).timer = some a ∧ a ∈ s.timerLst.live ∧
          (s.timerLst.setExpire a (s.clock + 3 * timeslot)).bind
            (fun l => l.adjustTimer (some a)) = some lst) := by
  unfold State.adjustTimer at hs
  cases hut : (s.usersTimer fd).timer with
  | none =>
    simp only [hut, Option.some.injEq] at hs
    exact ⟨s.timerLst, hs.symm, .inl ⟨rfl, rfl⟩⟩
  | some a =>
    simp only [hut, Option.bind_eq_bind] at hs
    obtain ⟨lst, hlst, hs⟩ := Option.bind_eq_some_iff.mp hs
    refine ⟨lst, (Option.some.inj hs).symm, .inr ⟨a, rfl, ?_, hlst⟩⟩
    by_contra hlive
    simp [SortTimerLst.setExpire, hlive] at hlst

/-- The accept branch: turned away, or a new socket with a timer of its own. -/
theorem accept_eq {ops : ConnOps C I} {s s' : State C} {connfd : Fd} {timer : Addr}
    (hs : s.accept ops connfd timer = some s') :
    s' = s ∨ ∃ lst, connfd ∉ s.openFds ∧ timer ∉ s.timerLst.live ∧
      (s.timerLst.alloc timer (s.clock + 3 * timeslot) connfd).addTimer (some timer) = some lst ∧
      s' = { s with
        users := Function.update s.users connfd (ops.init (s.users connfd))
        sockfd := Function.update s.sockfd connfd (some connfd)
        openFds := insert connfd s.openFds
        armed := Function.update s.armed connfd (some .epollin)
        userCount := s.userCount + 1
        usersTimer := Function.update s.usersTimer connfd ⟨connfd, some timer⟩
        timerLst := lst
        acceptedAt := Function.update s.acceptedAt connfd s.clock
        lastActive := Function.update s.lastActive connfd s.clock } := by
  unfold State.accept at hs
  split at hs
  · cases hs
  rename_i hnew
  split at hs
  -- the server is full
  · exact .inl (Option.some.inj hs).symm
  split at hs
  · cases hs
  split at hs
  · cases hs
  rename_i hlive
  simp only [Option.bind_eq_bind] at hs
  obtain ⟨lst, hlst, hs⟩ := Option.bind_eq_some_iff.mp hs
  exact .inr ⟨lst, hnew, hlive, hlst, (Option.some.inj hs).symm⟩

/-- The callbacks are those of `tick`, one after the other, on the list that `tick` leaves. -/
theorem timerHandler_eq {s s' : State C} {calls : List (Addr × Fd)}
    (hs : s.timerHandler = some (calls, s')) :
    ∃ lst, s.timerLst.tick s.clock = some (calls, lst) ∧
      s' = calls.foldl (fun s call => s.cbFunc call.2)
        { s with timerLst := lst, timeout := false } := by
  unfold State.timerHandler at hs
  simp only [Option.bind_eq_bind] at hs
  obtain ⟨⟨calls', lst⟩, htick, hs⟩ := Option.bind_eq_some_iff.mp hs
  rw [Option.some.injEq, Prod.mk.injEq] at hs
  obtain ⟨rfl, rfl⟩ := hs
  exact ⟨lst, htick, rfl⟩

/-- The timer handler runs behind a batch in which `SIGALRM` has come. -/
theorem step_timerHandler {ops : ConnOps C I} {s s' : State C} :
    step ops s .timerHandler = some s' ↔
      s.batch = [] ∧ s.timeout = true ∧ ∃ calls, s.timerHandler = some (calls, s') := by
  simp only [step]
  split
  · rename_i hbatch
    split
    · rename_i htimeout
      simp [hbatch, htimeout]
    · rename_i htimeout
      simp [htimeout]
  · rename_i hbatch
    simp [hbatch]

/-- The socket numbers and the requests: what neither the timers nor the sockets of others
change. -/
structure Requests (s s' : State C) : Prop where
  sockfd : s'.sockfd = s.sockfd
  workqueue : s'.workqueue = s.workqueue
  running : s'.running = s.running
  batch : s'.batch = s.batch

/-- The callback of a timer takes no request out of the queue and sets no `m_sockfd`, also where a
request for its socket is on its way. -/
theorem cbFunc_requests (s : State C) (slot : Fd) : Requests s (s.cbFunc slot) := by
  unfold State.cbFunc State.closeFd
  split <;> exact ⟨rfl, rfl, rfl, rfl⟩

/-- `close_conn` on a slot closes no socket but that of the slot. -/
theorem closeConn_requests (s : State C) {slot : Fd}
    (hslot : s.sockfd slot = some slot ∨ s.sockfd slot = none) :
    (s.closeConn slot).workqueue = s.workqueue ∧ (s.closeConn slot).running = s.running ∧
      (s.closeConn slot).batch = s.batch ∧
      ∀ fd ∈ s.openFds, fd ≠ slot → fd ∈ (s.closeConn slot).openFds := by
  unfold State.closeConn State.closeFd
  rcases hslot with hslot | hslot
  · simp only [hslot]
    split
    · exact ⟨rfl, rfl, rfl, fun fd hfd hne => Finset.mem_erase.mpr ⟨hne, hfd⟩⟩
    · exact ⟨rfl, rfl, rfl, fun fd hfd _ => hfd⟩
  · simp only [hslot]
    exact ⟨trivial, trivial, trivial, fun fd hfd _ => hfd⟩

theorem foldl_cbFunc_requests (s : State C) (calls : List (Addr × Fd)) :
    Requests s (calls.foldl (fun s call => s.cbFunc call.2) s) := by
  induction calls generalizing s with
  | nil => exact ⟨rfl, rfl, rfl, rfl⟩
  | cons call calls ih =>
    have h₁ := cbFunc_requests s call.2
    have h₂ := ih (s.cbFunc call.2)
    exact ⟨h₂.sockfd.trans h₁.sockfd, h₂.workqueue.trans h₁.workqueue,
      h₂.running.trans h₁.running, h₂.batch.trans h₁.batch⟩

theorem closeFd_openFds (s : State C) (fd : Fd) : (s.closeFd fd).openFds ⊆ s.openFds := by
  unfold State.closeFd
  split
  · exact Finset.erase_subset ..
  · exact Finset.Subset.refl _

/-- A tick opens nothing. -/
theorem foldl_cbFunc_openFds (s : State C) (calls : List (Addr × Fd)) :
    (calls.foldl (fun s call => s.cbFunc call.2) s).openFds ⊆ s.openFds := by
  induction calls generalizing s with
  | nil => exact Finset.Subset.refl _
  | cons call calls ih =>
    exact (ih (s.cbFunc call.2)).trans (closeFd_openFds s _)

/-- The signals set the two flags of the loop. -/
theorem foldl_signal_eq (s : State C) (signals : List Signal) : ∃ timeout stopServer,
    signals.foldl State.signal s = { s with timeout := timeout, stopServer := stopServer } := by
  induction signals generalizing s with
  | nil => exact ⟨s.timeout, s.stopServer, rfl⟩
  | cons sig signals ih =>
    obtain ⟨timeout, stopServer, heq⟩ := ih (s.signal sig)
    rw [List.foldl_cons, heq]
    cases sig <;> exact ⟨timeout, stopServer, rfl⟩

-- ---------------------------------------------------------------------------
-- Events and requests
-- ---------------------------------------------------------------------------

/-- What an event of a client socket does. -/
inductive ClientStep (ops : ConnOps C I) (s : State C) (fd : Fd) (mask : EventMask) (input : I) :
    State C → Prop
  /-- hung up, or a failed read or write: the state before differs in the object and in what is
  armed -/
  | drop {s' : State C} (users : Fd → C) (armed : Fd → Option Interest)
      (harmed : ∀ fd', fd' ≠ fd → s.sockfd fd = some fd → armed fd' = s.armed fd')
      (hs : State.dropClient { s with users := users, armed := armed } fd = some s') :
      ClientStep ops s fd mask input s'
  | read {s' : State C} (conn : C) (hmask : mask.hangup = false ∧ mask.epollin = true)
      (hread : ops.readOnce (s.users fd) input = (conn, true))
      (hs : (State.append { s with users := Function.update s.users fd conn } fd).adjustTimer fd =
        some s') : ClientStep ops s fd mask input s'
  | write {s' : State C} (conn : C) (ev : Option Interest)
      (hwrite : ops.write (s.users fd) input = some (conn, ev, true))
      (hs : (match ev with
        | none => { s with users := Function.update s.users fd conn }
        | some ev => State.modfd { s with users := Function.update s.users fd conn }
            (s.sockfd fd) ev).adjustTimer fd = some s') : ClientStep ops s fd mask input s'
  | nothing (hmask : ¬ mask.Reports) : ClientStep ops s fd mask input s

/-- What is armed on the other sockets stays. -/
theorem modfd_armed_of_ne {s : State C} {fd fd' : Fd} (ev : Interest) (h : fd' ≠ fd) :
    (s.modfd (some fd) ev).armed fd' = s.armed fd' := by
  simp only [State.modfd]
  split
  · exact Function.update_of_ne h ..
  · rfl

/-- The order of the tests is that of the source: a socket that has hung up is dropped, also when it
could be read, and `EPOLLOUT` is looked at only when nothing can be read. -/
theorem client_cases {ops : ConnOps C I} {s s' : State C} {fd : Fd} {mask : EventMask}
    {env : Env I} (hs : s.handleEvent ops (.client fd mask) env = some s') :
    ClientStep ops s fd mask env.input s' := by
  unfold State.handleEvent at hs
  simp only at hs
  split at hs
  · exact .drop s.users s.armed (fun _ _ _ => rfl) hs
  rename_i hhangup
  split at hs
  · rename_i hin
    unfold State.readBranch at hs
    cases hread : ops.readOnce (s.users fd) env.input with
    | mk conn ok =>
      simp only [hread] at hs
      cases ok with
      | false => exact .drop _ s.armed (fun _ _ _ => rfl) hs
      | true => exact .read conn ⟨by simpa using hhangup, hin⟩ hread hs
  rename_i hin
  split at hs
  · unfold State.writeBranch at hs
    obtain ⟨⟨conn, ev, ok⟩, hwrite, hs⟩ := Option.bind_eq_some_iff.mp hs
    cases ok with
    | true => exact .write conn ev hwrite hs
    | false =>
      -- `write` has armed the socket before it fails, if at all
      cases ev with
      | none => exact .drop _ s.armed (fun _ _ _ => rfl) hs
      | some ev =>
        obtain ⟨armed, heq⟩ :=
          modfd_eq { s with users := Function.update s.users fd conn } (s.sockfd fd) ev
        refine .drop (Function.update s.users fd conn) armed ?_ ?_
        · intro fd' hne hsock
          have harmed := modfd_armed_of_ne (s := { s with
            users := Function.update s.users fd conn }) ev hne
          rw [← hsock, heq] at harmed
          exact harmed
        · rw [← heq]
          exact hs
  · rename_i hout
    obtain rfl := Option.some.inj hs
    refine .nothing ?_
    unfold EventMask.Reports
    tauto

/-- `process()` ends in `modfd` or in `close_conn`, on the object that it leaves behind. -/
theorem finish_cases {ops : ConnOps C I} {s s' : State C} {slot : Fd} {input : I}
    (hs : s.finish ops slot input = some s') :
    ∃ conn effect, ops.process (s.users slot) input = some (conn, effect) ∧
      s' = match effect with
        | .modfd ev => State.modfd { s with users := Function.update s.users slot conn }
            (s.sockfd slot) ev
        | .closeConn => State.closeConn { s with users := Function.update s.users slot conn }
            slot := by
  unfold State.finish at hs
  obtain ⟨⟨conn, effect⟩, hp, hs⟩ := Option.bind_eq_some_iff.mp hs
  exact ⟨conn, effect, hp, (Option.some.inj hs).symm⟩

end TinyHTTP.Server
