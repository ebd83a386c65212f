import TinyHTTP.Http.Send
import TinyHTTP.Server.Accounting
import TinyHTTP.Server.Custody
import TinyHTTP.Server.Leaving

/-!
# TinyHTTP — the server with its connection objects

The event loop over the connection objects of `Http`. A worker whose
`process_write` fails closes the connection itself, and leaves the timer of the
socket in the list: accounting is lost at once, and the timer fires on whichever
connection has the number when it is due.

* `accounting` — accounting holds as long as no worker does so, and no longer.
* `tick_spares_active` — a tick closes idle connections only, in a server that
  accepts no number before the last timer of that number is gone.
* `never_orphaned` — every open connection is armed, queued or with one worker when
  the loop calls `epoll_wait`, as long as `append` refuses no request.
* `task_for_its_connection` — a worker serves the connection that sent its request, as
  long as no timer fires for a connection with a request on its way, and no number is
  accepted that a worker still has in `process()`.
-/

namespace TinyHTTP.Server

open TinyHTTP.Lib TinyHTTP.Timer TinyHTTP.Http

/-- The environment's part of a call of a connection object. -/
structure Input where
  recv : Recv
  world : World
  writev : List Writev

def httpOps : ConnOps HttpConn Input where
  init := HttpConn.init
  readOnce c input := c.readOnce input.recv
  process c input :=
    match c.process input.world with
    | .ok (_, c, effect) => some (c, effect)
    | .error _ => none
  write c input := (c.write input.writev).map fun r => (r.conn, r.armed, r.ok)

/-- `process_write` succeeds for the request that is in the buffer, if it is complete. -/
def AnswerReady (w : World) (c : HttpConn) : Prop :=
  ∀ w' c' code, c.processRead w = .ok (w', c', code) → code ≠ .noRequest →
    (c'.processWrite code).2 = true

/-- The step is not a worker whose `process_write` fails. -/
def WorkersAnswer (s : State HttpConn) (l : Label Input) : Prop :=
  ∀ i input slot, l = .finishRequest i input → s.running[i]? = some slot →
    AnswerReady input.world (s.users slot)

-- ---------------------------------------------------------------------------
-- Accounting
-- ---------------------------------------------------------------------------

/-- `process()` ends in `close_conn()` exactly when `process_write` fails. -/
theorem process_closeConn_iff {c c' : HttpConn} {w w' : World} {effect : ProcessEffect}
    (h : c.process w = .ok (w', c', effect)) : effect = .closeConn ↔ ¬ AnswerReady w c := by
  cases hread : c.processRead w with
  | error f =>
    unfold HttpConn.process at h
    rw [hread] at h
    cases h
  | ok r =>
    obtain ⟨w₁, c₁, code⟩ := r
    have heffect : (c₁.answer code).2 = effect := by
      rw [process_of_processRead hread] at h
      cases h
      rfl
    have hready : AnswerReady w c ↔ (code ≠ .noRequest → (c₁.processWrite code).2 = true) := by
      constructor
      · intro hall
        exact hall w₁ c₁ code hread
      · intro hcode w₂ c₂ code' hread'
        rw [hread] at hread'
        cases hread'
        exact hcode
    rw [hready, ← heffect]
    by_cases hcode : code = .noRequest
    · subst hcode
      refine iff_of_false ?_ (by simp)
      unfold HttpConn.answer
      rw [if_pos rfl]
      exact fun h => nomatch h
    · cases hok : (c₁.processWrite code).2 with
      | true =>
        rw [answer_ok hcode hok]
        simp
      | false =>
        rw [answer_failed hcode hok]
        simp [hcode]

theorem process_ok {c c' : HttpConn} {input : Input} {effect : ProcessEffect}
    (h : httpOps.process c input = some (c', effect)) :
    ∃ w', c.process input.world = .ok (w', c', effect) := by
  simp only [httpOps] at h
  split at h
  · rename_i w' c₁ effect₁ hp
    cases h
    exact ⟨w', hp⟩
  · cases h

/-- A step that is taken is none of an undefined behaviour, so the two conditions are one. -/
theorem noCloseConn_iff {s s' : State HttpConn} {l : Label Input}
    (hs : step httpOps s l = some s') : NoCloseConn httpOps s l ↔ WorkersAnswer s l := by
  constructor
  · rintro hno i input slot rfl hslot
    simp only [step, hslot, State.finish, Option.bind_eq_bind] at hs
    obtain ⟨⟨conn, effect⟩, hp, -⟩ := Option.bind_eq_some_iff.mp hs
    obtain ⟨w', hprocess⟩ := process_ok hp
    by_contra hready
    obtain rfl := (process_closeConn_iff hprocess).mpr hready
    exact hno i input slot conn rfl hslot hp
  · rintro hready i input slot conn rfl hslot hp
    obtain ⟨w', hprocess⟩ := process_ok hp
    exact (process_closeConn_iff hprocess).mp rfl (hready i input slot rfl hslot)

theorem inv_of_workersAnswer {s : State HttpConn}
    (h : Reachable Initial (step httpOps) WorkersAnswer s) : Inv s := by
  refine h.invariant (fun _ h => inv_initial h) ?_
  intro t l t' ht hok hs
  exact inv_step ht ((noCloseConn_iff hs).mpr hok) hs

/-- **Accounting** holds in every state that a run reaches while `process_write` succeeds for the
workers, and the first step in which it fails ends it. -/
theorem accounting {s : State HttpConn}
    (h : Reachable Initial (step httpOps) WorkersAnswer s) :
    Accounted s ∧ ∀ l s', step httpOps s l = some s' → (Accounted s' ↔ WorkersAnswer s l) := by
  have hinv := inv_of_workersAnswer h
  refine ⟨hinv.accounted, ?_⟩
  intro l s' hs
  constructor
  · intro hacc
    rw [← noCloseConn_iff hs]
    rintro i input slot conn rfl hslot hp
    simp only [step, hslot, State.finish, hp, Option.bind_eq_bind, Option.bind_some,
      Option.some.injEq] at hs
    subst hs
    have hsock := hinv.queue_sockfd slot (List.mem_append_right _ (List.mem_of_getElem? hslot))
    have hleave := users_inv (leave_inv hinv i) (Function.update s.users slot conn)
    exact closeConn_not_accounted hleave hsock hacc
  · intro hok
    exact (inv_of_workersAnswer (.step l h hok hs)).accounted

-- ---------------------------------------------------------------------------
-- One visit
-- ---------------------------------------------------------------------------

/-- The server before its first client. -/
def coldStart : State HttpConn where
  users := fun _ => HttpConn.constructed
  sockfd := fun _ => none
  userCount := 0
  usersTimer := fun _ => ⟨0, none⟩
  timerLst := SortTimerLst.empty fun _ => ⟨0, 0, none, none⟩
  openFds := ∅
  armed := fun _ => none
  workqueue := []
  running := []
  batch := []
  timeout := false
  stopServer := false
  clock := 0
  acceptedAt := fun _ => 0
  lastActive := fun _ => 0
  badClose := false

theorem coldStart_initial : Initial coldStart where
  userCount := rfl
  timerLst := ⟨_, rfl⟩
  openFds := rfl
  workqueue := rfl
  running := rfl
  batch := rfl
  timeout := rfl
  stopServer := rfl
  badClose := rfl

def arrival (request : List UInt8) : Input := ⟨.data request, onePage, []⟩

/-- The next client is accepted as socket `fd`. -/
def welcome (fd : Fd) (timer : Addr) : List (Label Input) :=
  [.epollWait [.listen], .handle ⟨some fd, timer, arrival []⟩]

/-- The request of socket `fd` arrives, and a worker takes it. -/
def deliverRequest (fd : Fd) (request : List UInt8) : List (Label Input) :=
  [.epollWait [.client fd ⟨false, true, false⟩], .handle ⟨none, 0, arrival request⟩, .takeRequest]

def pageRequest : List UInt8 := bytes "GET /1 HTTP/1.1\r\n\r\n"
def missingRequest : List UInt8 := bytes "GET /a HTTP/1.1\r\n\r\n"

theorem accounting_page : ∃ s s', runSteps (step httpOps) coldStart
    (welcome 5 1 ++ deliverRequest 5 pageRequest) = some s ∧
    step httpOps s (.finishRequest 0 (arrival pageRequest)) = some s' ∧ Accounted s' := by
  have hrun : (runSteps (step httpOps) coldStart
      (welcome 5 1 ++ deliverRequest 5 pageRequest)).map (fun s => (s.running,
        (httpOps.process (s.users 5) (arrival pageRequest)).map Prod.snd)) =
      some ([5], some (.modfd .epollout)) := by decide +kernel
  obtain ⟨s, hs, hval⟩ := Option.map_eq_some_iff.mp hrun
  rw [Prod.mk.injEq, Option.map_eq_some_iff] at hval
  obtain ⟨hrunning, ⟨c, effect⟩, hp, rfl⟩ := hval
  have hreach : Reachable Initial (step httpOps) WorkersAnswer s := by
    refine .of_run ?_ (.init coldStart_initial) hs
    intro l hl t i input slot he
    subst he
    simp [welcome, deliverRequest] at hl
  have hok : WorkersAnswer s (.finishRequest 0 (arrival pageRequest)) := by
    intro i input slot he hslot
    cases he
    rw [hrunning] at hslot
    obtain rfl : 5 = slot := Option.some.inj hslot
    obtain ⟨w', hprocess⟩ := process_ok hp
    by_contra hready
    exact nomatch (process_closeConn_iff hprocess).mpr hready
  have hstep : (step httpOps s (.finishRequest 0 (arrival pageRequest))).isSome := by
    simp [step, hrunning, State.finish, hp]
  obtain ⟨s', hs'⟩ := Option.isSome_iff_exists.mp hstep
  exact ⟨s, s', hs, hs', (accounting (.step _ hreach hok hs')).1⟩

/-- A request for a missing file: the socket is closed, its timer is still linked. -/
theorem not_accounted : ¬ ∀ s, Reachable Initial (step httpOps) (fun _ _ => True) s →
    Accounted s := by
  intro hall
  have hrun : (runSteps (step httpOps) coldStart (welcome 5 1 ++
      deliverRequest 5 missingRequest ++ [.finishRequest 0 (arrival missingRequest)])).map
      (fun s => (decide (s.openFds = ∅), s.timerLst.head)) = some (true, some 1) := by
    decide +kernel
  obtain ⟨s, hs, hval⟩ := Option.map_eq_some_iff.mp hrun
  rw [Prod.mk.injEq, decide_eq_true_iff] at hval
  obtain ⟨hopen, hhead⟩ := hval
  have hacc := hall s (.of_run (fun _ _ _ => trivial) (.init coldStart_initial) hs)
  obtain ⟨xs, hchain, -, -, howner⟩ := hacc.timers
  have hmem : 1 ∈ xs := by
    rw [hchain.head] at hhead
    exact List.mem_of_head? hhead
  have hfd := howner 1 hmem
  rw [hopen] at hfd
  exact absurd hfd (Finset.notMem_empty _)

-- ---------------------------------------------------------------------------
-- The timers
-- ---------------------------------------------------------------------------

/-- **Active connections are spared**: a tick closes the connection in a slot only if it was
accepted, and was last read from or written to, three time slots ago. -/
theorem tick_spares_active {s s' : State HttpConn} {calls : List (Addr × Fd)}
    (h : Reachable Initial (step httpOps) NumberUnlinked s)
    (hs : s.timerHandler = some (calls, s')) {a : Addr} {slot : Fd} (hm : (a, slot) ∈ calls) :
    (s.usersTimer slot).sockfd = slot ∧ s.acceptedAt slot + 3 * timeslot ≤ s.clock ∧
      s.lastActive slot + 3 * timeslot ≤ s.clock := by
  obtain ⟨p, htimed⟩ := timed_reachable h
  exact htimed.idle hs hm

/-- The alarm goes off after `seconds`. -/
def alarm (seconds : Nat) : List (Label Input) :=
  [.elapse seconds, .epollWait [.pipe [.sigalrm]], .handle ⟨none, 0, arrival []⟩]

/-- An accept into an empty timer list. -/
def noTimers (s : State HttpConn) : Label Input → Bool
  | .handle ⟨some _, _, _⟩ => s.timerLst.head.isNone
  | _ => true

theorem numberUnlinked_of_check {s : State HttpConn} {l : Label Input} (h : noTimers s l = true) :
    NumberUnlinked s l := by
  intro env connfd he _ hc xs hchain a ha
  subst he
  obtain ⟨c, timer, input⟩ := env
  obtain rfl : c = some connfd := hc
  have hnil : s.timerLst.head = none := Option.isNone_iff_eq_none.mp h
  rw [hchain.head, List.head?_eq_none_iff] at hnil
  rw [hnil] at ha
  cases ha

theorem tick_spares_active_idle : ∃ (s s' : State HttpConn) (calls : List (Addr × Fd)),
    s.timerHandler = some (calls, s') ∧
    (1, 5) ∈ calls ∧ (s.usersTimer 5).sockfd = 5 ∧ s.acceptedAt 5 + 3 * timeslot ≤ s.clock ∧
      s.lastActive 5 + 3 * timeslot ≤ s.clock := by
  have hrun : (runSteps (guarded noTimers (step httpOps)) coldStart
      (welcome 5 1 ++ alarm 15)).map (fun s => s.timerHandler.map Prod.fst) =
      some (some [(1, 5)]) := by decide +kernel
  obtain ⟨s, hs, hval⟩ := Option.map_eq_some_iff.mp hrun
  obtain ⟨⟨calls, s'⟩, htick, hcalls⟩ := Option.map_eq_some_iff.mp hval
  obtain rfl : calls = [(1, 5)] := hcalls
  have hm : (1, 5) ∈ [((1, 5) : Addr × Fd)] := List.mem_singleton_self _
  have hreach := Reachable.of_guarded (fun _ _ h => numberUnlinked_of_check h)
    (.init coldStart_initial) hs
  exact ⟨s, s', _, htick, hm, tick_spares_active hreach htick hm⟩

/-- A missing file at time 0; its number, 5, is used again at time 14; the old timer fires at
time 15. -/
theorem tick_hits_active : ¬ ∀ s s' calls a slot,
    Reachable Initial (step httpOps) (fun _ _ => True) s → s.timerHandler = some (calls, s') →
    (a, slot) ∈ calls → (s.usersTimer slot).sockfd ∈ s.openFds →
    s.acceptedAt slot + 3 * timeslot ≤ s.clock := by
  intro hall
  have hrun : (runSteps (step httpOps) coldStart (welcome 5 1 ++
      deliverRequest 5 missingRequest ++ [.finishRequest 0 (arrival missingRequest), .elapse 14] ++
      welcome 5 2 ++ alarm 1)).map (fun s => (s.timerHandler.map Prod.fst,
        decide ((s.usersTimer 5).sockfd ∈ s.openFds), s.acceptedAt 5, s.clock)) =
      some (some [(1, 5)], true, 14, 15) := by
    decide +kernel
  obtain ⟨s, hs, hval⟩ := Option.map_eq_some_iff.mp hrun
  simp only [Prod.mk.injEq, decide_eq_true_iff, Option.map_eq_some_iff] at hval
  obtain ⟨⟨⟨calls, s'⟩, htick, hcalls⟩, hopen, hacc, hclock⟩ := hval
  have hreach := Reachable.of_run (fun _ _ _ => trivial) (.init coldStart_initial) hs
  obtain rfl : calls = [(1, 5)] := hcalls
  have hle := hall s s' _ 1 5 hreach htick (List.mem_singleton_self _) hopen
  rw [hacc, hclock] at hle
  exact absurd hle (by decide)

-- ---------------------------------------------------------------------------
-- Custody
-- ---------------------------------------------------------------------------

theorem writeLoop_arms {outs : List Writev} {c : HttpConn} {r : WriteResult}
    (h : writeLoop outs c = some r) (hok : r.ok = true) : r.armed ≠ none := by
  induction outs generalizing c r with
  | nil => cases h
  | cons out rest ih =>
    cases out with
    | eagain =>
      simp only [writeLoop] at h
      split at h
      · cases h
        exact Option.some_ne_none _
      · cases h
    | error =>
      simp only [writeLoop] at h
      split at h
      · cases h
        cases hok
      · cases h
    | sent n =>
      simp only [writeLoop] at h
      split at h
      · split at h
        · split at h
          · cases h
            exact Option.some_ne_none _
          · cases h
        · obtain ⟨r', hr', rfl⟩ := Option.map_eq_some_iff.mp h
          have hok' : r'.ok = true := hok
          exact ih (r := r') hr' hok'
      · cases h

theorem httpOps_writeArms : WriteArms httpOps := by
  intro c input conn ev h
  simp only [httpOps, HttpConn.write] at h
  obtain ⟨r, hr, h⟩ := Option.map_eq_some_iff.mp h
  rw [Prod.mk.injEq, Prod.mk.injEq] at h
  obtain ⟨-, rfl, hok⟩ := h
  split at hr
  · split at hr
    · cases hr
      exact Option.some_ne_none _
    · cases hr
  · exact writeLoop_arms hr hok

/-- **No connection is orphaned.** -/
theorem never_orphaned {s : State HttpConn}
    (h : Reachable Initial (step httpOps) (HandsOn httpOps) s) (hwait : s.AboutToWait) :
    ∀ fd ∈ s.openFds, Situated s fd :=
  fun _ hfd => (custody_reachable httpOps_writeArms h).situated hwait.1 hfd

/-- A step with no request on its way. -/
def noRequests (s : State HttpConn) (_ : Label Input) : Bool :=
  s.workqueue.isEmpty && s.running.isEmpty

theorem handsOn_of_check {s : State HttpConn} {l : Label Input} (h : noRequests s l = true) :
    HandsOn httpOps s l := by
  unfold noRequests at h
  rw [Bool.and_eq_true, List.isEmpty_iff, List.isEmpty_iff] at h
  obtain ⟨hq, hr⟩ := h
  refine ⟨?_, ?_⟩
  · intro _ _ _ _ _ _ _ _ _
    rw [hq]
    exact Nat.zero_le _
  · intro _ connfd _ _ _ _
    rw [hq, hr]
    exact List.not_mem_nil

/-- A request is read and is in the queue. -/
theorem never_orphaned_queued : ∃ s : State HttpConn, s.workqueue = [5] ∧ 5 ∈ s.openFds ∧
    ∀ fd ∈ s.openFds, Situated s fd := by
  have hrun : (runSteps (guarded noRequests (step httpOps)) coldStart (welcome 5 1 ++
      (deliverRequest 5 pageRequest).take 2)).map (fun s => (s.workqueue,
        decide (5 ∈ s.openFds),
        decide (s.batch.isEmpty ∧ s.timeout = false ∧ s.stopServer = false))) =
      some ([5], true, true) := by
    decide +kernel
  obtain ⟨s, hs, hval⟩ := Option.map_eq_some_iff.mp hrun
  simp only [Prod.mk.injEq, decide_eq_true_iff, List.isEmpty_iff] at hval
  obtain ⟨hq, hopen, hwait⟩ := hval
  have hreach := Reachable.of_guarded (fun _ _ h => handsOn_of_check h)
    (.init coldStart_initial) hs
  exact ⟨s, hq, hopen, never_orphaned hreach hwait⟩

/-- No worker takes the request of socket 5 for 15 seconds; the timer closes the socket, and the
next client gets its number. -/
theorem claimed_while_queued : ¬ ∀ s : State HttpConn,
    Reachable Initial (step httpOps) (fun _ _ => True) s → s.AboutToWait →
    ∀ fd ∈ s.openFds, Situated s fd := by
  intro hall
  have hrun : (runSteps (step httpOps) coldStart (welcome 5 1 ++
      (deliverRequest 5 pageRequest).take 2 ++ alarm 15 ++ [.timerHandler] ++ welcome 5 2)).map
      (fun s => (s.workqueue, decide (5 ∈ s.openFds), s.armed 5,
        decide (s.batch.isEmpty ∧ s.timeout = false ∧ s.stopServer = false))) =
      some ([5], true, some .epollin, true) := by
    decide +kernel
  obtain ⟨s, hs, hval⟩ := Option.map_eq_some_iff.mp hrun
  simp only [Prod.mk.injEq, decide_eq_true_iff, List.isEmpty_iff] at hval
  obtain ⟨hq, hopen, harmed, hwait⟩ := hval
  have hreach := Reachable.of_run (fun _ _ _ => trivial) (.init coldStart_initial) hs
  cases hall s hreach hwait 5 hopen with
  | armed ha hq' hr => exact hq' (by rw [hq]; exact List.mem_singleton_self _)
  | queued ha _ _ | inWorker ha _ _ =>
    rw [harmed] at ha
    cases ha

-- ---------------------------------------------------------------------------
-- Requests
-- ---------------------------------------------------------------------------

/-- **A request is for the connection that sent it**: up to the end of `process()`, the slot has had
neither a newer connection nor a visit of its timer since the request was appended. The first step
that does not meet the condition ends it. -/
theorem task_for_its_connection {v : Workers HttpConn}
    (h : Reachable WorkInitial (workStep httpOps) Unrenewed v) :
    RequestsCurrent v ∧
      ∀ l v', workStep httpOps v l = some v' → (RequestsCurrent v' ↔ Unrenewed v l) := by
  have hdeparting := departing_reachable httpOps_writeArms h
  refine ⟨hdeparting.current httpOps_writeArms, ?_⟩
  intro l v' hs
  constructor
  · exact unrenewed_of_current httpOps_writeArms hdeparting hs
  · intro hok
    exact (departing_step httpOps_writeArms hdeparting hok hs).current httpOps_writeArms

def coldWorkers : Workers HttpConn where
  watched := {
    state := coldStart
    epoch := fun _ => 0
    queueEpochs := []
    runningEpochs := [] }
  leaving := []

theorem coldWorkers_initial : WorkInitial coldWorkers := ⟨⟨coldStart_initial, rfl, rfl⟩, rfl⟩

/-- Steps in which no worker gets on with leaving `process()`. -/
def works (ls : List (Label Input)) : List (WorkLabel Input) := ls.map .step

/-- No tick, and no accept of a number that a worker still has. -/
def numbersFree (v : Workers HttpConn) : WorkLabel Input → Bool
  | .step .timerHandler => false
  | .step (.handle ⟨some connfd, _, _⟩) => !v.slots.contains connfd
  | _ => true

theorem unrenewed_of_check {v : Workers HttpConn} {l : WorkLabel Input}
    (h : numbersFree v l = true) : Unrenewed v l := by
  refine ⟨?_, ?_⟩
  · intro xs he
    subst he
    cases h
  · intro env rest connfd he _ hc _ hmem
    subst he
    obtain ⟨c, timer, input⟩ := env
    obtain rfl : c = some connfd := hc
    have hfree : (!v.slots.contains connfd) = true := h
    rw [Bool.not_eq_true', ← Bool.not_eq_true, List.contains_iff_mem] at hfree
    exact hfree hmem

/-- The socket of a missing file, 5, is closed by its worker, which has still to reset the object,
and a second client has a request with another worker. -/
theorem task_for_its_connection_page : ∃ v : Workers HttpConn,
    v.watched.state.running = [6] ∧ v.leaving.map (fun x => (x.slot, x.epoch)) = [(5, 1)] ∧
    RequestsCurrent v := by
  have hrun : (runSteps (guarded numbersFree (workStep httpOps)) coldWorkers
      (works (welcome 5 1 ++ deliverRequest 5 missingRequest ++
        [.finishRequest 0 (arrival missingRequest)] ++ welcome 6 2 ++
        deliverRequest 6 pageRequest))).map (fun v => (v.watched.state.running,
          v.leaving.map fun x => (x.slot, x.epoch))) = some ([6], [(5, 1)]) := by
    decide +kernel
  obtain ⟨v, hs, hval⟩ := Option.map_eq_some_iff.mp hrun
  obtain ⟨hrunning, hleaving⟩ := Prod.mk.inj hval
  have hreach := Reachable.of_guarded (fun _ _ h => unrenewed_of_check h)
    (.init coldWorkers_initial) hs
  exact ⟨v, hrunning, hleaving, (task_for_its_connection hreach).1⟩

/-- Two ways of serving another connection. The request of socket 5 is queued for 15 seconds; the
timer closes the socket, the next client gets its number, and a worker runs `process()` on that
client's object. Or a worker closes socket 5, whose file is missing, and the next client gets the
number before the worker has reset the object. -/
theorem task_for_another :
    (¬ ∀ (v : Workers HttpConn) (i : Nat) (slot : Fd),
      Reachable WorkInitial (workStep httpOps) (fun _ _ => True) v →
      v.watched.state.running[i]? = some slot →
      v.watched.runningEpochs[i]? = some (v.watched.epoch slot)) ∧
    ¬ ∀ (v : Workers HttpConn), Reachable WorkInitial (workStep httpOps) (fun _ _ => True) v →
      ∀ x ∈ v.leaving, x.epoch = v.watched.epoch x.slot := by
  refine ⟨?_, ?_⟩
  · intro hall
    have hrun : (runSteps (workStep httpOps) coldWorkers (works (welcome 5 1 ++
        (deliverRequest 5 pageRequest).take 2 ++ alarm 15 ++ [.timerHandler] ++ welcome 5 2 ++
        [.takeRequest]))).map (fun v => (v.watched.state.running,
          v.watched.runningEpochs, v.watched.epoch 5)) = some ([5], [1], 3) := by
      decide +kernel
    obtain ⟨v, hs, hval⟩ := Option.map_eq_some_iff.mp hrun
    simp only [Prod.mk.injEq] at hval
    obtain ⟨hrunning, hepochs, hepoch⟩ := hval
    have hreach := Reachable.of_run (fun _ _ _ => trivial) (.init coldWorkers_initial) hs
    have heq := hall v 0 5 hreach (by rw [hrunning]; rfl)
    rw [hepochs, hepoch] at heq
    exact absurd heq (by decide)
  · intro hall
    have hrun : (runSteps (workStep httpOps) coldWorkers (works (welcome 5 1 ++
        deliverRequest 5 missingRequest ++ [.finishRequest 0 (arrival missingRequest)] ++
        welcome 5 2))).map (fun v => (v.leaving.map fun x => (x.slot, x.epoch),
          v.watched.epoch 5)) = some ([(5, 1)], 2) := by
      decide +kernel
    obtain ⟨v, hs, hval⟩ := Option.map_eq_some_iff.mp hrun
    obtain ⟨hleaving, hepoch⟩ := Prod.mk.inj hval
    have hreach := Reachable.of_run (fun _ _ _ => trivial) (.init coldWorkers_initial) hs
    have hmem : (5, 1) ∈ v.leaving.map fun x => (x.slot, x.epoch) := by
      rw [hleaving]
      exact List.mem_singleton_self _
    obtain ⟨x, hx, heq⟩ := List.mem_map.mp hmem
    obtain ⟨hslot, hx1⟩ := Prod.mk.inj heq
    have hcurrent := hall v hreach x hx
    rw [hx1, hslot, hepoch] at hcurrent
    exact absurd hcurrent (by decide)

end TinyHTTP.Server
