import TinyHTTP.Server.Custody
import TinyHTTP.Server.Timed

/-!
# TinyHTTP — the connection a request is for

A request in the work queue is a pointer to `users[fd]`: nothing of the connection
that sent it. `Watched` keeps count, for each slot, of the connections it has been
initialised for and of those the timer has closed in it, and notes the count with
every request. A worker serves the right connection when the count is still what
it was.

* `watched_step` — the counts of the requests on their way stay what they were, as
  long as no timer fires for a connection with a request on its way.
* `tasks_reachable` — so they do over whole runs.
-/

namespace TinyHTTP.Server

open TinyHTTP.Lib TinyHTTP.Timer TinyHTTP.Http

variable {C I : Type}

/-- A state, with what has happened to the slots. -/
structure Watched (C : Type) where
  state : State C
  /-- how many times `init(connfd, addr)` has been called for a slot, or its timer has fired -/
  epoch : Fd → Nat
  /-- the epochs in which the requests of the queue were appended -/
  queueEpochs : List Nat
  /-- the epochs in which the requests of the workers were appended -/
  runningEpochs : List Nat

/-- What a step adds to the epoch of a slot. -/
def renewals (s s' : State C) (l : Label I) (fd : Fd) : Nat :=
  match l with
  | .handle env =>
    match s.batch with
    | .listen :: _ => if env.connfd = some fd ∧ fd ∈ s'.openFds then 1 else 0
    | _ => 0
  | .timerHandler =>
    match s.timerHandler with
    | some (calls, _) => calls.countP fun call => call.2 = fd
    | none => 0
  | _ => 0

/-- The epoch of a request that a step has appended. -/
def appended (w : Watched C) (s' : State C) : List Nat :=
  (s'.workqueue.drop w.state.workqueue.length).map w.epoch

/-- A step, with its effect on the counts. -/
def watchStep (ops : ConnOps C I) (w : Watched C) (l : Label I) : Option (Watched C) :=
  (step ops w.state l).map fun s' =>
    { state := s'
      epoch := fun fd => w.epoch fd + renewals w.state s' l fd
      queueEpochs := match l with
        | .handle _ => w.queueEpochs ++ appended w s'
        | .takeRequest => w.queueEpochs.tail
        | _ => w.queueEpochs
      runningEpochs := match l with
        | .takeRequest => w.runningEpochs ++ w.queueEpochs.take 1
        | .finishRequest i _ => w.runningEpochs.eraseIdx i
        | _ => w.runningEpochs }

/-- No request is on its way yet. -/
structure WatchInitial (w : Watched C) : Prop where
  initial : Initial w.state
  queueEpochs : w.queueEpochs = []
  runningEpochs : w.runningEpochs = []

/-- The step is not a tick at which a timer is due whose slot has a request on its way. -/
def Unhurried (s : State C) (l : Label I) : Prop :=
  ∀ xs, l = .timerHandler → IsChain s.timerLst xs → ∀ a ∈ xs,
    (s.timerLst.node a).expire ≤ s.clock →
    (s.timerLst.node a).userData ∉ s.workqueue ++ s.running

/-- The requests on their way are for open connections, and of the present epoch. -/
structure TasksCurrent (w : Watched C) : Prop where
  custody : ∃ limbo, InCustody w.state limbo
  scheduled : ∃ p, Scheduled w.state.timing p
  taskOpen : ∀ fd ∈ w.state.workqueue ++ w.state.running, fd ∈ w.state.openFds
  queueEpochs : w.queueEpochs = w.state.workqueue.map w.epoch
  runningEpochs : w.runningEpochs = w.state.running.map w.epoch

-- ---------------------------------------------------------------------------
-- Requests on their way
-- ---------------------------------------------------------------------------

/-- What a step does to the requests, where they keep their sockets open: one may be appended. -/
structure TasksKept (s s' : State C) : Prop where
  workqueue : s'.workqueue = s.workqueue ∨
    ∃ fd, s'.workqueue = s.workqueue ++ [fd] ∧ fd ∈ s.openFds ∧ fd ∈ s'.openFds
  running : s'.running = s.running
  kept : ∀ fd ∈ s.workqueue ++ s.running, fd ∈ s.openFds → fd ∈ s'.openFds

/-- An event of the batch closes no socket with a request on its way: that one has no event. -/
theorem handle_tasks {ops : ConnOps C I} {s s' : State C} {ev : Event} {rest : List Event}
    {env : Env I} {limbo : List Fd} (hw : WriteArms ops) (h : InCustody s limbo)
    (hbatch : s.batch = ev :: rest)
    (hs : State.handleEvent ops { s with batch := rest } ev env = some s') : TasksKept s s' := by
  cases ev with
  | listen =>
    unfold State.handleEvent at hs
    cases hc : env.connfd with
    | none =>
      simp only [hc, Option.some.injEq] at hs
      subst hs
      exact ⟨.inl rfl, rfl, fun _ _ hfd => hfd⟩
    | some connfd =>
      simp only [hc] at hs
      rcases accept_eq hs with rfl | ⟨lst, -, -, -, rfl⟩
      · exact ⟨.inl rfl, rfl, fun _ _ hfd => hfd⟩
      · exact ⟨.inl rfl, rfl, fun _ _ hfd => Finset.mem_insert_of_mem hfd⟩
  | pipe signals =>
    obtain rfl := Option.some.inj hs
    obtain ⟨timeout, stopServer, heq⟩ := foldl_signal_eq { s with batch := rest } signals
    rw [heq]
    exact ⟨.inl rfl, rfl, fun _ _ hfd => hfd⟩
  | client fd mask =>
    have hhand := h.hand hbatch
    have hm : Event.client fd mask ∈ s.batch := by
      rw [hbatch]
      exact List.mem_cons_self ..
    have hfd : fd ∈ s.openFds := h.batchOpen fd (List.mem_filterMap.mpr ⟨_, hm, rfl⟩)
    have hnot : fd ∉ s.workqueue ++ s.running := by
      intro ht
      refine (List.nodup_cons.mp hhand.nodup).1 ?_
      exact List.mem_append_left _ (List.mem_append_left _ ht)
    have hkept {limbo' : List Fd} (h' : HandedOn { s with batch := rest } s' fd limbo') :
        TasksKept s s' := by
      refine ⟨h'.workqueue.imp_right fun hq => ⟨fd, hq.1, hfd, hq.2 hfd⟩, h'.running, ?_⟩
      intro fd' ht hopen
      refine h'.open_of_ne fd' hopen ?_
      rintro rfl
      exact hnot ht
    rcases handedOn_client hw hhand hfd (h.batchMask fd mask hm) (client_cases hs) with
      h' | ⟨h', -⟩
    · exact hkept h'
    · exact hkept h'

theorem foldl_cbFunc_kept {s : State C} {calls : List (Addr × Fd)} {fd : Fd}
    (hcalls : ∀ call ∈ calls, (s.usersTimer call.2).sockfd ≠ fd) (hfd : fd ∈ s.openFds) :
    fd ∈ (calls.foldl (fun s call => s.cbFunc call.2) s).openFds := by
  induction calls generalizing s with
  | nil => exact hfd
  | cons call calls ih =>
    refine ih ?_ ?_
    · intro call' hc'
      have hut : (s.cbFunc call.2).usersTimer = s.usersTimer :=
        congrArg Timing.usersTimer (cbFunc_timing s call.2)
      rw [hut]
      exact hcalls call' (List.mem_cons_of_mem _ hc')
    · have hne := hcalls call (List.mem_cons_self ..)
      show fd ∈ (s.cbFunc call.2).openFds
      unfold State.cbFunc State.closeFd
      split
      · exact Finset.mem_erase.mpr ⟨fun e => hne e.symm, hfd⟩
      · exact hfd

/-- An accept renews no slot whose socket is open. -/
theorem renewals_open {ops : ConnOps C I} {s s' : State C} {env : Env I} {fd : Fd}
    (hs : step ops s (.handle env) = some s') (hfd : fd ∈ s.openFds) :
    renewals s s' (.handle env) fd = 0 := by
  simp only [renewals]
  split
  · rename_i rest hbatch
    refine if_neg ?_
    rintro ⟨hc, -⟩
    simp only [step, hbatch, State.handleEvent, hc, State.accept, if_pos hfd] at hs
    cases hs
  · rfl

theorem unclaimed_of_open {ops : ConnOps C I} {s s' : State C} {l : Label I}
    (hopen : ∀ fd ∈ s.workqueue ++ s.running, fd ∈ s.openFds) (hs : step ops s l = some s') :
    Unclaimed s l := by
  intro env connfd rest he hbatch hc ht
  subst he
  simp only [step, hbatch, State.handleEvent, hc, State.accept, if_pos (hopen connfd ht)] at hs
  cases hs

/-- A tick renews no slot with a request on its way. -/
theorem renewals_tick {s s' : State C} {l : Label I} {p : Pending Fd} {fd : Fd}
    (h : Scheduled s.timing p) (hok : Unhurried s l) (hl : l = .timerHandler)
    (ht : fd ∈ s.workqueue ++ s.running) : renewals s s' l fd = 0 := by
  subst hl
  simp only [renewals]
  split
  · rename_i calls t htick
    rw [List.countP_eq_zero]
    intro call hm hslot
    obtain ⟨-, xs, hchain, hax, hdata, hle⟩ := h.linked htick hm
    rw [decide_eq_true_iff] at hslot
    rw [hslot] at hdata
    exact hok xs rfl hchain call.1 hax hle (hdata ▸ ht)
  · rfl

/-- A worker that is done leaves the requests of the others alone. -/
theorem finish_tasks {ops : ConnOps C I} {s s' : State C} {slot : Fd} {input : I}
    (hslot : s.sockfd slot = some slot) (hs : s.finish ops slot input = some s') :
    s'.workqueue = s.workqueue ∧ s'.running = s.running ∧
      ∀ fd ∈ s.openFds, fd ≠ slot → fd ∈ s'.openFds := by
  obtain ⟨conn, effect, -, rfl⟩ := finish_cases hs
  cases effect with
  | modfd ev =>
    obtain ⟨armed, heq⟩ := modfd_eq { s with users := Function.update s.users slot conn }
      (s.sockfd slot) ev
    simp only [heq]
    exact ⟨trivial, trivial, fun fd hfd _ => hfd⟩
  | closeConn =>
    obtain ⟨hq, hr, -, hopen⟩ := closeConn_requests
      { s with users := Function.update s.users slot conn } (.inl hslot)
    exact ⟨hq, hr, hopen⟩

/-- What is appended is of the present epoch. -/
theorem appended_of_kept {w : Watched C} {s' : State C} (h : TasksKept w.state s') :
    w.state.workqueue.map w.epoch ++ appended w s' = s'.workqueue.map w.epoch := by
  unfold appended
  rcases h.workqueue with hq | ⟨fd, hq, -, -⟩
  · rw [hq, List.drop_length, List.map_nil, List.append_nil]
  · rw [hq, List.drop_left, List.map_append]

/-- What is in the queue after an event was for an open socket before. -/
theorem TasksKept.queueOpen {s s' : State C} (h : TasksKept s s')
    (hopen : ∀ fd ∈ s.workqueue ++ s.running, fd ∈ s.openFds) :
    ∀ fd ∈ s'.workqueue, fd ∈ s.openFds := by
  intro fd hfd
  rcases h.workqueue with hq | ⟨fd', hq, hopen', -⟩
  · exact hopen fd (List.mem_append_left _ (hq ▸ hfd))
  · rw [hq, List.mem_append, List.mem_singleton] at hfd
    rcases hfd with hfd | rfl
    · exact hopen fd (List.mem_append_left _ hfd)
    · exact hopen'

theorem TasksKept.taskOpen {s s' : State C} (h : TasksKept s s')
    (hopen : ∀ fd ∈ s.workqueue ++ s.running, fd ∈ s.openFds) :
    ∀ fd ∈ s'.workqueue ++ s'.running, fd ∈ s'.openFds := by
  have hold (fd : Fd) (hfd : fd ∈ s.workqueue ++ s.running) : fd ∈ s'.openFds :=
    h.kept fd hfd (hopen fd hfd)
  intro fd hfd
  rcases List.mem_append.mp hfd with hfd | hfd
  · rcases h.workqueue with hq | ⟨fd', hq, -, hopen'⟩
    · exact hold fd (List.mem_append_left _ (hq ▸ hfd))
    · rw [hq, List.mem_append, List.mem_singleton] at hfd
      rcases hfd with hfd | rfl
      · exact hold fd (List.mem_append_left _ hfd)
      · exact hopen'
  · exact hold fd (List.mem_append_right _ (h.running ▸ hfd))

/-- A tick takes no request out of the queue, and none from a worker. -/
theorem timerHandler_requests {s s' : State C} {calls : List (Addr × Fd)}
    (hs : s.timerHandler = some (calls, s')) : Requests s s' := by
  obtain ⟨lst, -, rfl⟩ := timerHandler_eq hs
  obtain ⟨h₁, h₂, h₃, h₄⟩ :=
    foldl_cbFunc_requests { s with timerLst := lst, timeout := false } calls
  exact ⟨h₁, h₂, h₃, h₄⟩

/-- A tick closes no socket with a request on its way. -/
theorem tick_tasks {ops : ConnOps C I} {s s' : State C} {p : Pending Fd}
    (h : Scheduled s.timing p) (hok : Unhurried s (.timerHandler : Label I))
    (hopen : ∀ fd ∈ s.workqueue ++ s.running, fd ∈ s.openFds)
    (hs : step ops s .timerHandler = some s') :
    Requests s s' ∧ ∀ fd ∈ s.workqueue ++ s.running, fd ∈ s'.openFds := by
  obtain ⟨-, -, calls, ht⟩ := step_timerHandler.mp hs
  refine ⟨timerHandler_requests ht, fun fd hfd => ?_⟩
  obtain ⟨lst, -, rfl⟩ := timerHandler_eq ht
  refine foldl_cbFunc_kept ?_ (hopen fd hfd)
  intro call hm hsock
  obtain ⟨hnum, xs, hchain, hax, hdata, hle⟩ := h.linked ht hm
  replace hsock : (s.usersTimer call.2).sockfd = fd := hsock
  rw [hnum] at hsock
  rw [hsock] at hdata
  exact hok xs rfl hchain call.1 hax hle (hdata ▸ hfd)

/-- The request that a worker takes off is the only one for its slot. -/
theorem InCustody.finished {s : State C} {limbo : List Fd} (h : InCustody s limbo) {i : Nat}
    {slot : Fd} (hslot : s.running[i]? = some slot) :
    slot ∉ s.workqueue ++ s.running.eraseIdx i := by
  have hnodup := (holders_eraseIdx_perm hslot limbo).nodup_iff.mp h.custody.nodup
  intro hmem
  refine (List.nodup_cons.mp hnodup).1 ?_
  exact List.mem_append_left _ (List.mem_append_left _ hmem)

-- ---------------------------------------------------------------------------
-- Steps and runs
-- ---------------------------------------------------------------------------

/-- **Step lemma.** -/
theorem watched_step {ops : ConnOps C I} {w w' : Watched C} {l : Label I} (hw : WriteArms ops)
    (h : TasksCurrent w) (hok : Unhurried w.state l) (hs : watchStep ops w l = some w') :
    TasksCurrent w' := by
  obtain ⟨s', hs', rfl⟩ := Option.map_eq_some_iff.mp hs
  obtain ⟨limbo, hcustody⟩ := h.custody
  obtain ⟨p, hscheduled⟩ := h.scheduled
  have hunclaimed := unclaimed_of_open h.taskOpen hs'
  have hcustody' : ∃ limbo', InCustody s' limbo' := by
    obtain ⟨limbo', h', -⟩ := custody_step hw hcustody hunclaimed hs'
    exact ⟨limbo', h'⟩
  have hscheduled' : ∃ p', Scheduled s'.timing p' := by
    obtain ⟨accepted, htiming, -⟩ := step_timing hs'
    exact hscheduled.step htiming
  -- a request on its way keeps its epoch
  have hepoch {queue : List Fd} (hqueue : ∀ fd ∈ queue, renewals w.state s' l fd = 0) :
      queue.map (fun fd => w.epoch fd + renewals w.state s' l fd) = queue.map w.epoch := by
    refine List.map_congr_left ?_
    intro fd hfd
    rw [hqueue fd hfd, Nat.add_zero]
  cases l with
  | elapse seconds =>
    obtain rfl := Option.some.inj hs'
    exact ⟨hcustody', hscheduled', h.taskOpen, h.queueEpochs.trans (hepoch fun _ _ => rfl).symm,
      h.runningEpochs.trans (hepoch fun _ _ => rfl).symm⟩
  | epollWait events =>
    have hkeep : s'.workqueue = w.state.workqueue ∧ s'.running = w.state.running ∧
        s'.openFds = w.state.openFds := by
      simp only [step] at hs'
      split at hs'
      · obtain rfl := Option.some.inj hs'
        exact ⟨rfl, rfl, rfl⟩
      · cases hs'
    obtain ⟨hq, hr, hopen⟩ := hkeep
    refine ⟨hcustody', hscheduled', ?_, ?_, ?_⟩
    · rw [hq, hr, hopen]
      exact h.taskOpen
    · rw [hq]
      exact h.queueEpochs.trans (hepoch fun _ _ => rfl).symm
    · rw [hr]
      exact h.runningEpochs.trans (hepoch fun _ _ => rfl).symm
  | handle env =>
    have hkept : TasksKept w.state s' := by
      cases hb : w.state.batch with
      | nil => simp [step, hb] at hs'
      | cons ev rest =>
        simp only [step, hb] at hs'
        exact handle_tasks hw hcustody hb hs'
    have hnew := hkept.queueOpen h.taskOpen
    refine ⟨hcustody', hscheduled', hkept.taskOpen h.taskOpen, ?_, ?_⟩
    · rw [hepoch fun fd hfd => renewals_open hs' (hnew fd hfd), ← appended_of_kept hkept,
        ← h.queueEpochs]
    · show w.runningEpochs = _
      rw [hkept.running, hepoch fun fd hfd => renewals_open hs'
        (h.taskOpen fd (List.mem_append_right _ hfd))]
      exact h.runningEpochs
  | timerHandler =>
    have hzero (fd : Fd) (hfd : fd ∈ w.state.workqueue ++ w.state.running) :
        renewals w.state s' (.timerHandler : Label I) fd = 0 :=
      renewals_tick hscheduled hok rfl hfd
    obtain ⟨hreq, hopen⟩ := tick_tasks hscheduled hok h.taskOpen hs'
    refine ⟨hcustody', hscheduled', ?_, ?_, ?_⟩
    · rw [hreq.workqueue, hreq.running]
      exact hopen
    · show w.queueEpochs = _
      rw [hreq.workqueue, hepoch fun fd hfd => hzero fd (List.mem_append_left _ hfd)]
      exact h.queueEpochs
    · show w.runningEpochs = _
      rw [hreq.running, hepoch fun fd hfd => hzero fd (List.mem_append_right _ hfd)]
      exact h.runningEpochs
  | takeRequest =>
    simp only [step] at hs'
    split at hs'
    · cases hs'
    rename_i fd rest hqueue
    split at hs'
    · obtain rfl := Option.some.inj hs'
      have hepochs := h.queueEpochs
      rw [hqueue, List.map_cons] at hepochs
      refine ⟨hcustody', hscheduled', ?_, ?_, ?_⟩
      · intro fd' hfd'
        refine h.taskOpen fd' ?_
        rw [hqueue]
        simp only [List.mem_append, List.mem_cons, List.not_mem_nil, or_false] at hfd' ⊢
        tauto
      · show w.queueEpochs.tail = _
        rw [hepochs, hepoch fun _ _ => rfl]
        rfl
      · show w.runningEpochs ++ w.queueEpochs.take 1 = _
        rw [hepochs, hepoch fun _ _ => rfl, h.runningEpochs, List.map_append]
        rfl
    · cases hs'
  | finishRequest i input =>
    obtain ⟨slot, hslot, hs'⟩ : ∃ slot, w.state.running[i]? = some slot ∧ State.finish ops
        { w.state with running := w.state.running.eraseIdx i } slot input = some s' := by
      simp only [step] at hs'
      split at hs'
      · cases hs'
      · rename_i slot hslot
        exact ⟨slot, hslot, hs'⟩
    have hsock : w.state.sockfd slot = some slot := by
      have hmem := List.mem_append_right w.state.workqueue (List.mem_of_getElem? hslot)
      exact (hcustody.custody.slot slot (h.taskOpen slot hmem)).2
    obtain ⟨hq, hr, hopen⟩ := finish_tasks (s := { w.state with
      running := w.state.running.eraseIdx i }) hsock hs'
    have hother := hcustody.finished hslot
    refine ⟨hcustody', hscheduled', ?_, ?_, ?_⟩
    · intro fd hfd
      rw [hq, hr] at hfd
      refine hopen fd (h.taskOpen fd ?_) fun e => hother (e ▸ hfd)
      exact List.mem_append.mpr
        ((List.mem_append.mp hfd).imp_right fun hfd => List.mem_of_mem_eraseIdx hfd)
    · show w.queueEpochs = _
      rw [hq, hepoch fun _ _ => rfl]
      exact h.queueEpochs
    · show w.runningEpochs.eraseIdx i = _
      rw [hr, hepoch fun _ _ => rfl, h.runningEpochs, List.eraseIdx_map]

/-- No timer fires for a connection with a request on its way. -/
def WatchUnhurried (w : Watched C) (l : Label I) : Prop :=
  Unhurried w.state l

theorem tasks_initial {w : Watched C} (h : WatchInitial w) : TasksCurrent w := by
  refine ⟨⟨[], custody_initial h.initial⟩, ⟨_, (timed_initial h.initial).toScheduled⟩, ?_, ?_, ?_⟩
  · rw [h.initial.workqueue, h.initial.running]
    exact fun fd hfd => absurd hfd List.not_mem_nil
  · rw [h.queueEpochs, h.initial.workqueue]
    rfl
  · rw [h.runningEpochs, h.initial.running]
    rfl

theorem tasks_reachable {ops : ConnOps C I} {w : Watched C} (hw : WriteArms ops)
    (h : Reachable WatchInitial (watchStep ops) WatchUnhurried w) : TasksCurrent w :=
  h.invariant (fun _ h => tasks_initial h) fun _ _ _ ht hok hs => watched_step hw ht hok hs

end TinyHTTP.Server
