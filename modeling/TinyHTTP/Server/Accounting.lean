import TinyHTTP.Server.Timed

/-!
# TinyHTTP — connection accounting

`m_user_count`, the open sockets, `users_timer` and the timer list are kept in
step by hand in every branch of the event loop. `Inv` ties them together through
the table of pending timers: each open socket has one, and there are no others.

The worker threads are the weak spot: `close_conn` closes a socket and leaves
its timer behind. `inv_step` is the step lemma for every other step.

* `inv_reachable` — `Inv` holds in every reachable state of a server whose
  workers never take the `close_conn` branch.
* `Inv.accounted` — what `Inv` says about the links and counters themselves.
* `closeConn_not_accounted` — the first `close_conn` of a worker ends it.
-/

namespace TinyHTTP.Server

open TinyHTTP.Lib TinyHTTP.Timer TinyHTTP.Http SortTimerLst

variable {C I : Type}

/-- Connection accounting, in the server's own terms. -/
structure Accounted (s : State C) : Prop where
  count : s.userCount = s.openFds.card
  timers : ∃ xs, IsChain s.timerLst xs ∧ xs.Nodup ∧
    (∀ fd ∈ s.openFds, ∃ a ∈ xs, (s.usersTimer fd).timer = some a ∧
      (s.timerLst.node a).userData = fd ∧ ∀ b ∈ xs, (s.timerLst.node b).userData = fd → b = a) ∧
    ∀ a ∈ xs, (s.timerLst.node a).userData ∈ s.openFds
  noBadClose : s.badClose = false

/-- The pending timers are those of the open sockets, and the counter counts these. -/
structure Owned (s : State C) (p : Pending Fd) : Prop where
  count : s.userCount = s.openFds.card
  ofTimer : ∀ a e fd, p a = some (e, fd) → fd ∈ s.openFds
  ofOpen : ∀ fd ∈ s.openFds, ∃ a e, p a = some (e, fd)
  noBadClose : s.badClose = false

/-- The invariant of the event loop, between two steps. -/
structure Inv (s : State C) : Prop where
  table : ∃ p, Timed s.timing p ∧ Owned s p
  /-- the sockets of the requests that workers have or will get are those of their slots -/
  open_sockfd : ∀ fd ∈ s.openFds, s.sockfd fd = some fd
  queue_sockfd : ∀ fd ∈ s.workqueue ++ s.running, s.sockfd fd = some fd
  batchNodup : (clientFds s.batch).Nodup
  /-- a socket with an event still to be handled has not been closed meanwhile -/
  batchOpen : ∀ fd ∈ clientFds s.batch, fd ∈ s.openFds

-- ---------------------------------------------------------------------------
-- The table
-- ---------------------------------------------------------------------------

/-- `Owned` looks at none of the other fields. -/
theorem Owned.congr {s s' : State C} {p : Pending Fd} (h : Owned s p)
    (hcount : s'.userCount = s.userCount) (hopen : s'.openFds = s.openFds)
    (hbad : s'.badClose = s.badClose) : Owned s' p where
  count := by rw [hcount, hopen]; exact h.count
  ofTimer := by rw [hopen]; exact h.ofTimer
  ofOpen := by rw [hopen]; exact h.ofOpen
  noBadClose := by rw [hbad]; exact h.noBadClose

/-- `Owned` looks at the slots of the timers, not at when they are due. -/
theorem Owned.reschedule {s : State C} {p : Pending Fd} (h : Owned s p) {a : Addr} {e e' : Int}
    {slot : Fd} (ha : p a = some (e, slot)) :
    Owned s (Function.update p a (some (e', slot))) where
  count := h.count
  ofTimer := by
    intro b x fd hb
    rcases update_some_cases hb with ⟨-, hx⟩ | ⟨-, hb⟩
    · obtain ⟨-, rfl⟩ := Prod.mk.injEq .. ▸ hx
      exact h.ofTimer a e fd ha
    · exact h.ofTimer b x fd hb
  ofOpen := by
    intro fd hfd
    obtain ⟨b, x, hb⟩ := h.ofOpen fd hfd
    by_cases hba : b = a
    · subst hba
      rw [ha, Option.some.injEq, Prod.mk.injEq] at hb
      exact ⟨b, e', by rw [Function.update_self, hb.2]⟩
    · exact ⟨b, x, by rw [Function.update_of_ne hba]; exact hb⟩
  noBadClose := h.noBadClose

/-- The callback of a pending timer closes its socket and no other. -/
theorem owned_cbFunc {s : State C} {p : Pending Fd} (hslot : SlotsName s.usersTimer p)
    (h : Owned s p) {a : Addr} {e : Int} {fd : Fd} (ha : p a = some (e, fd)) :
    s.cbFunc fd =
        { s with openFds := s.openFds.erase fd, armed := Function.update s.armed fd none,
                 userCount := s.userCount - 1 } ∧
      Owned (s.cbFunc fd) (Function.update p a none) := by
  have hfd := h.ofTimer a e fd ha
  rw [cbFunc_of_open (by rw [hslot a e fd ha]) hfd]
  refine ⟨rfl, ?_, ?_, ?_, h.noBadClose⟩
  · have hpos : 0 < s.openFds.card := Finset.card_pos.mpr ⟨fd, hfd⟩
    show s.userCount - 1 = ((s.openFds.erase fd).card : Int)
    rw [Finset.card_erase_of_mem hfd, h.count]
    omega
  · intro b e' fd' hb
    have hba : b ≠ a := by
      rintro rfl
      simp at hb
    rw [Function.update_of_ne hba] at hb
    refine Finset.mem_erase.mpr ⟨?_, h.ofTimer b e' fd' hb⟩
    rintro rfl
    exact hba (hslot.unique hb ha)
  · intro fd' hfd'
    obtain ⟨hne, hopen⟩ := Finset.mem_erase.mp hfd'
    obtain ⟨b, e', hb⟩ := h.ofOpen fd' hopen
    refine ⟨b, e', ?_⟩
    rw [Function.update_of_ne ?_]
    · exact hb
    · rintro rfl
      rw [ha, Option.some.injEq, Prod.mk.injEq] at hb
      exact hne hb.2.symm

/-- The callbacks of a tick, one after another: each closes the socket of its timer. -/
theorem owned_calls {s : State C} {p : Pending Fd} {calls : List (Addr × Fd)}
    (hslot : SlotsName s.usersTimer p) (h : Owned s p) (hnd : (calls.map Prod.fst).Nodup)
    (hp : ∀ a fd, (a, fd) ∈ calls → ∃ e, p a = some (e, fd)) :
    Owned (calls.foldl (fun s call => s.cbFunc call.2) s)
      (Pending.without p (calls.map Prod.fst)) := by
  induction calls generalizing s p with
  | nil => exact h
  | cons call calls ih =>
    obtain ⟨a, fd⟩ := call
    obtain ⟨e, ha⟩ := hp a fd (by simp)
    rw [List.map_cons, List.nodup_cons] at hnd
    have hwithout : Pending.without p (((a, fd) :: calls).map Prod.fst) =
        Pending.without (Function.update p a none) (calls.map Prod.fst) := by
      funext b
      by_cases hb : b = a
      · subst hb
        simp [Pending.without]
      · simp only [Pending.without, List.map_cons, List.mem_cons, hb, false_or,
          Function.update_of_ne hb]
    rw [hwithout]
    refine ih ?_ (owned_cbFunc hslot h ha).2 hnd.2 ?_
    · intro b e' fd' hb
      have hut : (s.cbFunc fd).usersTimer = s.usersTimer :=
        congrArg Timing.usersTimer (cbFunc_timing s fd)
      rw [hut]
      exact hslot b e' fd' (update_none_sub hb)
    · intro b fd' hb
      obtain ⟨e', he'⟩ := hp b fd' (List.mem_cons_of_mem _ hb)
      have hba : b ≠ a := by
        rintro rfl
        exact hnd.1 (List.mem_map.mpr ⟨_, hb, rfl⟩)
      exact ⟨e', by rw [Function.update_of_ne hba]; exact he'⟩

-- ---------------------------------------------------------------------------
-- The branches
-- ---------------------------------------------------------------------------

/-- Sockets are closed at most, and none that has an event still to be handled. -/
theorem Inv.shrink {s s' : State C} (h : Inv s) (htable : ∃ p, Timed s'.timing p ∧ Owned s' p)
    (hreq : Requests s s') (hopen : s'.openFds ⊆ s.openFds)
    (hbatch : ∀ fd ∈ clientFds s.batch, fd ∈ s'.openFds) : Inv s' where
  table := htable
  open_sockfd := by
    intro fd hfd
    rw [hreq.sockfd]
    exact h.open_sockfd fd (hopen hfd)
  queue_sockfd := by
    rw [hreq.sockfd, hreq.workqueue, hreq.running]
    exact h.queue_sockfd
  batchNodup := by
    rw [hreq.batch]
    exact h.batchNodup
  batchOpen := by
    rw [hreq.batch]
    exact hbatch

/-- A branch needs the socket it handles to be open, and to have no further event. -/
theorem dropClient_inv {s s' : State C} {fd : Fd} (h : Inv s) (hfd : fd ∈ s.openFds)
    (hbatch : fd ∉ clientFds s.batch) (hs : s.dropClient fd = some s') : Inv s' := by
  obtain ⟨p, htimed, howned⟩ := h.table
  have hslot : SlotsName s.usersTimer p := htimed.slot
  obtain ⟨b, e, hb⟩ := howned.ofOpen fd hfd
  obtain ⟨a, lst, hut, hlive, hlst, rfl⟩ := dropClient_eq hs
  obtain rfl : b = a := by
    rw [hslot b e fd hb, Option.some.injEq] at hut
    exact hut
  obtain ⟨hcb, howned'⟩ := owned_cbFunc hslot howned hb
  rw [hcb] at hlst howned' ⊢
  refine h.shrink ⟨_, htimed.drop hlive hlst, howned'.congr rfl rfl rfl⟩ ⟨rfl, rfl, rfl, rfl⟩
    (Finset.erase_subset ..) ?_
  intro fd' hfd'
  exact Finset.mem_erase.mpr ⟨fun e => hbatch (e ▸ hfd'), h.batchOpen fd' hfd'⟩

theorem adjustTimer_inv {s s' : State C} {fd : Fd} (h : Inv s)
    (hs : s.adjustTimer fd = some s') : Inv s' := by
  obtain ⟨p, htimed, howned⟩ := h.table
  obtain ⟨lst, rfl, ⟨hut, rfl⟩ | ⟨a, hut, hlive, hlst⟩⟩ := adjustTimer_eq hs
  · exact h.shrink ⟨p, htimed.touch hut, howned.congr rfl rfl rfl⟩ ⟨rfl, rfl, rfl, rfl⟩
      (Finset.Subset.refl _) h.batchOpen
  · obtain ⟨e, slot, ha, htimed'⟩ := htimed.adjust hut hlive hlst
    exact h.shrink ⟨_, htimed', (howned.reschedule ha).congr rfl rfl rfl⟩ ⟨rfl, rfl, rfl, rfl⟩
      (Finset.Subset.refl _) h.batchOpen

theorem accept_inv {ops : ConnOps C I} {s s' : State C} {connfd : Fd} {timer : Addr} (h : Inv s)
    (hs : s.accept ops connfd timer = some s') : Inv s' := by
  obtain ⟨p, htimed, howned⟩ := h.table
  have hfree : connfd ∉ s.openFds → ∀ a e, p a ≠ some (e, connfd) :=
    fun hnew a e ha => hnew (howned.ofTimer a e connfd ha)
  rcases accept_eq hs with rfl | ⟨lst, hnew, htimer, hlst, rfl⟩
  · exact h
  obtain ⟨hfresh, htimed'⟩ := htimed.accept (hfree hnew) htimer hlst
  -- what has been accepted has its own number, and the others keep theirs
  have hsockfd : ∀ fd, (fd ≠ connfd → s.sockfd fd = some fd) →
      Function.update s.sockfd connfd (some connfd) fd = some fd := by
    intro fd hfd
    by_cases hne : fd = connfd
    · subst hne
      exact Function.update_self ..
    · rw [Function.update_of_ne hne]
      exact hfd hne
  refine ⟨⟨_, htimed', ?_, ?_, ?_, howned.noBadClose⟩, ?_, ?_, h.batchNodup, ?_⟩
  · show s.userCount + 1 = ((insert connfd s.openFds).card : Int)
    rw [Finset.card_insert_of_notMem hnew, howned.count]
    omega
  · intro b e' fd' hb
    rcases update_some_cases hb with ⟨-, hx⟩ | ⟨-, hb⟩
    · obtain ⟨-, rfl⟩ := Prod.mk.inj hx
      exact Finset.mem_insert_self ..
    · exact Finset.mem_insert_of_mem (howned.ofTimer b e' fd' hb)
  · intro fd' hfd'
    rcases Finset.mem_insert.mp hfd' with rfl | hfd'
    · exact ⟨timer, _, by rw [Function.update_self]⟩
    · obtain ⟨b, e', hb⟩ := howned.ofOpen fd' hfd'
      refine ⟨b, e', ?_⟩
      rw [Function.update_of_ne ?_]
      · exact hb
      · rintro rfl
        rw [hfresh] at hb
        cases hb
  · intro fd hfd
    exact hsockfd fd fun hne => h.open_sockfd fd (Finset.mem_of_mem_insert_of_ne hfd hne)
  · intro fd hfd
    exact hsockfd fd fun _ => h.queue_sockfd fd hfd
  · intro fd' hfd'
    exact Finset.mem_insert_of_mem (h.batchOpen fd' hfd')

theorem timerHandler_inv {s s' : State C} {calls : List (Addr × Fd)} (h : Inv s)
    (hbatch : s.batch = []) (hs : s.timerHandler = some (calls, s')) : Inv s' := by
  obtain ⟨p, htimed, howned⟩ := h.table
  obtain ⟨lst, htick, rfl⟩ := timerHandler_eq hs
  obtain ⟨hcalls, htimed'⟩ := htimed.tick htick
  have hp : ∀ a fd, (a, fd) ∈ calls → ∃ e, p a = some (e, fd) := by
    intro a fd hm
    obtain ⟨e, he, -⟩ := (hcalls.2.1 a fd).mp hm
    exact ⟨e, he⟩
  have howned₀ : Owned { s with timerLst := lst, timeout := false } p := howned.congr rfl rfl rfl
  have hslot : SlotsName s.usersTimer p := htimed.slot
  have howned' := owned_calls (s := { s with timerLst := lst, timeout := false }) hslot howned₀
    hcalls.1 hp
  obtain ⟨h₁, h₂, h₃, h₄⟩ :=
    foldl_cbFunc_requests { s with timerLst := lst, timeout := false } calls
  refine h.shrink ⟨_, ?_, howned'⟩ ⟨h₁, h₂, h₃, h₄⟩ ?_ ?_
  · rw [foldl_cbFunc_timing]
    exact htimed'
  · exact foldl_cbFunc_openFds { s with timerLst := lst, timeout := false } calls
  · rw [hbatch]
    intro fd hfd
    cases hfd

/-- An update of what is armed alone. -/
theorem armed_inv {s : State C} (h : Inv s) (armed : Fd → Option Interest) :
    Inv { s with armed := armed } := by
  obtain ⟨p, htimed, howned⟩ := h.table
  exact h.shrink ⟨p, htimed, howned.congr rfl rfl rfl⟩ ⟨rfl, rfl, rfl, rfl⟩
    (Finset.Subset.refl _) h.batchOpen

theorem modfd_inv {s : State C} (h : Inv s) (fd : Option Fd) (ev : Interest) :
    Inv (s.modfd fd ev) := by
  obtain ⟨armed, heq⟩ := modfd_eq s fd ev
  rw [heq]
  exact armed_inv h armed

theorem append_inv {s : State C} {fd : Fd} (h : Inv s) (hfd : fd ∈ s.openFds) :
    Inv (s.append fd) := by
  obtain ⟨p, htimed, howned⟩ := h.table
  unfold State.append
  split
  · exact h
  · refine ⟨⟨p, htimed, howned.congr rfl rfl rfl⟩, h.open_sockfd, ?_, h.batchNodup, h.batchOpen⟩
    intro fd' hfd'
    simp only [List.mem_append, List.mem_singleton] at hfd'
    rcases hfd' with (hfd' | rfl) | hfd'
    · exact h.queue_sockfd fd' (List.mem_append_left _ hfd')
    · exact h.open_sockfd fd' hfd
    · exact h.queue_sockfd fd' (List.mem_append_right _ hfd')

/-- An update of the connection object alone. -/
theorem users_inv {s : State C} (h : Inv s) (users : Fd → C) : Inv { s with users := users } := by
  obtain ⟨p, htimed, howned⟩ := h.table
  exact h.shrink ⟨p, htimed, howned.congr rfl rfl rfl⟩ ⟨rfl, rfl, rfl, rfl⟩
    (Finset.Subset.refl _) h.batchOpen

/-- A worker is done with its request. -/
theorem leave_inv {s : State C} (h : Inv s) (i : Nat) :
    Inv { s with running := s.running.eraseIdx i } := by
  obtain ⟨p, htimed, howned⟩ := h.table
  refine ⟨⟨p, htimed, howned.congr rfl rfl rfl⟩, h.open_sockfd, ?_, h.batchNodup, h.batchOpen⟩
  intro fd hfd
  refine h.queue_sockfd fd ?_
  rcases List.mem_append.mp hfd with hfd | hfd
  · exact List.mem_append_left _ hfd
  · exact List.mem_append_right _ (List.mem_of_mem_eraseIdx hfd)

theorem client_inv {ops : ConnOps C I} {s s' : State C} {fd : Fd} {mask : EventMask} {input : I}
    (h : Inv s) (hfd : fd ∈ s.openFds) (hbatch : fd ∉ clientFds s.batch)
    (hs : ClientStep ops s fd mask input s') : Inv s' := by
  cases hs with
  | drop users armed harmed hs =>
    exact dropClient_inv (armed_inv (users_inv h users) armed) hfd hbatch hs
  | read conn hmask hread hs =>
    have h₁ := users_inv h (Function.update s.users fd conn)
    exact adjustTimer_inv (append_inv h₁ hfd) hs
  | write conn ev hwrite hs =>
    have h₁ := users_inv h (Function.update s.users fd conn)
    cases ev with
    | none => exact adjustTimer_inv h₁ hs
    | some ev => exact adjustTimer_inv (modfd_inv h₁ _ ev) hs
  | nothing hmask => exact h

theorem signals_inv {s : State C} (h : Inv s) (signals : List Signal) :
    Inv (signals.foldl State.signal s) := by
  induction signals generalizing s with
  | nil => exact h
  | cons sig signals ih =>
    refine ih ?_
    obtain ⟨p, htimed, howned⟩ := h.table
    cases sig with
    | sigalrm | sigterm =>
      exact h.shrink ⟨p, htimed, howned.congr rfl rfl rfl⟩ ⟨rfl, rfl, rfl, rfl⟩
        (Finset.Subset.refl _) h.batchOpen
    | other => exact h

/-- One event of the batch. -/
theorem handle_inv {ops : ConnOps C I} {s s' : State C} {ev : Event} {rest : List Event}
    {env : Env I} (h : Inv s) (hbatch : s.batch = ev :: rest)
    (hs : State.handleEvent ops { s with batch := rest } ev env = some s') : Inv s' := by
  obtain ⟨⟨p, htimed, howned⟩, hsock, hqueue, hnd, hopen⟩ := h
  rw [hbatch] at hnd hopen
  -- the rest of the batch is fine, and the socket at hand is open and not in it
  have hrest : Inv { s with batch := rest } := by
    refine ⟨⟨p, htimed, howned.congr rfl rfl rfl⟩, hsock, hqueue, ?_, ?_⟩
    · exact hnd.sublist ((List.sublist_cons_self ev rest).filterMap _)
    · intro fd hfd
      exact hopen fd (((List.sublist_cons_self ev rest).filterMap _).subset hfd)
  cases ev with
  | listen =>
    unfold State.handleEvent at hs
    cases hc : env.connfd with
    | none =>
      simp only [hc, Option.some.injEq] at hs
      exact hs ▸ hrest
    | some connfd =>
      simp only [hc] at hs
      exact accept_inv hrest hs
  | pipe signals =>
    obtain rfl := Option.some.inj hs
    exact signals_inv hrest signals
  | client fd mask =>
    have hfds : clientFds (.client fd mask :: rest) = fd :: clientFds rest := rfl
    rw [hfds, List.nodup_cons] at hnd
    have hfd : fd ∈ s.openFds := hopen fd (by rw [hfds]; exact List.mem_cons_self ..)
    exact client_inv hrest hfd hnd.1 (client_cases hs)

-- ---------------------------------------------------------------------------
-- Steps and runs
-- ---------------------------------------------------------------------------

/-- The step is not a worker whose `process()` ends in `close_conn()`. -/
def NoCloseConn (ops : ConnOps C I) (s : State C) (l : Label I) : Prop :=
  ∀ i input slot conn, l = .finishRequest i input → s.running[i]? = some slot →
    ops.process (s.users slot) input ≠ some (conn, .closeConn)

/-- **Step lemma.** -/
theorem inv_step {ops : ConnOps C I} {s s' : State C} {l : Label I} (h : Inv s)
    (hok : NoCloseConn ops s l) (hs : step ops s l = some s') : Inv s' := by
  obtain ⟨p, htimed, howned⟩ := h.table
  cases l with
  | elapse seconds =>
    obtain rfl := Option.some.inj hs
    exact h.shrink ⟨p, htimed.elapse seconds, howned.congr rfl rfl rfl⟩ ⟨rfl, rfl, rfl, rfl⟩
      (Finset.Subset.refl _) h.batchOpen
  | epollWait events =>
    simp only [step] at hs
    split at hs
    · rename_i hwait
      obtain rfl := Option.some.inj hs
      obtain ⟨-, -, -, -, hnd, hdel⟩ := hwait
      refine ⟨⟨p, htimed, howned.congr rfl rfl rfl⟩, h.open_sockfd, h.queue_sockfd, hnd, ?_⟩
      intro fd hfd
      obtain ⟨ev, hev, hfd⟩ := List.mem_filterMap.mp hfd
      have := hdel ev hev
      cases ev with
      | listen | pipe _ => cases hfd
      | client fd' mask =>
        obtain rfl : fd' = fd := Option.some.inj hfd
        exact this.1
    · cases hs
  | handle env =>
    simp only [step] at hs
    split at hs
    · cases hs
    · rename_i ev rest hbatch
      exact handle_inv h hbatch hs
  | timerHandler =>
    simp only [step] at hs
    split at hs
    · rename_i hbatch
      split at hs
      · rw [Option.map_eq_some_iff] at hs
        obtain ⟨⟨calls, t⟩, ht, rfl⟩ := hs
        exact timerHandler_inv h hbatch ht
      · cases hs
    · cases hs
  | takeRequest =>
    simp only [step] at hs
    split at hs
    · cases hs
    rename_i fd rest hqueue
    split at hs
    · obtain rfl := Option.some.inj hs
      refine ⟨⟨p, htimed, howned.congr rfl rfl rfl⟩, h.open_sockfd, ?_, h.batchNodup, h.batchOpen⟩
      intro fd' hfd'
      refine h.queue_sockfd fd' ?_
      rw [hqueue]
      simp only [List.mem_append, List.mem_cons, List.not_mem_nil, or_false] at hfd' ⊢
      tauto
    · cases hs
  | finishRequest i input =>
    simp only [step] at hs
    split at hs
    · cases hs
    rename_i slot hslot
    obtain ⟨conn, effect, hp, rfl⟩ := finish_cases hs
    have h₁ := users_inv (leave_inv h i) (Function.update s.users slot conn)
    cases effect with
    | closeConn => exact absurd hp (hok i input slot conn rfl hslot)
    | modfd ev => exact modfd_inv h₁ _ ev

theorem inv_initial {s : State C} (h : Initial s) : Inv s := by
  refine ⟨⟨_, timed_initial h, ?_, ?_, ?_, h.badClose⟩, ?_, ?_, ?_, ?_⟩
  · rw [h.userCount, h.openFds]
    rfl
  · intro a e fd hp
    cases hp
  · intro fd hfd
    rw [h.openFds] at hfd
    simp at hfd
  · intro fd hfd
    rw [h.openFds] at hfd
    simp at hfd
  · intro fd hfd
    rw [h.workqueue, h.running] at hfd
    cases hfd
  · rw [h.batch]
    exact List.nodup_nil
  · intro fd hfd
    rw [h.batch] at hfd
    cases hfd

/-- **Run lemma.** As long as no worker closes its connection, the invariant holds. -/
theorem inv_reachable {ops : ConnOps C I} {s : State C}
    (h : Reachable Initial (step ops) (NoCloseConn ops) s) : Inv s :=
  h.invariant (fun _ h => inv_initial h) fun _ _ _ h hok hs => inv_step h hok hs

/-- The invariant, read off the links of the list. -/
theorem Inv.accounted {s : State C} (h : Inv s) : Accounted s := by
  obtain ⟨p, htimed, howned⟩ := h.table
  have hslot : SlotsName s.usersTimer p := htimed.slot
  obtain ⟨xs, hchain, hnd, hmem, htable, -⟩ := sound_chain htimed.sound
  refine ⟨howned.count, ⟨xs, hchain, hnd, ?_, ?_⟩, howned.noBadClose⟩
  · intro fd hfd
    obtain ⟨a, e, ha⟩ := howned.ofOpen fd hfd
    have hax : a ∈ xs := (hmem a).mpr ⟨e, fd, ha⟩
    refine ⟨a, hax, by rw [hslot a e fd ha], ?_, ?_⟩
    · have := htable a hax
      rw [ha, Option.some.injEq, Prod.mk.injEq] at this
      exact this.2.symm
    · intro b hb hbfd
      have := htable b hb
      rw [show (s.timing.timerLst.node b).userData = fd from hbfd] at this
      exact hslot.unique this ha
  · intro a ha
    exact howned.ofTimer a _ _ (htable a ha)

/-- A worker's `close_conn` leaves the timer of a socket that is closed, or closes a number that
is not open. -/
theorem closeConn_not_accounted {s : State C} (h : Inv s) {slot : Fd}
    (hsock : s.sockfd slot = some slot) : ¬ Accounted (s.closeConn slot) := by
  intro hacc
  obtain ⟨p, htimed, howned⟩ := h.table
  by_cases hopen : slot ∈ s.openFds
  · obtain ⟨a, e, ha⟩ := howned.ofOpen slot hopen
    obtain ⟨xs, hchain, -, hmem, htable, -⟩ := sound_chain htimed.sound
    obtain ⟨ys, hchain', -, -, hys⟩ := hacc.timers
    have hlst : (s.closeConn slot).timerLst = s.timerLst :=
      congrArg Timing.timerLst (closeConn_timing s slot)
    rw [hlst] at hchain' hys
    obtain rfl : xs = ys := IsChain.unique hchain hchain'
    have hax : a ∈ xs := (hmem a).mpr ⟨e, slot, ha⟩
    have hdata : (s.timerLst.node a).userData = slot := by
      have := htable a hax
      rw [ha, Option.some.injEq, Prod.mk.injEq] at this
      exact this.2.symm
    have hstill := hys a hax
    rw [hdata] at hstill
    simp [State.closeConn, State.closeFd, hsock, hopen] at hstill
  · have hbad := hacc.noBadClose
    simp [State.closeConn, State.closeFd, hsock, hopen] at hbad

end TinyHTTP.Server
