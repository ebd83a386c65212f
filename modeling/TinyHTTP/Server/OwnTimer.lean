import TinyHTTP.Server.Descriptors

/-!
# TinyHTTP — a timer for every socket

The timers of a server whose workers close connections do not stay with their
connections: a closed socket's timer is left in the list, and its number may be
accepted again. What does stay is the other direction. A socket that is open, or that
still has an event in the batch, has a pending timer of its own in its slot, and the
timer is due at most `3 * TIMESLOT` after the last traffic on the socket.

`Tended` says so, with the sockets of the events to be handled as a parameter: the one
at hand leaves that list when its branch has run.

* `tended_step` — every step of the server keeps it, whatever the workers close.
* `Tended.tick` — a tick leaves open what has had traffic since.
-/

namespace TinyHTTP.Server

open TinyHTTP.Lib TinyHTTP.Timer TinyHTTP.Http SortTimerLst

variable {C I : Type}

/-- The slot of the socket names a pending timer for it, due in time. -/
def OwnTimer (t : Timing) (p : Pending Fd) (fd : Fd) : Prop :=
  ∃ a e, t.usersTimer fd = ⟨fd, some a⟩ ∧ p a = some (e, fd) ∧ e ≤ t.lastActive fd + 3 * timeslot

/-- The sockets that are open or in `fds` have their timers, and the open ones had none that was
due at the time `since`. -/
structure Tended (t : Timing) (openFds : Finset Fd) (fds : List Fd) (since : Int) : Prop where
  table : ∃ p, Scheduled t p ∧ ∀ fd, fd ∈ openFds ∨ fd ∈ fds → OwnTimer t p fd
  recent : ∀ fd ∈ openFds, since < t.lastActive fd + 3 * timeslot
  passed : since ≤ t.clock

/-- Two sockets have two timers. -/
theorem OwnTimer.addr_ne {t : Timing} {p : Pending Fd} {a : Addr} {e : Int} {slot fd : Fd}
    (ha : p a = some (e, slot)) (hne : fd ≠ slot) (h : OwnTimer t p fd) :
    ∃ b e', b ≠ a ∧ t.usersTimer fd = ⟨fd, some b⟩ ∧ p b = some (e', fd) ∧
      e' ≤ t.lastActive fd + 3 * timeslot := by
  obtain ⟨b, e', hut, hb, hle⟩ := h
  refine ⟨b, e', ?_, hut, hb, hle⟩
  rintro rfl
  rw [ha, Option.some.injEq, Prod.mk.injEq] at hb
  exact hne hb.2.symm

/-- The timer that the slot of a socket names is the socket's own. -/
theorem OwnTimer.entry {t : Timing} {p : Pending Fd} {a : Addr} {fd : Fd}
    (h : OwnTimer t p fd) (hut : (t.usersTimer fd).timer = some a) :
    ∃ e, p a = some (e, fd) ∧ e ≤ t.lastActive fd + 3 * timeslot := by
  obtain ⟨b, e, hut', hb, hle⟩ := h
  rw [hut', Option.some.injEq] at hut
  exact ⟨e, hut ▸ hb, hle⟩

/-! ## Steps of the timers -/

variable {t : Timing} {openFds : Finset Fd} {fds : List Fd} {since : Int}

/-- Sockets are closed. -/
theorem Tended.mono {openFds' : Finset Fd} {fds' : List Fd} (h : Tended t openFds fds since)
    (hopen : openFds' ⊆ openFds) (hfds : ∀ fd ∈ fds', fd ∈ openFds ∨ fd ∈ fds) :
    Tended t openFds' fds' since := by
  obtain ⟨⟨p, hsched, hown⟩, hrecent, hpassed⟩ := h
  refine ⟨⟨p, hsched, ?_⟩, fun fd hfd => hrecent fd (hopen hfd), hpassed⟩
  intro fd hfd
  exact hown fd (hfd.elim (fun hm => .inl (hopen hm)) (hfds fd))

theorem Tended.elapse (h : Tended t openFds fds since) (seconds : Nat) :
    Tended { t with clock := t.clock + seconds } openFds fds since := by
  obtain ⟨⟨p, hsched, hown⟩, hrecent, hpassed⟩ := h
  refine ⟨⟨p, ⟨hsched.sound, ?_, hsched.number⟩, hown⟩, hrecent, ?_⟩
  · intro a e fd ha
    have hdue := hsched.due_le a e fd ha
    show e ≤ t.clock + seconds + 3 * timeslot
    omega
  · show since ≤ t.clock + seconds
    omega

/-- The socket at hand loses its timer, and is closed. -/
theorem Tended.drop {fd : Fd} {a : Addr} {lst : SortTimerLst Fd}
    (h : Tended t openFds (fd :: fds) since) (hfd : fd ∉ fds)
    (hut : (t.usersTimer fd).timer = some a) (hlive : a ∈ t.timerLst.live)
    (hlst : t.timerLst.delTimer (some a) = some lst) :
    Tended { t with timerLst := lst } (openFds.erase fd) fds since := by
  obtain ⟨⟨p, hsched, hown⟩, hrecent, hpassed⟩ := h
  obtain ⟨e, ha, -⟩ := (hown fd (.inr (List.mem_cons_self ..))).entry hut
  refine ⟨⟨_, (hsched.drop hlive hlst).2, ?_⟩,
    fun fd' hfd' => hrecent fd' (Finset.mem_of_mem_erase hfd'), hpassed⟩
  intro fd' hfd'
  have hne : fd' ≠ fd := by
    rcases hfd' with hm | hm
    · exact Finset.ne_of_mem_erase hm
    · exact fun heq => hfd (heq ▸ hm)
  have hmem : fd' ∈ openFds ∨ fd' ∈ fd :: fds :=
    hfd'.imp Finset.mem_of_mem_erase (List.mem_cons_of_mem _)
  obtain ⟨b, e', hb, hut', hpb, hle⟩ := OwnTimer.addr_ne ha hne (hown fd' hmem)
  exact ⟨b, e', hut', by rw [Function.update_of_ne hb, hpb], hle⟩

/-- Traffic on the socket at hand puts its timer off. -/
theorem Tended.adjust {fd : Fd} {a : Addr} {lst : SortTimerLst Fd}
    (h : Tended t openFds (fd :: fds) since) (hut : (t.usersTimer fd).timer = some a)
    (hlive : a ∈ t.timerLst.live)
    (hlst : (t.timerLst.setExpire a (t.clock + 3 * timeslot)).bind
      (fun l => l.adjustTimer (some a)) = some lst) :
    Tended { t with lastActive := Function.update t.lastActive fd t.clock, timerLst := lst }
      openFds fds since := by
  obtain ⟨⟨p, hsched, hown⟩, hrecent, hpassed⟩ := h
  obtain ⟨e, ha, -⟩ := (hown fd (.inr (List.mem_cons_self ..))).entry hut
  obtain ⟨e', slot, ha', hsched'⟩ := hsched.adjust hlive hlst
  obtain ⟨-, rfl⟩ : e = e' ∧ fd = slot := by
    rw [ha, Option.some.injEq, Prod.mk.injEq] at ha'
    exact ha'
  refine ⟨⟨_, ⟨hsched'.sound, hsched'.due_le, hsched'.number⟩, ?_⟩, ?_, hpassed⟩
  · intro fd' hfd'
    by_cases hne : fd' = fd
    · subst hne
      obtain ⟨b, e₀, hut', -, -⟩ := hown fd' (.inr (List.mem_cons_self ..))
      obtain rfl : b = a := by
        rw [hut', Option.some.injEq] at hut
        exact hut
      refine ⟨b, _, hut', Function.update_self .., ?_⟩
      show t.clock + 3 * timeslot ≤ Function.update t.lastActive fd' t.clock fd' + 3 * timeslot
      rw [Function.update_self]
    · have hmem : fd' ∈ openFds ∨ fd' ∈ fd :: fds := hfd'.imp_right (List.mem_cons_of_mem _)
      obtain ⟨b, e₀, hb, hut', hpb, hle⟩ := OwnTimer.addr_ne ha hne (hown fd' hmem)
      refine ⟨b, e₀, hut', by rw [Function.update_of_ne hb, hpb], ?_⟩
      show e₀ ≤ Function.update t.lastActive fd t.clock fd' + 3 * timeslot
      rw [Function.update_of_ne hne]
      exact hle
  · intro fd' hfd'
    show since < Function.update t.lastActive fd t.clock fd' + 3 * timeslot
    by_cases hne : fd' = fd
    · rw [hne, Function.update_self]
      simp only [timeslot]
      omega
    · rw [Function.update_of_ne hne]
      exact hrecent fd' hfd'

/-- An accepted socket has its timer, even where an older timer names the number. -/
theorem Tended.accept {timer : Addr} {connfd : Fd} {lst : SortTimerLst Fd}
    (h : Tended t openFds fds since) (hnew : timer ∉ t.timerLst.live)
    (hlst : (t.timerLst.alloc timer (t.clock + 3 * timeslot) connfd).addTimer (some timer) =
      some lst) :
    Tended
      { timerLst := lst
        usersTimer := Function.update t.usersTimer connfd ⟨connfd, some timer⟩
        clock := t.clock
        acceptedAt := Function.update t.acceptedAt connfd t.clock
        lastActive := Function.update t.lastActive connfd t.clock }
      (insert connfd openFds) fds since := by
  obtain ⟨⟨p, hsched, hown⟩, hrecent, hpassed⟩ := h
  obtain ⟨hfresh, hsched'⟩ := hsched.accept hnew hlst
  refine ⟨⟨_, hsched', ?_⟩, ?_, hpassed⟩
  · intro fd hfd
    by_cases hne : fd = connfd
    · subst hne
      refine ⟨timer, _, Function.update_self .., Function.update_self .., ?_⟩
      show t.clock + 3 * timeslot ≤ Function.update t.lastActive fd t.clock fd + 3 * timeslot
      rw [Function.update_self]
    · have hmem : fd ∈ openFds ∨ fd ∈ fds :=
        hfd.imp_left fun hm => Finset.mem_of_mem_insert_of_ne hm hne
      obtain ⟨b, e, hut, hb, hle⟩ := hown fd hmem
      have hbt : b ≠ timer := by
        rintro rfl
        rw [hfresh] at hb
        cases hb
      refine ⟨b, e, ?_, ?_, ?_⟩
      · show Function.update t.usersTimer connfd ⟨connfd, some timer⟩ fd = _
        rw [Function.update_of_ne hne, hut]
      · rw [Function.update_of_ne hbt, hb]
      · show e ≤ Function.update t.lastActive connfd t.clock fd + 3 * timeslot
        rw [Function.update_of_ne hne]
        exact hle
  · intro fd hfd
    show since < Function.update t.lastActive connfd t.clock fd + 3 * timeslot
    by_cases hne : fd = connfd
    · rw [hne, Function.update_self]
      simp only [timeslot]
      omega
    · rw [Function.update_of_ne hne]
      exact hrecent fd (Finset.mem_of_mem_insert_of_ne hfd hne)

/-- What a tick leaves open has had traffic in the last `3 * TIMESLOT`. -/
theorem Tended.tick {openFds' : Finset Fd} {calls : List (Addr × Fd)} {lst : SortTimerLst Fd}
    (h : Tended t openFds [] since) (hlst : t.timerLst.tick t.clock = some (calls, lst))
    (hopen : ∀ fd ∈ openFds', fd ∈ openFds ∧ ∀ a, (a, fd) ∉ calls) :
    Tended { t with timerLst := lst } openFds' [] t.clock := by
  obtain ⟨⟨p, hsched, hown⟩, hrecent, hpassed⟩ := h
  obtain ⟨⟨-, hcalled, -⟩, hsched'⟩ := hsched.tick hlst
  -- the timer of a socket that stays open is not due
  have hkept : ∀ fd ∈ openFds', ∃ a e, t.usersTimer fd = ⟨fd, some a⟩ ∧ p a = some (e, fd) ∧
      t.clock < e ∧ e ≤ t.lastActive fd + 3 * timeslot := by
    intro fd hfd
    obtain ⟨hfd, hnot⟩ := hopen fd hfd
    obtain ⟨a, e, hut, ha, hle⟩ := hown fd (.inl hfd)
    refine ⟨a, e, hut, ha, ?_, hle⟩
    by_contra hdue
    exact hnot a ((hcalled a fd).mpr ⟨e, ha, not_lt.mp hdue⟩)
  refine ⟨⟨_, hsched', ?_⟩, ?_, le_refl _⟩
  · intro fd hfd
    obtain ⟨a, e, hut, ha, hdue, hle⟩ := hkept fd (hfd.resolve_right (List.not_mem_nil))
    refine ⟨a, e, hut, ?_, hle⟩
    have hnot : a ∉ calls.map Prod.fst := by
      intro hm
      obtain ⟨⟨a', d⟩, hc, rfl⟩ := List.mem_map.mp hm
      obtain ⟨e', ha', hle'⟩ := (hcalled a' d).mp hc
      rw [ha, Option.some.injEq, Prod.mk.injEq] at ha'
      omega
    rw [Pending.without, if_neg hnot, ha]
  · intro fd hfd
    obtain ⟨a, e, -, -, hdue, hle⟩ := hkept fd hfd
    show t.clock < t.lastActive fd + 3 * timeslot
    omega

-- ---------------------------------------------------------------------------
-- Steps of the server
-- ---------------------------------------------------------------------------

theorem closeFd_erase (s : State C) (fd : Fd) : (s.closeFd fd).openFds = s.openFds.erase fd := by
  unfold State.closeFd
  split
  · rfl
  · rename_i hfd
    exact (Finset.erase_eq_of_notMem hfd).symm

/-- The callbacks close what they are called for. -/
theorem foldl_cbFunc_closes (s : State C) (calls : List (Addr × Fd))
    (hnum : ∀ call ∈ calls, (s.usersTimer call.2).sockfd = call.2) {fd : Fd}
    (hfd : fd ∈ (calls.foldl (fun s call => s.cbFunc call.2) s).openFds) :
    fd ∈ s.openFds ∧ ∀ a, (a, fd) ∉ calls := by
  induction calls generalizing s with
  | nil => exact ⟨hfd, fun _ => List.not_mem_nil⟩
  | cons call calls ih =>
    have hut : (s.cbFunc call.2).usersTimer = s.usersTimer :=
      congrArg Timing.usersTimer (cbFunc_timing s call.2)
    obtain ⟨hopen, hnot⟩ := ih (s.cbFunc call.2)
      (fun c hc => by rw [hut]; exact hnum c (List.mem_cons_of_mem _ hc)) hfd
    have hslot := hnum call (List.mem_cons_self ..)
    have hclosed : (s.cbFunc call.2).openFds = s.openFds.erase call.2 := by
      simp only [State.cbFunc, hslot, closeFd_erase]
    rw [hclosed] at hopen
    refine ⟨Finset.mem_of_mem_erase hopen, ?_⟩
    intro a hm
    rcases List.mem_cons.mp hm with heq | hm
    · exact Finset.ne_of_mem_erase hopen (by rw [← heq])
    · exact hnot a hm

/-- The event loop with the events of `fds` still to be handled. -/
structure State.Tending (s : State C) (fds : List Fd) (since : Int) : Prop where
  nodup : fds.Nodup
  tended : Tended s.timing s.openFds fds since

variable {s s' : State C} {fds : List Fd} {since : Int}

theorem tending_drop {fd : Fd} (h : s.Tending (fd :: fds) since) (hs : s.dropClient fd = some s') :
    s'.Tending fds since := by
  obtain ⟨hnd, htended⟩ := h
  rw [List.nodup_cons] at hnd
  obtain ⟨a, lst, hut, hlive, hlst, rfl⟩ := dropClient_eq hs
  have hkeep := cbFunc_timing s fd
  have hlist : (s.cbFunc fd).timerLst = s.timerLst := congrArg Timing.timerLst hkeep
  rw [hlist] at hlst
  have h' := htended.drop hnd.1 hut hlive hlst
  have hslot : (s.usersTimer fd).sockfd = fd := by
    obtain ⟨⟨p, -, hown⟩, -, -⟩ := htended
    obtain ⟨b, e, hut', -, -⟩ := hown fd (.inr (List.mem_cons_self ..))
    have hut' : s.usersTimer fd = ⟨fd, some b⟩ := hut'
    rw [hut']
  have hclosed : (s.cbFunc fd).openFds = s.openFds.erase fd := by
    simp only [State.cbFunc, hslot, closeFd_erase]
  refine ⟨hnd.2, ?_⟩
  rw [← hclosed, ← hkeep] at h'
  exact h'

theorem tending_adjust {fd : Fd} (h : s.Tending (fd :: fds) since)
    (hs : s.adjustTimer fd = some s') : s'.Tending fds since := by
  obtain ⟨hnd, htended⟩ := h
  refine ⟨(List.nodup_cons.mp hnd).2, ?_⟩
  obtain ⟨lst, rfl, ⟨hut, -⟩ | ⟨a, hut, hlive, hlst⟩⟩ := adjustTimer_eq hs
  · -- the slot does name a timer
    obtain ⟨⟨p, -, hown⟩, -, -⟩ := htended
    obtain ⟨b, e, hut', -, -⟩ := hown fd (.inr (List.mem_cons_self ..))
    have hut' : s.usersTimer fd = ⟨fd, some b⟩ := hut'
    rw [hut'] at hut
    cases hut
  · exact htended.adjust hut hlive hlst

/-- The invariant looks at the timers and at the open sockets. -/
theorem State.Tending.congr (h : s.Tending fds since) (htiming : s'.timing = s.timing)
    (hopen : s'.openFds = s.openFds) : s'.Tending fds since :=
  ⟨h.nodup, by rw [htiming, hopen]; exact h.tended⟩

theorem append_openFds (s : State C) (fd : Fd) : (s.append fd).openFds = s.openFds := by
  unfold State.append
  split <;> rfl

theorem tending_client {ops : ConnOps C I} {fd : Fd} {mask : EventMask} {input : I}
    (h : s.Tending (fd :: fds) since) (hs : ClientStep ops s fd mask input s') :
    s'.Tending fds since := by
  cases hs with
  | drop users armed harmed hs =>
    exact tending_drop (s := { s with users := users, armed := armed }) (h.congr rfl rfl) hs
  | read conn hmask hread hs =>
    refine tending_adjust (h.congr ?_ ?_) hs
    · exact append_timing _ fd
    · exact append_openFds _ fd
  | write conn ev hwrite hs =>
    cases ev with
    | none =>
      refine tending_adjust (h.congr ?_ ?_) hs
      · rfl
      · rfl
    | some ev =>
      refine tending_adjust (h.congr ?_ ?_) hs
      · exact modfd_timing _ _ ev
      · exact modfd_openFds _ _ ev
  | nothing hmask =>
    exact ⟨(List.nodup_cons.mp h.nodup).2,
      h.tended.mono (Finset.Subset.refl _) fun fd' hfd' => .inr (List.mem_cons_of_mem _ hfd')⟩

theorem tending_handle {ops : ConnOps C I} {ev : Event} {env : Env I}
    (h : s.Tending (clientFds (ev :: s.batch)) since)
    (hs : s.handleEvent ops ev env = some s') : s'.Tending (clientFds s.batch) since := by
  cases ev with
  | listen =>
    unfold State.handleEvent at hs
    cases hc : env.connfd with
    | none =>
      simp only [hc, Option.some.injEq] at hs
      exact hs ▸ h
    | some connfd =>
      simp only [hc] at hs
      rcases accept_eq hs with rfl | ⟨lst, -, hnew, hlst, rfl⟩
      · exact h
      · exact ⟨h.nodup, h.tended.accept hnew hlst⟩
  | pipe signals =>
    obtain rfl := Option.some.inj hs
    refine State.Tending.congr (s := s) h (foldl_signal_timing s signals) ?_
    obtain ⟨timeout, stopServer, heq⟩ := foldl_signal_eq s signals
    rw [heq]
  | client fd mask => exact tending_client h (client_cases hs)

/-- What the event loop itself goes by is the same. -/
structure SameControl (s s' : State C) : Prop where
  batch : s'.batch = s.batch
  clock : s'.clock = s.clock
  timeout : s'.timeout = s.timeout
  stopServer : s'.stopServer = s.stopServer

theorem cbFunc_control (s : State C) (slot : Fd) : SameControl s (s.cbFunc slot) := by
  unfold State.cbFunc State.closeFd
  split <;> exact ⟨rfl, rfl, rfl, rfl⟩

theorem closeConn_control (s : State C) (slot : Fd) : SameControl s (s.closeConn slot) := by
  unfold State.closeConn State.closeFd
  split
  · exact ⟨rfl, rfl, rfl, rfl⟩
  · split <;> exact ⟨rfl, rfl, rfl, rfl⟩

theorem client_control {ops : ConnOps C I} {fd : Fd} {mask : EventMask} {input : I}
    (hs : ClientStep ops s fd mask input s') : SameControl s s' := by
  cases hs with
  | drop users armed harmed hs =>
    obtain ⟨a, lst, -, -, -, rfl⟩ := dropClient_eq hs
    obtain ⟨hbatch, hclock, htimeout, hstop⟩ :=
      cbFunc_control { s with users := users, armed := armed } fd
    exact ⟨hbatch, hclock, htimeout, hstop⟩
  | read conn hmask hread hs =>
    obtain ⟨lst, rfl, -⟩ := adjustTimer_eq hs
    unfold State.append
    split <;> exact ⟨rfl, rfl, rfl, rfl⟩
  | write conn ev hwrite hs =>
    obtain ⟨lst, rfl, -⟩ := adjustTimer_eq hs
    cases ev with
    | none => exact ⟨rfl, rfl, rfl, rfl⟩
    | some ev =>
      obtain ⟨armed, heq⟩ :=
        modfd_eq { s with users := Function.update s.users fd conn } (s.sockfd fd) ev
      simp only [heq]
      exact ⟨rfl, rfl, rfl, rfl⟩
  | nothing hmask => exact ⟨rfl, rfl, rfl, rfl⟩

/-- The branches leave the rest of the batch alone, and only signals set the flags. -/
theorem handle_control {ops : ConnOps C I} {ev : Event} {env : Env I}
    (hs : s.handleEvent ops ev env = some s') :
    (ev.fd? = none → ev = .listen) ∧ SameControl s s' ∨
      ∃ signals, ev = .pipe signals ∧ s' = signals.foldl State.signal s := by
  cases ev with
  | listen =>
    unfold State.handleEvent at hs
    cases hc : env.connfd with
    | none =>
      simp only [hc, Option.some.injEq] at hs
      exact .inl ⟨fun _ => rfl, hs ▸ ⟨rfl, rfl, rfl, rfl⟩⟩
    | some connfd =>
      simp only [hc] at hs
      refine .inl ⟨fun _ => rfl, ?_⟩
      rcases accept_eq hs with rfl | ⟨lst, -, -, -, rfl⟩ <;> exact ⟨rfl, rfl, rfl, rfl⟩
  | pipe signals => exact .inr ⟨signals, rfl, (Option.some.inj hs).symm⟩
  | client fd mask => exact .inl ⟨nofun, client_control (client_cases hs)⟩

theorem handle_batch {ops : ConnOps C I} {ev : Event} {env : Env I}
    (hs : s.handleEvent ops ev env = some s') : s'.batch = s.batch := by
  rcases handle_control hs with ⟨-, h⟩ | ⟨signals, -, rfl⟩
  · exact h.batch
  · obtain ⟨timeout, stopServer, heq⟩ := foldl_signal_eq s signals
    rw [heq]

/-- The sockets that are open or have an event in the batch have their timers, and the open ones
had none that was due at the time `since`. -/
def State.AllTended (s : State C) (since : Int) : Prop := s.Tending (clientFds s.batch) since

theorem State.AllTended.mono (h : s.AllTended since) (htiming : s'.timing = s.timing)
    (hbatch : s'.batch = s.batch) (hopen : s'.openFds ⊆ s.openFds) : s'.AllTended since := by
  unfold State.AllTended
  rw [hbatch]
  refine ⟨h.nodup, ?_⟩
  rw [htiming]
  exact h.tended.mono hopen fun _ => .inr

/-- When the last tick was, after the step. -/
def State.tickedAt (s : State C) (since : Int) : Label I → Int
  | .timerHandler => s.clock
  | _ => since

theorem tended_timerHandler {calls : List (Addr × Fd)} (h : s.AllTended since)
    (hbatch : s.batch = []) (hs : s.timerHandler = some (calls, s')) : s'.AllTended s.clock := by
  obtain ⟨-, htended⟩ := h
  rw [hbatch] at htended
  obtain ⟨lst, htick, rfl⟩ := timerHandler_eq hs
  obtain ⟨p, hsched, -⟩ := htended.table
  have hnum : ∀ call ∈ calls, (s.usersTimer call.2).sockfd = call.2 := by
    intro call hc
    obtain ⟨hcalls, -⟩ := hsched.tick htick
    obtain ⟨e, hp, -⟩ := (hcalls.2.1 call.1 call.2).mp hc
    exact hsched.number call.1 e call.2 hp
  have h' := htended.tick htick fun fd hfd =>
    foldl_cbFunc_closes { s with timerLst := lst, timeout := false } calls hnum hfd
  have hb := (foldl_cbFunc_requests { s with timerLst := lst, timeout := false } calls).batch
  unfold State.AllTended
  rw [hb.trans hbatch]
  refine ⟨List.nodup_nil, ?_⟩
  rw [foldl_cbFunc_timing]
  exact h'

/-- **Step lemma.** -/
theorem tended_step {ops : ConnOps C I} {l : Label I} (h : s.AllTended since)
    (hs : step ops s l = some s') : s'.AllTended (s.tickedAt since l) := by
  cases l with
  | elapse seconds =>
    obtain rfl := Option.some.inj hs
    exact ⟨h.nodup, h.tended.elapse seconds⟩
  | epollWait events =>
    simp only [step] at hs
    split at hs
    · rename_i hwait
      obtain rfl := Option.some.inj hs
      obtain ⟨-, -, -, -, hnd, hdel⟩ := hwait
      refine ⟨hnd, h.tended.mono (Finset.Subset.refl _) ?_⟩
      -- what is reported is open
      intro fd hfd
      obtain ⟨ev, hev, hfd⟩ := List.mem_filterMap.mp hfd
      have hopen := hdel ev hev
      cases ev with
      | listen | pipe _ => cases hfd
      | client fd' mask =>
        obtain rfl : fd' = fd := Option.some.inj hfd
        exact .inl hopen.1
    · cases hs
  | handle env =>
    simp only [step] at hs
    split at hs
    · cases hs
    · rename_i ev rest hbatch
      have hall : State.Tending { s with batch := rest } (clientFds (ev :: rest)) since := by
        have hall : s.Tending (clientFds s.batch) since := h
        rw [hbatch] at hall
        exact hall.congr rfl rfl
      have h' := tending_handle (s := { s with batch := rest }) hall hs
      unfold State.AllTended
      rw [handle_batch hs]
      exact h'
  | timerHandler =>
    simp only [step] at hs
    split at hs
    · rename_i hbatch
      split at hs
      · rw [Option.map_eq_some_iff] at hs
        obtain ⟨⟨calls, t⟩, ht, rfl⟩ := hs
        exact tended_timerHandler h hbatch ht
      · cases hs
    · cases hs
  | takeRequest =>
    simp only [step] at hs
    split at hs
    · cases hs
    split at hs
    · obtain rfl := Option.some.inj hs
      exact h.mono rfl rfl (Finset.Subset.refl _)
    · cases hs
  | finishRequest i input =>
    simp only [step] at hs
    split at hs
    · cases hs
    rename_i slot hslot
    obtain ⟨conn, effect, -, rfl⟩ := finish_cases hs
    cases effect with
    | modfd ev =>
      obtain ⟨armed, heq⟩ := modfd_eq { s with
        running := s.running.eraseIdx i, users := Function.update s.users slot conn }
        (s.sockfd slot) ev
      simp only [heq]
      exact h.mono rfl rfl (Finset.Subset.refl _)
    | closeConn =>
      -- a worker closes a socket and leaves its timer
      refine h.mono ?_ ?_ ?_
      · exact closeConn_timing _ slot
      · exact (closeConn_control _ slot).batch
      · exact closeConn_openFds _ slot

theorem tended_initial (h : Initial s) : s.AllTended s.clock := by
  unfold State.AllTended
  rw [h.batch]
  refine ⟨List.nodup_nil, ⟨_, (timed_initial h).toScheduled, ?_⟩, ?_, le_refl _⟩
  · intro fd hfd
    rw [h.openFds] at hfd
    simp [clientFds] at hfd
  · intro fd hfd
    rw [h.openFds] at hfd
    simp at hfd

end TinyHTTP.Server
