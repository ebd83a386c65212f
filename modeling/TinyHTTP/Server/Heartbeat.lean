import TinyHTTP.Server.OwnTimer

/-!
# TinyHTTP — the alarm and the signal pipe

What drives the timers: `alarm(TIMESLOT)` is called before the loop and by every
`timer_handler`, its `SIGALRM` runs `sig_handler`, the handler sends a byte into a
non-blocking socket pair, and the event loop receives the bytes and calls
`timer_handler` behind the batch. The alarm is armed again only there, so a signal that
got lost on the way would be the last one.

`Main` is the server with these, and with the two clocks that say how prompt the kernel
and the event loop are. A signal sent into a full pipe is lost. The pipe is then full of
signals, and the loop is still to see one of those.

* `beating_step` — there is always an alarm to come or a signal that waits, until the
  server is stopped.
* `idle_closed` — how long a silent connection is kept open.
-/

namespace TinyHTTP.Server

open TinyHTTP.Lib TinyHTTP.Timer TinyHTTP.Http

deriving instance DecidableEq for Signal

variable {C I : Type}

/-- `main` with its alarm and its signal pipe. -/
structure Main (C : Type) where
  server : State C
  /-- when the alarm that was set by `alarm` goes off -/
  alarm : Option Int
  /-- the bytes sent into `pipefd[1]` and not yet received from `pipefd[0]` -/
  pipefd : List Signal
  /-- when `alarm` was last called -/
  lastAlarm : Int
  /-- since when the event loop owes a call of `timer_handler` -/
  owingSince : Int

inductive MainLabel (I : Type) where
  | server (l : Label I)
  /-- the alarm goes off -/
  | alarmExpires
  /-- another process sends a signal -/
  | kill (sig : Signal)

/-- `sizeof(signals)` -/
def signalsSize : Nat := 1024

/-- A signal is in the pipe, or has been received and not been dealt with. -/
def Main.Owing (m : Main C) : Prop := m.pipefd ≠ [] ∨ m.server.timeout = true

instance (m : Main C) : Decidable m.Owing := inferInstanceAs (Decidable (_ ∨ _))

/-- `sig_handler(sig)`: the result of `send` is not looked at. The pipe holds `room` bytes. -/
def Main.sigHandler (room : Nat) (m : Main C) (sig : Signal) : Main C :=
  { m with
    pipefd := if m.pipefd.length < room then m.pipefd ++ [sig] else m.pipefd
    owingSince := if m.Owing then m.owingSince else m.server.clock }

def Event.isPipe : Event → Bool
  | .pipe _ => true
  | _ => false

/-- `epoll_wait` reports `pipefd[0]` at most once, and only with bytes in it. -/
def Main.PipeReported (m : Main C) (events : List Event) : Prop :=
  events.countP Event.isPipe ≤ 1 ∧ (events.any Event.isPipe = true → m.pipefd ≠ [])

instance (m : Main C) (events : List Event) : Decidable (m.PipeReported events) :=
  inferInstanceAs (Decidable (_ ∧ _))

/-- The server's step, with what it does to the alarm and to the pipe. -/
def Main.follow (m : Main C) (s : State C) : Label I → Option (Main C)
  | .epollWait events => if m.PipeReported events then some { m with server := s } else none
  | .handle _ =>
    match m.server.batch.head? with
    | some (.pipe signals) =>
      -- the event carries what `recv` returns when it is handled
      if signals = m.pipefd.take signalsSize then
        some { m with server := s, pipefd := m.pipefd.drop signalsSize }
      else none
    | _ => some { m with server := s }
  | .timerHandler =>
    some { m with
      server := s, alarm := some (s.clock + timeslot), lastAlarm := s.clock, owingSince := s.clock }
  | _ => some { m with server := s }

def mainStep (ops : ConnOps C I) (room : Nat) (m : Main C) : MainLabel I → Option (Main C)
  | .server l => (step ops m.server l).bind fun s => m.follow s l
  | .alarmExpires =>
    match m.alarm with
    | none => none
    | some due =>
      if due ≤ m.server.clock then some (Main.sigHandler room { m with alarm := none } .sigalrm)
      else none
  -- `main` handles `SIGALRM` and `SIGTERM`
  | .kill sig => if sig = .other then none else some (m.sigHandler room sig)

/-- `alarm(TIMESLOT)` has been called, and the loop has not begun. -/
structure MainInitial (m : Main C) : Prop where
  server : Initial m.server
  alarm : m.alarm = some (m.server.clock + timeslot)
  pipefd : m.pipefd = []
  lastAlarm : m.lastAlarm = m.server.clock

/-- The kernel sends `SIGALRM` when it is due, and the event loop comes to `timer_handler` within
`delay` seconds. -/
def Prompt (delay : Nat) (m : Main C) : MainLabel I → Prop
  | .server (.elapse seconds) =>
    (∀ due, m.alarm = some due → m.server.clock + seconds ≤ due) ∧
      (m.Owing → m.server.clock + seconds ≤ m.owingSince + delay)
  | _ => True

-- ---------------------------------------------------------------------------
-- Steps of the server
-- ---------------------------------------------------------------------------

theorem foldl_signal_timeout (s : State C) (signals : List Signal) :
    (signals.foldl State.signal s).timeout = true ↔ s.timeout = true ∨ .sigalrm ∈ signals := by
  induction signals generalizing s with
  | nil => simp
  | cons sig signals ih =>
    rw [List.foldl_cons, ih]
    cases sig <;> simp [State.signal]

theorem foldl_signal_stopServer (s : State C) (signals : List Signal) :
    (signals.foldl State.signal s).stopServer = true ↔
      s.stopServer = true ∨ .sigterm ∈ signals := by
  induction signals generalizing s with
  | nil => simp
  | cons sig signals ih =>
    rw [List.foldl_cons, ih]
    cases sig <;> simp [State.signal]

/-- What a step of the server does to the clock and the flags. -/
inductive ControlStep (s s' : State C) : Label I → Prop
  | elapse (seconds : Nat) (hclock : s'.clock = s.clock + seconds)
      (htimeout : s'.timeout = s.timeout) (hstop : s'.stopServer = s.stopServer) :
      ControlStep s s' (.elapse seconds)
  | pipe (env : Env I) (signals : List Signal) (hhead : s.batch.head? = some (.pipe signals))
      (hclock : s'.clock = s.clock)
      (htimeout : s'.timeout = true ↔ s.timeout = true ∨ .sigalrm ∈ signals)
      (hstop : s'.stopServer = true ↔ s.stopServer = true ∨ .sigterm ∈ signals) :
      ControlStep s s' (.handle env)
  | timerHandler (hclock : s'.clock = s.clock) (htimeout : s'.timeout = false)
      (hstop : s'.stopServer = s.stopServer) : ControlStep s s' .timerHandler
  | same (l : Label I) (htick : l ≠ .timerHandler)
      (hhead : ∀ env signals, l = .handle env → s.batch.head? ≠ some (.pipe signals))
      (hclock : s'.clock = s.clock) (htimeout : s'.timeout = s.timeout)
      (hstop : s'.stopServer = s.stopServer) : ControlStep s s' l

theorem foldl_cbFunc_control (s : State C) (calls : List (Addr × Fd)) :
    SameControl s (calls.foldl (fun s call => s.cbFunc call.2) s) := by
  induction calls generalizing s with
  | nil => exact ⟨rfl, rfl, rfl, rfl⟩
  | cons call calls ih =>
    have h₁ := cbFunc_control s call.2
    have h₂ := ih (s.cbFunc call.2)
    exact ⟨h₂.batch.trans h₁.batch, h₂.clock.trans h₁.clock, h₂.timeout.trans h₁.timeout,
      h₂.stopServer.trans h₁.stopServer⟩

theorem step_control {ops : ConnOps C I} {s s' : State C} {l : Label I}
    (hs : step ops s l = some s') : ControlStep s s' l := by
  cases l with
  | elapse seconds =>
    obtain rfl := Option.some.inj hs
    exact .elapse seconds rfl rfl rfl
  | epollWait events =>
    simp only [step] at hs
    split at hs
    · obtain rfl := Option.some.inj hs
      exact .same _ (by simp) (by simp) rfl rfl rfl
    · cases hs
  | handle env =>
    simp only [step] at hs
    split at hs
    · cases hs
    rename_i ev rest hbatch
    rcases handle_control hs with ⟨hev, h⟩ | ⟨signals, rfl, rfl⟩
    · refine .same _ (by simp) ?_ h.clock h.timeout h.stopServer
      intro _ signals _ hhead
      rw [hbatch, List.head?_cons, Option.some.injEq] at hhead
      subst hhead
      cases hev rfl
    · refine .pipe env signals (by rw [hbatch]; rfl) ?_ (foldl_signal_timeout _ signals)
        (foldl_signal_stopServer _ signals)
      obtain ⟨timeout, stopServer, heq⟩ := foldl_signal_eq { s with batch := rest } signals
      rw [heq]
  | timerHandler =>
    simp only [step] at hs
    split at hs
    · split at hs
      · rw [Option.map_eq_some_iff] at hs
        obtain ⟨⟨calls, t⟩, ht, rfl⟩ := hs
        obtain ⟨lst, -, rfl⟩ := timerHandler_eq ht
        obtain ⟨-, hclock, htimeout, hstop⟩ :=
          foldl_cbFunc_control { s with timerLst := lst, timeout := false } calls
        exact .timerHandler hclock htimeout hstop
      · cases hs
    · cases hs
  | takeRequest =>
    simp only [step] at hs
    split at hs
    · cases hs
    split at hs
    · obtain rfl := Option.some.inj hs
      exact .same _ (by simp) (by simp) rfl rfl rfl
    · cases hs
  | finishRequest i input =>
    simp only [step] at hs
    split at hs
    · cases hs
    rename_i slot hslot
    obtain ⟨conn, effect, -, rfl⟩ := finish_cases hs
    cases effect with
    | modfd ev =>
      obtain ⟨armed, heq⟩ := modfd_eq { s with
        running := s.running.eraseIdx i, users := Function.update s.users slot conn }
        (s.sockfd slot) ev
      simp only [heq]
      exact .same _ (by simp) (by simp) rfl rfl rfl
    | closeConn =>
      obtain ⟨-, hclock, htimeout, hstop⟩ := closeConn_control { s with
        running := s.running.eraseIdx i, users := Function.update s.users slot conn } slot
      exact .same _ (by simp) (by simp) hclock htimeout hstop

-- ---------------------------------------------------------------------------
-- The heartbeat
-- ---------------------------------------------------------------------------

/-- There is an alarm to come, or the event loop owes a tick, and neither is overdue. -/
structure Beating (delay : Nat) (m : Main C) : Prop where
  known : .other ∉ m.pipefd
  due : ∀ t, m.alarm = some t → t = m.lastAlarm + timeslot ∧ m.server.clock ≤ t
  alive : m.alarm = none → m.Owing
  owing : m.Owing → m.owingSince ≤ m.lastAlarm + timeslot ∧
    m.server.clock ≤ m.owingSince + delay

variable {delay room : Nat} {m m' : Main C}

theorem Beating.clock_le (h : Beating delay m) :
    m.server.clock ≤ m.lastAlarm + timeslot + delay := by
  cases halarm : m.alarm with
  | none =>
    obtain ⟨hsince, hle⟩ := h.owing (h.alive halarm)
    omega
  | some t =>
    obtain ⟨rfl, hle⟩ := h.due t halarm
    omega

/-- The clock and the pipe stay. -/
theorem Beating.congr (h : Beating delay m) {s : State C} (hclock : s.clock = m.server.clock)
    (htimeout : s.timeout = m.server.timeout) : Beating delay { m with server := s } := by
  have howing : Main.Owing { m with server := s } ↔ m.Owing := by
    simp only [Main.Owing, htimeout]
  refine ⟨h.known, ?_, fun halarm => howing.mpr (h.alive halarm), ?_⟩
  · show ∀ t, m.alarm = some t → t = m.lastAlarm + timeslot ∧ s.clock ≤ t
    rw [hclock]
    exact h.due
  · show _ → m.owingSince ≤ m.lastAlarm + timeslot ∧ s.clock ≤ m.owingSince + delay
    rw [hclock, howing]
    exact h.owing

/-- A signal, sent when the loop is not late: it waits, or others wait before it. -/
theorem Beating.sigHandler (hroom : 0 < room) {sig : Signal} (hsig : sig ≠ .other)
    (hknown : .other ∉ m.pipefd)
    (hdue : ∀ t, m.alarm = some t → t = m.lastAlarm + timeslot ∧ m.server.clock ≤ t)
    (hfirst : ¬ m.Owing → m.server.clock ≤ m.lastAlarm + timeslot)
    (howing : m.Owing → m.owingSince ≤ m.lastAlarm + timeslot ∧
      m.server.clock ≤ m.owingSince + delay) : Beating delay (m.sigHandler room sig) := by
  have hwaits : (m.sigHandler room sig).pipefd ≠ [] := by
    unfold Main.sigHandler
    dsimp only
    split
    · simp
    · rename_i hfull
      intro hnil
      rw [hnil] at hfull
      exact hfull hroom
  refine ⟨?_, hdue, fun _ => .inl hwaits, fun _ => ?_⟩
  · unfold Main.sigHandler
    dsimp only
    split
    · rw [List.mem_append, List.mem_singleton, not_or]
      exact ⟨hknown, Ne.symm hsig⟩
    · exact hknown
  · show (if m.Owing then m.owingSince else m.server.clock) ≤ m.lastAlarm + timeslot ∧
      m.server.clock ≤ (if m.Owing then m.owingSince else m.server.clock) + delay
    split
    · rename_i how
      exact howing how
    · rename_i hno
      have := hfirst hno
      omega

/-- The loop receives what waits. Where nothing tells it to stop, it owes a tick. -/
theorem Beating.recv (h : Beating delay m) {s : State C} {signals : List Signal}
    (hsignals : signals = m.pipefd.take signalsSize) (hterm : .sigterm ∉ signals)
    (hclock : s.clock = m.server.clock)
    (htimeout : s.timeout = true ↔ m.server.timeout = true ∨ .sigalrm ∈ signals) :
    Beating delay { m with server := s, pipefd := m.pipefd.drop signalsSize } := by
  have hother : .other ∉ signals := fun hm => h.known (List.mem_of_mem_take (hsignals ▸ hm))
  have halarm : m.pipefd ≠ [] → .sigalrm ∈ signals := by
    intro hne
    have hpos : signals ≠ [] := by
      rw [hsignals, Ne, List.take_eq_nil_iff, not_or]
      exact ⟨by decide, hne⟩
    obtain ⟨sig, hsig⟩ := List.exists_mem_of_ne_nil _ hpos
    cases sig with
    | sigalrm => exact hsig
    | sigterm => exact absurd hsig hterm
    | other => exact absurd hsig hother
  -- what it owed before, it still owes
  have hbefore : m.Owing → s.timeout = true := by
    rintro (hne | hset)
    · exact htimeout.mpr (.inr (halarm hne))
    · exact htimeout.mpr (.inl hset)
  have hafter : Main.Owing { m with server := s, pipefd := m.pipefd.drop signalsSize } →
      m.Owing := by
    rintro (hne | hset)
    · refine .inl ?_
      rintro hnil
      exact hne (by show m.pipefd.drop signalsSize = []; rw [hnil, List.drop_nil])
    · rcases htimeout.mp hset with hset | hm
      · exact .inr hset
      · refine .inl ?_
        rintro hnil
        rw [hsignals, hnil, List.take_nil] at hm
        cases hm
  refine ⟨fun hm => h.known (List.mem_of_mem_drop hm), ?_,
    fun hnone => .inr (hbefore (h.alive hnone)), fun how => ?_⟩
  · show ∀ t, m.alarm = some t → t = m.lastAlarm + timeslot ∧ s.clock ≤ t
    rw [hclock]
    exact h.due
  · show m.owingSince ≤ m.lastAlarm + timeslot ∧ s.clock ≤ m.owingSince + delay
    rw [hclock]
    exact h.owing (hafter how)

/-- **Step lemma.** -/
theorem beating_step {ops : ConnOps C I} {l : MainLabel I} (hroom : 0 < room)
    (h : Beating delay m) (hok : Prompt delay m l) (hs : mainStep ops room m l = some m') :
    m'.server.stopServer = true ∨ Beating delay m' := by
  cases l with
  | server l =>
    obtain ⟨s, hstep, hfollow⟩ := Option.bind_eq_some_iff.mp hs
    cases step_control hstep with
    | elapse seconds hclock htimeout hstop =>
      obtain rfl := Option.some.inj hfollow
      obtain ⟨hdue, howing⟩ := hok
      have htime : s.clock = m.server.clock + seconds := hclock
      have hsame : Main.Owing { m with server := s } ↔ m.Owing := by
        simp only [Main.Owing, htimeout]
      refine .inr ⟨h.known, ?_, fun halarm => hsame.mpr (h.alive halarm), ?_⟩
      · intro t ht
        refine ⟨(h.due t ht).1, ?_⟩
        show s.clock ≤ t
        exact htime ▸ hdue t ht
      · intro how
        refine ⟨(h.owing (hsame.mp how)).1, ?_⟩
        show s.clock ≤ m.owingSince + delay
        exact htime ▸ howing (hsame.mp how)
    | pipe env signals hhead hclock htimeout hstop =>
      simp only [Main.follow, hhead] at hfollow
      split at hfollow
      · rename_i hsignals
        obtain rfl := Option.some.inj hfollow
        by_cases hterm : .sigterm ∈ signals
        · exact .inl (hstop.mpr (.inr hterm))
        exact .inr (h.recv hsignals hterm hclock htimeout)
      · cases hfollow
    | timerHandler hclock htimeout hstop =>
      obtain rfl := Option.some.inj hfollow
      refine .inr ⟨h.known, ?_, (fun hno => by cases hno), fun _ => ?_⟩
      · intro t ht
        obtain rfl := Option.some.inj ht
        refine ⟨rfl, ?_⟩
        show s.clock ≤ s.clock + timeslot
        simp only [timeslot]
        omega
      · show s.clock ≤ s.clock + timeslot ∧ s.clock ≤ s.clock + delay
        simp only [timeslot]
        omega
    | same l htick hhead hclock htimeout hstop =>
      have hnext := Beating.congr h hclock htimeout
      cases l with
      | timerHandler => exact absurd rfl htick
      | epollWait events =>
        simp only [Main.follow] at hfollow
        split at hfollow
        · exact .inr (Option.some.inj hfollow ▸ hnext)
        · cases hfollow
      | handle env =>
        simp only [Main.follow] at hfollow
        split at hfollow
        · rename_i signals hpipe
          exact absurd hpipe (hhead env signals rfl)
        · exact .inr (Option.some.inj hfollow ▸ hnext)
      | elapse _ | takeRequest | finishRequest _ _ =>
        exact .inr (Option.some.inj hfollow ▸ hnext)
  | alarmExpires =>
    simp only [mainStep] at hs
    split at hs
    · cases hs
    · rename_i due halarm
      split at hs
      · rename_i hexpired
        obtain rfl := Option.some.inj hs
        refine .inr (Beating.sigHandler hroom (by simp) h.known (by simp) (fun _ => ?_) h.owing)
        -- the alarm goes off in time
        obtain ⟨rfl, hle⟩ := h.due due halarm
        exact hle
      · cases hs
  | kill sig =>
    simp only [mainStep] at hs
    split at hs
    · cases hs
    · rename_i hsig
      obtain rfl := Option.some.inj hs
      refine .inr (Beating.sigHandler hroom hsig h.known h.due (fun hno => ?_) h.owing)
      -- with nothing waiting there is an alarm to come
      cases halarm : m.alarm with
      | none => exact absurd (h.alive halarm) hno
      | some t =>
        obtain ⟨rfl, hle⟩ := h.due t halarm
        exact hle

/-- The server takes a step of its own or none, and `alarm` is called at a tick. -/
theorem mainStep_server {ops : ConnOps C I} {l : MainLabel I}
    (hs : mainStep ops room m l = some m') :
    (∃ l, step ops m.server l = some m'.server ∧
        m'.lastAlarm = m.server.tickedAt m.lastAlarm l) ∨
      m'.server = m.server ∧ m'.lastAlarm = m.lastAlarm := by
  cases l with
  | server l =>
    obtain ⟨s, hstep, hfollow⟩ := Option.bind_eq_some_iff.mp hs
    refine .inl ⟨l, ?_⟩
    cases l with
    | timerHandler =>
      obtain rfl := Option.some.inj hfollow
      refine ⟨hstep, ?_⟩
      cases step_control hstep with
      | timerHandler hclock _ _ => exact hclock
      | same _ htick _ _ _ _ => exact absurd rfl htick
    | epollWait events =>
      simp only [Main.follow] at hfollow
      split at hfollow
      · obtain rfl := Option.some.inj hfollow
        exact ⟨hstep, rfl⟩
      · cases hfollow
    | handle env =>
      simp only [Main.follow] at hfollow
      split at hfollow
      · split at hfollow
        · obtain rfl := Option.some.inj hfollow
          exact ⟨hstep, rfl⟩
        · cases hfollow
      · obtain rfl := Option.some.inj hfollow
        exact ⟨hstep, rfl⟩
    | elapse _ | takeRequest | finishRequest _ _ =>
      obtain rfl := Option.some.inj hfollow
      exact ⟨hstep, rfl⟩
  | alarmExpires =>
    simp only [mainStep] at hs
    split at hs
    · cases hs
    · split at hs
      · obtain rfl := Option.some.inj hs
        exact .inr ⟨rfl, rfl⟩
      · cases hs
  | kill sig =>
    simp only [mainStep] at hs
    split at hs
    · cases hs
    · obtain rfl := Option.some.inj hs
      exact .inr ⟨rfl, rfl⟩

/-- Once set, `stop_server` stays. -/
theorem stopServer_step {ops : ConnOps C I} {l : MainLabel I}
    (hs : mainStep ops room m l = some m') (hstop : m.server.stopServer = true) :
    m'.server.stopServer = true := by
  rcases mainStep_server hs with ⟨l, hstep, -⟩ | ⟨hserver, -⟩
  · cases step_control hstep with
    | elapse _ _ _ h | timerHandler _ _ h | same _ _ _ _ _ h => rw [h, hstop]
    | pipe _ _ _ _ _ h => exact h.mpr (.inl hstop)
  · rw [hserver, hstop]

-- ---------------------------------------------------------------------------
-- Runs
-- ---------------------------------------------------------------------------

/-- **Run lemma** for the timers, however late the ticks are. -/
theorem tended_reachable {ops : ConnOps C I} {ok : Main C → MainLabel I → Prop}
    (h : Reachable MainInitial (mainStep ops room) ok m) : m.server.AllTended m.lastAlarm := by
  refine h.invariant (P := fun m => m.server.AllTended m.lastAlarm) ?_ ?_
  · intro m hm
    rw [hm.lastAlarm]
    exact tended_initial hm.server
  · intro m l m' ht _ hs
    rcases mainStep_server hs with ⟨l, hstep, hlast⟩ | ⟨hserver, hlast⟩
    · rw [hlast]
      exact tended_step ht hstep
    · rw [hserver, hlast]
      exact ht

theorem beating_initial (h : MainInitial m) : Beating delay m where
  known := by
    rw [h.pipefd]
    exact List.not_mem_nil
  due t ht := by
    rw [h.alarm, Option.some.injEq] at ht
    rw [h.lastAlarm]
    simp only [timeslot] at ht ⊢
    omega
  alive hnone := by
    rw [h.alarm] at hnone
    cases hnone
  owing := by
    rintro (hne | hset)
    · exact absurd h.pipefd hne
    · rw [h.server.timeout] at hset
      cases hset

/-- **Run lemma** for the heartbeat. -/
theorem beating_reachable {ops : ConnOps C I} (hroom : 0 < room)
    (h : Reachable MainInitial (mainStep ops room) (Prompt delay) m) :
    m.server.stopServer = true ∨ Beating delay m := by
  refine h.invariant (P := fun m => m.server.stopServer = true ∨ Beating delay m) ?_ ?_
  · exact fun m hm => .inr (beating_initial hm)
  · rintro m l m' (hstop | hbeat) hok hs
    · exact .inl (stopServer_step hs hstop)
    · exact beating_step hroom hbeat hok hs

/-- **Silent connections are closed.** Whatever the clients and the workers do and whatever
signals arrive, a server that is not being stopped keeps no connection open that had no
traffic for `4 * TIMESLOT` seconds and the delay of its event loop. -/
theorem idle_closed {ops : ConnOps C I} (hroom : 0 < room)
    (h : Reachable MainInitial (mainStep ops room) (Prompt delay) m)
    (hrun : m.server.stopServer = false) {fd : Fd} (hfd : fd ∈ m.server.openFds) :
    m.server.clock < m.server.lastActive fd + 4 * timeslot + delay := by
  have hrecent : m.lastAlarm < m.server.lastActive fd + 3 * timeslot :=
    (tended_reachable h).tended.recent fd hfd
  rcases beating_reachable hroom h with hstop | hbeat
  · rw [hrun] at hstop
    cases hstop
  · have hle := hbeat.clock_le
    simp only [timeslot] at hle hrecent ⊢
    omega

/-! ## A silent client -/

/-- The server before its first client, with `alarm(TIMESLOT)` called. -/
def mainStart : Main HttpConn where
  server := coldStart
  alarm := some timeslot
  pipefd := []
  lastAlarm := 0
  owingSince := 0

theorem mainStart_initial : MainInitial mainStart where
  server := coldStart_initial
  alarm := rfl
  pipefd := rfl
  lastAlarm := rfl

/-- A check of `Prompt`. -/
def isPrompt (delay : Nat) (m : Main C) : MainLabel I → Bool
  | .server (.elapse seconds) =>
    m.alarm.all (fun due => m.server.clock + seconds ≤ due) &&
      (!decide m.Owing || decide (m.server.clock + seconds ≤ m.owingSince + delay))
  | _ => true

theorem prompt_of_check {l : MainLabel I} (h : isPrompt delay m l = true) : Prompt delay m l := by
  cases l with
  | server l =>
    cases l with
    | elapse seconds =>
      simp only [isPrompt, Bool.and_eq_true, Option.all_eq_true, Bool.or_eq_true,
        Bool.not_eq_true', decide_eq_false_iff_not, decide_eq_true_iff] at h
      exact ⟨h.1, fun how => h.2.resolve_left (absurd how)⟩
    | _ => trivial
  | _ => trivial

/-- The alarm goes off after `seconds`, and the event loop deals with it `late` seconds later. -/
def beat (seconds late : Nat) : List (MainLabel Input) :=
  [.server (.elapse seconds), .alarmExpires, .server (.elapse late),
    .server (.epollWait [.pipe [.sigalrm]]), .server (.handle ⟨none, 0, arrival []⟩),
    .server .timerHandler]

theorem idle_closed_late : ∃ m : Main HttpConn, (m.server.stopServer = false ∧
    5 ∈ m.server.openFds ∧ m.server.clock = m.server.lastActive 5 + 21) ∧
    m.server.clock < m.server.lastActive 5 + 4 * timeslot + 2 := by
  have hrun : (runSteps (guarded (isPrompt 2) (mainStep httpOps 200)) mainStart
      ([.server (.elapse 1)] ++ (welcome 5 1).map .server ++ beat 4 0 ++ beat 5 0 ++ beat 5 0 ++
        [.server (.elapse 5), .alarmExpires, .server (.elapse 2)])).map
      (fun m => (m.server.stopServer, decide (5 ∈ m.server.openFds),
        decide (m.server.clock = m.server.lastActive 5 + 21))) = some (false, true, true) := by
    decide +kernel
  obtain ⟨m, hm, hval⟩ := Option.map_eq_some_iff.mp hrun
  simp only [Prod.mk.injEq, decide_eq_true_iff] at hval
  obtain ⟨hstop, hfd, hclock⟩ := hval
  have hreach := Reachable.of_guarded (fun _ _ h => prompt_of_check h)
    (.init mainStart_initial) hm
  exact ⟨m, ⟨hstop, hfd, hclock⟩, idle_closed (by decide) hreach hstop hfd⟩

end TinyHTTP.Server
