import TinyHTTP.Lib.Run
import TinyHTTP.Server.Branches
import TinyHTTP.Timer.Runs

/-!
# TinyHTTP — the connection a timer is for

A timer carries the address of a slot of `users_timer` and nothing of the
connection that was accepted into the slot. It is that connection's timer as long
as the slot points back at it: `Timed` says so of every pending timer, and that
none of them is due before the connection has been idle for `3 * TIMESLOT`.

What the timers see of the server is a small system of its own, `TimingStep`, and
`step_timing` says that the server runs it. Only one of its steps can part a timer
from its connection: an accept into a slot that an older, still linked timer names.

* `scheduled_reachable` — the list is sound in every reachable state.
* `timed_reachable` — a server that accepts no number with a linked timer keeps
  every timer with its connection.
* `Timed.idle` — the connections whose timers a tick fires are idle.
-/

namespace TinyHTTP.Server

open TinyHTTP.Lib TinyHTTP.Timer TinyHTTP.Http SortTimerLst

variable {C I : Type}

/-- What decides when the timers fire, and for whom. -/
structure Timing where
  timerLst : SortTimerLst Fd
  usersTimer : Fd → ClientData
  clock : Int
  acceptedAt : Fd → Int
  lastActive : Fd → Int

def State.timing (s : State C) : Timing :=
  ⟨s.timerLst, s.usersTimer, s.clock, s.acceptedAt, s.lastActive⟩

/-- The list is that of the table `p`, no timer is due later than `3 * TIMESLOT` from now, and the
slots of the timers are slots of sockets. -/
structure Scheduled (t : Timing) (p : Pending Fd) : Prop where
  sound : Sound t.timerLst p
  due_le : ∀ a e fd, p a = some (e, fd) → e ≤ t.clock + 3 * timeslot
  number : ∀ a e fd, p a = some (e, fd) → (t.usersTimer fd).sockfd = fd

/-- The slot of every pending timer names the timer. -/
def SlotsName (usersTimer : Fd → ClientData) (p : Pending Fd) : Prop :=
  ∀ a e fd, p a = some (e, fd) → usersTimer fd = ⟨fd, some a⟩

/-- Every pending timer of the table belongs to the connection in its slot. -/
structure Timed (t : Timing) (p : Pending Fd) : Prop extends Scheduled t p where
  slot : SlotsName t.usersTimer p
  due : ∀ a e fd, p a = some (e, fd) → t.lastActive fd + 3 * timeslot ≤ e
  accepted : ∀ a e fd, p a = some (e, fd) → t.acceptedAt fd ≤ t.lastActive fd

/-- Two timers of one slot are one timer. -/
theorem SlotsName.unique {usersTimer : Fd → ClientData} {p : Pending Fd}
    (h : SlotsName usersTimer p) {a b : Addr} {e e' : Int} {fd : Fd} (ha : p a = some (e, fd))
    (hb : p b = some (e', fd)) : a = b := by
  have h₁ := h a e fd ha
  have h₂ := h b e' fd hb
  rw [h₁, ClientData.mk.injEq, Option.some.injEq] at h₂
  exact h₂.2

-- ---------------------------------------------------------------------------
-- Steps of the timers
-- ---------------------------------------------------------------------------

/-- What a step of the server does to the timers. The index is the number that an accept
returns. -/
inductive TimingStep (t : Timing) : Option Fd → Timing → Prop
  | same : TimingStep t none t
  | elapse (seconds : Nat) : TimingStep t none { t with clock := t.clock + seconds }
  /-- the timer of a slot is deleted -/
  | drop (a : Addr) (lst : SortTimerLst Fd) (hlive : a ∈ t.timerLst.live)
      (hlst : t.timerLst.delTimer (some a) = some lst) :
      TimingStep t none { t with timerLst := lst }
  /-- traffic on a slot without a timer -/
  | touch (fd : Fd) (hut : (t.usersTimer fd).timer = none) :
      TimingStep t none { t with lastActive := Function.update t.lastActive fd t.clock }
  /-- traffic on a slot with one -/
  | adjust (fd : Fd) (a : Addr) (lst : SortTimerLst Fd) (hut : (t.usersTimer fd).timer = some a)
      (hlive : a ∈ t.timerLst.live)
      (hlst : (t.timerLst.setExpire a (t.clock + 3 * timeslot)).bind
        (fun l => l.adjustTimer (some a)) = some lst) :
      TimingStep t none
        { t with lastActive := Function.update t.lastActive fd t.clock, timerLst := lst }
  | accept (connfd : Fd) (timer : Addr) (lst : SortTimerLst Fd) (hnew : timer ∉ t.timerLst.live)
      (hlst : (t.timerLst.alloc timer (t.clock + 3 * timeslot) connfd).addTimer (some timer) =
        some lst) :
      TimingStep t (some connfd)
        { timerLst := lst
          usersTimer := Function.update t.usersTimer connfd ⟨connfd, some timer⟩
          clock := t.clock
          acceptedAt := Function.update t.acceptedAt connfd t.clock
          lastActive := Function.update t.lastActive connfd t.clock }
  | tick (calls : List (Addr × Fd)) (lst : SortTimerLst Fd)
      (hlst : t.timerLst.tick t.clock = some (calls, lst)) :
      TimingStep t none { t with timerLst := lst }

theorem update_none_sub {p : Pending Fd} {a b : Addr} {x : Int × Fd}
    (h : Function.update p a none b = some x) : p b = some x := by
  rcases update_cases h with ⟨-, hnone⟩ | ⟨-, hb⟩
  · cases hnone
  · exact hb

theorem without_sub {p : Pending Fd} {as : List Addr} {b : Addr} {x : Int × Fd}
    (h : Pending.without p as b = some x) : p b = some x := by
  unfold Pending.without at h
  split at h
  · cases h
  · exact h

/-- A new entry of the table, or an old one with another address. -/
theorem update_some_cases {p : Pending Fd} {a b : Addr} {x y : Int × Fd}
    (h : Function.update p a (some x) b = some y) : b = a ∧ y = x ∨ b ≠ a ∧ p b = some y :=
  (update_cases h).imp_left fun ⟨hb, hx⟩ => ⟨hb, (Option.some.inj hx).symm⟩

/-! ## The list -/

/-- A timer that is set now expires after three slots, and none later. -/
theorem Scheduled.due_le_update {t : Timing} {p : Pending Fd} (h : Scheduled t p) (a : Addr)
    (slot : Fd) : ∀ b e fd, Function.update p a (some (t.clock + 3 * timeslot, slot)) b =
      some (e, fd) → e ≤ t.clock + 3 * timeslot := by
  intro b e fd hb
  rcases update_some_cases hb with ⟨-, hx⟩ | ⟨-, hb⟩
  · obtain ⟨rfl, rfl⟩ := Prod.mk.injEq .. ▸ hx
    exact le_refl _
  · exact h.due_le b e fd hb

theorem Scheduled.drop {t : Timing} {p : Pending Fd} {a : Addr} {lst : SortTimerLst Fd}
    (h : Scheduled t p) (hlive : a ∈ t.timerLst.live)
    (hlst : t.timerLst.delTimer (some a) = some lst) :
    (∃ x, p a = some x) ∧
      Scheduled { t with timerLst := lst } (Function.update p a none) := by
  obtain ⟨⟨e, fd⟩, hp⟩ := Option.isSome_iff_exists.mp ((h.sound.live_iff a).mp hlive)
  obtain ⟨lst', hlst', hsound⟩ := sound_del h.sound hp
  rw [hlst', Option.some.injEq] at hlst
  subst hlst
  exact ⟨⟨_, hp⟩, hsound, fun b e' fd' hb => h.due_le b e' fd' (update_none_sub hb),
    fun b e' fd' hb => h.number b e' fd' (update_none_sub hb)⟩

theorem Scheduled.adjust {t : Timing} {p : Pending Fd} {a : Addr} {lst : SortTimerLst Fd}
    (h : Scheduled t p) (hlive : a ∈ t.timerLst.live)
    (hlst : (t.timerLst.setExpire a (t.clock + 3 * timeslot)).bind
      (fun l => l.adjustTimer (some a)) = some lst) :
    ∃ e slot, p a = some (e, slot) ∧ Scheduled { t with timerLst := lst }
      (Function.update p a (some (t.clock + 3 * timeslot, slot))) := by
  obtain ⟨⟨e, slot⟩, hp⟩ := Option.isSome_iff_exists.mp ((h.sound.live_iff a).mp hlive)
  obtain ⟨lst', hlst', hsound⟩ := sound_adjust h.sound hp (h.due_le a e slot hp)
  rw [hlst', Option.some.injEq] at hlst
  subst hlst
  refine ⟨e, slot, hp, hsound, h.due_le_update a slot, ?_⟩
  intro b e' fd' hb
  rcases update_some_cases hb with ⟨-, hx⟩ | ⟨-, hb⟩
  · obtain ⟨-, rfl⟩ := Prod.mk.injEq .. ▸ hx
    exact h.number a e fd' hp
  · exact h.number b e' fd' hb

theorem Scheduled.accept {t : Timing} {p : Pending Fd} {timer : Addr} {connfd : Fd}
    {lst : SortTimerLst Fd} (h : Scheduled t p) (hnew : timer ∉ t.timerLst.live)
    (hlst : (t.timerLst.alloc timer (t.clock + 3 * timeslot) connfd).addTimer (some timer) =
      some lst) :
    p timer = none ∧ Scheduled
      { timerLst := lst
        usersTimer := Function.update t.usersTimer connfd ⟨connfd, some timer⟩
        clock := t.clock
        acceptedAt := Function.update t.acceptedAt connfd t.clock
        lastActive := Function.update t.lastActive connfd t.clock }
      (Function.update p timer (some (t.clock + 3 * timeslot, connfd))) := by
  have hfresh : p timer = none := by
    rw [h.sound.live_iff] at hnew
    simpa using hnew
  obtain ⟨lst', hlst', hsound⟩ := sound_add (t.clock + 3 * timeslot) connfd h.sound hfresh
  rw [hlst', Option.some.injEq] at hlst
  subst hlst
  refine ⟨hfresh, hsound, h.due_le_update timer connfd, ?_⟩
  intro b e' fd' hb
  show (Function.update t.usersTimer connfd ⟨connfd, some timer⟩ fd').sockfd = fd'
  by_cases hne : fd' = connfd
  · rw [hne, Function.update_self]
  · rw [Function.update_of_ne hne]
    rcases update_some_cases hb with ⟨-, hx⟩ | ⟨-, hb⟩
    · obtain ⟨-, rfl⟩ := Prod.mk.injEq .. ▸ hx
      exact absurd rfl hne
    · exact h.number b e' fd' hb

theorem Scheduled.tick {t : Timing} {p : Pending Fd} {calls : List (Addr × Fd)}
    {lst : SortTimerLst Fd} (h : Scheduled t p)
    (hlst : t.timerLst.tick t.clock = some (calls, lst)) :
    CallsOf p (.tick t.clock) calls ∧
      Scheduled { t with timerLst := lst } (Pending.without p (calls.map Prod.fst)) := by
  obtain ⟨calls', lst', htick, hcalls, hsound⟩ := sound_tick t.clock h.sound
  rw [htick, Option.some.injEq, Prod.mk.injEq] at hlst
  obtain ⟨rfl, rfl⟩ := hlst
  rw [pendStep_tick hcalls] at hsound
  exact ⟨hcalls, hsound, fun b e fd hb => h.due_le b e fd (without_sub hb),
    fun b e fd hb => h.number b e fd (without_sub hb)⟩

/-- Every step keeps the list sound. -/
theorem Scheduled.step {t t' : Timing} {p : Pending Fd} {accepted : Option Fd}
    (h : Scheduled t p) (hs : TimingStep t accepted t') : ∃ p', Scheduled t' p' := by
  cases hs with
  | same => exact ⟨p, h⟩
  | elapse seconds =>
    refine ⟨p, h.sound, ?_, h.number⟩
    intro a e fd ha
    have hdue := h.due_le a e fd ha
    show e ≤ t.clock + seconds + 3 * timeslot
    omega
  | drop a lst hlive hlst => exact ⟨_, (h.drop hlive hlst).2⟩
  | touch fd hut => exact ⟨p, h.sound, h.due_le, h.number⟩
  | adjust fd a lst hut hlive hlst =>
    obtain ⟨e, slot, -, h'⟩ := h.adjust hlive hlst
    exact ⟨_, h'.sound, h'.due_le, h'.number⟩
  | accept connfd timer lst hnew hlst =>
    obtain ⟨-, h'⟩ := h.accept hnew hlst
    exact ⟨_, h'⟩
  | tick calls lst hlst => exact ⟨_, (h.tick hlst).2⟩

/-! ## The slots -/

/-- Timers leave the table. -/
theorem Timed.mono {t : Timing} {p p' : Pending Fd} {lst : SortTimerLst Fd} (h : Timed t p)
    (hsub : ∀ a x, p' a = some x → p a = some x) (h' : Scheduled { t with timerLst := lst } p') :
    Timed { t with timerLst := lst } p' where
  toScheduled := h'
  slot a e fd ha := h.slot a e fd (hsub a _ ha)
  due a e fd ha := h.due a e fd (hsub a _ ha)
  accepted a e fd ha := h.accepted a e fd (hsub a _ ha)

theorem Timed.drop {t : Timing} {p : Pending Fd} {a : Addr} {lst : SortTimerLst Fd}
    (h : Timed t p) (hlive : a ∈ t.timerLst.live)
    (hlst : t.timerLst.delTimer (some a) = some lst) :
    Timed { t with timerLst := lst } (Function.update p a none) :=
  h.mono (fun _ _ hb => update_none_sub hb) (h.toScheduled.drop hlive hlst).2

theorem Timed.tick {t : Timing} {p : Pending Fd} {calls : List (Addr × Fd)}
    {lst : SortTimerLst Fd} (h : Timed t p)
    (hlst : t.timerLst.tick t.clock = some (calls, lst)) :
    CallsOf p (.tick t.clock) calls ∧
      Timed { t with timerLst := lst } (Pending.without p (calls.map Prod.fst)) := by
  obtain ⟨hcalls, h'⟩ := h.toScheduled.tick hlst
  exact ⟨hcalls, h.mono (fun _ _ hb => without_sub hb) h'⟩

theorem Timed.elapse {t : Timing} {p : Pending Fd} (h : Timed t p) (seconds : Nat) :
    Timed { t with clock := t.clock + seconds } p where
  sound := h.sound
  due_le := by
    intro a e fd ha
    have hdue := h.due_le a e fd ha
    show e ≤ t.clock + seconds + 3 * timeslot
    omega
  number := h.number
  slot := h.slot
  due := h.due
  accepted := h.accepted

/-- Traffic on a slot that has no timer. -/
theorem Timed.touch {t : Timing} {p : Pending Fd} {fd : Fd} (h : Timed t p)
    (hut : (t.usersTimer fd).timer = none) :
    Timed { t with lastActive := Function.update t.lastActive fd t.clock } p := by
  have hother : ∀ a e fd', p a = some (e, fd') → fd' ≠ fd := by
    intro a e fd' ha
    rintro rfl
    rw [h.slot a e fd' ha] at hut
    cases hut
  refine ⟨⟨h.sound, h.due_le, h.number⟩, h.slot, ?_, ?_⟩
  · intro a e fd' ha
    show Function.update t.lastActive fd t.clock fd' + 3 * timeslot ≤ e
    rw [Function.update_of_ne (hother a e fd' ha)]
    exact h.due a e fd' ha
  · intro a e fd' ha
    show t.acceptedAt fd' ≤ Function.update t.lastActive fd t.clock fd'
    rw [Function.update_of_ne (hother a e fd' ha)]
    exact h.accepted a e fd' ha

/-- Traffic on a slot: its timer is put off, and there is no other one for the slot. -/
theorem Timed.adjust {t : Timing} {p : Pending Fd} {a : Addr} {fd : Fd} {lst : SortTimerLst Fd}
    (h : Timed t p) (hut : (t.usersTimer fd).timer = some a) (hlive : a ∈ t.timerLst.live)
    (hlst : (t.timerLst.setExpire a (t.clock + 3 * timeslot)).bind
      (fun l => l.adjustTimer (some a)) = some lst) :
    ∃ e slot, p a = some (e, slot) ∧
      Timed { t with lastActive := Function.update t.lastActive fd t.clock, timerLst := lst }
        (Function.update p a (some (t.clock + 3 * timeslot, slot))) := by
  obtain ⟨e, slot, ha, hsched⟩ := h.toScheduled.adjust hlive hlst
  have hle := h.due_le a e slot ha
  have hdue := h.due a e slot ha
  have hacc := h.accepted a e slot ha
  -- an entry for another timer is for another slot
  have hother : ∀ b e' fd', b ≠ a → p b = some (e', fd') → fd' ≠ fd := by
    intro b e' fd' hba hb
    rintro rfl
    rw [h.slot b e' fd' hb, Option.some.injEq] at hut
    exact hba hut
  refine ⟨e, slot, ha, ⟨hsched.sound, hsched.due_le, hsched.number⟩, ?_, ?_, ?_⟩
  · intro b e' fd' hb
    rcases update_some_cases hb with ⟨rfl, hx⟩ | ⟨-, hb⟩
    · obtain ⟨rfl, rfl⟩ := Prod.mk.injEq .. ▸ hx
      exact h.slot b e fd' ha
    · exact h.slot b e' fd' hb
  · intro b e' fd' hb
    show Function.update t.lastActive fd t.clock fd' + 3 * timeslot ≤ e'
    rcases update_some_cases hb with ⟨-, hx⟩ | ⟨hba, hb⟩
    · obtain ⟨rfl, rfl⟩ := Prod.mk.injEq .. ▸ hx
      by_cases hslot : fd' = fd
      · rw [hslot, Function.update_self]
      · rw [Function.update_of_ne hslot]
        omega
    · rw [Function.update_of_ne (hother b e' fd' hba hb)]
      exact h.due b e' fd' hb
  · intro b e' fd' hb
    show t.acceptedAt fd' ≤ Function.update t.lastActive fd t.clock fd'
    rcases update_some_cases hb with ⟨-, hx⟩ | ⟨hba, hb⟩
    · obtain ⟨rfl, rfl⟩ := Prod.mk.injEq .. ▸ hx
      by_cases hslot : fd' = fd
      · subst hslot
        rw [Function.update_self]
        omega
      · rw [Function.update_of_ne hslot]
        exact hacc
    · rw [Function.update_of_ne (hother b e' fd' hba hb)]
      exact h.accepted b e' fd' hb

/-- An accept into a slot that no pending timer names. -/
theorem Timed.accept {t : Timing} {p : Pending Fd} {timer : Addr} {connfd : Fd}
    {lst : SortTimerLst Fd} (h : Timed t p) (hfree : ∀ a e, p a ≠ some (e, connfd))
    (hnew : timer ∉ t.timerLst.live)
    (hlst : (t.timerLst.alloc timer (t.clock + 3 * timeslot) connfd).addTimer (some timer) =
      some lst) :
    p timer = none ∧ Timed
      { timerLst := lst
        usersTimer := Function.update t.usersTimer connfd ⟨connfd, some timer⟩
        clock := t.clock
        acceptedAt := Function.update t.acceptedAt connfd t.clock
        lastActive := Function.update t.lastActive connfd t.clock }
      (Function.update p timer (some (t.clock + 3 * timeslot, connfd))) := by
  obtain ⟨hfresh, hsched⟩ := h.toScheduled.accept hnew hlst
  have hother : ∀ b e fd, p b = some (e, fd) → fd ≠ connfd := by
    intro b e fd hb
    rintro rfl
    exact hfree b e hb
  refine ⟨hfresh, hsched, ?_, ?_, ?_⟩
  · intro b e fd hb
    show Function.update t.usersTimer connfd ⟨connfd, some timer⟩ fd = ⟨fd, some b⟩
    rcases update_some_cases hb with ⟨rfl, hx⟩ | ⟨-, hb⟩
    · obtain ⟨-, rfl⟩ := Prod.mk.injEq .. ▸ hx
      exact Function.update_self ..
    · rw [Function.update_of_ne (hother b e fd hb)]
      exact h.slot b e fd hb
  · intro b e fd hb
    show Function.update t.lastActive connfd t.clock fd + 3 * timeslot ≤ e
    rcases update_some_cases hb with ⟨-, hx⟩ | ⟨-, hb⟩
    · obtain ⟨rfl, rfl⟩ := Prod.mk.injEq .. ▸ hx
      rw [Function.update_self]
    · rw [Function.update_of_ne (hother b e fd hb)]
      exact h.due b e fd hb
  · intro b e fd hb
    show Function.update t.acceptedAt connfd t.clock fd ≤
      Function.update t.lastActive connfd t.clock fd
    rcases update_some_cases hb with ⟨-, hx⟩ | ⟨-, hb⟩
    · obtain ⟨-, rfl⟩ := Prod.mk.injEq .. ▸ hx
      rw [Function.update_self, Function.update_self]
    · rw [Function.update_of_ne (hother b e fd hb), Function.update_of_ne (hother b e fd hb)]
      exact h.accepted b e fd hb

/-- Every step keeps the timers with their connections, except an accept into a slot that a
pending timer names. -/
theorem Timed.step {t t' : Timing} {p : Pending Fd} {accepted : Option Fd} (h : Timed t p)
    (hfree : ∀ connfd, accepted = some connfd → ∀ a e, p a ≠ some (e, connfd))
    (hs : TimingStep t accepted t') : ∃ p', Timed t' p' := by
  cases hs with
  | same => exact ⟨p, h⟩
  | elapse seconds => exact ⟨p, h.elapse seconds⟩
  | drop a lst hlive hlst => exact ⟨_, h.drop hlive hlst⟩
  | touch fd hut => exact ⟨p, h.touch hut⟩
  | adjust fd a lst hut hlive hlst =>
    obtain ⟨e, slot, -, h'⟩ := h.adjust hut hlive hlst
    exact ⟨_, h'⟩
  | accept connfd timer lst hnew hlst => exact ⟨_, (h.accept (hfree connfd rfl) hnew hlst).2⟩
  | tick calls lst hlst => exact ⟨_, (h.tick hlst).2⟩

-- ---------------------------------------------------------------------------
-- The server runs the timers
-- ---------------------------------------------------------------------------

@[simp] theorem closeFd_timing (s : State C) (fd : Fd) : (s.closeFd fd).timing = s.timing := by
  unfold State.closeFd
  split <;> rfl

@[simp] theorem modfd_timing (s : State C) (fd : Option Fd) (ev : Interest) :
    (s.modfd fd ev).timing = s.timing := by
  obtain ⟨armed, h⟩ := modfd_eq s fd ev
  rw [h]
  rfl

@[simp] theorem append_timing (s : State C) (fd : Fd) : (s.append fd).timing = s.timing := by
  unfold State.append
  split <;> rfl

@[simp] theorem cbFunc_timing (s : State C) (slot : Fd) : (s.cbFunc slot).timing = s.timing :=
  closeFd_timing s _

@[simp] theorem closeConn_timing (s : State C) (slot : Fd) :
    (s.closeConn slot).timing = s.timing := by
  unfold State.closeConn
  split
  · rfl
  · exact closeFd_timing s _

theorem foldl_cbFunc_timing (s : State C) (calls : List (Addr × Fd)) :
    (calls.foldl (fun s call => s.cbFunc call.2) s).timing = s.timing := by
  induction calls generalizing s with
  | nil => rfl
  | cons call calls ih => rw [List.foldl_cons, ih, cbFunc_timing]

theorem foldl_signal_timing (s : State C) (signals : List Signal) :
    (signals.foldl State.signal s).timing = s.timing := by
  obtain ⟨timeout, stopServer, h⟩ := foldl_signal_eq s signals
  rw [h]
  rfl

theorem dropClient_timing {s s' : State C} {fd : Fd} (hs : s.dropClient fd = some s') :
    TimingStep s.timing none s'.timing := by
  obtain ⟨a, lst, -, hlive, hlst, rfl⟩ := dropClient_eq hs
  have hkeep := cbFunc_timing s fd
  have hkeep' : (s.cbFunc fd).timerLst = s.timerLst := congrArg Timing.timerLst hkeep
  rw [hkeep'] at hlst
  have h := TimingStep.drop (t := s.timing) a lst hlive hlst
  rw [← hkeep] at h ⊢
  exact h

theorem adjustTimer_timing {s s' : State C} {fd : Fd} (hs : s.adjustTimer fd = some s') :
    TimingStep s.timing none s'.timing := by
  obtain ⟨lst, rfl, ⟨hut, rfl⟩ | ⟨a, hut, hlive, hlst⟩⟩ := adjustTimer_eq hs
  · exact .touch fd hut
  · exact .adjust fd a lst hut hlive hlst

theorem client_timing {ops : ConnOps C I} {s s' : State C} {fd : Fd} {mask : EventMask}
    {input : I} (hs : ClientStep ops s fd mask input s') : TimingStep s.timing none s'.timing := by
  cases hs with
  | drop users armed harmed hs =>
    exact dropClient_timing (s := { s with users := users, armed := armed }) hs
  | read conn hmask hread hs =>
    have h := adjustTimer_timing hs
    rw [append_timing] at h
    exact h
  | write conn ev hwrite hs =>
    have h := adjustTimer_timing hs
    cases ev with
    | none => exact h
    | some ev =>
      rw [modfd_timing] at h
      exact h
  | nothing hmask => exact .same

/-- **Refinement.** The number an accept returns is none that is open. -/
theorem step_timing {ops : ConnOps C I} {s s' : State C} {l : Label I}
    (hs : step ops s l = some s') :
    ∃ accepted, TimingStep s.timing accepted s'.timing ∧
      ∀ connfd, accepted = some connfd → connfd ∉ s.openFds ∧
        ∃ env, l = .handle env ∧ s.batch.head? = some .listen ∧ env.connfd = some connfd := by
  cases l with
  | elapse seconds =>
    obtain rfl := Option.some.inj hs
    exact ⟨none, .elapse seconds, nofun⟩
  | epollWait events =>
    simp only [step] at hs
    split at hs
    · exact ⟨none, Option.some.inj hs ▸ .same, nofun⟩
    · cases hs
  | handle env =>
    simp only [step] at hs
    split at hs
    · cases hs
    rename_i ev rest hbatch
    cases ev with
    | listen =>
      unfold State.handleEvent at hs
      cases hc : env.connfd with
      | none =>
        simp only [hc, Option.some.injEq] at hs
        exact ⟨none, hs ▸ .same, nofun⟩
      | some connfd =>
        simp only [hc] at hs
        rcases accept_eq hs with rfl | ⟨lst, hopen, hnew, hlst, rfl⟩
        · exact ⟨none, .same, nofun⟩
        refine ⟨some connfd, .accept connfd env.timer lst hnew hlst, ?_⟩
        intro connfd' he
        cases he
        exact ⟨hopen, env, rfl, by rw [hbatch]; rfl, hc⟩
    | pipe signals =>
      obtain rfl := Option.some.inj hs
      rw [foldl_signal_timing]
      exact ⟨none, .same, nofun⟩
    | client fd mask =>
      have h := client_timing (s := { s with batch := rest }) (client_cases hs)
      exact ⟨none, h, nofun⟩
  | timerHandler =>
    simp only [step] at hs
    split at hs
    · split at hs
      · rw [Option.map_eq_some_iff] at hs
        obtain ⟨⟨calls, t⟩, ht, rfl⟩ := hs
        obtain ⟨lst, htick, rfl⟩ := timerHandler_eq ht
        rw [foldl_cbFunc_timing]
        exact ⟨none, .tick calls lst htick, nofun⟩
      · cases hs
    · cases hs
  | takeRequest =>
    simp only [step] at hs
    split at hs
    · cases hs
    split at hs
    · exact ⟨none, Option.some.inj hs ▸ .same, nofun⟩
    · cases hs
  | finishRequest i input =>
    simp only [step] at hs
    split at hs
    · cases hs
    obtain ⟨conn, effect, -, rfl⟩ := finish_cases hs
    cases effect with
    | modfd ev =>
      rw [modfd_timing]
      exact ⟨none, .same, nofun⟩
    | closeConn =>
      -- the socket is closed, its timer stays
      rw [closeConn_timing]
      exact ⟨none, .same, nofun⟩

-- ---------------------------------------------------------------------------
-- Runs
-- ---------------------------------------------------------------------------

/-- The step does not accept a number that a linked timer names. -/
def NumberUnlinked (s : State C) (l : Label I) : Prop :=
  ∀ env connfd, l = .handle env → s.batch.head? = some .listen → env.connfd = some connfd →
    ∀ xs, IsChain s.timerLst xs → ∀ a ∈ xs, (s.timerLst.node a).userData ≠ connfd

theorem timed_initial {s : State C} (h : Initial s) : Timed s.timing fun _ => none := by
  obtain ⟨garbage, hlst⟩ := h.timerLst
  refine ⟨⟨?_, ?_, ?_⟩, ?_, ?_, ?_⟩
  · rw [State.timing, hlst]
    exact ⟨[], represents_empty garbage, List.Pairwise.nil⟩
  all_goals
    intro a e fd hp
    cases hp

/-- **Run lemma** for the list, under any condition on the steps. -/
theorem scheduled_reachable {ops : ConnOps C I} {ok : State C → Label I → Prop} {s : State C}
    (h : Reachable Initial (step ops) ok s) : ∃ p, Scheduled s.timing p := by
  refine h.invariant (P := fun s => ∃ p, Scheduled s.timing p) ?_ ?_
  · exact fun t ht => ⟨_, (timed_initial ht).toScheduled⟩
  intro t l t' ht _ hs
  obtain ⟨p, ht⟩ := ht
  obtain ⟨accepted, htiming, -⟩ := step_timing hs
  exact ht.step htiming

/-- **Run lemma** for the slots. -/
theorem timed_reachable {ops : ConnOps C I} {s : State C}
    (h : Reachable Initial (step ops) NumberUnlinked s) : ∃ p, Timed s.timing p := by
  refine h.invariant (P := fun s => ∃ p, Timed s.timing p) ?_ ?_
  · exact fun t ht => ⟨_, timed_initial ht⟩
  intro t l t' ht hok hs
  obtain ⟨p, ht⟩ := ht
  obtain ⟨accepted, htiming, haccept⟩ := step_timing hs
  refine ht.step ?_ htiming
  intro connfd he a e ha
  obtain ⟨-, env, rfl, hhead, hc⟩ := haccept connfd he
  obtain ⟨xs, hchain, -, hmem, htable, -⟩ := sound_chain ht.sound
  have hax : a ∈ xs := (hmem a).mpr ⟨e, connfd, ha⟩
  have hdata := htable a hax
  rw [ha, Option.some.injEq, Prod.mk.injEq] at hdata
  exact hok env connfd rfl hhead hc xs hchain a hax hdata.2.symm

/-- The callbacks of a tick are those of linked timers that are due. -/
theorem Scheduled.linked {s s' : State C} {p : Pending Fd} {calls : List (Addr × Fd)}
    (h : Scheduled s.timing p) (hs : s.timerHandler = some (calls, s')) {a : Addr} {slot : Fd}
    (hm : (a, slot) ∈ calls) :
    (s.usersTimer slot).sockfd = slot ∧ ∃ xs, IsChain s.timerLst xs ∧ a ∈ xs ∧
      (s.timerLst.node a).userData = slot ∧ (s.timerLst.node a).expire ≤ s.clock := by
  obtain ⟨lst, htick, -⟩ := timerHandler_eq hs
  obtain ⟨hcalls, -⟩ := h.tick htick
  obtain ⟨e, hp, hle⟩ := (hcalls.2.1 a slot).mp hm
  obtain ⟨xs, hchain, -, hmem, htable, -⟩ := sound_chain h.sound
  have hax : a ∈ xs := (hmem a).mpr ⟨e, slot, hp⟩
  have hdata := htable a hax
  rw [hp, Option.some.injEq, Prod.mk.injEq] at hdata
  obtain ⟨rfl, rfl⟩ := hdata
  exact ⟨h.number a _ _ hp, xs, hchain, hax, rfl, hle⟩

/-- The callbacks of a tick are for slots whose connections are idle. -/
theorem Timed.idle {s s' : State C} {p : Pending Fd} {calls : List (Addr × Fd)}
    (h : Timed s.timing p) (hs : s.timerHandler = some (calls, s')) {a : Addr} {slot : Fd}
    (hm : (a, slot) ∈ calls) :
    (s.usersTimer slot).sockfd = slot ∧ s.acceptedAt slot + 3 * timeslot ≤ s.clock ∧
      s.lastActive slot + 3 * timeslot ≤ s.clock := by
  obtain ⟨lst, htick, -⟩ := timerHandler_eq hs
  obtain ⟨hcalls, -⟩ := h.tick htick
  obtain ⟨e, hp, hle⟩ := (hcalls.2.1 a slot).mp hm
  have hut : s.usersTimer slot = ⟨slot, some a⟩ := h.slot a e slot hp
  have hacc : s.acceptedAt slot ≤ s.lastActive slot := h.accepted a e slot hp
  have hdue : s.lastActive slot + 3 * timeslot ≤ e := h.due a e slot hp
  replace hle : e ≤ s.clock := hle
  exact ⟨by rw [hut], by omega, by omega⟩

end TinyHTTP.Server
