import Mathlib.Data.Int.CardIntervalMod
import TinyHTTP.Version02.Ownership

/-!
# TinyHTTP — version_02: where connections go, and where they stay

`main` deals out the sockets in turn; a failed `accept` or `epoll_add` costs a thread its
turn. What a thread does with an event depends on the bits being those it has asked for
and no other, so a client that has hung up is never looked at, and its descriptor stays
open.

* `round_robin` — the shares of the threads.
* `hung_up_stays_open` — a connection whose events all have another bit.
-/

namespace TinyHTTP.Version02

open TinyHTTP.Lib

-- ---------------------------------------------------------------------------
-- Turns
-- ---------------------------------------------------------------------------

/-- The number of connections that the epoll set of a thread has been given. -/
def Loop.share (s : Loop) (t : Nat) : Nat := (s.given t).length

/-- The turn that `main` is in. -/
def MainPc.turn : MainPc → Nat
  | .accepting i | .adding i _ => i

/-- `main` has had so many turns, and each thread its own: it has got a connection in them, or a
call has failed. -/
structure Dealt (s : Loop) (turns : Nat) : Prop where
  turn : s.main.turn = turns % s.threads
  share : ∀ t, ∃ missed ≤ s.failed + s.unplaced,
    s.share t + missed = Nat.count (· % s.threads = t) turns

section
variable {conf : ConfHttp} {s s' : Loop} {l : LoopLabel} {turns : Nat}

/-- The loop of `main` counts modulo the number of threads. -/
theorem nextTurn_eq (hpos : 0 < s.threads) {i turns : Nat} (hi : i = turns % s.threads) :
    s.nextTurn i = (turns + 1) % s.threads := by
  have hlt : i < s.threads := hi ▸ Nat.mod_lt _ hpos
  rw [Loop.nextTurn, Nat.add_mod, ← hi]
  split
  · rename_i hnext
    by_cases hone : s.threads = 1
    · omega
    · rw [Nat.mod_eq_of_lt (show 1 < s.threads by omega), Nat.mod_eq_of_lt hnext]
  · rename_i hlast
    have heq : i + 1 = s.threads := by omega
    by_cases hone : s.threads = 1
    · rw [hone, Nat.mod_one]
    · rw [Nat.mod_eq_of_lt (show 1 < s.threads by omega), heq, Nat.mod_self]

theorem dealt_initial (h : LoopInitial s) : Dealt s 0 where
  turn := by
    rw [h.main, Nat.zero_mod]
    rfl
  share := by
    intro t
    refine ⟨0, Nat.zero_le _, ?_⟩
    rw [Loop.share, h.given]
    rfl

/-- The turn goes on, or it is a step of a thread. -/
theorem Dealt.congr (h : Dealt s turns) (hmain : s'.main.turn = s.main.turn)
    (hthreads : s'.threads = s.threads) (hfailed : s'.failed = s.failed)
    (hunplaced : s'.unplaced = s.unplaced) (hgiven : s'.given = s.given) : Dealt s' turns where
  turn := by
    rw [hmain, hthreads]
    exact h.turn
  share := by
    unfold Loop.share
    rw [hfailed, hunplaced, hthreads, hgiven]
    exact h.share

/-- A call of `accept` or of `epoll_add` fails: the thread misses its turn. -/
theorem Dealt.miss (h : Dealt s turns) (hpos : 0 < s.threads)
    (hmain : s'.main = .accepting (s.nextTurn s.main.turn)) (hthreads : s'.threads = s.threads)
    (hmissed : s'.failed + s'.unplaced = s.failed + s.unplaced + 1) (hgiven : s'.given = s.given) :
    Dealt s' (turns + 1) where
  turn := by
    rw [hmain, hthreads]
    exact nextTurn_eq hpos h.turn
  share := by
    intro t
    obtain ⟨missed, hle, hshare⟩ := h.share t
    refine ⟨missed + if turns % s.threads = t then 1 else 0, ?_, ?_⟩
    · rw [hmissed]
      split <;> omega
    · rw [Loop.share, hgiven, hthreads, Nat.count_succ, ← hshare, Loop.share, Nat.add_assoc]

/-- A set gets its connection. -/
theorem Dealt.give (h : Dealt s turns) (hpos : 0 < s.threads) {i k : Nat} (hi : s.main.turn = i)
    (hmain : s'.main = .accepting (s.nextTurn i)) (hthreads : s'.threads = s.threads)
    (hfailed : s'.failed = s.failed) (hunplaced : s'.unplaced = s.unplaced)
    (hgiven : s'.given = Function.update s.given i (s.given i ++ [k])) : Dealt s' (turns + 1) where
  turn := by
    rw [hmain, hthreads]
    exact nextTurn_eq hpos (hi.symm.trans h.turn)
  share := by
    intro t
    obtain ⟨missed, hle, hshare⟩ := h.share t
    refine ⟨missed, by rwa [hfailed, hunplaced], ?_⟩
    have hturn : turns % s.threads = i := h.turn.symm.trans hi
    rw [Loop.share, hgiven, hthreads, Nat.count_succ, hturn, ← hshare]
    by_cases ht : i = t
    · subst ht
      rw [Function.update_self, List.length_append, if_pos rfl, Nat.add_right_comm]
      rfl
    · rw [Function.update_of_ne (Ne.symm ht), if_neg ht]
      rfl

/-- What a step leaves alone. -/
theorem noteTaken_eq (s : Loop) (fd : Fd) (received : Received) :
    ∃ taken, s.noteTaken fd received = { s with taken } := by
  unfold Loop.noteTaken
  split
  · exact ⟨s.taken, rfl⟩
  · exact ⟨_, rfl⟩

theorem noteSent_eq (s : Loop) (fd : Fd) (bs : List UInt8) :
    ∃ sent, s.noteSent fd bs = { s with sent } := by
  unfold Loop.noteSent
  split
  · exact ⟨s.sent, rfl⟩
  · exact ⟨_, rfl⟩

theorem dealt_step (h : Dealt s turns) (hpos : 0 < s.threads) (hs : s.step l = some s') :
    ∃ turns', Dealt s' turns' := by
  cases loop_cases hs with
  | accept hmain hfree => exact ⟨turns, h.congr (by rw [hmain]; rfl) rfl rfl rfl rfl⟩
  | acceptFails hmain =>
    refine ⟨turns + 1, h.miss hpos ?_ rfl (Nat.add_right_comm ..) rfl⟩
    rw [hmain]
    rfl
  | added hmain hnone =>
    refine ⟨turns + 1, h.give hpos ?_ rfl rfl rfl rfl rfl⟩
    rw [hmain]
    rfl
  | notAdded hmain =>
    refine ⟨turns + 1, h.miss hpos ?_ rfl (Nat.add_assoc ..).symm rfl⟩
    rw [hmain]
    rfl
  | @recvClose t ptr rest stale received hw hrecv =>
    obtain ⟨taken, htaken⟩ := noteTaken_eq s (s.record ptr).fd received
    rw [htaken]
    exact ⟨turns, h.congr rfl rfl rfl rfl rfl⟩
  | @recvData t ptr rest stale received r hw hrecv =>
    obtain ⟨taken, htaken⟩ := noteTaken_eq s (s.record ptr).fd received
    rw [htaken]
    exact ⟨turns, h.congr rfl rfl rfl rfl rfl⟩
  | @send t ptr rest files io r reply after hw hr hreply =>
    obtain ⟨sent, hsent⟩ := noteSent_eq s (s.record ptr).fd reply.sent
    rw [hsent]
    exact ⟨turns, h.congr rfl rfl rfl rfl rfl⟩
  | wait | ignore | mod | notMod | close => exact ⟨turns, h.congr rfl rfl rfl rfl rfl⟩

theorem threads_step (hs : s.step l = some s') : s'.threads = s.threads := by
  cases loop_cases hs with
  | @recvClose t ptr rest stale received hw hrecv =>
    obtain ⟨taken, htaken⟩ := noteTaken_eq s (s.record ptr).fd received
    rw [htaken]
    rfl
  | @recvData t ptr rest stale received r hw hrecv =>
    obtain ⟨taken, htaken⟩ := noteTaken_eq s (s.record ptr).fd received
    rw [htaken]
    rfl
  | @send t ptr rest files io r reply after hw hr hreply =>
    obtain ⟨sent, hsent⟩ := noteSent_eq s (s.record ptr).fd reply.sent
    rw [hsent]
    rfl
  | _ => rfl

theorem dealt_runs (h : s.Runs conf) (hpos : 0 < s.threads) : ∃ turns, Dealt s turns := by
  induction h with
  | init h => exact ⟨0, dealt_initial h.1⟩
  | step l _ _ hs ih =>
    rw [threads_step hs] at hpos
    obtain ⟨turns, hdealt⟩ := ih hpos
    exact dealt_step hdealt hpos hs

/-- The turns of two threads differ by one at most. -/
theorem count_turns_le {n : Nat} (hpos : 0 < n) (turns : Nat) {t t' : Nat} (ht : t < n)
    (ht' : t' < n) :
    Nat.count (· % n = t) turns ≤ Nat.count (· % n = t') turns + 1 := by
  have hcount {u : Nat} (hu : u < n) :
      Nat.count (· % n = u) turns = turns / n + if u < turns % n then 1 else 0 := by
    have hmod := Nat.count_modEq_card turns hpos u
    rw [Nat.mod_eq_of_lt hu] at hmod
    rw [← hmod]
    congr 1
    funext j
    rw [Nat.ModEq, Nat.mod_eq_of_lt hu]
  rw [hcount ht, hcount ht']
  split <;> split <;> omega

/-- **The shares of the threads** differ by one at most, and by one more for each call of `accept`
or of `epoll_add` that has failed. -/
theorem round_robin (h : s.Runs conf) {t t' : Nat} (ht : t < s.threads) (ht' : t' < s.threads) :
    s.share t ≤ s.share t' + s.failed + s.unplaced + 1 := by
  obtain ⟨turns, hdealt⟩ := dealt_runs h (Nat.zero_lt_of_lt ht)
  obtain ⟨missed, -, hshare⟩ := hdealt.share t
  obtain ⟨missed', hle, hshare'⟩ := hdealt.share t'
  have hturns := count_turns_le (Nat.zero_lt_of_lt ht) turns ht ht'
  omega

/-- One call of `accept` and one of `epoll_add` fail in the turns of thread 1: three connections go
to thread 0, and none to the other. -/
theorem round_robin_sharp : ∃ s : Loop, s.share 0 = 3 ∧ s.share 1 = 0 ∧ s.failed = 1 ∧
    s.unplaced = 1 ∧ s.share 0 ≤ s.share 1 + s.failed + s.unplaced + 1 := by
  have hrun : (runSteps Loop.step { oneThread defaultConf with threads := 2 }
      [.accept 5, .add true, .acceptFails, .accept 6, .add true, .accept 7, .add false, .accept 8,
        .add true]).any (fun s =>
        decide (s.share 0 = 3 ∧ s.share 1 = 0 ∧ s.failed = 1 ∧ s.unplaced = 1 ∧
          s.threads = 2)) = true := by
    decide +kernel
  obtain ⟨s, hs, hval⟩ := (Option.any_eq_true _ _).mp hrun
  obtain ⟨hzero, hone, hfailed, hunplaced, hthreads⟩ := of_decide_eq_true hval
  have hinit : LoopInitial { oneThread defaultConf with threads := 2 } :=
    { oneThread_initial defaultConf with }
  have hruns : s.Runs defaultConf := Reachable.of_run (fun _ _ _ => trivial) (.init ⟨hinit, rfl⟩) hs
  exact ⟨s, hzero, hone, hfailed, hunplaced, round_robin hruns (by omega) (by omega)⟩

-- ---------------------------------------------------------------------------
-- Events with other bits
-- ---------------------------------------------------------------------------

/-- Every event of the descriptor has a bit that nobody has asked for. -/
def HungUp (fd : Fd) : LoopLabel → Prop
  | .wait _ ready => ∀ e ∈ ready, e.1 = fd → e.2 = .other
  | _ => True

/-- No thread is going to look at the connection, but to pass over it. -/
structure Loop.PassedOver (s : Loop) (k : Nat) : Prop where
  current : ∀ t, (s.worker t).current ≠ some k
  evlist : ∀ t e, (k, e) ∈ (s.worker t).evlist → e = .other

/-- The connection is open, nobody looks at it, and nothing has come of it. -/
structure Stays (conf : ConfHttp) (fd : Fd) (k : Nat) (s u : Loop) : Prop where
  runs : u.Runs conf
  isOpen : u.sockets fd = some k
  passed : u.PassedOver k
  taken : u.taken k = s.taken k
  sent : u.sent k = s.sent k

/-- A thread moves on in its list. -/
theorem Loop.PassedOver.goto {k t : Nat} {pc : WorkerPc} (h : s.PassedOver k)
    (hworker : s'.worker = Function.update s.worker t pc) (hcurrent : pc.current ≠ some k)
    (hevlist : ∀ e, (k, e) ∈ pc.evlist → e = .other) : s'.PassedOver k where
  current := by
    rw [hworker]
    exact forall_thread (P := fun _ pc => pc.current ≠ some k) hcurrent fun u _ => h.current u
  evlist := by
    rw [hworker]
    exact forall_thread (P := fun _ pc => ∀ e, (k, e) ∈ pc.evlist → e = .other) hevlist
      fun u _ => h.evlist u

section
variable {fd : Fd} {k : Nat} {u u' : Loop}

/-- The connections in the hands of a thread that does something are others. -/
theorem Loop.PassedOver.ne_head (h : s.PassedOver k) {t ptr : Nat} {e : Events}
    {rest : List (Nat × Events)} (hw : s.worker t = .next ((ptr, e) :: rest)) (he : e ≠ .other) :
    ptr ≠ k := by
  rintro rfl
  refine he (h.evlist t e ?_)
  rw [hw]
  exact List.mem_cons_self ..

theorem Loop.PassedOver.rest (h : s.PassedOver k) {t ptr : Nat} {e : Events}
    {rest : List (Nat × Events)} (hw : s.worker t = .next ((ptr, e) :: rest)) (e' : Events)
    (he : (k, e') ∈ rest) : e' = .other := by
  refine h.evlist t e' ?_
  rw [hw]
  exact List.mem_cons_of_mem _ he

/-- `main` moves. -/
theorem Stays.main (h : Stays conf fd k s u) (hruns : u'.Runs conf) (hopen : u'.sockets fd = some k)
    (hworker : u'.worker = u.worker) (htaken : u'.taken = u.taken) (hsent : u'.sent = u.sent) :
    Stays conf fd k s u' where
  runs := hruns
  isOpen := hopen
  passed := by
    obtain ⟨hcurrent, hevlist⟩ := h.passed
    exact ⟨hworker ▸ hcurrent, hworker ▸ hevlist⟩
  taken := htaken ▸ h.taken
  sent := hsent ▸ h.sent

/-- A thread does something to another connection. -/
theorem Stays.thread (h : Stays conf fd k s u) (hruns : u'.Runs conf) {t : Nat} {pc : WorkerPc}
    (hopen : u'.sockets fd = u.sockets fd) (hworker : u'.worker = Function.update u.worker t pc)
    (hcurrent : pc.current ≠ some k) (hevlist : ∀ e, (k, e) ∈ pc.evlist → e = .other)
    (htaken : u'.taken k = u.taken k) (hsent : u'.sent k = u.sent k) : Stays conf fd k s u' where
  runs := hruns
  isOpen := hopen.trans h.isOpen
  passed := h.passed.goto hworker hcurrent hevlist
  taken := htaken.trans h.taken
  sent := hsent.trans h.sent

theorem stays_step (h : Stays conf fd k s u) (hok : HungUp fd l) (hs : u.step l = some u') :
    Stays conf fd k s u' := by
  have hruns : u'.Runs conf := .step l h.runs trivial hs
  obtain ⟨D, hserves⟩ := serves_runs h.runs
  have hfd := (hserves.socket fd k h.isOpen).2
  cases loop_cases hs with
  | @accept i sock hmain hfree =>
    refine h.main hruns ?_ rfl rfl rfl
    refine (Function.update_of_ne ?_ ..).trans h.isOpen
    rintro rfl
    cases hfree.symm.trans h.isOpen
  | acceptFails | added | notAdded => exact h.main hruns h.isOpen rfl rfl rfl
  | @wait t ready hw hready =>
    refine h.thread hruns rfl rfl nofun (fun e he => ?_) rfl rfl
    obtain ⟨⟨fd', e'⟩, he', heq⟩ := List.mem_filterMap.mp he
    obtain ⟨r, hr, heq⟩ := Option.map_eq_some_iff.mp heq
    obtain ⟨hptr, rfl⟩ := Prod.mk.inj heq
    refine hok _ he' ?_
    rw [← hfd, ← hptr]
    exact (hserves.fd_eq hr).symm
  | @recvClose t ptr rest stale received hw hrecv =>
    have hne := h.passed.ne_head hw nofun
    have hheld : ptr ∈ (u.worker t).holds := by
      rw [hw]
      exact List.mem_cons_self ..
    rw [hserves.noteTaken hheld] at hruns ⊢
    exact h.thread hruns rfl rfl (fun heq => hne (Option.some.inj heq)) (h.passed.rest hw)
      (Function.update_of_ne (Ne.symm hne) ..) rfl
  | @recvData t ptr rest stale received r hw hrecv =>
    have hne := h.passed.ne_head hw nofun
    have hheld : ptr ∈ (u.worker t).holds := by
      rw [hw]
      exact List.mem_cons_self ..
    rw [hserves.noteTaken hheld] at hruns ⊢
    exact h.thread hruns rfl rfl (fun heq => hne (Option.some.inj heq)) (h.passed.rest hw)
      (Function.update_of_ne (Ne.symm hne) ..) rfl
  | @send t ptr rest files io r reply after hw hr hreply =>
    have hne := h.passed.ne_head hw nofun
    have hheld : ptr ∈ (u.worker t).holds := by
      rw [hw]
      exact List.mem_cons_self ..
    rw [hserves.noteSent hheld] at hruns ⊢
    refine h.thread hruns rfl rfl (fun heq => hne ?_) (fun e he => ?_) rfl
      (Function.update_of_ne (Ne.symm hne) ..)
    · cases after <;> exact Option.some.inj heq
    · cases after <;> exact h.passed.rest hw e he
  | ignore hw => exact h.thread hruns rfl rfl nofun (h.passed.rest hw) rfl rfl
  | @mod t ptr interest rest hw hsome =>
    refine h.thread hruns rfl rfl nofun (fun e he => h.passed.evlist t e ?_) rfl rfl
    rw [hw]
    exact he
  | @notMod t ptr interest rest hw hnone =>
    refine h.thread hruns rfl rfl nofun (fun e he => h.passed.evlist t e ?_) rfl rfl
    rw [hw]
    exact he
  | @close t ptr rest hw =>
    have hheld : ptr ∈ (u.worker t).holds := by
      rw [hw]
      exact List.mem_cons_self ..
    have hopen := (hserves.holds hheld).1
    refine h.thread hruns (Function.update_of_ne ?_ ..) rfl nofun
      (fun e he => h.passed.evlist t e ?_) rfl rfl
    · rintro rfl
      refine h.passed.current t ?_
      rw [hw]
      exact hopen.symm.trans h.isOpen
    · rw [hw]
      exact he

instance (fd : Fd) (l : LoopLabel) : Decidable (HungUp fd l) :=
  match l with
  | .wait _ ready => inferInstanceAs (Decidable (∀ e ∈ ready, e.1 = fd → e.2 = .other))
  | .accept _ | .acceptFails | .add _ | .recv .. | .send .. | .ignore _ | .mod _ | .close _ =>
    inferInstanceAs (Decidable True)

/-- Connection 1 is refused; the events of connection 0 have another bit. -/
def aside : List LoopLabel :=
  [.wait 0 [(5, .other), (6, .epollIn)], .ignore 0, .recv 0 (fun _ => 0) (.data putBlock), .mod 0,
    .wait 0 [(6, .epollOut), (5, .other)],
    .send 0 (fun _ => .missing) ⟨.upTo 4096, none, .eagain, .upTo 4096⟩, .close 0, .ignore 0]

theorem aside_hungUp : ∀ l ∈ aside, HungUp 5 l := by decide

/-- **A client that has hung up** is never looked at: its descriptor stays open in every run in
which its events have a bit more than they should, whatever the other connections do. -/
theorem hung_up_stays_open (h : s.Runs conf) (hopen : s.sockets fd = some k)
    (hpassed : s.PassedOver k)
    (hu : Reachable (· = s) Loop.step (fun _ l => HungUp fd l) u) :
    u.sockets fd = some k ∧ u.taken k = s.taken k ∧ u.sent k = s.sent k := by
  have hstays : Stays conf fd k s u := by
    induction hu with
    | init heq =>
      subst heq
      exact ⟨h, hopen, hpassed, rfl, rfl⟩
    | step l _ hok hs ih => exact stays_step ih hok hs
  exact ⟨hstays.isOpen, hstays.taken, hstays.sent⟩

/-- A client that has gone before it was looked at, and one that is served. -/
theorem hung_up_stays_open_reset : ∃ s u : Loop, u.sockets 5 = some 0 ∧
    u.taken 0 = s.taken 0 ∧ u.sent 0 = s.sent 0 ∧ u.closes = [some 1] := by
  obtain ⟨s, hs, hworker, hopen⟩ : ∃ s, runSteps Loop.step (oneThread defaultConf)
      [.accept 5, .add true, .accept 6, .add true] = some s ∧
      (∀ t, s.worker t = .next []) ∧ s.sockets 5 = some 0 :=
    ⟨_, rfl, fun _ => rfl, rfl⟩
  have hrun : (runSteps Loop.step (oneThread defaultConf)
      ([.accept 5, .add true, .accept 6, .add true] ++ aside)).any (fun u =>
        decide (u.closes = [some 1])) = true := by
    decide +kernel
  obtain ⟨u, hu, hval⟩ := (Option.any_eq_true _ _).mp hrun
  rw [runSteps_append, hs, Option.bind_some] at hu
  have hruns : s.Runs defaultConf := Reachable.of_run (fun _ _ _ => trivial)
    (.init ⟨oneThread_initial defaultConf, rfl⟩) hs
  have hpassed : s.PassedOver 0 := by
    refine ⟨fun t => ?_, fun t e he => ?_⟩
    · rw [hworker]
      exact nofun
    · rw [hworker] at he
      exact absurd he List.not_mem_nil
  have hlater : Reachable (· = s) Loop.step (fun _ l => HungUp 5 l) u :=
    Reachable.of_run (fun l hl _ => aside_hungUp l hl) (.init rfl) hu
  obtain ⟨hstill, htaken, hsent⟩ := hung_up_stays_open hruns hopen hpassed hlater
  exact ⟨s, u, hstill, htaken, hsent, of_decide_eq_true hval⟩

end

end

end TinyHTTP.Version02
