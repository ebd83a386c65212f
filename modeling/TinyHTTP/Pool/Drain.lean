import TinyHTTP.Lib.Inevitable
import TinyHTTP.Pool.ConnectionPool

/-!
# TinyHTTP — the pool comes to rest

A thread in `GetConnection` waits for the semaphore and for the lock, and one that got a
connection keeps it until its `connectionRAII` goes. When no thread comes in any more,
the others get through: whoever waits for the semaphore is waiting for a connection that
some thread is still to give back.

* `ConnectionPool.drain_rank` — every step of a thread inside brings it nearer to its end.
* `Conserved.can_drain` — as long as a thread is inside, some thread can make a step.
* `pool_drains` — so the pool becomes whole again, in every order of the steps.
-/

namespace TinyHTTP.Pool

open TinyHTTP.Lib

variable {ι Con : Type}

/-- The steps of the threads that are inside. -/
def ConnectionPool.drain [DecidableEq ι] (s : ConnectionPool ι Con) (i : ι) :
    Option (ConnectionPool ι Con) :=
  match s.pc i with
  | .outside => none
  | _ => s.step i

/-- How many statements are before the thread. -/
def PoolPc.ahead : PoolPc Con → Nat
  | .outside => 0
  | .null | .atPost => 1
  | .atRelease => 2
  | .atDecCur => 3
  | .atIncFree => 4
  | .atPush _ => 5
  | .atLock _ => 6
  | .holding _ => 7
  | .atUnlock _ => 8
  | .atIncCur _ => 9
  | .atDecFree _ => 10
  | .atPop _ => 11
  | .atFront => 12
  | .awake => 13
  | .waiting => 14
  | .called => 15

/-- Nobody is inside, and the pool has all that it had after `init`. -/
structure Whole (connect : Nat → Con) (maxConn : UInt32) (s : ConnectionPool ι Con) : Prop where
  outside : ∀ i, s.pc i = .outside
  connList : s.connList.Perm (made connect maxConn)
  freeConn : s.freeConn.toNat = maxConn.toNat
  curConn : s.curConn.toNat = 0
  reserve : s.reserve = maxConn.toNat
  lock : s.lock = none

section
variable [DecidableEq ι] {s s' : ConnectionPool ι Con} {i : ι}

theorem ConnectionPool.drain_eq (hs : s.drain i = some s') :
    s.pc i ≠ .outside ∧ s.step i = some s' := by
  unfold ConnectionPool.drain at hs
  split at hs
  · cases hs
  · rename_i hpc
    exact ⟨hpc, hs⟩

theorem ConnectionPool.drain_ahead (hs : s.drain i = some s') :
    (s'.pc i).ahead < (s.pc i).ahead := by
  obtain ⟨hpc, hs⟩ := ConnectionPool.drain_eq hs
  unfold ConnectionPool.step ConnectionPool.goto at hs
  split at hs <;> try split at hs
  all_goals cases hs
  all_goals simp_all [PoolPc.ahead]

variable [Fintype ι]

theorem ConnectionPool.drain_rank (hs : s.drain i = some s') :
    total PoolPc.ahead s'.pc < total PoolPc.ahead s.pc := by
  have hahead := ConnectionPool.drain_ahead hs
  have hupdate := total_update PoolPc.ahead s.pc i (s'.pc i)
  rw [← ConnectionPool.step_pc (ConnectionPool.drain_eq hs).2] at hupdate
  omega

/-- The thread that holds the lock can go on. -/
theorem Conserved.inLock_drains {conns : List Con} (h : Conserved conns s)
    (hi : (s.pc i).InLock) : ∃ s', s.drain i = some s' := by
  cases hpc : s.pc i with
  | atFront =>
    have hne : s.connList ≠ [] := h.takes (i := i) (by rw [hpc]; trivial)
    obtain ⟨con, rest, hlist⟩ := List.exists_cons_of_ne_nil hne
    simp [ConnectionPool.drain, ConnectionPool.step, hpc, hlist]
  | atPop con =>
    have hne : s.connList ≠ [] := h.takes (i := i) (by rw [hpc]; trivial)
    obtain ⟨con', rest, hlist⟩ := List.exists_cons_of_ne_nil hne
    simp [ConnectionPool.drain, ConnectionPool.step, hpc, hlist]
  | atDecFree con | atIncCur con | atUnlock con | atPush con | atIncFree | atDecCur | atRelease =>
    simp [ConnectionPool.drain, ConnectionPool.step, hpc]
  | outside | called | null | waiting | awake | holding con | atLock con | atPost =>
    rw [hpc] at hi
    exact hi.elim

/-- With the lock free, everybody can go on who does not wait for the semaphore. -/
theorem Conserved.free_drains {conns : List Con} (h : Conserved conns s) (hlock : s.lock = none)
    (hout : s.pc i ≠ .outside) (hwait : s.pc i ≠ .waiting) : ∃ s', s.drain i = some s' := by
  have hno : ¬ (s.pc i).InLock := by
    have hexclusive := h.lock
    rw [hlock] at hexclusive
    exact hexclusive.not_critical i
  cases hpc : s.pc i with
  | outside => exact absurd hpc hout
  | waiting => exact absurd hpc hwait
  | called | null | awake | holding con | atLock con | atPost =>
    simp [ConnectionPool.drain, ConnectionPool.step, hpc, hlock]
  | atFront | atPop con | atDecFree con | atIncCur con | atUnlock con | atPush con | atIncFree
  | atDecCur | atRelease =>
    rw [hpc] at hno
    exact absurd trivial hno

/-- Threads that all wait for the semaphore have left every connection in the list. -/
theorem Conserved.waiting_drains {conns : List Con} (h : Conserved conns s) (hconns : conns ≠ [])
    (hall : ∀ j, s.pc j = .outside ∨ s.pc j = .waiting) (hi : s.pc i = .waiting) :
    ∃ s', s.drain i = some s' := by
  have hheld : total (fun p => (PoolPc.held p).card) s.pc = 0 := by
    refine total_zero fun j => ?_
    rcases hall j with hj | hj <;> rw [hj] <;> rfl
  have hticket : total PoolPc.ticket s.pc = 0 := by
    refine total_zero fun j => ?_
    rcases hall j with hj | hj <;> rw [hj] <;> rfl
  have hlength := h.accounts.held_le
  have hreserve := h.reserve
  have hpos := List.length_pos_iff.mpr hconns
  have hsem : 0 < s.reserve := by omega
  simp [ConnectionPool.drain, ConnectionPool.step, hi, hsem]

/-- **Progress.** No order of the steps leads to a deadlock. -/
theorem Conserved.can_drain {conns : List Con} (h : Conserved conns s) (hconns : conns ≠ [])
    (hi : s.pc i ≠ .outside) : ∃ j s', s.drain j = some s' := by
  cases hlock : s.lock with
  | some j =>
    obtain ⟨s', hs'⟩ := h.inLock_drains ((h.lock j).mpr hlock)
    exact ⟨j, s', hs'⟩
  | none =>
    by_cases hbusy : ∃ j, s.pc j ≠ .outside ∧ s.pc j ≠ .waiting
    · obtain ⟨j, hout, hwait⟩ := hbusy
      obtain ⟨s', hs'⟩ := h.free_drains hlock hout hwait
      exact ⟨j, s', hs'⟩
    · push Not at hbusy
      obtain ⟨s', hs'⟩ := h.waiting_drains hconns
        (fun j => (em (s.pc j = .outside)).imp_right (hbusy j)) (hbusy i hi)
      exact ⟨i, s', hs'⟩

omit [DecidableEq ι] in
theorem Conserved.whole {connect : Nat → Con} {maxConn : UInt32}
    (h : Conserved (made connect maxConn) s) (hout : ∀ i, s.pc i = .outside) :
    Whole connect maxConn s := by
  have hheld : total PoolPc.held s.pc = 0 := total_zero fun i => by rw [hout i]; rfl
  have hfree : total PoolPc.notFree s.pc = 0 := total_zero fun i => by rw [hout i]; rfl
  have hcur : total PoolPc.current s.pc = 0 := total_zero fun i => by rw [hout i]; rfl
  have hticket : total PoolPc.ticket s.pc = 0 := total_zero fun i => by rw [hout i]; rfl
  have hlist := h.connections
  rw [hheld, add_zero, Multiset.coe_eq_coe] at hlist
  have hlength := hlist.length_eq
  rw [made_length] at hlength
  have hfreeConn := h.freeConn
  rw [made_length] at hfreeConn
  have hreserve := h.reserve
  refine ⟨hout, hlist, by omega, h.curConn.trans hcur, by omega, ?_⟩
  cases hlock : s.lock with
  | none => rfl
  | some i =>
    have hin := (h.lock i).mpr hlock
    rw [hout i] at hin
    exact hin.elim

/-- **The pool comes to rest.** From every state of every run, when no thread comes in any more,
all that are inside get out, in every order of their steps, and leave the pool with all its
connections. -/
theorem pool_drains {connect : Nat → Con} {maxConn : UInt32}
    (h : Reachable (PoolInitial connect maxConn) ConnectionPool.step (fun _ _ => True) s) :
    Inevitable ConnectionPool.drain (Whole connect maxConn) s := by
  have hpos : 1 ≤ maxConn :=
    h.invariant (P := fun _ => 1 ≤ maxConn) (fun _ h => h.1) fun _ _ _ h _ _ => h
  have hconns : made connect maxConn ≠ [] := by
    rw [← List.length_pos_iff, made_length]
    exact UInt32.le_iff_toNat_le.mp hpos
  refine @Inevitable.of_rank _ _ _ _ (fun s n => Conserved (made connect maxConn) s ∧
    total PoolPc.ahead s.pc = n) ?_ _ _ ⟨conserved_reachable h, rfl⟩
  rintro s n ⟨hbooks, rfl⟩
  by_cases hout : ∀ i, s.pc i = .outside
  · exact .inl (hbooks.whole hout)
  · push Not at hout
    obtain ⟨i, hi⟩ := hout
    refine .inr ⟨hbooks.can_drain hconns hi, fun j s' hs => ?_⟩
    exact ⟨_, ConnectionPool.drain_rank hs,
      conserved_step hbooks (ConnectionPool.drain_eq hs).2, rfl⟩

end

/-- One thread waits for the only connection, which the other one has. -/
theorem pool_drains_waiting : ∃ s : ConnectionPool Bool Nat,
    (s.pc false = .waiting ∧ s.pc true = .holding 0 ∧ s.reserve = 0) ∧
    Inevitable ConnectionPool.drain (Whole id 1) s := by
  have hrun : (runSteps ConnectionPool.step onePool
      ([false, false] ++ List.replicate 9 true)).map
      (fun s => (s.pc false, s.pc true, s.reserve)) = some (.waiting, .holding 0, 0) := by
    decide +kernel
  obtain ⟨s, hs, hval⟩ := Option.map_eq_some_iff.mp hrun
  simp only [Prod.mk.injEq] at hval
  exact ⟨s, hval, pool_drains (.of_run (fun _ _ _ => trivial) (.init onePool_initial) hs)⟩

end TinyHTTP.Pool
