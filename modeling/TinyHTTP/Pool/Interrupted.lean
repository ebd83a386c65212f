import TinyHTTP.Pool.ConnectionPool

/-!
# TinyHTTP — waits for a connection that a signal interrupts

The handler of `SIGALRM` is installed without `SA_RESTART`, so `reserve.wait()` may
return false and leave the semaphore as it is. `GetConnection` does not look at the
result and goes on to the list.

* `claims_step` — a call that is past its wait claims an element of the list until
  it takes one.
* `interrupted_takes` — as long as calls get past their wait only where the list has
  an element for each, `front` and `pop_front` always find one.
* `few_interrupted` — so it is with a connection for each thread.
-/

namespace TinyHTTP.Pool

open TinyHTTP.Lib

variable {ι Con : Type}

/-- A thread runs its next statement, or a signal interrupts its `reserve.wait()`. -/
inductive PoolEvent (ι : Type) where
  | run (i : ι)
  | interrupt (i : ι)

@[simp] def PoolEvent.thread : PoolEvent ι → ι
  | .run i => i
  | .interrupt i => i

section
variable [DecidableEq ι]

/-- A statement of the pool. An interrupted `wait` does not decrement the semaphore, and
`GetConnection` goes on to `lock.lock()`. -/
def ConnectionPool.stepInterrupted (s : ConnectionPool ι Con) :
    PoolEvent ι → Option (ConnectionPool ι Con)
  | .run i => s.step i
  | .interrupt i =>
    match s.pc i with
    | .waiting => some (s.goto i .awake)
    | _ => none

end

-- ---------------------------------------------------------------------------
-- Claims
-- ---------------------------------------------------------------------------

/-- The thread is past `reserve.wait()` and has not taken an element of the list yet. -/
@[simp] def PoolPc.claims : PoolPc Con → Nat
  | .awake | .atFront | .atPop _ => 1
  | _ => 0

/-- The thread holds the lock to append an element. -/
@[simp] def PoolPc.pushing : PoolPc Con → Nat
  | .atPush _ => 1
  | _ => 0

/-- A call gets past its wait only where the list, with what is being appended to it, has more
elements than other calls claim. -/
def Covered [Fintype ι] (s : ConnectionPool ι Con) (e : PoolEvent ι) : Prop :=
  s.pc e.thread = .waiting →
    total PoolPc.claims s.pc < s.connList.length + total PoolPc.pushing s.pc

instance [Fintype ι] [DecidableEq Con] (s : ConnectionPool ι Con) (e : PoolEvent ι) :
    Decidable (Covered s e) :=
  inferInstanceAs (Decidable (_ → _))

section
variable [DecidableEq ι] {s s' : ConnectionPool ι Con} {i : ι}

/-- Apart from the end of a wait, no statement claims more than it brings. -/
theorem ConnectionPool.step_claims (hs : s.step i = some s') (hpc : s.pc i ≠ .waiting) :
    (s'.pc i).claims + s.connList.length + (s.pc i).pushing ≤
      (s.pc i).claims + s'.connList.length + (s'.pc i).pushing := by
  unfold ConnectionPool.step ConnectionPool.goto at hs
  split at hs <;> try split at hs
  all_goals cases hs
  all_goals simp_all [Nat.add_comm]

theorem ConnectionPool.step_waiting (hs : s.step i = some s') (hpc : s.pc i = .waiting) :
    s'.connList = s.connList ∧ s'.pc i = .awake := by
  unfold ConnectionPool.step ConnectionPool.goto at hs
  simp only [hpc] at hs
  split at hs
  · cases hs
    exact ⟨rfl, Function.update_self ..⟩
  · cases hs

end

-- ---------------------------------------------------------------------------
-- Runs
-- ---------------------------------------------------------------------------

/-- The books, and an element of the list for each claim. -/
structure Backed [Fintype ι] (conns : List Con) (s : ConnectionPool ι Con) : Prop where
  accounts : Accounts conns s
  claims : total PoolPc.claims s.pc ≤ s.connList.length + total PoolPc.pushing s.pc

namespace Backed

variable [Fintype ι] {conns : List Con} {s s' : ConnectionPool ι Con} {i : ι}

/-- With the lock held for it, nothing else is being appended. -/
theorem takes (h : Backed conns s) (hi : (s.pc i).Takes) : s.connList ≠ [] := by
  intro hnil
  have hin : (s.pc i).InLock := by
    revert hi
    cases s.pc i <;> simp [PoolPc.Takes]
  have hlt : total PoolPc.pushing s.pc < total PoolPc.claims s.pc := by
    refine h.accounts.lock.total_lt hin ?_ ?_
    · intro p hp
      cases p <;> simp at hp ⊢
    · revert hi
      cases s.pc i <;> simp [PoolPc.Takes]
  have hclaims := h.claims
  rw [hnil, List.length_nil] at hclaims
  omega

variable [DecidableEq ι]

/-- **Step lemma.** -/
theorem claims_step (h : Backed conns s) {e : PoolEvent ι} (hcovered : Covered s e)
    (hs : s.stepInterrupted e = some s') : Backed conns s' := by
  have hclaims := h.claims
  cases e with
  | run i =>
    refine ⟨accounts_step h.accounts hs, ?_⟩
    have hupdate := ConnectionPool.step_pc hs
    have hclaim := total_update PoolPc.claims s.pc i (s'.pc i)
    have hpush := total_update PoolPc.pushing s.pc i (s'.pc i)
    rw [← hupdate] at hclaim hpush
    by_cases hpc : s.pc i = .waiting
    · obtain ⟨hlist, hawake⟩ := ConnectionPool.step_waiting hs hpc
      have hroom := hcovered hpc
      simp only [hpc, hawake, PoolPc.claims, PoolPc.pushing] at hclaim hpush
      rw [hlist]
      omega
    · have hlocal := ConnectionPool.step_claims hs hpc
      omega
  | interrupt i =>
    unfold ConnectionPool.stepInterrupted at hs
    simp only at hs
    split at hs
    · rename_i hpc
      cases hs
      have hroom := hcovered hpc
      have hclaim := total_update PoolPc.claims s.pc i .awake
      have hpush := total_update PoolPc.pushing s.pc i .awake
      simp only [hpc, PoolPc.claims, PoolPc.pushing] at hclaim hpush
      refine ⟨?_, ?_⟩
      · refine h.accounts.idle rfl rfl rfl rfl rfl (h.accounts.lock.stay ?_) ?_ ?_ ?_ nofun <;>
          simp [hpc]
      · show total _ (Function.update s.pc i .awake) ≤ s.connList.length +
          total _ (Function.update s.pc i .awake)
        omega
    · cases hs

end Backed

theorem backed_initial [Fintype ι] {connect : Nat → Con} {maxConn : UInt32}
    {s : ConnectionPool ι Con} (h : PoolInitial connect maxConn s) :
    Backed (made connect maxConn) s := by
  refine ⟨(conserved_initial h).accounts, ?_⟩
  have hzero : total PoolPc.claims s.pc = 0 := total_zero fun i => by
    rw [h.outside i]
    rfl
  omega

/-- With no more threads than connections every wait is covered. -/
theorem Accounts.covered [Fintype ι] {conns : List Con} {s : ConnectionPool ι Con}
    (h : Accounts conns s) (hfew : FewThreads s) (e : PoolEvent ι) : Covered s e := by
  intro hpc
  have hlt : total (fun p => PoolPc.claims p + (PoolPc.held p).card) s.pc <
      total PoolPc.uses s.pc := by
    refine total_lt (i := e.thread) ?_ ?_
    · intro j
      cases s.pc j <;> simp
    · rw [hpc]
      exact Nat.zero_lt_one
  have hsum : total (fun p => PoolPc.claims p + (PoolPc.held p).card) s.pc =
      total PoolPc.claims s.pc + total (fun p => (PoolPc.held p).card) s.pc :=
    Finset.sum_add_distrib
  have hheld := h.held_le
  have hmax := h.maxConn
  unfold FewThreads at hfew
  omega

/-- Interrupted waits do no harm to a pool with a connection for each thread. -/
theorem few_interrupted [Fintype ι] [DecidableEq ι] {connect : Nat → Con} {maxConn : UInt32}
    {s : ConnectionPool ι Con} (h : Reachable (PoolInitial connect maxConn)
      ConnectionPool.stepInterrupted (fun t _ => FewThreads t) s) {i : ι}
    (hi : (s.pc i).Takes) : s.connList ≠ [] := by
  have hbacked := h.invariant (P := Backed (made connect maxConn)) (fun _ => backed_initial)
    fun _ e _ ht hfew hs => ht.claims_step (ht.accounts.covered hfew e) hs
  exact hbacked.takes hi

/-- **Covered waits find a connection**, and `FreeConn` counts it. -/
theorem interrupted_takes [Fintype ι] [DecidableEq ι] {connect : Nat → Con} {maxConn : UInt32}
    {s : ConnectionPool ι Con}
    (h : Reachable (PoolInitial connect maxConn) ConnectionPool.stepInterrupted Covered s) :
    (∀ i, (s.pc i).Takes → s.connList ≠ []) ∧
    (∀ i con, s.pc i = .atDecFree con → 1 ≤ s.freeConn.toNat) := by
  have hbacked := h.invariant (P := Backed (made connect maxConn)) (fun _ => backed_initial)
    fun _ _ _ ht hok hs => ht.claims_step hok hs
  exact ⟨fun i => hbacked.takes, fun i con => hbacked.accounts.freeConn_pos⟩

/-- The wait of a thread is interrupted, and it takes the one connection. -/
theorem interrupted_takes_one : ∃ s : ConnectionPool Bool Nat, s.pc true = .atFront ∧
    s.connList ≠ [] := by
  have hrun : (runSteps (guarded (fun s e => decide (Covered s e)) ConnectionPool.stepInterrupted)
      onePool [.run true, .run true, .interrupt true, .run true]).map (fun s => s.pc true) =
      some .atFront := by
    decide +kernel
  obtain ⟨s, hs, hpc⟩ := Option.map_eq_some_iff.mp hrun
  have hreach := Reachable.of_guarded (fun _ _ h => of_decide_eq_true h)
    (.init onePool_initial) hs
  exact ⟨s, hpc, (interrupted_takes hreach).1 true (by rw [hpc]; trivial)⟩

/-- Two threads see one connection in the list. One takes it; the wait of the other is
interrupted, and it asks an empty list for its front. -/
theorem interrupted_empty : ¬ ∀ s : ConnectionPool Bool Nat,
    Reachable (PoolInitial id 1) ConnectionPool.stepInterrupted (fun _ _ => True) s →
    (∀ i, (s.pc i).Takes → s.connList ≠ []) ∧
    (∀ i con, s.pc i = .atDecFree con → 1 ≤ s.freeConn.toNat) := by
  intro hall
  have hrun : (runSteps ConnectionPool.stepInterrupted onePool
      ([.run false, .run false] ++ List.replicate 9 (.run true) ++
        [.interrupt false, .run false])).map (fun s => (s.pc false, s.connList)) =
      some (.atFront, []) := by
    decide +kernel
  obtain ⟨s, hs, hval⟩ := Option.map_eq_some_iff.mp hrun
  obtain ⟨hpc, hlist⟩ := Prod.mk.inj hval
  have hreach := Reachable.of_run (fun _ _ _ => trivial) (.init onePool_initial) hs
  exact (hall s hreach).1 false (by rw [hpc]; trivial) hlist

end TinyHTTP.Pool
