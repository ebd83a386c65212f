import TinyHTTP.Pool.ConnectionPool

/-!
# TinyHTTP — destruction of the pool

`DestroyPool` closes the connections of the list, resets the counters and clears the
list; where it has done so it unlocks before it leaves the branch, and once more after
it. Its statements are interleaved with those of the threads that use the pool.

* `destroyed_step` — a `DestroyPool` that finds the list empty keeps the books.
* `destroyPool_keeps` — what holds as long as every `DestroyPool` does.
-/

namespace TinyHTTP.Pool

open TinyHTTP.Lib

variable {ι Con : Type}

/-- Where a thread is in `DestroyPool`. -/
inductive DestroyPc where
  | idle
  /-- at `lock.lock()` -/
  | atLock
  /-- at `if (connList.size() > 0)` -/
  | atTest
  /-- at the loop of `mysql_close` -/
  | atClose
  /-- at `CurConn = 0` -/
  | atZeroCur
  /-- at `FreeConn = 0` -/
  | atZeroFree
  /-- at `connList.clear()` -/
  | atClear
  /-- at the `lock.unlock()` of the branch -/
  | atUnlock
  /-- at the `lock.unlock()` after the branch -/
  | atLastUnlock
  deriving DecidableEq

structure DestroyedPool (ι Con : Type) where
  pool : ConnectionPool ι Con
  destroy : ι → DestroyPc
  /-- what `mysql_close` has closed -/
  closed : List Con

inductive DestroyEvent (ι : Type) where
  /-- a statement of `GetConnection` or `ReleaseConnection` -/
  | run (i : ι)
  /-- a statement of `DestroyPool` -/
  | destroy (i : ι)

section
variable [DecidableEq ι]

def DestroyedPool.goto (s : DestroyedPool ι Con) (i : ι) (pc : DestroyPc) : DestroyedPool ι Con :=
  { s with destroy := Function.update s.destroy i pc }

/-- The next statement of thread `i` in `DestroyPool`. To unlock a mutex that another thread
holds, or none, is undefined. -/
def DestroyedPool.destroyPool (s : DestroyedPool ι Con) (i : ι) : Option (DestroyedPool ι Con) :=
  match s.destroy i with
  | .idle =>
    match s.pool.pc i with
    | .outside => some (s.goto i .atLock)
    | _ => none
  | .atLock =>
    match s.pool.lock with
    | none => some { s.goto i .atTest with pool := { s.pool with lock := some i } }
    | some _ => none
  | .atTest => some (s.goto i (if s.pool.connList.length > 0 then .atClose else .atLastUnlock))
  | .atClose => some { s.goto i .atZeroCur with closed := s.closed ++ s.pool.connList }
  | .atZeroCur => some { s.goto i .atZeroFree with pool := { s.pool with curConn := 0 } }
  | .atZeroFree => some { s.goto i .atClear with pool := { s.pool with freeConn := 0 } }
  | .atClear => some { s.goto i .atUnlock with pool := { s.pool with connList := [] } }
  | .atUnlock =>
    if s.pool.lock = some i then
      some { s.goto i .atLastUnlock with pool := { s.pool with lock := none } }
    else none
  | .atLastUnlock =>
    if s.pool.lock = some i then
      some { s.goto i .idle with pool := { s.pool with lock := none } }
    else none

/-- A statement of any thread. -/
def DestroyedPool.step (s : DestroyedPool ι Con) : DestroyEvent ι → Option (DestroyedPool ι Con)
  | .run i =>
    match s.destroy i with
    | .idle => (s.pool.step i).map fun pool => { s with pool := pool }
    | _ => none
  | .destroy i => s.destroyPool i

end

/-- The pool after `init`, with no thread in `DestroyPool`. -/
def DestroyedInitial (connect : Nat → Con) (maxConn : UInt32) (s : DestroyedPool ι Con) : Prop :=
  PoolInitial connect maxConn s.pool ∧ ∀ i, s.destroy i = .idle

/-- A `DestroyPool` that tests the list finds it empty. -/
def FindsEmpty (s : DestroyedPool ι Con) (e : DestroyEvent ι) : Prop :=
  match e with
  | .run _ => True
  | .destroy i => s.destroy i = .atTest → s.pool.connList = []

instance [DecidableEq Con] (s : DestroyedPool ι Con) (e : DestroyEvent ι) :
    Decidable (FindsEmpty s e) :=
  match e with
  | .run _ => isTrue trivial
  | .destroy i => inferInstanceAs (Decidable (s.destroy i = .atTest → s.pool.connList = []))

-- ---------------------------------------------------------------------------
-- The books
-- ---------------------------------------------------------------------------

/-- The thread holds the lock for `DestroyPool`. -/
@[simp] def DestroyPc.InLock : DestroyPc → Prop
  | .idle | .atLock => False
  | _ => True

/-- The thread is in the branch that clears the list. -/
@[simp] def DestroyPc.Clears : DestroyPc → Prop
  | .atClose | .atZeroCur | .atZeroFree | .atClear | .atUnlock => True
  | _ => False

/-- The thread is at an `unlock`. -/
def DestroyedPool.Unlocks (s : DestroyedPool ι Con) (i : ι) : Prop :=
  (∃ con, s.pool.pc i = .atUnlock con) ∨ s.pool.pc i = .atRelease ∨
  s.destroy i = .atUnlock ∨ s.destroy i = .atLastUnlock

/-- The lock is given back by its holder, no counter wraps, and with the lock free the counters
are those of the list and of the connections in use. -/
structure Kept [Fintype ι] (s : DestroyedPool ι Con) : Prop where
  unlock : ∀ i, s.Unlocks i → s.pool.lock = some i
  curConn : ∀ i, s.pool.pc i = .atDecCur → 1 ≤ s.pool.curConn.toNat
  freeConn : ∀ i con, s.pool.pc i = .atDecFree con → 1 ≤ s.pool.freeConn.toNat
  counters : s.pool.lock = none → s.pool.freeConn.toNat = s.pool.connList.length ∧
    s.pool.curConn.toNat = total (fun p => (PoolPc.held p).card) s.pool.pc

/-- The books of a pool that `DestroyPool` has found empty. -/
structure Destroyed [Fintype ι] (conns : List Con) (s : DestroyedPool ι Con) : Prop where
  accounts : Accounts conns s.pool
  lock : Guarded DestroyPc.InLock s.pool.lock s.destroy
  outside : ∀ i, s.destroy i ≠ .idle → s.pool.pc i = .outside
  keeps : ∀ i, ¬ (s.destroy i).Clears

/-- Another holder of the lock does not change the books. -/
theorem Accounts.relock [Fintype ι] {conns : List Con} {s : ConnectionPool ι Con}
    (h : Accounts conns s) {lock : Option ι} (hlock : Guarded PoolPc.InLock lock s.pc) :
    Accounts conns { s with lock := lock } :=
  ⟨h.connections, h.freeConn, h.curConn, hlock, h.atPop, h.maxConn⟩

namespace Destroyed

variable [Fintype ι] {conns : List Con} {s s' : DestroyedPool ι Con} {i : ι}

/-- Whoever holds the lock for `DestroyPool` keeps the others out. -/
theorem not_inLock (h : Destroyed conns s) (hi : (s.destroy i).InLock) (j : ι) :
    ¬ (s.pool.pc j).InLock := by
  intro hj
  have hlock := h.accounts.lock j hj
  rw [h.lock i hi] at hlock
  obtain rfl := Option.some.inj hlock
  have hidle : s.destroy i ≠ .idle := by
    intro hidle
    rw [hidle] at hi
    exact hi
  rw [h.outside i hidle] at hj
  exact hj

variable [DecidableEq ι]

/-- A thread moves in `DestroyPool`, and the lock with it. -/
theorem move (h : Destroyed conns s) {p : DestroyPc} {lock : Option ι}
    (hout : s.pool.pc i = .outside) (hpool : Guarded PoolPc.InLock lock s.pool.pc)
    (hlock : Guarded DestroyPc.InLock lock (Function.update s.destroy i p)) (hp : ¬ p.Clears) :
    Destroyed conns { s.goto i p with pool := { s.pool with lock := lock } } := by
  refine ⟨h.accounts.relock hpool, hlock, ?_, ?_⟩
  · refine (Function.forall_update_iff s.destroy fun j q => q ≠ .idle → s.pool.pc j = .outside).mpr
      ⟨fun _ => hout, fun j _ => h.outside j⟩
  · exact (Function.forall_update_iff s.destroy fun _ q => ¬ q.Clears).mpr
      ⟨hp, fun j _ => h.keeps j⟩

theorem goto (h : Destroyed conns s) {p : DestroyPc} (hout : s.pool.pc i = .outside)
    (hlock : p.InLock → (s.destroy i).InLock) (hp : ¬ p.Clears) : Destroyed conns (s.goto i p) :=
  h.move hout h.accounts.lock (h.lock.stay hlock) hp

/-- A statement of a user of the pool. -/
theorem run (h : Destroyed conns s) (hidle : s.destroy i = .idle) {pool : ConnectionPool ι Con}
    (hs : s.pool.step i = some pool) : Destroyed conns { s with pool := pool } := by
  refine ⟨accounts_step h.accounts hs, ?_, ?_, h.keeps⟩
  · have hlock := h.lock
    rcases ConnectionPool.step_lock hs with ⟨hl, -⟩ | ⟨hfree, -, -⟩ | ⟨-, hi, -⟩
    · rw [hl]
      exact hlock
    · rw [hfree] at hlock
      exact .of_not hlock.not_critical
    · exact .of_not fun j hj => h.not_inLock hj i hi
  · intro j hj
    have hji : j ≠ i := by
      rintro rfl
      exact hj hidle
    show pool.pc j = .outside
    rw [ConnectionPool.step_pc hs, Function.update_of_ne hji]
    exact h.outside j hj

end Destroyed

/-- **Step lemma.** -/
theorem destroyed_step [Fintype ι] [DecidableEq ι] {conns : List Con} {s s' : DestroyedPool ι Con}
    {e : DestroyEvent ι} (h : Destroyed conns s) (hempty : FindsEmpty s e)
    (hs : s.step e = some s') : Destroyed conns s' := by
  cases e with
  | run i =>
    unfold DestroyedPool.step at hs
    simp only at hs
    split at hs
    · rename_i hidle
      obtain ⟨pool, hpool, rfl⟩ := Option.map_eq_some_iff.mp hs
      exact h.run hidle hpool
    · cases hs
  | destroy i =>
    have hkeeps := h.keeps i
    replace hs : s.destroyPool i = some s' := hs
    unfold DestroyedPool.destroyPool at hs
    cases hpc : s.destroy i with
    | idle =>
      simp only [hpc] at hs
      split at hs
      · rename_i hout
        cases hs
        exact h.goto hout False.elim id
      · cases hs
    | atLock =>
      have hout := h.outside i (by simp [hpc])
      simp only [hpc] at hs
      split at hs
      · rename_i hfree
        cases hs
        have hlock := h.lock
        have hpool := h.accounts.lock
        rw [hfree] at hlock hpool
        exact h.move hout (.of_not hpool.not_critical) hlock.acquire id
      · cases hs
    | atTest =>
      have hout := h.outside i (by simp [hpc])
      simp only [hpc, hempty hpc, List.length_nil, gt_iff_lt, Nat.lt_irrefl, if_false] at hs
      cases hs
      exact h.goto hout (fun _ => by rw [hpc]; trivial) id
    | atLastUnlock =>
      have hout := h.outside i (by simp [hpc])
      simp only [hpc] at hs
      split at hs
      · cases hs
        have hin : (s.destroy i).InLock := by rw [hpc]; trivial
        exact h.move hout (.of_not (h.not_inLock hin)) (h.lock.release hin id) id
      · cases hs
    | _ =>
      rw [hpc] at hkeeps
      exact absurd trivial hkeeps

theorem destroyed_initial [Fintype ι] {connect : Nat → Con} {maxConn : UInt32}
    {s : DestroyedPool ι Con} (h : DestroyedInitial connect maxConn s) :
    Destroyed (made connect maxConn) s := by
  obtain ⟨hpool, hidle⟩ := h
  refine ⟨(conserved_initial hpool).accounts, .of_not fun i => ?_, ?_, fun i => ?_⟩
  · rw [hidle i]
    exact id
  · exact fun i hi => absurd (hidle i) hi
  · rw [hidle i]
    exact id

theorem Destroyed.kept [Fintype ι] {conns : List Con} {s : DestroyedPool ι Con}
    (h : Destroyed conns s) : Kept s := by
  refine ⟨?_, fun i => h.accounts.curConn_pos, fun i con => h.accounts.freeConn_pos, ?_⟩
  · rintro i (⟨con, hpc⟩ | hpc | hpc | hpc)
    · exact h.accounts.lock i (by rw [hpc]; trivial)
    · exact h.accounts.lock i (by rw [hpc]; trivial)
    · exact h.lock i (by rw [hpc]; trivial)
    · exact h.lock i (by rw [hpc]; trivial)
  · intro hfree
    obtain ⟨hsum, hlist⟩ := h.accounts.counters hfree
    have hheld := h.accounts.held_le
    exact ⟨hlist, by omega⟩

/-- **Destruction of an empty pool.** -/
theorem destroyPool_keeps [Fintype ι] [DecidableEq ι] {connect : Nat → Con} {maxConn : UInt32}
    {s : DestroyedPool ι Con}
    (h : Reachable (DestroyedInitial connect maxConn) DestroyedPool.step FindsEmpty s) : Kept s :=
  (h.invariant (P := Destroyed (made connect maxConn)) (fun _ => destroyed_initial)
    fun _ _ _ ht hempty hs => destroyed_step ht hempty hs).kept

/-- A pool of one connection, and no thread in `DestroyPool`. -/
def oneDestroyed : DestroyedPool Bool Nat := ⟨onePool, fun _ => .idle, []⟩

theorem oneDestroyed_initial : DestroyedInitial id 1 oneDestroyed :=
  ⟨onePool_initial, fun _ => rfl⟩

/-- The pool is destroyed while the connection is in use. -/
theorem destroyPool_keeps_used : ∃ s : DestroyedPool Bool Nat, s.destroy false = .atLastUnlock ∧
    s.pool.lock = some false := by
  have hrun : (runSteps (guarded (fun s e => decide (FindsEmpty s e)) DestroyedPool.step)
      oneDestroyed (List.replicate 9 (.run true) ++ List.replicate 3 (.destroy false))).map
      (fun s => s.destroy false) = some .atLastUnlock := by
    decide +kernel
  obtain ⟨s, hs, hpc⟩ := Option.map_eq_some_iff.mp hrun
  have hreach := Reachable.of_guarded (fun _ _ h => of_decide_eq_true h)
    (.init oneDestroyed_initial) hs
  exact ⟨s, hpc, (destroyPool_keeps hreach).unlock false (.inr (.inr (.inr hpc)))⟩

/-- With a connection in the list `DestroyPool` unlocks twice. -/
theorem destroyPool_unlocks : ¬ ∀ s : DestroyedPool Bool Nat,
    Reachable (DestroyedInitial id 1) DestroyedPool.step (fun _ _ => True) s → Kept s := by
  intro hall
  have hrun : (runSteps DestroyedPool.step oneDestroyed
      (List.replicate 8 (.destroy false))).map (fun s => (s.destroy false, s.pool.lock)) =
      some (.atLastUnlock, none) := by
    decide +kernel
  obtain ⟨s, hs, hval⟩ := Option.map_eq_some_iff.mp hrun
  obtain ⟨hpc, hlock⟩ := Prod.mk.inj hval
  have hreach := Reachable.of_run (fun _ _ _ => trivial) (.init oneDestroyed_initial) hs
  have hholder := (hall s hreach).unlock false (.inr (.inr (.inr hpc)))
  rw [hlock] at hholder
  cases hholder

end TinyHTTP.Pool
