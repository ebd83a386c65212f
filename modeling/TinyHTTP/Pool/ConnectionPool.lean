import TinyHTTP.Lib.Run
import TinyHTTP.Lib.Threads

/-!
# TinyHTTP — the pool of database connections

`GetConnection` tests the list, waits for the semaphore and takes the front of the
list under the lock; `ReleaseConnection` appends under the lock and posts. Every
statement of the two is a step of its own, of any of finitely many threads; each
thread holds the connection of one `connectionRAII` at most.

* `conserved_step` — connections, counters and semaphore are accounted for through
  every step.
* `connections_conserved` — no connection is lost or shared, and none is missing.
-/

namespace TinyHTTP.Pool

open TinyHTTP.Lib

/-- `SEM_VALUE_MAX` -/
def semValueMax : Nat := 2147483647

/-- Where a thread is in the constructor and the destructor of `connectionRAII`. -/
inductive PoolPc (Con : Type) where
  | outside
  /-- at `if (0 == connList.size())` -/
  | called
  /-- `conRAII` is `NULL` -/
  | null
  /-- at `reserve.wait()` -/
  | waiting
  /-- at `lock.lock()` -/
  | awake
  /-- at `connList.front()` -/
  | atFront
  /-- at `connList.pop_front()` -/
  | atPop (con : Con)
  /-- at `--FreeConn` -/
  | atDecFree (con : Con)
  /-- at `++CurConn` -/
  | atIncCur (con : Con)
  /-- at `lock.unlock()` -/
  | atUnlock (con : Con)
  | holding (con : Con)
  /-- in `ReleaseConnection`, at `lock.lock()` -/
  | atLock (con : Con)
  /-- at `connList.push_back(con)` -/
  | atPush (con : Con)
  /-- at `++FreeConn` -/
  | atIncFree
  /-- at `--CurConn` -/
  | atDecCur
  /-- at `lock.unlock()` -/
  | atRelease
  /-- at `reserve.post()` -/
  | atPost
  deriving DecidableEq

structure ConnectionPool (ι Con : Type) where
  connList : List Con
  freeConn : UInt32
  curConn : UInt32
  maxConn : UInt32
  /-- the value of the semaphore `reserve` -/
  reserve : Nat
  /-- the holder of `lock` -/
  lock : Option ι
  pc : ι → PoolPc Con

variable {ι Con : Type}

/-- The loop of `init`; `connect` makes the connections. -/
def initLoop (connect : Nat → Con) : Nat → List Con × UInt32
  | 0 => ([], 0)
  | n + 1 =>
    let (connList, freeConn) := initLoop connect n
    (connList ++ [connect n], freeConn + 1)

/-- `init`, for a pool that the constructor has set to zero. `sem(FreeConn)` throws beyond
`SEM_VALUE_MAX`. -/
def ConnectionPool.init (connect : Nat → Con) (maxConn : UInt32) : Option (ConnectionPool ι Con) :=
  let (connList, freeConn) := initLoop connect maxConn.toNat
  if freeConn.toNat ≤ semValueMax then
    some ⟨connList, freeConn, 0, freeConn, freeConn.toNat, none, fun _ => .outside⟩
  else none

section
variable [DecidableEq ι]

def ConnectionPool.goto (s : ConnectionPool ι Con) (i : ι) (pc : PoolPc Con) :
    ConnectionPool ι Con :=
  { s with pc := Function.update s.pc i pc }

/-- The next statement of thread `i`. `front` and `pop_front` of an empty list are undefined. -/
def ConnectionPool.step (s : ConnectionPool ι Con) (i : ι) : Option (ConnectionPool ι Con) :=
  match s.pc i with
  | .outside => some (s.goto i .called)
  | .called => some (s.goto i (if s.connList.length = 0 then .null else .waiting))
  | .null => some (s.goto i .outside)
  | .waiting =>
    if 0 < s.reserve then some { s.goto i .awake with reserve := s.reserve - 1 } else none
  | .awake =>
    match s.lock with
    | none => some { s.goto i .atFront with lock := some i }
    | some _ => none
  | .atFront =>
    match s.connList with
    | con :: _ => some (s.goto i (.atPop con))
    | [] => none
  | .atPop con =>
    match s.connList with
    | _ :: rest => some { s.goto i (.atDecFree con) with connList := rest }
    | [] => none
  | .atDecFree con => some { s.goto i (.atIncCur con) with freeConn := s.freeConn - 1 }
  | .atIncCur con => some { s.goto i (.atUnlock con) with curConn := s.curConn + 1 }
  | .atUnlock con => some { s.goto i (.holding con) with lock := none }
  | .holding con => some (s.goto i (.atLock con))
  | .atLock con =>
    match s.lock with
    | none => some { s.goto i (.atPush con) with lock := some i }
    | some _ => none
  | .atPush con => some { s.goto i .atIncFree with connList := s.connList ++ [con] }
  | .atIncFree => some { s.goto i .atDecCur with freeConn := s.freeConn + 1 }
  | .atDecCur => some { s.goto i .atRelease with curConn := s.curConn - 1 }
  | .atRelease => some { s.goto i .atPost with lock := none }
  | .atPost => some { s.goto i .outside with reserve := s.reserve + 1 }

end

/-- The pool after `init`. -/
def PoolInitial (connect : Nat → Con) (maxConn : UInt32) (s : ConnectionPool ι Con) : Prop :=
  1 ≤ maxConn ∧ ConnectionPool.init connect maxConn = some s

-- ---------------------------------------------------------------------------
-- Places
-- ---------------------------------------------------------------------------

/-- The connection that a thread has taken off the list. -/
@[simp] def PoolPc.held : PoolPc Con → Multiset Con
  | .atDecFree con | .atIncCur con | .atUnlock con | .holding con | .atLock con | .atPush con =>
    {con}
  | _ => 0

/-- `FreeConn` does not count a connection for this thread. -/
@[simp] def PoolPc.notFree : PoolPc Con → Nat
  | .atIncCur _ | .atUnlock _ | .holding _ | .atLock _ | .atPush _ | .atIncFree => 1
  | _ => 0

/-- `CurConn` counts a connection for this thread. -/
@[simp] def PoolPc.current : PoolPc Con → Nat
  | .atUnlock _ | .holding _ | .atLock _ | .atPush _ | .atIncFree | .atDecCur => 1
  | _ => 0

/-- The thread has decremented the semaphore, or not incremented it yet, for an element of the
list. -/
@[simp] def PoolPc.ticket : PoolPc Con → Nat
  | .awake | .atFront | .atPop _ | .atIncFree | .atDecCur | .atRelease | .atPost => 1
  | _ => 0

/-- The thread holds the lock. -/
@[simp] def PoolPc.InLock : PoolPc Con → Prop
  | .atFront | .atPop _ | .atDecFree _ | .atIncCur _ | .atUnlock _ | .atPush _ | .atIncFree
  | .atDecCur | .atRelease => True
  | _ => False

/-- The thread is at `front` or at `pop_front`. -/
def PoolPc.Takes : PoolPc Con → Prop
  | .atFront | .atPop _ => True
  | _ => False

/-- The books of the pool. -/
structure Conserved [Fintype ι] (conns : List Con) (s : ConnectionPool ι Con) : Prop where
  connections : (s.connList : Multiset Con) + total PoolPc.held s.pc = conns
  freeConn : s.freeConn.toNat + total PoolPc.notFree s.pc = conns.length
  curConn : s.curConn.toNat = total PoolPc.current s.pc
  reserve : s.reserve + total PoolPc.ticket s.pc = s.connList.length
  lock : Exclusive PoolPc.InLock s.lock s.pc
  atPop : ∀ i con, s.pc i = .atPop con → s.connList.head? = some con
  maxConn : s.maxConn.toNat = conns.length

/-- The books without the semaphore, for a lock that others may hold as well. -/
structure Accounts [Fintype ι] (conns : List Con) (s : ConnectionPool ι Con) : Prop where
  connections : (s.connList : Multiset Con) + total PoolPc.held s.pc = conns
  freeConn : s.freeConn.toNat + total PoolPc.notFree s.pc = conns.length
  curConn : s.curConn.toNat = total PoolPc.current s.pc
  lock : Guarded PoolPc.InLock s.lock s.pc
  atPop : ∀ i con, s.pc i = .atPop con → s.connList.head? = some con
  maxConn : s.maxConn.toNat = conns.length

-- ---------------------------------------------------------------------------
-- The initial pool
-- ---------------------------------------------------------------------------

theorem toNat_add_one {x : UInt32} (h : x.toNat + 1 < 2 ^ 32) : (x + 1).toNat = x.toNat + 1 := by
  rw [UInt32.toNat_add]
  exact Nat.mod_eq_of_lt h

theorem toNat_sub_one {x : UInt32} (h : 1 ≤ x.toNat) : (x - 1).toNat = x.toNat - 1 :=
  UInt32.toNat_sub_of_le _ _ h

/-- The loop of `init` connects once for each place. -/
theorem initLoop_eq (connect : Nat → Con) {n : Nat} (h : n < 2 ^ 32) :
    (initLoop connect n).1 = (List.range n).map connect ∧ (initLoop connect n).2.toNat = n := by
  induction n with
  | zero => exact ⟨rfl, rfl⟩
  | succ n ih =>
    obtain ⟨hlist, hfree⟩ := ih (by omega)
    refine ⟨?_, ?_⟩
    · simp only [initLoop, hlist, List.range_succ, List.map_append, List.map_cons, List.map_nil]
    · simp only [initLoop]
      rw [toNat_add_one (by omega), hfree]

/-- No thread has called the pool. -/
theorem PoolInitial.outside {connect : Nat → Con} {maxConn : UInt32} {s : ConnectionPool ι Con}
    (h : PoolInitial connect maxConn s) (i : ι) : s.pc i = .outside := by
  have hinit := h.2
  unfold ConnectionPool.init at hinit
  simp only at hinit
  split at hinit
  · obtain rfl := Option.some.inj hinit
    rfl
  · cases hinit

/-- The connections that `init` makes. -/
def made (connect : Nat → Con) (maxConn : UInt32) : List Con :=
  (List.range maxConn.toNat).map connect

theorem made_length (connect : Nat → Con) (maxConn : UInt32) :
    (made connect maxConn).length = maxConn.toNat := by
  rw [made, List.length_map, List.length_range]

theorem conserved_initial [Fintype ι] {connect : Nat → Con} {maxConn : UInt32}
    {s : ConnectionPool ι Con} (h : PoolInitial connect maxConn s) :
    Conserved (made connect maxConn) s := by
  obtain ⟨-, hinit⟩ := h
  obtain ⟨hlist, hfree⟩ := initLoop_eq connect maxConn.toNat_lt
  unfold ConnectionPool.init at hinit
  simp only at hinit
  split at hinit
  · obtain rfl := Option.some.inj hinit
    have hlen : (initLoop connect maxConn.toNat).1.length = maxConn.toNat := by
      rw [hlist, List.length_map, List.length_range]
    have hheld : total PoolPc.held (fun _ : ι => (.outside : PoolPc Con)) = 0 :=
      total_zero fun _ => rfl
    have hzero {f : PoolPc Con → Nat} (hf : f .outside = 0) : total f (fun _ : ι => .outside) = 0 :=
      total_zero fun _ => hf
    refine ⟨?_, ?_, (hzero rfl).symm, ?_, ?_, ?_, ?_⟩
    · simp only [hheld, add_zero, hlist, made]
    · simp only [hzero (f := PoolPc.notFree) rfl, made_length, hfree, Nat.add_zero]
    · simp only [hzero (f := PoolPc.ticket) rfl, hlen, hfree, Nat.add_zero]
    · exact fun i => iff_of_false id nofun
    · exact fun i con hpc => nomatch hpc
    · rw [made_length]
      exact hfree
  · cases hinit

-- ---------------------------------------------------------------------------
-- Steps
-- ---------------------------------------------------------------------------

section
variable [DecidableEq ι] {s s' : ConnectionPool ι Con} {i : ι}

/-- Only the thread that runs moves. -/
theorem ConnectionPool.step_pc (hs : s.step i = some s') :
    s'.pc = Function.update s.pc i (s'.pc i) := by
  unfold ConnectionPool.step ConnectionPool.goto at hs
  split at hs <;> try split at hs
  all_goals cases hs
  all_goals simp only [Function.update_self]

/-- The lock is left as it is, taken when it is free, or given back. -/
theorem ConnectionPool.step_lock (hs : s.step i = some s') :
    (s'.lock = s.lock ∧ ((s'.pc i).InLock ↔ (s.pc i).InLock)) ∨
    (s.lock = none ∧ s'.lock = some i ∧ (s'.pc i).InLock) ∨
    (s'.lock = none ∧ (s.pc i).InLock ∧ ¬ (s'.pc i).InLock) := by
  unfold ConnectionPool.step ConnectionPool.goto at hs
  split at hs <;> try split at hs
  all_goals cases hs
  all_goals simp_all

/-- The semaphore counts elements of the list that no thread has asked for. -/
theorem ConnectionPool.step_reserve (hs : s.step i = some s') :
    s'.reserve + (s'.pc i).ticket + s.connList.length =
      s.reserve + (s.pc i).ticket + s'.connList.length := by
  unfold ConnectionPool.step ConnectionPool.goto at hs
  split at hs <;> try split at hs
  all_goals cases hs
  all_goals simp_all
  all_goals omega

/-- A step takes the lock when nobody has it, and gives it back only from inside. -/
theorem guarded_step (h : Guarded PoolPc.InLock s.lock s.pc) (hs : s.step i = some s') :
    Guarded PoolPc.InLock s'.lock s'.pc := by
  rw [ConnectionPool.step_pc hs]
  rcases ConnectionPool.step_lock hs with ⟨hl, hp⟩ | ⟨hfree, hl, -⟩ | ⟨hl, hi, hp⟩
  · rw [hl]
    exact h.stay hp.mp
  · rw [hfree] at h
    rw [hl]
    exact h.acquire
  · rw [hl]
    exact h.release hi hp

theorem exclusive_step (h : Exclusive PoolPc.InLock s.lock s.pc) (hs : s.step i = some s') :
    Exclusive PoolPc.InLock s'.lock s'.pc := by
  rw [ConnectionPool.step_pc hs]
  rcases ConnectionPool.step_lock hs with ⟨hl, hp⟩ | ⟨hfree, hl, hp⟩ | ⟨hl, hi, hp⟩
  · rw [hl]
    exact h.stay hp
  · rw [hfree] at h
    rw [hl]
    exact h.acquire hp
  · rw [hl]
    exact h.release hi hp

/-- `GetConnection` returns `NULL` only where the list is empty. -/
theorem null_of_step {j : ι} (hs : s.step i = some s') (hj : s'.pc j = .null) :
    s.pc j = .null ∨ s.pc j = .called ∧ s.connList.length = 0 := by
  have hself : s'.pc i = .null → s.pc i = .called ∧ s.connList.length = 0 := by
    unfold ConnectionPool.step ConnectionPool.goto at hs
    split at hs <;> try split at hs
    all_goals cases hs
    all_goals simp_all
  by_cases hji : j = i
  · subst hji
    exact .inr (hself hj)
  · rw [ConnectionPool.step_pc hs, Function.update_of_ne hji] at hj
    exact .inl hj

end

namespace Accounts

variable [Fintype ι] {conns : List Con} {s : ConnectionPool ι Con}

/-- A connection is in the list, or with one of the threads that hold it. -/
theorem held_le (h : Accounts conns s) :
    s.connList.length + total (fun p => (PoolPc.held p).card) s.pc = conns.length := by
  rw [← card_total, ← Multiset.coe_card, ← Multiset.card_add, h.connections, Multiset.coe_card]

/-- The counters do not wrap: there are no more connections than `max_conn`, an `unsigned int`. -/
theorem length_lt (h : Accounts conns s) : conns.length < 2 ^ 32 := by
  rw [← h.maxConn]
  exact s.maxConn.toNat_lt

/-- Another thread in the lock is the same thread. -/
theorem not_inLock (h : Accounts conns s) {i j : ι} (hi : (s.pc i).InLock) (hj : j ≠ i) :
    ¬ (s.pc j).InLock :=
  fun hin => hj (h.lock.alone hin hi)

/-- A thread behind `pop_front` has taken a connection that is still counted as free. -/
theorem freeConn_pos (h : Accounts conns s) {i : ι} {con : Con} (hpc : s.pc i = .atDecFree con) :
    1 ≤ s.freeConn.toNat := by
  have hlt : total PoolPc.notFree s.pc < total (fun p => (PoolPc.held p).card) s.pc := by
    refine h.lock.total_lt (i := i) (by rw [hpc]; trivial) ?_ ?_
    · intro p hp
      cases p <;> simp at hp ⊢
    · rw [hpc]
      exact Nat.zero_lt_one
  have hfree := h.freeConn
  have hheld := h.held_le
  omega

/-- A thread that has not counted its connection yet leaves room in the counter. -/
theorem curConn_lt (h : Accounts conns s) {i : ι} {con : Con} (hpc : s.pc i = .atIncCur con) :
    s.curConn.toNat + 1 < 2 ^ 32 := by
  have hlt : total PoolPc.current s.pc < total (fun p => (PoolPc.held p).card) s.pc := by
    refine h.lock.total_lt (i := i) (by rw [hpc]; trivial) ?_ ?_
    · intro p hp
      cases p <;> simp at hp ⊢
    · rw [hpc]
      exact Nat.zero_lt_one
  have hcur := h.curConn
  have hheld := h.held_le
  have hmax := h.length_lt
  omega

/-- A thread that gives one back is still counted. -/
theorem curConn_pos (h : Accounts conns s) {i : ι} (hpc : s.pc i = .atDecCur) :
    1 ≤ s.curConn.toNat := by
  have hle := le_total PoolPc.current s.pc i
  rw [h.curConn]
  simpa only [hpc, PoolPc.current] using hle

/-- A thread moves, and the books with it. -/
theorem move [DecidableEq ι] (h : Accounts conns s) {s' : ConnectionPool ι Con} {i : ι}
    {p : PoolPc Con} (hpc : s'.pc = Function.update s.pc i p)
    (hconnections : (s'.connList : Multiset Con) + p.held = s.connList + (s.pc i).held)
    (hfree : s'.freeConn.toNat + p.notFree = s.freeConn.toNat + (s.pc i).notFree)
    (hcur : s'.curConn.toNat + (s.pc i).current = s.curConn.toNat + p.current)
    (hlock : Guarded PoolPc.InLock s'.lock s'.pc)
    (hpop : ∀ j con, s'.pc j = .atPop con → s'.connList.head? = some con)
    (hmax : s'.maxConn = s.maxConn) : Accounts conns s' := by
  have hheld' := total_update PoolPc.held s.pc i p
  have hfree' := total_update PoolPc.notFree s.pc i p
  have hcur' := total_update PoolPc.current s.pc i p
  rw [← hpc] at hheld' hfree' hcur'
  obtain ⟨h₁, h₂, h₃, -, -, h₆⟩ := h
  refine ⟨?_, by omega, by omega, hlock, hpop, by rw [hmax, h₆]⟩
  refine add_right_cancel (b := (s.pc i).held) ?_
  rw [add_assoc, hheld', add_left_comm, hconnections, ← h₁]
  abel

section
variable [DecidableEq ι] {i : ι} {p : PoolPc Con}

/-- Nobody else takes the front of the list from a thread that has the lock. -/
theorem atPop_stay (h : Accounts conns s) (hp : ∀ con, p ≠ .atPop con) (j : ι) (con : Con)
    (hj : Function.update s.pc i p j = .atPop con) : s.connList.head? = some con := by
  by_cases hji : j = i
  · subst hji
    rw [Function.update_self] at hj
    exact absurd hj (hp con)
  · rw [Function.update_of_ne hji] at hj
    exact h.atPop j con hj

/-- No other thread is at `pop_front` while this one holds the lock. -/
theorem not_atPop (h : Accounts conns s) (hi : (s.pc i).InLock) (hp : ∀ con, p ≠ .atPop con)
    (j : ι) (con : Con) : Function.update s.pc i p j ≠ .atPop con := by
  intro hj
  by_cases hji : j = i
  · subst hji
    rw [Function.update_self] at hj
    exact hp con hj
  · rw [Function.update_of_ne hji] at hj
    refine h.not_inLock hi hji ?_
    rw [hj]
    trivial

/-- A thread that takes no part in the books. -/
theorem idle (h : Accounts conns s) {s' : ConnectionPool ι Con}
    (hpc : s'.pc = Function.update s.pc i p) (hlist : s'.connList = s.connList)
    (hfreeConn : s'.freeConn = s.freeConn) (hcurConn : s'.curConn = s.curConn)
    (hmax : s'.maxConn = s.maxConn) (hlock : Guarded PoolPc.InLock s'.lock s'.pc)
    (hheld : p.held = (s.pc i).held) (hfree : p.notFree = (s.pc i).notFree)
    (hcur : p.current = (s.pc i).current) (hp : ∀ con, p ≠ .atPop con) : Accounts conns s' := by
  refine h.move hpc ?_ ?_ ?_ hlock ?_ hmax
  · rw [hlist, hheld]
  · rw [hfreeConn, hfree]
  · rw [hcurConn, hcur]
  · rw [hpc, hlist]
    exact h.atPop_stay hp

end

end Accounts

theorem Conserved.accounts [Fintype ι] {conns : List Con} {s : ConnectionPool ι Con}
    (h : Conserved conns s) : Accounts conns s :=
  ⟨h.connections, h.freeConn, h.curConn, h.lock.guarded, h.atPop, h.maxConn⟩

variable [Fintype ι]

/-- **Step lemma.** -/
theorem accounts_step [DecidableEq ι] {conns : List Con} {s s' : ConnectionPool ι Con} {i : ι}
    (h : Accounts conns s) (hs : s.step i = some s') : Accounts conns s' := by
  have hlock := guarded_step h.lock hs
  unfold ConnectionPool.step at hs
  cases hpc : s.pc i with
  | outside =>
    simp only [hpc] at hs
    cases hs
    refine h.idle rfl rfl rfl rfl rfl hlock ?_ ?_ ?_ nofun <;> simp [hpc]
  | called =>
    simp only [hpc] at hs
    cases hs
    refine h.idle rfl rfl rfl rfl rfl hlock ?_ ?_ ?_ ?_ <;> split <;> simp [hpc]
  | null =>
    simp only [hpc] at hs
    cases hs
    refine h.idle rfl rfl rfl rfl rfl hlock ?_ ?_ ?_ nofun <;> simp [hpc]
  | waiting =>
    simp only [hpc] at hs
    split at hs
    · cases hs
      refine h.idle rfl rfl rfl rfl rfl hlock ?_ ?_ ?_ nofun <;> simp [hpc]
    · cases hs
  | awake =>
    simp only [hpc] at hs
    split at hs
    · cases hs
      refine h.idle rfl rfl rfl rfl rfl hlock ?_ ?_ ?_ nofun <;> simp [hpc]
    · cases hs
  | atFront =>
    simp only [hpc] at hs
    split at hs
    · rename_i con rest hlist
      cases hs
      refine h.move rfl ?_ ?_ ?_ hlock ?_ rfl
      · simp [hpc, ConnectionPool.goto]
      · simp [hpc, ConnectionPool.goto]
      · simp [hpc, ConnectionPool.goto]
      · intro j con' hj
        replace hj : Function.update s.pc i (.atPop con) j = .atPop con' := hj
        show s.connList.head? = some con'
        by_cases hji : j = i
        · subst hji
          rw [Function.update_self] at hj
          cases hj
          rw [hlist]
          rfl
        · rw [Function.update_of_ne hji] at hj
          exact h.atPop j con' hj
    · cases hs
  | atPop con =>
    have hhead := h.atPop i con hpc
    have hin : (s.pc i).InLock := by simp [hpc]
    simp only [hpc, ConnectionPool.goto] at hs
    split at hs
    · rename_i con' rest hlist
      cases hs
      rw [hlist] at hhead
      obtain rfl : con' = con := Option.some.inj hhead
      refine h.move rfl ?_ ?_ ?_ hlock ?_ rfl
      · simp only [hpc, hlist, PoolPc.held, ← Multiset.cons_coe]
        rw [add_zero, add_comm]
        exact Multiset.singleton_add ..
      · simp [hpc]
      · simp [hpc]
      · exact fun j con hj => absurd hj (h.not_atPop (p := .atDecFree con') hin nofun j con)
    · cases hs
  | atDecFree con =>
    have hpos := h.freeConn_pos hpc
    simp only [hpc, ConnectionPool.goto] at hs
    cases hs
    refine h.move rfl ?_ ?_ ?_ hlock (h.atPop_stay nofun) rfl
    · simp [hpc]
    · simp only [hpc, PoolPc.notFree, toNat_sub_one hpos]
      omega
    · simp [hpc]
  | atIncCur con =>
    have hlt := h.curConn_lt hpc
    simp only [hpc, ConnectionPool.goto] at hs
    cases hs
    refine h.move rfl ?_ ?_ ?_ hlock (h.atPop_stay nofun) rfl
    · simp [hpc]
    · simp [hpc]
    · simp only [hpc, PoolPc.current, toNat_add_one hlt]
  | atUnlock con =>
    simp only [hpc] at hs
    cases hs
    refine h.idle rfl rfl rfl rfl rfl hlock ?_ ?_ ?_ nofun <;> simp [hpc]
  | holding con =>
    simp only [hpc] at hs
    cases hs
    refine h.idle rfl rfl rfl rfl rfl hlock ?_ ?_ ?_ nofun <;> simp [hpc]
  | atLock con =>
    simp only [hpc] at hs
    split at hs
    · cases hs
      refine h.idle rfl rfl rfl rfl rfl hlock ?_ ?_ ?_ nofun <;> simp [hpc]
    · cases hs
  | atPush con =>
    have hin : (s.pc i).InLock := by simp [hpc]
    simp only [hpc, ConnectionPool.goto] at hs
    cases hs
    refine h.move rfl ?_ ?_ ?_ hlock ?_ rfl
    · simp only [hpc, PoolPc.held, add_zero]
      rfl
    · simp [hpc]
    · simp [hpc]
    · exact fun j con hj => absurd hj (h.not_atPop (p := .atIncFree) hin nofun j con)
  | atIncFree =>
    have hlt : s.freeConn.toNat + 1 < 2 ^ 32 := by
      have hle := le_total PoolPc.notFree s.pc i
      have hfree := h.freeConn
      have hmax := h.length_lt
      simp only [hpc, PoolPc.notFree] at hle
      omega
    simp only [hpc, ConnectionPool.goto] at hs
    cases hs
    refine h.move rfl ?_ ?_ ?_ hlock (h.atPop_stay nofun) rfl
    · simp [hpc]
    · simp only [hpc, PoolPc.notFree, toNat_add_one hlt]
    · simp [hpc]
  | atDecCur =>
    have hpos := h.curConn_pos hpc
    simp only [hpc, ConnectionPool.goto] at hs
    cases hs
    refine h.move rfl ?_ ?_ ?_ hlock (h.atPop_stay nofun) rfl
    · simp [hpc]
    · simp [hpc]
    · simp only [hpc, PoolPc.current, toNat_sub_one hpos]
      omega
  | atRelease =>
    simp only [hpc] at hs
    cases hs
    refine h.idle rfl rfl rfl rfl rfl hlock ?_ ?_ ?_ nofun <;> simp [hpc]
  | atPost =>
    simp only [hpc] at hs
    cases hs
    refine h.idle rfl rfl rfl rfl rfl hlock ?_ ?_ ?_ nofun <;> simp [hpc]

/-- **Step lemma.** -/
theorem conserved_step [DecidableEq ι] {conns : List Con} {s s' : ConnectionPool ι Con} {i : ι}
    (h : Conserved conns s) (hs : s.step i = some s') : Conserved conns s' := by
  obtain ⟨hconnections, hfree, hcur, -, hpop, hmax⟩ := accounts_step h.accounts hs
  have hticket := total_update PoolPc.ticket s.pc i (s'.pc i)
  have hstep := ConnectionPool.step_reserve hs
  have hreserve := h.reserve
  rw [← ConnectionPool.step_pc hs] at hticket
  exact ⟨hconnections, hfree, hcur, by omega, exclusive_step h.lock hs, hpop, hmax⟩

/-- **Run lemma.** -/
theorem conserved_reachable [DecidableEq ι] {connect : Nat → Con} {maxConn : UInt32}
    {ok : ConnectionPool ι Con → ι → Prop} {s : ConnectionPool ι Con}
    (h : Reachable (PoolInitial connect maxConn) ConnectionPool.step ok s) :
    Conserved (made connect maxConn) s :=
  h.invariant (fun _ h => conserved_initial h) fun _ _ _ ht _ hs => conserved_step ht hs

-- ---------------------------------------------------------------------------
-- What threads see
-- ---------------------------------------------------------------------------

/-- The counters are right whenever the lock is free. -/
theorem Accounts.counters {conns : List Con} {s : ConnectionPool ι Con} (h : Accounts conns s)
    (hfree : s.lock = none) : s.freeConn.toNat + s.curConn.toNat = conns.length ∧
      s.freeConn.toNat = s.connList.length := by
  have hlock := h.lock
  rw [hfree] at hlock
  have hcurrent : total PoolPc.current s.pc = total PoolPc.notFree s.pc := by
    refine hlock.total_eq ?_
    intro p hp
    cases p <;> simp at hp ⊢
  have hheld : total (fun p => (PoolPc.held p).card) s.pc = total PoolPc.notFree s.pc := by
    refine hlock.total_eq ?_
    intro p hp
    cases p <;> simp at hp ⊢
  have h₁ := h.freeConn
  have h₂ := h.curConn
  have h₃ := h.held_le
  omega

/-- A thread that has decremented the semaphore finds a connection. -/
theorem Conserved.takes {conns : List Con} {s : ConnectionPool ι Con} (h : Conserved conns s)
    {i : ι} (hi : (s.pc i).Takes) : s.connList ≠ [] := by
  intro hnil
  have hle := le_total PoolPc.ticket s.pc i
  have hone : (s.pc i).ticket = 1 := by
    revert hi
    cases s.pc i <;> simp [PoolPc.Takes]
  have hreserve := h.reserve
  rw [hnil, List.length_nil] at hreserve
  omega

/-- The thread is in use of the pool. -/
@[simp] def PoolPc.uses : PoolPc Con → Nat
  | .outside => 0
  | _ => 1

/-- No more threads use the pool than it has connections. -/
def FewThreads (s : ConnectionPool ι Con) : Prop :=
  total PoolPc.uses s.pc ≤ s.maxConn.toNat

/-- With no more threads than connections, the list is not empty for a thread that calls. -/
theorem Conserved.called {conns : List Con} {s : ConnectionPool ι Con} (h : Conserved conns s)
    (hfew : FewThreads s) {i : ι} (hi : s.pc i = .called) : s.connList.length ≠ 0 := by
  have hlt : total (fun p => (PoolPc.held p).card) s.pc < total PoolPc.uses s.pc := by
    refine total_lt (i := i) ?_ ?_
    · intro j
      cases s.pc j <;> simp
    · rw [hi]
      exact Nat.zero_lt_one
  have hheld := h.accounts.held_le
  have hmax := h.maxConn
  unfold FewThreads at hfew
  omega

/-- And then `GetConnection` never returns `NULL`. -/
theorem never_null [DecidableEq ι] {connect : Nat → Con} {maxConn : UInt32}
    {s : ConnectionPool ι Con}
    (h : Reachable (PoolInitial connect maxConn) ConnectionPool.step (fun t _ => FewThreads t) s) :
    ∀ i, s.pc i ≠ .null := by
  have hinv : Conserved (made connect maxConn) s ∧ ∀ i, s.pc i ≠ .null := by
    refine h.invariant (P := fun s => Conserved (made connect maxConn) s ∧ ∀ i, s.pc i ≠ .null)
      ?_ ?_
    · intro t ht
      refine ⟨conserved_initial ht, ?_⟩
      intro i hi
      rw [ht.outside i] at hi
      cases hi
    · rintro t i t' ⟨ht, hnull⟩ hfew hs
      refine ⟨conserved_step ht hs, ?_⟩
      intro j hj
      rcases null_of_step hs hj with hj | ⟨hj, hlen⟩
      · exact hnull j hj
      · exact ht.called hfew hj hlen
  exact hinv.2

/-- **Connections are conserved and never shared.** `connect` makes different connections. -/
theorem connections_conserved [DecidableEq ι] [DecidableEq Con] {connect : Nat → Con}
    (hconnect : Function.Injective connect) {maxConn : UInt32} {s : ConnectionPool ι Con}
    (h : Reachable (PoolInitial connect maxConn) ConnectionPool.step (fun _ _ => True) s) :
    (s.lock = none → s.freeConn.toNat + s.curConn.toNat = maxConn.toNat ∧
      s.freeConn.toNat = s.connList.length) ∧
    (∀ n < maxConn.toNat,
      (s.connList.count (connect n) = 1 ∧ ∀ i, connect n ∉ (s.pc i).held) ∨
      (connect n ∉ s.connList ∧ ∃! i, connect n ∈ (s.pc i).held)) ∧
    (∀ i, (s.pc i).Takes → s.connList ≠ []) ∧
    (∀ t : ConnectionPool ι Con,
      Reachable (PoolInitial connect maxConn) ConnectionPool.step (fun t _ => FewThreads t) t →
      ∀ i, t.pc i ≠ .null) := by
  have hconserved := conserved_reachable h
  refine ⟨?_, ?_, fun i hi => hconserved.takes hi, fun t ht => never_null ht⟩
  · intro hfree
    have hcounters := hconserved.accounts.counters hfree
    rw [made_length] at hcounters
    exact hcounters
  · intro n hn
    have hnodup : (made connect maxConn : Multiset Con).Nodup :=
      List.nodup_range.map hconnect
    have hmem : connect n ∈ (made connect maxConn : Multiset Con) :=
      List.mem_map_of_mem (List.mem_range.mpr hn)
    simpa only [Multiset.coe_count, Multiset.mem_coe] using
      exists_holder hconserved.connections hnodup hmem

/-- A pool of one connection, for two threads. -/
def onePool : ConnectionPool Bool Nat := ⟨[0], 1, 0, 1, 1, none, fun _ => .outside⟩

theorem onePool_initial : PoolInitial id 1 onePool := ⟨by decide, rfl⟩

theorem connections_conserved_one : ∃ s : ConnectionPool Bool Nat, s.pc true = .holding 0 ∧
    s.freeConn.toNat + s.curConn.toNat = 1 ∧ s.freeConn.toNat = s.connList.length ∧
    ∃! i, 0 ∈ (s.pc i).held := by
  have hrun : (runSteps ConnectionPool.step onePool (List.replicate 9 true)).map
      (fun s => (s.pc true, s.lock, s.connList)) = some (.holding 0, none, []) := by
    decide +kernel
  obtain ⟨s, hs, hval⟩ := Option.map_eq_some_iff.mp hrun
  simp only [Prod.mk.injEq] at hval
  obtain ⟨hpc, hlock, hlist⟩ := hval
  have hreach := Reachable.of_run (fun _ _ _ => trivial) (.init onePool_initial) hs
  obtain ⟨hcounters, hplaces, -, -⟩ := connections_conserved Function.injective_id hreach
  obtain ⟨hsum, hfree⟩ := hcounters hlock
  refine ⟨s, hpc, hsum, hfree, ?_⟩
  rcases hplaces 0 (by decide) with ⟨hcount, -⟩ | ⟨-, hone⟩
  · rw [hlist] at hcount
    cases hcount
  · exact hone

end TinyHTTP.Pool
