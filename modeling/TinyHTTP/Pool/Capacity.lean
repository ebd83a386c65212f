import TinyHTTP.Pool.Threadpool

/-!
# TinyHTTP — the capacity of the work queue

`append` refuses a request when `m_workqueue.size() > m_max_requests`, under the lock.
The queue so holds one request more than `m_max_requests`, and only then is a request
refused.

* `bounded_step` — the list stays within a bound that the test keeps.
* `workqueue_le` — the bound that the code keeps.
* `capacity_kept` — the capacity, as long as no `append` finds it just reached.
-/

namespace TinyHTTP.Pool

open TinyHTTP.Lib

variable {ι R : Type}

/-- The thread is at the test of `append`. -/
def TaskPc.tests : TaskPc R → Bool
  | .testing _ => true
  | _ => false

/-- No `append` tests the list when `m_max_requests` requests wait in it. -/
def NotAtLimit (maxRequests : Nat) (s : Threadpool ι R) : TaskLabel ι R → Prop
  | .run i => (s.pc i).tests = true → s.workqueue.length ≠ maxRequests
  | .append _ _ | .interrupt _ => True

instance (maxRequests : Nat) (s : Threadpool ι R) (l : TaskLabel ι R) :
    Decidable (NotAtLimit maxRequests s l) :=
  match l with
  | .run i => inferInstanceAs (Decidable ((s.pc i).tests = true → s.workqueue.length ≠ maxRequests))
  | .append _ _ | .interrupt _ => isTrue trivial

theorem NotAtLimit.testing {maxRequests : Nat} {s : Threadpool ι R} {l : TaskLabel ι R}
    (h : NotAtLimit maxRequests s l) {i : ι} {request : R} (hl : l = .run i)
    (hpc : s.pc i = .testing request) : s.workqueue.length ≠ maxRequests := by
  subst hl
  exact h (by rw [hpc]; rfl)

/-- The step of a call of `append` decides as it should: the call is refused when `m_max_requests`
requests wait, and only then. A refused call leaves the list and the semaphore as they are. -/
structure Refuses (maxRequests : Nat) (s : Threadpool ι R) (l : TaskLabel ι R)
    (s' : Threadpool ι R) : Prop where
  full : ∀ i request, l = .run i → s.pc i = .testing request →
    (s'.pc i = .refusing ↔ s.workqueue.length = maxRequests)
  unchanged : ∀ i, l = .run i → s.pc i = .refusing ∨ s'.pc i = .refusing →
    s'.workqueue = s.workqueue ∧ s'.queuestat = s.queuestat

-- ---------------------------------------------------------------------------
-- Statements
-- ---------------------------------------------------------------------------

section
variable [DecidableEq ι] {maxRequests : Nat} {s s' : Threadpool ι R} {i : ι}

theorem Threadpool.next_pc (hs : s.next maxRequests i = some s') :
    s'.pc = Function.update s.pc i (s'.pc i) := by
  unfold Threadpool.next Threadpool.goto at hs
  split at hs <;> try split at hs
  all_goals cases hs
  all_goals simp only [Function.update_self]

/-- The list grows at `push_back` and shrinks at `pop_front`. -/
theorem Threadpool.next_workqueue (hs : s.next maxRequests i = some s') :
    s'.workqueue = s.workqueue ∨
    (∃ request, s.pc i = .pushing request ∧ s'.workqueue = s.workqueue ++ [request]) ∨
    s'.workqueue.length + 1 = s.workqueue.length := by
  unfold Threadpool.next Threadpool.goto at hs
  split at hs <;> try split at hs
  all_goals cases hs
  all_goals simp_all

/-- A thread gets to `push_back` by the test. -/
theorem Threadpool.next_pushing {request : R} (hs : s.next maxRequests i = some s')
    (hpc : s'.pc i = .pushing request) :
    s.pc i = .testing request ∧ s.workqueue.length ≤ maxRequests ∧
      s'.workqueue = s.workqueue := by
  unfold Threadpool.next Threadpool.goto at hs
  split at hs <;> try split at hs
  all_goals cases hs
  all_goals simp_all

theorem Threadpool.next_testing {request : R} (hs : s.next maxRequests i = some s')
    (hpc : s.pc i = .testing request) :
    s'.pc i = .refusing ↔ maxRequests < s.workqueue.length := by
  unfold Threadpool.next Threadpool.goto at hs
  simp only [hpc, Option.some.injEq] at hs
  subst hs
  simp only [Function.update_self]
  split <;> simp_all

theorem Threadpool.next_refusing (hs : s.next maxRequests i = some s')
    (hpc : s.pc i = .refusing ∨ s'.pc i = .refusing) :
    s'.workqueue = s.workqueue ∧ s'.queuestat = s.queuestat := by
  unfold Threadpool.next Threadpool.goto at hs
  split at hs <;> try split at hs
  all_goals cases hs
  all_goals simp_all

end

-- ---------------------------------------------------------------------------
-- A bound
-- ---------------------------------------------------------------------------

/-- The list is within a bound, with room for the request that is being pushed. -/
structure Bounded [Fintype ι] (bound : Nat) (s : Threadpool ι R) : Prop where
  delivered : Delivered s
  length : s.workqueue.length ≤ bound
  pushing : ∀ i request, s.pc i = .pushing request → s.workqueue.length < bound

variable [Fintype ι]

theorem bounded_initial {bound : Nat} {s : Threadpool ι R} (h : TaskInitial s) :
    Bounded bound s := by
  refine ⟨delivered_initial h, ?_, ?_⟩
  · rw [h.workqueue]
    exact Nat.zero_le _
  · intro i request hpc
    rcases h.pc i with hi | hi <;> rw [hi] at hpc <;> cases hpc

/-- A thread moves to another place than `push_back`. -/
theorem Bounded.goto [DecidableEq ι] {bound : Nat} {s : Threadpool ι R} {i : ι} {p : TaskPc R}
    (h : Bounded bound s) (hdelivered : Delivered (s.goto i p))
    (hp : ∀ request, p ≠ .pushing request) : Bounded bound (s.goto i p) := by
  refine ⟨hdelivered, h.length, ?_⟩
  intro j request hj
  rcases update_cases hj with ⟨-, heq⟩ | ⟨-, hj⟩
  · exact absurd heq (hp request)
  · exact h.pushing j request hj

/-- **Step lemma.** What passes the test is within the bound. -/
theorem bounded_step [DecidableEq ι] {bound maxRequests : Nat} {s s' : Threadpool ι R}
    {l : TaskLabel ι R} (h : Bounded bound s)
    (hbound : ∀ i request, l = .run i → s.pc i = .testing request →
      s.workqueue.length ≤ maxRequests → s.workqueue.length < bound)
    (hs : s.step maxRequests l = some s') : Bounded bound s' := by
  have hdelivered := delivered_step h.delivered hs
  cases l with
  | append i request =>
    cases hpc : s.pc i <;> simp only [Threadpool.step, hpc, reduceCtorEq] at hs
    cases hs
    exact h.goto hdelivered fun request hp => by cases hp
  | interrupt i =>
    cases hpc : s.pc i <;> simp only [Threadpool.step, hpc, reduceCtorEq] at hs
    cases hs
    exact h.goto hdelivered fun request hp => by cases hp
  | run i =>
    have hpc := Threadpool.next_pc hs
    refine ⟨hdelivered, ?_, ?_⟩
    · rcases Threadpool.next_workqueue hs with hq | ⟨request, hpush, hq⟩ | hq
      · rw [hq]
        exact h.length
      · have hroom := h.pushing i request hpush
        rw [hq, List.length_append, List.length_singleton]
        omega
      · have hlen := h.length
        omega
    · intro j request hj
      by_cases hji : j = i
      · subst hji
        obtain ⟨htest, hle, hq⟩ := Threadpool.next_pushing hs hj
        rw [hq]
        exact hbound j request rfl htest hle
      · rw [hpc, Function.update_of_ne hji] at hj
        have hroom := h.pushing j request hj
        rcases Threadpool.next_workqueue hs with hq | ⟨request', hpush, -⟩ | hq
        · rw [hq]
          exact hroom
        · -- the lock keeps two threads from being at `push_back`
          have hone := h.delivered.lock.alone (i := j) (j := i) (by rw [hj]; trivial)
            (by rw [hpush]; trivial)
          exact absurd hone hji
        · omega

/-- **The bound of the code**: one request more than `m_max_requests`. -/
theorem workqueue_le [DecidableEq ι] {maxRequests : Nat} {s : Threadpool ι R}
    (h : Reachable TaskInitial (Threadpool.step maxRequests) (fun _ _ => True) s) :
    s.workqueue.length ≤ maxRequests + 1 :=
  (h.invariant (P := Bounded (maxRequests + 1)) (fun _ => bounded_initial)
    fun _ _ _ ht _ hs => bounded_step ht (fun _ _ _ _ hle => Nat.lt_succ_of_le hle) hs).length

/-- **The capacity** is kept, and decides, as long as no `append` finds it just reached. -/
theorem capacity_kept [DecidableEq ι] {maxRequests : Nat} {s : Threadpool ι R}
    (h : Reachable TaskInitial (Threadpool.step maxRequests) (NotAtLimit maxRequests) s) :
    s.workqueue.length ≤ maxRequests ∧
    ∀ l s', NotAtLimit maxRequests s l → s.step maxRequests l = some s' →
      Refuses maxRequests s l s' := by
  have hbounded := h.invariant (P := Bounded maxRequests) (fun _ => bounded_initial)
    fun _ _ _ ht hok hs => bounded_step ht
      (fun i request hl htest hle => lt_of_le_of_ne hle (hok.testing hl htest)) hs
  refine ⟨hbounded.length, ?_⟩
  intro l s' hok hs
  refine ⟨?_, ?_⟩
  · rintro i request rfl hpc
    have hlen := hbounded.length
    have hne := hok.testing rfl hpc
    rw [Threadpool.next_testing hs hpc]
    omega
  · rintro i rfl hpc
    exact Threadpool.next_refusing hs hpc

/-- With room for one request, a request is pushed into an empty list. -/
theorem capacity_kept_one : ∃ s : Threadpool Bool Nat, s.workqueue = [7] ∧
    s.workqueue.length ≤ 1 := by
  have hrun : (runSteps (guarded (fun s l => decide (NotAtLimit 1 s l)) (Threadpool.step 1))
      quietPool ([.append true 7] ++ List.replicate 5 (.run true))).map
      (fun s => s.workqueue) = some [7] := by
    decide +kernel
  obtain ⟨s, hs, hqueue⟩ := Option.map_eq_some_iff.mp hrun
  have hreach := Reachable.of_guarded (fun _ _ h => of_decide_eq_true h)
    (.init quietPool_initial) hs
  exact ⟨s, hqueue, (capacity_kept hreach).1⟩

/-- With room for one request, two are pushed. -/
theorem capacity_passed : ¬ ∀ s : Threadpool Bool Nat,
    Reachable TaskInitial (Threadpool.step 1) (fun _ _ => True) s →
    s.workqueue.length ≤ 1 ∧
    ∀ l s', s.step 1 l = some s' → Refuses 1 s l s' := by
  intro hall
  have hrun : (runSteps (Threadpool.step 1) quietPool
      ([.append true 7] ++ List.replicate 5 (.run true) ++ [.append true 8] ++
        List.replicate 3 (.run true))).map (fun s => s.workqueue) = some [7, 8] := by
    decide +kernel
  obtain ⟨s, hs, hqueue⟩ := Option.map_eq_some_iff.mp hrun
  have hreach := Reachable.of_run (fun _ _ _ => trivial) (.init quietPool_initial) hs
  have hlen := (hall s hreach).1
  rw [hqueue] at hlen
  exact absurd hlen (by decide)

end TinyHTTP.Pool
