import TinyHTTP.Lib.Run
import TinyHTTP.Lib.Threads

/-!
# TinyHTTP — the work queue

`append` links a request under the lock and posts after it; a worker waits on the
semaphore, and takes the front of the list under the lock if there is one. `wait` may
return without having decremented: `SIGALRM` interrupts it, and its result is not
looked at. Appenders and workers are threads of one type; a thread that starts in
`append` stays an appender.

* `delivered_step` — requests are popped in the order of their `push_back`, and each
  one in the list has a post to come, a count, or a worker with one.
* `never_stranded` — so none is left when everybody waits.
-/

namespace TinyHTTP.Pool

open TinyHTTP.Lib

/-- Where a thread is in `append`, or in `run`. -/
inductive TaskPc (R : Type) where
  /-- between two calls of `append` -/
  | idle
  /-- at `m_queuelocker.lock()` -/
  | entering (request : R)
  /-- at `if (m_workqueue.size() > m_max_requests)` -/
  | testing (request : R)
  /-- at `m_queuelocker.unlock()`, before `return false` -/
  | refusing
  /-- at `m_workqueue.push_back(request)` -/
  | pushing (request : R)
  /-- at `m_queuelocker.unlock()` -/
  | pushed
  /-- at `m_queuestat.post()` -/
  | posting
  /-- at `m_queuestat.wait()` -/
  | waiting
  /-- at `m_queuelocker.lock()`; `counted` says whether `wait` has decremented -/
  | awake (counted : Bool)
  /-- at `if (m_workqueue.empty())` -/
  | checking (counted : Bool)
  /-- at `m_queuelocker.unlock()`, before `continue` -/
  | nothing
  /-- at `m_workqueue.front()` -/
  | atFront (counted : Bool)
  /-- at `m_workqueue.pop_front()` -/
  | atPop (counted : Bool) (request : R)
  /-- at `m_queuelocker.unlock()` -/
  | popped (request : R)
  /-- at `request->process()`; a null request is dropped instead -/
  | working (request : R)

/-- The pool, with the requests that have been linked and those that have been popped so far. -/
structure Threadpool (ι R : Type) where
  workqueue : List R
  /-- the value of the semaphore `m_queuestat` -/
  queuestat : Nat
  /-- the holder of `m_queuelocker` -/
  queuelocker : Option ι
  pc : ι → TaskPc R
  accepted : List R
  taken : List (ι × R)

inductive TaskLabel (ι R : Type) where
  /-- a call of `append` -/
  | append (i : ι) (request : R)
  /-- a signal interrupts `m_queuestat.wait()` -/
  | interrupt (i : ι)
  /-- the next statement of a thread -/
  | run (i : ι)

variable {ι R : Type}

section
variable [DecidableEq ι]

def Threadpool.goto (s : Threadpool ι R) (i : ι) (pc : TaskPc R) : Threadpool ι R :=
  { s with pc := Function.update s.pc i pc }

/-- The next statement of thread `i`. -/
def Threadpool.next (maxRequests : Nat) (s : Threadpool ι R) (i : ι) : Option (Threadpool ι R) :=
  match s.pc i with
  | .idle => none
  | .entering request =>
    match s.queuelocker with
    | none => some { s.goto i (.testing request) with queuelocker := some i }
    | some _ => none
  | .testing request =>
    some (s.goto i (if s.workqueue.length > maxRequests then .refusing else .pushing request))
  | .refusing => some { s.goto i .idle with queuelocker := none }
  | .pushing request =>
    some { s.goto i .pushed with
      workqueue := s.workqueue ++ [request], accepted := s.accepted ++ [request] }
  | .pushed => some { s.goto i .posting with queuelocker := none }
  | .posting => some { s.goto i .idle with queuestat := s.queuestat + 1 }
  | .waiting =>
    if 0 < s.queuestat then some { s.goto i (.awake true) with queuestat := s.queuestat - 1 }
    else none
  | .awake counted =>
    match s.queuelocker with
    | none => some { s.goto i (.checking counted) with queuelocker := some i }
    | some _ => none
  | .checking counted =>
    some (s.goto i (if s.workqueue.isEmpty then .nothing else .atFront counted))
  | .nothing => some { s.goto i .waiting with queuelocker := none }
  | .atFront counted =>
    match s.workqueue with
    | request :: _ => some (s.goto i (.atPop counted request))
    | [] => none
  | .atPop _ request =>
    match s.workqueue with
    | _ :: rest =>
      some { s.goto i (.popped request) with
        workqueue := rest, taken := s.taken ++ [(i, request)] }
    | [] => none
  | .popped request => some { s.goto i (.working request) with queuelocker := none }
  | .working _ => some (s.goto i .waiting)

def Threadpool.step (maxRequests : Nat) (s : Threadpool ι R) :
    TaskLabel ι R → Option (Threadpool ι R)
  | .append i request =>
    match s.pc i with
    | .idle => some (s.goto i (.entering request))
    | _ => none
  | .interrupt i =>
    match s.pc i with
    | .waiting => some (s.goto i (.awake false))
    | _ => none
  | .run i => s.next maxRequests i

end

/-- Nothing has been appended; each thread is an appender or a worker. -/
structure TaskInitial (s : Threadpool ι R) : Prop where
  workqueue : s.workqueue = []
  queuestat : s.queuestat = 0
  queuelocker : s.queuelocker = none
  pc : ∀ i, s.pc i = .idle ∨ s.pc i = .waiting
  accepted : s.accepted = []
  taken : s.taken = []

-- ---------------------------------------------------------------------------
-- Places
-- ---------------------------------------------------------------------------

/-- The thread is in `run`. -/
def TaskPc.Worker : TaskPc R → Prop
  | .waiting | .awake _ | .checking _ | .nothing | .atFront _ | .atPop _ _ | .popped _
  | .working _ => True
  | _ => False

/-- The thread is between `push_back` and `post`. -/
def TaskPc.BeforePost : TaskPc R → Prop
  | .pushed | .posting => True
  | _ => False

/-- The thread has a count of the semaphore to give, or to use. -/
@[simp] def TaskPc.ticket : TaskPc R → Nat
  | .pushed | .posting => 1
  | .awake counted | .checking counted | .atFront counted | .atPop counted _ => counted.toNat
  | _ => 0

/-- The thread holds the lock. -/
@[simp] def TaskPc.InLock : TaskPc R → Prop
  | .testing _ | .refusing | .pushing _ | .pushed | .checking _ | .nothing | .atFront _
  | .atPop _ _ | .popped _ => True
  | _ => False

/-- The worker has seen this list, and holds the lock still. -/
@[simp] def TaskPc.Sees : TaskPc R → List R → Prop
  | .atFront _, queue => queue ≠ []
  | .atPop _ request, queue => queue.head? = some request
  | _, _ => True

structure Delivered [Fintype ι] (s : Threadpool ι R) : Prop where
  order : s.accepted = s.taken.map Prod.snd ++ s.workqueue
  covered : s.workqueue.length ≤ s.queuestat + total TaskPc.ticket s.pc
  lock : Exclusive TaskPc.InLock s.queuelocker s.pc
  sees : ∀ i, (s.pc i).Sees s.workqueue

-- ---------------------------------------------------------------------------
-- Steps
-- ---------------------------------------------------------------------------

variable [Fintype ι]

theorem delivered_initial {s : Threadpool ι R} (h : TaskInitial s) : Delivered s := by
  refine ⟨?_, ?_, ?_, ?_⟩
  · rw [h.accepted, h.taken, h.workqueue]
    rfl
  · rw [h.workqueue]
    exact Nat.zero_le _
  · intro i
    rw [h.queuelocker]
    rcases h.pc i with hpc | hpc <;> simp [hpc]
  · intro i
    rcases h.pc i with hpc | hpc <;> simp [hpc]

namespace Delivered

variable [DecidableEq ι] {s s' : Threadpool ι R} {i : ι} {p : TaskPc R}

/-- A thread moves. -/
theorem move (h : Delivered s) (hpc : s'.pc = Function.update s.pc i p)
    (horder : s'.accepted = s'.taken.map Prod.snd ++ s'.workqueue)
    (hcovered : ∀ n, s.workqueue.length ≤ s.queuestat + (s.pc i).ticket + n →
      s'.workqueue.length ≤ s'.queuestat + p.ticket + n)
    (hlock : Exclusive TaskPc.InLock s'.queuelocker s'.pc)
    (hsees : ∀ j, (s'.pc j).Sees s'.workqueue) : Delivered s' := by
  refine ⟨horder, ?_, hlock, hsees⟩
  have htotal := total_update TaskPc.ticket s.pc i p
  have hle := le_total TaskPc.ticket s.pc i
  have hold := h.covered
  have hnew := hcovered (total TaskPc.ticket s.pc - (s.pc i).ticket) (by omega)
  rw [hpc]
  omega

theorem sees_stay (h : Delivered s) (hp : p.Sees s.workqueue) (j : ι) :
    (Function.update s.pc i p j).Sees s.workqueue := by
  by_cases hj : j = i
  · subst hj
    rw [Function.update_self]
    exact hp
  · rw [Function.update_of_ne hj]
    exact h.sees j

/-- Nobody else has seen the list while this thread holds the lock. -/
theorem sees_alone (h : Delivered s) (hi : (s.pc i).InLock) {queue : List R} (hp : p.Sees queue)
    (j : ι) : (Function.update s.pc i p j).Sees queue := by
  by_cases hj : j = i
  · subst hj
    rw [Function.update_self]
    exact hp
  · rw [Function.update_of_ne hj]
    have hout : ¬ (s.pc j).InLock := fun hin => hj (h.lock.alone hin hi)
    revert hout
    cases s.pc j <;> simp

/-- The list and the semaphore stay as they are. -/
theorem quiet (h : Delivered s) (hpc : s'.pc = Function.update s.pc i p)
    (hqueue : s'.workqueue = s.workqueue) (hstat : s'.queuestat = s.queuestat)
    (haccepted : s'.accepted = s.accepted) (htaken : s'.taken = s.taken)
    (hticket : s.workqueue = [] ∨ (s.pc i).ticket ≤ p.ticket)
    (hlock : Exclusive TaskPc.InLock s'.queuelocker s'.pc) (hp : p.Sees s.workqueue) :
    Delivered s' := by
  refine h.move hpc ?_ ?_ hlock ?_
  · rw [haccepted, htaken, hqueue]
    exact h.order
  · intro n hn
    rw [hqueue, hstat]
    rcases hticket with hnil | hle
    · rw [hnil]
      exact Nat.zero_le _
    · omega
  · rw [hpc, hqueue]
    exact h.sees_stay hp

/-- **Step lemma** for the next statement of a thread. -/
theorem next (h : Delivered s) {maxRequests : Nat} (hs : s.next maxRequests i = some s') :
    Delivered s' := by
  have hlock := h.lock
  unfold Threadpool.next at hs
  cases hpc : s.pc i with
  | idle => simp only [hpc] at hs; cases hs
  | entering request =>
    simp only [hpc, Threadpool.goto] at hs
    split at hs
    · rename_i hfree
      cases hs
      rw [hfree] at hlock
      exact h.quiet rfl rfl rfl rfl rfl (.inr (by simp [hpc])) (hlock.acquire trivial) trivial
    · cases hs
  | testing request =>
    simp only [hpc, Threadpool.goto] at hs
    cases hs
    split
    · exact h.quiet rfl rfl rfl rfl rfl (.inr (by simp [hpc])) (hlock.stay (by simp [hpc])) trivial
    · exact h.quiet rfl rfl rfl rfl rfl (.inr (by simp [hpc])) (hlock.stay (by simp [hpc])) trivial
  | refusing =>
    simp only [hpc, Threadpool.goto] at hs
    cases hs
    exact h.quiet rfl rfl rfl rfl rfl (.inr (by simp [hpc])) (hlock.release (by simp [hpc]) id)
      trivial
  | pushing request =>
    have hin : (s.pc i).InLock := by simp [hpc]
    simp only [hpc, Threadpool.goto] at hs
    cases hs
    refine h.move rfl ?_ ?_ (hlock.stay (by simp [hpc])) (h.sees_alone hin trivial)
    · simp only [h.order, List.append_assoc]
    · intro n hn
      simp only [hpc, TaskPc.ticket, List.length_append, List.length_singleton] at hn ⊢
      omega
  | pushed =>
    simp only [hpc, Threadpool.goto] at hs
    cases hs
    exact h.quiet rfl rfl rfl rfl rfl (.inr (by simp [hpc])) (hlock.release (by simp [hpc]) id)
      trivial
  | posting =>
    simp only [hpc, Threadpool.goto] at hs
    cases hs
    refine h.move rfl h.order ?_ (hlock.stay (by simp [hpc])) (h.sees_stay trivial)
    intro n hn
    simp only [hpc, TaskPc.ticket] at hn ⊢
    omega
  | waiting =>
    simp only [hpc, Threadpool.goto] at hs
    split at hs
    · rename_i hpos
      cases hs
      refine h.move rfl h.order ?_ (hlock.stay (by simp [hpc])) (h.sees_stay trivial)
      intro n hn
      simp only [hpc, TaskPc.ticket, Bool.toNat_true] at hn ⊢
      omega
    · cases hs
  | awake counted =>
    simp only [hpc, Threadpool.goto] at hs
    split at hs
    · rename_i hfree
      cases hs
      rw [hfree] at hlock
      exact h.quiet rfl rfl rfl rfl rfl (.inr (by simp [hpc])) (hlock.acquire trivial) trivial
    · cases hs
  | checking counted =>
    simp only [hpc, Threadpool.goto] at hs
    cases hs
    by_cases hnil : s.workqueue = []
    · -- the count is lost, and no request needs it
      rw [hnil]
      exact h.quiet (p := .nothing) rfl hnil.symm rfl rfl rfl (.inl hnil)
        (hlock.stay (by simp [hpc])) trivial
    · rw [if_neg (by simpa using hnil)]
      exact h.quiet rfl rfl rfl rfl rfl (.inr (by simp [hpc])) (hlock.stay (by simp [hpc])) hnil
  | nothing =>
    simp only [hpc, Threadpool.goto] at hs
    cases hs
    exact h.quiet rfl rfl rfl rfl rfl (.inr (by simp [hpc])) (hlock.release (by simp [hpc]) id)
      trivial
  | atFront counted =>
    simp only [hpc, Threadpool.goto] at hs
    split at hs
    · rename_i request rest hqueue
      cases hs
      refine h.quiet rfl rfl rfl rfl rfl (.inr (by simp [hpc])) (hlock.stay (by simp [hpc])) ?_
      simp [hqueue]
    · cases hs
  | atPop counted request =>
    have hhead := h.sees i
    have hin : (s.pc i).InLock := by simp [hpc]
    have horder := h.order
    simp only [hpc, Threadpool.goto] at hs hhead
    split at hs
    · rename_i first rest hqueue
      cases hs
      simp only [hqueue, TaskPc.Sees, List.head?_cons, Option.some.injEq] at hhead
      subst hhead
      refine h.move rfl ?_ ?_ (hlock.stay (by simp [hpc])) (h.sees_alone hin trivial)
      · simp [horder, hqueue]
      · intro n hn
        have hone : counted.toNat ≤ 1 := Bool.toNat_le counted
        simp only [hpc, hqueue, TaskPc.ticket, List.length_cons] at hn ⊢
        omega
    · cases hs
  | popped request =>
    simp only [hpc, Threadpool.goto] at hs
    cases hs
    exact h.quiet rfl rfl rfl rfl rfl (.inr (by simp [hpc])) (hlock.release (by simp [hpc]) id)
      trivial
  | working request =>
    simp only [hpc, Threadpool.goto] at hs
    cases hs
    exact h.quiet rfl rfl rfl rfl rfl (.inr (by simp [hpc])) (hlock.stay (by simp [hpc])) trivial

end Delivered

/-- **Step lemma.** -/
theorem delivered_step [DecidableEq ι] {maxRequests : Nat} {s s' : Threadpool ι R}
    {l : TaskLabel ι R} (h : Delivered s) (hs : s.step maxRequests l = some s') :
    Delivered s' := by
  cases l with
  | append i request =>
    cases hpc : s.pc i <;> simp only [Threadpool.step, hpc, reduceCtorEq] at hs
    cases hs
    exact h.quiet rfl rfl rfl rfl rfl (.inr (by simp [hpc])) (h.lock.stay (by simp [hpc])) trivial
  | interrupt i =>
    cases hpc : s.pc i <;> simp only [Threadpool.step, hpc, reduceCtorEq] at hs
    cases hs
    exact h.quiet rfl rfl rfl rfl rfl (.inr (by simp [hpc])) (h.lock.stay (by simp [hpc])) trivial
  | run i => exact h.next hs

theorem delivered_reachable [DecidableEq ι] {maxRequests : Nat} {s : Threadpool ι R}
    (h : Reachable TaskInitial (Threadpool.step maxRequests) (fun _ _ => True) s) :
    Delivered s :=
  h.invariant (fun _ h => delivered_initial h) fun _ _ _ ht _ hs => delivered_step ht hs

/-- Everybody waits, and no count is there or to come: then no request is there either. -/
theorem Delivered.never_stranded {s : Threadpool ι R} (h : Delivered s)
    (hwait : ∀ i, (s.pc i).Worker → s.pc i = .waiting) (hstat : s.queuestat = 0)
    (hpost : ∀ i, ¬ (s.pc i).BeforePost) : s.workqueue = [] := by
  have hticket : total TaskPc.ticket s.pc = 0 := by
    refine total_zero fun i => ?_
    have hw := hwait i
    have hp := hpost i
    revert hw hp
    cases s.pc i <;> simp [TaskPc.Worker, TaskPc.BeforePost]
  have hcovered := h.covered
  rw [hstat, hticket] at hcovered
  exact List.length_eq_zero_iff.mp (Nat.le_zero.mp hcovered)

/-- **The work queue delivers** every request once and in order, and strands none: the `k`-th pop is
of the `k`-th request that was linked. -/
theorem delivery [DecidableEq ι] {maxRequests : Nat} {s : Threadpool ι R}
    (h : Reachable TaskInitial (Threadpool.step maxRequests) (fun _ _ => True) s) :
    s.accepted = s.taken.map Prod.snd ++ s.workqueue ∧
    (∀ (k : Nat) (i : ι) (request : R), s.taken[k]? = some (i, request) →
      s.accepted[k]? = some request) ∧
    ((∀ i, (s.pc i).Worker → s.pc i = .waiting) → s.queuestat = 0 →
      (∀ i, ¬ (s.pc i).BeforePost) → s.workqueue = []) := by
  have hdelivered := delivered_reachable h
  refine ⟨hdelivered.order, ?_, hdelivered.never_stranded⟩
  intro k i request htaken
  have hk : k < (s.taken.map Prod.snd).length := by
    rw [List.length_map]
    exact (List.getElem?_eq_some_iff.mp htaken).1
  rw [hdelivered.order, List.getElem?_append_left hk, List.getElem?_map, htaken]
  rfl

/-- An appender, and a worker that waits. -/
def quietPool : Threadpool Bool Nat where
  workqueue := []
  queuestat := 0
  queuelocker := none
  pc := fun i => if i then .idle else .waiting
  accepted := []
  taken := []

theorem quietPool_initial : TaskInitial quietPool where
  workqueue := rfl
  queuestat := rfl
  queuelocker := rfl
  pc := fun
    | true => .inl rfl
    | false => .inr rfl
  accepted := rfl
  taken := rfl

/-- One request, whose post the worker takes after a signal has woken it in vain. -/
theorem delivery_one : ∃ s : Threadpool Bool Nat, s.accepted = [7] ∧ s.taken = [(false, 7)] ∧
    s.accepted = s.taken.map Prod.snd ++ s.workqueue := by
  have hrun : (runSteps (Threadpool.step 10000) quietPool
      ([.interrupt false] ++ List.replicate 3 (.run false) ++ [.append true 7] ++
        List.replicate 5 (.run true) ++ List.replicate 5 (.run false))).map
      (fun s => (s.accepted, s.taken)) = some ([7], [(false, 7)]) := by
    decide +kernel
  obtain ⟨s, hs, hval⟩ := Option.map_eq_some_iff.mp hrun
  obtain ⟨haccepted, htaken⟩ := Prod.mk.inj hval
  have hreach := Reachable.of_run (fun _ _ _ => trivial) (.init quietPool_initial) hs
  exact ⟨s, haccepted, htaken, (delivery hreach).1⟩

end TinyHTTP.Pool
