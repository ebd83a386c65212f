import TinyHTTP.Lib.Run
import TinyHTTP.Log.BlockQueue

/-!
# TinyHTTP — waiting for an element

`pop` waits on a condition variable while the queue is empty; `push` broadcasts
after it has released the mutex. Any number of threads call `push`, `pop` and
`clear`. What the mutex protects is looked at under the mutex only, so a critical
section and its unlock are one step; taking the mutex, waiting and broadcasting are
steps of their own.

* `queue_represents` — the queue holds a sequence, whatever the order of the calls.
* `awaited_step` — an element and a waiter are never there without a broadcast to come.
* `no_lost_wakeup` — so nobody waits for an element that is there, once every `push`
  has returned.
-/

namespace TinyHTTP.Log

open TinyHTTP.Lib

/-- Where a thread is in `push`, `pop` or `clear`. -/
inductive WaitPc (T : Type) where
  | outside
  /-- in `push`, at `m_mutex.lock()` -/
  | pushing (value : T)
  /-- in `push`, with the mutex -/
  | pushLocked (value : T)
  /-- in `push`, between `m_mutex.unlock()` and `m_cond.broadcast()` -/
  | broadcasting (result : Bool)
  /-- in `pop`, at `m_mutex.lock()` -/
  | popping
  /-- in `pop`, with the mutex, at `while (m_size <= 0)` -/
  | popLocked
  /-- in `m_cond.wait` -/
  | blocked
  /-- in `m_cond.wait`, woken: the mutex has to be taken again -/
  | woken
  /-- in `clear`, at `m_mutex.lock()` -/
  | clearing
  /-- in `clear`, with the mutex -/
  | clearLocked
  deriving DecidableEq

structure WaitQueue (ι T : Type) where
  queue : BlockQueue T
  /-- the holder of `m_mutex` -/
  mutex : Option ι
  pc : ι → WaitPc T

inductive WaitLabel (ι T : Type) where
  | push (i : ι) (value : T)
  | pop (i : ι)
  | clear (i : ι)
  /-- a wake-up without a broadcast -/
  | spurious (i : ι)
  /-- the next step of a thread -/
  | run (i : ι)

variable {ι T : Type}

/-- What a broadcast does to a thread. -/
def WaitPc.wake : WaitPc T → WaitPc T
  | .blocked => .woken
  | pc => pc

section
variable [DecidableEq ι]

def WaitQueue.goto (s : WaitQueue ι T) (i : ι) (pc : WaitPc T) : WaitQueue ι T :=
  { s with pc := Function.update s.pc i pc }

/-- `m_mutex.lock()` -/
def WaitQueue.lock (s : WaitQueue ι T) (i : ι) (pc : WaitPc T) : Option (WaitQueue ι T) :=
  match s.mutex with
  | none => some { s.goto i pc with mutex := some i }
  | some _ => none

/-- The next step of thread `i`. -/
def WaitQueue.next (s : WaitQueue ι T) (i : ι) : Option (WaitQueue ι T) :=
  match s.pc i with
  | .outside => none
  | .pushing value => s.lock i (.pushLocked value)
  | .pushLocked value =>
    match s.queue.push value with
    | .ok (queue, result) =>
      some { s.goto i (.broadcasting result) with queue := queue, mutex := none }
    | .error _ => none
  | .broadcasting _ =>
    some { s with pc := Function.update (fun j => (s.pc j).wake) i .outside }
  | .popping => s.lock i .popLocked
  | .popLocked =>
    match s.queue.pop with
    | .ok (queue, _) => some { s.goto i .outside with queue := queue, mutex := none }
    | .error .blocked => some { s.goto i .blocked with mutex := none }
    | .error .outOfBounds => none
  | .blocked => none
  | .woken => s.lock i .popLocked
  | .clearing => s.lock i .clearLocked
  | .clearLocked => some { s.goto i .outside with queue := s.queue.clear, mutex := none }

def WaitQueue.step (s : WaitQueue ι T) : WaitLabel ι T → Option (WaitQueue ι T)
  | .push i value =>
    match s.pc i with
    | .outside => some (s.goto i (.pushing value))
    | _ => none
  | .pop i =>
    match s.pc i with
    | .outside => some (s.goto i .popping)
    | _ => none
  | .clear i =>
    match s.pc i with
    | .outside => some (s.goto i .clearing)
    | _ => none
  | .spurious i =>
    match s.pc i with
    | .blocked => some (s.goto i .woken)
    | _ => none
  | .run i => s.next i

end

/-- A new queue, and nobody in it. -/
structure WaitInitial (s : WaitQueue ι T) : Prop where
  queue : ∃ garbage maxSize, BlockQueue.init garbage maxSize = some s.queue
  mutex : s.mutex = none
  pc : ∀ i, s.pc i = .outside

/-- The thread is between its unlock and its broadcast. -/
def WaitPc.Broadcasts : WaitPc T → Prop
  | .broadcasting _ => True
  | _ => False

/-- The thread is in `push`. -/
def WaitPc.InPush : WaitPc T → Prop
  | .pushing _ | .pushLocked _ | .broadcasting _ => True
  | _ => False

/-- An element and a waiter are there together only with a broadcast to come. -/
def Awaited (s : WaitQueue ι T) : Prop :=
  0 < s.queue.size → (∃ i, s.pc i = .blocked) → ∃ i, (s.pc i).Broadcasts

-- ---------------------------------------------------------------------------
-- Steps
-- ---------------------------------------------------------------------------

theorem awaited_initial {s : WaitQueue ι T} (h : WaitInitial s) : Awaited s := by
  rintro - ⟨i, hi⟩
  rw [h.pc i] at hi
  cases hi

theorem wake_ne_blocked (pc : WaitPc T) : pc.wake ≠ .blocked := by
  cases pc <;> exact nofun

/-- A pop takes one element. -/
theorem pop_size {q q' : BlockQueue T} {value : T} (h : q.pop = .ok (q', value)) :
    q'.size = q.size - 1 := by
  unfold BlockQueue.pop at h
  split at h
  · cases h
  · cases hread : BlockQueue.read { q with front := (q.front + 1).tmod q.maxSize }
        ((q.front + 1).tmod q.maxSize) with
    | error e => simp [hread, bind, Except.bind] at h
    | ok v =>
      simp only [hread, bind, Except.bind, pure, Except.pure, Except.ok.injEq, Prod.mk.injEq] at h
      rw [← h.1]

theorem pop_blocked {q : BlockQueue T} (h : q.pop = .error .blocked) : q.size ≤ 0 := by
  by_contra hsize
  unfold BlockQueue.pop at h
  rw [if_neg hsize] at h
  unfold BlockQueue.read at h
  simp only [bind, Except.bind] at h
  split at h
  · rename_i e heq
    split at heq
    · cases heq
    · cases heq
      cases h
  · cases h

section
variable [DecidableEq ι]

/-- A thread moves that neither starts to wait nor broadcasts. -/
theorem Awaited.move {s s' : WaitQueue ι T} {i : ι} {p : WaitPc T} (h : Awaited s)
    (hpc : s'.pc = Function.update s.pc i p) (hsize : 0 < s'.queue.size → 0 < s.queue.size)
    (hp : p = .blocked → s'.queue.size ≤ 0) (hi : ¬ (s.pc i).Broadcasts) : Awaited s' := by
  rintro hpos ⟨j, hj⟩
  rw [hpc] at hj ⊢
  have hold : s.pc j = .blocked := by
    by_cases hji : j = i
    · subst hji
      rw [Function.update_self] at hj
      exact absurd (hp hj) (by omega)
    · rwa [Function.update_of_ne hji] at hj
  obtain ⟨k, hk⟩ := h (hsize hpos) ⟨j, hold⟩
  refine ⟨k, ?_⟩
  have hki : k ≠ i := by
    rintro rfl
    exact hi hk
  rwa [Function.update_of_ne hki]

theorem Awaited.lock {s s' : WaitQueue ι T} {i : ι} {p : WaitPc T} (h : Awaited s)
    (hs : s.lock i p = some s') (hp : p ≠ .blocked) (hi : ¬ (s.pc i).Broadcasts) :
    Awaited s' := by
  unfold WaitQueue.lock at hs
  split at hs
  · cases hs
    exact h.move rfl id (fun he => absurd he hp) hi
  · cases hs

theorem Awaited.next {s s' : WaitQueue ι T} {i : ι} (h : Awaited s) (hs : s.next i = some s') :
    Awaited s' := by
  unfold WaitQueue.next at hs
  cases hpc : s.pc i with
  | outside | blocked => simp only [hpc] at hs; cases hs
  | pushing value =>
    simp only [hpc] at hs
    exact h.lock hs nofun (by rw [hpc]; exact id)
  | pushLocked value =>
    simp only [hpc] at hs
    split at hs
    · cases hs
      -- the broadcast of this push is to come
      exact fun _ _ => ⟨i, by simp [WaitQueue.goto, WaitPc.Broadcasts]⟩
    · cases hs
  | broadcasting result =>
    simp only [hpc] at hs
    cases hs
    rintro - ⟨j, hj⟩
    by_cases hji : j = i
    · subst hji
      simp at hj
    · simp only [Function.update_of_ne hji] at hj
      exact absurd hj (wake_ne_blocked _)
  | popping =>
    simp only [hpc] at hs
    exact h.lock hs nofun (by rw [hpc]; exact id)
  | popLocked =>
    have hnot : ¬ (s.pc i).Broadcasts := by rw [hpc]; exact id
    simp only [hpc] at hs
    split at hs
    · rename_i queue value hpop
      cases hs
      refine h.move rfl ?_ nofun hnot
      intro hpos
      rw [pop_size hpop] at hpos
      omega
    · rename_i hpop
      cases hs
      exact h.move rfl id (fun _ => pop_blocked hpop) hnot
    · cases hs
  | woken =>
    simp only [hpc] at hs
    exact h.lock hs nofun (by rw [hpc]; exact id)
  | clearing =>
    simp only [hpc] at hs
    exact h.lock hs nofun (by rw [hpc]; exact id)
  | clearLocked =>
    simp only [hpc] at hs
    cases hs
    exact fun hpos => absurd hpos (Int.lt_irrefl 0)

/-- **Step lemma.** -/
theorem awaited_step {s s' : WaitQueue ι T} {l : WaitLabel ι T} (h : Awaited s)
    (hs : s.step l = some s') : Awaited s' := by
  cases l with
  | run i => exact h.next hs
  | push i _ | pop i | clear i | spurious i =>
    cases hpc : s.pc i <;> simp only [WaitQueue.step, hpc, reduceCtorEq] at hs
    cases hs
    exact h.move rfl id nofun (by rw [hpc]; exact id)

/-- **No wake-up is lost.** -/
theorem no_lost_wakeup {s : WaitQueue ι T}
    (h : Reachable WaitInitial WaitQueue.step (fun _ _ => True) s) :
    (0 < s.queue.size → (∃ i, s.pc i = .blocked) → ∃ i, (s.pc i).Broadcasts) ∧
    ((∀ i, ¬ (s.pc i).InPush) → (∃ i, s.pc i = .blocked) → s.queue.size ≤ 0) := by
  have hawaited : Awaited s :=
    h.invariant (fun _ h => awaited_initial h) fun _ _ _ ht _ hs => awaited_step ht hs
  refine ⟨hawaited, ?_⟩
  intro houtside hblocked
  by_contra hpos
  obtain ⟨i, hi⟩ := hawaited (Int.not_le.mp hpos) hblocked
  refine houtside i ?_
  revert hi
  cases s.pc i <;> simp [WaitPc.Broadcasts, WaitPc.InPush]

-- ---------------------------------------------------------------------------
-- The queue
-- ---------------------------------------------------------------------------

theorem lock_queue {s s' : WaitQueue ι T} {i : ι} {p : WaitPc T} (hs : s.lock i p = some s') :
    s'.queue = s.queue := by
  unfold WaitQueue.lock at hs
  split at hs
  · cases hs
    rfl
  · cases hs

theorem represents_next {s s' : WaitQueue ι T} {i : ι} {xs : List T}
    (h : Represents s.queue xs) (hs : s.next i = some s') : ∃ xs', Represents s'.queue xs' := by
  unfold WaitQueue.next at hs
  cases hpc : s.pc i with
  | outside | blocked => simp only [hpc] at hs; cases hs
  | pushing _ | popping | woken | clearing =>
    simp only [hpc] at hs
    exact ⟨xs, lock_queue hs ▸ h⟩
  | pushLocked value =>
    simp only [hpc] at hs
    by_cases hroom : (xs.length : Int) < s.queue.maxSize
    · obtain ⟨queue, hpush, -, hq⟩ := h.push hroom value
      rw [hpush] at hs
      cases hs
      exact ⟨_, hq⟩
    · rw [h.push_full (Int.not_lt.mp hroom) value] at hs
      cases hs
      exact ⟨xs, h⟩
  | broadcasting result =>
    simp only [hpc] at hs
    cases hs
    exact ⟨xs, h⟩
  | popLocked =>
    simp only [hpc] at hs
    cases xs with
    | nil =>
      rw [h.pop_nil] at hs
      cases hs
      exact ⟨[], h⟩
    | cons x rest =>
      obtain ⟨queue, hpop, -, hq⟩ := h.pop
      rw [hpop] at hs
      cases hs
      exact ⟨rest, hq⟩
  | clearLocked =>
    simp only [hpc] at hs
    cases hs
    exact ⟨[], h.clear⟩

/-- The queue holds a sequence in every order of the calls, so no index is ever outside the
array. -/
theorem queue_represents {s : WaitQueue ι T}
    (h : Reachable WaitInitial WaitQueue.step (fun _ _ => True) s) :
    ∃ xs, Represents s.queue xs := by
  refine h.invariant (P := fun s => ∃ xs, Represents s.queue xs) ?_ ?_
  · intro t ht
    obtain ⟨garbage, maxSize, hinit⟩ := ht.queue
    exact ⟨[], represents_init hinit⟩
  · rintro t l t' ⟨xs, hxs⟩ - hs
    cases l with
    | run i => exact represents_next hxs hs
    | push i _ | pop i | clear i | spurious i =>
      cases hpc : t.pc i <;> simp only [WaitQueue.step, hpc, reduceCtorEq] at hs
      cases hs
      exact ⟨xs, hxs⟩

end

/-- Two threads, and nothing to pop. -/
def nothingToPop : WaitQueue Bool Nat := ⟨⟨fun _ => 0, 0, 1, -1, -1⟩, none, fun _ => .outside⟩

theorem nothingToPop_initial : WaitInitial nothingToPop :=
  ⟨⟨fun _ => 0, 1, rfl⟩, rfl, fun _ => rfl⟩

/-- A thread waits, and the push of another has released the mutex. -/
theorem no_lost_wakeup_push : ∃ s : WaitQueue Bool Nat, 0 < s.queue.size ∧
    s.pc false = .blocked ∧ ∃ i, (s.pc i).Broadcasts := by
  have hrun : (runSteps WaitQueue.step nothingToPop
      [.pop false, .run false, .run false, .push true 7, .run true, .run true]).map
      (fun s => (s.queue.size, s.pc false)) = some (1, .blocked) := by
    decide +kernel
  obtain ⟨s, hs, hval⟩ := Option.map_eq_some_iff.mp hrun
  obtain ⟨hsize, hblocked⟩ := Prod.mk.inj hval
  have hreach := Reachable.of_run (fun _ _ _ => trivial) (.init nothingToPop_initial) hs
  have hpos : 0 < s.queue.size := by omega
  exact ⟨s, hpos, hblocked, (no_lost_wakeup hreach).1 hpos ⟨false, hblocked⟩⟩

end TinyHTTP.Log
