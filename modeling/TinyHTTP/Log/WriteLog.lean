import TinyHTTP.Lib.Run
import TinyHTTP.Lib.Threads
import TinyHTTP.Log.BlockQueue

/-!
# TinyHTTP — the asynchronous logger

`write_log` formats a line, asks the queue whether it is full, and either pushes the
line or writes it itself; `asyn_write_log` writes what it pops. Any number of threads
write. Each critical section is one step, so others come between the question and the
push, whose result nobody looks at.

* `log_cases` — what a step does.
* `log_step` — what happens to the lines in one step: only a refused push loses one.
* `no_line_lost` — each line is written once, as long as no push is refused, and no
  longer.
-/

namespace TinyHTTP.Log

open TinyHTTP.Lib

/-- Where a thread is in `write_log`. -/
inductive LogPc (T : Type) where
  | outside
  /-- `log_str` holds the line: at `m_log_queue->full()` -/
  | testing (line : T)
  /-- at `m_log_queue->push(log_str)` -/
  | pushing (line : T)
  /-- at `fputs(log_str.c_str(), m_fp)` -/
  | writing (line : T)
  deriving DecidableEq

structure Logger (ι T : Type) where
  queue : BlockQueue T
  pc : ι → LogPc T
  /-- `single_log`, from `pop` to `fputs` -/
  singleLog : Option T
  /-- the lines that `fputs` has got -/
  file : List T
  /-- the lines that have been formatted -/
  formatted : List T

inductive LogLabel (ι T : Type) where
  /-- a call of `write_log`, up to the formatted line -/
  | write (i : ι) (line : T)
  /-- the next critical section of a thread in `write_log` -/
  | run (i : ι)
  /-- the next critical section of `asyn_write_log` -/
  | consume

variable {ι T : Type}

section
variable [DecidableEq ι]

def Logger.goto (s : Logger ι T) (i : ι) (pc : LogPc T) : Logger ι T :=
  { s with pc := Function.update s.pc i pc }

def Logger.step (s : Logger ι T) : LogLabel ι T → Option (Logger ι T)
  | .write i line =>
    match s.pc i with
    | .outside => some { s.goto i (.testing line) with formatted := s.formatted ++ [line] }
    | _ => none
  | .run i =>
    match s.pc i with
    | .outside => none
    | .testing line => some (s.goto i (if s.queue.full then .writing line else .pushing line))
    | .pushing line =>
      match s.queue.push line with
      | .ok (queue, _) => some { s.goto i .outside with queue := queue }
      | .error _ => none
    | .writing line => some { s.goto i .outside with file := s.file ++ [line] }
  | .consume =>
    match s.singleLog with
    | some line => some { s with file := s.file ++ [line], singleLog := none }
    | none =>
      match s.queue.pop with
      | .ok (queue, line) => some { s with queue := queue, singleLog := some line }
      | .error _ => none

end

/-- A new queue, and no line yet. -/
structure LogInitial (s : Logger ι T) : Prop where
  queue : ∃ garbage maxSize, BlockQueue.init garbage maxSize = some s.queue
  pc : ∀ i, s.pc i = .outside
  singleLog : s.singleLog = none
  file : s.file = []
  formatted : s.formatted = []

/-- Every `write_log` has returned, and the queue is drained. -/
structure Quiet (s : Logger ι T) : Prop where
  pc : ∀ i, s.pc i = .outside
  singleLog : s.singleLog = none
  queue : s.queue.size = 0

/-- The step is not a push into a full queue. -/
def Accepting (s : Logger ι T) (l : LogLabel ι T) : Prop :=
  ∀ i line, l = .run i → s.pc i = .pushing line → s.queue.full = false

-- ---------------------------------------------------------------------------
-- Steps
-- ---------------------------------------------------------------------------

/-- What a step does to a logger whose queue holds `xs`, and then `xs'`. -/
inductive LogCase [DecidableEq ι] (s : Logger ι T) (xs : List T) :
    LogLabel ι T → Logger ι T → List T → Prop
  | write {i : ι} {line : T} (hpc : s.pc i = .outside) :
      LogCase s xs (.write i line)
        { s.goto i (.testing line) with formatted := s.formatted ++ [line] } xs
  | test {i : ι} {line : T} (hpc : s.pc i = .testing line) :
      LogCase s xs (.run i) (s.goto i (if s.queue.full then .writing line else .pushing line)) xs
  | push {i : ι} {line : T} {queue : BlockQueue T} (hpc : s.pc i = .pushing line)
      (hfull : s.queue.full = false) :
      LogCase s xs (.run i) { s.goto i .outside with queue := queue } (xs ++ [line])
  | refuse {i : ι} {line : T} (hpc : s.pc i = .pushing line) (hfull : s.queue.full = true) :
      LogCase s xs (.run i) (s.goto i .outside) xs
  | direct {i : ι} {line : T} (hpc : s.pc i = .writing line) :
      LogCase s xs (.run i) { s.goto i .outside with file := s.file ++ [line] } xs
  | put {line : T} (hsingle : s.singleLog = some line) :
      LogCase s xs .consume { s with file := s.file ++ [line], singleLog := none } xs
  | take {line : T} {rest : List T} {queue : BlockQueue T} (hsingle : s.singleLog = none)
      (hxs : xs = line :: rest) :
      LogCase s xs .consume { s with queue := queue, singleLog := some line } rest

theorem log_cases [DecidableEq ι] {s s' : Logger ι T} {l : LogLabel ι T} {xs : List T}
    (h : Represents s.queue xs) (hs : s.step l = some s') :
    ∃ xs', Represents s'.queue xs' ∧ LogCase s xs l s' xs' := by
  cases l with
  | write i line =>
    cases hpc : s.pc i <;> simp only [Logger.step, hpc, reduceCtorEq] at hs
    cases hs
    exact ⟨xs, h, .write hpc⟩
  | run i =>
    cases hpc : s.pc i with
    | outside => simp only [Logger.step, hpc, reduceCtorEq] at hs
    | testing line =>
      simp only [Logger.step, hpc] at hs
      cases hs
      exact ⟨xs, h, .test hpc⟩
    | pushing line =>
      simp only [Logger.step, hpc] at hs
      by_cases hroom : (xs.length : Int) < s.queue.maxSize
      · obtain ⟨queue, hpush, -, hq⟩ := h.push hroom line
        simp only [hpush] at hs
        cases hs
        have hfull : s.queue.full = false := by
          rw [h.full]
          exact decide_eq_false (Int.not_le.mpr hroom)
        exact ⟨xs ++ [line], hq, .push hpc hfull⟩
      · have hfull := Int.not_lt.mp hroom
        simp only [h.push_full hfull line] at hs
        cases hs
        have hfull' : s.queue.full = true := by
          rw [h.full]
          exact decide_eq_true hfull
        exact ⟨xs, h, .refuse hpc hfull'⟩
    | writing line =>
      simp only [Logger.step, hpc] at hs
      cases hs
      exact ⟨xs, h, .direct hpc⟩
  | consume =>
    cases hsingle : s.singleLog with
    | some line =>
      simp only [Logger.step, hsingle] at hs
      cases hs
      exact ⟨xs, h, .put hsingle⟩
    | none =>
      simp only [Logger.step, hsingle] at hs
      cases xs with
      | nil =>
        simp only [h.pop_nil] at hs
        cases hs
      | cons line rest =>
        obtain ⟨queue, hpop, -, hq⟩ := h.pop
        simp only [hpop] at hs
        cases hs
        exact ⟨rest, hq, .take hsingle rfl⟩

-- ---------------------------------------------------------------------------
-- Lines
-- ---------------------------------------------------------------------------

/-- The line that a thread has in hand. -/
@[simp] def LogPc.inHand : LogPc T → Multiset T
  | .outside => 0
  | .testing line | .pushing line | .writing line => {line}

/-- The lines that a step formats. -/
@[simp] def LogLabel.new : LogLabel ι T → Multiset T
  | .write _ line => {line}
  | _ => 0

/-- The lines that a step drops. -/
def Logger.lost (s : Logger ι T) : LogLabel ι T → Multiset T
  | .run i =>
    match s.pc i with
    | .pushing line => if s.queue.full then {line} else 0
    | _ => 0
  | _ => 0

/-- The lines that are somewhere, if the queue holds `xs`. -/
def Logger.lines [Fintype ι] (s : Logger ι T) (xs : List T) : Multiset T :=
  s.file + xs + total LogPc.inHand s.pc + s.singleLog.toList

theorem lost_eq_zero_iff {s : Logger ι T} {l : LogLabel ι T} : s.lost l = 0 ↔ Accepting s l := by
  have hothers (hl : ∀ i line, l = .run i → s.pc i ≠ .pushing line) : Accepting s l :=
    fun i line he hpush => absurd hpush (hl i line he)
  cases l with
  | write i line => exact iff_of_true rfl (hothers nofun)
  | consume => exact iff_of_true rfl (hothers nofun)
  | run i =>
    unfold Logger.lost
    cases hpc : s.pc i with
    | pushing line =>
      cases hfull : s.queue.full with
      | false => exact iff_of_true (by simp [hpc]) fun _ _ _ _ => hfull
      | true =>
        refine iff_of_false (by simp [hpc]) fun hok => ?_
        rw [hok i line rfl hpc] at hfull
        cases hfull
    | outside | testing line | writing line =>
      simp only [hpc]
      refine iff_of_true trivial (hothers ?_)
      intro j line' he hpush
      obtain rfl : i = j := LogLabel.run.inj he
      rw [hpc] at hpush
      cases hpush

variable [Fintype ι]

/-- **Step lemma**: where the lines go. -/
theorem log_step [DecidableEq ι] {s s' : Logger ι T} {l : LogLabel ι T} {xs : List T}
    (h : Represents s.queue xs) (hs : s.step l = some s') :
    ∃ xs', Represents s'.queue xs' ∧ (s'.formatted : Multiset T) = s.formatted + l.new ∧
      s'.lines xs' + s.lost l = s.lines xs + l.new := by
  obtain ⟨xs', hq', hcase⟩ := log_cases h hs
  refine ⟨xs', hq', ?_⟩
  -- the thread that moves
  have hmove (i : ι) (p : LogPc T) := total_update LogPc.inHand s.pc i p
  cases hcase with
  | @write i line hpc =>
    refine ⟨rfl, ?_⟩
    have ht := hmove i (.testing line)
    simp only [hpc, LogPc.inHand, add_zero] at ht
    simp only [Logger.lines, Logger.lost, LogLabel.new, Logger.goto, ht]
    abel
  | @test i line hpc =>
    refine ⟨(add_zero _).symm, ?_⟩
    have ht := hmove i (if s.queue.full then .writing line else .pushing line)
    have hhand :
        LogPc.inHand (if s.queue.full then .writing line else .pushing line) = {line} := by
      split <;> rfl
    rw [hhand, hpc] at ht
    simp only [Logger.lines, Logger.lost, hpc, LogLabel.new, Logger.goto, add_right_cancel ht]
  | @push i line queue hpc hfull =>
    refine ⟨(add_zero _).symm, ?_⟩
    have ht := hmove i .outside
    simp only [hpc, LogPc.inHand, add_zero] at ht
    simp only [Logger.lines, Logger.lost, hpc, hfull, LogLabel.new, Logger.goto, ← ht,
      ← Multiset.coe_add, Multiset.coe_singleton]
    simp only [Bool.false_eq_true, if_false]
    abel
  | @refuse i line hpc hfull =>
    refine ⟨(add_zero _).symm, ?_⟩
    have ht := hmove i .outside
    simp only [hpc, LogPc.inHand, add_zero] at ht
    simp only [Logger.lines, Logger.lost, hpc, hfull, LogLabel.new, Logger.goto, ← ht, if_true]
    abel
  | @direct i line hpc =>
    refine ⟨(add_zero _).symm, ?_⟩
    have ht := hmove i .outside
    simp only [hpc, LogPc.inHand, add_zero] at ht
    simp only [Logger.lines, Logger.lost, hpc, LogLabel.new, Logger.goto, ← ht,
      ← Multiset.coe_add, Multiset.coe_singleton]
    abel
  | put hsingle =>
    refine ⟨(add_zero _).symm, ?_⟩
    simp only [Logger.lines, Logger.lost, LogLabel.new, hsingle, ← Multiset.coe_add,
      Multiset.coe_singleton, Option.toList_some, Option.toList_none, Multiset.coe_nil]
    abel
  | take hsingle hxs =>
    refine ⟨(add_zero _).symm, ?_⟩
    simp only [Logger.lines, Logger.lost, LogLabel.new, hsingle, hxs, ← Multiset.cons_coe,
      ← Multiset.singleton_add, Option.toList_some, Option.toList_none, Multiset.coe_nil]
    abel

-- ---------------------------------------------------------------------------
-- Runs
-- ---------------------------------------------------------------------------

/-- Every formatted line is somewhere. -/
def Kept (s : Logger ι T) : Prop :=
  ∃ xs, Represents s.queue xs ∧ (s.formatted : Multiset T) = s.lines xs

/-- Fewer lines are anywhere than have been formatted. -/
def Short (s : Logger ι T) : Prop :=
  ∃ xs, Represents s.queue xs ∧ (s.lines xs).card < s.formatted.length

theorem kept_initial {s : Logger ι T} (h : LogInitial s) : Kept s := by
  obtain ⟨garbage, maxSize, hqueue⟩ := h.queue
  refine ⟨[], represents_init hqueue, ?_⟩
  have hhand : total LogPc.inHand s.pc = 0 := by
    refine total_zero fun i => ?_
    rw [h.pc i]
    rfl
  rw [Logger.lines, hhand, h.file, h.singleLog, h.formatted]
  rfl

/-- With nothing in the queue or in hand, the lines that are somewhere are those of the file. -/
theorem Quiet.lines {s : Logger ι T} {xs : List T} (h : Quiet s) (hq : Represents s.queue xs) :
    s.lines xs = s.file := by
  have hhand : total LogPc.inHand s.pc = 0 := by
    refine total_zero fun i => ?_
    rw [h.pc i]
    rfl
  have hnil : xs = [] := by
    have hsize := hq.size
    rw [h.queue] at hsize
    exact List.length_eq_zero_iff.mp (by omega)
  simp only [Logger.lines, hhand, hnil, h.singleLog, Option.toList_none, Multiset.coe_nil,
    add_zero]

theorem Kept.perm {s : Logger ι T} (h : Kept s) (hquiet : Quiet s) :
    s.file.Perm s.formatted := by
  obtain ⟨xs, hq, hlines⟩ := h
  rw [hquiet.lines hq] at hlines
  exact (Multiset.coe_eq_coe.mp hlines).symm

theorem Short.not_perm {s : Logger ι T} (h : Short s) (hquiet : Quiet s) :
    ¬ s.file.Perm s.formatted := by
  obtain ⟨xs, hq, hlt⟩ := h
  rw [hquiet.lines hq, Multiset.coe_card] at hlt
  intro hperm
  rw [hperm.length_eq] at hlt
  exact Nat.lt_irrefl _ hlt

section
variable [DecidableEq ι]

theorem kept_step {s s' : Logger ι T} {l : LogLabel ι T} (h : Kept s) (hok : Accepting s l)
    (hs : s.step l = some s') : Kept s' := by
  obtain ⟨xs, hq, hlines⟩ := h
  obtain ⟨xs', hq', hformatted, hlines'⟩ := log_step hq hs
  rw [lost_eq_zero_iff.mpr hok, add_zero] at hlines'
  exact ⟨xs', hq', by rw [hformatted, hlines, hlines']⟩

theorem short_of_refused {s s' : Logger ι T} {l : LogLabel ι T} (h : Kept s)
    (hrefused : ¬ Accepting s l) (hs : s.step l = some s') : Short s' := by
  obtain ⟨xs, hq, hlines⟩ := h
  obtain ⟨xs', hq', hformatted, hlines'⟩ := log_step hq hs
  refine ⟨xs', hq', ?_⟩
  have hlost : 0 < (s.lost l).card := by
    rw [Multiset.card_pos]
    exact fun hzero => hrefused (lost_eq_zero_iff.mp hzero)
  rw [hlines, ← hlines'] at hformatted
  have hcard := congrArg Multiset.card hformatted
  rw [Multiset.coe_card, Multiset.card_add] at hcard
  omega

/-- A line that is lost stays lost. -/
theorem short_step {s s' : Logger ι T} {l : LogLabel ι T} (h : Short s)
    (hs : s.step l = some s') : Short s' := by
  obtain ⟨xs, hq, hlt⟩ := h
  obtain ⟨xs', hq', hformatted, hlines'⟩ := log_step hq hs
  refine ⟨xs', hq', ?_⟩
  have hcard := congrArg Multiset.card hformatted
  have hcard' := congrArg Multiset.card hlines'
  rw [Multiset.coe_card, Multiset.card_add, Multiset.coe_card] at hcard
  rw [Multiset.card_add, Multiset.card_add] at hcard'
  omega

/-- **No line is lost** while no push is refused: once all calls have returned and the queue is
drained, each line has been written once. After the first refused push that is never so again. -/
theorem no_line_lost {s : Logger ι T} (h : Reachable LogInitial Logger.step Accepting s) :
    (Quiet s → s.file.Perm s.formatted) ∧
    ∀ l s', s.step l = some s' → ¬ Accepting s l →
      ∀ t, Reachable (· = s') Logger.step (fun _ _ => True) t → Quiet t →
        ¬ t.file.Perm t.formatted := by
  have hkept : Kept s :=
    h.invariant (fun _ h => kept_initial h) fun _ _ _ ht hok hs => kept_step ht hok hs
  refine ⟨hkept.perm, ?_⟩
  intro l s' hs hrefused t ht hquiet
  have hshort := short_of_refused hkept hrefused hs
  have hshort' : Short t :=
    ht.invariant (fun _ h => h ▸ hshort) fun _ _ _ ht _ hs => short_step ht hs
  exact hshort'.not_perm hquiet

end

/-- A queue for one line, and two threads. -/
def oneLine : Logger Bool Nat where
  queue := ⟨fun _ => 0, 0, 1, -1, -1⟩
  pc := fun _ => .outside
  singleLog := none
  file := []
  formatted := []

theorem oneLine_initial : LogInitial oneLine where
  queue := ⟨fun _ => 0, 1, rfl⟩
  pc := fun _ => rfl
  singleLog := rfl
  file := rfl
  formatted := rfl

/-- The second thread finds the queue full, and writes its line itself. -/
theorem no_line_lost_two : ∃ s : Logger Bool Nat, s.file = [2, 1] ∧ Quiet s ∧
    s.file.Perm s.formatted := by
  have hrun : (runSteps (guarded (fun s l => decide (s.lost l = 0)) Logger.step) oneLine
      [.write true 1, .write false 2, .run true, .run true, .run false, .run false, .consume,
        .consume]).map
      (fun s => ((s.pc true, s.pc false), s.singleLog, s.queue.size, s.file)) =
      some ((.outside, .outside), none, 0, [2, 1]) := by
    decide +kernel
  obtain ⟨s, hs, hval⟩ := Option.map_eq_some_iff.mp hrun
  simp only [Prod.mk.injEq] at hval
  obtain ⟨⟨htrue, hfalse⟩, hsingle, hsize, hfile⟩ := hval
  have hquiet : Quiet s := ⟨fun | true => htrue | false => hfalse, hsingle, hsize⟩
  have hreach := Reachable.of_guarded
    (fun _ _ h => lost_eq_zero_iff.mp (of_decide_eq_true h)) (.init oneLine_initial) hs
  exact ⟨s, hfile, hquiet, (no_line_lost hreach).1 hquiet⟩

/-- Both threads find room for their lines; the second push does not. -/
theorem line_lost : ¬ ∀ s : Logger Bool Nat,
    Reachable LogInitial Logger.step (fun _ _ => True) s → Quiet s →
    s.file.Perm s.formatted := by
  intro hall
  have hrun : (runSteps Logger.step oneLine [.write true 1, .write false 2, .run true, .run false,
      .run true, .run false, .consume, .consume]).map
      (fun s => ((s.pc true, s.pc false), s.singleLog, s.queue.size, s.file, s.formatted)) =
      some ((.outside, .outside), none, 0, [1], [1, 2]) := by
    decide +kernel
  obtain ⟨s, hs, hval⟩ := Option.map_eq_some_iff.mp hrun
  simp only [Prod.mk.injEq] at hval
  obtain ⟨⟨htrue, hfalse⟩, hsingle, hsize, hfile, hformatted⟩ := hval
  have hreach := Reachable.of_run (fun _ _ _ => trivial) (.init oneLine_initial) hs
  have hquiet : Quiet s := ⟨fun | true => htrue | false => hfalse, hsingle, hsize⟩
  have hperm := hall s hreach hquiet
  rw [hfile, hformatted] at hperm
  exact absurd hperm.length_eq (by decide)

end TinyHTTP.Log
