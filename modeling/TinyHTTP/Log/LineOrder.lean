import TinyHTTP.Log.WriteLog

/-!
# TinyHTTP — the order of a thread's lines

A line goes to the file through the queue, or past it when the queue is full. Past the
queue it is there before everything that waits, the earlier lines of its own thread
among them.

* `inOrder_step` — a step keeps the lines of each thread in order, if no line goes past
  an earlier line of its thread.
* `file_in_order` — so does a run; and after the first step that is not so, no drained
  file is in order again.
-/

namespace TinyHTTP.Log

open TinyHTTP.Lib

variable {ι T : Type}

/-- A line, and the call of `write_log` that formats it. -/
structure Call (ι T : Type) where
  thread : ι
  number : Nat
  text : T
  deriving DecidableEq

/-- Two lines of one thread are in the order of its calls. -/
def Before (a b : Call ι T) : Prop := a.thread = b.thread → a.number < b.number

/-- The call that a step makes has a number. -/
@[simp] def LogLabel.numbered (number : Nat) : LogLabel ι T → LogLabel ι (Call ι T)
  | .write i text => .write i ⟨i, number, text⟩
  | .run i => .run i
  | .consume => .consume

/-- The calls are numbered as they come. -/
def Logger.numberedStep [DecidableEq ι] (s : Logger ι (Call ι T)) (l : LogLabel ι T) :
    Option (Logger ι (Call ι T)) :=
  s.step (l.numbered s.formatted.length)

/-- The elements of the queue, oldest first. -/
def BlockQueue.items (q : BlockQueue T) : List T :=
  (List.range q.size.toNat).map fun k : Nat => q.array ((q.front + 1 + k) % q.maxSize)

/-- The lines that `asyn_write_log` has not passed to `fputs`. -/
def Logger.waiting (s : Logger ι T) : List T := s.singleLog.toList ++ s.queue.items

/-- The thread that the step writes a line of. -/
def Logger.writer (s : Logger ι (Call ι T)) : LogLabel ι T → Option ι
  | .run i =>
    match s.pc i with
    | .writing _ => some i
    | _ => none
  | _ => none

/-- The step does not write a line of a thread while another of its lines is waiting. -/
def InTurn (s : Logger ι (Call ι T)) (l : LogLabel ι T) : Prop :=
  ∀ i ∈ s.writer l, ∀ a ∈ s.waiting, a.thread ≠ i

theorem Represents.items_eq {q : BlockQueue T} {xs : List T} (h : Represents q xs) :
    q.items = xs := by
  have hlen : q.size.toNat = xs.length := by
    rw [h.size]
    rfl
  rw [BlockQueue.items, hlen]
  refine List.ext_getElem (by simp) fun k _ hk => ?_
  rw [List.getElem_map, List.getElem_range]
  exact h.items k hk

theorem Represents.waiting {s : Logger ι T} {xs : List T} (h : Represents s.queue xs) :
    s.waiting = s.singleLog.toList ++ xs := by
  rw [Logger.waiting, h.items_eq]

-- ---------------------------------------------------------------------------
-- In order
-- ---------------------------------------------------------------------------

/-- The lines that have left their thread, in the order in which they get to the file if no other
does before them. -/
def Logger.passed (s : Logger ι T) (xs : List T) : List T :=
  s.file ++ (s.singleLog.toList ++ xs)

/-- The line that thread `i` has in hand comes after those of the thread that have left it. -/
structure NextOf (s : Logger ι (Call ι T)) (xs : List (Call ι T)) (i : ι) (line : Call ι T) :
    Prop where
  thread : line.thread = i
  number : line.number < s.formatted.length
  before : ∀ a ∈ s.passed xs, Before a line

structure InOrder (s : Logger ι (Call ι T)) (xs : List (Call ι T)) : Prop where
  ordered : (s.passed xs).Pairwise Before
  numbered : ∀ a ∈ s.passed xs, a.number < s.formatted.length
  next : ∀ i, ∀ line ∈ (s.pc i).inHand, NextOf s xs i line

theorem inOrder_initial {s : Logger ι (Call ι T)} (h : LogInitial s) : InOrder s [] := by
  have hpassed : s.passed [] = [] := by
    rw [Logger.passed, h.file, h.singleLog]
    rfl
  refine ⟨by rw [hpassed]; exact .nil, by rw [hpassed]; exact nofun, ?_⟩
  intro i line hline
  rw [h.pc i] at hline
  exact absurd hline (Multiset.notMem_zero line)

/-- Nothing leaves a thread, and no thread has another line in hand. -/
theorem InOrder.keep {s s' : Logger ι (Call ι T)} {xs xs' : List (Call ι T)}
    (h : InOrder s xs) (hpassed : s'.passed xs' = s.passed xs)
    (hformatted : s'.formatted = s.formatted)
    (hhand : ∀ i, ∀ line ∈ (s'.pc i).inHand, line ∈ (s.pc i).inHand) : InOrder s' xs' := by
  refine ⟨hpassed ▸ h.ordered, ?_, ?_⟩
  · rw [hpassed, hformatted]
    exact h.numbered
  · intro i line hline
    obtain ⟨hthread, hnumber, hbefore⟩ := h.next i line (hhand i line hline)
    exact ⟨hthread, hformatted ▸ hnumber, hpassed ▸ hbefore⟩

section
variable [DecidableEq ι] {s s' : Logger ι (Call ι T)} {xs xs' : List (Call ι T)}

/-- The threads other than `i` have what they had in hand. -/
theorem next_of_ne {i j : ι} {p : LogPc (Call ι T)} {line : Call ι T} (hne : j ≠ i)
    (h : line ∈ (Function.update s.pc i p j).inHand) : line ∈ (s.pc j).inHand := by
  rwa [Function.update_of_ne hne] at h

theorem hand_goto {i : ι} {p : LogPc (Call ι T)}
    (hp : ∀ line ∈ p.inHand, line ∈ (s.pc i).inHand) (j : ι) :
    ∀ line ∈ ((s.goto i p).pc j).inHand, line ∈ (s.pc j).inHand := by
  intro line hline
  change line ∈ (Function.update s.pc i p j).inHand at hline
  by_cases hj : j = i
  · subst hj
    rw [Function.update_self] at hline
    exact hp line hline
  · exact next_of_ne hj hline

/-- The line of thread `i` leaves it, and comes before lines of other threads only. -/
theorem InOrder.leave (h : InOrder s xs) (i : ι) (line : Call ι T) (as bs : List (Call ι T))
    (hline : line ∈ (s.pc i).inHand) (hpassed : s.passed xs = as ++ bs)
    (hpassed' : s'.passed xs' = as ++ line :: bs) (hothers : ∀ b ∈ bs, b.thread ≠ i)
    (hformatted : s'.formatted = s.formatted)
    (hpc : s'.pc = Function.update s.pc i .outside) : InOrder s' xs' := by
  obtain ⟨hthread, hnumber, hbefore⟩ := h.next i line hline
  have hordered := h.ordered
  rw [hpassed, List.pairwise_append] at hordered
  obtain ⟨has, hbs, hab⟩ := hordered
  have hmem (a : Call ι T) (ha : a ∈ s'.passed xs') : a = line ∨ a ∈ s.passed xs := by
    rw [hpassed'] at ha
    rw [hpassed]
    exact List.mem_cons.mp (List.perm_middle.mem_iff.mp ha)
  refine ⟨?_, ?_, ?_⟩
  · rw [hpassed', List.pairwise_append]
    refine ⟨has, List.pairwise_cons.mpr ⟨?_, hbs⟩, ?_⟩
    · intro b hb heq
      exact absurd (heq.symm.trans hthread) (hothers b hb)
    · intro a ha b hb
      rcases List.mem_cons.mp hb with rfl | hb
      · exact hbefore a (hpassed ▸ List.mem_append_left _ ha)
      · exact hab a ha b hb
  · intro a ha
    rw [hformatted]
    rcases hmem a ha with rfl | ha
    · exact hnumber
    · exact h.numbered a ha
  · intro j other hother
    rw [hpc] at hother
    by_cases hj : j = i
    · subst hj
      rw [Function.update_self] at hother
      exact absurd hother (Multiset.notMem_zero other)
    · obtain ⟨hthread', hnumber', hbefore'⟩ := h.next j other (next_of_ne hj hother)
      refine ⟨hthread', hformatted ▸ hnumber', ?_⟩
      intro a ha
      rcases hmem a ha with rfl | ha
      · exact fun heq => absurd (hthread'.symm.trans (heq.symm.trans hthread)) hj
      · exact hbefore' a ha

/-- A call formats a line. -/
theorem InOrder.format (h : InOrder s xs) (i : ι) (text : T) {line : Call ι T}
    (hline : line = ⟨i, s.formatted.length, text⟩) (hpassed : s'.passed xs' = s.passed xs)
    (hformatted : s'.formatted = s.formatted ++ [line])
    (hpc : s'.pc = Function.update s.pc i (.testing line)) : InOrder s' xs' := by
  have hlength : s'.formatted.length = s.formatted.length + 1 := by
    rw [hformatted, List.length_append, List.length_singleton]
  refine ⟨hpassed ▸ h.ordered, ?_, ?_⟩
  · intro a ha
    rw [hpassed] at ha
    have := h.numbered a ha
    omega
  · intro j other hother
    rw [hpc] at hother
    by_cases hj : j = i
    · subst hj
      rw [Function.update_self] at hother
      obtain rfl : other = line := Multiset.mem_singleton.mp hother
      subst hline
      refine ⟨rfl, by rw [hlength]; exact Nat.lt_succ_self _, ?_⟩
      intro a ha _
      exact h.numbered a (hpassed ▸ ha)
    · obtain ⟨hthread, hnumber, hbefore⟩ := h.next j other (next_of_ne hj hother)
      exact ⟨hthread, by omega, hpassed ▸ hbefore⟩

/-- **Step lemma**: the lines of each thread stay in order. -/
theorem inOrder_step {l : LogLabel ι T} (hq : Represents s.queue xs) (h : InOrder s xs)
    (hok : InTurn s l) (hs : s.numberedStep l = some s') :
    ∃ xs', Represents s'.queue xs' ∧ InOrder s' xs' := by
  obtain ⟨xs', hq', hcase⟩ := log_cases hq hs
  refine ⟨xs', hq', ?_⟩
  cases l with
  | write i text =>
    cases hcase with
    | write hpc => exact h.format i text rfl rfl rfl rfl
  | run i =>
    cases hcase with
    | @test _ line hpc =>
      have hhand : LogPc.inHand (if s.queue.full then .writing line else .pushing line) =
          (s.pc i).inHand := by
        rw [hpc]
        split <;> rfl
      exact h.keep rfl rfl (hand_goto fun other hother => hhand ▸ hother)
    | @push _ line queue hpc hfull =>
      refine h.leave i line (s.passed xs) [] ?_ ?_ ?_ nofun rfl rfl
      · simp [hpc]
      · rw [List.append_nil]
      · simp [Logger.passed, Logger.goto]
    | refuse hpc hfull =>
      have hnothing (other : Call ι T) (hother : other ∈ (LogPc.outside : LogPc _).inHand) :
          other ∈ (s.pc i).inHand := absurd hother (Multiset.notMem_zero other)
      exact h.keep rfl rfl (hand_goto hnothing)
    | @direct _ line hpc =>
      refine h.leave i line s.file (s.singleLog.toList ++ xs) ?_ rfl ?_ ?_ rfl rfl
      · simp [hpc]
      · simp [Logger.passed, Logger.goto]
      · rw [← hq.waiting]
        exact hok i (by simp [Logger.writer, hpc])
  | consume =>
    cases hcase with
    | put hsingle =>
      exact h.keep (by simp [Logger.passed, hsingle]) rfl fun _ _ hline => hline
    | take hsingle hxs =>
      exact h.keep (by simp [Logger.passed, hsingle, hxs]) rfl fun _ _ hline => hline

-- ---------------------------------------------------------------------------
-- Out of order
-- ---------------------------------------------------------------------------

/-- What has left its thread gets to the file in its order, whatever comes between. -/
theorem passed_sublist {l : LogLabel ι T} (hq : Represents s.queue xs)
    (hs : s.numberedStep l = some s') :
    ∃ xs', Represents s'.queue xs' ∧ (s.passed xs).Sublist (s'.passed xs') := by
  obtain ⟨xs', hq', hcase⟩ := log_cases hq hs
  refine ⟨xs', hq', ?_⟩
  generalize l.numbered s.formatted.length = numbered at hcase
  cases hcase with
  | write hpc | test hpc | refuse hpc hfull => exact .refl _
  | @push i line queue hpc hfull =>
    exact .append (.refl _) (.append (.refl _) (List.sublist_append_left _ _))
  | @direct i line hpc =>
    exact .append (List.sublist_append_left _ _) (.refl _)
  | put hsingle => simp [Logger.passed, hsingle]
  | take hsingle hxs => simp [Logger.passed, hsingle, hxs]

/-- A line that goes past an earlier one of its thread is ahead of it. -/
theorem InOrder.overtaken {l : LogLabel ι T} (hq : Represents s.queue xs) (h : InOrder s xs)
    (hok : ¬ InTurn s l) (hs : s.numberedStep l = some s') :
    ∃ xs', Represents s'.queue xs' ∧ ¬ (s'.passed xs').Pairwise Before := by
  simp only [InTurn, not_forall, not_not] at hok
  obtain ⟨i, hwriter, a, ha, hthread⟩ := hok
  cases l with
  | write j text => cases hwriter
  | consume => cases hwriter
  | run j =>
    cases hpc : s.pc j with
    | outside | testing line | pushing line =>
      simp only [Logger.writer, hpc] at hwriter
      cases hwriter
    | writing line =>
      simp only [Logger.writer, hpc] at hwriter
      obtain rfl : j = i := Option.some.inj hwriter
      rw [hq.waiting] at ha
      have hline : NextOf s xs j line := h.next j line (by simp [hpc])
      have hearlier : a.number < line.number := by
        refine hline.before a (List.mem_append_right _ ha) ?_
        rw [hthread, hline.thread]
      simp only [Logger.numberedStep, LogLabel.numbered, Logger.step, hpc] at hs
      cases hs
      refine ⟨xs, hq, fun hordered => ?_⟩
      have hlater : line.number < a.number := by
        rw [Logger.passed, List.pairwise_append] at hordered
        refine hordered.2.2 line (List.mem_append_right _ (List.mem_singleton_self line)) a ha ?_
        rw [hthread, hline.thread]
      omega

-- ---------------------------------------------------------------------------
-- Runs
-- ---------------------------------------------------------------------------

/-- **The lines of each thread are in order in the file**, if no line is written past another that
its thread has in the queue. From the first one that is, no drained file is in order. -/
theorem file_in_order {s : Logger ι (Call ι T)}
    (h : Reachable LogInitial Logger.numberedStep InTurn s) :
    s.file.Pairwise Before ∧
    ∀ l s', s.numberedStep l = some s' → ¬ InTurn s l →
      ∀ t, Reachable (· = s') Logger.numberedStep (fun _ _ => True) t → t.waiting = [] →
        ¬ t.file.Pairwise Before := by
  have hinv : ∃ xs, Represents s.queue xs ∧ InOrder s xs := by
    refine h.invariant (P := fun s => ∃ xs, Represents s.queue xs ∧ InOrder s xs) ?_ ?_
    · intro s hs
      obtain ⟨garbage, maxSize, hqueue⟩ := hs.queue
      exact ⟨[], represents_init hqueue, inOrder_initial hs⟩
    · rintro s l s' ⟨xs, hq, horder⟩ hok hs
      exact inOrder_step hq horder hok hs
  obtain ⟨xs, hq, horder⟩ := hinv
  refine ⟨horder.ordered.sublist (List.sublist_append_left _ _), ?_⟩
  intro l s' hs hpast t ht hdrained hfile
  have hlost : ∃ xs, Represents t.queue xs ∧ ¬ (t.passed xs).Pairwise Before := by
    refine ht.invariant (P := fun t => ∃ xs, Represents t.queue xs ∧
      ¬ (t.passed xs).Pairwise Before) ?_ ?_
    · rintro s rfl
      exact horder.overtaken hq hpast hs
    · rintro s l s' ⟨xs, hq, hpassed⟩ - hs
      obtain ⟨xs', hq', hsub⟩ := passed_sublist hq hs
      exact ⟨xs', hq', fun hordered => hpassed (hordered.sublist hsub)⟩
  obtain ⟨ys, hqt, hpassed⟩ := hlost
  rw [hqt.waiting] at hdrained
  rw [Logger.passed, hdrained, List.append_nil] at hpassed
  exact hpassed hfile

end

/-- A queue for one line, and two threads. -/
def noCalls : Logger Bool (Call Bool Nat) where
  queue := ⟨fun _ => ⟨false, 0, 0⟩, 0, 1, -1, -1⟩
  pc := fun _ => .outside
  singleLog := none
  file := []
  formatted := []

theorem noCalls_initial : LogInitial noCalls where
  queue := ⟨fun _ => ⟨false, 0, 0⟩, 1, rfl⟩
  pc := fun _ => rfl
  singleLog := rfl
  file := rfl
  formatted := rfl

/-- One thread's lines go through the queue, the other's past it. -/
theorem file_in_order_two : ∃ s : Logger Bool (Call Bool Nat),
    s.file = [⟨false, 1, 8⟩, ⟨true, 0, 7⟩, ⟨true, 2, 9⟩] ∧ s.file.Pairwise Before := by
  have hrun : (runSteps (guarded (fun s l => decide (∀ i ∈ s.writer l, ∀ a ∈ s.waiting,
      a.thread ≠ i)) Logger.numberedStep) noCalls
      [.write true 7, .run true, .run true, .write false 8, .run false, .run false, .consume,
        .consume, .write true 9, .run true, .run true, .consume, .consume]).map
      (fun s => s.file) = some [⟨false, 1, 8⟩, ⟨true, 0, 7⟩, ⟨true, 2, 9⟩] := by
    decide +kernel
  obtain ⟨s, hs, hfile⟩ := Option.map_eq_some_iff.mp hrun
  have hreach := Reachable.of_guarded (fun _ _ h => of_decide_eq_true h) (.init noCalls_initial) hs
  exact ⟨s, hfile, (file_in_order hreach).1⟩

/-- The first line is in the queue when the second finds it full. -/
theorem file_out_of_order : ¬ ∀ s : Logger Bool (Call Bool Nat),
    Reachable LogInitial Logger.numberedStep (fun _ _ => True) s → s.file.Pairwise Before := by
  intro hall
  have hrun : (runSteps Logger.numberedStep noCalls [.write true 7, .run true, .run true,
      .write true 8, .run true, .run true, .consume, .consume]).map (fun s => s.file) =
      some [⟨true, 1, 8⟩, ⟨true, 0, 7⟩] := by
    decide +kernel
  obtain ⟨s, hs, hfile⟩ := Option.map_eq_some_iff.mp hrun
  have hordered := hall s (Reachable.of_run (fun _ _ _ => trivial) (.init noCalls_initial) hs)
  rw [hfile] at hordered
  have hlt : 1 < 0 := (List.pairwise_cons.mp hordered).1 ⟨true, 0, 7⟩ (by simp) rfl
  exact absurd hlt (by decide)

end TinyHTTP.Log
