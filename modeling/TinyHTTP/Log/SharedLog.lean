import TinyHTTP.Lib.Threads
import TinyHTTP.Log.LineBuffer
import TinyHTTP.Log.Partition

/-!
# TinyHTTP — many threads and one log

`write_log` without a queue, as `main` sets it up, called by any number of threads. It
takes its mutex three times: to count the line and maybe change the file, to format the
line, and for `fputs`. Others come in between, so a line can be put into a later file than
the one it was counted for.

* `write_alone` — a call that is not interrupted does what `FileLog.writeLog` says.
* `share_cases` — what a step does.
* `lines_shared` — every line is put once, and a file gets no more than its share of lines
  and one for each other thread.
-/

namespace TinyHTTP.Log

open TinyHTTP.Lib

/-- Where a thread is in `write_log`. -/
inductive WritePc where
  | outside
  /-- behind the first critical section; so many files had been opened -/
  | counted (c : WriteCall) (number : Nat)
  /-- at `fputs`, with `log_str` -/
  | formatted (c : WriteCall) (number : Nat) (line : List UInt8)

/-- A line that `fputs` has got. -/
structure Put (ι : Type) where
  thread : ι
  call : WriteCall
  /-- the number of the file that the line was counted for -/
  counted : Nat
  /-- the number of the file that it is in -/
  file : Nat
  name : FileName
  line : List UInt8
  deriving DecidableEq

structure SharedLog (ι : Type) where
  log : FileLog
  pc : ι → WritePc
  /-- the file that `init` has opened -/
  first : FileName
  /-- the files that `write_log` has opened -/
  opened : List FileName
  calls : List (ι × WriteCall)
  puts : List (Put ι)

inductive ShareLabel (ι : Type) where
  /-- a call of `write_log`, up to the first unlock -/
  | count (i : ι) (c : WriteCall)
  /-- the next critical section of a thread -/
  | run (i : ι)

variable {ι : Type}

def SharedLog.step [DecidableEq ι] (s : SharedLog ι) : ShareLabel ι → Option (SharedLog ι)
  | .count i c =>
    match s.pc i with
    | .outside => do
      let (log, opened) ← s.log.rotate c.time.date c.opens
      let opened := s.opened ++ opened.toList
      return { s with
        log := log
        pc := Function.update s.pc i (.counted c opened.length)
        opened := opened
        calls := s.calls ++ [(i, c)] }
    | _ => none
  | .run i =>
    match s.pc i with
    | .outside => none
    | .counted c number => do
      let (log, line) ← s.log.formatLine c.time c.level c.message
      return { s with log := log, pc := Function.update s.pc i (.formatted c number line) }
    | .formatted c number line => do
      let name ← s.log.fp
      return { s with
        pc := Function.update s.pc i .outside
        puts := s.puts ++ [⟨i, c, number, s.opened.length, name, line⟩] }

/-- After `init`, with a buffer that the prefix of a line fits into. -/
inductive SharedInitial (fileName : List UInt8) (max : Nat) : SharedLog ι → Prop
  | mk {logBufSize : Nat} {d : Date} {opens : Bool} {log : FileLog} {name : FileName}
      (hname : ∀ b ∈ fileName, b ≠ 0) (hsize : 64 ≤ logBufSize) (hlt : logBufSize < 2 ^ 31)
      (h : FileLog.instance.init fileName logBufSize max d opens = some (log, name)) :
      SharedInitial fileName max ⟨log, fun _ => .outside, name, [], [], []⟩

/-- A message is a C string. -/
def MessageClean (_ : SharedLog ι) (l : ShareLabel ι) : Prop :=
  ∀ i c, l = .count i c → ∀ b ∈ c.message, b ≠ 0

/-- The line of a call. -/
def lineOf (c : WriteCall) : List UInt8 := linePrefix c.time c.level ++ c.message ++ [10]

/-- The call that a thread is in. -/
def WritePc.inHand : WritePc → List WriteCall
  | .outside => []
  | .counted c _ => [c]
  | .formatted c _ _ => [c]

/-- The number of the file that the call was counted for. -/
def WritePc.number : WritePc → Option Nat
  | .outside => none
  | .counted _ number => some number
  | .formatted _ number _ => some number

-- ---------------------------------------------------------------------------
-- Steps
-- ---------------------------------------------------------------------------

/-- A call that no other one interrupts does what `FileLog.writeLog` does. -/
theorem write_alone [DecidableEq ι] {s : SharedLog ι} {i : ι} {c : WriteCall} {log : FileLog}
    {opened : Option FileName} {entry : Entry} (hpc : s.pc i = .outside)
    (h : s.log.writeLog c = some (log, opened, entry)) :
    runSteps SharedLog.step s [.count i c, .run i, .run i] = some { s with
      log := log
      opened := s.opened ++ opened.toList
      calls := s.calls ++ [(i, c)]
      puts := s.puts ++ [⟨i, c, (s.opened ++ opened.toList).length,
        (s.opened ++ opened.toList).length, entry.file, entry.line⟩] } := by
  simp only [FileLog.writeLog, Option.bind_eq_bind, Option.bind_eq_some_iff] at h
  obtain ⟨⟨log₁, opened₁⟩, hrotate, ⟨log₂, line⟩, hline, file, hfile, h⟩ := h
  cases h
  dsimp only at hline hfile
  have hback : Function.update s.pc i .outside = s.pc := by
    rw [← hpc, Function.update_eq_self]
  simp [runSteps, SharedLog.step, hpc, hrotate, hline, hfile, hback]

/-- What a step does. -/
inductive ShareCase [DecidableEq ι] (s : SharedLog ι) : ShareLabel ι → SharedLog ι → Prop
  | count {i : ι} {c : WriteCall} {log : FileLog} {opened : Option FileName}
      (hpc : s.pc i = .outside) (hcase : RotateCase s.log c.time.date c.opens log opened) :
      ShareCase s (.count i c) { s with
        log := log
        pc := Function.update s.pc i (.counted c (s.opened ++ opened.toList).length)
        opened := s.opened ++ opened.toList
        calls := s.calls ++ [(i, c)] }
  | format {i : ι} {c : WriteCall} {number : Nat} {buf : Mem} {line : List UInt8}
      (hpc : s.pc i = .counted c number)
      (hline : s.log.formatLine c.time c.level c.message =
        some ({ s.log with buf := buf }, line)) :
      ShareCase s (.run i) { s with
        log := { s.log with buf := buf }
        pc := Function.update s.pc i (.formatted c number line) }
  | put {i : ι} {c : WriteCall} {number : Nat} {line : List UInt8} {name : FileName}
      (hpc : s.pc i = .formatted c number line) (hfp : s.log.fp = some name) :
      ShareCase s (.run i) { s with
        pc := Function.update s.pc i .outside
        puts := s.puts ++ [⟨i, c, number, s.opened.length, name, line⟩] }

theorem share_cases [DecidableEq ι] {s s' : SharedLog ι} {l : ShareLabel ι}
    (hs : s.step l = some s') : ShareCase s l s' := by
  cases l with
  | count i c =>
    cases hpc : s.pc i with
    | outside =>
      simp only [SharedLog.step, hpc, Option.bind_eq_bind, Option.bind_eq_some_iff] at hs
      obtain ⟨⟨log, opened⟩, hrotate, hs⟩ := hs
      cases hs
      exact .count hpc (rotate_cases hrotate)
    | counted c' number =>
      simp only [SharedLog.step, hpc] at hs
      cases hs
    | formatted c' number line =>
      simp only [SharedLog.step, hpc] at hs
      cases hs
  | run i =>
    cases hpc : s.pc i with
    | outside =>
      simp only [SharedLog.step, hpc] at hs
      cases hs
    | counted c number =>
      simp only [SharedLog.step, hpc, Option.bind_eq_bind, Option.bind_eq_some_iff] at hs
      obtain ⟨⟨log, line⟩, hline, hs⟩ := hs
      obtain ⟨buf, rfl⟩ := formatLine_frame hline
      cases hs
      exact .format hpc hline
    | formatted c number line =>
      simp only [SharedLog.step, hpc, Option.bind_eq_bind, Option.bind_eq_some_iff] at hs
      obtain ⟨name, hfp, hs⟩ := hs
      cases hs
      exact .put hpc hfp

-- ---------------------------------------------------------------------------
-- Lines
-- ---------------------------------------------------------------------------

/-- What holds of every line on its way. -/
structure LinesRight (s : SharedLog ι) : Prop where
  room : 64 ≤ s.log.logBufSize ∧ s.log.logBufSize < 2 ^ 31
  fp : ∀ name, s.log.fp = some name → (s.first :: s.opened)[s.opened.length]? = some name
  clean : ∀ i, ∀ c ∈ (s.pc i).inHand, ∀ b ∈ c.message, b ≠ 0
  number : ∀ i, ∀ k ∈ (s.pc i).number, k ≤ s.opened.length
  line : ∀ i c k line, s.pc i = .formatted c k line → line = lineOf c
  puts : ∀ p ∈ s.puts, p.line = lineOf p.call ∧ p.counted ≤ p.file ∧ p.file ≤ s.opened.length ∧
    (s.first :: s.opened)[p.file]? = some p.name

theorem linesRight_initial {fileName : List UInt8} {max : Nat} {s : SharedLog ι}
    (h : SharedInitial fileName max s) : LinesRight s := by
  obtain ⟨hname, hsize, hlt, h⟩ := h
  have hcase := init_cases hname h
  refine ⟨?_, ?_, ?_, ?_, ?_, ?_⟩
  · dsimp only
    rw [hcase.logBufSize]
    exact ⟨hsize, hlt⟩
  · intro name hfp
    dsimp only at hfp ⊢
    rw [hcase.fp] at hfp
    split at hfp
    · exact hfp
    · cases hfp
  · exact fun i c hc => absurd hc List.not_mem_nil
  · rintro i k ⟨⟩
  · rintro i c k line ⟨⟩
  · exact fun p hp => absurd hp List.not_mem_nil

section
variable [DecidableEq ι] {s s' : SharedLog ι} {l : ShareLabel ι}

/-- A file that is opened gets the next number. -/
theorem RotateCase.fp_opened {first : FileName} {opened : List FileName} {log log' : FileLog}
    {d : Date} {opens : Bool} {next : Option FileName}
    (hfp : ∀ name, log.fp = some name → (first :: opened)[opened.length]? = some name)
    (h : RotateCase log d opens log' next) :
    ∀ name, log'.fp = some name →
      (first :: (opened ++ next.toList))[(opened ++ next.toList).length]? = some name := by
  intro name hname
  have hnext (new : FileName) (hnew : (if opens then some new else none) = some name) :
      (first :: (opened ++ [new]))[(opened ++ [new]).length]? = some name := by
    split at hnew
    · rw [List.length_append, List.length_singleton, List.getElem?_cons_succ,
        List.getElem?_concat_length, hnew]
    · cases hnew
  cases h with
  | day => exact hnext _ hname
  | full => exact hnext _ hname
  | stay =>
    rw [Option.toList_none, List.append_nil]
    exact hfp name hname

/-- What is told about each thread, when one of them moves. -/
theorem LinesRight.threads (h : LinesRight s) {i : ι} {p : WritePc} {n : Nat}
    (hn : s.opened.length ≤ n) (hclean : ∀ c ∈ p.inHand, ∀ b ∈ c.message, b ≠ 0)
    (hnumber : ∀ k ∈ p.number, k ≤ n)
    (hline : ∀ c k line, p = .formatted c k line → line = lineOf c) :
    (∀ j, ∀ c ∈ (Function.update s.pc i p j).inHand, ∀ b ∈ c.message, b ≠ 0) ∧
    (∀ j, ∀ k ∈ (Function.update s.pc i p j).number, k ≤ n) ∧
    ∀ j c k line, Function.update s.pc i p j = .formatted c k line → line = lineOf c := by
  refine ⟨?_, ?_, ?_⟩
  · exact (Function.forall_update_iff s.pc fun _ pc => ∀ c ∈ pc.inHand, ∀ b ∈ c.message,
      b ≠ 0).mpr ⟨hclean, fun j _ => h.clean j⟩
  · exact (Function.forall_update_iff s.pc fun _ pc => ∀ k ∈ pc.number, k ≤ n).mpr
      ⟨hnumber, fun j _ k hk => Nat.le_trans (h.number j k hk) hn⟩
  · exact (Function.forall_update_iff s.pc fun _ pc => ∀ c k line, pc = .formatted c k line →
      line = lineOf c).mpr ⟨hline, fun j _ => h.line j⟩

/-- **Step lemma.** -/
theorem linesRight_step (h : LinesRight s) (hok : MessageClean s l) (hs : s.step l = some s') :
    LinesRight s' := by
  cases share_cases hs with
  | @count i c log opened hpc hcase =>
    obtain ⟨-, -, -, hsize⟩ := hcase.frame
    have hle : s.opened.length ≤ (s.opened ++ opened.toList).length := by
      rw [List.length_append]
      exact Nat.le_add_right ..
    obtain ⟨hclean, hnumber, hline⟩ := h.threads (i := i)
      (p := .counted c (s.opened ++ opened.toList).length) hle
      (by simpa [WritePc.inHand] using hok i c rfl) (by simp [WritePc.number]) (by simp)
    refine ⟨hsize ▸ h.room, hcase.fp_opened h.fp, hclean, hnumber, hline, fun p hp => ?_⟩
    obtain ⟨hline, hcounted, hfile, hname⟩ := h.puts p hp
    refine ⟨hline, hcounted, Nat.le_trans hfile hle, ?_⟩
    rw [← List.cons_append, List.getElem?_append_left (Nat.lt_succ_of_le hfile), hname]
  | @format i c number buf line hpc hline =>
    have hmessage := h.clean i c (by
      rw [hpc]
      exact List.mem_singleton_self c)
    have hcounted := h.number i
    rw [hpc] at hcounted
    have hfits := formatLine_fits h.room.2 hline
    rw [formatLine_text h.room.1 h.room.2 hfits hmessage] at hline
    have htext : lineOf c = line := (Prod.mk.inj (Option.some.inj hline)).2
    obtain ⟨hclean, hnumber, hline⟩ := h.threads (i := i) (p := .formatted c number line)
      (Nat.le_refl _) (by simpa [WritePc.inHand] using hmessage) hcounted (by
        rintro c' k line' heq
        cases heq
        exact htext.symm)
    exact ⟨h.room, h.fp, hclean, hnumber, hline, h.puts⟩
  | @put i c number line name hpc hfp =>
    obtain ⟨hclean, hnumber, hline⟩ := h.threads (i := i) (p := .outside) (Nat.le_refl _)
      (by simp [WritePc.inHand]) (by simp [WritePc.number]) (by simp)
    refine ⟨h.room, h.fp, hclean, hnumber, hline, fun p hp => ?_⟩
    rcases List.mem_append.mp hp with hp | hp
    · exact h.puts p hp
    · obtain rfl := List.mem_singleton.mp hp
      refine ⟨h.line i c number line hpc, h.number i number ?_, Nat.le_refl _, h.fp name hfp⟩
      rw [hpc]
      rfl

end

-- ---------------------------------------------------------------------------
-- The lines of a thread
-- ---------------------------------------------------------------------------

/-- The calls of each thread have been put in order, and the last one may be in hand. -/
def PutInOrder [DecidableEq ι] (s : SharedLog ι) : Prop :=
  ∀ i, (s.puts.filter fun p => p.thread = i).map Put.call ++ (s.pc i).inHand =
    (s.calls.filter fun e => e.1 = i).map Prod.snd

theorem putInOrder_step [DecidableEq ι] {s s' : SharedLog ι} {l : ShareLabel ι}
    (h : PutInOrder s) (hs : s.step l = some s') : PutInOrder s' := by
  intro j
  have hj := h j
  cases share_cases hs with
  | @count i c log opened hpc hcase =>
    rw [List.filter_append, List.map_append, ← hj]
    by_cases hji : j = i
    · subst hji
      simp [hpc, WritePc.inHand]
    · simp [Function.update_of_ne hji, Ne.symm hji]
  | @format i c number buf line hpc hline =>
    rw [← hj]
    by_cases hji : j = i
    · subst hji
      simp [hpc, WritePc.inHand]
    · simp [Function.update_of_ne hji]
  | @put i c number line name hpc hfp =>
    rw [← hj, List.filter_append, List.map_append]
    by_cases hji : j = i
    · subst hji
      simp [hpc, WritePc.inHand]
    · simp [Function.update_of_ne hji, Ne.symm hji]

-- ---------------------------------------------------------------------------
-- The lines of a file
-- ---------------------------------------------------------------------------

def WritePc.countedFor (k : Nat) (pc : WritePc) : Nat := if pc.number = some k then 1 else 0

/-- The call was counted for an earlier file than `k`. -/
def WritePc.late (k : Nat) (pc : WritePc) : Nat := if pc.number.any (· < k) then 1 else 0

/-- How many calls have been counted for file `k`. -/
def SharedLog.countedFor [Fintype ι] (s : SharedLog ι) (k : Nat) : Nat :=
  (s.puts.countP fun p => p.counted = k) + total (WritePc.countedFor k) s.pc

/-- How many lines file `k` has that were counted for an earlier one. -/
def SharedLog.late (s : SharedLog ι) (k : Nat) : Nat :=
  s.puts.countP fun p => p.file = k ∧ p.counted < k

structure FilesRight [Fintype ι] (max : Nat) (s : SharedLog ι) : Prop where
  maxLines : s.log.maxLines = max
  counted : ∀ k, s.countedFor k ≤ max
  current : s.countedFor s.opened.length ≤ s.log.count % max + 1
  late : ∀ k, s.late k ≤ Fintype.card ι - 1
  /-- the file that is open may still get all the late lines that are in hand -/
  waiting : s.late s.opened.length + total (WritePc.late s.opened.length) s.pc ≤
    Fintype.card ι - 1

section
variable [Fintype ι] {s s' : SharedLog ι} {l : ShareLabel ι} {max : Nat}

theorem filesRight_initial {fileName : List UInt8} (h : SharedInitial fileName max s) :
    FilesRight max s := by
  obtain ⟨hname, hsize, hlt, h⟩ := h
  have hcase := init_cases hname h
  have hcounted (k : Nat) : total (WritePc.countedFor k) (fun _ : ι => .outside) = 0 :=
    total_zero fun _ => rfl
  have hlate (k : Nat) : total (WritePc.late k) (fun _ : ι => .outside) = 0 :=
    total_zero fun _ => rfl
  refine ⟨hcase.maxLines, fun k => ?_, ?_, fun k => Nat.zero_le _, ?_⟩
  · simp [SharedLog.countedFor, hcounted]
  · simp [SharedLog.countedFor, hcounted]
  · simp [SharedLog.late, hlate]

/-- Nothing has been counted for a file that has not been opened. -/
theorem LinesRight.not_counted (h : LinesRight s) {k : Nat} (hk : s.opened.length < k) :
    s.countedFor k = 0 := by
  have hputs : (s.puts.countP fun p => p.counted = k) = 0 := by
    rw [List.countP_eq_zero]
    intro p hp
    obtain ⟨-, hcounted, hfile, -⟩ := h.puts p hp
    simp only [decide_eq_true_eq]
    omega
  have htotal : total (WritePc.countedFor k) s.pc = 0 := by
    refine total_zero fun i => if_neg fun hnumber => ?_
    have hle := h.number i k hnumber
    omega
  rw [SharedLog.countedFor, hputs, htotal]

omit [Fintype ι] in
theorem LinesRight.not_late (h : LinesRight s) {k : Nat} (hk : s.opened.length < k) :
    s.late k = 0 := by
  rw [SharedLog.late, List.countP_eq_zero]
  intro p hp
  obtain ⟨-, -, hfile, -⟩ := h.puts p hp
  simp only [decide_eq_true_eq]
  omega

variable [DecidableEq ι]

theorem late_le_one (k : Nat) (pc : WritePc) : pc.late k ≤ 1 := by
  unfold WritePc.late
  split
  · exact Nat.le_refl 1
  · exact Nat.zero_le 1

/-- A call that is counted. -/
theorem countedFor_count {i : ι} {c : WriteCall} {n : Nat} (hpc : s.pc i = .outside) (k : Nat)
    (log : FileLog) (opened : List FileName) (calls : List (ι × WriteCall)) :
    SharedLog.countedFor { s with
      log := log
      pc := Function.update s.pc i (.counted c n)
      opened := opened
      calls := calls } k = s.countedFor k + if n = k then 1 else 0 := by
  have htotal := total_update (WritePc.countedFor k) s.pc i (.counted c n)
  rw [hpc] at htotal
  simp only [WritePc.countedFor, WritePc.number, Option.some.injEq, reduceCtorEq, if_false,
    Nat.add_zero] at htotal
  simp only [SharedLog.countedFor]
  omega

theorem countedFor_number {i : ι} {pc : WritePc} (hpc : pc.number = (s.pc i).number) (k : Nat)
    (log : FileLog) :
    SharedLog.countedFor { s with log := log, pc := Function.update s.pc i pc } k =
      s.countedFor k := by
  have htotal := total_update (WritePc.countedFor k) s.pc i pc
  have hsame : pc.countedFor k = (s.pc i).countedFor k := by
    rw [WritePc.countedFor, WritePc.countedFor, hpc]
  simp only [SharedLog.countedFor]
  omega

theorem countP_le_add {α : Type} {p q r : α → Bool} {xs : List α}
    (h : ∀ x ∈ xs, p x = true → q x = true ∨ r x = true) :
    xs.countP p ≤ xs.countP q + xs.countP r := by
  induction xs with
  | nil => exact Nat.zero_le _
  | cons x xs ih =>
    rw [List.forall_mem_cons] at h
    have hxs := ih h.2
    simp only [List.countP_cons]
    by_cases hp : p x = true
    · rcases h.1 hp with hq | hr
      · simp only [hp, hq, if_true]
        omega
      · simp only [hp, hr, if_true]
        omega
    · simp only [hp, Bool.false_eq_true, if_false]
      omega

/-- The thread that opens a file is not late for it. -/
theorem late_total_lt {i : ι} {c : WriteCall} {n : Nat} :
    total (WritePc.late n) (Function.update s.pc i (.counted c n)) ≤ Fintype.card ι - 1 := by
  have hlt : total (WritePc.late n) (Function.update s.pc i (.counted c n)) <
      total (fun _ : WritePc => 1) (Function.update s.pc i (.counted c n)) := by
    refine total_lt (fun j => late_le_one n _) (i := i) ?_
    rw [Function.update_self]
    simp [WritePc.late, WritePc.number]
  have hcard : total (fun _ : WritePc => 1) (Function.update s.pc i (.counted c n)) =
      Fintype.card ι := by
    simp [total]
  omega

/-- The first critical section opens a file. -/
theorem FilesRight.open (hmax : 1 ≤ max) (hlines : LinesRight s) (h : FilesRight max s) {i : ι}
    (hpc : s.pc i = .outside) (c : WriteCall) {log : FileLog} (hlog : log.maxLines = max)
    (name : FileName) :
    FilesRight max { s with
      log := log
      pc := Function.update s.pc i (.counted c (s.opened ++ [name]).length)
      opened := s.opened ++ [name]
      calls := s.calls ++ [(i, c)] } := by
  have hlen : (s.opened ++ [name]).length = s.opened.length + 1 := by simp
  rw [hlen]
  have hlast : s.opened.length < s.opened.length + 1 := Nat.lt_succ_self _
  have hnew := hlines.not_counted hlast
  have hnone := hlines.not_late hlast
  refine ⟨hlog, fun k => ?_, ?_, h.late, ?_⟩
  · rw [countedFor_count hpc]
    split
    · rename_i hk
      subst hk
      omega
    · exact h.counted k
  · dsimp only
    rw [hlen, countedFor_count hpc, hnew, if_pos rfl]
    omega
  · dsimp only
    rw [hlen]
    show s.late (s.opened.length + 1) + _ ≤ _
    rw [hnone, Nat.zero_add]
    exact late_total_lt

/-- The first critical section goes on with the file. -/
theorem FilesRight.stay (hmax : 1 ≤ max) (h : FilesRight max s) {i : ι}
    (hpc : s.pc i = .outside) (c : WriteCall) (hfull : ¬ s.log.Full) :
    FilesRight max { s with
      log := { s.log with count := s.log.count + 1 }
      pc := Function.update s.pc i (.counted c s.opened.length)
      calls := s.calls ++ [(i, c)] } := by
  rw [full_iff h.maxLines] at hfull
  have hsucc := succ_mod hmax hfull
  have hlt := Nat.mod_lt (s.log.count + 1) (Nat.lt_of_lt_of_le Nat.zero_lt_one hmax)
  have hcurrent := h.current
  refine ⟨h.maxLines, fun k => ?_, ?_, h.late, ?_⟩
  · rw [countedFor_count hpc]
    split
    · rename_i hk
      subst hk
      omega
    · exact h.counted k
  · dsimp only
    rw [countedFor_count hpc, if_pos rfl]
    omega
  · have htotal := total_update (WritePc.late s.opened.length) s.pc i
      (.counted c s.opened.length)
    have hself : (WritePc.counted c s.opened.length).late s.opened.length = 0 := by
      simp [WritePc.late, WritePc.number]
    have hwaiting := h.waiting
    show s.late s.opened.length + total (WritePc.late s.opened.length)
      (Function.update s.pc i (.counted c s.opened.length)) ≤ _
    omega

/-- A line is put. -/
theorem FilesRight.put (h : FilesRight max s) {i : ι} {c : WriteCall}
    {number : Nat} {line : List UInt8} (hpc : s.pc i = .formatted c number line)
    (name : FileName) :
    FilesRight max { s with
      pc := Function.update s.pc i .outside
      puts := s.puts ++ [⟨i, c, number, s.opened.length, name, line⟩] } := by
  have hcounted (k : Nat) : SharedLog.countedFor { s with
      pc := Function.update s.pc i .outside
      puts := s.puts ++ [⟨i, c, number, s.opened.length, name, line⟩] } k = s.countedFor k := by
    have htotal := total_update (WritePc.countedFor k) s.pc i .outside
    rw [hpc] at htotal
    simp only [WritePc.countedFor, WritePc.number, reduceCtorEq, if_false, Option.some.injEq]
      at htotal
    simp only [SharedLog.countedFor, List.countP_append, List.countP_singleton,
      decide_eq_true_eq]
    omega
  have hlate (k : Nat) : SharedLog.late { s with
      pc := Function.update s.pc i .outside
      puts := s.puts ++ [⟨i, c, number, s.opened.length, name, line⟩] } k =
        s.late k + if s.opened.length = k then (s.pc i).late k else 0 := by
    simp only [SharedLog.late, List.countP_append, List.countP_singleton, decide_eq_true_eq, hpc,
      WritePc.late, WritePc.number, Option.any_some]
    by_cases hk : s.opened.length = k
    · simp [hk]
    · simp [hk]
  have hwaiting := h.waiting
  have htotal := total_update (WritePc.late s.opened.length) s.pc i .outside
  have hout : WritePc.outside.late s.opened.length = 0 := rfl
  refine ⟨h.maxLines, fun k => ?_, ?_, fun k => ?_, ?_⟩
  · rw [hcounted]
    exact h.counted k
  · rw [hcounted]
    exact h.current
  · rw [hlate]
    split
    · rename_i hk
      subst hk
      omega
    · exact h.late k
  · rw [hlate, if_pos rfl]
    dsimp only
    omega

theorem filesRight_step (hmax : 1 ≤ max) (hlines : LinesRight s) (h : FilesRight max s)
    (hs : s.step l = some s') : FilesRight max s' := by
  cases share_cases hs with
  | @count i c log opened hpc hcase =>
    obtain ⟨-, -, hlog, -⟩ := hcase.frame
    cases hcase with
    | day => exact h.open hmax hlines hpc c (hlog.trans h.maxLines) _
    | full => exact h.open hmax hlines hpc c (hlog.trans h.maxLines) _
    | stay hday hfull =>
      have hstay := h.stay hmax hpc c hfull
      simp only [Option.toList_none, List.append_nil]
      exact hstay
  | @format i c number buf line hpc hline =>
    have hnumber : (WritePc.formatted c number line).number = (s.pc i).number := by
      rw [hpc]
      rfl
    have htotal := total_update (WritePc.late s.opened.length) s.pc i (.formatted c number line)
    have hsame : (WritePc.formatted c number line).late s.opened.length =
        (s.pc i).late s.opened.length := by
      rw [WritePc.late, WritePc.late, hnumber]
    have hwaiting := h.waiting
    refine ⟨h.maxLines, fun k => ?_, ?_, h.late, ?_⟩
    · rw [countedFor_number hnumber]
      exact h.counted k
    · rw [countedFor_number hnumber]
      exact h.current
    · show s.late s.opened.length + total (WritePc.late s.opened.length)
        (Function.update s.pc i (.formatted c number line)) ≤ _
      omega
  | @put i c number line name hpc hfp => exact h.put hpc name

-- ---------------------------------------------------------------------------
-- Runs
-- ---------------------------------------------------------------------------

/-- **Many threads share the log.** Each thread's lines are put once, in order and as it has
formatted them, into files that have been opened since they were counted. For a file at most
`m_max_lines` lines are counted, and it gets no more than one late line for each thread but
one. -/
theorem lines_shared {fileName : List UInt8} (hmax : 1 ≤ max)
    (h : Reachable (SharedInitial fileName max) SharedLog.step MessageClean s) :
    (∀ i, (s.puts.filter fun p => p.thread = i).map Put.call ++ (s.pc i).inHand =
      (s.calls.filter fun e => e.1 = i).map Prod.snd) ∧
    (∀ p ∈ s.puts, p.line = lineOf p.call ∧ p.counted ≤ p.file ∧
      (s.first :: s.opened)[p.file]? = some p.name) ∧
    ∀ k, (s.puts.countP fun p => p.counted = k) ≤ max ∧
      (s.puts.countP fun p => p.file = k ∧ p.counted < k) ≤ Fintype.card ι - 1 ∧
      (s.puts.countP fun p => p.file = k) ≤ max + (Fintype.card ι - 1) := by
  have hall : LinesRight s ∧ PutInOrder s ∧ FilesRight max s := by
    refine Reachable.invariant (P := fun s => LinesRight s ∧ PutInOrder s ∧ FilesRight max s)
      (fun s hs => ?_) (fun s l s' hs hok hstep => ?_) h
    · refine ⟨linesRight_initial hs, fun i => ?_, filesRight_initial hs⟩
      obtain ⟨-, -, -, -⟩ := hs
      rfl
    · obtain ⟨hlines, horder, hfiles⟩ := hs
      exact ⟨linesRight_step hlines hok hstep, putInOrder_step horder hstep,
        filesRight_step hmax hlines hfiles hstep⟩
  obtain ⟨hlines, horder, hfiles⟩ := hall
  refine ⟨horder, fun p hp => ?_, fun k => ?_⟩
  · obtain ⟨hline, hcounted, -, hname⟩ := hlines.puts p hp
    exact ⟨hline, hcounted, hname⟩
  · have hcounted : (s.puts.countP fun p => p.counted = k) ≤ max :=
      Nat.le_trans (Nat.le_add_right ..) (hfiles.counted k)
    have hlate := hfiles.late k
    refine ⟨hcounted, hlate, ?_⟩
    -- a line in the file was counted for it or before it
    have hsplit : (s.puts.countP fun p => p.file = k) ≤
        (s.puts.countP fun p => p.counted = k) + s.late k := by
      refine countP_le_add fun p hp hfile => ?_
      obtain ⟨-, hle, -⟩ := hlines.puts p hp
      simp only [decide_eq_true_eq] at hfile ⊢
      omega
    rw [SharedLog.late] at hsplit hlate
    omega

end

/-- A log with a new file for every line, and two threads in it. -/
def twoWriters : Option (SharedLog Bool) :=
  (FileLog.instance.init (bytes "ServerLog") 64 (1 : Nat) january true).bind fun r =>
    runSteps SharedLog.step ⟨r.1, fun _ => .outside, r.2, [], [], []⟩
      [.count true (lineOn january), .count false (lineOn january), .run true, .run true,
        .run false, .run false]

/-- Both lines are counted before either is put: the last file gets both, as many as it can. -/
theorem lines_shared_late : ∃ s : SharedLog Bool,
    (s.puts.countP fun p => p.file = 2) = 2 ∧
    (∀ p ∈ s.puts, p.line = lineOf p.call ∧ p.counted ≤ p.file ∧
      (s.first :: s.opened)[p.file]? = some p.name) ∧
    (s.puts.countP fun p => p.file = 2) ≤ 1 + (Fintype.card Bool - 1) := by
  have hrun : twoWriters.map (fun s => s.puts.map Put.file) = some [2, 2] := by decide +kernel
  obtain ⟨s, hs, hfiles⟩ := Option.map_eq_some_iff.mp hrun
  obtain ⟨⟨log, name⟩, hinit, hsteps⟩ := Option.bind_eq_some_iff.mp hs
  have hreach : Reachable (SharedInitial (bytes "ServerLog") 1) SharedLog.step MessageClean s := by
    refine .of_run ?_ (.init (.mk (by decide +kernel) (by decide) (by decide) hinit)) hsteps
    intro l hl s i c hcount
    subst hcount
    have hc : c = lineOn january := by simpa [and_or_left, ← or_and_right] using hl
    rw [hc]
    decide +kernel
  obtain ⟨-, hputs, hshare⟩ := lines_shared (Nat.le_refl 1) hreach
  refine ⟨s, ?_, hputs, (hshare 2).2.2⟩
  have hcount : (s.puts.map Put.file).countP (fun k => k = 2) = 2 := by
    rw [hfiles]
    rfl
  rw [List.countP_map] at hcount
  exact hcount

end TinyHTTP.Log
