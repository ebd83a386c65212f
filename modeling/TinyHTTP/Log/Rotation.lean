import TinyHTTP.Log.FileNames

/-!
# TinyHTTP — the day of a line and the day of its file

`write_log` sees that a day has changed by the day of the month, the only thing that it
remembers. A line that comes a whole number of months later, before any line on a day with
another number, goes on in the old file, unless it fills a number of lines.

* `lines_in_day` — each line is in a file with its date, as long as no call comes in that
  way, and no longer.
-/

namespace TinyHTTP.Log

open TinyHTTP.Lib

/-- Each line is in a file whose name begins with the date of the line. -/
def DaysRight (fileName : List UInt8) (s : LogRun) : Prop :=
  ∀ e ∈ s.entries, dirPart fileName ++ dayText e.time.date <+: e.file

/-- A call that opens no file comes on the day of the open file; a call that opens one has a date
that fits into its array. -/
def DayKept (s : LogRun) (c : WriteCall) : Prop :=
  if s.log.today = c.time.date.day ∧ ¬ s.log.Full then c.time.date = s.openDate
  else (formatInt c.time.date.year).length ≤ 9

instance (s : LogRun) (c : WriteCall) : Decidable (DayKept s c) :=
  inferInstanceAs (Decidable (if s.log.today = c.time.date.day ∧ ¬ s.log.Full then
    c.time.date = s.openDate else (formatInt c.time.date.year).length ≤ 9))

-- ---------------------------------------------------------------------------
-- The date in a name
-- ---------------------------------------------------------------------------

/-- The year ends at the first bar. -/
theorem takeWhile_formatInt (x : Int) (xs : List UInt8) :
    (formatInt x ++ 95 :: xs).takeWhile (· ≠ 95) = formatInt x := by
  have hyear : ∀ b ∈ formatInt x, decide (b ≠ 95) = true := by
    intro b hb
    refine decide_eq_true ?_
    rintro rfl
    rcases mem_formatInt hb with h | h <;> cases h
  exact takeWhile_stop hyear rfl

/-- The first two bars part the date; what stands behind it is not mistaken for it. -/
theorem dayText_append_inj {d e : Date} {xs ys : List UInt8}
    (h : dayText d ++ xs = dayText e ++ ys) : d = e ∧ xs = ys := by
  have hpadded : ∀ {n}, n < 100 → (padded 2 n).length = 2 := fun h => length_padded (by decide) h
  have hmonth : ∀ d : Date, (padded 2 d.month).length = 2 :=
    fun d => hpadded (Nat.lt_of_le_of_lt d.month_le (by decide))
  have hday : ∀ d : Date, (padded 2 d.day).length = 2 :=
    fun d => hpadded (Nat.lt_of_le_of_lt d.day_le (by decide))
  simp only [dayText, List.append_assoc, List.cons_append] at h
  have hyear : formatInt d.year = formatInt e.year :=
    calc formatInt d.year
        = (formatInt d.year ++ 95 :: _).takeWhile (· ≠ 95) := (takeWhile_formatInt ..).symm
      _ = (formatInt e.year ++ 95 :: _).takeWhile (· ≠ 95) := by rw [h]
      _ = formatInt e.year := takeWhile_formatInt ..
  obtain ⟨-, h⟩ := List.append_inj h (congrArg _ hyear)
  obtain ⟨hmonths, h⟩ := List.append_inj (List.cons.inj h).2 (by rw [hmonth, hmonth])
  obtain ⟨hdays, h⟩ := List.append_inj (List.cons.inj h).2 (by rw [hday, hday])
  refine ⟨?_, h⟩
  have h₁ := formatInt_inj hyear
  have h₂ := padded_inj hmonths
  have h₃ := padded_inj hdays
  cases d
  cases e
  cases h₁
  cases h₂
  cases h₃
  rfl

theorem length_dirPart_le {fileName : List UInt8} (hfit : Storable fileName) :
    (dirPart fileName).length ≤ 127 := by
  by_cases hmem : 47 ∈ fileName
  · exact Nat.le_of_lt_succ (hfit hmem).1
  · rw [(parts_of_not_mem hmem).1]
    exact Nat.zero_le _

/-- A name that `init` opens has its date. -/
theorem prefix_fullName {fileName : List UInt8} (hfit : Storable fileName) (d : Date) :
    dirPart fileName ++ dayText d <+: fullName fileName d := by
  have hdir := length_dirPart_le hfit
  have hyear := length_formatInt_le d.le_year d.year_lt
  rw [fullName, List.prefix_take_iff, List.length_append, length_dayText, List.append_assoc]
  refine ⟨?_, by omega⟩
  rw [List.prefix_append_right_inj, dateText, List.append_assoc]
  exact List.prefix_append ..

/-- So has a name that `write_log` opens, when the date fits into `tail`. -/
theorem prefix_tailText {fileName : List UInt8} (hfit : Storable fileName) {d : Date}
    (hyear : (formatInt d.year).length ≤ 9) (suffix : List UInt8) :
    dirPart fileName ++ dayText d <+: (dirPart fileName ++ tailText d ++ suffix).take 254 := by
  have hdir := length_dirPart_le hfit
  have htail : dayText d <+: tailText d := by
    rw [tailText, List.prefix_take_iff, length_dayText]
    exact ⟨List.prefix_append .., by omega⟩
  rw [List.prefix_take_iff, List.length_append, length_dayText, List.append_assoc]
  refine ⟨?_, by omega⟩
  rw [List.prefix_append_right_inj]
  exact htail.trans (List.prefix_append ..)

-- ---------------------------------------------------------------------------
-- The open file
-- ---------------------------------------------------------------------------

/-- The open file has its day in its name, and so have the files of the lines. -/
structure InDay (fileName : List UInt8) (maxLines : Int) (s : LogRun) : Prop where
  named : Named fileName maxLines s
  current : ∀ name, s.log.fp = some name → dirPart fileName ++ dayText s.openDate <+: name
  days : DaysRight fileName s

theorem started_inDay {fileName : List UInt8} (hname : ∀ b ∈ fileName, b ≠ 0) {maxLines : Int}
    {s : LogRun} (h : Started fileName maxLines s) : InDay fileName maxLines s := by
  obtain ⟨hinit⟩ := h
  have hcase := init_cases hname hinit
  refine ⟨⟨hcase.storable, hcase.dir, hcase.base, hcase.maxLines⟩, ?_, fun e he => by cases he⟩
  intro name hfp
  rw [hcase.fp, hcase.name_eq, Option.ite_none_right_eq_some] at hfp
  obtain rfl : fullName fileName _ = name := Option.some.inj hfp.2
  exact prefix_fullName hcase.storable _

/-- The line of a step goes to the file that is open then, whose name has the day of that file. -/
theorem step_file {fileName : List UInt8} {maxLines : Int} {s s' : LogRun} {c : WriteCall}
    (hs : InDay fileName maxLines s) (h : s.step c = some s')
    (hyear : s.log.today = c.time.date.day ∧ ¬ s.log.Full ∨
      (formatInt c.time.date.year).length ≤ 9) :
    ∃ file line, s'.log.fp = some file ∧ s'.entries = s.entries ++ [⟨file, c.time, line⟩] ∧
      dirPart fileName ++ dayText s'.openDate <+: file ∧
      s'.openDate =
        if s.log.today = c.time.date.day ∧ ¬ s.log.Full then s.openDate else c.time.date := by
  obtain ⟨l, opened, buf, file, line, hcase, hfp, rfl⟩ := step_cases h
  refine ⟨file, line, hfp, rfl, ?_⟩
  cases hcase with
  | day hday hname =>
    have hrotates : ¬ (s.log.today = c.time.date.day ∧ ¬ s.log.Full) := fun hstay => hday hstay.1
    refine ⟨?_, (if_neg hrotates).symm⟩
    rw [hs.named.dayName, Option.some.injEq] at hname
    obtain rfl : _ = file := Option.some.inj (Option.ite_none_right_eq_some.mp hfp).2
    rw [← hname]
    exact prefix_tailText hs.named.storable (hyear.resolve_left hrotates) _
  | full hday hfull hname =>
    have hrotates : ¬ (s.log.today = c.time.date.day ∧ ¬ s.log.Full) := fun hstay => hstay.2 hfull
    refine ⟨?_, (if_neg hrotates).symm⟩
    rw [hs.named.countName, Option.some.injEq, List.append_assoc _ (keptBase fileName)] at hname
    obtain rfl : _ = file := Option.some.inj (Option.ite_none_right_eq_some.mp hfp).2
    rw [← hname]
    exact prefix_tailText hs.named.storable (hyear.resolve_left hrotates) _
  | stay hday hfull => exact ⟨hs.current file hfp, (if_pos ⟨hday, hfull⟩).symm⟩

theorem inDay_step {fileName : List UInt8} {maxLines : Int} {s s' : LogRun} {c : WriteCall}
    (hs : InDay fileName maxLines s) (hok : DayKept s c) (h : s.step c = some s') :
    InDay fileName maxLines s' := by
  unfold DayKept at hok
  have hyear : s.log.today = c.time.date.day ∧ ¬ s.log.Full ∨
      (formatInt c.time.date.year).length ≤ 9 := by
    split at hok
    · rename_i hstay
      exact Or.inl hstay
    · exact Or.inr hok
  obtain ⟨file, line, hfp, hentries, hprefix, hopen⟩ := step_file hs h hyear
  have hdate : s'.openDate = c.time.date := by
    rw [hopen]
    split
    · rename_i hstay
      rw [if_pos hstay] at hok
      exact hok.symm
    · rfl
  refine ⟨named_step hs.named h, ?_, ?_⟩
  · intro name hname
    obtain rfl : file = name := Option.some.inj (hfp.symm.trans hname)
    exact hprefix
  · intro e he
    rw [hentries] at he
    rcases List.mem_append.mp he with he | he
    · exact hs.days e he
    · obtain rfl := List.mem_singleton.mp he
      rw [← hdate]
      exact hprefix

/-- A line that comes in another way is in a file with another date. -/
theorem dayKept_of_daysRight {fileName : List UInt8} {maxLines : Int} {s s' : LogRun}
    {c : WriteCall} (hs : InDay fileName maxLines s) (h : s.step c = some s')
    (hyear : (formatInt c.time.date.year).length ≤ 9) (hdays : DaysRight fileName s') :
    DayKept s c := by
  obtain ⟨file, line, hfp, hentries, hprefix, hopen⟩ := step_file hs h (Or.inr hyear)
  have hline : dirPart fileName ++ dayText c.time.date <+: file := by
    refine hdays ⟨file, c.time, line⟩ ?_
    rw [hentries]
    exact List.mem_append_right _ (List.mem_singleton_self _)
  unfold DayKept
  split
  · rename_i hstay
    rw [if_pos hstay] at hopen
    obtain ⟨xs, hxs⟩ := hline
    obtain ⟨ys, hys⟩ := hprefix
    rw [← hys, List.append_assoc, List.append_assoc, List.append_cancel_left_eq] at hxs
    rw [← hopen]
    exact (dayText_append_inj hxs).1
  · exact hyear

theorem inDay_reachable {fileName : List UInt8} (hname : ∀ b ∈ fileName, b ≠ 0) {maxLines : Int}
    {s : LogRun} (h : Reachable (Started fileName maxLines) LogRun.step DayKept s) :
    InDay fileName maxLines s :=
  h.invariant (fun _ => started_inDay hname) fun _ _ _ hs hok hstep => inDay_step hs hok hstep

/-- **Each line is in a file of its own day**, in a run whose calls all come on the day of the open
file or open another; and the first call that does not ends this. -/
theorem lines_in_day {fileName : List UInt8} (hname : ∀ b ∈ fileName, b ≠ 0) {maxLines : Int}
    {s : LogRun} (h : Reachable (Started fileName maxLines) LogRun.step DayKept s) :
    DaysRight fileName s ∧
      ∀ c s', s.step c = some s' → (formatInt c.time.date.year).length ≤ 9 →
        (DaysRight fileName s' ↔ DayKept s c) := by
  have hs := inDay_reachable hname h
  refine ⟨hs.days, fun c s' hstep hyear => ⟨?_, fun hok => (inDay_step hs hok hstep).days⟩⟩
  exact dayKept_of_daysRight hs hstep hyear

/-- A line at the beginning of a day. -/
def lineOn (d : Date) : WriteCall := ⟨d.midnight, 1, bytes "timer tick", true⟩

/-- Two lines on one day. -/
theorem lines_in_day_january :
    ∃ s, (s.entries.map (·.file) =
        [bytes "2024_01_15_ServerLog", bytes "2024_01_15_ServerLog"]) ∧
      DaysRight (bytes "ServerLog") s := by
  have hrun : (runFrom (fun s c => decide (DayKept s c)) (bytes "ServerLog") 2000 800000 january
      [lineOn january, lineOn january]).map (fun s => s.entries.map (·.file)) =
      some [bytes "2024_01_15_ServerLog", bytes "2024_01_15_ServerLog"] := by decide +kernel
  obtain ⟨s, hs, hfiles⟩ := Option.map_eq_some_iff.mp hrun
  exact ⟨s, hfiles, (lines_in_day (by decide +kernel)
    (reachable_runFrom (fun _ h _ => h) (fun _ _ => of_decide_eq_true) hs)).1⟩

/-- A month later the day of the month is the same: a line of February in the file of January. -/
theorem february_in_january :
    ¬ ∀ s, Reachable (Started (bytes "ServerLog") 800000) LogRun.step
      (fun s c => s.last.Le c.time) s → DaysRight (bytes "ServerLog") s := by
  intro h
  have hrun : (runFrom (fun s c => decide (s.last.Le c.time)) (bytes "ServerLog") 2000 800000
      january [lineOn january, lineOn february]).map
        (fun s => s.entries.map fun e => (e.file, e.time)) =
      some [(bytes "2024_01_15_ServerLog", january.midnight),
        (bytes "2024_01_15_ServerLog", february.midnight)] := by decide +kernel
  obtain ⟨s, hs, hfiles⟩ := Option.map_eq_some_iff.mp hrun
  have hdays := h s (reachable_runFrom (fun _ h _ => h) (fun _ _ => of_decide_eq_true) hs)
  have hmem : (bytes "2024_01_15_ServerLog", february.midnight) ∈
      s.entries.map fun e => (e.file, e.time) := by
    rw [hfiles]
    exact List.mem_cons_of_mem _ (List.mem_singleton_self _)
  obtain ⟨e, he, heq⟩ := List.mem_map.mp hmem
  have hprefix := hdays e he
  rw [(Prod.mk.inj heq).1, (Prod.mk.inj heq).2] at hprefix
  revert hprefix
  decide +kernel

end TinyHTTP.Log
